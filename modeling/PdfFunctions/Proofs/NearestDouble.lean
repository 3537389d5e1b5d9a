import PdfFunctions.Proofs.ExactIntegers

namespace PdfFunctions

open Float.Model (UnpackedFloat Format)
open Float.Model.UnpackedFloat (Sign pack unpack)

structure Parts where
  sign : Sign
  significand : ℕ
  exponent : ℤ

namespace Parts

def unit : Sign → ℚ
  | .negative => -1
  | .positive => 1

def magnitude (p : Parts) : ℚ := p.significand * 2 ^ p.exponent

def value (p : Parts) : ℚ := unit p.sign * p.magnitude

def ofUnpacked : UnpackedFloat → Option Parts
  | .zero s => some ⟨s, 0, -1074⟩
  | .finite s m e _ => some ⟨s, m, e⟩
  | .infinity s => some ⟨s, 2 ^ 52, 972⟩
  | .notANumber => none

structure Canonical (m : ℕ) (e : ℤ) : Prop where
  lt : m < 2 ^ 53
  lower : -1074 ≤ e
  upper : e ≤ 972
  full : 2 ^ 52 ≤ m ∨ e = -1074
  last : e = 972 → m = 2 ^ 52

theorem canonical_zero : Canonical 0 (-1074) := by
  constructor <;> omega

theorem magnitude_nonneg (p : Parts) : 0 ≤ p.magnitude := by
  unfold magnitude
  positivity

end Parts

namespace Binary64

open Parts

def parts? (x : Float) : Option Parts := ofUnpacked x.toModel.unpack

def toRat? (x : Float) : Option ℚ :=
  match x.toModel.unpack with
  | .zero _ => some 0
  | .finite s m e _ => some (value ⟨s, m, e⟩)
  | _ => none

/-- `p` is nearer to `q` than `p'` is, or a tie goes to `p` as its significand is even. -/
def Closer (q : ℚ) (p p' : Parts) : Prop :=
  |p.value - q| < |p'.value - q| ∨
    |p.value - q| = |p'.value - q| ∧ p.significand % 2 = 0 ∧ p'.significand % 2 = 1

/-- `x` is the double nearest to `q`, infinity standing where the next double would be. -/
def Nearest (q : ℚ) (x : Float) : Prop :=
  ∃ p, parts? x = some p ∧
    ∀ y p', parts? y = some p' → p'.value ≠ p.value → Closer q p p'

/-- The double nearest to a number is the only one. -/
theorem Nearest.unique {q : ℚ} {x y : Float} (hx : Nearest q x) (hy : Nearest q y) :
    (parts? x).map value = (parts? y).map value := by
  obtain ⟨p, hp, hclosest⟩ := hx
  obtain ⟨p', hp', hclosest'⟩ := hy
  by_contra hne
  rw [hp, hp', Option.map_some, Option.map_some, Option.some.injEq] at hne
  rcases hclosest y p' hp' (Ne.symm hne) with hlt | ⟨heq, heven, hodd⟩
  · rcases hclosest' x p hp hne with hgt | ⟨heq', -, -⟩
    · exact lt_asymm hlt hgt
    · exact hlt.ne heq'.symm
  · rcases hclosest' x p hp hne with hgt | ⟨-, heven', -⟩
    · exact hgt.ne heq.symm
    · omega

section fields

variable (b : BitVec Format.binary64.numBits)

theorem toNat_significand :
    (1#1 ++ UnpackedFloat.unpackMantissa b).toNat =
      2 ^ 52 + (UnpackedFloat.unpackMantissa b).toNat := by
  rw [BitVec.toNat_append, ← Nat.shiftLeft_add_eq_or_of_lt (BitVec.isLt _)]
  rfl

/-- A double is finite, zero or infinite as its fields say, and all its parts are in range. -/
theorem canonical_unpack {p : Parts} (h : ofUnpacked (unpack Format.binary64 b) = some p) :
    Canonical p.significand p.exponent := by
  have hm : (UnpackedFloat.unpackMantissa b).toNat < 2 ^ 52 := BitVec.isLt _
  have he : (UnpackedFloat.unpackExponent b).toNat < 2 ^ 11 := BitVec.isLt _
  -- by the bits of the exponent: infinity or NaN, then zero or subnormal, then normal
  unfold unpack at h
  dsimp only at h
  split at h
  · split at h
    · obtain rfl := Option.some.inj h
      constructor <;> dsimp only <;> omega
    · cases h
  · rename_i hones
    have hlast : (UnpackedFloat.unpackExponent b).toNat ≠ 2047 :=
      fun hbits => hones (BitVec.eq_of_toNat_eq hbits)
    split at h
    · rename_i hzero
      split at h
      · obtain rfl := Option.some.inj h
        exact canonical_zero
      · obtain rfl := Option.some.inj h
        rw [hzero]
        change Canonical (UnpackedFloat.unpackMantissa b).toNat (-1074)
        constructor <;> omega
    · rename_i hzero
      have hfirst : (UnpackedFloat.unpackExponent b).toNat ≠ 0 :=
        fun hbits => hzero (BitVec.eq_of_toNat_eq hbits)
      obtain rfl := Option.some.inj h
      dsimp only
      rw [toNat_significand]
      change Canonical _ (((UnpackedFloat.unpackExponent b).toNat : ℤ) - 1075)
      constructor <;> omega

end fields

theorem canonical_of_parts {x : Float} {p : Parts} (h : parts? x = some p) :
    Canonical p.significand p.exponent := canonical_unpack _ h

section packing

variable {s : Sign} {m : ℕ} {e : ℤ} {hm : 0 < m}

theorem unpack_pack_zero (s : Sign) :
    unpack Format.binary64 (pack Format.binary64 (.zero s)) = .zero s := by
  cases s <;> rfl

theorem unpack_pack_infinity (s : Sign) :
    unpack Format.binary64 (pack Format.binary64 (.infinity s)) = .infinity s := by
  cases s <;> rfl

/-- A significand that is not full is packed with the least exponent. -/
theorem unpack_pack_subnormal (hlt : m < 2 ^ 52) :
    unpack Format.binary64 (pack Format.binary64 (.finite s m (-1074) hm)) =
      .finite s m (-1074) hm := by
  have hbits : (BitVec.ofNat 52 m).toNat = m := Nat.mod_eq_of_lt hlt
  have hne : BitVec.ofNat 52 m ≠ 0#_ := by
    intro h
    rw [h] at hbits
    exact hm.ne hbits
  have hlog : m.log2 + 1 ≠ Format.binary64.mantissaBits := by
    have := (Nat.log2_lt hm.ne').2 hlt
    change m.log2 + 1 ≠ 53
    omega
  have hfits : ¬ 2 ^ Format.binary64.exponentBits ≤ ((-1074 : ℤ) + Format.binary64.exponentBias +
      Format.binary64.mantissaBitsWithoutImplicit).toNat + 1 := by decide
  have hones : (0#11) ≠ -1#_ := by decide
  simp only [pack, if_neg hfits, if_neg hlog, unpack,
    UnpackedFloat.unpackMantissa_packComponents, UnpackedFloat.unpackExponent_packComponents,
    unpackSign_packComponents, ofBitVec_toBitVec, if_neg hones, if_true, dif_neg hne, hbits]
  rfl

/-- An exponent that is too large gives infinity. -/
theorem pack_of_large (he : 972 ≤ e) :
    pack Format.binary64 (.finite s m e hm) = pack Format.binary64 (.infinity s) := by
  have hlarge : 2 ^ Format.binary64.exponentBits ≤ (e + Format.binary64.exponentBias +
      Format.binary64.mantissaBitsWithoutImplicit).toNat + 1 := by
    change 2048 ≤ (e + 1023 + 52).toNat + 1
    omega
  simp only [pack, if_pos hlarge]

theorem unpack_pack_of_full (hlo : -1074 ≤ e) (hhi : e ≤ 971) (hlt : m < 2 ^ 53)
    (hfull : 2 ^ 52 ≤ m ∨ e = -1074) :
    unpack Format.binary64 (pack Format.binary64 (.finite s m e hm)) = .finite s m e hm := by
  by_cases hnormal : 2 ^ 52 ≤ m
  · exact unpack_pack hm hnormal hlt (by omega) (by omega)
  · obtain rfl : e = -1074 := by omega
    exact unpack_pack_subnormal (by omega)

end packing

def packed (u : UnpackedFloat) : Float := .ofModel (.pack u)

theorem parts_packed (u : UnpackedFloat) :
    parts? (packed u) = ofUnpacked (unpack Format.binary64 (pack Format.binary64 u)) := rfl

theorem parts_packed_zero (s : Sign) : parts? (packed (.zero s)) = some ⟨s, 0, -1074⟩ := by
  rw [parts_packed, unpack_pack_zero]
  rfl

theorem parts_packed_infinity (s : Sign) :
    parts? (packed (.infinity s)) = some ⟨s, 2 ^ 52, 972⟩ := by
  rw [parts_packed, unpack_pack_infinity]
  rfl

/-- The integer nearest to `y`, the even one of two equally near. -/
structure RoundsEven (r : ℕ) (y : ℚ) : Prop where
  near : |r - y| ≤ 1 / 2
  even : |r - y| = 1 / 2 → r % 2 = 0

/-- Another integer is further away, or it is the odd one of two that are equally near. -/
theorem RoundsEven.closer {r k : ℕ} {y : ℚ} (h : RoundsEven r y) (hne : k ≠ r) :
    |r - y| < |k - y| ∨ |r - y| = |k - y| ∧ r % 2 = 0 ∧ k % 2 = 1 := by
  have hgap : 1 ≤ |(k : ℚ) - r| := by
    have hint : (1 : ℤ) ≤ |(k : ℤ) - r| := Int.one_le_abs (by omega)
    exact_mod_cast hint
  have htriangle : |(k : ℚ) - r| ≤ |k - y| + |r - y| := by
    have := abs_sub_le (k : ℚ) y r
    rwa [abs_sub_comm y] at this
  have hnear := h.near
  rcases hnear.lt_or_eq with hlt | heq
  · left
    linarith
  · rcases (show 1 / 2 ≤ |(k : ℚ) - y| by linarith).lt_or_eq with hlt | heq'
    · left
      linarith
    · right
      have heven := h.even heq
      -- `y` lies halfway between the two, so they are neighbours
      have hone : |(k : ℚ) - r| = 1 := by linarith
      have hneighbour : |(k : ℤ) - r| = 1 := by exact_mod_cast hone
      refine ⟨heq.trans heq', heven, ?_⟩
      rcases abs_eq (by omega : (0 : ℤ) ≤ 1) |>.1 hneighbour with h1 | h1 <;> omega

/-- `2 ^ t` is the weight of the last digit of doubles of the size of `q`. -/
structure Scale (q : ℚ) (t : ℤ) : Prop where
  nonneg : 0 ≤ q
  lower : -1074 ≤ t
  lt : q < 2 ^ 53 * 2 ^ t
  full : t = -1074 ∨ 2 ^ 52 * 2 ^ t ≤ q

theorem abs_mul_zpow_sub (a q : ℚ) (t : ℤ) : |a * 2 ^ t - q| = |a - q / 2 ^ t| * 2 ^ t := by
  have hpos : (0 : ℚ) < 2 ^ t := by positivity
  rw [← abs_of_pos hpos, ← abs_mul, abs_of_pos hpos, sub_mul, div_mul_cancel₀ _ hpos.ne']

/-- A double with a greater exponent is a multiple of `2 ^ t`. -/
theorem eq_mul_zpow {m : ℕ} {e t : ℤ} (h : t ≤ e) :
    (m : ℚ) * 2 ^ e = (m * 2 ^ (e - t).toNat : ℕ) * 2 ^ t := by
  have hpow : (2 : ℚ) ^ e = 2 ^ (e - t).toNat * 2 ^ t := by
    rw [← zpow_natCast, ← zpow_add₀ two_ne_zero]
    congr 1
    omega
  push_cast
  rw [hpow, mul_assoc]

section closer

variable {q : ℚ} {t e : ℤ} {r m : ℕ}

/-- No multiple of `2 ^ t` is nearer, and an odd one has the exponent `t` itself. -/
theorem RoundsEven.closer_multiple (hr : RoundsEven r (q / 2 ^ t)) (hle : t ≤ e)
    (hne : (m : ℚ) * 2 ^ e ≠ r * 2 ^ t) :
    |r * 2 ^ t - q| < |m * 2 ^ e - q| ∨
      |r * 2 ^ t - q| = |m * 2 ^ e - q| ∧ r % 2 = 0 ∧ m % 2 = 1 := by
  have hpos : (0 : ℚ) < 2 ^ t := by positivity
  rw [eq_mul_zpow hle] at hne ⊢
  have hk : m * 2 ^ (e - t).toNat ≠ r := by
    rintro rfl
    exact hne rfl
  rw [abs_mul_zpow_sub, abs_mul_zpow_sub]
  rcases hr.closer hk with hcloser | ⟨htie, heven, hodd⟩
  · exact .inl (mul_lt_mul_of_pos_right hcloser hpos)
  · refine .inr ⟨by rw [htie], heven, ?_⟩
    rcases Nat.eq_zero_or_pos (e - t).toNat with hzero | hpos
    · rwa [hzero, pow_zero, mul_one] at hodd
    · rw [Nat.mul_mod, Nat.pow_mod, Nat.mod_self, Nat.zero_pow hpos] at hodd
      simp at hodd

/-- Doubles with a smaller exponent lie below `2 ^ 52 * 2 ^ t`, and that is a multiple of `2 ^ t` on
the way to `q`. -/
theorem RoundsEven.closer_finer (hscale : Scale q t) (hr : RoundsEven r (q / 2 ^ t))
    (hc : Canonical m e) (hlt : e < t) : |r * 2 ^ t - q| < |m * 2 ^ e - q| := by
  -- all doubles of a finer grid lie below 2^52 * 2^t, which is itself on the grid and at most q
  have hfull : 2 ^ 52 * 2 ^ t ≤ q := by
    have hlower := hc.lower
    exact hscale.full.resolve_left (by omega)
  have hbelow : (m : ℚ) * 2 ^ e < 2 ^ 52 * 2 ^ t := by
    have hm : (m : ℚ) < 2 ^ 53 := by exact_mod_cast hc.lt
    calc (m : ℚ) * 2 ^ e < 2 ^ 53 * 2 ^ e := mul_lt_mul_of_pos_right hm (by positivity)
      _ ≤ 2 ^ 53 * 2 ^ (t - 1) := by
        gcongr
        · norm_num
        · omega
      _ = 2 ^ 52 * 2 ^ t := by
        rw [zpow_sub_one₀ two_ne_zero]
        ring
  have hmultiple : |r * 2 ^ t - q| ≤ |2 ^ 52 * 2 ^ t - q| := by
    by_cases hsame : ((2 ^ 52 : ℕ) : ℚ) * 2 ^ t = r * 2 ^ t
    · rw [← hsame]
      push_cast
      exact le_rfl
    · rcases hr.closer_multiple le_rfl hsame with hcloser | ⟨htie, -, -⟩
      · exact_mod_cast hcloser.le
      · exact_mod_cast htie.le
  rw [abs_of_nonpos (sub_nonpos.2 hfull)] at hmultiple
  rw [abs_of_nonpos (sub_nonpos.2 (hbelow.le.trans hfull)) (a := (m : ℚ) * 2 ^ e - q)]
  linarith

/-- Of the multiples of `2 ^ t` the nearest one is nearest of all doubles. -/
theorem RoundsEven.closer_double (hscale : Scale q t) (hr : RoundsEven r (q / 2 ^ t))
    (hc : Canonical m e) (hne : (m : ℚ) * 2 ^ e ≠ r * 2 ^ t) :
    |r * 2 ^ t - q| < |m * 2 ^ e - q| ∨
      |r * 2 ^ t - q| = |m * 2 ^ e - q| ∧ r % 2 = 0 ∧ m % 2 = 1 := by
  rcases le_or_gt t e with hle | hlt
  · exact hr.closer_multiple hle hne
  · exact .inl (hr.closer_finer hscale hc hlt)

end closer

theorem abs_unit_mul_sub (s : Sign) (a q : ℚ) : |unit s * a - unit s * q| = |a - q| := by
  rw [← mul_sub, abs_mul]
  cases s <;> norm_num [unit]

/-- A number of the other sign is further away than zero. -/
theorem abs_sub_of_ne {s s' : Sign} (hne : s' ≠ s) {a q : ℚ} (ha : 0 ≤ a) (hq : 0 ≤ q) :
    |unit s' * a - unit s * q| = a + q := by
  cases s <;> cases s'
  · exact absurd rfl hne
  · rw [unit, unit, neg_one_mul, one_mul, sub_neg_eq_add, abs_of_nonneg (by positivity)]
  · rw [unit, unit, neg_one_mul, one_mul, neg_sub_left, abs_neg, abs_of_nonneg (by positivity),
      add_comm]
  · exact absurd rfl hne

def Closest (q : ℚ) (p : Parts) : Prop :=
  ∀ m e, Canonical m e → (m : ℚ) * 2 ^ e ≠ p.magnitude →
    |p.magnitude - q| < |m * 2 ^ e - q| ∨
      |p.magnitude - q| = |m * 2 ^ e - q| ∧ p.significand % 2 = 0 ∧ m % 2 = 1

/-- Zero is a double, and even. -/
theorem Closest.lt_of_ne {q : ℚ} {p : Parts} (h : Closest q p) (hq : 0 ≤ q)
    (hne : p.magnitude ≠ 0) : |p.magnitude - q| < q := by
  have hclose := h 0 (-1074) canonical_zero (by simpa using Ne.symm hne)
  rw [Nat.cast_zero, zero_mul, zero_sub, abs_neg, abs_of_nonneg hq] at hclose
  rcases hclose with hlt | ⟨-, -, hodd⟩
  · exact hlt
  · exact absurd hodd (by decide)

theorem Closest.nearest {q : ℚ} {x : Float} {p : Parts} (hq : 0 ≤ q) (hx : parts? x = some p)
    (h : Closest q p) : Nearest (unit p.sign * q) x := by
  refine ⟨p, hx, fun y p' hy hne => ?_⟩
  have hp' := p'.magnitude_nonneg
  unfold Closer value at *
  by_cases hs : p'.sign = p.sign
  · rw [hs, abs_unit_mul_sub, abs_unit_mul_sub]
    apply h _ _ (canonical_of_parts hy)
    intro hsame
    exact hne (by rw [hs, magnitude, hsame])
  -- a double of the other sign lies beyond zero, which is no closer than p
  · left
    rw [abs_unit_mul_sub, abs_sub_of_ne hs hp' hq]
    by_cases hzero : p.magnitude = 0
    · have hpos : 0 < p'.magnitude :=
        hp'.lt_of_ne fun hmag => hne (by rw [hzero, ← hmag, mul_zero, mul_zero])
      rw [hzero, zero_sub, abs_neg, abs_of_nonneg hq]
      exact lt_add_of_pos_left q hpos
    · exact (h.lt_of_ne hq hzero).trans_le (le_add_of_nonneg_left hp')

theorem RoundsEven.closest {q : ℚ} {t : ℤ} {r : ℕ} {p : Parts} (hscale : Scale q t)
    (hr : RoundsEven r (q / 2 ^ t)) (hp : p.magnitude = r * 2 ^ t)
    (heven : r % 2 = 0 → p.significand % 2 = 0) : Closest q p := by
  intro m e hc hne
  rw [hp] at hne ⊢
  rcases hr.closer_double hscale hc hne with hlt | ⟨htie, hr, hm⟩
  · exact .inl hlt
  · exact .inr ⟨htie, heven hr, hm⟩

theorem two_pow_mul_zpow (a : ℕ) (e : ℤ) : (2 : ℚ) ^ a * 2 ^ e = 2 ^ (a + e) := by
  rw [← zpow_natCast, ← zpow_add₀ two_ne_zero]

theorem magnitude_infinity (s : Sign) : (⟨s, 2 ^ 52, 972⟩ : Parts).magnitude = 2 ^ (1024 : ℤ) := by
  rw [magnitude, Nat.cast_pow, Nat.cast_ofNat]
  exact two_pow_mul_zpow 52 972

theorem lt_of_exponent {m : ℕ} {e : ℤ} (hm : m < 2 ^ 53) (he : e ≤ 971) :
    m * 2 ^ e < (2 : ℚ) ^ (1024 : ℤ) := by
  have hlt : (m : ℚ) < 2 ^ 53 := by exact_mod_cast hm
  calc (m : ℚ) * 2 ^ e < 2 ^ 53 * 2 ^ e := mul_lt_mul_of_pos_right hlt (by positivity)
    _ = 2 ^ (53 + e) := two_pow_mul_zpow 53 e
    _ ≤ 2 ^ (1024 : ℤ) := zpow_le_zpow_right₀ one_le_two (by omega)

/-- All finite doubles are below `2 ^ 1024`. -/
theorem lt_overflow {m : ℕ} {e : ℤ} (hc : Canonical m e)
    (hne : m * 2 ^ e ≠ (2 : ℚ) ^ (1024 : ℤ)) : m * 2 ^ e < (2 : ℚ) ^ (1024 : ℤ) := by
  rcases hc.upper.lt_or_eq with hlt | rfl
  · exact lt_of_exponent hc.lt (by omega)
  · refine absurd ?_ hne
    rw [hc.last rfl, Nat.cast_pow, Nat.cast_ofNat]
    exact two_pow_mul_zpow 52 972

theorem closest_infinity {q : ℚ} (hq : 2 ^ (1024 : ℤ) ≤ q) (s : Sign) :
    Closest q ⟨s, 2 ^ 52, 972⟩ := by
  intro m e hc hne
  rw [magnitude_infinity] at hne ⊢
  left
  have hlt := lt_overflow hc hne
  rw [abs_of_nonpos (sub_nonpos.2 hq), abs_of_nonpos (sub_nonpos.2 (hlt.le.trans hq))]
  exact neg_lt_neg (sub_lt_sub_right hlt q)

end Binary64

end PdfFunctions
