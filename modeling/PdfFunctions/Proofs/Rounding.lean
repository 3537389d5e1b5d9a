import PdfFunctions.Proofs.NearestDouble

namespace PdfFunctions.Binary64

open Float.Model (UnpackedFloat Format totalExponent)
open Float.Model.UnpackedFloat
open Parts

/-- What the significand `m` and its two bits say of the exact number. -/
inductive Represents : ExtendedMantissa → ℚ → Prop where
  | exact {m : ℕ} {y : ℚ} (h : y = m) : Represents ⟨m, false, false⟩ y
  | below {m : ℕ} {y : ℚ} (hlo : m < y) (hhi : y < m + 1 / 2) : Represents ⟨m, false, true⟩ y
  | half {m : ℕ} {y : ℚ} (h : y = m + 1 / 2) : Represents ⟨m, true, false⟩ y
  | above {m : ℕ} {y : ℚ} (hlo : m + 1 / 2 < y) (hhi : y < m + 1) : Represents ⟨m, true, true⟩ y

section represents

variable {em : ExtendedMantissa} {y : ℚ}

/-- Both bits are clear exactly if nothing has been lost. -/
theorem Represents.exact_or_inside (h : Represents em y) :
    (em.roundBit || em.stickyBit) = false ∧ y = em.mantissa ∨
      (em.roundBit || em.stickyBit) = true ∧ em.mantissa < y ∧ y < em.mantissa + 1 := by
  cases h with
  | exact h => exact .inl ⟨rfl, h⟩
  | below hlo hhi => exact .inr ⟨rfl, hlo, by linarith⟩
  | half h => exact .inr ⟨rfl, by linarith, by linarith⟩
  | above hlo hhi => exact .inr ⟨rfl, by linarith, hhi⟩

theorem Represents.floor (h : Represents em y) : em.mantissa ≤ y ∧ y < em.mantissa + 1 := by
  rcases h.exact_or_inside with ⟨-, rfl⟩ | ⟨-, hlo, hhi⟩
  · exact ⟨le_rfl, lt_add_one _⟩
  · exact ⟨hlo.le, hhi⟩

theorem Represents.shiftRightOne (h : Represents em y) :
    Represents em.shiftRightOne (y / 2) := by
  have hm : (em.mantissa : ℚ) = 2 * (em.mantissa / 2 : ℕ) + (em.mantissa % 2 : ℕ) := by
    exact_mod_cast (Nat.div_add_mod em.mantissa 2).symm
  unfold ExtendedMantissa.shiftRightOne
  rcases Nat.mod_two_eq_zero_or_one em.mantissa with hbit | hbit <;> rw [hbit] at hm ⊢ <;>
    push_cast at hm <;> rcases h.exact_or_inside with ⟨hsticky, hy⟩ | ⟨hsticky, hlo, hhi⟩ <;>
    rw [hsticky]
  · exact .exact (by linarith)
  · exact .below (by linarith) (by linarith)
  · exact .half (by linarith)
  · exact .above (by linarith) (by linarith)

theorem Represents.shiftRight (h : Represents em y) (n : ℕ) :
    Represents (em >>> n) (y / 2 ^ n) := by
  induction n with
  | zero =>
    rw [pow_zero, div_one]
    exact h
  | succ n ih =>
    rw [pow_succ, ← div_div]
    exact ih.shiftRightOne

/-- The bits decide as the exact number does. -/
theorem Represents.roundsEven (h : Represents em y) : RoundsEven em.roundedMantissa y := by
  cases h with
  | @exact m y h =>
    subst h
    constructor <;> simp [ExtendedMantissa.roundedMantissa, ExtendedMantissa.accuracy,
      Accuracy.roundToNearestEven]
  | @below m y hlo hhi =>
    have hdist : |(m : ℚ) - y| = y - m := by rw [abs_sub_comm, abs_of_nonneg (by linarith)]
    change RoundsEven m y
    constructor
    · linarith
    · intro htie
      linarith
  | @half m y h =>
    change RoundsEven (m + m % 2) y
    refine ⟨?_, fun _ => by omega⟩
    subst h
    rcases Nat.mod_two_eq_zero_or_one m with hbit | hbit <;> rw [hbit] <;> push_cast <;>
      rw [abs_le] <;> constructor <;> linarith
  | @above m y hlo hhi =>
    have hdist : |((m + 1 : ℕ) : ℚ) - y| = m + 1 - y := by
      push_cast
      exact abs_of_nonneg (by linarith)
    change RoundsEven (m + 1) y
    constructor
    · linarith
    · intro htie
      linarith

end represents

/-- The integer part of a quotient, with what its remainder says. -/
theorem represents_fraction {den : ℕ} (hden : 0 < den) (num : ℕ) :
    Represents (.ofMantissaAndAccuracy (num / den) (accuracyOfFraction (num % den) den))
      (num / den) := by
  have hpos : (0 : ℚ) < den := by exact_mod_cast hden
  have hq : (num : ℚ) / den = (num / den : ℕ) + (num % den : ℕ) / den := by
    have hdiv : (num : ℚ) = den * (num / den : ℕ) + (num % den : ℕ) := by
      exact_mod_cast (Nat.div_add_mod num den).symm
    field_simp
    linarith
  have hlt : num % den < den := Nat.mod_lt _ hden
  rw [hq]
  generalize num / den = m
  generalize num % den = k at hlt ⊢
  have hk : (k : ℚ) / den < 1 := (div_lt_one hpos).2 (by exact_mod_cast hlt)
  unfold accuracyOfFraction
  split
  · rename_i hzero
    rw [hzero]
    exact .exact (by simp)
  · rename_i hne
    have hkpos : (0 : ℚ) < k / den := by positivity
    -- the accuracy compares twice the remainder with the divisor
    rcases Nat.lt_trichotomy (2 * k) den with hlt | heq | hgt
    · rw [Nat.compare_eq_lt.2 hlt]
      refine .below (by linarith) ?_
      have : (k : ℚ) / den < 1 / 2 := by
        rw [div_lt_div_iff₀ hpos two_pos]
        exact_mod_cast (by omega : k * 2 < 1 * den)
      linarith
    · rw [Nat.compare_eq_eq.2 heq]
      refine .half ?_
      have : (k : ℚ) / den = 1 / 2 := by
        rw [div_eq_div_iff hpos.ne' two_ne_zero]
        exact_mod_cast (by omega : k * 2 = 1 * den)
      linarith
    · rw [Nat.compare_eq_gt.2 hgt]
      refine .above ?_ (by linarith)
      have : 1 / 2 < (k : ℚ) / den := by
        rw [div_lt_div_iff₀ two_pos hpos]
        exact_mod_cast (by omega : 1 * den < k * 2)
      linarith

theorem represents_exact (m : ℕ) : Represents (.ofMantissaAndAccuracy m .exact) m := .exact rfl

theorem targetExponent_eq_max (t : ℤ) :
    Format.binary64.targetExponent t = max (t - 53) (-1074) := rfl

/-- `x` has the sign `s` and, but for that, is the double nearest to `q`. -/
def Rounded (s : Sign) (q : ℚ) (x : Float) : Prop :=
  ∃ p, parts? x = some p ∧ p.sign = s ∧ Closest q p

theorem Rounded.nearest {s : Sign} {q : ℚ} {x : Float} (hq : 0 ≤ q) (h : Rounded s q x) :
    Nearest (unit s * q) x := by
  obtain ⟨p, hp, rfl, hclosest⟩ := h
  exact hclosest.nearest hq hp

section round

variable {s : Sign} {m r : ℕ} {e t : ℤ} {y q : ℚ}

/-- The exponent that rounding takes is that of the last digit. -/
theorem scale_target {a : Accuracy} (h : Represents (.ofMantissaAndAccuracy m a) y)
    (he : e ≤ Format.binary64.targetExponent (totalExponent m e)) :
    Scale (y * 2 ^ e) (Format.binary64.targetExponent (totalExponent m e)) := by
  have hm : (ExtendedMantissa.ofMantissaAndAccuracy m a).mantissa = m := by
    unfold ExtendedMantissa.ofMantissaAndAccuracy
    split <;> rfl
  obtain ⟨hlo, hhi⟩ := h.floor
  rw [hm] at hlo hhi
  rw [targetExponent_eq_max, totalExponent] at he ⊢
  have hy : 0 ≤ y := le_trans (Nat.cast_nonneg m) hlo
  have hlt : y < 2 ^ (m.log2 + 1) :=
    hhi.trans_le (by exact_mod_cast (Nat.lt_log2_self : m < 2 ^ (m.log2 + 1)))
  refine ⟨by positivity, le_max_right _ _, ?_, ?_⟩
  · calc y * 2 ^ e < 2 ^ (m.log2 + 1) * 2 ^ e := mul_lt_mul_of_pos_right hlt (by positivity)
      _ = 2 ^ (((m.log2 + 1 : ℕ) : ℤ) + e) := two_pow_mul_zpow _ _
      _ ≤ 2 ^ (((53 : ℕ) : ℤ) + max ((m.log2 + 1 + e : ℤ) - 53) (-1074)) :=
        zpow_le_zpow_right₀ one_le_two (by omega)
      _ = 2 ^ 53 * 2 ^ max ((m.log2 + 1 + e : ℤ) - 53) (-1074) := (two_pow_mul_zpow _ _).symm
  -- above the smallest exponent the leading bit is set, so the scaled number is at least 2^52
  · refine or_iff_not_imp_left.2 fun hne => ?_
    have hne0 : m ≠ 0 := by
      rintro rfl
      rw [Nat.log2_zero] at he hne
      omega
    have hfloor : (2 : ℚ) ^ m.log2 ≤ y :=
      le_trans (by exact_mod_cast Nat.log2_self_le hne0) hlo
    calc (2 : ℚ) ^ 52 * 2 ^ max ((m.log2 + 1 + e : ℤ) - 53) (-1074)
        = 2 ^ (((52 : ℕ) : ℤ) + max ((m.log2 + 1 + e : ℤ) - 53) (-1074)) := two_pow_mul_zpow _ _
      _ = 2 ^ ((m.log2 : ℤ) + e) := by
        congr 1
        omega
      _ = 2 ^ m.log2 * 2 ^ e := (two_pow_mul_zpow _ _).symm
      _ ≤ y * 2 ^ e := mul_le_mul_of_nonneg_right hfloor (by positivity)

/-- Rounding up can give one digit more. -/
theorem RoundsEven.le (hscale : Scale q t) (hr : RoundsEven r (q / 2 ^ t)) : r ≤ 2 ^ 53 := by
  have hy : q / 2 ^ t < 2 ^ 53 := (div_lt_iff₀ (by positivity)).2 hscale.lt
  have hnear := (abs_le.1 hr.near).2
  have hlt : (r : ℚ) < (2 ^ 53 + 1 : ℕ) := by
    push_cast
    linarith
  have : r < 2 ^ 53 + 1 := by exact_mod_cast hlt
  omega

theorem RoundsEven.full (hscale : Scale q t) (hr : RoundsEven r (q / 2 ^ t)) :
    2 ^ 52 ≤ r ∨ t = -1074 := by
  refine or_iff_not_imp_right.2 fun hne => ?_
  have hy : 2 ^ 52 ≤ q / 2 ^ t := (le_div_iff₀ (by positivity)).2 (hscale.full.resolve_left hne)
  have hnear := (abs_le.1 hr.near).1
  have hlt : ((2 ^ 52 : ℕ) : ℚ) < (r + 1 : ℕ) := by
    push_cast
    linarith
  have : 2 ^ 52 < r + 1 := by exact_mod_cast hlt
  omega

theorem Scale.overflow (hscale : Scale q t) (ht : 972 ≤ t) : 2 ^ (1024 : ℤ) ≤ q := by
  calc (2 : ℚ) ^ (1024 : ℤ) ≤ 2 ^ (((52 : ℕ) : ℤ) + t) :=
        zpow_le_zpow_right₀ one_le_two (by omega)
    _ = 2 ^ 52 * 2 ^ t := (two_pow_mul_zpow _ _).symm
    _ ≤ q := hscale.full.resolve_left (by omega)

/-- The double of a rounded significand, with a full significand or the least exponent. -/
theorem rounded_packed {k : ℕ} {e : ℤ} (hscale : Scale q t) (hr : RoundsEven r (q / 2 ^ t))
    (hk : 0 < k) (hlt : k < 2 ^ 53) (hfull : 2 ^ 52 ≤ k ∨ e = -1074) (hlo : -1074 ≤ e)
    (hmag : (k : ℚ) * 2 ^ e = r * 2 ^ t) (heven : r % 2 = 0 → k % 2 = 0)
    (hoverflow : 972 ≤ e → 2 ^ (1024 : ℤ) ≤ q ∨ k = 2 ^ 52 ∧ e = 972) :
    Rounded s q (packed (.finite s k e hk)) := by
  rcases le_or_gt 972 e with hlarge | hsmall
  · refine ⟨⟨s, 2 ^ 52, 972⟩, ?_, rfl, ?_⟩
    · rw [parts_packed, pack_of_large hlarge, unpack_pack_infinity]
      rfl
    · rcases hoverflow hlarge with hq | ⟨rfl, rfl⟩
      · exact closest_infinity hq s
      · exact hr.closest hscale hmag fun _ => by norm_num
  · refine ⟨⟨s, k, e⟩, ?_, rfl, hr.closest hscale hmag heven⟩
    rw [parts_packed, unpack_pack_of_full hlo (by omega) hlt hfull]
    rfl

theorem rounded_zero (hscale : Scale q t) (hr : RoundsEven 0 (q / 2 ^ t)) :
    Rounded s q (packed (.zero s)) :=
  ⟨⟨s, 0, -1074⟩, parts_packed_zero s, rfl,
    hr.closest hscale (by simp [magnitude]) fun _ => rfl⟩

/-- The second shift only brings a significand of 54 digits back to 53. -/
theorem shift_rounded (hr : r ≤ 2 ^ 53) (ht : -1074 ≤ t) :
    (shiftToTargetExponent Format.binary64 r t .exact).1.mantissa =
        (if r = 2 ^ 53 then 2 ^ 52 else r) ∧
      (shiftToTargetExponent Format.binary64 r t .exact).2 = if r = 2 ^ 53 then t + 1 else t := by
  -- rounding reaches 2^53 at most, and then the second shift drops a zero
  rw [shiftToTargetExponent, targetExponent_eq_max, totalExponent, shiftToExponent]
  split
  · rename_i hfull
    subst hfull
    have hshift : (max (((2 ^ 53 : ℕ).log2 + 1 + t : ℤ) - 53) (-1074) - t).toNat = 1 := by
      rw [Nat.log2_two_pow]
      omega
    rw [hshift]
    exact ⟨rfl, rfl⟩
  · have hlog : r.log2 ≤ 52 := by
      rcases Nat.eq_zero_or_pos r with rfl | hpos
      · rw [Nat.log2_zero]
        omega
      · exact log2_le hpos.ne' (by omega)
    have hshift : (max ((r.log2 + 1 + t : ℤ) - 53) (-1074) - t).toNat = 0 := by omega
    rw [hshift]
    exact ⟨rfl, by simp⟩

theorem rounded_second_shift (hscale : Scale q t) (hr : RoundsEven r (q / 2 ^ t)) :
    Rounded s q (packed
      (if h : (shiftToTargetExponent Format.binary64 r t .exact).1.mantissa = 0 then .zero s
      else .finite s (shiftToTargetExponent Format.binary64 r t .exact).1.mantissa
        (shiftToTargetExponent Format.binary64 r t .exact).2 (Nat.pos_of_ne_zero h))) := by
  have hlower := hscale.lower
  have hle := hr.le hscale
  obtain ⟨hmantissa, hexponent⟩ := shift_rounded hle hlower
  simp only [hmantissa, hexponent]
  by_cases hlast : r = 2 ^ 53
  · subst hlast
    simp only [if_true]
    refine rounded_packed hscale hr _ (by decide) (.inl le_rfl) (by omega) ?_
      (fun _ => by decide) ?_
    · rw [zpow_add_one₀ two_ne_zero]
      push_cast
      ring
    · intro hlarge
      -- at the last exponent the carry gives 2^1024, which packs as infinity
      rcases (show 971 ≤ t by omega).lt_or_eq with hlt | rfl
      · exact .inl (hscale.overflow (by omega))
      · exact .inr ⟨rfl, rfl⟩
  · simp only [if_neg hlast]
    split
    · rename_i hzero
      subst hzero
      exact rounded_zero hscale hr
    · exact rounded_packed hscale hr _ (by omega) (hr.full hscale) hlower rfl id fun hlarge =>
        .inl (hscale.overflow hlarge)

theorem rounded_roundWithAccuracy {a : Accuracy}
    (h : Represents (.ofMantissaAndAccuracy m a) y)
    (he : e ≤ Format.binary64.targetExponent (totalExponent m e)) :
    Rounded s (y * 2 ^ e) (packed (roundWithAccuracy Format.binary64 s m e a)) := by
  have hscale := scale_target h he
  have hrepresents := h.shiftRight (Format.binary64.targetExponent (totalExponent m e) - e).toNat
  generalize ht : Format.binary64.targetExponent (totalExponent m e) = t at *
  have hquotient : y / 2 ^ (t - e).toNat = y * 2 ^ e / 2 ^ t := by
    have hpow : (2 : ℚ) ^ t = 2 ^ (t - e).toNat * 2 ^ e := by
      rw [two_pow_mul_zpow]
      congr 1
      omega
    rw [hpow, mul_div_mul_right _ _ (by positivity)]
  have hshift : shiftToTargetExponent Format.binary64 m e a =
      (ExtendedMantissa.ofMantissaAndAccuracy m a >>> (t - e).toNat, t) := by
    rw [shiftToTargetExponent, ht, shiftToExponent]
    exact congrArg (Prod.mk _) (by omega)
  rw [hquotient] at hrepresents
  simp only [roundWithAccuracy, hshift]
  exact rounded_second_shift hscale hrepresents.roundsEven

end round

theorem log2_shiftLeft {m : ℕ} (hm : m ≠ 0) (k : ℕ) : (m <<< k).log2 = m.log2 + k := by
  induction k with
  | zero => rfl
  | succ k ih =>
    have hne : m <<< k ≠ 0 := by
      rw [Nat.shiftLeft_eq]
      positivity
    rw [Nat.shiftLeft_succ, Nat.log2_two_mul hne, ih, Nat.add_assoc]

/-- A significand that is too short is filled up first. -/
theorem rounded_round {m : ℕ} (hm : m ≠ 0) (s : Sign) (e : ℤ) :
    Rounded s (m * 2 ^ e) (packed (UnpackedFloat.round Format.binary64 s m e)) := by
  simp only [UnpackedFloat.round, decreaseExponent]
  generalize ht : Format.binary64.targetExponent (totalExponent m e) = t
  have hvalue : (m : ℚ) * 2 ^ e =
      ((m <<< (e - t).toNat : ℕ) : ℚ) * 2 ^ (e - ((e - t).toNat : ℤ)) := by
    have hpow : (2 : ℚ) ^ e = 2 ^ (e - t).toNat * 2 ^ (e - ((e - t).toNat : ℤ)) := by
      rw [two_pow_mul_zpow]
      congr 1
      omega
    rw [hpow, Nat.shiftLeft_eq]
    push_cast
    ring
  rw [hvalue]
  refine rounded_roundWithAccuracy (represents_exact _) ?_
  have htotal :
      totalExponent (m <<< (e - t).toNat) (e - ((e - t).toNat : ℤ)) = totalExponent m e := by
    rw [totalExponent, totalExponent, log2_shiftLeft hm]
    omega
  rw [htotal, ht]
  omega

/-- Zero is its own double. -/
theorem rounded_of_tiny {q : ℚ} (hq : 0 ≤ q) (htiny : q ≤ 2 ^ (-1075 : ℤ)) (s : Sign) :
    Rounded s q (packed (.zero s)) := by
  have hhalf : (2 : ℚ) ^ (-1075 : ℤ) = 1 / 2 * 2 ^ (-1074 : ℤ) := by
    rw [show (-1075 : ℤ) = -1074 - 1 from rfl, zpow_sub_one₀ two_ne_zero]
    ring
  have hpos : (0 : ℚ) < 2 ^ (-1074 : ℤ) := by positivity
  have hy : q / 2 ^ (-1074 : ℤ) ≤ 1 / 2 := (div_le_iff₀ hpos).2 (hhalf ▸ htiny)
  have hy0 : 0 ≤ q / 2 ^ (-1074 : ℤ) := by positivity
  refine rounded_zero (t := -1074) ⟨hq, le_rfl, ?_, .inl rfl⟩ ⟨?_, fun _ => rfl⟩
  · rw [hhalf] at htiny
    linarith
  · rwa [Nat.cast_zero, zero_sub, abs_neg, abs_of_nonneg hy0]

theorem ofInt_eq (n : ℤ) : ofInt n = packed (UnpackedFloat.ofInt Format.binary64 n) := rfl

def signOf (n : ℤ) : Sign := if n < 0 then .negative else .positive

theorem unit_signOf_mul (n : ℤ) : unit (signOf n) * n.natAbs = n := by
  rw [signOf]
  split
  · rename_i hneg
    rw [unit, neg_one_mul, Nat.cast_natAbs, abs_of_neg hneg, Int.cast_neg, neg_neg]
  · rename_i hpos
    rw [unit, one_mul, Nat.cast_natAbs, abs_of_nonneg (not_lt.1 hpos)]

theorem rounded_ofInt (n : ℤ) : Rounded (signOf n) n.natAbs (ofInt n) := by
  rw [ofInt_eq, UnpackedFloat.ofInt, UnpackedFloat.normalize, signOf]
  rcases Int.lt_trichotomy n 0 with hneg | rfl | hpos
  · have h := rounded_round (m := n.natAbs) (by omega) .negative 0
    rw [zpow_zero, mul_one] at h
    rw [if_pos hneg]
    simp only [Int.compare_eq_lt.2 hneg]
    rwa [show (-n).toNat = n.natAbs by omega]
  · exact rounded_of_tiny (Nat.cast_nonneg 0) (Nat.cast_zero.trans_le (by positivity)) _
  · have h := rounded_round (m := n.natAbs) (by omega) .positive 0
    rw [zpow_zero, mul_one] at h
    rw [if_neg (by omega)]
    simp only [Int.compare_eq_gt.2 hpos]
    rwa [show n.toNat = n.natAbs by omega]

/-- An integer is converted to the nearest double. -/
theorem nearest_ofInt (n : ℤ) : Nearest n (ofInt n) := by
  have h := (rounded_ofInt n).nearest (Nat.cast_nonneg _)
  rwa [unit_signOf_mul] at h

theorem nearest_ofNat (n : ℕ) : Nearest n (ofNat n) := nearest_ofInt n

theorem rounded_infinity {q : ℚ} (hq : 2 ^ (1024 : ℤ) ≤ q) (s : Sign) :
    Rounded s q (packed (.infinity s)) :=
  ⟨⟨s, 2 ^ 52, 972⟩, parts_packed_infinity s, rfl, closest_infinity hq s⟩

/-- A product of integers is exact before it is rounded. -/
theorem rounded_product {m : ℕ} (hm : 0 < m) (k : ℕ) :
    Rounded .positive (m * 10 ^ k) (packed (mul Format.binary64
      (.finite .positive (m <<< 53) (-53) (by rw [Nat.shiftLeft_eq]; positivity))
      (.finite .positive (10 ^ k) 0 (by positivity)))) := by
  have hq : (m : ℚ) * (10 : ℚ) ^ k = ((m <<< 53 * 10 ^ k : ℕ) : ℚ) * 2 ^ (-53 + 0 : ℤ) := by
    have hpow : (2 : ℚ) ^ 53 * 2 ^ (-53 + 0 : ℤ) = 1 := two_pow_mul_zpow 53 _
    calc (m : ℚ) * 10 ^ k = m * 10 ^ k * (2 ^ 53 * 2 ^ (-53 + 0 : ℤ)) := by rw [hpow, mul_one]
      _ = ((m * 2 ^ 53 * 10 ^ k : ℕ) : ℚ) * 2 ^ (-53 + 0 : ℤ) := by
        push_cast
        ring
      _ = _ := by rw [Nat.shiftLeft_eq]
  rw [hq]
  refine rounded_roundWithAccuracy (represents_exact _) ?_
  -- the 53 extra bits keep the product at full length, so the target exponent is not below it
  have hlog : 53 ≤ (m <<< 53 * 10 ^ k).log2 := by
    have hpos : 0 < m * 10 ^ k := by positivity
    refine (Nat.le_log2 (by rw [Nat.shiftLeft_eq]; positivity)).2 ?_
    rw [Nat.shiftLeft_eq]
    nlinarith
  rw [targetExponent_eq_max, totalExponent]
  omega

/-- The quotient of two integers gets enough digits. -/
theorem divCore_exponent {m d : ℕ} (hm : 0 < m) (hd : 0 < d) :
    (divCore Format.binary64 m 0 d 0).2.1 ≤ Format.binary64.targetExponent (totalExponent
      (divCore Format.binary64 m 0 d 0).1 (divCore Format.binary64 m 0 d 0).2.1) := by
  simp only [divCore, targetExponent_eq_max, totalExponent]
  generalize ht : min ((0 : ℤ) - 0) (max (m.log2 + 1 + 0 - (d.log2 + 1 + 0) - 53) (-1074)) = t
  rcases le_or_gt (m.log2 - d.log2 : ℤ) t with hle | hgt
  · omega
  · have hmlog := Nat.log2_self_le hm.ne'
    have hdlog : d < 2 ^ (d.log2 + 1) := Nat.lt_log2_self
    -- the quotient is as long as its operands say, less one bit at most
    have hlog : (m.log2 - d.log2 - t - 1 : ℤ).toNat ≤ (m <<< (0 - 0 - t : ℤ).toNat / d).log2 := by
      have hdvd : 2 ^ (m.log2 - d.log2 - t - 1 : ℤ).toNat * d ≤ m <<< (0 - 0 - t : ℤ).toNat := by
        calc 2 ^ (m.log2 - d.log2 - t - 1 : ℤ).toNat * d
            ≤ 2 ^ (m.log2 - d.log2 - t - 1 : ℤ).toNat * 2 ^ (d.log2 + 1) :=
              Nat.mul_le_mul_left _ hdlog.le
          _ = 2 ^ m.log2 * 2 ^ (0 - 0 - t : ℤ).toNat := by
            rw [← Nat.pow_add, ← Nat.pow_add]
            congr 1
            omega
          _ ≤ m * 2 ^ (0 - 0 - t : ℤ).toNat := Nat.mul_le_mul_right _ hmlog
          _ = m <<< (0 - 0 - t : ℤ).toNat := (Nat.shiftLeft_eq _ _).symm
      have hquotient := (Nat.le_div_iff_mul_le hd).2 hdvd
      have hne : m <<< (0 - 0 - t : ℤ).toNat / d ≠ 0 := by
        have : 0 < 2 ^ (m.log2 - d.log2 - t - 1 : ℤ).toNat := by positivity
        omega
      exact (Nat.le_log2 hne).2 hquotient
    omega

theorem rounded_quotient {m d : ℕ} (hm : 0 < m) (hd : 0 < d) :
    Rounded .positive (m / d) (packed (div Format.binary64
      (.finite .positive m 0 hm) (.finite .positive d 0 hd))) := by
  have hexponent := divCore_exponent hm hd
  simp only [divCore] at hexponent
  have h := rounded_roundWithAccuracy (s := .positive) (represents_fraction hd _) hexponent
  simp only [div, divCore]
  generalize Format.binary64.targetExponent (totalExponent m 0 - totalExponent d 0) = u at h ⊢
  have hpow : (2 : ℚ) ^ (0 - 0 - min (0 - 0) u).toNat * 2 ^ min (0 - 0) u = 1 := by
    rw [two_pow_mul_zpow, ← zpow_zero (2 : ℚ)]
    congr 1
    omega
  rw [Nat.shiftLeft_eq, Nat.cast_mul, Nat.cast_pow, Nat.cast_ofNat, div_mul_eq_mul_div, mul_assoc,
    hpow, mul_one, ← Nat.shiftLeft_eq] at h
  exact h

theorem ofScientific_eq (m : ℕ) (e : ℤ) :
    ofScientific m e =
      if 1 <<< 1024 ≤ m && (1 <<< 1024) * Nat.pow 10 (-e).toNat ≤ m then
        packed (.infinity .positive)
      else packed (UnpackedFloat.ofScientific Format.binary64 m e) := rfl

theorem zpow_eq_pow_toNat {e : ℤ} (he : 0 ≤ e) : (10 : ℚ) ^ e = 10 ^ e.toNat := by
  rw [← zpow_natCast, Int.toNat_of_nonneg he]

theorem zpow_eq_inv {e : ℤ} (he : e ≤ 0) : (10 : ℚ) ^ e = ((10 ^ (-e).toNat : ℕ) : ℚ)⁻¹ := by
  rw [Nat.cast_pow, Nat.cast_ofNat, ← zpow_natCast, ← zpow_neg, Int.toNat_of_nonneg (by omega),
    neg_neg]

/-- A coefficient that is large enough is not rounded at all. -/
theorem overflow_of_large {m k : ℕ} {e : ℤ} (hm : 1 <<< k ≤ m)
    (hlarge : 1 <<< k * 10 ^ (-e).toNat ≤ m) : 2 ^ (k : ℤ) ≤ (m : ℚ) * 10 ^ e := by
  have hpow : (2 : ℚ) ^ (k : ℤ) = (1 <<< k : ℕ) := by
    rw [Nat.one_shiftLeft, Nat.cast_pow, Nat.cast_ofNat, zpow_natCast]
  rw [hpow]
  rcases le_total 0 e with he | he
  · rw [zpow_eq_pow_toNat he]
    calc ((1 <<< k : ℕ) : ℚ) ≤ m := by exact_mod_cast hm
      _ ≤ m * 10 ^ e.toNat := le_mul_of_one_le_right (Nat.cast_nonneg m) (one_le_pow₀ (by norm_num))
  · rw [zpow_eq_inv he, ← div_eq_mul_inv, le_div_iff₀ (by positivity)]
    exact_mod_cast hlarge

theorem overflow_of_exponent {m : ℕ} {e : ℤ} (hm : 0 < m) (he : 2 ^ 11 < e) :
    2 ^ (1024 : ℤ) ≤ (m : ℚ) * 10 ^ e := by
  have hone : (1 : ℚ) ≤ m := by exact_mod_cast hm
  calc (2 : ℚ) ^ (1024 : ℤ) ≤ 2 ^ e := zpow_le_zpow_right₀ one_le_two (by omega)
    _ ≤ 10 ^ e := by
      rw [← Int.toNat_of_nonneg (show 0 ≤ e by omega), zpow_natCast, zpow_natCast]
      exact pow_le_pow_left₀ (by norm_num) (by norm_num) _
    _ ≤ m * 10 ^ e := le_mul_of_one_le_left (by positivity) hone

theorem tiny_of_exponent {m : ℕ} {e : ℤ} (he : e < -(2 ^ 11 + m.log2)) :
    (m : ℚ) * 10 ^ e ≤ 2 ^ (-1075 : ℤ) := by
  have hm : (m : ℚ) ≤ 2 ^ (m.log2 + 1) := by exact_mod_cast (Nat.lt_log2_self (n := m)).le
  have hpow : (10 : ℚ) ^ e ≤ 2 ^ e := by
    obtain ⟨k, rfl⟩ : ∃ k : ℕ, e = -k := ⟨(-e).toNat, by omega⟩
    rw [zpow_neg, zpow_neg, zpow_natCast, zpow_natCast]
    exact inv_anti₀ (by positivity) (pow_le_pow_left₀ (by norm_num) (by norm_num) _)
  calc (m : ℚ) * 10 ^ e ≤ 2 ^ (m.log2 + 1) * 2 ^ e :=
        mul_le_mul hm hpow (by positivity) (by positivity)
    _ = 2 ^ (((m.log2 + 1 : ℕ) : ℤ) + e) := two_pow_mul_zpow _ _
    _ ≤ 2 ^ (-1075 : ℤ) := zpow_le_zpow_right₀ one_le_two (by omega)

/-- The cuts for coefficients and exponents that are far off agree with the rounding. -/
theorem rounded_ofScientific (m : ℕ) (e : ℤ) :
    Rounded .positive (m * 10 ^ e) (ofScientific m e) := by
  rw [ofScientific_eq]
  split
  · rename_i hlarge
    rw [Bool.and_eq_true, decide_eq_true_eq, decide_eq_true_eq] at hlarge
    exact rounded_infinity (overflow_of_large hlarge.1 hlarge.2) _
  · unfold UnpackedFloat.ofScientific
    split
    · rename_i hzero
      subst hzero
      rw [Nat.cast_zero, zero_mul]
      exact rounded_of_tiny le_rfl (by positivity) _
    · rename_i hne
      have hm : 0 < m := Nat.pos_of_ne_zero hne
      split
      · rename_i hlarge
        exact rounded_infinity (overflow_of_exponent hm hlarge) _
      · split
        · rename_i htiny
          exact rounded_of_tiny (by positivity) (tiny_of_exponent htiny) _
        · split
          · rename_i he
            rw [zpow_eq_pow_toNat he]
            exact rounded_product hm _
          · rename_i he
            rw [zpow_eq_inv (by omega), ← div_eq_mul_inv]
            exact rounded_quotient hm _

theorem unpack_finite_upper {b : BitVec Format.binary64.numBits} {s : Sign} {m : ℕ} {e : ℤ}
    {hm : 0 < m} (h : unpack Format.binary64 b = .finite s m e hm) : e ≤ 971 := by
  have he : (UnpackedFloat.unpackExponent b).toNat < 2 ^ 11 := BitVec.isLt _
  unfold unpack at h
  dsimp only at h
  split at h
  · split at h <;> cases h
  · rename_i hones
    have hlast : (UnpackedFloat.unpackExponent b).toNat ≠ 2047 :=
      fun hbits => hones (BitVec.eq_of_toNat_eq hbits)
    split at h
    · rename_i hzero
      split at h
      · cases h
      · injection h with _ _ hexponent
        rw [← hexponent, hzero]
        decide
    · injection h with _ _ hexponent
      rw [← hexponent]
      change ((UnpackedFloat.unpackExponent b).toNat : ℤ) - 1075 ≤ 971
      omega

theorem parts_neg {x : Float} {p : Parts} (h : parts? x = some p) :
    parts? (-x) = some { p with sign := -p.sign } := by
  have hc := canonical_of_parts h
  change ofUnpacked (unpack Format.binary64 (pack Format.binary64 (neg x.toModel.unpack))) = _
  rw [parts?] at h
  cases hx : x.toModel.unpack with
  | zero s =>
    rw [hx] at h
    obtain rfl := Option.some.inj h
    rw [neg, unpack_pack_zero]
    rfl
  | infinity s =>
    rw [hx] at h
    obtain rfl := Option.some.inj h
    rw [neg, unpack_pack_infinity]
    rfl
  | notANumber =>
    rw [hx] at h
    cases h
  | finite s m e hm =>
    rw [hx] at h
    obtain rfl := Option.some.inj h
    rw [neg, unpack_pack_of_full hc.lower (unpack_finite_upper hx) hc.lt hc.full]
    rfl

theorem Rounded.neg {s : Sign} {q : ℚ} {x : Float} (h : Rounded s q x) : Rounded (-s) q (-x) := by
  obtain ⟨p, hp, rfl, hclosest⟩ := h
  exact ⟨_, parts_neg hp, rfl, hclosest⟩

/-- A decimal is converted to the nearest double, and zero keeps the sign that was written. -/
theorem rounded_ofDecimal (negative : Bool) (m : ℕ) (e : ℤ) :
    Rounded (if negative then .negative else .positive) (m * 10 ^ e) (ofDecimal negative m e) := by
  cases negative with
  | false => exact rounded_ofScientific m e
  | true => exact (rounded_ofScientific m e).neg

/-- A number of at most 53 digits has a form with a full significand or the least exponent. -/
theorem exists_canonical {m : ℕ} {e : ℤ} (hm : m < 2 ^ 53) (hlo : -1074 ≤ e) (hhi : e ≤ 971) :
    ∃ m' e', Canonical m' e' ∧ (m' : ℚ) * 2 ^ e' = m * 2 ^ e := by
  obtain ⟨k, rfl⟩ : ∃ k : ℕ, e = -1074 + k := ⟨(e + 1074).toNat, by omega⟩
  induction k generalizing m with
  | zero => exact ⟨m, _, ⟨hm, hlo, by omega, .inr (by simp), by omega⟩, rfl⟩
  | succ k ih =>
    by_cases hfull : 2 ^ 52 ≤ m
    · exact ⟨m, _, ⟨hm, hlo, by omega, .inl hfull, by omega⟩, rfl⟩
    · obtain ⟨m', e', hc, hvalue⟩ := ih (m := 2 * m) (by omega) (by omega) (by omega)
      refine ⟨m', e', hc, hvalue.trans ?_⟩
      rw [Nat.cast_succ, ← add_assoc, zpow_add_one₀ two_ne_zero]
      push_cast
      ring

/-- A number that a double can be is not rounded. -/
theorem Closest.magnitude_eq {q : ℚ} {p : Parts} (h : Closest q p) {m : ℕ} {e : ℤ}
    (hc : Canonical m e) (hq : (m : ℚ) * 2 ^ e = q) : p.magnitude = q := by
  by_contra hne
  rcases h m e hc (by rw [hq]; exact Ne.symm hne) with hlt | ⟨heq, -⟩
  · rw [hq, sub_self, abs_zero] at hlt
    exact absurd hlt (abs_nonneg _).not_gt
  · rw [hq, sub_self, abs_zero, abs_eq_zero, sub_eq_zero] at heq
    exact hne heq

theorem Rounded.toRat?_eq {s : Sign} {q : ℚ} {x : Float} (h : Rounded s q x) {m : ℕ} {e : ℤ}
    (hm : m < 2 ^ 53) (hlo : -1074 ≤ e) (hhi : e ≤ 971) (hq : (m : ℚ) * 2 ^ e = q) :
    toRat? x = some (unit s * q) := by
  obtain ⟨p, hp, rfl, hclosest⟩ := h
  obtain ⟨m', e', hc, hvalue⟩ := exists_canonical hm hlo hhi
  have hmag := hclosest.magnitude_eq hc (hvalue.trans hq)
  rw [parts?] at hp
  rw [toRat?]
  -- a number on the grid rounds to itself, and it is too small for infinity
  cases hx : x.toModel.unpack with
  | zero s =>
    rw [hx] at hp
    obtain rfl := Option.some.inj hp
    rw [magnitude, Nat.cast_zero, zero_mul] at hmag
    rw [← hmag, mul_zero]
  | infinity s =>
    rw [hx] at hp
    obtain rfl := Option.some.inj hp
    rw [magnitude_infinity, ← hq] at hmag
    exact absurd hmag (lt_of_exponent hm hhi).ne'
  | notANumber =>
    rw [hx] at hp
    cases hp
  | finite s m e hm =>
    rw [hx] at hp
    obtain rfl := Option.some.inj hp
    rw [← hmag]
    rfl

end PdfFunctions.Binary64
