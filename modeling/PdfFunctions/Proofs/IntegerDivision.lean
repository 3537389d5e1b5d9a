import PdfFunctions.Proofs.IntegerOperands

namespace PdfFunctions

open Stack StackM

namespace Arithmetic

section integers

variable {a b : ℤ}

/-- The quotient of two 64-bit integers fits 64 bits, but for one pair. -/
theorem tdiv_lt_iff (hlo : -2 ^ 63 ≤ a) (hlt : a < 2 ^ 63) (hb : b ≠ 0) :
    a.tdiv b < 2 ^ 63 ↔ ¬ (a = -2 ^ 63 ∧ b = -1) := by
  constructor
  · rintro hfits ⟨rfl, rfl⟩
    rw [Int.tdiv_neg, Int.tdiv_one] at hfits
    omega
  · intro hpair
    by_cases hone : b = -1
    · subst hone
      rw [Int.tdiv_neg, Int.tdiv_one]
      omega
    · rcases (show b = 1 ∨ 2 ≤ b.natAbs by omega) with rfl | htwo
      · rwa [Int.tdiv_one]
      · have hhalf : (a.tdiv b).natAbs ≤ a.natAbs / 2 := by
          rw [Int.natAbs_tdiv]
          exact Nat.div_le_div_left htwo (by decide)
        omega

theorem quotient?_of_lt (hb : b ≠ 0) (h : a.tdiv b < 2 ^ 63) : quotient? a b = some (a.tdiv b) := by
  rw [quotient?, if_neg hb]
  exact if_pos h

theorem quotient?_eq_none_iff (hlo : -2 ^ 63 ≤ a) (hlt : a < 2 ^ 63) :
    quotient? a b = none ↔ b = 0 ∨ a = -2 ^ 63 ∧ b = -1 := by
  by_cases hb : b = 0
  · simp [quotient?, hb]
  · rw [or_iff_right hb, ← not_iff_not, ← tdiv_lt_iff hlo hlt hb]
    constructor
    · intro h
      rw [quotient?, if_neg hb] at h
      by_contra hlt
      exact h (if_neg hlt)
    · intro h
      rw [quotient?_of_lt hb h]
      exact Option.some_ne_none _

/-- With at most 53 digits in either operand, but for trailing zeros, the remainder has no more. -/
theorem exists_mod_eq {m m' j k : ℕ} (hm : m < 2 ^ 53) (hm' : m' < 2 ^ 53) (hpos : 0 < m') :
    ∃ r, r < 2 ^ 53 ∧ (m * 2 ^ j) % (m' * 2 ^ k) = r * 2 ^ min j k := by
  rcases le_total j k with hjk | hkj
  · have hk : m' * 2 ^ k = m' * 2 ^ (k - j) * 2 ^ j := by
      rw [mul_assoc, ← pow_add, Nat.sub_add_cancel hjk]
    refine ⟨m % (m' * 2 ^ (k - j)), (Nat.mod_le _ _).trans_lt hm, ?_⟩
    rw [hk, Nat.mul_mod_mul_right, min_eq_left hjk]
  · have hj : m * 2 ^ j = m * 2 ^ (j - k) * 2 ^ k := by
      rw [mul_assoc, ← pow_add, Nat.sub_add_cancel hkj]
    refine ⟨m * 2 ^ (j - k) % m', (Nat.mod_lt _ hpos).trans hm', ?_⟩
    rw [hj, Nat.mul_mod_mul_right, min_eq_right hkj]

end integers

/-- The result `z` of an integer division: the rounded quotient toward zero, or the remainder, which
is exact. -/
def Yields (op : Operator) (a b : ℤ) (z : Float) : Prop :=
  match op with
  | .idiv => Binary64.Nearest (a.tdiv b : ℤ) z
  | .mod => ∃ r : ℤ, Binary64.toRat? z = some (r : ℚ) ∧ a = b * a.tdiv b + r ∧ |r| < |b| ∧
      (r = 0 ∨ r.sign = a.sign)
  | _ => False

/-- An integer division of `x` by `y` that is undefined where `undefined` says so. Operands without
a 64-bit integer are refused, the lower one first. -/
structure Divides (undefined : ℤ → ℤ → Prop) (op : Operator) (x y : Float)
    (r : Except Error Float) : Prop where
  undefined_iff : ∀ {a b}, StandsFor x a → StandsFor y b →
    (r = .error (.undefinedResult op.name) ↔ undefined a b)
  yields : ∀ {a b}, StandsFor x a → StandsFor y b → ¬ undefined a b →
    ∃ z, r = .ok z ∧ Yields op a b z
  refuses : (∀ a, ¬ StandsFor x a) → r = .error (.rangeCheck op.name (.notAnInteger x))
  refuses_upper : (∃ a, StandsFor x a) → (∀ b, ¬ StandsFor y b) →
    r = .error (.rangeCheck op.name (.notAnInteger y))

def Undefined (a b : ℤ) : Prop := b = 0 ∨ a = -2 ^ 63 ∧ b = -1

instance (a b : ℤ) : Decidable (Undefined a b) :=
  inferInstanceAs (Decidable (b = 0 ∨ a = -2 ^ 63 ∧ b = -1))

def division (op : Operator) (x y : Float) : Except Error Float := do
  let (a, b) ← integers op.name x y
  let n := if op = .mod then remainder? a b else quotient? a b
  (n.map Binary64.ofInt).elim (.error (.undefinedResult op.name)) .ok

section division

variable {op : Operator} {x y : Float} {a b : ℤ}

theorem framed_defined (name : String) (n : Option ℤ) :
    Framed (Binary64.ofInt <$> defined name n) []
      (spent ((n.map Binary64.ofInt).elim (.error (.undefinedResult name)) .ok)) := by
  cases n with
  | none => exact .throw _ []
  | some n => exact .pure _ []

theorem framed_division (hop : op = .idiv ∨ op = .mod) (x y : Float) :
    Framed (result op) [.number y, .number x] (spent (division op x y)) := by
  rcases hop with rfl | rfl
  · exact (framed_popInts _ x y).bind_spent fun (a, b) => framed_defined _ (quotient? a b)
  · exact (framed_popInts _ x y).bind_spent fun (a, b) => framed_defined _ (remainder? a b)

theorem toRat?_remainder (hx : StandsFor x a) (hy : StandsFor y b) (hb : b ≠ 0) :
    Binary64.toRat? (Binary64.ofInt (a.tmod b)) = some ((a.tmod b : ℤ) : ℚ) := by
  obtain ⟨m, j, hm, hj, ha⟩ :=
    Binary64.exists_of_toInt? (Binary64.toInt?_eq_some_iff.2 hx.truncates)
  obtain ⟨m', k, hm', hk, hb'⟩ :=
    Binary64.exists_of_toInt? (Binary64.toInt?_eq_some_iff.2 hy.truncates)
  have hpos : 0 < m' := by
    rcases Nat.eq_zero_or_pos m' with rfl | hpos
    · rw [zero_mul] at hb'
      omega
    · exact hpos
  obtain ⟨r, hr, hmod⟩ := exists_mod_eq (j := j) (k := k) hm hm' hpos
  refine Binary64.toRat?_ofInt (k := min j k) hr (by omega) ?_
  rw [Int.natAbs_tmod, ha, hb', hmod]

/-- The remainder has the sign of the dividend. -/
theorem sign_tmod (a b : ℤ) : a.tmod b = 0 ∨ (a.tmod b).sign = a.sign := by
  refine or_iff_not_imp_left.2 fun hne => ?_
  have hzero : a ≠ 0 := by
    rintro rfl
    exact hne (Int.zero_tmod b)
  rcases lt_or_gt_of_ne hzero with hneg | hpos
  · have hsign := Int.tmod_nonneg b (a := -a) (by omega)
    rw [Int.neg_tmod] at hsign
    rw [Int.sign_eq_neg_one_of_neg hneg, Int.sign_eq_neg_one_of_neg (by omega)]
  · have hsign := Int.tmod_nonneg b hpos.le
    rw [Int.sign_eq_one_of_pos hpos, Int.sign_eq_one_of_pos (by omega)]

theorem yields_remainder (hx : StandsFor x a) (hy : StandsFor y b) (hb : b ≠ 0) :
    Yields .mod a b (Binary64.ofInt (a.tmod b)) := by
  have hmod := Int.natAbs_tmod a b
  have hlt : a.natAbs % b.natAbs < b.natAbs := Nat.mod_lt _ (by omega)
  refine ⟨a.tmod b, toRat?_remainder hx hy hb, (Int.mul_tdiv_add_tmod a b).symm, ?_, sign_tmod a b⟩
  rw [Int.abs_eq_natAbs, Int.abs_eq_natAbs]
  omega

/-- On operands that stand for integers, the quotient decides. -/
theorem division_of_standsFor (op : Operator) (hx : StandsFor x a) (hy : StandsFor y b) :
    division op x y = if Undefined a b then .error (.undefinedResult op.name)
      else .ok (Binary64.ofInt (if op = .mod then a.tmod b else a.tdiv b)) := by
  rw [division, integers_of_standsFor _ hx hy]
  change ((if op = .mod then remainder? a b else quotient? a b).map Binary64.ofInt).elim _ _ = _
  by_cases hundefined : Undefined a b
  · rw [if_pos hundefined]
    have hnone := (quotient?_eq_none_iff hx.lower hx.lt).2 hundefined
    simp [remainder?, hnone]
  · rw [if_neg hundefined]
    have hdefined := not_or.1 hundefined
    have hfits := (tdiv_lt_iff hx.lower hx.lt hdefined.1).2 hdefined.2
    rw [remainder?, quotient?_of_lt hdefined.1 hfits]
    by_cases hop : op = .mod
    · simp [hop]
    · simp [hop]

theorem divides_division (hop : op = .idiv ∨ op = .mod) :
    Divides Undefined op x y (division op x y) where
  undefined_iff {a b} hx hy := by
    rw [division_of_standsFor op hx hy]
    split
    · rename_i hundefined
      exact iff_of_true rfl hundefined
    · rename_i hdefined
      exact iff_of_false (fun h => nomatch h) hdefined
  yields {a b} hx hy hdefined := by
    rw [division_of_standsFor op hx hy, if_neg hdefined]
    refine ⟨_, rfl, ?_⟩
    rcases hop with rfl | rfl
    · exact Binary64.nearest_ofInt _
    · exact yields_remainder hx hy fun hb => hdefined (.inl hb)
  refuses hx := by
    rw [division, integers, integer_of_not _ hx]
    rfl
  refuses_upper hx hy := by
    obtain ⟨a, hx⟩ := hx
    rw [division, integers, integer_of_standsFor _ hx, integer_of_not _ hy]
    rfl

/-- The pair with the overflowing quotient is the only one where the divisor does not decide. -/
theorem divides_iff {r : Except Error Float} (h : Divides Undefined op x y r) :
    Divides (fun _ b => b = 0) op x y r ↔ ¬ (StandsFor x (-2 ^ 63) ∧ StandsFor y (-1)) := by
  constructor
  · rintro hclaim ⟨hx, hy⟩
    exact absurd ((hclaim.undefined_iff hx hy).1 ((h.undefined_iff hx hy).2 (.inr ⟨rfl, rfl⟩)))
      (by decide)
  · intro hpair
    have hsame {a b : ℤ} (hx : StandsFor x a) (hy : StandsFor y b) : Undefined a b ↔ b = 0 := by
      refine or_iff_left ?_
      rintro ⟨rfl, rfl⟩
      exact hpair ⟨hx, hy⟩
    exact ⟨fun hx hy => (h.undefined_iff hx hy).trans (hsame hx hy),
      fun hx hy hb => h.yields hx hy (mt (hsame hx hy).1 hb), h.refuses, h.refuses_upper⟩

end division

end Arithmetic

namespace Machine

open Arithmetic

/-- Integer division of two numbers has one result, whatever lies below them: the rounded quotient
or the exact remainder, an error for an operand without a 64-bit integer, and an undefined result
for a divisor of zero. The pair whose quotient overflows is undefined as well, for both operators,
and this is the only exception. -/
theorem operate_division {op : Operator} (hop : op = .idiv ∨ op = .mod) (x y : Float) :
    ∃ r : Except Error Float,
      (∀ (m : Machine) (b : List Value), m.stack.values = .number y :: .number x :: b →
        1 ≤ m.stack.limit → m.stack.live ≤ m.stack.limit →
        operate op m = m.yielding op b (r.map .number)) ∧
      Divides Undefined op x y r ∧
      (Divides (fun _ b => b = 0) op x y r ↔ ¬ (StandsFor x (-2 ^ 63) ∧ StandsFor y (-1))) := by
  have hdivides := divides_division hop (x := x) (y := y)
  refine ⟨division op x y, fun m b hs hlimit hlive => ?_, hdivides, divides_iff hdivides⟩
  have hx := (framed_division hop x y).map_spent Value.number
  rcases hop with rfl | rfl
  · exact operate_of_framed .idiv rfl hx rfl hs hlimit hlive
  · exact operate_of_framed .mod rfl hx rfl hs hlimit hlive

theorem operate_division_of_sevens :
    let x := Binary64.ofInt (-7)
    let y := Binary64.ofInt 2
    let m : Machine := { stack := { values := [.number y, .number x], limit := 2 } }
    (∃ z, operate .idiv m = m.yielding .idiv [] (.ok (.number z)) ∧ Binary64.Nearest (-3 : ℤ) z) ∧
    ∃ z, operate .mod m = m.yielding .mod [] (.ok (.number z)) ∧
      Binary64.toRat? z = some (-1 : ℤ) := by
  intro x y m
  have hx : StandsFor x (-7) :=
    ⟨Binary64.toInt?_eq_some_iff.1 (Binary64.toInt?_ofInt (by decide)), by decide, by decide⟩
  have hy : StandsFor y 2 :=
    ⟨Binary64.toInt?_eq_some_iff.1 (Binary64.toInt?_ofInt (by decide)), by decide, by decide⟩
  obtain ⟨r, hr, hdivides, -⟩ := operate_division (.inl rfl) x y
  obtain ⟨r', hr', hdivides', -⟩ := operate_division (.inr rfl) x y
  obtain ⟨z, rfl, hz⟩ := hdivides.yields hx hy (by decide)
  obtain ⟨z', rfl, n, hz', hn, -⟩ := hdivides'.yields hx hy (by decide)
  refine ⟨⟨z, hr m [] rfl (by decide) (by decide), hz⟩,
    ⟨z', hr' m [] rfl (by decide) (by decide), ?_⟩⟩
  obtain rfl : n = -1 := by
    have hquotient : Int.tdiv (-7) 2 = -3 := rfl
    omega
  exact hz'

/-- The remainder by `-1` is zero, but at the least 64-bit integer it is refused like a division by
zero. -/
theorem operate_mod_overflow :
    let x := Binary64.ofInt (-2 ^ 63)
    let y := Binary64.ofInt (-1)
    let m : Machine := { stack := { values := [.number y, .number x], limit := 2 } }
    StandsFor x (-2 ^ 63) ∧ StandsFor y (-1) ∧
      operate .mod m = m.yielding .mod [] (.error (.undefinedResult "mod")) ∧
      ¬ Divides (fun _ b => b = 0) .mod x y (.error (.undefinedResult "mod")) := by
  intro x y m
  have hleast : Binary64.toInt? (Binary64.ofInt (-2 ^ 63)) = some (-2 ^ 63) := by
    rw [Binary64.toInt?_eq_map]
    decide +kernel
  have hx : StandsFor x (-2 ^ 63) :=
    ⟨Binary64.toInt?_eq_some_iff.1 hleast, by decide, by decide⟩
  have hy : StandsFor y (-1) :=
    ⟨Binary64.toInt?_eq_some_iff.1 (Binary64.toInt?_ofInt (by decide)), by decide, by decide⟩
  have hdivision : division .mod x y = .error (.undefinedResult "mod") :=
    (division_of_standsFor .mod hx hy).trans (if_pos (by decide))
  have hframed := (framed_division (.inr rfl) x y).map_spent Value.number
  rw [hdivision] at hframed
  refine ⟨hx, hy, ?_, fun h => ?_⟩
  · exact operate_of_framed .mod rfl hframed rfl rfl (by decide) (by decide)
  · exact absurd ((h.undefined_iff hx hy).1 rfl) (by decide)

end Machine

end PdfFunctions
