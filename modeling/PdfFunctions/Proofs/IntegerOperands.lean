import PdfFunctions.Proofs.OperatorTable
import PdfFunctions.Proofs.Rounding

namespace PdfFunctions

open Stack StackM

namespace Binary64

open Parts
open Float.Model (UnpackedFloat)

def truncated (q : ℚ) : ℤ := if 0 ≤ q then ⌊q⌋ else ⌈q⌉

def Truncates (x : Float) (n : ℤ) : Prop := ∃ q, toRat? x = some q ∧ truncated q = n

theorem wholePart_eq_floor (m : ℕ) (e : ℤ) : (wholePart m e : ℤ) = ⌊(m : ℚ) * 2 ^ e⌋ := by
  rw [wholePart]
  split
  · rename_i he
    have hvalue : (m : ℚ) * 2 ^ e = ((m <<< e.toNat : ℕ) : ℤ) := by
      rw [Nat.shiftLeft_eq]
      push_cast
      rw [← zpow_natCast, Int.toNat_of_nonneg he]
    rw [hvalue, Int.floor_intCast]
  · rename_i he
    have hvalue : (m : ℚ) * 2 ^ e = (m : ℤ) / ((2 ^ (-e).toNat : ℕ) : ℕ) := by
      rw [div_eq_mul_inv]
      push_cast
      rw [← zpow_natCast, ← zpow_neg, Int.toNat_of_nonneg (by omega), neg_neg]
    rw [hvalue, Rat.floor_intCast_div_natCast, Nat.shiftRight_eq_div_pow]
    push_cast
    rfl

theorem truncated_neg (q : ℚ) : truncated (-q) = -truncated q := by
  unfold truncated
  rcases lt_trichotomy q 0 with hneg | rfl | hpos
  · rw [if_pos (by linarith), if_neg (by linarith), Int.floor_neg]
  · simp
  · rw [if_neg (by linarith), if_pos hpos.le, Int.ceil_neg]

theorem toInt?_eq_map (x : Float) : toInt? x = (toRat? x).map truncated := by
  have hpositive (m : ℕ) (e : ℤ) : (wholePart m e : ℤ) = truncated (m * 2 ^ e) := by
    rw [truncated, if_pos (by positivity), wholePart_eq_floor]
  rw [toInt?, toRat?]
  cases x.toModel.unpack with
  | zero => simp [truncated]
  | finite s m e hm =>
    cases s with
    | positive => simp [value, unit, magnitude, hpositive]
    | negative => simp [value, unit, magnitude, hpositive, truncated_neg]
  | _ => rfl

theorem toInt?_eq_some_iff {x : Float} {n : ℤ} : toInt? x = some n ↔ Truncates x n := by
  rw [toInt?_eq_map, Option.map_eq_some_iff]
  rfl

theorem wholePart_eq_mul {m : ℕ} {e : ℤ} (hm : m < 2 ^ 53) (he : e ≤ 971) :
    ∃ r k : ℕ, r < 2 ^ 53 ∧ k ≤ 971 ∧ wholePart m e = r * 2 ^ k := by
  rw [wholePart]
  split
  · exact ⟨m, e.toNat, hm, by omega, Nat.shiftLeft_eq _ _⟩
  · exact ⟨m >>> (-e).toNat, 0, (Nat.shiftRight_le _ _).trans_lt hm, by omega, (mul_one _).symm⟩

/-- The integer part of a double has at most 53 digits, but for trailing zeros. -/
theorem exists_of_toInt? {x : Float} {n : ℤ} (h : toInt? x = some n) :
    ∃ m k : ℕ, m < 2 ^ 53 ∧ k ≤ 971 ∧ n.natAbs = m * 2 ^ k := by
  rw [toInt?] at h
  cases hx : x.toModel.unpack with
  | zero =>
    rw [hx] at h
    obtain rfl := Option.some.inj h
    exact ⟨0, 0, by decide, by omega, rfl⟩
  | finite s m e hm =>
    have hparts : parts? x = some ⟨s, m, e⟩ := by
      rw [parts?, hx]
      rfl
    -- dropping the places after the point leaves the significand below 2^53
    obtain ⟨r, k, hr, hk, hwhole⟩ :=
      wholePart_eq_mul (canonical_of_parts hparts).lt (unpack_finite_upper hx)
    refine ⟨r, k, hr, hk, ?_⟩
    rw [hx] at h
    cases s with
    | positive =>
      obtain rfl := Option.some.inj h
      rw [Int.natAbs_natCast, hwhole]
    | negative =>
      obtain rfl := Option.some.inj h
      rw [Int.natAbs_neg, Int.natAbs_natCast, hwhole]
  | _ =>
    rw [hx] at h
    cases h

/-- An integer of at most 53 digits, but for trailing zeros, is not rounded. -/
theorem toRat?_ofInt {n : ℤ} {m k : ℕ} (hm : m < 2 ^ 53) (hk : k ≤ 971)
    (hn : n.natAbs = m * 2 ^ k) : toRat? (ofInt n) = some (n : ℚ) := by
  have h := (rounded_ofInt n).toRat?_eq (e := k) hm (by omega) (by omega) (by
    rw [hn, zpow_natCast]
    push_cast
    rfl)
  rwa [unit_signOf_mul] at h

end Binary64

/-- The operand stands for the 64-bit integer `n`. -/
structure Stack.StandsFor (x : Float) (n : ℤ) : Prop where
  truncates : Binary64.Truncates x n
  lower : -2 ^ 63 ≤ n
  lt : n < 2 ^ 63

namespace Stack

variable {op : String} {x : Float} {n : ℤ}

theorem StandsFor.unique {n' : ℤ} (h : StandsFor x n) (h' : StandsFor x n') : n = n' :=
  Option.some.inj ((Binary64.toInt?_eq_some_iff.2 h.truncates).symm.trans
    (Binary64.toInt?_eq_some_iff.2 h'.truncates))

theorem integer_of_standsFor (op : String) (h : StandsFor x n) : integer op x = .ok n := by
  rw [integer, Binary64.toInt?_eq_some_iff.2 h.truncates]
  exact if_pos ⟨h.lower, h.lt⟩

theorem integer_of_not (op : String) (h : ∀ n, ¬ StandsFor x n) :
    integer op x = .error (.rangeCheck op (.notAnInteger x)) := by
  rw [integer]
  split
  · rename_i n hn
    exact if_neg fun hrange => h n ⟨Binary64.toInt?_eq_some_iff.1 hn, hrange.1, hrange.2⟩
  · rfl

end Stack

def Stack.spent {α : Type} : Except Error α → EStateM.Result Error (List Value) α
  | .ok a => .ok a []
  | .error e => .error e []

section framed

variable {α β : Type} {p b : List Value}

theorem framed_ofExcept (r : Except Error α) : Framed (ofExcept r) [] (spent r) := by
  cases r with
  | ok a => exact .pure a []
  | error e => exact .throw e []

theorem Framed.bind_spent {x : StackM α} {f : α → StackM β} {r : Except Error α}
    {g : α → Except Error β} (hx : Framed x p (spent r)) (hf : ∀ a, Framed (f a) [] (spent (g a))) :
    Framed (x >>= f) p (spent (r >>= g)) := by
  cases r with
  | ok a => exact hx.bind (hf a)
  | error e => exact hx.bind_error

theorem Framed.map_spent {x : StackM α} {r : Except Error α} (f : α → β)
    (hx : Framed x p (spent r)) : Framed (f <$> x) p (spent (r.map f)) := by
  rw [map_eq_pure_bind]
  cases r with
  | ok a => exact hx.bind (.pure (f a) [])
  | error e => exact hx.bind_error

theorem framed_popNumbers (op : String) (x y : Float) :
    Framed (popNumbers op) [.number y, .number x] (spent (.ok (x, y))) :=
  (Framed.require op (Nat.le_refl 2)).bind ((framed_popNumber op y _).bind
    ((framed_popNumber op x _).bind (.pure (x, y) [])))

def Stack.integers (op : String) (x y : Float) : Except Error (ℤ × ℤ) := do
  let m ← integer op x
  let n ← integer op y
  return (m, n)

theorem framed_popInts (op : String) (x y : Float) :
    Framed (popInts op) [.number y, .number x] (spent (integers op x y)) := by
  refine (framed_popNumbers op x y).bind ?_
  exact (framed_ofExcept _).bind_spent fun m => (framed_ofExcept _).bind_spent fun n => .pure _ _

theorem Stack.integers_of_standsFor (op : String) {x y : Float} {m n : ℤ} (hx : StandsFor x m)
    (hy : StandsFor y n) : integers op x y = .ok (m, n) := by
  rw [integers, integer_of_standsFor op hx, integer_of_standsFor op hy]
  rfl

namespace Machine

/-- What `op` comes to with its result in place of its operands, which have `b` below them. -/
def yielding (m : Machine) (op : Operator) (b : List Value) :
    Except Error Value → EStateM.Result Error Machine Unit
  | .ok v => .ok () { m with stack := m.stack.holding (v :: b), log := m.logged op }
  | .error e => .error e { m with stack := m.stack.holding b, log := m.logged op }

/-- A calculation on a machine that has its operands. -/
theorem operate_of_framed (op : Operator) {r : Except Error Value}
    (hop : op.category.calculates = true) (hx : Framed op.calculation p (spent r))
    (hp : p.length = op.inputs) {m : Machine} (hs : m.stack.values = p ++ b)
    (hlimit : 1 ≤ m.stack.limit) (hlive : m.stack.live ≤ m.stack.limit) :
    operate op m = m.yielding op b r := by
  obtain ⟨-, hgrow, hbody⟩ := Operator.fixed_of_calculates hop
  rw [operate_eq_act hbody, onStack]
  cases r with
  | ok v =>
    have h := Operator.settled_of_ok hop hx hp m.stack b hs hlimit hlive
    rw [if_neg (fun hfull => hgrow hfull.1)] at h
    rw [h]
    rfl
  | error e =>
    have h := Operator.settled_of_error hop hx hp m.stack b hs hlimit hlive
    rw [if_neg (fun hfull => hgrow hfull.1)] at h
    rw [h]
    rfl

end Machine

end framed

end PdfFunctions
