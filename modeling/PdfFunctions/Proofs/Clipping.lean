import Mathlib.Tactic.Common
import PdfFunctions.Interval

namespace PdfFunctions

open Float.Model (UnpackedFloat)

section order

variable {a b : UnpackedFloat}

theorem compare_swap (a b : UnpackedFloat) : (a.compare b).map Ordering.swap = b.compare a := by
  have hmagnitude (e e' : Int) (m m' : Nat) : ((compare e e').then (compare m m')).swap =
      (compare e' e).then (compare m' m) := by
    rw [Ordering.swap_then, Int.compare_swap, Nat.compare_swap]
  rcases a with ⟨_ | _⟩ | _ | _ | ⟨_ | _, m, e⟩ <;>
    rcases b with ⟨_ | _⟩ | _ | _ | ⟨_ | _, m', e'⟩ <;>
    first
    | rfl
    | exact congrArg some (hmagnitude _ _ _ _)
    | exact congrArg (some ·.swap) (hmagnitude _ _ _ _)

/-- Only NaN does not compare. -/
theorem compare_eq_none_iff : a.compare b = none ↔ a.isNaN ∨ b.isNaN := by
  rcases a with ⟨_ | _⟩ | _ | _ | ⟨_ | _, m, e⟩ <;>
    rcases b with ⟨_ | _⟩ | _ | _ | ⟨_ | _, m', e'⟩ <;>
    first
    | exact iff_of_true rfl (.inl rfl)
    | exact iff_of_true rfl (.inr rfl)
    | exact iff_of_false nofun (not_or.2 ⟨nofun, nofun⟩)

theorem isLE_of_compare_ne {o : Ordering} (h : a.compare b = some o) (hne : o ≠ .lt) :
    (b.compare a).any (·.isLE) := by
  rw [← compare_swap, h]
  cases o with
  | lt => exact absurd rfl hne
  | eq | gt => rfl

end order

namespace Scalar

theorem lt_eq (x y : Float) : lt x y = x.toModel.unpack.lt y.toModel.unpack := by
  change decide (decide (x.toModel.lt y.toModel = true) = true) = _
  rw [Bool.decide_eq_true, Bool.decide_eq_true]
  rfl

theorem le_eq (x y : Float) : le x y = x.toModel.unpack.le y.toModel.unpack := by
  change decide (decide (x.toModel.le y.toModel = true) = true) = _
  rw [Bool.decide_eq_true, Bool.decide_eq_true]
  rfl

variable {x y : Float}

/-- Where neither number is NaN, one of them is at least the other. -/
theorem le_of_not_lt (hx : ¬ x.isNaN) (hy : ¬ y.isNaN) (h : ¬ lt x y) : le y x := by
  rw [lt_eq, UnpackedFloat.lt, beq_iff_eq] at h
  rw [le_eq, UnpackedFloat.le]
  cases hc : x.toModel.unpack.compare y.toModel.unpack with
  | none => exact absurd (compare_eq_none_iff.1 hc) (not_or.2 ⟨hx, hy⟩)
  | some o => exact isLE_of_compare_ne hc fun ho => h (ho ▸ hc)

theorem lt_irrefl (x : Float) : ¬ lt x x := by
  rw [lt_eq, UnpackedFloat.lt, beq_iff_eq]
  intro h
  have hswap := compare_swap x.toModel.unpack x.toModel.unpack
  rw [h] at hswap
  exact absurd hswap (by decide)

theorem le_refl (hx : ¬ x.isNaN) : le x x := le_of_not_lt hx hx (lt_irrefl x)

theorem not_isNaN_of_le (h : le x y) : ¬ x.isNaN ∧ ¬ y.isNaN := by
  rw [le_eq, UnpackedFloat.le] at h
  refine not_or.1 fun hnan => ?_
  have hnone : x.toModel.unpack.compare y.toModel.unpack = none := compare_eq_none_iff.2 hnan
  rw [hnone] at h
  exact absurd h (by decide)

end Scalar

open Scalar

namespace Interval

/-- A number that is NaN or lies in the interval. -/
def Admits (i : Interval Float) (y : Float) : Prop := y.isNaN ∨ i.contains y

theorem admits_clip (i : Interval Float) (x : Float) : i.Admits (i.clip x) := by
  obtain ⟨hlo, hhi⟩ := not_isNaN_of_le i.ordered
  unfold Admits contains clip clamp
  simp only [Bool.and_eq_true]
  split
  · exact .inr ⟨le_refl hlo, i.ordered⟩
  · rename_i hbelow
    split
    · exact .inr ⟨i.ordered, le_refl hhi⟩
    · rename_i habove
      by_cases hx : x.isNaN
      · exact .inl hx
      · exact .inr ⟨le_of_not_lt hx hlo hbelow, le_of_not_lt hhi hx habove⟩

end Interval

namespace Intervals

variable {α : Type} [Scalar α]

theorem fit_of_length {is : Intervals α} {xs : List α} (h : xs.length = is.length) :
    is.fit xs = .ok (is.clip xs) := if_pos h

theorem fit_of_ne {is : Intervals α} {xs : List α} (h : xs.length ≠ is.length) :
    is.fit xs = .error (.inputCount is.length xs.length) := if_neg h

theorem length_clip (is : Intervals α) (xs : List α) : (is.clip xs).length = xs.length := by
  fun_induction clip is xs with
  | case1 i is x xs ih => simp [ih]
  | case2 => rfl

/-- A value with an interval is clipped to it. -/
theorem getElem?_clip {is : Intervals α} {j : Nat} {i : Interval α} (hi : is[j]? = some i)
    (xs : List α) : (is.clip xs)[j]? = xs[j]?.map i.clip := by
  induction is generalizing j xs with
  | nil => simp at hi
  | cons i' is ih =>
    cases xs with
    | nil => simp [clip]
    | cons x xs =>
      cases j with
      | zero =>
        obtain rfl := Option.some.inj hi
        rfl
      | succ j => exact ih hi xs

/-- A value without an interval stays. -/
theorem getElem?_clip_of_none {is : Intervals α} {j : Nat} (hi : is[j]? = none) (xs : List α) :
    (is.clip xs)[j]? = xs[j]? := by
  induction is generalizing j xs with
  | nil => rfl
  | cons i' is ih =>
    cases xs with
    | nil => rfl
    | cons x xs =>
      cases j with
      | zero => simp at hi
      | succ j => exact ih hi xs

theorem admits_of_clip {is : Intervals Float} {xs : List Float} {j : Nat} {i : Interval Float}
    {y : Float} (hi : is[j]? = some i) (hy : (is.clip xs)[j]? = some y) : i.Admits y := by
  rw [getElem?_clip hi, Option.map_eq_some_iff] at hy
  obtain ⟨x, -, rfl⟩ := hy
  exact i.admits_clip x

end Intervals

end PdfFunctions
