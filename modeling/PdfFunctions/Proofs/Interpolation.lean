import Mathlib.Algebra.BigOperators.Fin
import Mathlib.Algebra.Order.BigOperators.Group.Finset
import Mathlib.Data.Rat.Floor
import Mathlib.Tactic.Linarith
import Mathlib.Tactic.Positivity
import Mathlib.Tactic.Ring
import PdfFunctions.Function.Sampled

namespace PdfFunctions

theorem clamp_eq {lo hi : ℚ} (h : lo ≤ hi) (x : ℚ) : clamp lo hi x = max lo (min hi x) := by
  simp only [clamp, Scalar.lt, decide_eq_true_eq]
  split_ifs with below above
  · rw [min_eq_right (below.le.trans h), max_eq_left below.le]
  · rw [min_eq_left above.le, max_eq_right h]
  · rw [min_eq_right (not_lt.mp above), max_eq_right (not_lt.mp below)]

theorem Interval.lo_le_hi (i : Interval ℚ) : i.lo ≤ i.hi :=
  of_decide_eq_true i.ordered

theorem Interval.clip_eq (i : Interval ℚ) (x : ℚ) : i.clip x = max i.lo (min i.hi x) :=
  clamp_eq i.lo_le_hi x

theorem interpolate_eq (x x0 x1 y0 y1 : ℚ) :
    interpolate x x0 x1 y0 y1 =
      if x1 = x0 then y0 else y0 + (x - x0) * (y1 - y0) / (x1 - x0) := by
  simp only [interpolate, Scalar.eq, beq_iff_eq]

namespace Axis

/-- The place that `x` selects: clipped to the interval, mapped linearly onto the pair of
`encode` (to its first end where the interval is a point), and clamped to the indices. -/
def coordinate (a : Axis ℚ) (x : ℚ) : ℚ :=
  let lo := a.interval.lo
  let hi := a.interval.hi
  let clipped := max lo (min hi x)
  let mapped :=
    if lo = hi then a.encode.1
    else a.encode.1 + (clipped - lo) * (a.encode.2 - a.encode.1) / (hi - lo)
  max 0 (min (a.size - 1) mapped)

theorem place_eq {a : Axis ℚ} (ha : 0 < a.size) (x : ℚ) :
    a.place (a.interval.clip x) = a.coordinate x := by
  have hlast : ((a.size - 1 : ℕ) : ℚ) = a.size - 1 := Nat.cast_pred ha
  have hle : (0 : ℚ) ≤ (a.size - 1 : ℕ) := Nat.cast_nonneg _
  rw [coordinate, ← hlast, place]
  change clamp (0 : ℚ) ((a.size - 1 : ℕ) : ℚ) _ = _
  rw [clamp_eq hle, interpolate_eq, Interval.clip_eq]
  simp only [eq_comm (a := a.interval.hi)]

theorem coordinate_nonneg (a : Axis ℚ) (x : ℚ) : 0 ≤ a.coordinate x :=
  le_max_left _ _

theorem coordinate_le {a : Axis ℚ} (ha : 0 < a.size) (x : ℚ) : a.coordinate x ≤ a.size - 1 := by
  have h : (1 : ℚ) ≤ a.size := by exact_mod_cast ha
  exact max_le (by linarith) (min_le_left _ _)

end Axis

/-- How much an entry counts at a distance of `d`. -/
def tent (d : ℚ) : ℚ := max 0 (1 - |d|)

theorem tent_zero : tent 0 = 1 := by simp [tent]

theorem tent_eq_zero {d : ℚ} (h : 1 ≤ |d|) : tent d = 0 :=
  max_eq_left (by linarith)

theorem tent_of_nonneg {d : ℚ} (h : 0 ≤ d) (h1 : d ≤ 1) : tent d = 1 - d := by
  rw [tent, abs_of_nonneg h, max_eq_right (by linarith)]

theorem tent_of_nonpos {d : ℚ} (h : d ≤ 0) (h1 : -1 ≤ d) : tent d = 1 + d := by
  rw [tent, abs_of_nonpos h, max_eq_right (by linarith)]
  ring

/-- Only the entries next to a place count there. -/
theorem sum_tent {n lower : ℕ} {e : ℚ} (hlower : lower + 1 < n) (h : (lower : ℚ) ≤ e)
    (h1 : e ≤ lower + 1) (F : ℕ → ℚ) :
    ∑ i : Fin n, tent (e - i) * F i =
      (1 - (e - lower)) * F lower + (e - lower) * F (lower + 1) := by
  rw [Fin.sum_univ_eq_sum_range (fun i => tent (e - i) * F i) n,
    Finset.sum_eq_add_of_mem lower (lower + 1) (by simp; omega) (by simp; omega) (by simp)]
  · rw [tent_of_nonneg (by linarith) (by linarith),
      tent_of_nonpos (by push_cast; linarith) (by push_cast; linarith)]
    push_cast
    ring
  · intro i _ hi
    -- every other entry is at least one away, where the tent is zero
    have away : 1 ≤ |e - i| := by
      rcases Nat.lt_or_gt_of_ne hi.1 with below | above
      · have : (i : ℚ) + 1 ≤ lower := by exact_mod_cast below
        exact le_abs.mpr (.inl (by linarith))
      · have : (lower : ℚ) + 2 ≤ i := by exact_mod_cast (by omega : lower + 2 ≤ i)
        exact le_abs.mpr (.inr (by linarith))
    rw [tent_eq_zero away, zero_mul]

theorem Scalar.toNat_natCast (n : ℕ) : Scalar.toNat (n : ℚ) = n := by
  change ⌊(n : ℚ)⌋.toNat = n
  rw [Int.floor_natCast, Int.toNat_natCast]

namespace Axis

theorem cell_of_size_one {a : Axis ℚ} (ha : a.size = 1) (x : ℚ) : a.cell x = ⟨0, 0, 0⟩ := by
  rw [cell, if_pos ha]
  rfl

/-- The cell starts at the integer part of the place, but the last cell ends with the axis. -/
theorem cell_of_floor {a : Axis ℚ} {x : ℚ} {last below : ℕ} (ha : a.size = last + 2)
    (h : ⌊a.place x⌋ = below) :
    a.cell x = ⟨min below last, min below last + 1, a.place x - (min below last : ℕ)⟩ := by
  have hlast : Scalar.ofNat (a.size - 1) - Scalar.ofNat 1 = (last : ℚ) := by
    change ((a.size - 1 : ℕ) : ℚ) - ((1 : ℕ) : ℚ) = last
    rw [ha]
    push_cast
    ring
  have hbelow : Scalar.floor (a.place x) = (below : ℚ) := by
    change ((⌊a.place x⌋ : ℤ) : ℚ) = below
    rw [h, Int.cast_natCast]
  have hmin : (if Scalar.le (below : ℚ) (last : ℚ) then (below : ℚ) else (last : ℚ)) =
      (min below last : ℕ) := by
    simp only [Scalar.le, decide_eq_true_eq, Nat.cast_min, min_def (below : ℚ)]
  rw [cell, if_neg (by omega)]
  simp only [hlast, hbelow, hmin, Scalar.toNat_natCast]

/-- The cell of an input on an axis of two or more indices has its place in it. -/
theorem exists_cell {a : Axis ℚ} (ha : 1 < a.size) (x : ℚ) :
    ∃ lower : ℕ, a.cell (a.interval.clip x) = ⟨lower, lower + 1, a.coordinate x - lower⟩ ∧
      lower + 1 < a.size ∧ (lower : ℚ) ≤ a.coordinate x ∧ a.coordinate x ≤ lower + 1 := by
  have hplace := place_eq (by omega : 0 < a.size) x
  have hlast := coordinate_le (by omega : 0 < a.size) x
  obtain ⟨last, hsize⟩ : ∃ n, a.size = n + 2 := ⟨a.size - 2, by omega⟩
  obtain ⟨below, hbelow⟩ := Int.eq_ofNat_of_zero_le (Int.floor_nonneg.mpr (a.coordinate_nonneg x))
  have hle := Int.floor_le (a.coordinate x)
  have hlt := Int.lt_floor_add_one (a.coordinate x)
  rw [hbelow, Int.cast_natCast] at hle hlt
  refine ⟨min below last, ?_, by omega, ?_, ?_⟩
  · rw [cell_of_floor hsize (by rw [hplace, hbelow]), hplace]
  · exact le_trans (by exact_mod_cast min_le_left below last) hle
  · rw [hsize] at hlast
    push_cast at hlast ⊢
    rw [← min_add_add_right]
    exact le_min hlt.le (by linarith)

/-- The shares of a cell are what the distances to all the indices of the axis leave. -/
theorem sum_cell {a : Axis ℚ} (ha : 0 < a.size) (x : ℚ) (F : ℕ → ℚ) :
    (1 - (a.cell (a.interval.clip x)).share) * F (a.cell (a.interval.clip x)).lower +
        (a.cell (a.interval.clip x)).share * F (a.cell (a.interval.clip x)).upper =
      ∑ i : Fin a.size, tent (a.coordinate x - i) * F i := by
  rcases Nat.eq_or_lt_of_le ha with one | more
  · have hlast := coordinate_le ha x
    rw [← one] at hlast
    have hplace : a.coordinate x = 0 := le_antisymm (by simpa using hlast) (a.coordinate_nonneg x)
    rw [cell_of_size_one one.symm, hplace,
      Fin.sum_univ_eq_sum_range (fun i => tent (0 - i) * F i) a.size, ← one]
    simp [tent_zero]
  · obtain ⟨lower, hcell, hlower, hle, hle1⟩ := exists_cell more x
    rw [hcell, sum_tent hlower hle hle1]

end Axis

end PdfFunctions
