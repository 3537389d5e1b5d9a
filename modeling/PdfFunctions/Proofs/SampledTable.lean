import Mathlib.Data.List.Indexes
import PdfFunctions.Proofs.AcceptedTables
import PdfFunctions.Proofs.Interpolation

namespace PdfFunctions

namespace Sampled

abbrev GridPoint (as : List (Axis ℚ)) : Type := (k : Fin as.length) → Fin as[k].size

/-- The number of a table entry. The index along the first axis varies fastest. -/
def GridPoint.index {as : List (Axis ℚ)} (g : GridPoint as) : ℕ :=
  ∑ k, (g k : ℕ) * ∏ i with i < k, as[i].size

def coordinates (as : List (Axis ℚ)) (xs : List ℚ) (k : Fin as.length) : ℚ :=
  as[k].coordinate (xs.getD k 0)

/-- The sum of `F` over the table, where an entry counts by its distances to the place `e`. -/
def gridSum (as : List (Axis ℚ)) (e : Fin as.length → ℚ) (F : ℕ → ℚ) : ℚ :=
  ∑ g : GridPoint as, F g.index * ∏ k, tent (e k - g k)

theorem gridSum_nil (e : Fin ([] : List (Axis ℚ)).length → ℚ) (F : ℕ → ℚ) :
    gridSum [] e F = F 0 := by
  simp [gridSum, GridPoint.index]

theorem prod_below_succ {n : ℕ} (s : Fin (n + 1) → ℕ) (k : Fin n) :
    ∏ i with i < k.succ, s i = s 0 * ∏ i with i < k, s i.succ := by
  simp only [Finset.prod_filter, Fin.prod_univ_succ, Fin.succ_pos, if_true, Fin.succ_lt_succ_iff]

def GridPoint.tail {a : Axis ℚ} {as : List (Axis ℚ)} (g : GridPoint (a :: as)) : GridPoint as :=
  fun k => g k.succ

theorem GridPoint.index_cons {a : Axis ℚ} {as : List (Axis ℚ)} (g : GridPoint (a :: as)) :
    g.index = g 0 + a.size * (GridPoint.tail g).index := by
  have first : ∏ i : Fin (as.length + 1) with i < 0, (a :: as)[i].size = 1 := by simp
  have later (k : Fin as.length) :
      ∏ i : Fin (as.length + 1) with i < k.succ, (a :: as)[i].size =
        a.size * ∏ i with i < k, as[i].size :=
    prod_below_succ (fun i => (a :: as)[i].size) k
  calc g.index
    _ = g 0 * ∏ i : Fin (as.length + 1) with i < 0, (a :: as)[i].size +
          ∑ k : Fin as.length, g k.succ *
            ∏ i : Fin (as.length + 1) with i < k.succ, (a :: as)[i].size :=
        Fin.sum_univ_succ _
    _ = g 0 + ∑ k : Fin as.length, a.size * (g k.succ * ∏ i with i < k, as[i].size) := by
        simp only [first, later, mul_one, mul_left_comm]
    _ = g 0 + a.size * (GridPoint.tail g).index := by
        rw [← Finset.mul_sum]
        rfl

def GridPoint.consEquiv (a : Axis ℚ) (as : List (Axis ℚ)) :
    Fin a.size × GridPoint as ≃ GridPoint (a :: as) :=
  Fin.consEquiv fun k : Fin (as.length + 1) => Fin (a :: as)[k].size

theorem gridSum_cons (a : Axis ℚ) (as : List (Axis ℚ)) (e : Fin (a :: as).length → ℚ)
    (F : ℕ → ℚ) :
    gridSum (a :: as) e F =
      ∑ i : Fin a.size, tent (e 0 - i) *
        gridSum as (fun k => e k.succ) (fun n => F (i + a.size * n)) := by
  have split (g : GridPoint (a :: as)) : ∏ k, tent (e k - g k) =
      tent (e 0 - g 0) * ∏ k : Fin as.length, tent (e k.succ - g k.succ) :=
    Fin.prod_univ_succ _
  -- a grid point of the longer list is an index of the first axis with a grid point of the rest
  calc gridSum (a :: as) e F
    _ = ∑ p : Fin a.size × GridPoint as, F (p.1 + a.size * p.2.index) *
          (tent (e 0 - p.1) * ∏ k, tent (e k.succ - p.2 k)) := by
        refine ((GridPoint.consEquiv a as).sum_comp _).symm.trans ?_
        refine Finset.sum_congr rfl fun p _ => ?_
        rw [split, GridPoint.index_cons]
        rfl
    _ = ∑ i : Fin a.size, ∑ g : GridPoint as, F (i + a.size * g.index) *
          (tent (e 0 - i) * ∏ k, tent (e k.succ - g k)) := Fintype.sum_prod_type _
    _ = _ := by
        refine Finset.sum_congr rfl fun i _ => ?_
        rw [gridSum, Finset.mul_sum]
        refine Finset.sum_congr rfl fun g _ => ?_
        ring

/-- At a grid point no other entry counts. -/
theorem gridSum_of_eq {as : List (Axis ℚ)} {e : Fin as.length → ℚ} {g : GridPoint as}
    (h : ∀ k, e k = g k) (F : ℕ → ℚ) : gridSum as e F = F g.index := by
  have here : ∏ k, tent (e k - g k) = 1 :=
    Finset.prod_eq_one fun k _ => by rw [h, sub_self, tent_zero]
  have away (g' : GridPoint as) (hne : g' ≠ g) : ∏ k, tent (e k - g' k) = 0 := by
    obtain ⟨k, hk⟩ := Function.ne_iff.mp hne
    apply Finset.prod_eq_zero (Finset.mem_univ k)
    apply tent_eq_zero
    have hdist : (1 : ℤ) ≤ |(g k : ℤ) - (g' k : ℤ)| := by
      have : (g' k : ℕ) ≠ g k := fun same => hk (Fin.ext same)
      exact Int.one_le_abs (by omega)
    rw [h]
    exact_mod_cast hdist
  rw [gridSum, Fintype.sum_eq_single g, here, mul_one]
  intro g' hne
  rw [away g' hne, mul_zero]

def total (F : ℕ → ℚ) (ks : List (Corner ℚ)) : ℚ :=
  (ks.map fun k => k.weight * F k.index).sum

theorem total_low_high (F : ℕ → ℚ) (c : Cell ℚ) (stride : ℕ) (ks : List (Corner ℚ)) :
    total F (ks.map (c.low stride) ++ ks.map (c.high stride)) =
      total (fun n => (1 - c.share) * F (n + c.lower * stride) +
        c.share * F (n + c.upper * stride)) ks := by
  simp only [total, List.map_append, List.sum_append, List.map_map, ← List.sum_map_add]
  refine congrArg List.sum (List.map_congr_left fun k _ => ?_)
  change k.weight * (1 - c.share) * F (k.index + c.lower * stride) +
    k.weight * c.share * F (k.index + c.upper * stride) = _
  ring

/-- The entries around the inputs come to what all entries come to by their distances. -/
theorem total_corners {as : List (Axis ℚ)} (has : ∀ a ∈ as, 0 < a.size) {xs : List ℚ}
    (hxs : xs.length = as.length) (stride : ℕ) (ks : List (Corner ℚ)) (F : ℕ → ℚ) :
    total F (corners as (Intervals.clip (as.map Axis.interval) xs) stride ks) =
      total (fun n => gridSum as (coordinates as xs) fun i => F (n + stride * i)) ks := by
  -- the strides and the entries found so far change from axis to axis
  induction as generalizing xs stride ks with
  | nil => simp [corners, gridSum_nil]
  | cons a as ih =>
    obtain ⟨x, xs, rfl⟩ := List.exists_cons_of_length_eq_add_one hxs
    have ha : 0 < a.size := has a List.mem_cons_self
    let c := a.cell (a.interval.clip x)
    -- what the other axes make of an entry of this one
    let rest (n : ℕ) : ℚ := gridSum as (coordinates as xs) fun i => F (n + stride * a.size * i)
    calc total F (corners as (Intervals.clip (as.map Axis.interval) xs) (stride * a.size)
          (ks.map (c.low stride) ++ ks.map (c.high stride)))
      _ = total rest (ks.map (c.low stride) ++ ks.map (c.high stride)) :=
          ih (fun b hb => has b (List.mem_cons_of_mem a hb)) (Nat.succ.inj hxs) _ _
      _ = total (fun n => (1 - c.share) * rest (n + c.lower * stride) +
            c.share * rest (n + c.upper * stride)) ks := total_low_high rest c stride ks
      _ = total (fun n => ∑ i : Fin a.size,
            tent (a.coordinate x - i) * rest (n + i * stride)) ks := by
          congr 1
          funext n
          exact Axis.sum_cell ha x fun i => rest (n + i * stride)
      _ = total (fun n => gridSum (a :: as) (coordinates (a :: as) (x :: xs)) fun i =>
            F (n + stride * i)) ks := by
          congr 1
          funext n
          have apart (i j : ℕ) :
              n + i * stride + stride * a.size * j = n + stride * (i + a.size * j) := by ring
          simp only [gridSum_cons, rest, apart]
          rfl

theorem blend_eq (f : Sampled ℚ) (ks : List (Corner ℚ)) (j : ℕ) :
    f.blend ks j = total (fun n => f.sample n j) ks := by
  have step (sum : ℚ) (k : Corner ℚ) :
      (if Scalar.eq k.weight (Scalar.ofNat 0) then sum
        else sum + k.weight * Scalar.ofNat (f.sample k.index j)) =
      sum + k.weight * f.sample k.index j := by
    split_ifs with h0
    · have : k.weight = 0 := eq_of_beq h0
      rw [this, zero_mul, add_zero]
    · rfl
  rw [blend, total, List.sum_eq_foldl, List.foldl_map]
  simp only [step]
  rfl

end Sampled

/-- The output for a sample, or for a mixture of samples: mapped linearly from the samples of
`bits` bits onto the pair of `decode`, and clipped to the interval. -/
def Channel.decoded (c : Channel ℚ) (bits : ℕ) (sample : ℚ) : ℚ :=
  max c.interval.lo (min c.interval.hi
    (c.decode.1 + sample * (c.decode.2 - c.decode.1) / (2 ^ bits - 1)))

namespace Sampled

theorem output_eq {f : Sampled ℚ} (hf : f.Sound) (ks : List (Corner ℚ)) (j : ℕ) (c : Channel ℚ) :
    f.output ks j c = c.decoded f.bits (total (fun n => f.sample n j) ks) := by
  have hgreatest : Scalar.ofNat ((1 <<< f.bits) - 1) = (2 ^ f.bits - 1 : ℚ) := by
    change (((1 <<< f.bits) - 1 : ℕ) : ℚ) = _
    rw [Nat.one_shiftLeft, Nat.cast_pred (by positivity)]
    push_cast
    rfl
  have hzero : (Scalar.ofNat 0 : ℚ) = 0 := rfl
  have hne : (2 ^ f.bits - 1 : ℚ) ≠ 0 := by
    have := one_lt_pow₀ (one_lt_two : (1 : ℚ) < 2) hf.bits_ne_zero
    linarith
  rw [output, blend_eq, Interval.clip_eq, hgreatest, hzero, interpolate_eq, if_neg hne, sub_zero,
    sub_zero, Channel.decoded]

/-- The outputs are the decoded sums of the whole table, and at a grid point its decoded
entry. -/
theorem evaluate_eq_gridSum {f : Sampled ℚ} (hf : f.Accepted) (xs : List ℚ)
    (hxs : xs.length = f.axes.length) :
    f.evaluate xs = .ok (List.ofFn fun j : Fin f.channels.length =>
      f.channels[j].decoded f.bits
        (gridSum f.axes (coordinates f.axes xs) fun n => f.sample n j)) ∧
    ∀ g : GridPoint f.axes, (∀ k, coordinates f.axes xs k = g k) →
      f.evaluate xs = .ok (List.ofFn fun j : Fin f.channels.length =>
        f.channels[j].decoded f.bits (f.sample g.index j)) := by
  have hfit : f.domain.fit xs = .ok (f.domain.clip xs) := by
    rw [Intervals.fit, if_pos (by rw [hxs, domain, List.length_map])]
  have hsum (j : ℕ) : total (fun n => (f.sample n j : ℚ))
      (corners f.axes (f.domain.clip xs) 1 [⟨Scalar.ofNat 1, 0⟩]) =
        gridSum f.axes (coordinates f.axes xs) fun n => f.sample n j := by
    rw [domain, total_corners hf.sound.size_pos hxs]
    simp only [total, List.map_cons, List.map_nil, List.sum_singleton, zero_add, one_mul]
    exact one_mul _
  have heval : f.evaluate xs = .ok (List.ofFn fun j : Fin f.channels.length =>
      f.channels[j].decoded f.bits
        (gridSum f.axes (coordinates f.axes xs) fun n => f.sample n j)) := by
    rw [evaluate, hfit]
    change Except.ok _ = Except.ok _
    simp only [List.mapIdx_eq_ofFn, output_eq hf.sound, hsum]
    rfl
  refine ⟨heval, ?_⟩
  intro g hg
  simp only [heval, gridSum_of_eq hg]

def reversedTable : Sampled ℚ where
  axes := [⟨⟨0, 1, by decide⟩, 3, (2, 0)⟩, ⟨⟨-1, 1, by decide⟩, 2, (0, 1)⟩]
  channels := [⟨⟨0, 1, by decide⟩, (0, 1)⟩]
  bits := 8
  order := 1
  samples := #[0, 51, 255, 102, 204, 153]

theorem reversedTable_accepted : reversedTable.Accepted := by
  have hmake : make [⟨0, 1, by decide⟩, ⟨-1, 1, by decide⟩] [⟨0, 1, by decide⟩] [3, 2] 8
      reversedTable.samples = .ok { reversedTable with
        axes := [⟨⟨0, 1, by decide⟩, 3, (0, 2)⟩, ⟨⟨-1, 1, by decide⟩, 2, (0, 1)⟩] } := rfl
  exact .encode (.make hmake) (rfl : withEncode _ [2, 0, 0, 1] = .ok reversedTable)

/-- Between the entries, and at the second entry of the table. -/
theorem evaluate_eq_gridSum_of_reversed :
    reversedTable.Accepted ∧ ([1 / 4, 1 / 2] : List ℚ).length = reversedTable.axes.length ∧
      reversedTable.evaluate [1 / 4, 1 / 2] = .ok [27 / 40] ∧
      reversedTable.evaluate [1 / 2, -1] = .ok [1 / 5] := by
  have hbetween := (evaluate_eq_gridSum reversedTable_accepted [1 / 4, 1 / 2] rfl).1
  have hat := (evaluate_eq_gridSum reversedTable_accepted [1 / 2, -1] rfl).2
    (fun k => ⟨1 - k, by revert k; decide⟩) (by decide +kernel)
  refine ⟨reversedTable_accepted, rfl, hbetween.trans (congrArg Except.ok ?_),
    hat.trans (congrArg Except.ok ?_)⟩
  · decide +kernel
  · decide +kernel

end Sampled

end PdfFunctions
