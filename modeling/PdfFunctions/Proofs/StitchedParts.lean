import Mathlib.Tactic.Common
import PdfFunctions.Function
import PdfFunctions.Proofs.Outcome

namespace PdfFunctions

namespace Partition

variable {α : Type} [Scalar α]

theorem index_pieceFrom_le (last x : α) (index : Nat) (lo : α) (bounds : List α) :
    (pieceFrom last x index lo bounds).index ≤ index + bounds.length := by
  fun_induction pieceFrom last x index lo bounds with
  | case1 => exact Nat.le_refl _
  | case2 => exact Nat.le_add_right _ _
  | case3 _ _ _ _ _ ih =>
    rw [List.length_cons]
    omega

/-- A piece is one of those that the bounds separate. -/
theorem index_piece_le (p : Partition α) (x : α) : (p.piece x).index ≤ p.bounds.length := by
  unfold piece
  split
  · split
    · exact Nat.zero_le _
    · have h := index_pieceFrom_le p.domain.hi x 0 p.domain.lo p.bounds
      rwa [Nat.zero_add] at h
  · exact Nat.zero_le _

end Partition

namespace Function

open PdfFunctions.Partition

structure Stitchable (partition : Partition Float) (parts : List Function)
    (encode : List (Float × Float)) : Prop where
  nonempty : parts ≠ []
  bounds : partition.bounds.length + 1 = parts.length
  ordered : partition.fault? = none
  encode : encode.length = parts.length
  inputs : ∀ p ∈ parts, p.inputs? = none ∨ p.inputs? = some 1
  outputs : ∀ p ∈ parts, p.outputCount = firstOutputCount parts

theorem checkParts_eq_ok_iff {outputs : Nat} {parts : List Function} {u : Unit} :
    checkParts outputs parts = .ok u ↔
      (∀ p ∈ parts, p.inputs? = none ∨ p.inputs? = some 1) ∧
      ∀ p ∈ parts, p.outputCount = outputs := by
  induction parts with
  | nil => simp [checkParts]
  | cons p parts ih =>
    rw [checkParts, List.forall_mem_cons, List.forall_mem_cons]
    split
    · rename_i hinputs
      simp [hinputs]
    · rename_i hinputs
      have hp : p.inputs? = none ∨ p.inputs? = some 1 := by tauto
      split
      · rename_i houtputs
        simp [houtputs]
      · rename_i houtputs
        rw [ih]
        tauto

theorem stitch_eq_ok_iff {domain : Interval Float} {parts : List Function}
    {bounds encode : List Float} {range : Option (Intervals Float)} {f : Function} :
    stitch domain parts bounds encode range = .ok f ↔
      ∃ ps, pairs encode = .ok ps ∧ Stitchable ⟨domain, bounds⟩ parts ps ∧
        f = .stitched ⟨⟨domain, bounds⟩, ps, range⟩ parts := by
  unfold stitch
  simp only [bind, Except.bind, pure, Except.pure]
  constructor
  · intro h
    repeat' split at h
    all_goals cases h
    rename_i hpieces hbounds _ hordered _ ps hps hencode _ _ hparts
    obtain ⟨hinputs, houtputs⟩ := checkParts_eq_ok_iff.1 hparts
    refine ⟨ps, hps, ⟨?_, ?_, ?_, not_not.mp hencode, hinputs, houtputs⟩, rfl⟩
    · exact fun h => hpieces (List.length_eq_zero_iff.2 h)
    · change bounds.length + 1 = parts.length
      omega
    · exact Option.eq_none_iff_forall_ne_some.2 hordered
  · rintro ⟨ps, hps, h, rfl⟩
    have hpieces : parts.length ≠ 0 := fun h0 => h.nonempty (List.length_eq_zero_iff.1 h0)
    have hbounds : bounds.length + 1 = parts.length := h.bounds
    have hparts : checkParts (firstOutputCount parts) parts = .ok () :=
      checkParts_eq_ok_iff.2 ⟨h.inputs, h.outputs⟩
    rw [if_neg hpieces, if_neg (by omega), h.ordered, hps]
    simp only [h.encode, ne_eq, not_true, if_false, hparts]

theorem evaluateAt_eq {parts : List Function} {i : Nat} (hi : i < parts.length)
    (xs : List Float) : evaluateAt parts i xs = parts[i].evaluate xs := by
  induction parts generalizing i with
  | nil => simp at hi
  | cons p parts ih =>
    cases i with
    | zero => rw [evaluateAt, List.getElem_cons_zero]
    | succ i => rw [evaluateAt, ih (by simpa using hi), List.getElem_cons_succ]

/-- Every input finds a part. -/
theorem Stitchable.exists_route {s : Stitching Float} {parts : List Function}
    (h : Stitchable s.partition parts s.encode) (x : Float) :
    ∃ i y, s.route x = some (i, y) ∧ i < parts.length := by
  have hindex := index_piece_le s.partition (s.partition.domain.clip x)
  have hbounds := h.bounds
  have hencode := h.encode
  have hlt : (s.partition.piece (s.partition.domain.clip x)).index < s.encode.length := by omega
  simp only [Stitching.route, List.getElem?_eq_getElem hlt, Option.map_some]
  exact ⟨_, _, rfl, hencode ▸ hlt⟩

end Function

end PdfFunctions
