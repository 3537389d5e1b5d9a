import Mathlib.Data.List.TakeWhile
import PdfFunctions.Token.Lexer

namespace PdfFunctions

inductive Span where
  | blank (b : UInt8)
  -- what follows `%`
  | comment (bytes : Bytes)
  | opening
  | closing
  -- bytes that are neither blanks nor braces nor `%`
  | run (bytes : Bytes)
deriving DecidableEq

namespace Span

open Token

def bytes : Span → Bytes
  | blank b => [b]
  | comment bs => 0x25 :: bs
  | opening => [0x7B]
  | closing => [0x7D]
  | run bs => bs

structure Maximal (p : UInt8 → Bool) (bs after : Bytes) : Prop where
  inside : ∀ b ∈ bs, p b = true
  stops : ∀ b ∈ after.head?, p b = false

/-- A span may stand before `after`. -/
inductive Before : Span → Bytes → Prop where
  | blank {b : UInt8} {after : Bytes} (hb : isBlank b = true) : Before (blank b) after
  | comment {bs after : Bytes} (h : Maximal (!isLineEnd ·) bs after) : Before (comment bs) after
  | opening {after : Bytes} : Before opening after
  | closing {after : Bytes} : Before closing after
  | run {bs after : Bytes} (hne : bs ≠ []) (h : Maximal (!endsSpan ·) bs after) :
      Before (run bs) after

/-- The text is that of the spans, each of which may stand where it stands. -/
inductive Splits : Bytes → List Span → Prop where
  | nil : Splits [] []
  | cons {s : Span} {after : Bytes} {ss : List Span} (hs : s.Before after)
      (h : Splits after ss) : Splits (s.bytes ++ after) (s :: ss)

def first? : Bytes → Option (Span × Bytes)
  | [] => none
  | b :: bs =>
    if b = 0x25 then
      some (comment (bs.takeWhile (!isLineEnd ·)), bs.dropWhile (!isLineEnd ·))
    else if b = 0x7B then some (opening, bs)
    else if b = 0x7D then some (closing, bs)
    else if isBlank b then some (blank b, bs)
    else some (run ((b :: bs).takeWhile (!endsSpan ·)), (b :: bs).dropWhile (!endsSpan ·))

section maximal

variable {p : UInt8 → Bool} {bs after : Bytes}

theorem Maximal.takeWhile_append (h : Maximal p bs after) :
    (bs ++ after).takeWhile p = bs := by
  rw [List.takeWhile_append_of_pos h.inside]
  cases after with
  | nil => simp
  | cons b after => simp [h.stops b rfl]

theorem Maximal.dropWhile_append (h : Maximal p bs after) :
    (bs ++ after).dropWhile p = after := by
  rw [List.dropWhile_append_of_pos h.inside]
  cases after with
  | nil => rfl
  | cons b after => simp [h.stops b rfl]

theorem maximal_takeWhile (p : UInt8 → Bool) (bs : Bytes) :
    Maximal p (bs.takeWhile p) (bs.dropWhile p) where
  inside b hb := List.mem_takeWhile_imp hb
  stops b hb := by
    have hnot := List.head?_dropWhile_not p bs
    rw [Option.mem_def.1 hb] at hnot
    exact hnot

/-- A line end is in no comment, and ends every run. -/
theorem Maximal.append (h : Maximal p bs after) {b : UInt8} (hb : p b = false) (more : Bytes) :
    Maximal p bs (after ++ b :: more) where
  inside := h.inside
  stops c hc := by
    cases after with
    | nil => rwa [← Option.some.inj hc]
    | cons a after => exact h.stops c hc

end maximal

theorem endsSpan_eq_false {b : UInt8} (h : endsSpan b = false) :
    b ≠ 0x25 ∧ b ≠ 0x7B ∧ b ≠ 0x7D ∧ isBlank b = false := by
  simp only [endsSpan, Bool.or_eq_false_iff, beq_eq_false_iff_ne] at h
  obtain ⟨⟨⟨hblank, hopening⟩, hclosing⟩, hcomment⟩ := h
  exact ⟨hcomment, hopening, hclosing, hblank⟩

theorem isBlank_eq_true {b : UInt8} (h : isBlank b = true) :
    b ≠ 0x25 ∧ b ≠ 0x7B ∧ b ≠ 0x7D := by
  refine ⟨?_, ?_, ?_⟩
  all_goals
    rintro rfl
    revert h
    decide

theorem first_of_before {s : Span} {after : Bytes} (h : s.Before after) :
    first? (s.bytes ++ after) = some (s, after) := by
  cases h with
  | blank hb =>
    obtain ⟨hcomment, hopening, hclosing⟩ := isBlank_eq_true hb
    simp [bytes, first?, hcomment, hopening, hclosing, hb]
  | comment h => simp [bytes, first?, h.takeWhile_append, h.dropWhile_append]
  | opening => rfl
  | closing => rfl
  | @run bs _ hne h =>
    obtain ⟨b, bs, rfl⟩ := List.exists_cons_of_ne_nil hne
    have hb := h.inside b (List.mem_cons_self ..)
    obtain ⟨hcomment, hopening, hclosing, hblank⟩ := endsSpan_eq_false (by simpa using hb)
    have htake := h.takeWhile_append
    have hdrop := h.dropWhile_append
    rw [List.cons_append] at htake hdrop
    simp only [bytes, List.cons_append, first?, if_neg hcomment, if_neg hopening, if_neg hclosing,
      hblank, htake, hdrop, Bool.false_eq_true, if_false]

theorem exists_before (b : UInt8) (bs : Bytes) :
    ∃ (s : Span) (after : Bytes), s.Before after ∧ b :: bs = s.bytes ++ after := by
  by_cases hcomment : b = 0x25
  · refine ⟨_, _, .comment (maximal_takeWhile (!isLineEnd ·) bs), ?_⟩
    rw [bytes, List.cons_append, List.takeWhile_append_dropWhile, hcomment]
  by_cases hopening : b = 0x7B
  · exact ⟨_, bs, .opening, by rw [bytes, hopening, List.singleton_append]⟩
  by_cases hclosing : b = 0x7D
  · exact ⟨_, bs, .closing, by rw [bytes, hclosing, List.singleton_append]⟩
  by_cases hblank : isBlank b = true
  · exact ⟨_, bs, .blank hblank, by rw [bytes, List.singleton_append]⟩
  · have hb : (!endsSpan b) = true := by
      simp [endsSpan, hcomment, hopening, hclosing, hblank]
    refine ⟨_, _, .run ?_ (maximal_takeWhile (!endsSpan ·) (b :: bs)), ?_⟩
    · simp [hb]
    · rw [bytes, List.takeWhile_append_dropWhile]

theorem Before.bytes_ne_nil {s : Span} {after : Bytes} (h : s.Before after) : s.bytes ≠ [] := by
  cases h with
  | run hne => exact hne
  | _ => exact List.cons_ne_nil _ _

theorem exists_splits (text : Bytes) : ∃ ss, Splits text ss := by
  induction hn : text.length using Nat.strong_induction_on generalizing text with
  | _ n ih =>
    cases text with
    | nil => exact ⟨[], .nil⟩
    | cons b bs =>
      obtain ⟨s, after, hs, htext⟩ := exists_before b bs
      have hpos := List.length_pos_iff.2 hs.bytes_ne_nil
      have hlength := congrArg List.length htext
      rw [List.length_append] at hlength
      obtain ⟨ss, hss⟩ := ih after.length (by omega) after rfl
      exact ⟨s :: ss, htext ▸ hss.cons hs⟩

theorem Splits.unique {text : Bytes} {ss ss' : List Span} (h : Splits text ss)
    (h' : Splits text ss') : ss' = ss := by
  induction h generalizing ss' with
  | nil =>
    generalize htext : ([] : Bytes) = text at h'
    cases h' with
    | nil => rfl
    | cons hs => exact absurd (List.append_eq_nil_iff.1 htext.symm).1 hs.bytes_ne_nil
  | @cons s after ss hs _ ih =>
    generalize htext : s.bytes ++ after = text at h'
    cases h' with
    | nil => exact absurd (List.append_eq_nil_iff.1 htext).1 hs.bytes_ne_nil
    | cons hs' h' =>
      have hfirst := first_of_before hs
      rw [htext, first_of_before hs'] at hfirst
      obtain ⟨rfl, rfl⟩ := Prod.mk.inj (Option.some.inj hfirst)
      rw [ih h']

/-- A line end separates the spans before it from those after it. -/
theorem Splits.append_lineEnd {b : UInt8} (hb : isLineEnd b = true) {u v : Bytes}
    {ss ss' : List Span} (h : Splits u ss) (h' : Splits v ss') :
    Splits (u ++ b :: v) (ss ++ blank b :: ss') := by
  have hblank : isBlank b = true := by
    simp only [isLineEnd, Bool.or_eq_true, beq_iff_eq] at hb
    rcases hb with rfl | rfl <;> rfl
  induction h with
  | nil => exact h'.cons (.blank hblank)
  | @cons s after ss hs _ ih =>
    rw [List.append_assoc, List.cons_append]
    refine ih.cons ?_
    cases hs with
    | blank hb => exact .blank hb
    | comment h => exact .comment (h.append (by simp [hb]) v)
    | opening => exact .opening
    | closing => exact .closing
    | run hne h => exact .run hne (h.append (by simp [endsSpan, hblank]) v)

end Span

end PdfFunctions
