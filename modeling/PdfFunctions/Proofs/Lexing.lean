import Mathlib.Data.List.TakeDrop
import PdfFunctions.Proofs.Spans

namespace PdfFunctions

inductive Token.IsRead : Bytes → Token → Prop where
  | number {b : UInt8} {bs : Bytes} {x : Float} (hb : b < 0x41)
      (hx : Numeral.read? (b :: bs) = some x) : IsRead (b :: bs) (.number x)
  | malformed {b : UInt8} {bs : Bytes} (hb : b < 0x41) (hx : Numeral.read? (b :: bs) = none) :
      IsRead (b :: bs) (.malformed (b :: bs))
  | isTrue : IsRead (Bytes.ofText "true") (.bool true)
  | isFalse : IsRead (Bytes.ofText "false") (.bool false)
  | name {b : UInt8} {bs : Bytes} (hb : 0x41 ≤ b) (htrue : b :: bs ≠ Bytes.ofText "true")
      (hfalse : b :: bs ≠ Bytes.ofText "false") : IsRead (b :: bs) (.name (b :: bs))

namespace Span

open Token

/-- The items of spans of which the first starts at `p`: one for each brace and each run. -/
inductive Listed : Nat → List Span → List Item → Prop where
  | nil {p : Nat} : Listed p [] []
  | blank {p : Nat} {b : UInt8} {ss : List Span} {is : List Item} (h : Listed (p + 1) ss is) :
      Listed p (blank b :: ss) is
  | comment {p : Nat} {bs : Bytes} {ss : List Span} {is : List Item}
      (h : Listed (p + 1 + bs.length) ss is) : Listed p (comment bs :: ss) is
  | opening {p : Nat} {ss : List Span} {is : List Item} (h : Listed (p + 1) ss is) :
      Listed p (opening :: ss) (⟨.opening, p, p + 1⟩ :: is)
  | closing {p : Nat} {ss : List Span} {is : List Item} (h : Listed (p + 1) ss is) :
      Listed p (closing :: ss) (⟨.closing, p, p + 1⟩ :: is)
  | run {p : Nat} {bs : Bytes} {t : Token} {ss : List Span} {is : List Item} (ht : IsRead bs t)
      (h : Listed (p + bs.length) ss is) :
      Listed p (run bs :: ss) (⟨t, p, p + bs.length⟩ :: is)

def token? : Span → Option Token
  | blank _ | comment _ => none
  | opening => some .opening
  | closing => some .closing
  | run bs => some (.ofSpan bs)

def items : Nat → List Span → List Item
  | _, [] => []
  | p, s :: ss =>
    let stop := p + s.bytes.length
    match s.token? with
    | some t => ⟨t, p, stop⟩ :: items stop ss
    | none => items stop ss

theorem items_of_token {s : Span} {t : Token} (ht : s.token? = some t) (p : Nat)
    (ss : List Span) : items p (s :: ss) =
      ⟨t, p, p + s.bytes.length⟩ :: items (p + s.bytes.length) ss := by
  simp only [items, ht]

theorem items_of_no_token {s : Span} (ht : s.token? = none) (p : Nat) (ss : List Span) :
    items p (s :: ss) = items (p + s.bytes.length) ss := by
  simp only [items, ht]

theorem isRead_ofSpan {bs : Bytes} (hne : bs ≠ []) : IsRead bs (ofSpan bs) := by
  have htext : Bytes.ofText "true" = [0x74, 0x72, 0x75, 0x65] := by decide +kernel
  have ftext : Bytes.ofText "false" = [0x66, 0x61, 0x6C, 0x73, 0x65] := by decide +kernel
  unfold ofSpan
  split
  · exact htext ▸ .isTrue
  · exact ftext ▸ .isFalse
  · rename_i b bs htrue hfalse
    split
    · rename_i hb
      cases hx : Numeral.read? (b :: bs) with
      | some x => exact .number hb hx
      | none => exact .malformed hb hx
    · rename_i hb
      refine .name (UInt8.not_lt.1 hb) (fun h => ?_) fun h => ?_
      · obtain ⟨rfl, rfl⟩ := List.cons.inj (h.trans htext)
        exact htrue rfl rfl
      · obtain ⟨rfl, rfl⟩ := List.cons.inj (h.trans ftext)
        exact hfalse rfl rfl
  · exact absurd rfl hne

theorem listed_items {text : Bytes} {ss : List Span} (h : Splits text ss) (p : Nat) :
    Listed p ss (items p ss) := by
  induction h generalizing p with
  | nil => exact .nil
  | cons hs _ ih =>
    cases hs with
    | blank => exact .blank (ih (p + 1))
    | @comment bs =>
      refine .comment ?_
      rw [items_of_no_token rfl, bytes, List.length_cons, Nat.add_assoc, Nat.add_comm 1]
      exact ih _
    | opening => exact .opening (ih (p + 1))
    | closing => exact .closing (ih (p + 1))
    | run hne => exact .run (isRead_ofSpan hne) (ih _)

end Span

namespace Lexer

open Token PdfFunctions.Span

theorem skip_inside {bs : Bytes} (h : ∀ b ∈ bs, (!isLineEnd b) = true) (p : Nat)
    (after : Bytes) : skip true p (bs ++ after) = skip true (p + bs.length) after := by
  induction bs generalizing p with
  | nil => rfl
  | cons b bs ih =>
    rw [List.cons_append, skip, h b (List.mem_cons_self ..), ih fun c hc => h c (.tail _ hc),
      List.length_cons, Nat.add_assoc, Nat.add_comm 1]

/-- The line end that ends a comment is passed as a blank. -/
theorem skip_stops {after : Bytes} (h : ∀ b ∈ after.head?, (!isLineEnd b) = false) (p : Nat) :
    skip true p after = skip false p after := by
  cases after with
  | nil => rfl
  | cons b after =>
    have hb := h b rfl
    have hblank : isBlank b = true ∧ b ≠ 0x25 := by
      simp only [isLineEnd, Bool.not_eq_false', Bool.or_eq_true, beq_iff_eq] at hb
      rcases hb with rfl | rfl <;> decide
    simp [skip, hb, hblank]

theorem next_congr {l l' : Lexer}
    (h : skip false l.position l.rest = skip false l'.position l'.rest) : l.next = l'.next := by
  simp only [next, h]

theorem next_of_no_token {s : Span} {after : Bytes} (h : s.Before after) (ht : s.token? = none)
    (p : Nat) : next ⟨p, s.bytes ++ after⟩ = next ⟨p + s.bytes.length, after⟩ := by
  cases h with
  | blank hb =>
    obtain ⟨hcomment, -, -⟩ := isBlank_eq_true hb
    refine next_congr ?_
    simp [Span.bytes, skip, hcomment, hb]
  | @comment bs _ h =>
    refine next_congr ?_
    change skip true (p + 1) (bs ++ after) = skip false (p + (bs.length + 1)) after
    rw [skip_inside h.inside, skip_stops h.stops, Nat.add_assoc, Nat.add_comm 1]
  | _ => simp [token?] at ht

theorem next_of_token {s : Span} {after : Bytes} {t : Token} (h : s.Before after)
    (ht : s.token? = some t) (p : Nat) : next ⟨p, s.bytes ++ after⟩ =
      (some ⟨t, p, p + s.bytes.length⟩, ⟨p + s.bytes.length, after⟩) := by
  cases h with
  | opening =>
    obtain rfl := Option.some.inj ht
    rfl
  | closing =>
    obtain rfl := Option.some.inj ht
    rfl
  | @run bs _ hne h =>
    obtain rfl := Option.some.inj ht
    obtain ⟨b, bs, rfl⟩ := List.exists_cons_of_ne_nil hne
    have hb := h.inside b (List.mem_cons_self ..)
    obtain ⟨hcomment, hopening, hclosing, hblank⟩ := endsSpan_eq_false (by simpa using hb)
    have hskip : skip false p (b :: (bs ++ after)) = ⟨p, b :: (bs ++ after)⟩ := by
      simp [skip, hcomment, hblank]
    have htake := h.takeWhile_append
    have hdrop := h.dropWhile_append
    rw [List.cons_append] at htake hdrop
    simp only [next, Span.bytes, List.cons_append, hskip, beq_iff_eq, hopening, hclosing, if_false,
      List.span_eq_takeWhile_dropWhile, htake, hdrop]
  | _ => simp [token?] at ht

theorem collect_of_splits {text : Bytes} {ss : List Span} (h : Splits text ss) {p fuel : Nat}
    (hfuel : text.length < fuel) (found : List Item) :
    collect fuel ⟨p, text⟩ found = found.reverse ++ Span.items p ss := by
  -- blanks and comments give no item and use no fuel: only a span with a token does
  induction h generalizing p fuel found with
  | nil =>
    obtain ⟨fuel, rfl⟩ := Nat.exists_eq_add_of_lt hfuel
    exact (List.append_nil _).symm
  | @cons s after ss hs _ ih =>
    have hpos := List.length_pos_iff.2 hs.bytes_ne_nil
    rw [List.length_append] at hfuel
    cases ht : s.token? with
    | some t =>
      obtain ⟨fuel, rfl⟩ : ∃ k, fuel = k + 1 := ⟨fuel - 1, by omega⟩
      rw [collect, next_of_token hs ht, items_of_token ht]
      dsimp only
      rw [ih (by omega), List.reverse_cons, List.append_assoc, List.singleton_append]
    | none =>
      obtain ⟨fuel, rfl⟩ : ∃ k, fuel = k + 1 := ⟨fuel - 1, by omega⟩
      have hafter := ih (p := p + s.bytes.length) (by omega : _ < fuel + 1) found
      rw [collect] at hafter ⊢
      rw [next_of_no_token hs ht, hafter, items_of_no_token ht]

theorem items_of_splits {text : Bytes} {ss : List Span} (h : Splits text ss) (p : Nat) :
    (⟨p, text⟩ : Lexer).items = Span.items p ss :=
  collect_of_splits h (Nat.lt_succ_self _) []

/-- What a call of `next` does: it reads the first of the items that are left, if there is one, and
stops behind it. -/
theorem next_cases (l : Lexer) :
    (l.items = [] ∧ l.next = (none, ⟨l.position + l.rest.length, []⟩)) ∨
    ∃ i k, k ≤ l.rest.length ∧ i.stop = l.position + k ∧
      l.next = (some i, ⟨i.stop, l.rest.drop k⟩) ∧ l.items = i :: l.next.2.items := by
  obtain ⟨p, text⟩ := l
  obtain ⟨ss, hss⟩ := exists_splits text
  rw [items_of_splits hss]
  induction hss generalizing p with
  | nil => exact .inl ⟨rfl, rfl⟩
  | @cons s after ss hs hss ih =>
    cases ht : s.token? with
    | some t =>
      have hnext := next_of_token hs ht p
      refine .inr ⟨⟨t, p, p + s.bytes.length⟩, s.bytes.length, ?_, rfl, ?_, ?_⟩
      · rw [List.length_append]
        exact Nat.le_add_right _ _
      · rw [hnext, List.drop_left]
      · rw [hnext, items_of_splits hss, items_of_token ht]
    | none =>
      rw [next_of_no_token hs ht, items_of_no_token ht]
      rcases ih (p + s.bytes.length) with ⟨hitems, hnext⟩ | ⟨i, k, hk, hstop, hnext, hitems⟩
      · refine .inl ⟨hitems, ?_⟩
        rw [hnext, List.length_append, Nat.add_assoc]
      · refine .inr ⟨i, s.bytes.length + k, ?_, ?_, ?_, hitems⟩
        · rw [List.length_append]
          exact Nat.add_le_add_left hk _
        · rw [hstop, Nat.add_assoc]
        · rw [hnext, List.drop_length_add_append]

def after (l : Lexer) : Nat → Lexer
  | 0 => l
  | n + 1 => (l.after n).next.2

theorem items_after (l : Lexer) (n : Nat) : (l.after n).items = l.items.drop n := by
  induction n with
  | zero => rfl
  | succ n ih =>
    rw [after]
    rcases next_cases (l.after n) with ⟨hitems, hnext⟩ | ⟨i, k, -, -, -, hitems⟩
    · rw [hnext, List.drop_eq_nil_of_le]
      · rfl
      · rw [hitems] at ih
        exact Nat.le_succ_of_le (List.drop_eq_nil_iff.1 ih.symm)
    · rw [hitems] at ih
      rw [← List.drop_drop, ← ih, List.drop_one, List.tail_cons]

theorem next_after (l : Lexer) (n : Nat) : (l.after n).next.1 = l.items[n]? := by
  have hafter := items_after l n
  rw [← List.head?_drop, ← hafter]
  rcases next_cases (l.after n) with ⟨hitems, hnext⟩ | ⟨i, k, -, -, hnext, hitems⟩
  · rw [hitems, hnext, List.head?_nil]
  · rw [hitems, hnext, List.head?_cons]

structure Within (text : Bytes) (l : Lexer) : Prop where
  length : l.position + l.rest.length = text.length
  rest : text.drop l.position = l.rest

namespace Within

variable {text : Bytes} {l : Lexer}

theorem next (h : l.Within text) : l.next.2.Within text := by
  have hlength := h.length
  rcases next_cases l with ⟨-, hnext⟩ | ⟨i, k, hk, hstop, hnext, -⟩
  · rw [hnext]
    refine ⟨hlength, ?_⟩
    dsimp only
    rw [hlength, List.drop_length]
  · rw [hnext]
    refine ⟨?_, ?_⟩
    · dsimp only
      rw [hstop, List.length_drop]
      omega
    · dsimp only
      rw [hstop, ← List.drop_drop, h.rest]

theorem after (h : l.Within text) (n : Nat) : (l.after n).Within text := by
  induction n with
  | zero => exact h
  | succ n ih => exact ih.next

/-- The lexer is where it would be set to. -/
theorem seek (h : l.Within text) : seek text l.position = l := by
  have hlength := h.length
  rw [Lexer.seek, h.rest, Nat.min_eq_left (by omega)]

theorem position_next (h : l.Within text) :
    l.next.2.position = l.next.1.elim text.length Item.stop := by
  rcases next_cases l with ⟨-, hnext⟩ | ⟨i, k, -, -, hnext, -⟩
  · rw [hnext, Option.elim_none, h.length]
  · rw [hnext, Option.elim_some]

end Within

theorem within_ofText (text : Bytes) : (ofText text).Within text :=
  ⟨Nat.zero_add _, rfl⟩

end Lexer

open Lexer PdfFunctions.Span

/-- Every text splits into spans in exactly one way. Call by call the lexer gives the items of these
spans, stops where each of them does, gives none only at the end, and can be set back to any place
where it stopped. -/
theorem next_lists_spans (text : Bytes) :
    ∃ ss, (∀ ss', Splits text ss' ↔ ss' = ss) ∧ Listed 0 ss (tokenize text) ∧
      ∀ n, let l := (ofText text).after n
        l.next.1 = (tokenize text)[n]? ∧
        l.next.2.position = ((tokenize text)[n]?).elim text.length Item.stop ∧
        ∀ k, ((seek text l.position).after k).next.1 = (tokenize text)[n + k]? := by
  obtain ⟨ss, hss⟩ := exists_splits text
  have hitems : tokenize text = Span.items 0 ss := items_of_splits hss 0
  refine ⟨ss, fun ss' => ⟨fun h => hss.unique h, fun h => h ▸ hss⟩, hitems ▸ listed_items hss 0, ?_⟩
  intro n l
  have hnext : l.next.1 = (tokenize text)[n]? := next_after (ofText text) n
  have hwithin : l.Within text := (within_ofText text).after n
  refine ⟨hnext, ?_, fun k => ?_⟩
  · rw [hwithin.position_next, hnext]
  · rw [hwithin.seek, next_after, items_after, List.getElem?_drop]
    rfl

end PdfFunctions
