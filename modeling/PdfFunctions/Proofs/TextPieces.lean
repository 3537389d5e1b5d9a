import PdfFunctions.Proofs.Lexing
import PdfFunctions.Proofs.Unlogged

namespace PdfFunctions

def Item.later (n : Nat) (i : Item) : Item :=
  { i with start := i.start + n, stop := i.stop + n }

/-- The same error, `n` bytes further on if it has a place in the text. -/
def Error.later (n : Nat) : Error → Error
  | malformedToken position bytes => malformedToken (position + n) bytes
  | unknownOperator position name => unknownOperator (position + n) name
  | e => e

theorem Error.later_eq {e : Error} (h : e.OfValue ∨ e = .outOfSteps) (n : Nat) :
    e.later n = e := by
  rcases h with h | rfl
  · cases e with
    | malformedToken | unknownOperator => exact h.elim
    | _ => rfl
  · rfl

namespace Span

theorem items_append {u : Bytes} {ss : List Span} (h : Splits u ss) (ss' : List Span) (p : Nat) :
    items p (ss ++ ss') = items p ss ++ items (p + u.length) ss' := by
  induction h generalizing p with
  | nil => rfl
  | @cons s after ss _ _ ih =>
    rw [List.cons_append, List.length_append, ← Nat.add_assoc]
    cases ht : s.token? with
    | some t => rw [items_of_token ht, items_of_token ht, ih, List.cons_append]
    | none => rw [items_of_no_token ht, items_of_no_token ht, ih]

theorem items_later (n p : Nat) (ss : List Span) :
    items (p + n) ss = (items p ss).map (Item.later n) := by
  induction ss generalizing p with
  | nil => rfl
  | cons s ss ih =>
    have hstop : p + n + s.bytes.length = p + s.bytes.length + n := Nat.add_right_comm ..
    cases ht : s.token? with
    | some t => rw [items_of_token ht, items_of_token ht, hstop, ih, List.map_cons, Item.later]
    | none => rw [items_of_no_token ht, items_of_no_token ht, hstop, ih]

end Span

open PdfFunctions.Span

/-- The lexer starts afresh on a new line. -/
theorem tokenize_append_lineEnd {b : UInt8} (hb : Token.isLineEnd b = true) (u v : Bytes) :
    tokenize (u ++ b :: v) = tokenize u ++ (tokenize v).map (Item.later (u.length + 1)) := by
  obtain ⟨ss, hss⟩ := exists_splits u
  obtain ⟨ss', hss'⟩ := exists_splits v
  have hu : tokenize u = Span.items 0 ss := Lexer.items_of_splits hss 0
  have hv : tokenize v = Span.items 0 ss' := Lexer.items_of_splits hss' 0
  have huv : tokenize (u ++ b :: v) = Span.items 0 (ss ++ blank b :: ss') :=
    Lexer.items_of_splits (hss.append_lineEnd hb hss') 0
  rw [huv, hu, hv, items_append hss, items_of_no_token rfl, ← items_later, Nat.zero_add,
    Nat.zero_add]
  rfl

namespace Machine

variable {l : Limits}

def later (n : Nat) (x : MachineM Unit) : MachineM Unit := fun m =>
  match x m with
  | .ok u m => .ok u m
  | .error e m => .error (e.later n) m

theorem later_bind (n : Nat) (x y : MachineM Unit) :
    later n (x >>= fun _ => y) = later n x >>= fun _ => later n y := by
  funext m
  cases hx : x m with
  | ok u m₁ =>
    have hlater : later n x m = .ok u m₁ := by rw [later, hx]
    rw [bind_of_ok hlater, later, bind_of_ok hx, later]
  | error e m₁ =>
    have hlater : later n x m = .error (e.later n) m₁ := by rw [later, hx]
    rw [bind_of_error hlater, later, bind_of_error hx]

theorem later_feed (n : Nat) (v : Value) : later n (feed l v) = feed l v := by
  funext m
  rw [later]
  cases hv : feed l v m with
  | ok u m₁ => rfl
  | error e m₁ =>
    have he : e.later n = e := Error.later_eq (ofValue_of_feed hv) n
    dsimp only
    rw [he]

/-- A token does the same wherever it stands, but for the place that its error names. -/
theorem matches_later (n : Nat) (i : Item) :
    Matches (feedItem l (i.later n)) (later n (feedItem l i)) := by
  have hR := parallel_withStrict l l.strict
  -- the two runs note different positions, so they match up to the log only
  have hreject (e : Error) (event event' : Event) :
      Matches (reject l (e.later n) event) (later n (reject l e event')) := by
    rintro m _ ⟨log, rfl⟩
    unfold reject
    split
    · exact .inr ⟨_, rfl, log, rfl⟩
    · exact ⟨_, rfl, _, rfl⟩
  cases hv : i.value? with
  | some v =>
    have hv' : (i.later n).value? = some v := hv
    rw [feedItem_of_value hv', feedItem_of_value hv, later_feed]
    exact hR.feed v
  | none =>
    have hv' : (i.later n).value? = none := hv
    rw [feedItem_of_no_value hv', feedItem_of_no_value hv]
    obtain ⟨token, start, stop⟩ := i
    cases token with
    | name bs => exact hreject (.unknownOperator start bs) _ _
    | malformed bs => exact hreject (.malformedToken start bs) _ _
    | _ => simp [Item.value?] at hv

theorem matches_map_later (n : Nat) (is : List Item) :
    Matches (feedItems l (is.map (Item.later n))) (later n (feedItems l is)) := by
  induction is with
  | nil => exact .pure ()
  | cons i is ih =>
    rw [List.map_cons, feedItems_cons, feedItems_cons, later_bind]
    exact (matches_later n i).bind fun _ => ih

theorem ending_later (n : Nat) (x : MachineM Unit) (m : Machine) :
    ending (later n x m) = ((ending (x m)).1.map (Error.later n), (ending (x m)).2) := by
  rw [later]
  cases x m <;> rfl

/-- To run `u` and then, if that succeeds, `v` on the machine that it leaves comes to what the text
of both comes to, with a line end between them. Only the errors of `v` name other places. -/
theorem ending_run_append (l : Limits) (u v : Bytes) (m : Machine) :
    ending (run l (u ++ 0x0A :: v) m) =
      ending ((run l u >>= fun _ => later (u.length + 1) (run l v)) m) := by
  rw [ending_run, tokenize_append_lineEnd rfl, feedItems_append]
  cases hu : feedItems l (tokenize u) m with
  | error e m₁ =>
    have hrun : run l u m = .error e m₁ := by rw [run, bind_of_error hu]
    rw [bind_of_error hu, bind_of_error hrun]
  | ok a m₁ =>
    obtain ⟨log, hrun⟩ := run_of_feedItems hu
    have hlog : SameButLog m₁ { m₁ with log := log } := ⟨log, rfl⟩
    rw [bind_of_ok hu, bind_of_ok hrun, (matches_map_later _ _).ending hlog, ending_later,
      ending_later, ending_run]

end Machine

end PdfFunctions
