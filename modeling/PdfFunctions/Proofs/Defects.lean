import PdfFunctions.Proofs.Unlogged

namespace PdfFunctions

/-- The error that a token is in strict mode. -/
def Item.defect? (i : Item) : Option Error :=
  match i.token with
  | .malformed bs => some (.malformedToken i.start bs)
  | .name bs => if Operator.ofName? bs = none then some (.unknownOperator i.start bs) else none
  | _ => none

theorem Item.value_of_regular {i : Item} (h : i.defect? = none) : ∃ v, i.value? = some v := by
  obtain ⟨token, start, stop⟩ := i
  cases token with
  | malformed bs => simp [defect?] at h
  | name bs =>
    cases hop : Operator.ofName? bs with
    | none => simp [defect?, hop] at h
    | some op => exact ⟨.operator op, by simp [value?, hop]⟩
  | _ => exact ⟨_, rfl⟩

theorem Item.no_value_of_defect {i : Item} {e : Error} (h : i.defect? = some e) :
    i.value? = none := by
  obtain ⟨token, start, stop⟩ := i
  cases token with
  | malformed bs => rfl
  | name bs =>
    cases hop : Operator.ofName? bs with
    | none => simp [value?, hop]
    | some op => simp [defect?, hop] at h
  | _ => simp [defect?] at h

namespace Machine

variable {l : Limits}

def feedAll (l : Limits) : List Value → MachineM Unit
  | [] => pure ()
  | v :: vs => feed l v >>= fun _ => feedAll l vs

theorem feedAll_append (l : Limits) (vs ws : List Value) :
    feedAll l (vs ++ ws) = feedAll l vs >>= fun _ => feedAll l ws := by
  induction vs with
  | nil => rfl
  | cons v vs ih => rw [List.cons_append, feedAll, feedAll, ih, bind_assoc]

theorem matches_refuse_lenient (l : Limits) (i : Item) :
    Matches (pure ()) (refuse (l.withStrict false) i) := by
  have hnote (event : Event) : Matches (pure ()) (note event) := by
    rintro m _ ⟨log, rfl⟩
    exact ⟨_, rfl, _, rfl⟩
  unfold refuse
  split
  · exact hnote _
  · exact hnote _
  · exact .pure ()

theorem refuse_strict {i : Item} {e : Error} (h : i.defect? = some e) :
    refuse (l.withStrict true) i = throw e := by
  obtain ⟨token, start, stop⟩ := i
  cases token with
  | malformed bs =>
    obtain rfl := Option.some.inj h
    rfl
  | name bs =>
    obtain ⟨-, rfl⟩ := by simpa [Item.defect?] using h
    rfl
  | _ => simp [Item.defect?] at h

/-- Neither mode makes a difference to a token without a defect. -/
theorem matches_feedItem (strict : Bool) {i : Item} {v : Value} (hv : i.value? = some v) :
    Matches (feed l v) (feedItem (l.withStrict strict) i) := by
  rw [feedItem_of_value hv]
  exact (parallel_withStrict l strict).feed v

theorem matches_lenient (l : Limits) (is : List Item) :
    Matches (feedAll l (is.filterMap Item.value?)) (feedItems (l.withStrict false) is) := by
  induction is with
  | nil => exact .pure ()
  | cons i is ih =>
    rw [feedItems_cons]
    cases hv : i.value? with
    | some v =>
      rw [List.filterMap_cons_some hv, feedAll]
      exact (matches_feedItem false hv).bind fun _ => ih
    | none =>
      rw [List.filterMap_cons_none hv, feedItem_of_no_value hv]
      exact (matches_refuse_lenient l i).bind fun _ => ih

theorem matches_regular (strict : Bool) {is : List Item} (h : ∀ i ∈ is, i.defect? = none) :
    Matches (feedAll l (is.filterMap Item.value?)) (feedItems (l.withStrict strict) is) := by
  induction is with
  | nil => exact .pure ()
  | cons i is ih =>
    obtain ⟨hi, his⟩ := List.forall_mem_cons.1 h
    obtain ⟨v, hv⟩ := i.value_of_regular hi
    rw [feedItems_cons, List.filterMap_cons_some hv, feedAll]
    exact (matches_feedItem strict hv).bind fun _ => ih his

theorem matches_first_defect {is : List Item} {i : Item} {e : Error}
    (h : ∀ j ∈ is, j.defect? = none) (hi : i.defect? = some e) (js : List Item) :
    Matches (feedAll l (is.filterMap Item.value?) >>= fun _ => throw e)
      (feedItems (l.withStrict true) (is ++ i :: js)) := by
  rw [feedItems_append, feedItems_cons, feedItem_of_no_value (Item.no_value_of_defect hi),
    refuse_strict hi]
  exact (matches_regular true h).bind fun _ => .throw e

/-- A lenient run takes in the values that its tokens stand for, and no more. A strict run is the
same where there is no defect. Where there is one, it takes in the values before the first and then
fails with it, unless it fails earlier, and then a lenient run fails in the same way. -/
theorem run_strict_or_lenient (l : Limits) (text : Bytes) (m : Machine) :
    ending (run (l.withStrict false) text m) =
      ending (feedAll l ((tokenize text).filterMap Item.value?) m) ∧
    ((∀ i ∈ tokenize text, i.defect? = none) →
      ending (run (l.withStrict true) text m) = ending (run (l.withStrict false) text m)) ∧
    ∀ is i js e, tokenize text = is ++ i :: js → (∀ j ∈ is, j.defect? = none) →
      i.defect? = some e →
      ending (run (l.withStrict true) text m) =
        ending ((feedAll l (is.filterMap Item.value?) >>= fun _ => throw e) m) ∧
      ∀ e' m', feedAll l (is.filterMap Item.value?) m = .error e' m' →
        ending (run (l.withStrict true) text m) = (some e', m'.unlogged) ∧
        ending (run (l.withStrict false) text m) = (some e', m'.unlogged) := by
  have hlenient := (matches_lenient l (tokenize text)).ending (.refl m)
  refine ⟨?_, fun h => ?_, fun is i js e htext his hi => ?_⟩
  · rw [ending_run, hlenient]
  · rw [ending_run, ending_run, ← hlenient]
    exact ((matches_regular true h).ending (.refl m)).symm
  · have hstrict := (matches_first_defect (l := l) his hi js).ending (.refl m)
    rw [ending_run, ending_run, ← hlenient, htext, ← hstrict]
    refine ⟨rfl, fun e' m' hfail => ⟨?_, ?_⟩⟩
    · rw [bind_of_error hfail]
      rfl
    · rw [List.filterMap_append, feedAll_append, bind_of_error hfail]
      rfl

/-- A name is unknown, in a body that nothing runs; nothing is unknown; and an operator fails before
the unknown name is met. -/
theorem run_strict_or_lenient_of_foo :
    let m : Machine := { stack := { limit := 1 } }
    let strict : Limits := ({} : Limits).withStrict true
    let lenient : Limits := ({} : Limits).withStrict false
    ending (run strict (Bytes.ofText "\x7b true \x7b foo") m) =
      ending ((feedAll {} [.opening, .bool true, .opening] >>= fun _ =>
        throw (.unknownOperator 9 (Bytes.ofText "foo"))) m) ∧
    ending (run strict (Bytes.ofText "\x7b true \x7b") m) =
      ending (run lenient (Bytes.ofText "\x7b true \x7b") m) ∧
    (ending (run strict (Bytes.ofText "add foo") m)).1 = some (.stackUnderflow "add" 2 0) ∧
    (ending (run lenient (Bytes.ofText "add foo") m)).1 = some (.stackUnderflow "add" 2 0) := by
  intro m strict lenient
  have hbody := (run_strict_or_lenient {} (Bytes.ofText "\x7b true \x7b foo") m).2.2
    [⟨.opening, 0, 1⟩, ⟨.bool true, 2, 6⟩, ⟨.opening, 7, 8⟩]
    ⟨.name (Bytes.ofText "foo"), 9, 12⟩ [] (.unknownOperator 9 (Bytes.ofText "foo"))
    (by decide +kernel) (by decide) (by decide +kernel)
  have hnone := (run_strict_or_lenient {} (Bytes.ofText "\x7b true \x7b") m).2.1
    (by decide +kernel)
  have hfails := (run_strict_or_lenient {} (Bytes.ofText "add foo") m).2.2
    [⟨.name (Bytes.ofText "add"), 0, 3⟩] ⟨.name (Bytes.ofText "foo"), 4, 7⟩ []
    (.unknownOperator 4 (Bytes.ofText "foo"))
    (by decide +kernel) (by decide +kernel) (by decide +kernel)
  have hadd : feedAll {} [.operator .add] m = .error (.stackUnderflow "add" 2 0) _ :=
    bind_of_error (feed_of_accept_error rfl)
  have hvalues : [(⟨.name (Bytes.ofText "add"), 0, 3⟩ : Item)].filterMap Item.value? =
      [.operator .add] := by decide +kernel
  obtain ⟨hstrict, hlenient⟩ := hfails.2 _ _ (by rw [hvalues, hadd])
  exact ⟨hbody.1, hnone, by rw [hstrict], by rw [hlenient]⟩

end Machine

end PdfFunctions
