import PdfFunctions.Proofs.Lockstep
import PdfFunctions.Proofs.MachineParts
import PdfFunctions.Proofs.ValueRuns

namespace PdfFunctions

open Error StackM

variable {b : List Value} {k : Nat} {l l' : Limits}

/-- `l'` bounds pending bodies and nesting no more closely than `l`, and refuses no other token. -/
structure Limits.Looser (l l' : Limits) : Prop where
  bodies : l.maxBodies ≤ l'.maxBodies
  nesting : l.maxNesting ≤ l'.maxNesting
  strict : l'.strict = l.strict

theorem Limits.Looser.refl (l : Limits) : l.Looser l := ⟨Nat.le_refl _, Nat.le_refl _, rfl⟩

namespace Machine

/-- A relation between machines that stand at the same depth and in the same calls. What is made
alike keeps it, and so does going over to other calls at the depth that they ask for. -/
structure Parallel (l l' : Limits) (R : Machine → Machine → Prop) (cut : Error → Prop) : Prop where
  depth : ∀ {m n}, R m n → n.depth = m.depth
  calls : ∀ {m n}, R m n → n.calls = m.calls
  leave : ∀ {m n} (d : Nat) (cs : List Call), R m n →
    R { m with depth := d, calls := cs } { n with depth := d, calls := cs }
  alike : ∀ {α : Type} {x y : MachineM α}, Alike l l' x y → Lockstep R cut x y

namespace Parallel

variable {R : Machine → Machine → Prop} {cut : Error → Prop}

theorem step (hR : Parallel l l' R cut) : Lockstep R cut (step l) (step l') := by
  intro m n h
  unfold Machine.step
  rw [hR.calls h]
  match m.calls with
  | [] => exact ⟨n, rfl, h⟩
  | ⟨[], d⟩ :: cs => exact ⟨_, rfl, hR.leave d cs h⟩
  | ⟨v :: vs, d⟩ :: cs =>
    have hleft := hR.leave m.depth (⟨vs, d⟩ :: cs) h
    nth_rewrite 2 [← hR.depth h] at hleft
    exact hR.alike (alike_accept l l' v) hleft

/-- Where the first machine comes to an end the second does, unless the first is cut off. -/
theorem agree_of_settle (hR : Parallel l l' R cut) {m n : Machine}
    {r : EStateM.Result Error Machine Unit} (h : settle? l m = some r) (hmn : R m n) :
    (∃ e m', r = .error e m' ∧ cut e) ∨ ∃ r', settle? l' n = some r' ∧ Agree R cut r r' := by
  -- there is no measure to induct on, as the calls need not end: partial correctness of the run
  let motive (m : Machine) (r : EStateM.Result Error Machine Unit) : Prop :=
    ∀ n, R m n → (∃ e m', r = .error e m' ∧ cut e) ∨
      ∃ r', settle? l' n = some r' ∧ Agree R cut r r'
  refine settle?.partial_correctness l motive ?_ m r h n hmn
  intro settle ih m r hr n hmn
  split at hr
  · rename_i hc
    obtain rfl := Option.some.inj hr
    exact .inr ⟨_, settle_of_nil ((hR.calls hmn).trans hc), n, rfl, hmn⟩
  · rename_i c cs hc
    have hc' := (hR.calls hmn).trans hc
    have hstep := hR.step hmn
    split at hr
    · rename_i m₁ hm
      rw [hm] at hstep
      obtain ⟨n₁, hn, hmn₁⟩ := hstep
      rw [settle_of_step hc' hn]
      exact ih m₁ r hr n₁ hmn₁
    · rename_i e m₁ hm
      obtain rfl := Option.some.inj hr
      rw [hm] at hstep
      rcases hstep with hcut | ⟨n₁, hn, hmn₁⟩
      · exact .inl ⟨e, m₁, rfl, hcut⟩
      · exact .inr ⟨_, settle_of_step_error hc' hn, .inr ⟨n₁, rfl, hmn₁⟩⟩

/-- Where the second machine comes to an end the first does. -/
theorem settles (hR : Parallel l l' R cut) {m n : Machine}
    {r : EStateM.Result Error Machine Unit} (h : settle? l' n = some r) (hmn : R m n) :
    settle? l m ≠ none := by
  let motive (n : Machine) (_ : EStateM.Result Error Machine Unit) : Prop :=
    ∀ m, R m n → settle? l m ≠ none
  refine settle?.partial_correctness l' motive ?_ n r h m hmn
  intro settle ih n r hr m hmn
  split at hr
  · rename_i hc
    simp [settle_of_nil ((hR.calls hmn).symm.trans hc)]
  · rename_i c cs hc
    have hc' := (hR.calls hmn).symm.trans hc
    have hstep := hR.step hmn
    cases hm : Machine.step l m with
    | error e m₁ => simp [settle_of_step_error hc' hm]
    | ok a m₁ =>
      rw [hm] at hstep
      obtain ⟨n₁, hn, hmn₁⟩ := hstep
      rw [hn] at hr
      rw [settle_of_step hc' hm]
      exact ih n₁ r hr m₁ hmn₁

theorem settled (hR : Parallel l l' R cut) : Lockstep R cut (settled l) (settled l') := by
  intro m n hmn
  cases hm : settle? l m with
  | some r =>
    rw [settled_of_some hm]
    rcases hR.agree_of_settle hm hmn with ⟨e, m', rfl, hcut⟩ | ⟨r', hn, hr⟩
    · exact .inl hcut
    · rwa [settled_of_some hn]
  | none =>
    have hn : settle? l' n = none := by
      cases hn : settle? l' n with
      | none => rfl
      | some r => exact absurd hm (hR.settles hn hmn)
    rw [Machine.settled, Machine.settled, hm, hn]
    exact .inr ⟨n, rfl, hmn⟩

theorem unwind (hR : Parallel l l' R cut) {m n : Machine} (h : R m n) :
    R m.unwind n.unwind := by
  unfold Machine.unwind
  rw [hR.calls h]
  cases m.calls.getLast? with
  | none => exact h
  | some c => exact hR.leave c.depth [] h

theorem complete (hR : Parallel l l' R cut) {x y : MachineM Unit} (h : Lockstep R cut x y) :
    Lockstep R cut (complete l x) (complete l' y) := by
  intro m n hmn
  have hr := h.bind (fun _ => hR.settled) hmn
  rw [complete_apply, complete_apply]
  cases hm : (x >>= fun _ => Machine.settled l) m with
  | ok a m₁ =>
    rw [hm] at hr
    obtain ⟨n₁, hn, hmn₁⟩ := hr
    rw [hn]
    exact ⟨n₁, rfl, hmn₁⟩
  | error e m₁ =>
    rw [hm] at hr
    rcases hr with hcut | ⟨n₁, hn, hmn₁⟩
    · exact .inl hcut
    · rw [hn]
      exact .inr ⟨_, rfl, hR.unwind hmn₁⟩

theorem feed (hR : Parallel l l' R cut) (v : Value) : Lockstep R cut (feed l v) (feed l' v) :=
  hR.complete (hR.alike (alike_accept l l' v))

theorem note (hR : Parallel l l' R cut) (e : Event) : Lockstep R cut (note e) (note e) :=
  hR.alike (.note fun _ => e)

theorem refuse (hR : Parallel l l' R cut) (hs : l'.strict = l.strict) (i : Item) :
    Lockstep R cut (refuse l i) (refuse l' i) := by
  have hr (e : Error) (event : Event) :
      Lockstep R cut (reject l e event) (reject l' e event) := by
    unfold reject
    rw [hs]
    split
    · exact .throw e
    · exact hR.note event
  unfold Machine.refuse
  split
  · exact hr _ _
  · exact hr _ _
  · exact .pure ()

theorem feedItem (hR : Parallel l l' R cut) (hs : l'.strict = l.strict) (i : Item) :
    Lockstep R cut (feedItem l i) (feedItem l' i) := by
  cases hv : i.value? with
  | some v =>
    rw [feedItem_of_value hv, feedItem_of_value hv]
    exact hR.feed v
  | none =>
    rw [feedItem_of_no_value hv, feedItem_of_no_value hv]
    exact hR.refuse hs i

theorem feedItems (hR : Parallel l l' R cut) (hs : l'.strict = l.strict) (is : List Item) :
    Lockstep R cut (feedItems l is) (feedItems l' is) := by
  induction is with
  | nil => exact .pure ()
  | cons i is ih =>
    rw [feedItems_cons, feedItems_cons]
    exact (hR.feedItem hs i).bind fun _ => ih

theorem run (hR : Parallel l l' R cut) (hs : l'.strict = l.strict) (text : Bytes) :
    Lockstep R cut (run l text) (run l' text) := by
  refine (hR.feedItems hs _).bind fun _ m n h => ?_
  rw [get_bind, get_bind, hR.depth h]
  by_cases hd : 0 < m.depth
  · rw [if_pos hd]
    exact hR.note _ h
  · rw [if_neg hd]
    exact ⟨n, rfl, h⟩

end Parallel

structure Widened (b : List Value) (k : Nat) (m n : Machine) : Prop where
  stack : m.stack.Widened b k n.stack
  depth : n.depth = m.depth
  calls : n.calls = m.calls

theorem lockstep_onStack {α : Type} {x y : StackM α}
    (h : Lockstep (Stack.Widened b k) (Averted b) x y) :
    Lockstep (Widened b k) (Averted b) (onStack x) (onStack y) := by
  intro m n hmn
  have hs := h hmn.stack
  cases hx : x m.stack with
  | ok a s =>
    rw [hx] at hs
    obtain ⟨t, hy, hst⟩ := hs
    rw [onStack_of_ok hx]
    exact ⟨_, onStack_of_ok hy, hst, hmn.depth, hmn.calls⟩
  | error e s =>
    rw [hx] at hs
    rw [onStack_of_error hx]
    rcases hs with hcut | ⟨t, hy, hst⟩
    · exact .inl hcut
    · exact .inr ⟨_, onStack_of_error hy, hst, hmn.depth, hmn.calls⟩

/-- What is made alike goes side by side, where the limits on one side are the looser ones. -/
theorem Alike.lockstep (hl : l.Looser l') {α : Type} {x y : MachineM α} (h : Alike l l' x y) :
    Lockstep (Widened b k) (Averted b) x y := by
  induction h with
  | pure a => exact .pure a
  | throw => exact .throw _
  | onStack hx => exact lockstep_onStack hx.lockstep
  | defer v => exact lockstep_onStack (StackM.lockstep_defer hl.bodies v)
  | note => exact .modify fun _ _ h => ⟨h.stack, h.depth, h.calls⟩
  | setDepth => exact .modify fun _ _ h => ⟨h.stack, rfl, h.calls⟩
  | enter => exact .modify fun _ _ h => ⟨h.stack, rfl, by rw [h.calls, h.depth]⟩
  | nest d =>
    by_cases hd : l.maxNesting ≤ d
    · rw [if_pos hd]
      exact fun _ _ _ => .inl (.inr trivial)
    · have hd' : ¬ l'.maxNesting ≤ d := by
        have hnesting := hl.nesting
        omega
      rw [if_neg hd, if_neg hd']
      exact .pure ()
  | byDepth _ ih =>
    intro m n h
    rw [atDepth, atDepth, get_bind, get_bind, h.depth]
    exact ih m.depth h
  | bind _ _ hx hf => exact hx.bind hf

theorem parallel_widened (hl : l.Looser l') : Parallel l l' (Widened b k) (Averted b) where
  depth h := h.depth
  calls h := h.calls
  leave _ _ h := ⟨h.stack, rfl, rfl⟩
  alike h := h.lockstep hl

/-- Whole programs go side by side, whatever is underneath and however much more room there is. -/
theorem lockstep_run (hl : l.Looser l') (text : Bytes) :
    Lockstep (Widened b k) (Averted b) (run l text) (run l' text) :=
  (parallel_widened hl).run hl.strict text

end Machine

end PdfFunctions
