import PdfFunctions.Proofs.MemoryBound
import PdfFunctions.Proofs.ResultShape

namespace PdfFunctions

def Event.replacesColor : Event → Bool
  | .colorReplaced .. | .tintReplaced .. => true
  | _ => false

def Log.replacements (log : Log) : Nat := log.countP Event.replacesColor

section replaces

variable {σ α β : Type} {view : σ → Log}

/-- `x` reports no replaced colour, also where it fails. `view` gives the log of a state. -/
def NeverReplaces (view : σ → Log) (x : EStateM Error σ α) : Prop :=
  ∀ s, match x s with
    | .ok _ t => (view t).replacements = (view s).replacements
    | .error _ t => (view t).replacements = (view s).replacements

namespace NeverReplaces

theorem of_ok {x : EStateM Error σ α} {s t : σ} {a : α} (hx : NeverReplaces view x)
    (h : x s = .ok a t) : (view t).replacements = (view s).replacements := by
  have ht := hx s
  rwa [h] at ht

theorem of_error {x : EStateM Error σ α} {s t : σ} {e : Error} (hx : NeverReplaces view x)
    (h : x s = .error e t) : (view t).replacements = (view s).replacements := by
  have ht := hx s
  rwa [h] at ht

theorem pure (a : α) : NeverReplaces view (pure a) := fun _ => rfl

theorem throw (e : Error) : NeverReplaces (α := α) view (throw e) := fun _ => rfl

theorem get : NeverReplaces view get := fun _ => rfl

theorem modify {f : σ → σ} (h : ∀ s, (view (f s)).replacements = (view s).replacements) :
    NeverReplaces view (modify f) := h

theorem bind {x : EStateM Error σ α} {f : α → EStateM Error σ β} (hx : NeverReplaces view x)
    (hf : ∀ a, NeverReplaces view (f a)) : NeverReplaces view (x >>= f) := by
  intro s
  cases hxs : x s with
  | ok a t =>
    have ht := hf a t
    rw [hx.of_ok hxs] at ht
    rw [bind_of_ok hxs]
    exact ht
  | error e t =>
    rw [bind_of_error hxs]
    exact hx.of_error hxs

theorem ofExcept (r : Except Error α) : NeverReplaces view (ofExcept r) := by
  cases r with
  | ok a => exact .pure a
  | error e => exact .throw e

end NeverReplaces

end replaces

namespace Machine

variable {l : Limits}

theorem neverReplaces_onStack {α : Type} (x : StackM α) : NeverReplaces log (onStack x) := by
  intro m
  rw [onStack]
  cases x m.stack <;> rfl

theorem neverReplaces_note {e : Event} (he : e.replacesColor = false) :
    NeverReplaces log (note e) :=
  .modify fun m => List.countP_cons_of_neg (by simp [he])

theorem neverReplaces_setDepth (d : Nat) : NeverReplaces log (setDepth d) := .modify fun _ => rfl

theorem neverReplaces_enter (w : List Value) : NeverReplaces log (enter w) := .modify fun _ => rfl

theorem neverReplaces_control (op : Operator) : NeverReplaces log (control op) := by
  cases op with
  | pushTrue | pushFalse => exact neverReplaces_onStack _
  | runIf =>
    rw [control_runIf_eq]
    refine (neverReplaces_onStack _).bind fun w => (neverReplaces_onStack _).bind fun c => ?_
    cases c with
    | true => exact neverReplaces_enter w
    | false => exact .pure ()
  | runIfElse =>
    rw [control_runIfElse_eq]
    refine (neverReplaces_onStack _).bind fun w' => (neverReplaces_onStack _).bind fun w =>
      (neverReplaces_onStack _).bind fun c => ?_
    cases c with
    | true => exact neverReplaces_enter w
    | false => exact neverReplaces_enter w'
  | _ => exact .throw _

theorem neverReplaces_execute (op : Operator) : NeverReplaces log (execute op) := by
  unfold execute
  split
  · exact neverReplaces_onStack _
  · exact neverReplaces_onStack _
  · exact neverReplaces_onStack _
  · exact neverReplaces_onStack _
  · exact neverReplaces_control op

theorem neverReplaces_operate (op : Operator) : NeverReplaces log (operate op) :=
  NeverReplaces.get.bind fun _ => (neverReplaces_note rfl).bind fun _ =>
    (neverReplaces_onStack _).bind fun _ => neverReplaces_execute op

theorem neverReplaces_atDepth {α : Type} {x : Nat → MachineM α}
    (h : ∀ d, NeverReplaces log (x d)) : NeverReplaces log (atDepth x) :=
  NeverReplaces.get.bind fun m => h m.depth

theorem neverReplaces_openBrace : NeverReplaces log (openBrace l) := by
  rw [openBrace_eq]
  refine neverReplaces_atDepth fun d => ?_
  refine NeverReplaces.bind ?_ fun _ => (neverReplaces_setDepth _).bind fun _ => ?_
  · split
    · exact .throw _
    · exact .pure ()
  · match d with
    | 0 => exact .pure ()
    | 1 => exact neverReplaces_onStack _
    | d + 2 => exact neverReplaces_onStack _

theorem neverReplaces_closeBrace : NeverReplaces log (closeBrace l) := by
  rw [closeBrace_eq]
  refine neverReplaces_atDepth fun d => ?_
  match d with
  | 0 => exact neverReplaces_note rfl
  | 1 => exact neverReplaces_setDepth 0
  | d + 2 => exact (neverReplaces_onStack _).bind fun _ => neverReplaces_setDepth _

theorem neverReplaces_accept (v : Value) : NeverReplaces log (accept l v) := by
  cases v with
  | opening => exact neverReplaces_openBrace
  | closing => exact neverReplaces_closeBrace
  | operator op =>
    rw [accept_operator_eq]
    refine neverReplaces_atDepth fun d => ?_
    split
    · exact neverReplaces_operate op
    · exact neverReplaces_onStack _
  | number | bool =>
    rw [accept_plain_eq l (by simp)]
    refine neverReplaces_atDepth fun d => ?_
    split <;> exact neverReplaces_onStack _

theorem neverReplaces_step : NeverReplaces log (step l) := by
  intro m
  unfold step
  match m.calls with
  | [] => rfl
  | ⟨[], d⟩ :: cs => rfl
  | ⟨v :: vs, d⟩ :: cs => exact neverReplaces_accept v { m with calls := ⟨vs, d⟩ :: cs }

theorem neverReplaces_settled : NeverReplaces log (settled l) := by
  intro m
  cases h : settle? l m with
  -- bodies that run without end are given up with the log they began with
  | none =>
    rw [settled, h]
    exact rfl
  | some r =>
    let motive (m : Machine) (r : EStateM.Result Error Machine Unit) : Prop :=
      (left r).log.replacements = m.log.replacements
    have hlog : motive m r := by
      refine settle?.partial_correctness l motive ?_ m r h
      intro settle ih m r hr
      split at hr
      · obtain rfl := Option.some.inj hr
        rfl
      · split at hr
        · rename_i m₁ hm
          exact (ih m₁ r hr).trans (neverReplaces_step.of_ok hm)
        · rename_i e m₁ hm
          obtain rfl := Option.some.inj hr
          exact neverReplaces_step.of_error hm
    rw [settled_of_some h]
    cases r <;> exact hlog

theorem log_unwind (m : Machine) : m.unwind.log = m.log := by
  unfold unwind
  split <;> rfl

theorem neverReplaces_complete {x : MachineM Unit} (hx : NeverReplaces log x) :
    NeverReplaces log (complete l x) := by
  intro m
  have h := hx.bind (fun _ => neverReplaces_settled (l := l)) m
  rw [complete_apply]
  cases hr : (x >>= fun _ => settled l) m with
  | ok u m₁ =>
    rw [hr] at h
    exact h
  | error e m₁ =>
    rw [hr] at h
    dsimp only
    rw [log_unwind]
    exact h

theorem neverReplaces_refuse (i : Item) : NeverReplaces log (refuse l i) := by
  have hreject (e : Error) {event : Event} (hevent : event.replacesColor = false) :
      NeverReplaces log (reject l e event) := by
    unfold reject
    split
    · exact .throw e
    · exact neverReplaces_note hevent
  unfold refuse
  split
  · exact hreject _ rfl
  · exact hreject _ rfl
  · exact .pure ()

theorem neverReplaces_feedItem (i : Item) : NeverReplaces log (feedItem l i) := by
  cases hv : i.value? with
  | some v =>
    rw [feedItem_of_value hv]
    exact neverReplaces_complete (neverReplaces_accept v)
  | none =>
    rw [feedItem_of_no_value hv]
    exact neverReplaces_refuse i

theorem neverReplaces_feedItems (is : List Item) : NeverReplaces log (feedItems l is) := by
  induction is with
  | nil => exact .pure ()
  | cons i is ih =>
    rw [feedItems_cons]
    exact (neverReplaces_feedItem i).bind fun _ => ih

theorem neverReplaces_run (text : Bytes) : NeverReplaces log (run l text) := by
  refine (neverReplaces_feedItems _).bind fun _ => NeverReplaces.get.bind fun m => ?_
  dsimp only
  split
  · exact neverReplaces_note rfl
  · exact .pure ()

end Machine

theorem neverReplaces_evaluateText (l : Limits) (text : Bytes) (s : Stack) :
    NeverReplaces id (evaluateText l text s) := by
  intro log
  have h := Machine.neverReplaces_run (l := l) text { stack := s, log }
  unfold evaluateText
  cases hrun : Machine.run l text { stack := s, log } with
  | ok u m =>
    rw [hrun] at h
    exact h
  | error e m =>
    rw [hrun] at h
    exact h

namespace Calculator

variable (f : Calculator)

theorem neverReplaces_outputs (s : Stack) : NeverReplaces id (f.outputs s) := by
  have hrest : NeverReplaces id (ofExcept ((s.contents.take f.range.length).mapM Value.getNumber)
      >>= fun ys => pure (f.range.clip ys) : EStateM Error Log (List Float)) :=
    (NeverReplaces.ofExcept _).bind fun ys => .pure _
  have hextra (n : Nat) : NeverReplaces id (modify (.extraResults n :: ·)) :=
    .modify fun log => List.countP_cons_of_neg (by simp [Event.replacesColor])
  unfold outputs
  dsimp only
  split
  · exact .throw _
  · split
    · exact (hextra _).bind fun _ => hrest
    · exact hrest

theorem neverReplaces_evaluate (xs : List Float) : NeverReplaces id (f.evaluate xs) := by
  have hrun : NeverReplaces id (f.run xs) :=
    (NeverReplaces.ofExcept _).bind fun _ => (NeverReplaces.ofExcept _).bind fun s =>
      neverReplaces_evaluateText _ _ s
  exact hrun.bind fun s => f.neverReplaces_outputs s

end Calculator

theorem Exponential.replacesColor_of_remark {x n : Float} {e : Event}
    (h : e ∈ (remark? x n).toList) : e.replacesColor = false := by
  rw [Option.mem_toList] at h
  unfold remark? at h
  split at h
  · cases h
    rfl
  · split at h
    · cases h
      rfl
    · cases h

theorem Exponential.neverReplaces_evaluate (f : Exponential) (xs : List Float) :
    NeverReplaces id (f.evaluate xs) := by
  have hremark (x : Float) (log : Log) :
      Log.replacements ((remark? x f.exponent).toList ++ log) = log.replacements := by
    have hnone : (remark? x f.exponent).toList.countP Event.replacesColor = 0 :=
      List.countP_eq_zero.2 fun e he => by simp [replacesColor_of_remark he]
    rw [Log.replacements, List.countP_append, hnone, Nat.zero_add]
    rfl
  cases xs with
  | nil => exact .throw _
  | cons x xs =>
    cases xs with
    | nil => exact (NeverReplaces.modify (hremark _)).bind fun _ => .pure _
    | cons => exact .throw _

namespace Function

mutual

/-- Only what turns outputs into a colour puts black in its place. -/
theorem neverReplaces_evaluate : (f : Function) → (xs : List Float) →
    NeverReplaces id (f.evaluate xs)
  | sampled f, xs => NeverReplaces.ofExcept (f.evaluate xs)
  | exponential f, xs => f.neverReplaces_evaluate xs
  | calculated f, xs => f.neverReplaces_evaluate xs
  | stitched s parts, xs => by
    by_cases hxs : xs.length = 1
    · obtain ⟨x, rfl⟩ := List.length_eq_one_iff.1 hxs
      rw [evaluate]
      split
      · exact (neverReplaces_evaluateAt parts _ _).bind fun ys => .pure _
      · exact .throw _
    · intro log
      rw [evaluate_stitched_of_ne s parts hxs]

theorem neverReplaces_evaluateAt : (fs : List Function) → (i : Nat) → (xs : List Float) →
    NeverReplaces id (evaluateAt fs i xs)
  | [], _, _ => .throw _
  | f :: _, 0, xs => neverReplaces_evaluate f xs
  | _ :: fs, i + 1, xs => neverReplaces_evaluateAt fs i xs

end

end Function

end PdfFunctions
