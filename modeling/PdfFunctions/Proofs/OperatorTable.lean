import PdfFunctions.Proofs.OperatorParts
import PdfFunctions.Proofs.ValueRuns

namespace PdfFunctions

open Stack StackM

variable {p : List Value}

namespace Operator

/-- The outcome of `op` on the operands `p` is what the table says: as many values as it says, of
the kind that it says, and an error of type exactly where the operands do not suit. -/
def Truthful (op : Operator) (p : List Value) : EStateM.Result Error (List Value) Unit → Prop
  | .ok _ q => op.Suits p ∧ q.length = op.entry.outputs ∧ op.entry.result.Announces p q
  | .error e q => q <:+ p ∧ (op.Suits p ∧ e.OfResult ∨ ¬ op.Suits p ∧ e.OfType)

/-- The operators of fixed counts that need room for one more value. -/
def growing : List Operator := [.dup, .pushTrue, .pushFalse]

/-- What `op` does to a stack with the operands `p` on top is decided by them, but for want of
room. -/
def Settled (op : Operator) (p : List Value) (r : EStateM.Result Error (List Value) Unit) : Prop :=
  ∀ s b, s.values = p ++ b → 1 ≤ s.limit → s.live ≤ s.limit →
    op.act s = if op ∈ growing ∧ s.live = s.limit then .error (.stackOverflow s.limit) s
      else s.framed b r

/-- Where a value has gone, there is room for another. -/
theorem live_lt_of_taken {s : Stack} {b : List Value} (hs : s.values = p ++ b) (hp : p ≠ [])
    (hlimit : 1 ≤ s.limit) (hlive : s.live ≤ s.limit) : (s.holding b).live < s.limit := by
  have hpos := List.length_pos_iff.2 hp
  rw [live_eq, hs, List.length_append] at hlive
  rw [live_eq, values_holding, deferred_holding]
  omega

section calculations

variable {op : Operator} (hop : op.category.calculates = true)

include hop

theorem fixed_of_calculates : op.entry.outputs = 1 ∧ op ∉ growing ∧ op.runsBody = false := by
  revert hop
  cases op <;> decide

theorem act_of_calculates (hp : p.length = op.inputs) {s : Stack} {b : List Value}
    (hs : s.values = p ++ b) : op.act s = (op.calculation >>= push) s := by
  rw [act_of_enough (enough_of_length hp hs), execute_eq_calculation hop]

/-- The result has the room that its operands leave. -/
theorem settled_of_ok {v : Value} (hx : Framed op.calculation p (.ok v []))
    (hp : p.length = op.inputs) : op.Settled p (.ok () [v]) := by
  have hne : p ≠ [] := by
    rw [← List.length_pos_iff, hp]
    exact inputs_pos_of_calculates hop
  intro s b hs hlimit hlive
  have hroom := live_lt_of_taken hs hne hlimit hlive
  rw [act_of_calculates hop hp hs, if_neg (fun h => (fixed_of_calculates hop).2.1 h.1),
    bind_of_ok (hx s b hs)]
  exact (push_of_lt hroom).trans (congrArg _ (Stack.ext rfl rfl rfl))

theorem settled_of_error {e : Error} {q : List Value}
    (hx : Framed op.calculation p (.error e q)) (hp : p.length = op.inputs) :
    op.Settled p (.error e q) := by
  intro s b hs _ _
  rw [act_of_calculates hop hp hs, if_neg (fun h => (fixed_of_calculates hop).2.1 h.1),
    bind_of_error (hx s b hs)]
  rfl

theorem exists_of_calculates (hp : p.length = op.inputs) :
    ∃ r, op.Truthful p r ∧ op.Settled p r := by
  obtain ⟨r, hr, hfair⟩ := consumes_calculation hop hp
  cases r with
  | ok v q =>
    obtain ⟨hsuits, hkind, rfl⟩ := hfair
    have hout := (fixed_of_calculates hop).1
    exact ⟨.ok () [v], ⟨hsuits, hout.symm, hkind⟩, settled_of_ok hop hr hp⟩
  | error e q => exact ⟨.error e q, hfair, settled_of_error hop hr hp⟩

end calculations

variable {op : Operator}

/-- An operator that needs room for `v` puts it on top of its operands. -/
theorem settled_of_push {v : Value} (hgrow : op ∈ growing) (hp : p.length = op.inputs)
    (hexec : ∀ s b, s.values = p ++ b → op.execute s = push v s) :
    op.Settled p (.ok () (v :: p)) := by
  intro s b hs _ hlive
  rw [act_of_enough (enough_of_length hp hs), hexec s b hs]
  by_cases hfull : s.live = s.limit
  · rw [if_pos ⟨hgrow, hfull⟩, push, if_pos (Nat.le_of_eq hfull.symm)]
  · rw [if_neg (fun h => hfull h.2), push_of_lt (by omega)]
    exact congrArg _ (Stack.ext (by rw [values_cons, hs]; rfl) rfl rfl)

theorem exists_of_stackManipulation (hop : op.category = .stackManipulation)
    (hvaries : op.entry.varies = false) (hp : p.length = op.inputs) :
    ∃ r, op.Truthful p r ∧ op.Settled p r := by
  cases op with
  | dup =>
    obtain ⟨v, rfl⟩ := List.length_eq_one_iff.1 hp
    refine ⟨.ok () [v, v], ⟨trivial, rfl, fun w hw => ?_⟩, settled_of_push (by decide) hp ?_⟩
    · simpa using hw
    · intro s b hs
      change duplicate _ 1 s = _
      have hle : 1 ≤ s.values.length := by
        rw [hs]
        simp
      rw [duplicate_eq_look, bind_of_ok (look_of_le hle), hs]
      exact congrFun (bind_pure_unit (x := push v)) s
  | pop =>
    obtain ⟨v, rfl⟩ := List.length_eq_one_iff.1 hp
    refine ⟨.ok () [], ⟨trivial, rfl, by simp [Result.Announces, entry]⟩, fun s b hs _ _ => ?_⟩
    rw [act_of_enough (enough_of_length hp hs), if_neg (fun h => absurd h.1 (by decide))]
    exact map_eq_ok.2 ⟨v, pop_of_cons hs, rfl⟩
  | exch =>
    obtain ⟨w, v, rfl⟩ := List.length_eq_two.1 hp
    refine ⟨.ok () [v, w], ⟨trivial, rfl, fun u hu => ?_⟩, fun s b hs _ _ => ?_⟩
    · simp only [List.mem_cons, List.not_mem_nil, or_false] at hu ⊢
      exact hu.symm
    · have hle : 2 ≤ s.values.length := enough_of_length hp hs
      rw [act_of_enough (show exch.inputs ≤ _ from hle), if_neg (fun h => absurd h.1 (by decide))]
      refine (rearrange_of_le _ (fun _ => List.length_reverse) hle).trans ?_
      rw [hs]
      rfl
  | copy | index | roll => simp [entry] at hvaries
  | _ => simp [category, entry] at hop

theorem exists_of_control (hop : op.category = .control) (hvaries : op.entry.varies = false)
    (hp : p.length = op.inputs) : ∃ r, op.Truthful p r ∧ op.Settled p r := by
  cases op with
  | pushTrue | pushFalse =>
    obtain rfl := List.length_eq_zero_iff.1 hp
    refine ⟨.ok () [.bool _], ⟨trivial, rfl, ?_⟩, settled_of_push (by decide) hp fun _ _ _ => rfl⟩
    exact fun v hv => List.mem_singleton.1 hv ▸ rfl
  | runIf | runIfElse => simp [entry] at hvaries
  | _ => simp [category, entry] at hop

theorem exists_outcome (hvaries : op.entry.varies = false) (hp : p.length = op.inputs) :
    ∃ r, op.Truthful p r ∧ op.Settled p r := by
  cases hop : op.category with
  | arithmetic | comparison | boolean => exact exists_of_calculates (by rw [hop]; rfl) hp
  | stackManipulation => exact exists_of_stackManipulation hop hvaries hp
  | control => exact exists_of_control hop hvaries hp

theorem runsBody_of_fixed (hvaries : op.entry.varies = false) : op.runsBody = false := by
  revert hvaries
  cases op <;> decide

end Operator

namespace Machine

open Operator

variable {op : Operator}

/-- Where no call is open, an operator that opens none is run to its end at once. -/
theorem perform_eq_operate (hop : op.runsBody = false) {m : Machine} (hc : m.calls = [])
    (l : Limits) : perform l op m = operate op m := by
  rw [perform, complete, operate_eq_act hop]
  cases h : op.act m.stack with
  | ok a t =>
    have hm : onStack op.act { m with log := m.logged op } =
        .ok a { m with stack := t, log := m.logged op } := onStack_of_ok h
    rw [hm]
    simp only [settle_of_nil (l := l) (m := { m with stack := t, log := m.logged op }) hc]
  | error e t =>
    have hm : onStack op.act { m with log := m.logged op } =
        .error e { m with stack := t, log := m.logged op } := onStack_of_error h
    rw [hm]
    simp only [unwind, hc, List.getLast?_nil]

/-- The operator table is right about the operators of fixed counts. On a stack with the operands
`p` on top there is one outcome `r`, as the table says, whatever lies below, and nothing below is
touched. Only `dup`, `true` and `false` may be short of room, and that on a full stack. -/
theorem operate_truthful (hvaries : op.entry.varies = false) {p : List Value}
    (hp : p.length = op.inputs) :
    ∃ r, op.Truthful p r ∧ ∀ (m : Machine) (b : List Value), m.stack.values = p ++ b →
      1 ≤ m.stack.limit → m.stack.live ≤ m.stack.limit →
      operate op m =
        (if op ∈ growing ∧ m.stack.live = m.stack.limit then
          .error (.stackOverflow m.stack.limit) { m with log := m.logged op }
        else match r with
          | .ok _ q => .ok () { m with stack := m.stack.holding (q ++ b), log := m.logged op }
          | .error e q =>
            .error e { m with stack := m.stack.holding (q ++ b), log := m.logged op }) ∧
      (m.calls = [] → ∀ l, perform l op m = operate op m) := by
  have hop := runsBody_of_fixed hvaries
  obtain ⟨r, htruth, hsettled⟩ := exists_outcome hvaries hp
  refine ⟨r, htruth, fun m b hs hlimit hlive => ⟨?_, fun hc l => perform_eq_operate hop hc l⟩⟩
  have hact := hsettled m.stack b hs hlimit hlive
  rw [operate_eq_act hop, onStack, hact]
  by_cases hfull : op ∈ growing ∧ m.stack.live = m.stack.limit
  · rw [if_pos hfull, if_pos hfull]
  · rw [if_neg hfull, if_neg hfull]
    cases r <;> rfl

/-- An opening brace fills the stack, with a closing one below that does not count. The brace can
be taken off, and not doubled. -/
theorem operate_truthful_of_brace :
    let m : Machine := { stack := { values := [.opening, .closing], limit := 1, deferred := 1 } }
    operate .dup m = .error (.stackOverflow 1) { m with log := m.logged .dup } ∧
    ∃ r, Operator.pop.Truthful [.opening] r ∧
      operate .pop m = match r with
        | .ok _ q =>
          .ok () { m with stack := m.stack.holding (q ++ [.closing]), log := m.logged .pop }
        | .error e q =>
          .error e { m with stack := m.stack.holding (q ++ [.closing]), log := m.logged .pop } := by
  intro m
  have hfixed : Operator.dup.entry.varies = false ∧ Operator.pop.entry.varies = false := ⟨rfl, rfl⟩
  obtain ⟨_, -, hdup⟩ := operate_truthful hfixed.1 (p := [.opening]) rfl
  obtain ⟨r, htruth, hpop⟩ := operate_truthful hfixed.2 (p := [.opening]) rfl
  have hfull := (hdup m [.closing] rfl (by decide) (by decide)).1
  have hgone := (hpop m [.closing] rfl (by decide) (by decide)).1
  rw [if_pos (by decide)] at hfull
  rw [if_neg (by decide)] at hgone
  exact ⟨hfull, r, htruth, hgone⟩

end Machine

end PdfFunctions
