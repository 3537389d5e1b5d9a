import PdfFunctions.Proofs.Layout
import PdfFunctions.Proofs.OperandCount
import PdfFunctions.Proofs.OperatorTable
import PdfFunctions.Proofs.Refusals

namespace PdfFunctions

open Braces Machine StackM

def Error.Needs (n : Nat) : Error → Prop
  | stackUnderflow _ k _ => k = n
  | _ => False

namespace Error

variable {n : Nat} {e : Error}

theorem not_needs_of_ofType (h : e.OfType) : ¬ e.Needs n := by
  cases e with
  | stackUnderflow => exact absurd h id
  | _ => exact id

theorem not_needs_of_ofResult (h : e.OfResult) : ¬ e.Needs n := by
  cases e with
  | stackUnderflow => exact absurd h id
  | _ => exact id

end Error

variable {op : Operator} {m m' : Machine} {e : Error} {n : Nat}

/-- A calculation that has its operands does not ask for more of them. -/
theorem Operator.calculation_not_needs (hop : op.category.calculates = true) {p b : List Value}
    (hp : p.length = op.inputs) {s t : Stack} (hs : s.values = p ++ b)
    (h : op.execute s = .error e t) : ¬ e.Needs n := by
  obtain ⟨r, hr, hfair⟩ := consumes_calculation hop hp
  rw [execute_eq_calculation hop] at h
  have hxs := hr s b hs
  cases r with
  | ok a q =>
    rw [bind_of_ok hxs] at h
    obtain ⟨-, rfl, -⟩ := push_eq_error.1 h
    exact id
  | error e' q =>
    rw [bind_of_error hxs] at h
    cases h
    rcases hfair.2 with ⟨-, he⟩ | ⟨-, he⟩
    · exact Error.not_needs_of_ofResult he
    · exact Error.not_needs_of_ofType he

/-- A body and a condition. -/
theorem Operator.two_le_inputs (h : op.runsBody = true) : 2 ≤ op.inputs := by
  revert h
  cases op <;> decide

def AsksSingly {α : Type} (x : StackM α) : Prop :=
  ∀ ⦃s e t⦄, x s = .error e t → ∀ n, n ≠ 1 → ¬ e.Needs n

theorem asksSingly_pop (name : String) : AsksSingly (pop name) := by
  intro s e t h n hn
  cases hv : s.values with
  | nil =>
    rw [pop_of_nil hv] at h
    cases h
    exact hn.symm
  | cons v vs =>
    rw [pop_of_cons hv] at h
    cases h

theorem asksSingly_popBool (name : String) : AsksSingly (popBool name) := by
  intro s e t h n hn
  rcases bind_eq_error.1 h with h | ⟨v, t', -, h⟩
  · exact asksSingly_pop name h n hn
  · obtain ⟨hb, -⟩ := ofExcept_eq_error.1 h
    cases v <;> cases hb <;> exact id

theorem asksSingly_lift (name : String) : AsksSingly (Body.pop name) := by
  intro s e t h n hn
  rcases bind_eq_error.1 h with h | ⟨v, t', -, h⟩
  · exact asksSingly_pop name h n hn
  · cases v with
    | closing =>
      dsimp only at h
      split at h <;> cases h
      exact hn.symm
    | _ =>
      cases h
      exact id

namespace Machine

/-- Where `x` fails, it has touched nothing but the stack, and asks for a single value at most. -/
def FailsOnStack (x : MachineM Unit) : Prop :=
  ∀ ⦃m e m'⦄, x m = .error e m' → (∃ t, m' = { m with stack := t }) ∧ ∀ n, n ≠ 1 → ¬ e.Needs n

theorem failsOnStack_bind {α : Type} {x : StackM α} {f : α → MachineM Unit} (hx : AsksSingly x)
    (hf : ∀ a, FailsOnStack (f a)) : FailsOnStack (onStack x >>= f) := by
  intro m e m' h
  rcases bind_eq_error.1 h with h | ⟨a, m₁, ha, h⟩
  · obtain ⟨t, ht, rfl⟩ := onStack_eq_error.1 h
    exact ⟨⟨t, rfl⟩, hx ht⟩
  · obtain ⟨s, -, rfl⟩ := onStack_eq_ok.1 ha
    obtain ⟨⟨t, rfl⟩, hn⟩ := hf a h
    exact ⟨⟨t, rfl⟩, hn⟩

theorem failsOnStack_control (hop : op.runsBody = true) : FailsOnStack (control op) := by
  have hpop := asksSingly_lift op.name
  have hbool := asksSingly_popBool op.name
  cases op with
  | runIf =>
    apply failsOnStack_bind hpop
    intro w
    apply failsOnStack_bind hbool
    intro b m e m' h
    cases b <;> cases h
  | runIfElse =>
    apply failsOnStack_bind hpop
    intro w'
    apply failsOnStack_bind hpop
    intro w
    apply failsOnStack_bind hbool
    intro b m e m' h
    cases b <;> cases h
  | _ => exact absurd hop (by decide)

end Machine

/-- A body is more than one value, so operands and values are equally many exactly where no body
is among them. -/
theorem length_values_eq_iff {xs : List Operand} :
    (xs.flatMap Operand.values).length = xs.length ↔ ∀ w hw, Operand.body w hw ∉ xs := by
  have hlen : (xs.flatMap Operand.values).length = xs.length ↔ ∀ x ∈ xs, x.hidden = 0 := by
    rw [length_flatMap_values, Nat.add_eq_right, List.sum_eq_zero_iff, List.forall_mem_map]
  rw [hlen]
  constructor
  · intro h w hw hmem
    exact absurd (h _ hmem) (Nat.succ_ne_zero _)
  · intro h x hx
    cases x with
    | plain => rfl
    | body w hw => exact absurd hx (h w hw)

/-- One operand that is more than one value. -/
theorem exists_body_of_single {xs : List Operand} {vs : List Value}
    (hvs : vs.reverse = xs.flatMap Operand.values) (hxs : xs.length ≤ 1) (hlen : 2 ≤ vs.length) :
    ∃ b, vs = .closing :: b := by
  have hl := congrArg List.length hvs
  rw [List.length_reverse] at hl
  match xs, hxs with
  | [], _ =>
    rw [hl] at hlen
    simp at hlen
  | [.plain v hv], _ =>
    rw [hl] at hlen
    simp [Operand.values] at hlen
  | [.body w hw], _ =>
    rw [← List.reverse_reverse vs, hvs]
    exact ⟨w.reverse ++ [.opening], by simp [Operand.values, braced]⟩

theorem operandCount_of_madeUp {xs : List Operand} :
    operandCount (xs.flatMap Operand.values).reverse = xs.length := by
  induction xs using List.reverseRecOn with
  | nil => simp [operandCount]
  | append_singleton xs x ih =>
    rw [List.flatMap_append, List.reverse_append, List.length_append, List.length_singleton, ← ih]
    cases x with
    | plain v hv =>
      have hne : v ≠ .closing := by
        rintro rfl
        simp at hv
      exact operandCount_cons hne _
    | body w hw =>
      rw [← operandCount_body hw]
      simp [Operand.values, braced]

theorem operandCount_of_contents {xs : List Operand} {s : Stack}
    (hs : s.contents = xs.flatMap Operand.values) : operandCount s.values = xs.length := by
  rw [← operandCount_of_madeUp, ← hs, Stack.contents, List.reverse_reverse]

namespace Machine

/-- What `operate` fails with where the values are too few, before anything is popped. -/
theorem operate_of_few (h : m.stack.size < op.inputs) :
    operate op m = .error (.stackUnderflow op.name op.inputs m.stack.size)
      { m with log := m.logged op } := by
  have hr : StackM.require op.name op.inputs m.stack =
      .error (m.stack.underflow op.name op.inputs) m.stack :=
    StackM.require_of_lt (m.stack.size_eq ▸ h)
  rw [operate_apply]
  exact bind_of_error (onStack_of_error (m := { m with log := m.logged op }) hr)

theorem stackManipulation_not_needs {xs : List Operand} {s t : Stack}
    (hop : op.category = .stackManipulation) (hs : s.contents = xs.flatMap Operand.values)
    (hfew : xs.length < op.inputs) (hn : op.inputs ≤ s.values.length)
    (h : Rearrangement.apply op s = .error e t) : ¬ e.Needs op.inputs := by
  have hsome : 0 < xs.length := by
    have hl := congrArg List.length hs
    rw [Stack.contents, List.length_reverse] at hl
    rw [List.length_pos_iff]
    rintro rfl
    simp only [List.flatMap_nil, List.length_nil] at hl hfew
    omega
  cases op with
  | exch =>
    have hok := rearrange_of_le Operator.exch.name (fun _ => List.length_reverse) hn
    cases hok.symm.trans h
  | roll =>
    -- there is one operand, a body, and its closing brace is no number to roll by
    obtain ⟨b, hb⟩ := exists_body_of_single hs (Nat.le_of_lt_succ hfew) hn
    have hclosing : Value.closing.typeName ≠ "number" := by decide
    have hnumber := framed_popNumber_error Operator.roll.name hclosing [] s b hb
    rw [Rearrangement.apply, Rearrangement.roll, popInt, bind_assoc,
      bind_of_error hnumber] at h
    cases h
    exact id
  | dup | pop | copy | index =>
    have hone : xs.length < 1 := hfew
    omega
  | _ => exact absurd hop (by decide)

/-- An operator that has found enough values does not then ask for as many operands. -/
theorem operate_not_needs {xs : List Operand} (hs : m.stack.contents = xs.flatMap Operand.values)
    (hfew : xs.length < op.inputs) (hn : op.inputs ≤ m.stack.values.length)
    (h : operate op m = .error e m') : ¬ e.Needs op.inputs := by
  by_cases hb : op.runsBody
  · rw [operate_of_enough (Operator.category_of_runsBody hb) hn] at h
    have htwo := Operator.two_le_inputs hb
    exact (failsOnStack_control hb h).2 op.inputs (by omega)
  · rw [Bool.not_eq_true] at hb
    rw [operate_eq_act hb] at h
    obtain ⟨t, ht, -⟩ := onStack_eq_error.1 h
    rw [Operator.act_of_enough hn] at ht
    -- the operands that the operator asks for are the values on top
    have hp : (m.stack.values.take op.inputs).length = op.inputs := List.length_take_of_le hn
    have hv := (List.take_append_drop op.inputs m.stack.values).symm
    cases hop : op.category with
    | arithmetic | comparison | boolean =>
      exact Operator.calculation_not_needs (by rw [hop]; rfl) hp hv ht
    | stackManipulation =>
      rw [Operator.execute, hop] at ht
      exact stackManipulation_not_needs hop hs hfew hn ht
    | control =>
      -- `true` and `false` ask for nothing
      cases op with
      | pushTrue | pushFalse => exact absurd hfew (Nat.not_lt_zero _)
      | runIf | runIfElse => exact absurd hb (by decide)
      | _ => exact absurd hop (by decide)

theorem calls_of_operate_error (h : operate op m = .error e m') : m'.calls = m.calls := by
  by_cases hn : m.stack.size < op.inputs
  · rw [operate_of_few hn] at h
    cases h
    rfl
  · by_cases hb : op.runsBody
    · have hn : op.inputs ≤ m.stack.values.length := m.stack.size_eq ▸ Nat.le_of_not_lt hn
      rw [operate_of_enough (Operator.category_of_runsBody hb) hn] at h
      obtain ⟨⟨t, rfl⟩, -⟩ := failsOnStack_control hb h
      rfl
    · rw [operate_eq_act (Bool.not_eq_true _ ▸ hb)] at h
      obtain ⟨t, -, rfl⟩ := onStack_eq_error.1 h
      rfl

theorem operandCount_of_lifted {w : List Value} {s t : Stack} (hw : Body.Lifted w s t) :
    operandCount s.values = operandCount t.values + 1 := by
  rw [hw.values, operandCount_body hw.balanced]

theorem operandCount_of_popBool {name : String} {b : Bool} {s t : Stack}
    (h : popBool name s = .ok b t) : 1 ≤ operandCount s.values := by
  obtain ⟨vs, hs, -⟩ := (replaced_of_popBool h).values
  rw [hs, List.singleton_append, operandCount_cons (by simp)]
  exact Nat.le_add_left 1 _

/-- An operator that runs a body and succeeds has found its operands. -/
theorem inputs_le_of_operate (hb : op.runsBody = true) (h : operate op m = .ok () m') :
    op.inputs ≤ operandCount m.stack.values := by
  rw [operate_of_enough (Operator.category_of_runsBody hb) (enough_of_operate h)] at h
  cases op with
  | runIf =>
    obtain ⟨w, s, b, t, hw, hbool⟩ := lifted_of_control_runIf h
    rw [operandCount_of_lifted hw]
    exact Nat.succ_le_succ (operandCount_of_popBool hbool)
  | runIfElse =>
    obtain ⟨w', s₁, w, s₂, b, t, hw', hw, hbool⟩ := lifted_of_control_runIfElse h
    rw [operandCount_of_lifted hw', operandCount_of_lifted hw]
    exact Nat.succ_le_succ (Nat.succ_le_succ (operandCount_of_popBool hbool))
  | _ => exact absurd hb (by decide)

/-- An operator that finds too few operands runs no body. -/
theorem perform_eq_operate_of_short {xs : List Operand}
    (hs : m.stack.contents = xs.flatMap Operand.values) (hfew : xs.length < op.inputs)
    (hc : m.calls = []) (l : Limits) : perform l op m = operate op m := by
  by_cases hb : op.runsBody
  · cases h : operate op m with
    | ok u m₁ =>
      have hle := inputs_le_of_operate hb h
      rw [operandCount_of_contents hs] at hle
      omega
    | error e m₁ =>
      have hc₁ : m₁.calls = [] := (calls_of_operate_error h).trans hc
      rw [perform, complete, h]
      simp only [unwind, hc₁, List.getLast?_nil]
  · exact perform_eq_operate (Bool.not_eq_true _ ▸ hb) hc l

/-- An operator that finds too few operands says so and leaves the stack and the depth as they
were, exactly if no body is pending. Too few values are always noticed, and counted as values. -/
theorem operate_short_iff {xs : List Operand}
    (hs : m.stack.contents = xs.flatMap Operand.values) (hfew : xs.length < op.inputs) :
    ((∃ m', operate op m = .error (.stackUnderflow op.name op.inputs xs.length) m' ∧
        m'.stack = m.stack ∧ m'.depth = m.depth) ↔ ∀ w hw, Operand.body w hw ∉ xs) ∧
    (m.stack.size < op.inputs →
      operate op m = .error (.stackUnderflow op.name op.inputs m.stack.size)
        { m with log := m.logged op }) ∧
    (m.calls = [] → ∀ l, perform l op m = operate op m) := by
  have hsize : m.stack.size = (xs.flatMap Operand.values).length := by
    rw [← hs, Stack.contents, List.length_reverse, m.stack.size_eq]
  refine ⟨?_, operate_of_few, perform_eq_operate_of_short hs hfew⟩
  rw [← length_values_eq_iff, ← hsize]
  constructor
  · rintro ⟨m', h, -, -⟩
    by_cases hn : m.stack.size < op.inputs
    · rw [operate_of_few hn] at h
      have he := (EStateM.Result.error.inj h).1
      exact (Error.stackUnderflow.inj he).2.2
    -- with raw values enough the count passes, and no later error is the underflow of the operator
    · have hn : op.inputs ≤ m.stack.values.length := m.stack.size_eq ▸ Nat.le_of_not_lt hn
      exact absurd rfl (operate_not_needs hs hfew hn h)
  · intro hcount
    have hn : m.stack.size < op.inputs := hcount ▸ hfew
    exact ⟨{ m with log := m.logged op }, hcount ▸ operate_of_few hn, rfl, rfl⟩

/-- A choice without a condition, between two numbers. -/
theorem operate_short_of_numbers :
    let m : Machine := { stack := { values := [.number 2, .number 1], limit := 5 } }
    let xs : List Operand := [.plain (.number 1) rfl, .plain (.number 2) rfl]
    m.stack.contents = xs.flatMap Operand.values ∧ xs.length < Operator.runIfElse.inputs ∧
      ∃ m', perform {} .runIfElse m = .error (.stackUnderflow "ifelse" 3 2) m' ∧
        m'.stack = m.stack ∧ m'.depth = m.depth := by
  intro m xs
  have hs : m.stack.contents = xs.flatMap Operand.values := rfl
  have hfew : xs.length < Operator.runIfElse.inputs := by decide
  obtain ⟨hshort, -, hperform⟩ := operate_short_iff hs hfew
  have hplain : ∀ w hw, Operand.body w hw ∉ xs := by simp [xs]
  obtain ⟨m', hm', hsame⟩ := hshort.2 hplain
  exact ⟨hs, hfew, m', (hperform rfl {}).trans hm', hsame⟩

/-- A body without a condition. It is lifted off before the condition is missed. -/
theorem operate_short_loses_body :
    let m : Machine :=
      { stack := { values := [.closing, .number 1, .opening], limit := 5, deferred := 2 } }
    ∃ x : Operand, m.stack.contents = [x].flatMap Operand.values ∧
      [x].length < Operator.runIf.inputs ∧
      perform {} .runIf m = .error (.stackUnderflow "if" 1 0)
        { stack := { limit := 5 }, log := [.execute .runIf 3] } := by
  intro m
  exact ⟨.body [.number 1] rfl, rfl, by decide, rfl⟩

end Machine

end PdfFunctions
