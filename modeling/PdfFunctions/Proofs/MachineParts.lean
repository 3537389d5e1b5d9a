import PdfFunctions.Proofs.MachineSteps
import PdfFunctions.Proofs.OperatorParts

namespace PdfFunctions.Machine

open StackM

def atDepth {α : Type} (x : Nat → MachineM α) : MachineM α := get >>= fun m => x m.depth

/-- Two operations that are made alike, one under the limits `l` and the other under `l'`. What
comes next may depend on the depth and on the values that the parts yield, and on nothing else of
the machine. -/
inductive Alike (l l' : Limits) : {α : Type} → MachineM α → MachineM α → Prop where
  | pure {α : Type} (a : α) : Alike l l' (pure a) (pure a)
  | throw {α : Type} {e : Error} (he : e.OfValue) : Alike (α := α) l l' (throw e) (throw e)
  | onStack {α : Type} {x : StackM α} (hx : Composed x) : Alike l l' (onStack x) (onStack x)
  | defer (v : Value) : Alike l l' (defer l v) (defer l' v)
  | note (f : Machine → Event) : Alike l l' (modify fun m => { m with log := f m :: m.log })
      (modify fun m => { m with log := f m :: m.log })
  | setDepth (d : Nat) : Alike l l' (setDepth d) (setDepth d)
  | enter (w : List Value) : Alike l l' (enter w) (enter w)
  | nest (d : Nat) : Alike l l'
      (if l.maxNesting ≤ d then throw (.nestingTooDeep l.maxNesting) else pure ())
      (if l'.maxNesting ≤ d then throw (.nestingTooDeep l'.maxNesting) else pure ())
  | byDepth {α : Type} {x y : Nat → MachineM α} (hxy : ∀ d, Alike l l' (x d) (y d)) :
      Alike l l' (atDepth x) (atDepth y)
  | bind {α β : Type} {x y : MachineM α} {f g : α → MachineM β} (hxy : Alike l l' x y)
      (hfg : ∀ a, Alike l l' (f a) (g a)) : Alike l l' (x >>= f) (y >>= g)

variable (l l' : Limits)

theorem alike_control {op : Operator} (hop : op.runsBody = true) :
    Alike l l' (control op) (control op) := by
  have lift (name : String) : Alike l l' _ _ := .onStack (Composed.lift name)
  have condition (name : String) : Alike l l' _ _ := .onStack (Composed.popBool name)
  cases op with
  | runIf =>
    rw [control_runIf_eq]
    refine (lift _).bind fun w => (condition _).bind fun c => ?_
    cases c with
    | true => exact .enter w
    | false => exact .pure ()
  | runIfElse =>
    rw [control_runIfElse_eq]
    refine (lift _).bind fun w' => (lift _).bind fun w => (condition _).bind fun c => ?_
    cases c with
    | true => exact .enter w
    | false => exact .enter w'
  | _ => exact absurd hop (by decide)

theorem alike_operate (op : Operator) : Alike l l' (operate op) (operate op) := by
  have note : Alike l l' _ _ := .note fun m => .execute op m.stack.size
  cases hop : op.runsBody with
  | false =>
    have h : operate op = (modify fun m => { m with log := m.logged op }) >>= fun _ =>
        onStack op.act := funext (operate_eq_act hop)
    rw [h]
    exact note.bind fun _ => .onStack (Operator.composed_act op)
  | true =>
    have h : operate op = (modify fun m => { m with log := m.logged op }) >>= fun _ =>
        onStack (StackM.require op.name op.inputs) >>= fun _ => execute op :=
      funext (operate_apply op)
    rw [h, execute_of_control (Operator.category_of_runsBody hop)]
    exact note.bind fun _ => (Alike.onStack (Composed.require _ _)).bind fun _ =>
      alike_control l l' hop

theorem openBrace_eq : openBrace l = atDepth fun d =>
    (if l.maxNesting ≤ d then throw (.nestingTooDeep l.maxNesting) else pure ()) >>= fun _ =>
      setDepth (d + 1) >>= fun _ => match d with
        | 0 => pure ()
        | 1 => onStack (StackM.push .opening)
        | _ => defer l .opening := by
  funext m
  rw [openBrace_apply, atDepth, get_bind]
  by_cases hn : l.maxNesting ≤ m.depth
  · rw [if_pos hn, if_pos hn]
    rfl
  · rw [if_neg hn, if_neg hn]
    match m.depth with
    | 0 => rfl
    | 1 => rfl
    | d + 2 => rfl

theorem closeBrace_eq : closeBrace l = atDepth fun d => match d with
    | 0 => note .unmatchedClosing
    | 1 => setDepth 0
    | d + 1 => defer l .closing >>= fun _ => setDepth d := rfl

theorem accept_operator_eq (op : Operator) : accept l (.operator op) = atDepth fun d =>
    if d ≤ 1 then operate op else defer l (.operator op) := rfl

theorem accept_plain_eq {v : Value} (hv : v.Plain) : accept l v = atDepth fun d =>
    if d ≤ 1 then onStack (StackM.push v) else defer l v := by
  cases v with
  | number | bool => rfl
  | _ => simp at hv

theorem alike_openBrace : Alike l l' (openBrace l) (openBrace l') := by
  rw [openBrace_eq, openBrace_eq]
  refine .byDepth fun d => (Alike.nest d).bind fun _ => (Alike.setDepth (d + 1)).bind fun _ => ?_
  match d with
  | 0 => exact .pure ()
  | 1 => exact .onStack (.push _)
  | d + 2 => exact .defer _

theorem alike_closeBrace : Alike l l' (closeBrace l) (closeBrace l') := by
  rw [closeBrace_eq, closeBrace_eq]
  refine .byDepth fun d => ?_
  match d with
  | 0 => exact .note fun _ => .unmatchedClosing
  | 1 => exact .setDepth 0
  | d + 2 => exact (Alike.defer _).bind fun _ => .setDepth (d + 1)

/-- Whatever the value, the machine takes it in by the same parts. -/
theorem alike_accept (v : Value) : Alike l l' (accept l v) (accept l' v) := by
  by_cases hv : v.Plain
  · rw [accept_plain_eq l hv, accept_plain_eq l' hv]
    refine .byDepth fun d => ?_
    split
    · exact .onStack (.push v)
    · exact .defer v
  · cases v with
    | opening => exact alike_openBrace l l'
    | closing => exact alike_closeBrace l l'
    | operator op =>
      rw [accept_operator_eq, accept_operator_eq]
      refine .byDepth fun d => ?_
      split
      · exact alike_operate l l' op
      · exact .defer _
    | number | bool => simp at hv

end PdfFunctions.Machine
