import Mathlib.Tactic.Choose
import PdfFunctions.Proofs.OperatorEffects
import PdfFunctions.Stack.Body

namespace PdfFunctions

open Stack

/-- The errors that a value can cause: not those of a text or of a function around the program, and
not that bodies run without end. -/
def Error.OfValue : Error → Prop
  | stackUnderflow .. | stackOverflow _ | typeMismatch .. | undefinedResult _ | rangeCheck ..
  | bodiesTooLarge _ | nestingTooDeep _ => True
  | _ => False

theorem Error.OfType.ofValue {e : Error} (h : e.OfType) : e.OfValue := by
  cases e <;> first | exact h.elim | trivial

theorem Error.OfResult.ofValue {e : Error} (h : e.OfResult) : e.OfValue := by
  cases e <;> first | exact h.elim | trivial

theorem Error.OfValue.ne_outOfSteps {e : Error} (h : e.OfValue) : e ≠ .outOfSteps := by
  rintro rfl
  exact h

namespace StackM

def look (op : String) (n : Nat) : StackM (List Value) := do
  require op n
  return (← get).values.take n

def popMany (op : String) : Nat → StackM Unit
  | 0 => pure ()
  | n + 1 => pop op >>= fun _ => popMany op n

/-- A sequence of single operations. What comes next may depend on the values that they yield, and
on nothing else of the stack. -/
inductive Composed : {α : Type} → StackM α → Prop where
  | pure {α : Type} (a : α) : Composed (pure a)
  | throw {α : Type} {e : Error} (he : e.OfValue) : Composed (α := α) (throw e)
  | push (v : Value) : Composed (push v)
  | pop (op : String) : Composed (pop op)
  | look (op : String) (n : Nat) : Composed (look op n)
  | rearrange (op : String) (n : Nat) (f : List Value → List Value)
      (hf : ∀ vs, (f vs).length = vs.length) : Composed (rearrange op n f hf)
  | lift (op : String) : Composed (Body.pop op)
  | bind {α β : Type} {x : StackM α} {f : α → StackM β} (hx : Composed x)
      (hf : ∀ a, Composed (f a)) : Composed (x >>= f)

theorem look_of_le {op : String} {n : Nat} {s : Stack} (h : n ≤ s.values.length) :
    look op n s = .ok (s.values.take n) s := (bind_of_ok (require_of_le h)).trans rfl

theorem rearrange_of_le (op : String) {n : Nat} {f : List Value → List Value}
    (hf : ∀ vs, (f vs).length = vs.length) {s : Stack} (h : n ≤ s.values.length) :
    rearrange op n f hf s = .ok () (s.holding (f (s.values.take n) ++ s.values.drop n)) := by
  refine (bind_of_ok (require_of_le h)).trans ?_
  exact congrArg (EStateM.Result.ok ()) (Stack.ext rfl rfl rfl)

theorem look_of_lt {op : String} {n : Nat} {s : Stack} (h : s.values.length < n) :
    look op n s = .error (s.underflow op n) s := bind_of_error (require_of_lt h)

theorem popMany_of_append (op : String) {p b : List Value} {s : Stack} (hs : s.values = p ++ b) :
    popMany op p.length s = .ok () (s.holding b) := by
  induction p generalizing s with
  | nil => exact congrArg (EStateM.Result.ok ()) (Stack.ext hs rfl rfl)
  | cons v p ih => exact (bind_of_ok (pop_of_cons hs)).trans (ih rfl)

theorem require_eq_look (op : String) (n : Nat) :
    require op n = look op n >>= fun _ => pure () := by
  funext s
  by_cases h : n ≤ s.values.length
  · rw [bind_of_ok (look_of_le h), require_of_le h, pure_apply]
  · have h := Nat.lt_of_not_le h
    rw [bind_of_error (look_of_lt h), require_of_lt h]

theorem duplicate_eq_look (op : String) (n : Nat) :
    duplicate op n = look op n >>= fun vs => pushAll vs.reverse := by
  funext s
  rw [duplicate]
  by_cases h : n ≤ s.values.length
  · rw [bind_of_ok (look_of_le h), bind_of_ok (require_of_le h), get_bind]
  · have h := Nat.lt_of_not_le h
    rw [bind_of_error (look_of_lt h), bind_of_error (require_of_lt h)]

theorem ofValue_of_getNumber {v : Value} {e : Error} (h : v.getNumber = .error e) :
    e.OfValue := by
  cases v <;> cases h <;> trivial

theorem ofValue_of_getBool {v : Value} {e : Error} (h : v.getBool = .error e) : e.OfValue := by
  cases v <;> cases h <;> trivial

namespace Composed

variable {α β : Type}

theorem map {x : StackM α} (f : α → β) (hx : Composed x) : Composed (f <$> x) := by
  rw [map_eq_pure_bind]
  exact hx.bind fun a => .pure (f a)

theorem ofExcept {x : Except Error α} (hx : ∀ {e}, x = .error e → e.OfValue) :
    Composed (ofExcept x) := by
  cases x with
  | ok a => exact .pure a
  | error e => exact .throw (hx rfl)

theorem require (op : String) (n : Nat) : Composed (require op n) :=
  require_eq_look op n ▸ (look op n).bind fun _ => .pure ()

theorem pushAll (vs : List Value) : Composed (pushAll vs) := by
  induction vs with
  | nil => exact .pure ()
  | cons v vs ih => exact (push v).bind fun _ => ih

theorem duplicate (op : String) (n : Nat) : Composed (duplicate op n) :=
  duplicate_eq_look op n ▸ (look op n).bind fun vs => pushAll vs.reverse

variable (op : String)

theorem popNumber : Composed (popNumber op) :=
  (pop op).bind fun _ => ofExcept ofValue_of_getNumber

theorem popBool : Composed (popBool op) :=
  (pop op).bind fun _ => ofExcept ofValue_of_getBool

theorem popInt : Composed (popInt op) :=
  (popNumber op).bind fun _ => ofExcept fun he => rangeCheck_of_integer he ▸ trivial

theorem popMany (n : Nat) : Composed (popMany op n) := by
  induction n with
  | zero => exact .pure ()
  | succ n ih => exact (pop op).bind fun _ => ih

end Composed

end StackM

open StackM

section consumes

variable {α : Type} {x : StackM α} {p : List Value}

/-- Above any values, what uses up its operands does what some sequence of single operations does:
it takes off as many of them as it uses, and then comes to its end. -/
theorem Consumes.exists_composed {suits : Prop} {good : α → Prop}
    (hx : Consumes x p suits good) :
    ∃ y, Composed y ∧ ∀ s b, s.values = p ++ b → x s = y s := by
  obtain ⟨r, hr, hfair⟩ := hx
  -- the outcome is the same for every stack with these operands, so popping them unseen will do
  cases r with
  | ok a q =>
    obtain ⟨-, -, rfl⟩ := hfair
    refine ⟨popMany "" p.length >>= fun _ => pure a, (Composed.popMany _ _).bind fun _ => .pure a,
      fun s b hs => ?_⟩
    rw [hr s b hs, bind_of_ok (popMany_of_append _ hs), pure_apply]
    rfl
  | error e q =>
    obtain ⟨⟨p', rfl⟩, hcause⟩ := hfair
    have he : e.OfValue := hcause.elim (·.2.ofValue) (·.2.ofValue)
    refine ⟨popMany "" p'.length >>= fun _ => throw e,
      (Composed.popMany _ _).bind fun _ => .throw he, fun s b hs => ?_⟩
    have htaken := popMany_of_append "" (hs.trans (List.append_assoc p' q b))
    rw [hr s b hs, bind_of_ok htaken, throw_apply]
    rfl

theorem composed_of_consumes {n : Nat} {suits : List Value → Prop} {good : List Value → α → Prop}
    (op : String) (hx : ∀ p, p.length = n → Consumes x p (suits p) (good p)) :
    Composed (require op n >>= fun _ => x) := by
  have hy (p : List Value) : ∃ y, Composed y ∧
      (p.length = n → ∀ s b, s.values = p ++ b → x s = y s) := by
    by_cases hp : p.length = n
    · obtain ⟨y, hy, hxy⟩ := (hx p hp).exists_composed
      exact ⟨y, hy, fun _ => hxy⟩
    · -- other numbers of operands do not occur, and any operation will do for them
      refine ⟨throw (.stackUnderflow op n p.length), .throw ?_, fun h => absurd h hp⟩
      trivial
  choose y hy hxy using hy
  have h : (require op n >>= fun _ => x) = look op n >>= y := by
    funext s
    by_cases hn : n ≤ s.values.length
    · rw [bind_of_ok (require_of_le hn), bind_of_ok (look_of_le hn)]
      exact hxy _ (List.length_take_of_le hn) s _ (List.take_append_drop n s.values).symm
    · have hn := Nat.lt_of_not_le hn
      rw [bind_of_error (require_of_lt hn), bind_of_error (look_of_lt hn)]
  rw [h]
  exact (Composed.look op n).bind hy

end consumes

namespace Rearrangement

theorem composed_popCount (op : String) : Composed (popCount op) := by
  refine (Composed.popInt op).bind fun n => ?_
  split
  · refine Composed.bind (.throw ?_) fun _ => .pure _
    trivial
  · exact .pure _

/-- The value that `index` looks for is the lowest of those on top. -/
theorem index_eq_look (op : String) :
    index op = popCount op >>= fun n => look op (n + 1) >>= fun vs =>
      (vs[n]?).elim (throw (.stackUnderflow op 0 0)) push := by
  refine congrArg (popCount op >>= ·) (funext fun n => funext fun s => ?_)
  rw [get_bind]
  by_cases h : n < s.values.length
  · rw [bind_of_ok (look_of_le h), peek?, List.getElem?_take_of_lt (Nat.lt_succ_self n),
      List.getElem?_eq_getElem h]
    rfl
  · have hn : s.values[n]? = none := List.getElem?_eq_none (Nat.le_of_not_lt h)
    rw [bind_of_error (look_of_lt (by omega)), peek?, hn]
    rfl

theorem composed_index (op : String) : Composed (index op) := by
  rw [index_eq_look]
  refine (composed_popCount op).bind fun n => (Composed.look op (n + 1)).bind fun vs => ?_
  cases vs[n]? with
  | some v => exact .push v
  | none => exact .throw trivial

theorem composed_roll (op : String) : Composed (roll op) := by
  refine (Composed.popInt op).bind fun j => (composed_popCount op).bind fun n => ?_
  split
  · exact .rearrange _ _ _ _
  · exact .pure _

theorem composed_apply (op : Operator) : Composed (apply op) := by
  cases op with
  | dup => exact .duplicate _ _
  | pop => exact (Composed.pop _).map _
  | exch => exact .rearrange _ 2 List.reverse fun _ => List.length_reverse
  | copy => exact (composed_popCount _).bind fun _ => .duplicate _ _
  | index => exact composed_index _
  | roll => exact composed_roll _
  | _ => exact .throw trivial

end Rearrangement

namespace Operator

theorem category_of_runsBody {op : Operator} (h : op.runsBody = true) :
    op.category = .control := by
  cases op with
  | runIf | runIfElse => rfl
  | _ => exact absurd h (by decide)

theorem composed_pushConstant (op : Operator) : Composed op.pushConstant := by
  unfold pushConstant
  split
  · exact .push _
  · exact .push _
  · exact .throw trivial

theorem composed_act (op : Operator) : Composed op.act := by
  have hrequire := Composed.require op.name op.inputs
  cases hc : op.category with
  | arithmetic | comparison | boolean =>
    have hop : op.category.calculates = true := by rw [hc]; rfl
    have hx := composed_of_consumes op.name fun p => consumes_calculation (p := p) hop
    rw [act, execute_eq_calculation hop, ← bind_assoc]
    exact hx.bind fun v => .push v
  | stackManipulation =>
    rw [act, execute, hc]
    exact hrequire.bind fun _ => Rearrangement.composed_apply op
  | control =>
    rw [act, execute, hc]
    exact hrequire.bind fun _ => composed_pushConstant op

end Operator

end PdfFunctions
