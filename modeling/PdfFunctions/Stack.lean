import PdfFunctions.Binary64
import PdfFunctions.Value

namespace PdfFunctions

structure Stack where
  -- the top first
  values : List Value := []
  size : Nat := values.length
  limit : Nat
  -- values of pending bodies: the limit counts only the others
  deferred : Nat := 0
  size_eq : size = values.length := by rfl
deriving DecidableEq

/-- An operation on the stack, which leaves a stack also where it fails. -/
abbrev StackM := EStateM Error Stack

namespace Stack

/-- The integer part of an operand, which has to fit 64 bits. -/
def integer (op : String) (x : Float) : Except Error Int :=
  match Binary64.toInt? x with
  | some n =>
    if -0x8000000000000000 ≤ n ∧ n < 0x8000000000000000 then .ok n
    else .error (.rangeCheck op (.notAnInteger x))
  | none => .error (.rangeCheck op (.notAnInteger x))

def isEmpty (s : Stack) : Bool := s.values.isEmpty

def live (s : Stack) : Nat := s.size - s.deferred

def contents (s : Stack) : List Value := s.values.reverse

def peek? (s : Stack) (n : Nat) : Option Value := s.values[n]?

def text (s : Stack) : String :=
  "[" ++ " ".intercalate (s.contents.map Value.text) ++ "]"

def cleared (s : Stack) : Stack := { limit := s.limit }

def cons (s : Stack) (v : Value) : Stack where
  values := v :: s.values
  size := s.size + 1
  limit := s.limit
  deferred := s.deferred
  size_eq := by simp [s.size_eq]

def underflow (s : Stack) (op : String) (needed : Nat) : Error :=
  .stackUnderflow op needed s.size

end Stack

namespace StackM

open Stack

def push (v : Value) : StackM Unit := fun s =>
  if s.limit ≤ s.live then .error (.stackOverflow s.limit) s else .ok () (s.cons v)

/-- Pushes a value of a pending body. -/
def defer (v : Value) (most : Nat) : StackM Unit := fun s =>
  if most ≤ s.deferred then .error (.bodiesTooLarge most) s
  else .ok () { s.cons v with deferred := s.deferred + 1 }

def pushAll : List Value → StackM Unit
  | [] => pure ()
  | v :: vs => do
    push v
    pushAll vs

def release (n : Nat) : StackM Unit := modify fun s => { s with deferred := s.deferred - n }

def require (op : String) (needed : Nat) : StackM Unit := fun s =>
  if s.size < needed then .error (s.underflow op needed) s else .ok () s

def pop (op : String) : StackM Value := fun s =>
  match h : s.values with
  | [] => .error (s.underflow op 1) s
  | v :: vs => .ok v { s with values := vs, size := s.size - 1, size_eq := by simp [s.size_eq, h] }

def popNumber (op : String) : StackM Float := do
  ofExcept (← pop op).getNumber

def popBool (op : String) : StackM Bool := do
  ofExcept (← pop op).getBool

def popInt (op : String) : StackM Int := do
  ofExcept (integer op (← popNumber op))

/-- Two operands, the lower one first. -/
def popNumbers (op : String) : StackM (Float × Float) := do
  require op 2
  let b ← popNumber op
  let a ← popNumber op
  return (a, b)

def popInts (op : String) : StackM (Int × Int) := do
  let (a, b) ← popNumbers op
  let m ← ofExcept (integer op a)
  let n ← ofExcept (integer op b)
  return (m, n)

/-- Pushes the top `n` values once more, the lowest first. -/
def duplicate (op : String) (n : Nat) : StackM Unit := do
  require op n
  pushAll ((← get).values.take n).reverse

def rearrange (op : String) (n : Nat) (f : List Value → List Value)
    (h : ∀ vs, (f vs).length = vs.length) : StackM Unit := do
  require op n
  modify fun s =>
    { s with
      values := f (s.values.take n) ++ s.values.drop n
      size_eq := by
        rw [List.length_append, h, ← List.length_append, List.take_append_drop, s.size_eq] }

end StackM

namespace Stack

def ofValues (limit : Nat) (vs : List Value) : Except Error Stack :=
  match StackM.pushAll vs { limit } with
  | .ok _ s => .ok s
  | .error e _ => .error e

def ofNumbers (limit : Nat) (xs : List Float) : Except Error Stack :=
  ofValues limit (xs.map .number)

end Stack

end PdfFunctions
