import PdfFunctions.Stack

namespace PdfFunctions.Rearrangement

open StackM

def popCount (op : String) : StackM Nat := do
  let n ← popInt op
  if n < 0 then throw (.rangeCheck op (.negativeCount n))
  return n.toNat

def rotate (n : Nat) (vs : List Value) : List Value :=
  vs.drop n ++ vs.take n

theorem length_rotate (n : Nat) (vs : List Value) : (rotate n vs).length = vs.length := by
  simp only [rotate, List.length_append, List.length_drop, List.length_take]
  omega

def exchange (op : String) : StackM Unit :=
  rearrange op 2 List.reverse fun _ => List.length_reverse

def copy (op : String) : StackM Unit := do
  let n ← popCount op
  duplicate op n

def index (op : String) : StackM Unit := do
  let n ← popCount op
  let s ← get
  match s.peek? n with
  | some v => push v
  | none => throw (s.underflow op (n + 1))

/-- Moves the top `n` values up by `j`, the topmost coming in again from below. -/
def roll (op : String) : StackM Unit := do
  let j ← popInt op
  let n ← popCount op
  if 0 < n then
    rearrange op n (rotate (j % n).toNat) (length_rotate _)

def apply (op : Operator) : StackM Unit :=
  let name := op.name
  match op with
  | .dup => duplicate name 1
  | .pop => discard (pop name)
  | .exch => exchange name
  | .copy => copy name
  | .index => index name
  | .roll => roll name
  | _ => throw (.typeMismatch "stack operator" name)

end PdfFunctions.Rearrangement
