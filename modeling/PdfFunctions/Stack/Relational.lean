import PdfFunctions.Stack

namespace PdfFunctions.Relational

open StackM

/-- A number never equals a boolean; other values cannot be compared. -/
def equal : Value → Value → Except Error Bool
  | .number x, .number y => .ok (x == y)
  | .bool x, .bool y => .ok (x == y)
  | .number _, .bool _ | .bool _, .number _ => .ok false
  | a, .number _ | a, .bool _ => .error (.typeMismatch "number or boolean" a.typeName)
  | _, b => .error (.typeMismatch "number or boolean" b.typeName)

def popValues (op : String) : StackM (Value × Value) := do
  require op 2
  let b ← pop op
  let a ← pop op
  return (a, b)

def equality (op : String) (f : Bool → Bool) : StackM Value := do
  let (a, b) ← popValues op
  return .bool (f (← ofExcept (equal a b)))

def comparison (op : String) (f : Float → Float → Bool) : StackM Value := do
  let (a, b) ← popNumbers op
  return .bool (f a b)

def bitwise (f : Int64 → Int64 → Int64) (a b : Int) : Int :=
  (f (Int64.ofInt a) (Int64.ofInt b)).toInt

def logical (op : String) (f : Bool → Bool → Bool) (g : Int64 → Int64 → Int64) :
    StackM Value := do
  let (a, b) ← popValues op
  match a, b with
  | .bool x, .bool y => return .bool (f x y)
  | .number x, .number y =>
    let m ← ofExcept (Stack.integer op x)
    let n ← ofExcept (Stack.integer op y)
    return .number (Binary64.ofInt (bitwise g m n))
  | .bool _, v | .number _, v | v, _ =>
    throw (.typeMismatch "two booleans or two integers" v.typeName)

def negation (op : String) : StackM Value := do
  match ← pop op with
  | .bool b => return .bool (!b)
  | .number x => return .number (Binary64.ofInt (-(← ofExcept (Stack.integer op x)) - 1))
  | v => throw (.typeMismatch "boolean or integer" v.typeName)

/-- A shift of 32 bits, to the left if positive. Zeros come in from either side. -/
def shift (v : Int) (n : Int) : Int :=
  let bits := BitVec.ofInt 32 v
  let shifted :=
    if 32 ≤ n ∨ n ≤ -32 then 0
    else if 0 ≤ n then bits <<< n.toNat
    else bits >>> (-n).toNat
  shifted.toInt

def bitshift (op : String) : StackM Value := do
  let (v, n) ← popInts op
  if -0x80000000 ≤ v ∧ v < 0x80000000 then return .number (Binary64.ofInt (shift v n))
  else throw (.rangeCheck op (.tooWide v))

def result (op : Operator) : StackM Value :=
  let name := op.name
  match op with
  | .eq => equality name id
  | .ne => equality name (!·)
  | .gt => comparison name (· > ·)
  | .ge => comparison name (· ≥ ·)
  | .lt => comparison name (· < ·)
  | .le => comparison name (· ≤ ·)
  | .and => logical name (· && ·) (· &&& ·)
  | .or => logical name (· || ·) (· ||| ·)
  | .xor => logical name (· ^^ ·) (· ^^^ ·)
  | .not => negation name
  | .bitshift => bitshift name
  | _ => throw (.typeMismatch "relational operator" name)

def apply (op : Operator) : StackM Unit := do
  push (← result op)

end PdfFunctions.Relational
