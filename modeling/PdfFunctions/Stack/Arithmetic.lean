import PdfFunctions.Stack

namespace PdfFunctions.Arithmetic

open StackM

def degree : Float := 0.017453292519943295

def radian : Float := 57.29577951308232

/-- The nearest integer, the greater of two equally near. -/
def nearestInteger (x : Float) : Float :=
  let f := Binary64.floor x
  if x - f ≥ 0.5 then f + 1 else f

/-- The angle of the point `(den, num)`, from 0 up to 360 degrees. -/
def angle? (num den : Float) : Option Float :=
  if num == 0 && den == 0 then none
  else
    let a := Float.atan2 num den * radian
    let a := if a < 0 then a + 360 else a
    let a := if a ≥ 360 then a - 360 else a
    some (a + 0)

/-- The quotient toward zero, which has to fit 64 bits. -/
def quotient? (a b : Int) : Option Int :=
  if b = 0 then none
  else
    let q := a.tdiv b
    if q < 0x8000000000000000 then some q else none

def remainder? (a b : Int) : Option Int :=
  -- undefined where the quotient is, with the sign of the dividend
  (quotient? a b).map fun _ => a.tmod b

def power? (base exponent : Float) : Option Float :=
  if base < 0 && !Binary64.isIntegral exponent then none
  else
    let y := Float.pow base exponent
    if y.isFinite then some y else none

def defined {α : Type} (op : String) (x : Option α) : StackM α :=
  ofExcept (x.elim (.error (.undefinedResult op)) .ok)

def logarithm (op : String) (f : Float → Float) : StackM Float := do
  let x ← popNumber op
  if x ≤ 0 then throw (.rangeCheck op (.logarithm x))
  return f x

def unary (op : String) (f : Float → Float) : StackM Float :=
  f <$> popNumber op

def binary (op : String) (f : Float → Float → Float) : StackM Float := do
  let (a, b) ← popNumbers op
  return f a b

def result (op : Operator) : StackM Float :=
  let name := op.name
  match op with
  | .add => binary name (· + ·)
  | .sub => binary name (· - ·)
  | .mul => binary name (· * ·)
  | .div => do
    let (a, b) ← popNumbers name
    if b == 0 then throw (.undefinedResult name)
    return a / b
  | .idiv => do
    let (a, b) ← popInts name
    Binary64.ofInt <$> defined name (quotient? a b)
  | .mod => do
    let (a, b) ← popInts name
    Binary64.ofInt <$> defined name (remainder? a b)
  | .neg => unary name (- ·)
  | .abs => unary name Float.abs
  | .ceiling => unary name Binary64.ceiling
  | .floor => unary name Binary64.floor
  | .round => unary name nearestInteger
  | .truncate => unary name Binary64.truncate
  | .sqrt => do
    let x ← popNumber name
    if x < 0 then throw (.rangeCheck name (.negativeRoot x))
    return x.sqrt
  | .sin => unary name fun x => Float.sin (x * degree)
  | .cos => unary name fun x => Float.cos (x * degree)
  | .atan => do
    let (num, den) ← popNumbers name
    defined name (angle? num den)
  | .exp => do
    let (base, exponent) ← popNumbers name
    defined name (power? base exponent)
  | .ln => logarithm name Float.log
  | .log => logarithm name Float.log10
  | .cvi => Binary64.ofInt <$> popInt name
  | .cvr => popNumber name
  | _ => throw (.typeMismatch "arithmetic operator" name)

def apply (op : Operator) : StackM Unit := do
  push (.number (← result op))

end PdfFunctions.Arithmetic
