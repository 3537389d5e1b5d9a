import PdfFunctions.Event
import PdfFunctions.Interval

namespace PdfFunctions

structure Exponential where
  domain : Option (Interval Float) := none
  range : Option (Intervals Float) := none
  -- the values `c0` and `c1` of each output
  terms : List (Float × Float)
  exponent : Float
deriving DecidableEq

namespace Exponential

/-- Without coefficients there is one output, from 0 to 1. -/
def make (c0 c1 : Option (List Float)) (exponent : Float) : Except Error Exponential := do
  let c0 := c0.getD [0]
  let c1 := c1.getD [1]
  if c0.length ≠ c1.length then throw (.malformed (.coefficientCounts c0.length c1.length))
  if !exponent.isFinite then throw (.malformed (.exponent exponent))
  return { terms := c0.zip c1, exponent }

def remark? (x n : Float) : Option Event :=
  if x < 0 && !Binary64.isIntegral n then some (.negativeBase x n)
  else if x == 0 && n < 0 then some (.zeroBase n)
  else none

def term (p : Float) (c : Float × Float) : Float := c.1 + p * (c.2 - c.1)

def evaluate (f : Exponential) (xs : List Float) : EStateM Error Log (List Float) := do
  match xs with
  | [x] =>
    let x := f.domain.elim x (·.clip x)
    modify ((remark? x f.exponent).toList ++ ·)
    let ys := f.terms.map (term (Float.pow x f.exponent))
    return f.range.elim ys (·.clip ys)
  | _ => throw (.inputCount 1 xs.length)

end Exponential

end PdfFunctions
