import PdfFunctions.Interval
import PdfFunctions.Machine

namespace PdfFunctions

structure Calculator where
  program : Bytes
  domain : Option (Intervals Float) := none
  range : Intervals Float
  limits : Limits := {}
deriving DecidableEq

namespace Calculator

def make (program : Bytes) (range : Intervals Float) : Except Error Calculator :=
  if range.isEmpty then .error (.malformed .programWithoutRange) else .ok { program, range }

def run (f : Calculator) (xs : List Float) : EStateM Error Log Stack := do
  let xs ← ofExcept (f.domain.elim (.ok xs) (·.fit xs))
  let s ← ofExcept (Stack.ofNumbers f.limits.maxStack xs)
  evaluateText f.limits f.program s

/-- The outputs in a stack; values above them are ignored. -/
def outputs (f : Calculator) (s : Stack) : EStateM Error Log (List Float) := do
  let n := f.range.length
  if s.size < n then throw (.malformed (.tooFewResults s.size n))
  if n < s.size then modify (.extraResults (s.size - n) :: ·)
  let ys ← ofExcept ((s.contents.take n).mapM Value.getNumber)
  return f.range.clip ys

def evaluate (f : Calculator) (xs : List Float) : EStateM Error Log (List Float) := do
  f.outputs (← f.run xs)

end Calculator

end PdfFunctions
