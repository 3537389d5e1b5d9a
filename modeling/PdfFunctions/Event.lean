import PdfFunctions.Error
import PdfFunctions.Operator

namespace PdfFunctions

inductive Event where
  | malformedToken (position : Nat) (bytes : Bytes)
  | unknownOperator (position : Nat) (name : Bytes)
  | unmatchedClosing
  | unterminated (depth : Nat)
  | execute (op : Operator) (stack : Nat)
  | cubicOrder
  | extraResults (n : Nat)
  | negativeBase (x n : Float)
  | zeroBase (n : Float)
  | loading (type : Int) (depth : Nat)
  | colorReplaced (space : String) (error : Error)
  | tintReplaced (alternate : String) (error : Error)
deriving DecidableEq

namespace Event

/-- How serious an event is, the most serious first. -/
inductive Level where
  | warn | debug | trace
deriving DecidableEq

def Level.name : Level → String
  | warn => "warn"
  | debug => "debug"
  | trace => "trace"

def Level.rank : Level → Nat
  | warn => 0
  | debug => 1
  | trace => 2

def level : Event → Level
  | malformedToken .. | unknownOperator .. | unmatchedClosing | unterminated ..
  | colorReplaced .. | tintReplaced .. => .warn
  | cubicOrder | extraResults .. | negativeBase .. | zeroBase .. | loading .. => .debug
  | execute .. => .trace

def message : Event → String
  | malformedToken .. => "skipping malformed token"
  | unknownOperator .. => "skipping unknown operator"
  | unmatchedClosing => "ignoring unmatched '\x7d'"
  | unterminated .. => "program ended inside an unterminated procedure"
  | execute .. => "execute"
  | cubicOrder => "cubic spline order evaluated with multilinear interpolation"
  | extraResults .. => "ignoring values above the declared outputs"
  | negativeBase .. => "negative input with non-integer exponent"
  | zeroBase .. => "zero input with negative exponent"
  | loading .. => "loading function"
  | colorReplaced .. => "colour function failed, using black"
  | tintReplaced .. => "tint transform failed, using black"

def fields : Event → List (String × String)
  | malformedToken position bytes => [("error", (Error.malformedToken position bytes).message)]
  | unknownOperator position name => [("pos", toString position), ("name", name.latin1)]
  | unmatchedClosing | cubicOrder => []
  | unterminated depth => [("depth", toString depth)]
  | execute op stack => [("op", op.name), ("stack", toString stack)]
  | extraResults n => [("extra", toString n)]
  | negativeBase x n => [("x", Decimal.text x), ("n", Decimal.text n)]
  | zeroBase n => [("n", Decimal.text n)]
  | loading type depth => [("function_type", toString type), ("depth", toString depth)]
  | colorReplaced space error => [("space", space), ("err", error.message)]
  | tintReplaced alternate error => [("alternate", alternate), ("err", error.message)]

end Event

/-- The events so far, the latest first. -/
abbrev Log := List Event

def Log.upTo (log : Log) (level : Event.Level) : List Event :=
  -- the earliest first
  (log.filter fun e => e.level.rank ≤ level.rank).reverse

end PdfFunctions
