import PdfFunctions.Decimal.Style
import PdfFunctions.Bytes

namespace PdfFunctions

inductive RangeFault where
  | notAnInteger (x : Float)
  | tooWide (n : Int)
  | negativeCount (n : Int)
  | negativeRoot (x : Float)
  | logarithm (x : Float)
deriving DecidableEq

def RangeFault.message : RangeFault → String
  | notAnInteger x => Decimal.text x ++ " is not representable as an integer"
  | tooWide n => s!"{n} does not fit in 32 bits"
  | negativeCount n => s!"negative count {n}"
  | negativeRoot x => "square root of " ++ Decimal.text x
  | logarithm x => "logarithm of " ++ Decimal.text x

inductive BoundFault (α : Type) where
  | decreasing (bound previous : α)
  | pastEnd (bound last : α)
deriving DecidableEq

/-- What makes a function definition unusable. -/
inductive Defect where
  | emptyInterval (lo hi : Float)
  | oddCount (n : Nat)
  | tableWithoutIntervals
  | tooManyInputs (n limit : Nat)
  | sizeCount (sizes inputs : Nat)
  | zeroSize
  | bitsPerSample (n : Int)
  | tableTooLarge
  | tableTooShort (bytes needed : Nat)
  | encodeInputs (pairs inputs : Nat)
  | decodeOutputs (pairs outputs : Nat)
  | order (n : Nat)
  | coefficientCounts (c0 c1 : Nat)
  | exponent (n : Float)
  | noPieces
  | boundCount (bounds pieces : Nat)
  | bound (fault : BoundFault Float)
  | encodePieces (pairs pieces : Nat)
  | pieceInputs
  | pieceOutputs
  | programWithoutRange
  | tooFewResults (left declared : Nat)
  | tooDeep
  | tableNotStream
  | programNotStream
  | sizeEntry (n : Int)
  | domainIntervals (n : Nat)
  | componentCount (n : Nat)
  | componentResults (n : Nat)
  | spaceComponents (n : Nat) (space : String) (takes : Nat)
deriving DecidableEq

def BoundFault.message : BoundFault Float → String
  | decreasing b previous =>
    "Bounds must increase within the domain, got " ++ Decimal.text b ++ " after " ++
      Decimal.text previous
  | pastEnd b last =>
    "bound " ++ Decimal.text b ++ " lies past the domain end " ++ Decimal.text last

def Defect.message : Defect → String
  | emptyInterval lo hi => "invalid interval [" ++ Decimal.text lo ++ " " ++ Decimal.text hi ++ "]"
  | oddCount n => s!"expected pairs, got {n} value(s)"
  | tableWithoutIntervals => "Type 0 function requires Domain and Range"
  | tooManyInputs n limit => s!"{n} inputs exceeds the supported {limit}"
  | sizeCount sizes inputs => s!"Size has {sizes} entries for {inputs} input(s)"
  | zeroSize => "Size entries must be positive"
  | bitsPerSample n => s!"unsupported BitsPerSample {n}"
  | tableTooLarge => "sample table too large"
  | tableTooShort bytes needed => s!"sample data has {bytes} byte(s), table needs {needed}"
  | encodeInputs pairs inputs => s!"Encode has {pairs} pair(s) for {inputs} input(s)"
  | decodeOutputs pairs outputs => s!"Decode has {pairs} pair(s) for {outputs} output(s)"
  | order n => s!"unsupported Order {n}"
  | coefficientCounts c0 c1 => s!"C0 has {c0} value(s) but C1 has {c1}"
  | exponent n => "invalid exponent " ++ Decimal.text n
  | noPieces => "Type 3 function has no sub-functions"
  | boundCount bounds pieces => s!"Bounds has {bounds} value(s) for {pieces} function(s)"
  | bound fault => fault.message
  | encodePieces pairs pieces => s!"Encode has {pairs} pair(s) for {pieces} function(s)"
  | pieceInputs => "stitched functions must take one input"
  | pieceOutputs => "stitched functions disagree on output count"
  | programWithoutRange => "Type 4 function requires a Range"
  | tooFewResults left declared =>
    s!"program left {left} value(s) on the stack, {declared} output(s) declared"
  | tooDeep => "function tree nested too deeply"
  | tableNotStream => "Type 0 function must be a stream"
  | programNotStream => "Type 4 function must be a stream"
  | sizeEntry n => s!"invalid Size entry {n}"
  | domainIntervals n => s!"expected a one-input Domain, got {n} interval(s)"
  | componentCount n => s!"{n} colour component(s) fit no device space"
  | componentResults n => s!"per-component colour function returned {n} values"
  | spaceComponents n space takes => s!"{n} component(s) for {space} which takes {takes}"

inductive Error where
  | malformedToken (position : Nat) (bytes : Bytes)
  | unknownOperator (position : Nat) (name : Bytes)
  | stackUnderflow (operator : String) (needed available : Nat)
  | stackOverflow (limit : Nat)
  | typeMismatch (expected got : String)
  | undefinedResult (operator : String)
  | rangeCheck (operator : String) (fault : RangeFault)
  | bodiesTooLarge (limit : Nat)
  | nestingTooDeep (limit : Nat)
  -- no number of steps brings the bodies that run to an end
  | outOfSteps
  | inputCount (expected got : Nat)
  | malformed (defect : Defect)
  | missingKey (key : String)
  | unsupportedType (type : Int)
  | unreadable (reason : String)
deriving DecidableEq

def Error.message : Error → String
  | malformedToken position bytes =>
    s!"invalid token at position {position}: invalid number: {bytes.latin1}"
  | unknownOperator position name =>
    s!"unknown operator at position {position}: {name.latin1}"
  | stackUnderflow operator needed available =>
    s!"stack underflow in {operator}: needs {needed} operand(s), {available} available"
  | stackOverflow limit => s!"operand stack overflow (limit {limit})"
  | typeMismatch expected got => s!"type error: expected {expected}, got {got}"
  | undefinedResult operator => s!"undefined result in {operator}"
  | rangeCheck operator fault => s!"range check in {operator}: {fault.message}"
  | bodiesTooLarge limit => s!"pending procedure bodies exceed {limit} values"
  | nestingTooDeep limit => s!"procedure nesting deeper than {limit}"
  | outOfSteps => "procedure bodies run without end"
  | inputCount expected got => s!"function expects {expected} input(s), got {got}"
  | malformed defect => s!"malformed function: {defect.message}"
  | missingKey key => s!"key not found: {key}"
  | unsupportedType type => s!"unsupported function type: {type}"
  | unreadable reason => s!"io error: {reason}"

end PdfFunctions
