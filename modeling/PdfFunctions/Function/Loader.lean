import PdfFunctions.Function
import PdfFunctions.Object

namespace PdfFunctions.Function

open Object

def maxDepth : Nat := 16

def dictionary : Object → Except Error (Entries × Option Bytes)
  | .dict entries => .ok (entries, none)
  | .stream entries data => .ok (entries, some data)
  | o => o.wrongType "dict or stream"

def intervals? (d : Entries) (key : String) : Except Error (Option (Intervals Float)) := do
  (← d.numbers? key).mapM Intervals.ofFlat

def single : Intervals Float → Except Error (Interval Float)
  | [i] => .ok i
  | is => .error (.malformed (.domainIntervals is.length))

def sizeEntry (o : Object) : Except Error Nat := do
  let n ← o.getInt
  if n < 0 then .error (.malformed (.sizeEntry n)) else .ok n.toNat

def bitsEntry (o : Object) : Except Error Nat := do
  let n ← o.getInt
  if n < 0 ∨ 255 < n then .error (.malformed (.bitsPerSample n)) else .ok n.toNat

/-- An order; any that does not fit a byte is as bad as 0. -/
def orderEntry (o : Object) : Except Error Nat := do
  let n ← o.getInt
  return if n < 0 ∨ 255 < n then 0 else n.toNat

def loadSampled (d : Entries) (data : Option Bytes) (domain range : Option (Intervals Float)) :
    EvalM Function := do
  let some data := data | throw (.malformed .tableNotStream)
  let sizes ← ofExcept ((d.required "Size" >>= getArray) >>= List.mapM sizeEntry)
  let bits ← ofExcept (d.required "BitsPerSample" >>= bitsEntry)
  let f ← ofExcept (Sampled.make (domain.getD []) (range.getD []) sizes bits data.toArray)
  let encode ← ofExcept (d.numbers? "Encode")
  let f ← ofExcept (encode.elim (.ok f) f.withEncode)
  let decode ← ofExcept (d.numbers? "Decode")
  let f ← ofExcept (decode.elim (.ok f) f.withDecode)
  match d.get? "Order" with
  | none => return .sampled f
  | some o => .sampled <$> f.withOrder (← ofExcept (orderEntry o))

def loadExponential (d : Entries) (domain range : Option (Intervals Float)) :
    Except Error Function := do
  let n ← d.required "N" >>= getNumber
  let f ← Exponential.make (← d.numbers? "C0") (← d.numbers? "C1") n
  return .exponential { f with domain := ← domain.mapM single, range }

def loadCalculator (limits : Limits) (data : Option Bytes) (domain range : Option (Intervals Float)) :
    Except Error Function := do
  let some data := data | throw (.malformed .programNotStream)
  let some range := range | throw (.missingKey "Range")
  let f ← Calculator.make data range
  return .calculated { f with domain, limits }

/-- Loads a function in which `room` levels are left, itself included. Programs run within
`limits`. -/
def load (limits : Limits) : Nat → Object → EvalM Function
  | 0, _ => throw (.malformed .tooDeep)
  | room + 1, o => do
    let (d, data) ← ofExcept (dictionary o)
    let type ← ofExcept (d.required "FunctionType" >>= getInt)
    modify (.loading type (maxDepth - room) :: ·)
    let domain ← ofExcept (intervals? d "Domain")
    let range ← ofExcept (intervals? d "Range")
    if type = 0 then loadSampled d data domain range
    else if type = 2 then ofExcept (loadExponential d domain range)
    else if type = 3 then do
      let some domain := domain | throw (.missingKey "Domain")
      let items ← ofExcept (d.required "Functions" >>= getArray)
      let parts ← items.mapM (load limits room)
      let bounds ← ofExcept (d.required "Bounds" >>= getNumbers)
      let encode ← ofExcept (d.required "Encode" >>= getNumbers)
      ofExcept do stitch (← single domain) parts bounds encode range
    else if type = 4 then ofExcept (loadCalculator limits data domain range)
    else throw (.unsupportedType type)

def ofObject (limits : Limits) (o : Object) : EvalM Function :=
  load limits (maxDepth + 1) o

end PdfFunctions.Function
