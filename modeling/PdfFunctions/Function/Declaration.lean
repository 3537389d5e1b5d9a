import PdfFunctions.Function.Loader

namespace PdfFunctions

inductive Declaration where
  | sampled (domain range : List Float) (sizes : List Nat) (bits : Nat) (data : Bytes)
      (encode decode : Option (List Float)) (order : Option Nat)
  | exponential (exponent : Float) (c0 c1 : Option (List Float))
      (domain : Option (Float × Float)) (range : Option (List Float))
  | stitched (domain : Float × Float) (parts : List Declaration) (bounds encode : List Float)
      (range : Option (List Float))
  | calculated (program : Bytes) (range : List Float) (domain : Option (List Float))
      (limits : Option Limits)
  | object (o : Object) (limits : Option Limits)

namespace Declaration

def calculator (program : Bytes) (range : List Float) (domain : Option (List Float))
    (limits : Option Limits) : Except Error Calculator := do
  let f ← Calculator.make program (← Intervals.ofFlat range)
  return { f with domain := ← domain.mapM Intervals.ofFlat, limits := limits.getD {} }

def exponentialFunction (exponent : Float) (c0 c1 : Option (List Float))
    (domain : Option (Float × Float)) (range : Option (List Float)) :
    Except Error Exponential := do
  let f ← Exponential.make c0 c1 exponent
  let domain ← domain.mapM fun (lo, hi) => Interval.make lo hi
  return { f with domain, range := ← range.mapM Intervals.ofFlat }

def table (domain range : List Float) (sizes : List Nat) (bits : Nat) (data : Bytes)
    (encode decode : Option (List Float)) : Except Error (Sampled Float) := do
  let domain ← Intervals.ofFlat domain
  let f ← Sampled.make domain (← Intervals.ofFlat range) sizes bits data.toArray
  let f ← encode.elim (.ok f) f.withEncode
  decode.elim (.ok f) f.withDecode

mutual

def build : Declaration → EvalM Function
  | sampled domain range sizes bits data encode decode order => do
    let f ← ofExcept (table domain range sizes bits data encode decode)
    match order with
    | none => return .sampled f
    | some order => .sampled <$> f.withOrder order
  | exponential exponent c0 c1 domain range =>
    ofExcept (.exponential <$> exponentialFunction exponent c0 c1 domain range)
  | stitched (lo, hi) parts bounds encode range => do
    let domain ← ofExcept (Interval.make lo hi)
    let parts ← buildAll parts
    ofExcept do
      let f ← Function.stitch domain parts bounds encode none
      match f, range with
      | .stitched s parts, some range =>
        return .stitched { s with range := some (← Intervals.ofFlat range) } parts
      | f, _ => return f
  | calculated program range domain limits =>
    ofExcept (.calculated <$> calculator program range domain limits)
  | object o limits => Function.ofObject (limits.getD {}) o

def buildAll : List Declaration → EvalM (List Function)
  | [] => return []
  | d :: ds => return (← build d) :: (← buildAll ds)

end

end Declaration

end PdfFunctions
