import PdfFunctions.Function.Calculator
import PdfFunctions.Function.Exponential
import PdfFunctions.Function.Partition
import PdfFunctions.Function.Sampled

namespace PdfFunctions

inductive Function where
  | sampled (f : Sampled Float)
  | exponential (f : Exponential)
  | stitched (s : Stitching Float) (parts : List Function)
  | calculated (f : Calculator)

/-- Building and evaluating functions reports events, also where it fails. -/
abbrev EvalM := EStateM Error Log

namespace Function

/-- The number of a kind of function in dictionaries. -/
def type : Function → Nat
  | sampled _ => 0
  | exponential _ => 2
  | stitched .. => 3
  | calculated _ => 4

def inputs? : Function → Option Nat
  | sampled f => some f.axes.length
  | exponential _ | stitched .. => some 1
  | calculated f => f.domain.map List.length

mutual

def outputCount : Function → Nat
  | sampled f => f.channels.length
  | exponential f => f.terms.length
  | stitched _ parts => firstOutputCount parts
  | calculated f => f.range.length

def firstOutputCount : List Function → Nat
  | [] => 0
  | f :: _ => f.outputCount

end

mutual

def evaluate : Function → List Float → EvalM (List Float)
  | sampled f, xs => ofExcept (f.evaluate xs)
  | exponential f, xs => f.evaluate xs
  | calculated f, xs => f.evaluate xs
  | stitched s parts, xs =>
    match xs with
    | [x] =>
      match s.route x with
      | some (i, y) => do
        let ys ← evaluateAt parts i [y]
        return s.range.elim ys (·.clip ys)
      | none => throw (.malformed .noPieces)
    | _ => throw (.inputCount 1 xs.length)

def evaluateAt : List Function → Nat → List Float → EvalM (List Float)
  | [], _, _ => throw (.malformed .noPieces)
  | f :: _, 0, xs => f.evaluate xs
  | _ :: fs, i + 1, xs => evaluateAt fs i xs

end

/-- Every part takes one input and gives as many outputs as the first. -/
def checkParts (outputs : Nat) : List Function → Except Error Unit
  | [] => .ok ()
  | f :: fs =>
    if f.inputs? ≠ none ∧ f.inputs? ≠ some 1 then .error (.malformed .pieceInputs)
    else if f.outputCount ≠ outputs then .error (.malformed .pieceOutputs)
    else checkParts outputs fs

def stitch (domain : Interval Float) (parts : List Function) (bounds encode : List Float)
    (range : Option (Intervals Float)) : Except Error Function := do
  let fail (d : Defect) : Except Error Unit := .error (.malformed d)
  let k := parts.length
  -- the checks come in this order, and the first defect is the one reported
  if k = 0 then fail .noPieces
  if bounds.length ≠ k - 1 then fail (.boundCount bounds.length k)
  let partition : Partition Float := ⟨domain, bounds⟩
  if let some fault := partition.fault? then fail (.bound fault)
  let ps ← pairs encode
  if ps.length ≠ k then fail (.encodePieces ps.length k)
  checkParts (firstOutputCount parts) parts
  return .stitched ⟨partition, ps, range⟩ parts

end Function

end PdfFunctions
