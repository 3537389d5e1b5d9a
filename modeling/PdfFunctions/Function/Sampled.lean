import PdfFunctions.Event
import PdfFunctions.Interval

namespace PdfFunctions

open Scalar

variable {α : Type} [Scalar α]

/-- An input of the table: `encode` tells which places the ends of the interval stand for. -/
structure Axis (α : Type) [Scalar α] where
  interval : Interval α
  size : Nat
  encode : α × α
deriving DecidableEq

/-- An output of the table: `decode` tells what the least and the greatest sample stand for. -/
structure Channel (α : Type) [Scalar α] where
  interval : Interval α
  decode : α × α
deriving DecidableEq

structure Sampled (α : Type) [Scalar α] where
  -- the first varies fastest in the table
  axes : List (Axis α)
  channels : List (Channel α)
  bits : Nat
  -- linear or cubic. Both are evaluated as linear
  order : Nat
  samples : Array UInt8
deriving DecidableEq

/-- A place between two table indices, as the share of the upper one. -/
structure Cell (α : Type) where
  lower : Nat
  upper : Nat
  share : α

structure Corner (α : Type) where
  weight : α
  index : Nat

namespace Axis

def start (interval : Interval α) (size : Nat) : Axis α :=
  ⟨interval, size, (ofNat 0, ofNat (size - 1))⟩

def place (a : Axis α) (x : α) : α :=
  clamp (ofNat 0) (ofNat (a.size - 1))
    (interpolate x a.interval.lo a.interval.hi a.encode.1 a.encode.2)

def cell (a : Axis α) (x : α) : Cell α :=
  if a.size = 1 then ⟨0, 0, ofNat 0⟩
  else
    let e := a.place x
    -- the last place belongs to the last cell
    let below := floor e
    let last := ofNat (a.size - 1) - ofNat 1
    let lower := if le below last then below else last
    ⟨toNat lower, toNat lower + 1, e - lower⟩

end Axis

namespace Cell

def low (c : Cell α) (stride : Nat) (k : Corner α) : Corner α :=
  ⟨k.weight * (ofNat 1 - c.share), k.index + c.lower * stride⟩

def high (c : Cell α) (stride : Nat) (k : Corner α) : Corner α :=
  ⟨k.weight * c.share, k.index + c.upper * stride⟩

end Cell

namespace Sampled

def sampleWidths : List Nat := [1, 2, 4, 8, 12, 16, 24, 32]

def mostInputs : Nat := 16

def tableBits (outputs : Nat) (sizes : List Nat) (bits : Nat) : Nat :=
  sizes.foldl (· * ·) outputs * bits

def make (domain range : Intervals α) (sizes : List Nat) (bits : Nat) (samples : Array UInt8) :
    Except Error (Sampled α) := do
  let fail (d : Defect) : Except Error Unit := .error (.malformed d)
  let inputs := domain.length
  -- the checks come in this order, and the first defect is the one reported
  if inputs = 0 ∨ range.length = 0 then fail .tableWithoutIntervals
  if mostInputs < inputs then fail (.tooManyInputs inputs mostInputs)
  if sizes.length ≠ inputs then fail (.sizeCount sizes.length inputs)
  if 0 ∈ sizes then fail .zeroSize
  if bits ∉ sampleWidths then fail (.bitsPerSample bits)
  let needed := tableBits range.length sizes bits
  if 0x10000000000000000 ≤ needed then fail .tableTooLarge
  let bytes := (needed + 7) / 8
  if samples.size < bytes then fail (.tableTooShort samples.size bytes)
  return {
    axes := List.zipWith Axis.start domain sizes
    channels := range.map fun i => ⟨i, i.ends⟩
    bits, order := 1, samples }

def withEncode (f : Sampled α) (flat : List α) : Except Error (Sampled α) := do
  let ps ← pairs flat
  if ps.length ≠ f.axes.length then
    throw (.malformed (.encodeInputs ps.length f.axes.length))
  return { f with axes := List.zipWith (fun a p => { a with encode := p }) f.axes ps }

def withDecode (f : Sampled α) (flat : List α) : Except Error (Sampled α) := do
  let ps ← pairs flat
  if ps.length ≠ f.channels.length then
    throw (.malformed (.decodeOutputs ps.length f.channels.length))
  return { f with channels := List.zipWith (fun c p => { c with decode := p }) f.channels ps }

def withOrder (f : Sampled α) (order : Nat) : EStateM Error Log (Sampled α) := do
  if order = 3 then modify (.cubicOrder :: ·)
  else if order ≠ 1 then throw (.malformed (.order order))
  return { f with order }

/-- Bit `i` of the data, the highest bit of a byte first. There are zeros past the end. -/
def bitAt (data : Array UInt8) (i : Nat) : Nat :=
  ((data.getD (i / 8) 0).toNat >>> (7 - i % 8)) % 2

def bitsAt (data : Array UInt8) (first : Nat) : Nat → Nat
  | 0 => 0
  | count + 1 => 2 * bitsAt data first count + bitAt data (first + count)

def sample (f : Sampled α) (index j : Nat) : Nat :=
  bitsAt f.samples ((index * f.channels.length + j) * f.bits) f.bits

/-- The entries around the inputs: those on the lower side of an axis before the others. -/
def corners : List (Axis α) → List α → Nat → List (Corner α) → List (Corner α)
  | a :: as, x :: xs, stride, ks =>
    let c := a.cell x
    corners as xs (stride * a.size) (ks.map (c.low stride) ++ ks.map (c.high stride))
  | _, _, _, ks => ks

def blend (f : Sampled α) (ks : List (Corner α)) (j : Nat) : α :=
  ks.foldl (fun sum k =>
    -- entries without weight are left out
    if eq k.weight (ofNat 0) then sum else sum + k.weight * ofNat (f.sample k.index j)) (ofNat 0)

def output (f : Sampled α) (ks : List (Corner α)) (j : Nat) (c : Channel α) : α :=
  c.interval.clip
    (interpolate (f.blend ks j) (ofNat 0) (ofNat ((1 <<< f.bits) - 1)) c.decode.1 c.decode.2)

def domain (f : Sampled α) : Intervals α := f.axes.map Axis.interval

def evaluate (f : Sampled α) (xs : List α) : Except Error (List α) := do
  let xs ← f.domain.fit xs
  let ks := corners f.axes xs 1 [⟨ofNat 1, 0⟩]
  return f.channels.mapIdx (f.output ks)

end Sampled

end PdfFunctions
