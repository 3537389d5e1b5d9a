namespace PdfFunctions

abbrev Bytes := List UInt8

namespace Bytes

def latin1 (bs : Bytes) : String :=
  String.ofList (bs.map fun b => Char.ofNat b.toNat)

def ofText (s : String) : Bytes := s.toUTF8.toList

def isDigit (b : UInt8) : Bool := 0x30 ≤ b && b ≤ 0x39

def isUpper (b : UInt8) : Bool := 0x41 ≤ b && b ≤ 0x5A

def isLower (b : UInt8) : Bool := 0x61 ≤ b && b ≤ 0x7A

def toLower (b : UInt8) : UInt8 := if isUpper b then b + 0x20 else b

def digitValue? (b : UInt8) : Option Nat :=
  if isDigit b then some (b.toNat - 0x30)
  else if isUpper b then some (b.toNat - 0x41 + 10)
  else if isLower b then some (b.toNat - 0x61 + 10)
  else none

/-- The number `high * scale + low`, to which digits are appended. Short of a bound on `scale` a
digit changes `low` alone, so that a long text is read in few steps on large numbers. -/
structure Growing where
  high : Nat := 0
  low : Nat := 0
  scale : Nat := 1
deriving DecidableEq

namespace Growing

def value (g : Growing) : Nat := g.high * g.scale + g.low

def scaleBound : Nat := 1 <<< 4096

def append (base : Nat) (g : Growing) (digit : Nat) : Growing :=
  if g.scale < scaleBound then
    { g with low := base * g.low + digit, scale := base * g.scale }
  -- the low part has grown long enough to be taken into the high one
  else ⟨g.value, digit, base⟩

theorem value_append (base : Nat) (g : Growing) (digit : Nat) :
    (g.append base digit).value = base * g.value + digit := by
  unfold append
  split
  · simp only [value, Nat.mul_add, Nat.add_assoc, Nat.mul_left_comm]
  · simp only [value, Nat.mul_comm]

end Growing

/-- The digits read in `base`; none of them may be `base` or above. -/
def natural? (base : Nat) (bs : Bytes) : Option Nat :=
  Growing.value <$> bs.foldlM (fun g b => do
    let d ← digitValue? b
    if d < base then some (g.append base d) else none) ({} : Growing)

end Bytes

end PdfFunctions
