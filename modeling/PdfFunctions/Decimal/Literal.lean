import PdfFunctions.Binary64
import PdfFunctions.Bytes

namespace PdfFunctions.Decimal

/-- The number `± coefficient * 10 ^ exponent`. -/
structure Literal where
  negative : Bool
  coefficient : Nat
  exponent : Int
deriving DecidableEq

namespace Literal

def value (l : Literal) : Float :=
  Binary64.ofDecimal l.negative l.coefficient l.exponent

/-- Splits off a sign: true is minus. -/
def sign : Bytes → Bool × Bytes
  | 0x2D :: bs => (true, bs)
  | 0x2B :: bs => (false, bs)
  | bs => (false, bs)

def digits? (bs : Bytes) : Option Nat :=
  if bs.isEmpty then none else bs.natural? 10

/-- The digits of an exponent count until it has reached this number. -/
def exponentBound : Nat := 0x10000

def appendDigit (n : Nat) (digit : UInt8) : Nat :=
  if n < exponentBound then 10 * n + (digit.toNat - 0x30) else n

def exponent? : Bytes → Option Int
  | [] => some 0
  | b :: bs =>
    if b = 0x65 ∨ b = 0x45 then
      let (negative, ds) := sign bs
      if ds.isEmpty || !ds.all Bytes.isDigit then none
      else
        let n := ds.foldl appendDigit 0
        some (if negative then -(n : Int) else n)
    else none

def fraction : Bytes → Bytes × Bytes
  | 0x2E :: bs => bs.span Bytes.isDigit
  | bs => ([], bs)

def read? (bs : Bytes) : Option Literal := do
  let (negative, bs) := sign bs
  let (whole, bs) := bs.span Bytes.isDigit
  let (places, bs) := fraction bs
  let coefficient ← digits? (whole ++ places)
  let exponent ← exponent? bs
  -- what stands after the point is part of the coefficient
  return ⟨negative, coefficient, exponent - places.length⟩

end Literal

def word? (bs : Bytes) : Option Float :=
  let (negative, bs) := Literal.sign bs
  let word := Bytes.latin1 (bs.map Bytes.toLower)
  if word = "inf" ∨ word = "infinity" then
    some (if negative then -Binary64.infinity else Binary64.infinity)
  else if word = "nan" then some Binary64.nan
  else none

def parse? (bs : Bytes) : Option Float :=
  (Literal.read? bs).map Literal.value <|> word? bs

end PdfFunctions.Decimal
