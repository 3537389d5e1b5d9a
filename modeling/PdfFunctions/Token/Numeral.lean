import PdfFunctions.Decimal.Literal

namespace PdfFunctions.Numeral

def maxRadixValue : Nat := 0x7FFFFFFFFFFFFFFF

/-- The base of a radix literal, which may carry a plus sign. -/
def base? (bs : Bytes) : Option Nat := do
  let digits := match bs with
    | 0x2B :: ds => ds
    | ds => ds
  let base ← Decimal.Literal.digits? digits
  if 2 ≤ base ∧ base ≤ 36 then some base else none

/-- The value of `base#digits`; the digits carry no sign. -/
def radix? (base digits : Bytes) : Option Nat := do
  let base ← base? base
  if digits.isEmpty then none
  else
    let n ← digits.natural? base
    if n ≤ maxRadixValue then some n else none

def read? (bs : Bytes) : Option Float :=
  match bs.span (· != 0x23) with
  -- the first `#` makes it a radix literal
  | (base, _ :: digits) => (radix? base digits).map Binary64.ofNat
  | (_, []) => (Decimal.Literal.read? bs).map Decimal.Literal.value

end PdfFunctions.Numeral
