import PdfFunctions.Decimal.Shortest

namespace PdfFunctions.Decimal

structure Style where
  -- places of the decimal point, counted from the first digit, that are written without an
  -- exponent: above the first number, up to the second. Without a value, all are
  positional : Option (Int × Int)
  -- what follows the digits of an integer
  wholeSuffix : String
  tie : Tie
  nan : String
  infinity : String
  negativeInfinity : String

namespace Style

def digitChars (n : Nat) : List Char := Nat.toDigits 10 n

def plain (s : Style) (digits : List Char) (point : Int) : String :=
  if point ≤ 0 then
    "0." ++ String.ofList (List.replicate (-point).toNat '0' ++ digits)
  else if digits.length ≤ point.toNat then
    String.ofList (digits ++ List.replicate (point.toNat - digits.length) '0') ++ s.wholeSuffix
  else
    String.ofList (digits.take point.toNat) ++ "." ++ String.ofList (digits.drop point.toNat)

def scaled (digits : List Char) (point : Int) : String :=
  let mantissa := match digits with
    | d :: (r@(_ :: _)) => String.ofList (d :: '.' :: r)
    | ds => String.ofList ds
  let exponent := point - 1
  mantissa ++ (if exponent < 0 then "e-" else "e+") ++ String.ofList (digitChars exponent.natAbs)

def layout (s : Style) (d : Digits) : String :=
  let written := digitChars d.coefficient
  let point := (written.length : Int) + d.exponent
  -- zeros at the end of the coefficient are not written
  let digits := (written.reverse.dropWhile (· == '0')).reverse
  match s.positional with
  | none => s.plain digits point
  | some (above, upTo) =>
    if above < point && point ≤ upTo then s.plain digits point else scaled digits point

def magnitude (s : Style) (m : Nat) (e : Int) : String :=
  s.layout ((Magnitude.of m e).shortest s.tie)

def render (s : Style) (x : Float) : String :=
  match x.toModel.unpack with
  | .notANumber => s.nan
  | .infinity .positive => s.infinity
  | .infinity .negative => s.negativeInfinity
  | .zero .positive => "0" ++ s.wholeSuffix
  | .zero .negative => "-0" ++ s.wholeSuffix
  | .finite .positive m e _ => s.magnitude m e
  | .finite .negative m e _ => "-" ++ s.magnitude m e

/-- The style of messages and plain reports: never an exponent, integers without a point. -/
def message : Style where
  positional := none
  wholeSuffix := ""
  tie := .up
  nan := "NaN"
  infinity := "inf"
  negativeInfinity := "-inf"

/-- The style of JSON documents: an exponent from `1e+16` up and below `0.00001`; what is not a
number there is null. -/
def json : Style where
  positional := some (-5, 16)
  wholeSuffix := ".0"
  tie := .toEven
  nan := "null"
  infinity := "null"
  negativeInfinity := "null"

end Style

def text (x : Float) : String := Style.message.render x

end PdfFunctions.Decimal
