namespace PdfFunctions.Binary64

open Float.Model (UnpackedFloat)

inductive Direction where
  | down | up | towardZero
deriving DecidableEq

/-- The double nearest to `n`, a tie going to the even neighbour. -/
def ofInt (n : Int) : Float :=
  .ofModel (.ofInt n)

def ofNat (n : Nat) : Float :=
  .ofModel (.ofNat n)

def nan : Float := .ofModel (.pack .notANumber)

def infinity : Float := .ofModel (.pack (.infinity .positive))

def ofScientific (m : Nat) (e : Int) : Float :=
  -- a coefficient that leaves the number at `2 ^ 1024` or above needs no rounding
  if 1 <<< 1024 ≤ m && (1 <<< 1024) * Nat.pow 10 (-e).toNat ≤ m then infinity
  else .ofModel (.ofScientific m e)

def ofDecimal (negative : Bool) (m : Nat) (e : Int) : Float :=
  if negative then -ofScientific m e else ofScientific m e

def wholePart (m : Nat) (e : Int) : Nat :=
  if 0 ≤ e then m <<< e.toNat else m >>> (-e).toNat

def isWhole (m : Nat) (e : Int) : Bool :=
  0 ≤ e || m % (1 <<< (-e).toNat) == 0

def isIntegral (x : Float) : Bool :=
  match x.toModel.unpack with
  | .zero _ => true
  | .finite _ m e _ => isWhole m e
  | _ => false

/-- The integer part of a finite number, toward zero. -/
def toInt? (x : Float) : Option Int :=
  match x.toModel.unpack with
  | .zero _ => some 0
  | .finite .positive m e _ => some (wholePart m e)
  | .finite .negative m e _ => some (-wholePart m e)
  | _ => none

def signed (s : UnpackedFloat.Sign) (n : Nat) : Float :=
  match s with
  | .positive => ofNat n
  -- zero keeps its sign
  | .negative => -ofNat n

def roundToward (d : Direction) (x : Float) : Float :=
  match x.toModel.unpack with
  | .finite s m e _ =>
    if isWhole m e then x
    else match d, s with
      | .down, .negative | .up, .positive => signed s (wholePart m e + 1)
      | _, _ => signed s (wholePart m e)
  | _ => x

def floor : Float → Float := roundToward .down
def ceiling : Float → Float := roundToward .up
def truncate : Float → Float := roundToward .towardZero

end PdfFunctions.Binary64
