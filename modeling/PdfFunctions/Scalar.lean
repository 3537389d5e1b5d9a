import PdfFunctions.Binary64

namespace PdfFunctions

/-- Numbers with the operations that clipping and interpolation use. -/
class Scalar (α : Type) extends Add α, Sub α, Mul α, Div α where
  ofNat : Nat → α
  lt : α → α → Bool
  le : α → α → Bool
  eq : α → α → Bool
  floor : α → α
  -- the integer part, and 0 below zero
  toNat : α → Nat

namespace Scalar

instance : Scalar Float where
  ofNat := Binary64.ofNat
  lt a b := a < b
  le a b := a ≤ b
  eq a b := a == b
  floor := Binary64.floor
  toNat x := ((Binary64.toInt? x).getD 0).toNat

instance : Scalar Rat where
  ofNat n := n
  lt a b := a < b
  le a b := a ≤ b
  eq a b := a == b
  floor a := a.floor
  toNat a := a.floor.toNat

end Scalar

end PdfFunctions
