import PdfFunctions.Interval

namespace PdfFunctions

open Scalar

variable {α : Type} [Scalar α]

structure Partition (α : Type) [Scalar α] where
  domain : Interval α
  bounds : List α
deriving DecidableEq

structure Piece (α : Type) where
  index : Nat
  lo : α
  hi : α
deriving DecidableEq

namespace Partition

/-- The first bound out of order, from `previous` on and up to `last`. -/
def faultFrom? (last previous : α) : List α → Option (BoundFault α)
  | [] => if le previous last then none else some (.pastEnd previous last)
  | b :: bs => if le previous b then faultFrom? last b bs else some (.decreasing b previous)

def fault? (p : Partition α) : Option (BoundFault α) :=
  faultFrom? p.domain.hi p.domain.lo p.bounds

/-- The first piece whose right end lies beyond `x`, or the last. -/
def pieceFrom (last x : α) (index : Nat) (lo : α) : List α → Piece α
  | [] => ⟨index, lo, last⟩
  -- a piece holds its left end and not its right one
  | b :: bs => if lt x b then ⟨index, lo, b⟩ else pieceFrom last x (index + 1) b bs

def piece (p : Partition α) (x : α) : Piece α :=
  match p.bounds with
  | b :: _ =>
    -- a first piece that is a single point holds that point
    if eq b p.domain.lo && eq x p.domain.lo then ⟨0, p.domain.lo, b⟩
    else pieceFrom p.domain.hi x 0 p.domain.lo p.bounds
  | [] => ⟨0, p.domain.lo, p.domain.hi⟩

end Partition

/-- How the input of a stitched function reaches its parts: each piece of the domain is mapped
onto a pair of `encode`. -/
structure Stitching (α : Type) [Scalar α] where
  partition : Partition α
  encode : List (α × α)
  range : Option (Intervals α) := none
deriving DecidableEq

namespace Stitching

def route (s : Stitching α) (x : α) : Option (Nat × α) :=
  let x := s.partition.domain.clip x
  let p := s.partition.piece x
  s.encode[p.index]?.map fun (e0, e1) => (p.index, interpolate x p.lo p.hi e0 e1)

end Stitching

end PdfFunctions
