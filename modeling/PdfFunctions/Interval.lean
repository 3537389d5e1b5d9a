import PdfFunctions.Error
import PdfFunctions.Scalar

namespace PdfFunctions

open Scalar

variable {α : Type} [Scalar α]

/-- Neither end is NaN, since the ends are ordered. -/
structure Interval (α : Type) [Scalar α] where
  lo : α
  hi : α
  ordered : le lo hi = true
deriving DecidableEq

/-- The nearest number from `lo` to `hi`. What compares with neither end stays. -/
def clamp (lo hi x : α) : α :=
  if lt x lo then lo else if lt hi x then hi else x

/-- The linear map of `x0` to `y0` and `x1` to `y1`; constant where `x0` is `x1`. -/
def interpolate (x x0 x1 y0 y1 : α) : α :=
  if eq x1 x0 then y0 else y0 + (x - x0) * (y1 - y0) / (x1 - x0)

namespace Interval

def make? (lo hi : α) : Option (Interval α) :=
  if h : le lo hi = true then some ⟨lo, hi, h⟩ else none

def make (lo hi : Float) : Except Error (Interval Float) :=
  (make? lo hi).elim (.error (.malformed (.emptyInterval lo hi))) .ok

def ends (i : Interval α) : α × α := (i.lo, i.hi)

def clip (i : Interval α) (x : α) : α := clamp i.lo i.hi x

def contains (i : Interval α) (x : α) : Bool := le i.lo x && le x i.hi

end Interval

def pairUp {β : Type} : List β → List (β × β)
  | a :: b :: vs => (a, b) :: pairUp vs
  | _ => []

def pairs {β : Type} (vs : List β) : Except Error (List (β × β)) :=
  if vs.length % 2 = 0 then .ok (pairUp vs) else .error (.malformed (.oddCount vs.length))

abbrev Intervals (α : Type) [Scalar α] := List (Interval α)

namespace Intervals

def ofFlat (vs : List Float) : Except Error (Intervals Float) := do
  (← pairs vs).mapM fun (lo, hi) => Interval.make lo hi

/-- Each value in its interval. Values without one stay. -/
def clip : Intervals α → List α → List α
  | i :: is, x :: xs => i.clip x :: clip is xs
  | _, xs => xs

def fit (is : Intervals α) (xs : List α) : Except Error (List α) :=
  if xs.length = is.length then .ok (is.clip xs) else .error (.inputCount is.length xs.length)

end Intervals

end PdfFunctions
