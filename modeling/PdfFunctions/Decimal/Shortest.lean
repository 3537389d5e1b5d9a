namespace PdfFunctions.Decimal

inductive Tie where
  | up | toEven
deriving DecidableEq

/-- The number `coefficient * 10 ^ exponent`. -/
structure Digits where
  coefficient : Nat
  exponent : Int
deriving DecidableEq

/-- A positive double `m * 2 ^ e`. Below a power of two the gap is half as wide as above it. -/
structure Magnitude where
  m : Nat
  e : Int
  narrowBelow : Bool

namespace Magnitude

def of (m : Nat) (e : Int) : Magnitude where
  m := m
  e := e
  narrowBelow := m == 1 <<< 52 && -1074 < e

/-- Compares `c * 10 ^ g` with `a * 2 ^ (e - 2)`. -/
def compareQuarters (x : Magnitude) (c : Nat) (g : Int) (a : Nat) : Ordering :=
  compare ((c * Nat.pow 10 g.toNat) <<< (2 - x.e).toNat)
    ((a * Nat.pow 10 (-g).toNat) <<< (x.e - 2).toNat)

def readsBack (x : Magnitude) (c : Nat) (g : Int) : Bool :=
  let low := x.compareQuarters c g (4 * x.m - if x.narrowBelow then 1 else 2)
  let high := x.compareQuarters c g (4 * x.m + 2)
  -- the ends belong to doubles with an even coefficient, since that is where a tie goes
  let closed := x.m % 2 == 0
  (low == .gt || closed && low == .eq) && (high == .lt || closed && high == .eq)

def below (x : Magnitude) (g : Int) : Nat :=
  ((x.m * Nat.pow 10 (-g).toNat) <<< x.e.toNat) / (Nat.pow 10 g.toNat <<< (-x.e).toNat)

def compareMiddle (x : Magnitude) (c : Nat) (g : Int) : Ordering :=
  compare ((2 * x.m * Nat.pow 10 (-g).toNat) <<< x.e.toNat)
    (((2 * c + 1) * Nat.pow 10 g.toNat) <<< (-x.e).toNat)

def onGrid? (tie : Tie) (x : Magnitude) (g : Int) : Option Digits :=
  let c := x.below g
  match x.readsBack c g, x.readsBack (c + 1) g with
  | false, false => none
  | true, false => some ⟨c, g⟩
  | false, true => some ⟨c + 1, g⟩
  | true, true =>
    match x.compareMiddle c g, tie with
    | .lt, _ => some ⟨c, g⟩
    | .gt, _ | .eq, .up => some ⟨c + 1, g⟩
    | .eq, .toEven => some ⟨if c % 2 == 0 then c else c + 1, g⟩

/-- An exponent `k` with `x < 10 ^ k`, at most one above the least. -/
def decimalExponent (x : Magnitude) : Int :=
  let k := Int.fdiv ((x.m.log2 + x.e) * 30103) 100000 + 1
  if x.below k == 0 then k else k + 1

def exact (x : Magnitude) : Digits :=
  ⟨(x.m * Nat.pow 5 (-x.e).toNat) <<< x.e.toNat, -((-x.e).toNat : Int)⟩

/-- The first grid with a neighbour that reads back decides. -/
def shortest (tie : Tie) (x : Magnitude) : Digits :=
  ((List.range 18).findSome? fun (n : Nat) => x.onGrid? tie (x.decimalExponent - (n + 1))).getD x.exact

end Magnitude

end PdfFunctions.Decimal
