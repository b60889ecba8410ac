import FractalShader.Binary.Basic

/-
  This file chooses the decimal digits of a finite positive
  magnitude: the fewest digits that round back to it, and
  among those the nearest to it.

  A magnitude is a whole number of units, and a unit is a
  whole number of steps of a fine enough decimal grid, so
  the search runs in natural numbers.  It tries decimal
  grids from coarse to fine; the first grid with a point
  among the numbers that round to the magnitude has the
  fewest digits.  Where two points of that grid are equally
  near, the caller says which one is taken.

  Key definitions include:
    * `Decimal`
    * `Decimal.Tie`
    * `Format.Neighborhood`
    * `Format.shortest`
-/

namespace FractalShader

/- The number `coefficient * 10 ^ exponent`. -/
structure Decimal where
  coefficient : Nat
  exponent : Int
deriving DecidableEq, Repr

/-
  What becomes of a value halfway between two points of a
  grid: it goes to the point above, or to the even one.
-/
inductive Decimal.Tie where
  | up
  | toEven
deriving DecidableEq, Repr

/- A halfway value goes to the point below. -/
def Decimal.Tie.goesDown
    (below : Nat) : Decimal.Tie → Bool
  | .up => false
  | .toEven => below % 2 == 0

namespace Format

------------------------------------------------------------
-- The Numbers That Round to a Magnitude
------------------------------------------------------------

/-
  A magnitude with the ends of the interval that rounds to
  it.  All three count half steps of the decimal grid of
  exponent `-unitBits`; the ends belong to the interval when
  it is closed.
-/
structure Neighborhood where
  low : Nat
  value : Nat
  high : Nat
  closed : Bool

namespace Neighborhood

/- A point lies in the interval. -/
def contains
    (n : Neighborhood)
    (point : Nat) : Bool :=
  if n.closed then
    n.low ≤ point && point ≤ n.high
  else
    n.low < point && point < n.high

/-
  The point nearest to the value on the grid of a step, if
  the interval holds one.  The result counts steps.
-/
def gridPoint?
    (n : Neighborhood)
    (tie : Decimal.Tie)
    (step : Nat) : Option Nat :=
  let below := n.value / step
  let above := below + 1
  match n.contains (below * step),
      n.contains (above * step) with
  | true, true =>
      let down := n.value - below * step
      let up := above * step - n.value
      if down < up ∨ down = up ∧ tie.goesDown below then
        some below
      else
        some above
  | true, false => some below
  | false, true => some above
  | false, false => none

/-
  Search the grids of step `10 ^ k`, `10 ^ (k - 1)` and so
  on; the finest grid holds the value itself.
-/
def coarsest
    (n : Neighborhood)
    (tie : Decimal.Tie) : Nat → Nat × Nat
  | 0 => (n.value / 2, 0)
  | k + 1 =>
      match n.gridPoint? tie (2 * 10 ^ (k + 1)) with
      | some point => (point, k + 1)
      | none => n.coarsest tie k

end Neighborhood

/- The interval that rounds to the magnitude of a rank. -/
def neighborhood
    (f : Format)
    (rank : Nat) : Neighborhood :=
  let scale := 5 ^ f.unitBits
  let here := f.units rank
  { low := (f.units (rank - 1) + here) * scale
    value := 2 * here * scale
    high := (here + f.units (rank + 1)) * scale
    closed := rank % 2 == 0 }

------------------------------------------------------------
-- Shortest Digits
------------------------------------------------------------

/-
  The shortest digits of a positive finite rank.  The search
  starts at the first power of ten above the magnitude.
-/
def shortest
    (f : Format)
    (tie : Decimal.Tie)
    (rank : Nat) : Decimal :=
  let whole := f.units rank / 2 ^ f.unitBits
  let start := f.unitBits + (Nat.toDigits 10 whole).length
  let found := (f.neighborhood rank).coarsest tie start
  { coefficient := found.1
    exponent := (found.2 : Int) - f.unitBits }

end Format

end FractalShader
