import FractalShader.Binary.Basic

/-
  This file rounds exact quotients to binary floating-point
  numbers: to the nearest one, and a tie to the one of even
  rank.

  Key definitions include:
    * `nearestEven`
    * `Format.round`
    * `Binary.ofRatio`
    * `Binary.ofInt`
    * `Binary.convert`
    * `Format.scaleUp`
    * `Format.scaleDown`
-/

namespace FractalShader

------------------------------------------------------------
-- Nearest Integers
------------------------------------------------------------

/-
  The whole number nearest to a quotient; halfway between
  two, the even one.
-/
def nearestEven (num den : Nat) : Nat :=
  let low := num / den
  let rest := num % den
  if 2 * rest < den ∨ (2 * rest = den ∧ low % 2 = 0) then
    low
  else
    low + 1

------------------------------------------------------------
-- Nearest Ranks
------------------------------------------------------------

namespace Format

/-
  The rank nearest to a quotient, which may be infinity.

  Below the second power of two of the format the ranks are
  the units.  Above it a unit of rank is worth `2 ^ shift`
  units, and the ranks below that stretch number `shift`
  times the count of fractions.
-/
def round
    (f : Format)
    (num den : Nat) : Nat :=
  let scaled := num * 2 ^ f.unitBits
  let shift := (scaled / den).log2 - f.fractionBits
  min f.infinity
    (shift * 2 ^ f.fractionBits +
      nearestEven scaled (den * 2 ^ shift))

/- The rank nearest to a power of ten. -/
def powerOfTen
    (f : Format)
    (k : Nat) : Nat :=
  f.round (10 ^ k) 1

/- Multiply a finite magnitude by a rounded power of ten. -/
def scaleUp
    (f : Format)
    (rank k : Nat) : Nat :=
  f.round
    (f.units rank * f.units (f.powerOfTen k))
    (2 ^ (2 * f.unitBits))

/- Divide a finite magnitude by a rounded power of ten. -/
def scaleDown
    (f : Format)
    (rank k : Nat) : Nat :=
  f.round (f.units rank) (f.units (f.powerOfTen k))

end Format

------------------------------------------------------------
-- Numbers from Quotients
------------------------------------------------------------

namespace Binary

variable {f g : Format}

/- The number nearest to a signed quotient. -/
def ofRatio
    (num : Int)
    (den : Nat) : Binary f :=
  ofRank (decide (num < 0)) (f.round num.natAbs den)

/- The number nearest to an integer. -/
def ofInt (z : Int) : Binary f :=
  ofRatio z 1

/- The nearest number of another format; signs are kept. -/
def convert : Binary g → Binary f
  | .nan => .nan
  | .signed negative rank =>
      if rank.val = g.infinity then
        infinite negative
      else
        ofRank negative
          (f.round (g.units rank) (2 ^ g.unitBits))

end Binary

end FractalShader
