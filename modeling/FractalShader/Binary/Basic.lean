/-
  This file defines binary floating-point numbers as a sign
  and a rank.

  The magnitudes of a format are numbered upward from zero:
  rank `0` is zero, the last rank is infinity, and every
  finite rank stands for a whole number of units, where one
  unit is the smallest positive magnitude.  Comparing two
  magnitudes is comparing two ranks.

  Key definitions include:
    * `Format`
    * `Format.units`
    * `Binary`
    * `Binary.key?`
    * `Binary.lt`
    * `Binary.equal`
    * `F32`
    * `F64`
-/

namespace FractalShader

------------------------------------------------------------
-- Formats
------------------------------------------------------------

/- Powers of natural numbers are the built-in ones. -/
attribute [instance (high)] instPowNat

/- The widths that fix a binary floating-point format. -/
structure Format where
  fractionBits : Nat
  exponentBits : Nat
deriving DecidableEq, Repr

namespace Format

/- Four-byte numbers. -/
def single : Format := ⟨23, 8⟩

/- Eight-byte numbers. -/
def double : Format := ⟨52, 11⟩

/- One unit is two to the power of minus this number. -/
def unitBits (f : Format) : Nat :=
  2 ^ (f.exponentBits - 1) - 2 + f.fractionBits

/- The rank of infinity. -/
def infinity (f : Format) : Nat :=
  (2 ^ f.exponentBits - 1) * 2 ^ f.fractionBits

/-
  The magnitude of a rank, counted in units.  The rank of
  infinity gets the value that the next finite rank would
  have.
-/
def units
    (f : Format)
    (rank : Nat) : Nat :=
  let exponent := rank / 2 ^ f.fractionBits
  let fraction := rank % 2 ^ f.fractionBits
  if exponent = 0 then
    fraction
  else
    (2 ^ f.fractionBits + fraction) * 2 ^ (exponent - 1)

end Format

------------------------------------------------------------
-- Numbers
------------------------------------------------------------

/- A floating-point number; all payloads of NaN are one. -/
inductive Binary (f : Format) where
  | nan
  | signed (negative : Bool) (rank : Fin (f.infinity + 1))
deriving DecidableEq, Repr

/- Four-byte numbers. -/
abbrev F32 := Binary Format.single

/- Eight-byte numbers. -/
abbrev F64 := Binary Format.double

namespace Binary

variable {f : Format}

/- A number from a sign and a rank, infinity at most. -/
def ofRank
    (negative : Bool)
    (rank : Nat) : Binary f :=
  .signed negative
    ⟨min rank f.infinity, by omega⟩

/- Zero with a sign. -/
def zero (negative : Bool) : Binary f :=
  ofRank negative 0

/- Infinity with a sign. -/
def infinite (negative : Bool) : Binary f :=
  ofRank negative f.infinity

instance : Inhabited (Binary f) := ⟨zero false⟩

/- Neither NaN nor infinite. -/
def isFinite : Binary f → Bool
  | .nan => false
  | .signed _ rank => rank.val < f.infinity

/-
  The position of a number in the order of numbers.  Both
  zeros have position zero, and NaN has none.
-/
def key? : Binary f → Option Int
  | .nan => none
  | .signed false rank => some rank.val
  | .signed true rank => some (-(rank.val : Int))

/- Numeric order; NaN is below nothing and above nothing. -/
def lt (a b : Binary f) : Bool :=
  match a.key?, b.key? with
  | some x, some y => decide (x < y)
  | _, _ => false

/- Numeric order with equality. -/
def le (a b : Binary f) : Bool :=
  match a.key?, b.key? with
  | some x, some y => decide (x ≤ y)
  | _, _ => false

/-
  Numeric equality: the two zeros are equal, and NaN is not
  equal to itself.
-/
def equal (a b : Binary f) : Bool :=
  match a.key?, b.key? with
  | some x, some y => decide (x = y)
  | _, _ => false

/- NaN alone is not equal to itself. -/
theorem equal_self_iff (a : Binary f) :
    a.equal a = true ↔ a ≠ .nan := by
  cases a with
  | nan => simp [equal, key?]
  | signed negative rank =>
      cases negative <;> simp [equal, key?]

/- A finite number is a number. -/
theorem ne_nan_of_isFinite
    {a : Binary f}
    (h : a.isFinite = true) :
    a ≠ .nan := by
  rintro rfl
  cases h

end Binary

end FractalShader
