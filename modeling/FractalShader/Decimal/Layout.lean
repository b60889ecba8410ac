import FractalShader.Binary.Shortest
import FractalShader.Decimal.Numeral

/-
  This file spells binary numbers in decimal.

  The digits are the shortest ones.  A layout fixes the
  rest: which magnitudes are written without an exponent,
  and which digits are taken where two choices are equally
  near.  The exponent is that of the first digit, and a
  number without an exponent always shows at least one
  fraction digit.

  Key definitions include:
    * `Decimal.Layout`
    * `Decimal.spell`
    * `Binary.numeral?`
-/

namespace FractalShader

namespace Decimal

------------------------------------------------------------
-- Layouts
------------------------------------------------------------

/-
  The exponents of the first digit that are written without
  an exponent mark, and the rule for equally near digits.
-/
structure Layout where
  least : Int
  greatest : Int
  tie : Tie
deriving DecidableEq, Repr

/- Numbers in shader text. -/
def Layout.shader : Layout := ⟨-4, 15, .up⟩

/- Four-byte numbers in JSON text. -/
def Layout.jsonSingle : Layout := ⟨-6, 12, .toEven⟩

/- Eight-byte numbers in JSON text. -/
def Layout.jsonDouble : Layout := ⟨-5, 15, .toEven⟩

------------------------------------------------------------
-- Spelling
------------------------------------------------------------

/- How many decimal digits a coefficient has. -/
def width (d : Decimal) : Nat :=
  (Nat.toDigits 10 d.coefficient).length

/- The decimal exponent of the first digit. -/
def leading (d : Decimal) : Int :=
  d.exponent + (d.width - 1 : Nat)

/- Spell a decimal without an exponent. -/
def plain
    (negative : Bool)
    (d : Decimal) : Numeral :=
  match d.exponent with
  | .ofNat e =>
      ⟨negative, d.coefficient * 10 ^ e, [.zero], none⟩
  | .negSucc e =>
      let places := e + 1
      { negative
        whole := d.coefficient / 10 ^ places
        fraction := Digit.lowest places d.coefficient
        exponent := none }

/- Spell a decimal with one digit before the point. -/
def scientific
    (negative : Bool)
    (d : Decimal) : Numeral :=
  let places := d.width - 1
  { negative
    whole := d.coefficient / 10 ^ places
    fraction := Digit.lowest places d.coefficient
    exponent := some d.leading }

/- Spell a decimal as a layout asks. -/
def spell
    (layout : Layout)
    (negative : Bool)
    (d : Decimal) : Numeral :=
  if layout.least ≤ d.leading ∧
      d.leading ≤ layout.greatest then
    d.plain negative
  else
    d.scientific negative

end Decimal

------------------------------------------------------------
-- Numbers
------------------------------------------------------------

namespace Binary

variable {f : Format}

/-
  The shortest spelling of a finite number.  Zero keeps its
  sign.
-/
def numeral?
    (layout : Decimal.Layout) :
    Binary f → Option Numeral
  | .nan => none
  | .signed negative rank =>
      if rank.val = f.infinity then
        none
      else if rank.val = 0 then
        some ⟨negative, 0, [.zero], none⟩
      else
        let digits := f.shortest layout.tie rank
        some (digits.spell layout negative)

/-
  The text of a number in messages and in shader text.  The
  exponent of a large number carries no plus sign.
-/
def text : Binary f → String
  | .nan => "NaN"
  | x@(.signed negative _) =>
      match x.numeral? .shader with
      | some n => String.ofList (n.chars false)
      | none => if negative then "-inf" else "inf"

end Binary

end FractalShader
