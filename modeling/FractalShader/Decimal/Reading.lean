import FractalShader.Binary.Rounding
import FractalShader.Decimal.Numeral

/-
  This file reads the number that a numeral stands for.

  A numeral without a point and without an exponent is an
  integer when it fits eight bytes.  Every other numeral is
  an eight-byte number: its digits are collected into eight
  bytes while they fit, and the collected integer is
  multiplied or divided by a power of ten, each step rounded
  on its own.  A number too large for the format is not read.

  Key definitions include:
    * `Reading`
    * `Numeral.double?`
    * `Numeral.reading?`
    * `Reading.toBinary`
-/

namespace FractalShader

namespace Numeral

------------------------------------------------------------
-- Collected Digits
------------------------------------------------------------

/- The bound of the collected integer. -/
def collectBound : Nat := 2 ^ (64 : Nat)

/-
  The longest front of an integer's digits that fits, and
  how many digits were left out.
-/
def collectWhole (whole : Nat) : Nat × Nat :=
  if whole < collectBound then
    (whole, 0)
  else
    let (front, skipped) := collectWhole (whole / 10)
    (front, skipped + 1)
termination_by whole
decreasing_by
  unfold collectBound at *
  omega

/-
  Append fraction digits while the result fits, and count
  them.  The digits after the first misfit are dropped.
-/
def collectFraction
    (front : Nat) :
    List Digit → Nat × Nat
  | [] => (front, 0)
  | d :: digits =>
      let next := 10 * front + d.val
      if next < collectBound then
        let (full, taken) := collectFraction next digits
        (full, taken + 1)
      else
        (front, 0)

------------------------------------------------------------
-- Eight-Byte Values
------------------------------------------------------------

/- The largest exponent that one power of ten covers. -/
def stepLimit : Nat := 308

/-
  Divide a magnitude by a power of ten, in steps of the
  largest power there is.  Zero stays zero.
-/
def scaleDownBy
    (rank k : Nat) : Nat :=
  if k ≤ stepLimit then
    Format.double.scaleDown rank k
  else if rank = 0 then
    0
  else
    scaleDownBy
      (Format.double.scaleDown rank stepLimit)
      (k - stepLimit)
termination_by k
decreasing_by
  unfold stepLimit at *
  omega

/-
  A magnitude times a power of ten, unless it overflows.
-/
def scaleBy?
    (rank : Nat)
    (exponent : Int) : Option Nat :=
  match exponent with
  | .ofNat k =>
      if k ≤ stepLimit then
        let scaled := Format.double.scaleUp rank k
        if scaled = Format.double.infinity then
          none
        else
          some scaled
      else if rank = 0 then
        some 0
      else
        none
  | .negSucc k => some (scaleDownBy rank (k + 1))

/- The largest exponent that is counted exactly. -/
def exponentBound : Int := 2147483647

/-
  The magnitude of collected digits under a written
  exponent.  An exponent too large to count stands for zero
  when the digits or its sign make it so.
-/
def magnitude?
    (collected : Nat)
    (shift : Int) :
    Option Int → Option Nat
  | none =>
      scaleBy? (Format.double.round collected 1) shift
  | some written =>
      if exponentBound < written then
        if collected = 0 then some 0 else none
      else if written < -exponentBound then
        some 0
      else
        let exponent :=
          max (-exponentBound - 1)
            (min exponentBound (shift + written))
        scaleBy? (Format.double.round collected 1) exponent

/- The eight-byte value of a numeral. -/
def double? (n : Numeral) : Option F64 :=
  let (front, skipped) := collectWhole n.whole
  let (collected, taken) := collectFraction front n.fraction
  let shift : Int := (skipped : Int) - taken
  (magnitude? collected shift n.exponent).map
    (Binary.ofRank n.negative)

end Numeral

------------------------------------------------------------
-- Readings
------------------------------------------------------------

/- What a numeral is read as. -/
inductive Reading where
  | integer (z : Int)
  | double (x : F64)
deriving DecidableEq, Repr

namespace Numeral

/-
  Read a numeral.  Minus zero is not an integer, because
  integers have one zero.
-/
def reading? (n : Numeral) : Option Reading :=
  if n.fraction = [] ∧ n.exponent = none ∧
      (if n.negative then
        0 < n.whole ∧ n.whole ≤ 2 ^ (63 : Nat)
      else
        n.whole < 2 ^ (64 : Nat)) then
    some
      (.integer
        (if n.negative then
          -(n.whole : Int)
        else
          n.whole))
  else
    n.double?.map .double

end Numeral

namespace Reading

/- The nearest number of a format. -/
def toBinary
    {f : Format} :
    Reading → Binary f
  | .integer z => .ofInt z
  | .double x => x.convert

end Reading

end FractalShader
