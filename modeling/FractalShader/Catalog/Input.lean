import FractalShader.Dict
import FractalShader.Binary.Basic

/-
  This file defines the inputs that a kind of node declares,
  and the value that an input takes from stored parameters.

  Key definitions include:
    * `Interval`
    * `Interval.proper`
    * `Interval.confine`
    * `Input`
    * `Input.confine`
    * `Input.resolve`
-/

namespace FractalShader

------------------------------------------------------------
-- Intervals
------------------------------------------------------------

/- Two ends of a range of values. -/
structure Interval where
  least : F32
  greatest : F32
deriving DecidableEq, Repr

namespace Interval

/- Values can be confined only to ends in order. -/
def proper (i : Interval) : Bool :=
  i.least.le i.greatest

/-
  Move a value to the nearer end when it lies outside.  A
  value that equals an end is returned as it is, so a zero
  keeps its sign, and NaN stays NaN.
-/
def confine
    (i : Interval)
    (value : F32) : F32 :=
  let raised := if value.lt i.least then i.least else value
  if i.greatest.lt raised then i.greatest else raised

end Interval

------------------------------------------------------------
-- Inputs
------------------------------------------------------------

/-
  A declared input.  The range is for display; the limits,
  if any, are enforced.
-/
structure Input where
  id : String
  label : String
  range : Interval
  step : F32
  initial : F32
  limits : Option Interval
deriving DecidableEq, Repr

namespace Input

/- The limits, if any, have their ends in order. -/
def proper (input : Input) : Bool :=
  input.limits.all Interval.proper

/- Enforce the limits on a value. -/
def confine
    (input : Input)
    (value : F32) : F32 :=
  match input.limits with
  | some limits => limits.confine value
  | none => value

/-
  The value of an input: the stored one if it is finite, the
  initial one otherwise, within the limits.
-/
def resolve
    (input : Input)
    (params : Dict F32) : F32 :=
  let stored := (params.get? input.id).filter Binary.isFinite
  input.confine (stored.getD input.initial)

end Input

end FractalShader
