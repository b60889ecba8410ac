/-
  This file defines the settings of the compiler.

  Key definitions include:
    * `Mode`
    * `Settings`
-/

namespace FractalShader

/- When a session compiles. -/
inductive Mode where
  /- After every edit that needs it. -/
  | auto
  /- On request. -/
  | manual
deriving DecidableEq, Repr

/- How shader text is written and when. -/
structure Settings where
  mode : Mode := .auto
  stateVar : String := "z"
  iterationVar : String := "i"
  paramArray : String := "uNodeParams"
  slotStem : String := "uParam"
  inlineLiterals : Bool := false
deriving DecidableEq, Repr

end FractalShader
