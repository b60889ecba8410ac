import FractalShader.Dict

/-
  This file defines the statements that a kind of node
  contributes to a shader, as text with places for the
  variables and parameters of one node.

  Key definitions include:
    * `Scope`
    * `Piece`
    * `Template`
    * `Template.render`
-/

namespace FractalShader

------------------------------------------------------------
-- Scopes
------------------------------------------------------------

/-
  What a node's statements may mention: its id, its output
  variable, which already holds input A, its input
  variables, and the references of its parameters.
-/
structure Scope where
  node : String
  output : String
  inputA : String
  second : Option String
  params : Dict String

namespace Scope

/- The second input, or the first one when it is not wired. -/
def inputB (scope : Scope) : String :=
  scope.second.getD scope.inputA

/- The reference of a parameter; unknown ones read as zero. -/
def param
    (scope : Scope)
    (input : String) : String :=
  (scope.params.get? input).getD "0.0"

end Scope

------------------------------------------------------------
-- Templates
------------------------------------------------------------

/- One piece of a template. -/
inductive Piece where
  | text (s : String)
  | output
  | inputA
  | inputB
  | param (input : String)
deriving DecidableEq, Repr

/- Literal text stands for itself. -/
instance : Coe String Piece := ⟨.text⟩

namespace Piece

/- The text of a piece in a scope. -/
def render (scope : Scope) : Piece → String
  | .text s => s
  | .output => scope.output
  | .inputA => scope.inputA
  | .inputB => scope.inputB
  | .param input => scope.param input

end Piece

/- Text with places to fill in. -/
abbrev Template := List Piece

namespace Template

/- The text of a template in a scope. -/
def render
    (template : Template)
    (scope : Scope) : String :=
  String.join (template.map (Piece.render scope))

end Template

end FractalShader
