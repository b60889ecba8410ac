import FractalShader.Decimal.Layout
import FractalShader.Settings
import FractalShader.Shader.Lines
import FractalShader.Shader.Program
import FractalShader.Shader.Sha256

/-
  This file writes the program of a pipeline as shader text
  and adds what the renderer needs to run it.

  Key definitions include:
    * `Binary.literal`
    * `Block.text`
    * `Program.source`
    * `Settings.declarations`
    * `Fragment`
    * `Fragment.ofPipeline`
    * `Catalog.values`
-/

namespace FractalShader

------------------------------------------------------------
-- Names
------------------------------------------------------------

/-
  A literal of shader text.  A number that is not finite has
  no literal and is written as zero.
-/
def Binary.literal
    {f : Format}
    (x : Binary f) : String :=
  if x.isFinite then x.text else "0.0"

/- The name of a variable. -/
def Var.text (settings : Settings) : Var → String
  | .state => settings.stateVar
  | .stage index => "v" ++ toString index

/- The text of a reference. -/
def Reference.text
    (settings : Settings) : Reference → String
  | .literal value => value.literal
  | .cell index =>
      settings.paramArray ++ "[" ++ toString index ++ "]"
  | .slot s => s.uniform settings.slotStem

------------------------------------------------------------
-- Blocks
------------------------------------------------------------

namespace Block

/- The variable that a block writes. -/
def output (block : Block) : Var :=
  .stage block.index

/- What the statements of a block may mention. -/
def scope
    (settings : Settings)
    (block : Block) : Scope where
  node := block.node
  output := block.output.text settings
  inputA := block.inputA.text settings
  second := block.inputB.map (Var.text settings)
  params :=
    .ofList
      (block.references.map fun r =>
        (r.1, r.2.text settings))

/- The comment that names the node of a block. -/
def header (block : Block) : String :=
  "// " ++ Lines.commentSafe block.node ++
    " (" ++ block.kind ++ ")\n"

/- The declaration of the output variable. -/
def declaration
    (settings : Settings)
    (block : Block) : String :=
  "vec4 " ++ block.output.text settings ++ " = " ++
    block.inputA.text settings ++ ";\n"

/- Statements that run on some iterations only. -/
def guarded
    (settings : Settings)
    (guard : Guard)
    (statements : String) : String :=
  "if ((" ++ settings.iterationVar ++ " % " ++
    toString guard.modulus.toNat ++ ") == " ++
    toString guard.remainder.toNat ++ ") \x7b\n" ++
    String.join
      ((Lines.ofText statements).map fun line =>
        "    " ++ line ++ "\n") ++
    "\x7d\n"

/- The statements of a block. -/
def statements
    (settings : Settings)
    (block : Block) : String :=
  let statements := block.body (block.scope settings)
  match block.guard with
  | some guard => guarded settings guard statements
  | none => statements

/- The text of a block. -/
def text
    (settings : Settings)
    (block : Block) : String :=
  block.header ++ block.declaration settings ++
    block.statements settings

end Block

------------------------------------------------------------
-- Programs
------------------------------------------------------------

namespace Program

/- The statements of a program; the last one is the result. -/
def source
    (settings : Settings)
    (program : Program) : String :=
  String.join (program.blocks.map (Block.text settings)) ++
    settings.stateVar ++ " = " ++
    program.result.text settings ++ ";\n"

end Program

/-
  The declarations of the uniforms: the array of parameters,
  unless it is empty, and the slots.
-/
def Settings.declarations
    (settings : Settings)
    (cells : Nat) : String :=
  (if cells = 0 then
    ""
  else
    "uniform float " ++ settings.paramArray ++ "[" ++
      toString cells ++ "];\n") ++
    String.join
      (Slot.all.map fun slot =>
        "uniform float " ++ slot.uniform settings.slotStem ++
          ";\n")

------------------------------------------------------------
-- Fragments
------------------------------------------------------------

/-
  Shader text with the array of parameters, its values, and
  a digest of the declarations and the text.
-/
structure Fragment where
  source : String
  declarations : String
  layout : List Cell
  values : List F32
  hash : String
deriving DecidableEq, Repr

/- The fragment of a program. -/
def Program.fragment
    (settings : Settings)
    (program : Program) : Fragment :=
  let source := program.source settings
  let declarations :=
    settings.declarations program.cells.length
  { source := source
    declarations := declarations
    layout := program.cells.map (·.1)
    values := program.cells.map (·.2)
    hash := Sha256.hex (declarations ++ source) }

/- The fragment of a pipeline. -/
def Fragment.ofPipeline
    (catalog : Catalog)
    (settings : Settings)
    (pipeline : Pipeline) : Except Failure Fragment :=
  (Program.ofPipeline catalog settings.inlineLiterals
    pipeline).map (·.fragment settings)

------------------------------------------------------------
-- Fresh Values
------------------------------------------------------------

/- The last stage with an id. -/
def Pipeline.stage?
    (pipeline : Pipeline)
    (id : String) : Option Stage :=
  pipeline.reverse.find? (fun stage => stage.id == id)

namespace Catalog

/-
  The value of a cell in a pipeline; zero when the stage,
  its kind or its input is missing.
-/
def value
    (catalog : Catalog)
    (pipeline : Pipeline)
    (cell : Cell) : Except Failure F32 :=
  match pipeline.stage? cell.node with
  | none => .ok (.zero false)
  | some stage =>
      match catalog.input? stage.kind cell.input with
      | none => .ok (.zero false)
      | some input => stage.value input

/- The values of all cells of a layout. -/
def values
    (catalog : Catalog)
    (pipeline : Pipeline)
    (layout : List Cell) : Except Failure (List F32) :=
  layout.mapM (catalog.value pipeline)

end Catalog

end FractalShader
