import FractalShader.Catalog.Kind
import FractalShader.Failure
import FractalShader.Pipeline.Basic

/-
  This file assembles the program of a pipeline: one block
  of statements for every enabled stage, with the variables
  it reads and the references of its inputs.

  A disabled stage has no block; what reads from it reads
  what it would have read.

  Key definitions include:
    * `Var`
    * `Reference`
    * `Cell`
    * `Block`
    * `Program`
    * `Program.ofPipeline`
-/

namespace FractalShader

------------------------------------------------------------
-- Variables and References
------------------------------------------------------------

/-
  A variable of a program: the state of the iteration, or
  the output of the stage with a number.
-/
inductive Var where
  | state
  | stage (index : Nat)
deriving DecidableEq, Repr

/-
  Where an input takes its value: from the text, from a cell
  of the array of parameters, or from a slot.
-/
inductive Reference where
  | literal (value : F32)
  | cell (index : Nat)
  | slot (slot : Slot)
deriving DecidableEq, Repr

/- The input that a cell of the array carries. -/
structure Cell where
  node : String
  input : String
deriving DecidableEq, Repr

------------------------------------------------------------
-- Programs
------------------------------------------------------------

/- The statements of one stage. -/
structure Block where
  index : Nat
  node : String
  kind : String
  inputA : Var
  inputB : Option Var
  references : List (String × Reference)
  guard : Option Guard
  body : Scope → String

/-
  The blocks of a pipeline in order, the variable that holds
  the result, and the array of parameters with its values.
-/
structure Program where
  blocks : List Block
  result : Var
  cells : List (Cell × F32)

------------------------------------------------------------
-- References of a Stage
------------------------------------------------------------

/- The slot of an input of a stage. -/
def Stage.slot?
    (stage : Stage)
    (input : Input) : Option Slot :=
  Bindings.slot? stage.bindings input.id

namespace Stage

/-
  The value of an input, unless its limits admit no value.
-/
def value
    (stage : Stage)
    (input : Input) : Except Failure F32 :=
  if input.proper then
    .ok (input.resolve stage.params)
  else
    .error (.emptyRange stage.id input.id)

/-
  The references of some inputs and the cells they add to an
  array that has `next` cells.  Literals need no cells.
-/
def references
    (inline : Bool)
    (stage : Stage) :
    Nat → List Input →
      Except Failure
        (List (String × Reference) × List (Cell × F32))
  | _, [] => .ok ([], [])
  | next, input :: inputs =>
      match stage.slot? input with
      | some slot => do
          let (references, cells) ←
            references inline stage next inputs
          .ok ((input.id, .slot slot) :: references, cells)
      | none => do
          let value ← stage.value input
          if inline then
            let (references, cells) ←
              references inline stage next inputs
            .ok
              ((input.id, .literal value) :: references,
                cells)
          else
            let (references, cells) ←
              references inline stage (next + 1) inputs
            .ok
              ((input.id, .cell next) :: references,
                (⟨stage.id, input.id⟩, value) :: cells)

end Stage

------------------------------------------------------------
-- Assembly
------------------------------------------------------------

/-
  What the stages so far leave behind: the variables that
  hold their outputs, newest first, the latest output, and
  the number of cells.
-/
structure Outputs where
  named : List (String × Var)
  latest : Var
  cells : Nat

namespace Outputs

/- Nothing has run. -/
def start : Outputs := ⟨[], .state, 0⟩

/-
  The variable of a source.  Without a source, or with one
  that has not run, it is the latest output.
-/
def read
    (outputs : Outputs) : Option String → Var
  | none => outputs.latest
  | some id =>
      if id = startId then
        .state
      else
        (outputs.named.lookup id).getD outputs.latest

/- A stage leaves its output in a variable. -/
def push
    (outputs : Outputs)
    (id : String)
    (var : Var)
    (cells : Nat) : Outputs :=
  ⟨(id, var) :: outputs.named, var, outputs.cells + cells⟩

end Outputs

namespace Program

/-
  The program of the stages from a number on.  Every stage
  must have a known kind, enabled or not.
-/
def assemble
    (catalog : Catalog)
    (inline : Bool) :
    Nat → Outputs → Pipeline → Except Failure Program
  | _, outputs, [] => .ok ⟨[], outputs.latest, []⟩
  | index, outputs, stage :: rest =>
      match catalog.find? stage.kind with
      | none => .error (.unknownKind stage.id stage.kind)
      | some kind =>
          let inputA := outputs.read stage.sources.a
          if stage.enabled then do
            let inputB :=
              match kind.arity with
              | .single => none
              | .dual =>
                  stage.sources.b.map fun id =>
                    outputs.read (some id)
            let (references, cells) ←
              stage.references inline outputs.cells
                kind.inputs
            let program ←
              assemble catalog inline (index + 1)
                (outputs.push stage.id (.stage index)
                  cells.length)
                rest
            let block : Block :=
              { index := index
                node := stage.id
                kind := stage.kind
                inputA := inputA
                inputB := inputB
                references := references
                guard :=
                  stage.guard.filter fun g =>
                    g.active && g.valid
                body := kind.body }
            .ok
              { program with
                blocks := block :: program.blocks
                cells := cells ++ program.cells }
          else
            assemble catalog inline (index + 1)
              (outputs.push stage.id inputA 0) rest

/- The program of a pipeline. -/
def ofPipeline
    (catalog : Catalog)
    (inline : Bool)
    (pipeline : Pipeline) : Except Failure Program :=
  assemble catalog inline 0 .start pipeline

end Program

end FractalShader
