import FractalShader.Proofs.Answers
import FractalShader.Shader.Fragment

/-
  How a program is put together, one stage at a time, and
  the references of a stage one input at a time.

  A stage that is enabled adds a block, its cells and a new
  variable; one that is not passes on what it would have
  read.  An input reads its slot, or its value from the text
  or from the next cell.  What holds of a program is shown by
  induction over these steps.

  Main declarations:
    * `Stage.Refers`
    * `Stage.refers_of_references`
    * `Stage.block`
    * `Program.assemble_enabled`
    * `Program.assemble_disabled`
    * `Program.Assembles`
    * `Program.assembles_of_assemble`
    * `Block.param_scope`
-/

------------------------------------------------------------
-- Inputs of a Stage
------------------------------------------------------------

namespace FractalShader

namespace Stage

/-
  The steps in which references come about: the number of
  the next cell, the inputs to come, their references, and
  the cells that they add.
-/
inductive Refers
    (inline : Bool)
    (stage : Stage) :
    Nat → List Input → List (String × Reference) →
      List (Cell × F32) → Prop where
  | nil
      (next : Nat) :
      Refers inline stage next [] [] []
  | slot
      {next : Nat}
      {input : Input}
      {inputs : List Input}
      {slot : Slot}
      {references : List (String × Reference)}
      {cells : List (Cell × F32)}
      (hSlot : stage.slot? input = some slot)
      (hRest :
        Refers inline stage next inputs references cells) :
      Refers inline stage next (input :: inputs)
        ((input.id, .slot slot) :: references) cells
  | literal
      {next : Nat}
      {input : Input}
      {inputs : List Input}
      {value : F32}
      {references : List (String × Reference)}
      {cells : List (Cell × F32)}
      (hInline : inline = true)
      (hSlot : stage.slot? input = none)
      (hValue : stage.value input = .ok value)
      (hRest :
        Refers inline stage next inputs references cells) :
      Refers inline stage next (input :: inputs)
        ((input.id, .literal value) :: references) cells
  | cell
      {next : Nat}
      {input : Input}
      {inputs : List Input}
      {value : F32}
      {references : List (String × Reference)}
      {cells : List (Cell × F32)}
      (hInline : inline = false)
      (hSlot : stage.slot? input = none)
      (hValue : stage.value input = .ok value)
      (hRest :
        Refers inline stage (next + 1) inputs references
          cells) :
      Refers inline stage next (input :: inputs)
        ((input.id, .cell next) :: references)
        ((⟨stage.id, input.id⟩, value) :: cells)

theorem refers_of_references
    {inline : Bool}
    {stage : Stage}
    {next : Nat}
    {inputs : List Input}
    {references : List (String × Reference)}
    {cells : List (Cell × F32)}
    (h :
      stage.references inline next inputs =
        .ok (references, cells)) :
    Refers inline stage next inputs references cells := by
  induction inputs generalizing next references cells with
  | nil =>
      cases h
      exact .nil next
  | cons input inputs ih =>
      rw [Stage.references] at h
      split at h
      · rename_i slot hSlot
        rcases Answers.bind_eq_ok_iff.mp h with
          ⟨_, hRest, hEq⟩
        cases hEq
        exact .slot hSlot (ih hRest)
      · rename_i hSlot
        rcases Answers.bind_eq_ok_iff.mp h with
          ⟨value, hValue, h⟩
        split at h
        · rename_i hInline
          rcases Answers.bind_eq_ok_iff.mp h with
            ⟨_, hRest, hEq⟩
          cases hEq
          exact .literal hInline hSlot hValue (ih hRest)
        · rename_i hInline
          rcases Answers.bind_eq_ok_iff.mp h with
            ⟨_, hRest, hEq⟩
          cases hEq
          exact
            .cell (by simpa using hInline) hSlot hValue
              (ih hRest)

end Stage

end FractalShader

------------------------------------------------------------
-- One Stage
------------------------------------------------------------

namespace FractalShader

/- The block of an enabled stage. -/
def Stage.block
    (stage : Stage)
    (kind : Kind)
    (index : Nat)
    (outputs : Outputs)
    (references : List (String × Reference)) : Block where
  index := index
  node := stage.id
  kind := stage.kind
  inputA := outputs.read stage.sources.a
  inputB :=
    match kind.arity with
    | .single => none
    | .dual =>
        stage.sources.b.map fun id => outputs.read (some id)
  references := references
  guard := stage.guard.filter fun g => g.active && g.valid
  body := kind.body

namespace Program

variable
  {catalog : Catalog}
  {inline : Bool}
  {index : Nat}
  {outputs : Outputs}
  {stage : Stage}
  {rest : Pipeline}
  {kind : Kind}

/- An enabled stage comes before what is left of the program. -/
theorem assemble_bind
    (hKind : catalog.find? stage.kind = some kind)
    (hEnabled : stage.enabled = true) :
    assemble catalog inline index outputs (stage :: rest) =
      (stage.references inline outputs.cells kind.inputs >>=
        fun found =>
          assemble catalog inline (index + 1)
              (outputs.push stage.id (.stage index)
                found.2.length)
              rest >>=
            fun program =>
              .ok
                { program with
                  blocks :=
                    stage.block kind index outputs found.1 ::
                      program.blocks
                  cells := found.2 ++ program.cells }) := by
  rw [assemble]
  simp only [hKind, hEnabled, if_true]
  rfl

/- An enabled stage adds a block and has a new variable. -/
theorem assemble_enabled
    (hKind : catalog.find? stage.kind = some kind)
    (hEnabled : stage.enabled = true)
    {references : List (String × Reference)}
    {cells : List (Cell × F32)}
    (hFound :
      stage.references inline outputs.cells kind.inputs =
        .ok (references, cells))
    {program : Program}
    (hRest :
      assemble catalog inline (index + 1)
          (outputs.push stage.id (.stage index) cells.length)
          rest =
        .ok program) :
    assemble catalog inline index outputs (stage :: rest) =
      .ok
        { program with
          blocks :=
            stage.block kind index outputs references ::
              program.blocks
          cells := cells ++ program.cells } := by
  rw [assemble_bind hKind hEnabled, hFound]
  simp only [bind, Except.bind, hRest]

/- A disabled stage passes on what it would have read. -/
theorem assemble_disabled
    (hKind : catalog.find? stage.kind = some kind)
    (hDisabled : stage.enabled = false) :
    assemble catalog inline index outputs (stage :: rest) =
      assemble catalog inline (index + 1)
        (outputs.push stage.id (outputs.read stage.sources.a)
          0)
        rest := by
  rw [assemble]
  simp [hKind, hDisabled]

end Program

end FractalShader

------------------------------------------------------------
-- All Stages
------------------------------------------------------------

namespace FractalShader

namespace Program

/-
  The steps in which a program comes about: the number of
  the next stage, what has run, the stages to come, and the
  program made of them.
-/
inductive Assembles
    (catalog : Catalog)
    (inline : Bool) :
    Nat → Outputs → Pipeline → Program → Prop where
  | nil
      (index : Nat)
      (outputs : Outputs) :
      Assembles catalog inline index outputs []
        ⟨[], outputs.latest, []⟩
  | enabled
      {index : Nat}
      {outputs : Outputs}
      {stage : Stage}
      {rest : Pipeline}
      {kind : Kind}
      {references : List (String × Reference)}
      {cells : List (Cell × F32)}
      {program : Program}
      (hKind : catalog.find? stage.kind = some kind)
      (hEnabled : stage.enabled = true)
      (hFound :
        stage.references inline outputs.cells kind.inputs =
          .ok (references, cells))
      (hRest :
        Assembles catalog inline (index + 1)
          (outputs.push stage.id (.stage index) cells.length)
          rest program) :
      Assembles catalog inline index outputs (stage :: rest)
        { program with
          blocks :=
            stage.block kind index outputs references ::
              program.blocks
          cells := cells ++ program.cells }
  | disabled
      {index : Nat}
      {outputs : Outputs}
      {stage : Stage}
      {rest : Pipeline}
      {kind : Kind}
      {program : Program}
      (hKind : catalog.find? stage.kind = some kind)
      (hDisabled : stage.enabled = false)
      (hRest :
        Assembles catalog inline (index + 1)
          (outputs.push stage.id
            (outputs.read stage.sources.a) 0)
          rest program) :
      Assembles catalog inline index outputs (stage :: rest)
        program

theorem assembles_of_assemble
    {catalog : Catalog}
    {inline : Bool}
    {index : Nat}
    {outputs : Outputs}
    {pipeline : Pipeline}
    {program : Program}
    (h :
      assemble catalog inline index outputs pipeline =
        .ok program) :
    Assembles catalog inline index outputs pipeline
      program := by
  induction pipeline generalizing index outputs program with
  | nil =>
      cases h
      exact .nil index outputs
  | cons stage rest ih =>
      rw [assemble] at h
      split at h
      · cases h
      · rename_i kind hKind
        dsimp only at h
        split at h
        · rename_i hEnabled
          rcases Answers.bind_eq_ok_iff.mp h with
            ⟨⟨references, cells⟩, hFound, h⟩
          rcases Answers.bind_eq_ok_iff.mp h with
            ⟨tail, hTail, hEq⟩
          cases hEq
          exact .enabled hKind hEnabled hFound (ih hTail)
        · rename_i hDisabled
          exact
            .disabled hKind (by simpa using hDisabled) (ih h)

end Program

end FractalShader

------------------------------------------------------------
-- What a Block Hands On
------------------------------------------------------------

namespace FractalShader

/- A block hands on the references under their ids. -/
theorem Block.param_scope
    (settings : Settings)
    {block : Block}
    (hNodup : (block.references.map Prod.fst).Nodup)
    {input : String}
    {reference : Reference}
    (h : (input, reference) ∈ block.references) :
    (block.scope settings).param input =
      reference.text settings := by
  have hKeys :
      ((block.references.map fun r =>
          (r.1, r.2.text settings)).reverse.map
        Prod.fst).Nodup := by
    rw [List.map_reverse, List.nodup_reverse, List.map_map]
    exact hNodup
  have hMem :
      (input, reference.text settings) ∈
        (block.references.map fun r =>
          (r.1, r.2.text settings)).reverse := by
    rw [List.mem_reverse]
    exact List.mem_map_of_mem h
  have hFound := Answers.find?_eq_some hKeys hMem
  simp only at hFound
  rw [Scope.param, scope, Dict.get?_ofList, hFound]
  rfl

/- What it hands on for an input is zero or a reference. -/
theorem Block.param_cases
    (settings : Settings)
    (block : Block)
    (input : String) :
    (block.scope settings).param input = "0.0" ∨
      ∃ r ∈ block.references,
        (block.scope settings).param input =
          r.2.text settings := by
  rw [Scope.param, scope, Dict.get?_ofList]
  cases hFound :
      (block.references.map fun r =>
        (r.1, r.2.text settings)).reverse.find?
          (fun e => e.1 == input) with
  | none => exact Or.inl rfl
  | some entry =>
      have hMem := List.mem_of_find?_eq_some hFound
      rw [List.mem_reverse, List.mem_map] at hMem
      rcases hMem with ⟨r, hReference, rfl⟩
      exact Or.inr ⟨r, hReference, rfl⟩

end FractalShader
