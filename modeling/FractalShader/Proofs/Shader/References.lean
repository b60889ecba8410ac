import FractalShader.Proofs.Shader.Values

/-
  What the blocks of a program read for the inputs of their
  stages.

  Each input has a reference.  A bound input reads its slot;
  any other reads its value, from the text or from the cell
  of the array that carries it.

  Main declarations:
    * `Reference.Reads`
    * `Stage.Read`
    * `Stage.read_of_references`
    * `Program.read_of_assemble`
    * `Program.nodes_of_assemble`
    * `Program.read_of_block`
-/

------------------------------------------------------------
-- References
------------------------------------------------------------

namespace FractalShader

/-
  A reference has the value of an input as literal, or leads
  to a cell that carries it.  The cells are those from a
  number on.
-/
def Reference.Reads
    (first : Nat)
    (cells : List (Cell × F32))
    (cell : Cell)
    (value : F32) : Reference → Prop
  | .literal written => written = value
  | .cell index =>
      ∃ place,
        index = first + place ∧
          cells[place]? = some (cell, value)
  | .slot _ => False

namespace Reference

variable {first : Nat} {cell : Cell} {value : F32}
variable {reference : Reference}

/- More cells after those at hand change nothing. -/
theorem Reads.append
    {cells : List (Cell × F32)}
    (h : reference.Reads first cells cell value)
    (later : List (Cell × F32)) :
    reference.Reads first (cells ++ later) cell value := by
  cases reference with
  | literal written => exact h
  | slot slot => cases h
  | cell index =>
      rcases h with ⟨place, hIndex, hCell⟩
      rcases List.getElem?_eq_some_iff.mp hCell with
        ⟨hPlace, _⟩
      refine ⟨place, hIndex, ?_⟩
      rw [List.getElem?_append_left hPlace]
      exact hCell

/- Cells in front move the first number down. -/
theorem Reads.prepend
    (earlier : List (Cell × F32))
    {cells : List (Cell × F32)}
    (h :
      reference.Reads (first + earlier.length) cells cell
        value) :
    reference.Reads first (earlier ++ cells) cell value := by
  cases reference with
  | literal written => exact h
  | slot slot => cases h
  | cell index =>
      rcases h with ⟨place, hIndex, hCell⟩
      refine ⟨earlier.length + place, by omega, ?_⟩
      rw [List.getElem?_append_right (by omega)]
      simpa using hCell

end Reference

end FractalShader

------------------------------------------------------------
-- Stages
------------------------------------------------------------

namespace FractalShader

namespace Stage

/-
  Some reference stands under an input: its slot if it is
  bound, and otherwise one that reads its value.
-/
def Read
    (stage : Stage)
    (first : Nat)
    (cells : List (Cell × F32))
    (references : List (String × Reference))
    (input : Input) : Prop :=
  ∃ reference,
    (input.id, reference) ∈ references ∧
      match stage.slot? input with
      | some slot => reference = .slot slot
      | none =>
          ∃ value,
            stage.value input = .ok value ∧
              reference.Reads first cells ⟨stage.id, input.id⟩
                value

variable {stage : Stage} {first : Nat} {input : Input}
variable {references : List (String × Reference)}

/- What is read stays read among more references and cells. -/
theorem Read.mono
    {cells : List (Cell × F32)}
    (h : stage.Read first cells references input)
    {second : Nat}
    {allCells : List (Cell × F32)}
    {allReferences : List (String × Reference)}
    (hReferences :
      ∀ entry ∈ references, entry ∈ allReferences)
    (hReads :
      ∀ (reference : Reference) cell value,
        reference.Reads first cells cell value →
          reference.Reads second allCells cell value) :
    stage.Read second allCells allReferences input := by
  rcases h with ⟨reference, hMem, hReference⟩
  refine ⟨reference, hReferences _ hMem, ?_⟩
  split at hReference
  · exact hReference
  · rcases hReference with ⟨value, hValue, hRead⟩
    exact ⟨value, hValue, hReads _ _ _ hRead⟩

/- The references of a stage read all inputs. -/
theorem read_of_references
    {inline : Bool}
    {inputs : List Input}
    {cells : List (Cell × F32)}
    (h :
      stage.references inline first inputs =
        .ok (references, cells)) :
    ∀ input ∈ inputs,
      stage.Read first cells references input := by
  have hSteps := refers_of_references h
  clear h
  induction hSteps with
  | nil => simp
  | slot hSlot _ ih =>
      intro input hInput
      rcases List.mem_cons.mp hInput with rfl | hLater
      · refine ⟨_, List.mem_cons_self, ?_⟩
        rw [hSlot]
      · exact
          (ih input hLater).mono
            (fun _ => List.mem_cons_of_mem _)
            (fun _ _ _ hReads => hReads)
  | literal _ hSlot hValue _ ih =>
      intro input hInput
      rcases List.mem_cons.mp hInput with rfl | hLater
      · refine ⟨_, List.mem_cons_self, ?_⟩
        rw [hSlot]
        exact ⟨_, hValue, rfl⟩
      · exact
          (ih input hLater).mono
            (fun _ => List.mem_cons_of_mem _)
            (fun _ _ _ hReads => hReads)
  | cell _ hSlot hValue _ ih =>
      intro input hInput
      rcases List.mem_cons.mp hInput with rfl | hLater
      · refine ⟨_, List.mem_cons_self, ?_⟩
        rw [hSlot]
        exact ⟨_, hValue, 0, rfl, rfl⟩
      · exact
          (ih input hLater).mono
            (fun _ => List.mem_cons_of_mem _)
            (fun _ _ _ => Reference.Reads.prepend [_])

end Stage

end FractalShader

------------------------------------------------------------
-- Programs
------------------------------------------------------------

namespace FractalShader

namespace Program

variable {catalog : Catalog} {inline : Bool} {index : Nat}
variable {outputs : Outputs} {pipeline : Pipeline}
variable {program : Program}

/- Every block is that of a stage, and reads its inputs. -/
theorem read_of_assemble
    (h :
      assemble catalog inline index outputs pipeline =
        .ok program) :
    ∀ block ∈ program.blocks,
      ∃ stage ∈ pipeline, ∃ kind,
        block.node = stage.id ∧
          catalog.find? stage.kind = some kind ∧
          ∀ input ∈ kind.inputs,
            stage.Read outputs.cells program.cells
              block.references input := by
  have hSteps := assembles_of_assemble h
  clear h
  induction hSteps with
  | nil => simp
  | @enabled _ _ stage _ kind _ cells _ hKind _ hFound _ ih =>
      intro block hBlock
      rcases List.mem_cons.mp hBlock with rfl | hLater
      · refine
          ⟨stage, List.mem_cons_self, kind, rfl, hKind, ?_⟩
        intro input hInput
        exact
          (Stage.read_of_references hFound input hInput).mono
            (fun _ hMem => hMem)
            (fun _ _ _ hReads => hReads.append _)
      · rcases ih block hLater with
          ⟨later, hMem, other, hNode, hOther, hRead⟩
        refine
          ⟨later, List.mem_cons_of_mem _ hMem, other, hNode,
            hOther, ?_⟩
        intro input hInput
        exact
          (hRead input hInput).mono (fun _ hMem => hMem)
            (fun _ _ _ => Reference.Reads.prepend cells)
  | disabled _ _ _ ih =>
      intro block hBlock
      rcases ih block hBlock with ⟨later, hMem, hLater⟩
      exact ⟨later, List.mem_cons_of_mem _ hMem, hLater⟩

/- The blocks are those of the enabled stages, in order. -/
theorem nodes_of_assemble
    (h :
      assemble catalog inline index outputs pipeline =
        .ok program) :
    program.blocks.map (fun block => block.node) =
      (pipeline.filter (fun stage => stage.enabled)).map
        (fun stage => stage.id) := by
  have hSteps := assembles_of_assemble h
  clear h
  induction hSteps with
  | nil => rfl
  | enabled _ hEnabled _ _ ih =>
      rw [List.filter_cons, if_pos hEnabled, List.map_cons,
        List.map_cons, ih]
      rfl
  | disabled _ hDisabled _ ih =>
      rw [List.filter_cons, if_neg (by simp [hDisabled]), ih]

/- An enabled stage has a block. -/
theorem exists_block_of_stage
    (h :
      assemble catalog inline index outputs pipeline =
        .ok program)
    {stage : Stage}
    (hStage : stage ∈ pipeline)
    (hEnabled : stage.enabled = true) :
    ∃ block ∈ program.blocks, block.node = stage.id := by
  have hListed :
      stage.id ∈
        program.blocks.map (fun block => block.node) := by
    rw [nodes_of_assemble h]
    exact
      List.mem_map_of_mem
        (List.mem_filter.mpr ⟨hStage, hEnabled⟩)
  exact List.mem_map.mp hListed

/- A block reads the inputs of the stage that it is for. -/
theorem read_of_block
    (h :
      assemble catalog inline index outputs pipeline =
        .ok program)
    (hNodup : (pipeline.map (fun stage => stage.id)).Nodup)
    {stage : Stage}
    (hStage : stage ∈ pipeline)
    {kind : Kind}
    (hKnown : catalog.find? stage.kind = some kind)
    {input : Input}
    (hInput : input ∈ kind.inputs)
    {block : Block}
    (hBlock : block ∈ program.blocks)
    (hNode : block.node = stage.id) :
    stage.Read outputs.cells program.cells block.references
      input := by
  rcases read_of_assemble h block hBlock with
    ⟨other, hOther, found, hOtherNode, hFound, hRead⟩
  have hSame : other = stage :=
    List.inj_on_of_nodup_map hNodup hOther hStage
      (hOtherNode.symm.trans hNode)
  subst hSame
  rw [hKnown] at hFound
  cases hFound
  exact hRead input hInput

end Program

end FractalShader
