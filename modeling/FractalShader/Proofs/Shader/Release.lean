import FractalShader.Proofs.Shader.Recovery

/-
  What a slot means for the program of a pipeline.

  The slot of an input that the kind declares takes one cell
  from the array and gives one reference to the slot instead.
  A slot under any other name is not read at all.  Either way
  a pipeline without the slot is of another structure.

  Main declarations:
    * `Stage.release`
    * `Stage.references_release`
    * `Program.ofPipeline_release`
    * `Pipeline.sameStructure_release`
    * `Program.bound`
    * `Program.Assembles.bound_eq`
    * `Settings.declarations_inj`
    * `Fragment.declarations_release`
-/

------------------------------------------------------------
-- Stages
------------------------------------------------------------

namespace FractalShader

namespace Stage

/- The stage without a slot under a name. -/
def release
    (stage : Stage)
    (name : String) : Stage :=
  { stage with
    bindings := Bindings.assign stage.bindings name none }

variable {stage : Stage} {name : String}

theorem slot?_release
    (stage : Stage)
    (name : String)
    (input : Input) :
    (stage.release name).slot? input =
      if input.id = name then none else stage.slot? input :=
  Bindings.slot?_assign stage.bindings name input.id none

/- Inputs of other names read what they read before. -/
theorem references_release
    {inputs : List Input}
    (hOther : name ∉ inputs.map Input.id)
    (inline : Bool)
    (next : Nat) :
    (stage.release name).references inline next inputs =
      stage.references inline next inputs := by
  induction inputs generalizing next with
  | nil => rfl
  | cons input inputs ih =>
      rw [List.map_cons, List.mem_cons, not_or] at hOther
      have hSlot :
          (stage.release name).slot? input =
            stage.slot? input := by
        rw [slot?_release, if_neg fun hEq => hOther.1 hEq.symm]
      have hValue :
          (stage.release name).value input =
            stage.value input := rfl
      have hRest := ih hOther.2
      simp only [references, hSlot, hValue, hRest]
      rfl

/- The input that has lost its slot is one more without. -/
theorem length_unbound_release
    {inputs : List Input}
    {input : Input}
    (hInput : input ∈ inputs)
    (hSlot : stage.slot? input ≠ none) :
    (stage.unbound inputs).length <
      ((stage.release input.id).unbound inputs).length := by
  have hKept :
      ∀ other : Input,
        (stage.slot? other).isNone = true →
          ((stage.release input.id).slot? other).isNone =
            true := by
    intro other hNone
    rw [slot?_release]
    split
    · rfl
    · exact hNone
  have hSublist :
      (stage.unbound inputs).Sublist
        ((stage.release input.id).unbound inputs) :=
    List.monotone_filter_right inputs hKept
  apply Nat.lt_of_le_of_ne hSublist.length_le
  intro hLength
  have hMem :
      input ∈ (stage.release input.id).unbound inputs := by
    refine List.mem_filter.mpr ⟨hInput, ?_⟩
    rw [slot?_release, if_pos rfl]
    rfl
  rw [← hSublist.eq_of_length hLength] at hMem
  have hNone := (List.mem_filter.mp hMem).2
  exact hSlot (Option.isNone_iff_eq_none.mp hNone)

/- A stage with a slot less is of another structure. -/
theorem sameStructure_release
    (hSlot : Bindings.slot? stage.bindings name ≠ none) :
    (stage.release name).sameStructure stage = false := by
  cases hSame : (stage.release name).sameStructure stage with
  | false => rfl
  | true =>
      simp only [sameStructure, Bool.and_eq_true,
        beq_iff_eq] at hSame
      have hRead := Bindings.slot?_congr hSame.1.2 name
      rw [release, Bindings.slot?_assign, if_pos rfl] at hRead
      exact absurd hRead.symm hSlot

end Stage

/- So is a pipeline with such a stage. -/
theorem Pipeline.sameStructure_release
    {stage : Stage}
    {name : String}
    (hSlot : Bindings.slot? stage.bindings name ≠ none)
    (before after : Pipeline) :
    sameStructure (before ++ stage.release name :: after)
        (before ++ stage :: after) =
      false := by
  induction before with
  | nil =>
      rw [List.nil_append, List.nil_append, sameStructure,
        compareBy, Stage.sameStructure_release hSlot,
        Bool.false_and]
  | cons first before ih =>
      rw [sameStructure] at ih
      rw [List.cons_append, List.cons_append, sameStructure,
        compareBy, ih, Bool.and_false]

end FractalShader

------------------------------------------------------------
-- Slots That Are Not Read
------------------------------------------------------------

namespace FractalShader

namespace Program

variable {catalog : Catalog} {inline : Bool}
variable {stage other : Stage} {after : Pipeline}

/- Stages that are assembled alike can be exchanged. -/
theorem assemble_congr
    (h :
      ∀ index outputs,
        assemble catalog inline index outputs
            (stage :: after) =
          assemble catalog inline index outputs
            (other :: after))
    (before : Pipeline)
    (index : Nat)
    (outputs : Outputs) :
    assemble catalog inline index outputs
        (before ++ stage :: after) =
      assemble catalog inline index outputs
        (before ++ other :: after) := by
  induction before generalizing index outputs with
  | nil => exact h index outputs
  | cons first before ih =>
      rw [List.cons_append, List.cons_append]
      simp only [assemble, ih]

/- A slot under a name that is not declared is not read. -/
theorem ofPipeline_release
    {name : String}
    (hOther :
      name ∉ (catalog.inputs stage.kind).map Input.id)
    (inline : Bool)
    (before after : Pipeline) :
    ofPipeline catalog inline
        (before ++ stage.release name :: after) =
      ofPipeline catalog inline
        (before ++ stage :: after) := by
  apply assemble_congr
  intro index outputs
  cases hKind : catalog.find? stage.kind with
  | none =>
      have hReleased :
          catalog.find? (stage.release name).kind = none :=
        hKind
      simp only [assemble, hKind, hReleased]
      rfl
  | some kind =>
      have hReleased :
          catalog.find? (stage.release name).kind =
            some kind :=
        hKind
      rw [Catalog.inputs_eq hKind] at hOther
      cases hEnabled : stage.enabled with
      | true =>
          rw [assemble_bind hKind hEnabled,
            assemble_bind hReleased hEnabled,
            Stage.references_release hOther]
          rfl
      | false =>
          rw [assemble_disabled hKind hEnabled,
            assemble_disabled hReleased hEnabled]
          rfl

end Program

end FractalShader

------------------------------------------------------------
-- Slots That Are Read
------------------------------------------------------------

namespace FractalShader

/- A reference that leads to a slot. -/
def Reference.isSlot : Reference → Bool
  | .slot _ => true
  | _ => false

namespace Program

/- What the inputs of all blocks read, in order. -/
def references
    (program : Program) : List (String × Reference) :=
  program.blocks.flatMap fun block => block.references

/- How many inputs read a slot. -/
def bound (program : Program) : Nat :=
  program.references.countP fun entry => entry.2.isSlot

variable {catalog : Catalog} {inline : Bool} {index : Nat}
variable {outputs : Outputs} {p : Pipeline}
variable {program : Program}

/- An input reads a slot when and only when it has one. -/
theorem bound_of_references
    {stage : Stage}
    {next : Nat}
    {inputs : List Input}
    {references : List (String × Reference)}
    {cells : List (Cell × F32)}
    (h :
      stage.references inline next inputs =
        .ok (references, cells)) :
    (references.countP fun entry => entry.2.isSlot) +
        (stage.unbound inputs).length =
      inputs.length := by
  have hSteps := Stage.refers_of_references h
  clear h
  induction hSteps with
  | nil => rfl
  | slot hSlot _ ih =>
      rw [Stage.unbound_cons_of_some hSlot,
        List.countP_cons_of_pos rfl, List.length_cons]
      omega
  | literal _ hSlot _ _ ih | cell _ hSlot _ _ ih =>
      rw [Stage.unbound_cons_of_none hSlot,
        List.countP_cons_of_neg (by simp [Reference.isSlot]),
        List.length_cons, List.length_cons]
      omega

/- The inputs that the enabled stages declare. -/
def declared
    (catalog : Catalog)
    (p : Pipeline) : List Input :=
  (p.filter fun stage => stage.enabled).flatMap fun stage =>
    catalog.inputs stage.kind

/- Of all inputs some read a slot, and the others have none. -/
theorem Assembles.bound_eq
    (h : Assembles catalog inline index outputs p program) :
    program.bound + (catalog.unbound p).length =
      (declared catalog p).length := by
  induction h with
  | nil => rfl
  | @enabled _ _ stage rest _ _ _ _ hKind hEnabled hFound _
      ih =>
      have hHere := bound_of_references hFound
      rw [Catalog.unbound_cons_of_enabled hEnabled,
        Catalog.inputs_eq hKind, List.length_append,
        List.length_map]
      simp only [declared, bound, references,
        List.filter_cons, hEnabled, if_true,
        List.flatMap_cons, List.countP_append,
        List.length_append, Catalog.inputs_eq hKind,
        Stage.block] at ih ⊢
      omega
  | disabled _ hDisabled _ ih =>
      rw [Catalog.unbound_cons_of_disabled hDisabled, ih]
      simp [declared, hDisabled]

/- Losing a slot changes no inputs. -/
theorem declared_release
    (stage : Stage)
    (name : String)
    (before after : Pipeline) :
    declared catalog (before ++ stage.release name :: after) =
      declared catalog (before ++ stage :: after) := by
  simp only [declared, List.filter_append,
    List.flatMap_append, List.filter_cons]
  cases hEnabled : stage.enabled with
  | true => simp [Stage.release, hEnabled]
  | false => simp [Stage.release, hEnabled]

/- The input that has lost its slot needs a cell. -/
theorem length_unbound_release
    {stage : Stage}
    {input : Input}
    (hInput : input ∈ catalog.inputs stage.kind)
    (hEnabled : stage.enabled = true)
    (hSlot : stage.slot? input ≠ none)
    (before after : Pipeline) :
    (catalog.unbound (before ++ stage :: after)).length <
      (catalog.unbound
        (before ++ stage.release input.id ::
          after)).length := by
  have hReleased : (stage.release input.id).enabled = true :=
    hEnabled
  have hMore := Stage.length_unbound_release hInput hSlot
  rw [Catalog.unbound_append, Catalog.unbound_append,
    Catalog.unbound_cons_of_enabled hEnabled,
    Catalog.unbound_cons_of_enabled hReleased]
  simp only [List.length_append, List.length_map]
  change
    _ <
      _ +
        (((stage.release input.id).unbound
          (catalog.inputs stage.kind)).length + _)
  omega

/- The inputs of a program without the slot read otherwise. -/
theorem references_release
    {stage : Stage}
    {input : Input}
    (hInput : input ∈ catalog.inputs stage.kind)
    (hEnabled : stage.enabled = true)
    (hSlot : stage.slot? input ≠ none)
    {before after : Pipeline}
    {released : Program}
    (h :
      ofPipeline catalog inline
          (before ++ stage :: after) =
        .ok program)
    (hReleased :
      ofPipeline catalog inline
          (before ++ stage.release input.id :: after) =
        .ok released) :
    released.references ≠ program.references := by
  intro hSame
  have hBound := (assembles_of_assemble h).bound_eq
  have hOther := (assembles_of_assemble hReleased).bound_eq
  have hMore :=
    length_unbound_release hInput hEnabled hSlot before after
  rw [declared_release, bound, hSame] at hOther
  rw [bound] at hBound
  omega

end Program

/- The declarations tell how many cells there are. -/
theorem Settings.declarations_inj
    {settings : Settings}
    {n m : Nat}
    (h : settings.declarations n = settings.declarations m) :
    n = m := by
  simp only [Settings.declarations, String.append_left_inj]
    at h
  have hArray :
      ∀ k : Nat,
        "uniform float " ++ settings.paramArray ++ "[" ++
            toString k ++ "];\n" ≠
          "" := by
    intro k hEmpty
    have hLength := congrArg String.length hEmpty
    simp at hLength
  by_cases hn : n = 0
  · by_cases hm : m = 0
    · rw [hn, hm]
    · rw [if_pos hn, if_neg hm] at h
      exact absurd h.symm (hArray m)
  · by_cases hm : m = 0
    · rw [if_neg hn, if_pos hm] at h
      exact absurd h (hArray n)
    · rw [if_neg hn, if_neg hm] at h
      simp only [String.append_left_inj,
        String.append_right_inj] at h
      exact Lines.toString_inj h

/- With values in uniforms the declarations differ, too. -/
theorem Fragment.declarations_release
    {catalog : Catalog}
    {settings : Settings}
    (hInline : settings.inlineLiterals = false)
    {stage : Stage}
    {input : Input}
    (hInput : input ∈ catalog.inputs stage.kind)
    (hEnabled : stage.enabled = true)
    (hSlot : stage.slot? input ≠ none)
    {before after : Pipeline}
    {f released : Fragment}
    (h :
      ofPipeline catalog settings (before ++ stage :: after) =
        .ok f)
    (hReleased :
      ofPipeline catalog settings
          (before ++ stage.release input.id :: after) =
        .ok released) :
    released.declarations ≠ f.declarations := by
  rcases exists_program h with ⟨program, hProgram, rfl⟩
  rcases exists_program hReleased with ⟨other, hOther, rfl⟩
  intro hSame
  have hLength := Settings.declarations_inj hSame
  rw [hInline] at hProgram hOther
  rw [(Program.assembles_of_assemble hProgram).cells_eq,
    (Program.assembles_of_assemble hOther).cells_eq,
    List.length_map, List.length_map] at hLength
  have hMore :=
    Program.length_unbound_release hInput hEnabled hSlot before
      after
  omega

end FractalShader
