import FractalShader.Proofs.Catalog.Limits
import FractalShader.Proofs.Session.Rejections
import FractalShader.Proofs.Shader.Layout

/-
  Every value that reaches the renderer is finite and within
  the limits of its input, whatever the stages of a pipeline
  store.

  A value is read on two paths: by the program of a pipeline,
  which puts it into a cell or into the text, and from the
  layout of a program that was made earlier.  Both resolve
  the input of a stage.

  Main declarations:
    * `Input.Admits`
    * `Input.Admits.resolve_insert`
    * `Catalog.admits_resolve`
    * `Pipeline.Admits`
    * `Program.admits_of_assemble`
    * `Pipeline.confines_values`
-/

------------------------------------------------------------
-- Resolved Values
------------------------------------------------------------

namespace FractalShader

namespace Input

variable {input : Input} {value : F32}

/- A value that may be given to the renderer. -/
structure Admits
    (input : Input)
    (value : F32) : Prop where
  finite : value.isFinite = true
  within : input.Within value

/- What is resolved is the confined form of a finite value. -/
theorem exists_resolve_eq
    (hInitial : input.initial.isFinite = true)
    (params : Dict F32) :
    ∃ asked : F32,
      asked.isFinite = true ∧
        input.resolve params = input.confine asked := by
  unfold Input.resolve
  cases hStored :
      (params.get? input.id).filter Binary.isFinite with
  | none => exact ⟨input.initial, hInitial, rfl⟩
  | some stored =>
      exact
        ⟨stored, (Option.filter_eq_some_iff.mp hStored).2,
          rfl⟩

/- A value that is admitted is resolved to itself. -/
theorem Admits.resolve_insert
    (h : input.Admits value)
    (params : Dict F32) :
    input.resolve (params.insert input.id value) = value :=
  resolve_eq (by simp) h.finite h.within

end Input

namespace Catalog

/- What a built-in input resolves to is admitted. -/
theorem admits_resolve
    {id : String}
    {known : Kind}
    (h : builtIn.find? id = some known)
    {input : Input}
    (hInput : input ∈ known.inputs)
    (params : Dict F32) :
    input.Admits (input.resolve params) := by
  rcases finite_builtIn h input hInput with
    ⟨hInitial, hLimits⟩
  rcases Input.exists_resolve_eq hInitial params with
    ⟨asked, hAsked, hEq⟩
  have hFinite := Input.isFinite_confine hAsked hLimits
  rw [hEq]
  exact
    ⟨hFinite,
      Input.within_confine
        (proper_builtIn id known h input hInput) hFinite⟩

end Catalog

end FractalShader

------------------------------------------------------------
-- Values of a Pipeline
------------------------------------------------------------

namespace FractalShader

namespace Stage

/- A literal is the value of an input of the stage. -/
theorem value_of_literal
    {inline : Bool}
    {stage : Stage}
    {next : Nat}
    {inputs : List Input}
    {references : List (String × Reference)}
    {cells : List (Cell × F32)}
    (h :
      stage.references inline next inputs =
        .ok (references, cells))
    {name : String}
    {value : F32}
    (hLiteral : (name, .literal value) ∈ references) :
    ∃ input ∈ inputs,
      input.id = name ∧ stage.value input = .ok value := by
  have hSteps := refers_of_references h
  clear h
  induction hSteps with
  | nil => cases hLiteral
  | slot _ _ ih | cell _ _ _ _ ih =>
      rcases List.mem_cons.mp hLiteral with hHere | hLater
      · cases hHere
      · rcases ih hLater with ⟨input, hInput, hFound⟩
        exact ⟨input, List.mem_cons_of_mem _ hInput, hFound⟩
  | literal _ _ hValue _ ih =>
      rcases List.mem_cons.mp hLiteral with hHere | hLater
      · cases hHere
        exact ⟨_, List.mem_cons_self, rfl, hValue⟩
      · rcases ih hLater with ⟨input, hInput, hFound⟩
        exact ⟨input, List.mem_cons_of_mem _ hInput, hFound⟩

end Stage

namespace Pipeline

/-
  A stage of the pipeline declares the input of a cell and
  resolves it to a value that the input admits.
-/
def Admits
    (p : Pipeline)
    (cell : Cell)
    (value : F32) : Prop :=
  ∃ stage ∈ p,
    stage.id = cell.node ∧
      ∃ input,
        Catalog.builtIn.input? stage.kind cell.input =
            some input ∧
          input.resolve stage.params = value ∧
          input.Admits value

/- The value of a built-in input of a stage is admitted. -/
theorem admits_of_value
    {p : Pipeline}
    {stage : Stage}
    (hStage : stage ∈ p)
    {known : Kind}
    (hKnown : Catalog.builtIn.find? stage.kind = some known)
    {input : Input}
    (hInput : input ∈ known.inputs)
    {value : F32}
    (hValue : stage.value input = .ok value) :
    p.Admits ⟨stage.id, input.id⟩ value := by
  have hDistinct := Catalog.distinct_builtIn _ known hKnown
  have hFound :
      Catalog.builtIn.input? stage.kind input.id =
        some input := by
    rw [Catalog.input?, hKnown, Option.bind_some,
      Catalog.input?_eq_some hDistinct hInput]
  have hResolve := (Stage.value_eq_ok hValue).symm
  have hAdmits :=
    Catalog.admits_resolve hKnown hInput stage.params
  rw [hResolve] at hAdmits
  exact
    ⟨stage, hStage, rfl, input, hFound, hResolve, hAdmits⟩

/- A stage in front changes nothing for those behind it. -/
theorem Admits.cons
    {p : Pipeline}
    {cell : Cell}
    {value : F32}
    (h : Admits p cell value)
    (stage : Stage) :
    Admits (stage :: p) cell value := by
  rcases h with ⟨other, hOther, hAdmits⟩
  exact ⟨other, List.mem_cons_of_mem _ hOther, hAdmits⟩

end Pipeline

namespace Program

variable {inline : Bool} {index : Nat} {outputs : Outputs}
variable {p : Pipeline} {program : Program}

/- What the cells of a program carry is admitted. -/
theorem admits_of_assemble
    (h :
      assemble .builtIn inline index outputs p =
        .ok program) :
    ∀ entry ∈ program.cells, p.Admits entry.1 entry.2 := by
  intro entry hEntry
  rcases carries_of_assemble h entry hEntry with
    ⟨stage, hStage, kind, hKind, input, hInput, hCell, hValue⟩
  rw [hCell]
  exact Pipeline.admits_of_value hStage hKind hInput hValue

/- What stands in the text of a program is admitted. -/
theorem admits_literal
    (h :
      assemble .builtIn inline index outputs p =
        .ok program) :
    ∀ block ∈ program.blocks, ∀ name value,
      (name, .literal value) ∈ block.references →
        p.Admits ⟨block.node, name⟩ value := by
  have hSteps := assembles_of_assemble h
  clear h
  induction hSteps with
  | nil => simp
  | enabled hKind _ hFound _ ih =>
      intro block hBlock name value hLiteral
      rcases List.mem_cons.mp hBlock with rfl | hLater
      · rcases Stage.value_of_literal hFound hLiteral with
          ⟨input, hInput, rfl, hValue⟩
        exact
          Pipeline.admits_of_value List.mem_cons_self hKind
            hInput hValue
      · exact (ih block hLater name value hLiteral).cons _
  | disabled _ _ _ ih =>
      intro block hBlock name value hLiteral
      exact (ih block hBlock name value hLiteral).cons _

/- The cells of a fragment, each with its initial value. -/
theorem zip_fragment
    (program : Program)
    (settings : Settings) :
    (program.fragment settings).layout.zip
        (program.fragment settings).values =
      program.cells := by
  have hSplit := List.zip_unzip program.cells
  rwa [List.unzip_eq_map] at hSplit

end Program

/- A value that is handed out is admitted by its input. -/
theorem Catalog.admits_value
    {p : Pipeline}
    {cell : Cell}
    {stage : Stage}
    (hStage : p.stage? cell.node = some stage)
    {input : Input}
    (hInput :
      Catalog.builtIn.input? stage.kind cell.input =
        some input)
    {value : F32}
    (hValue : Catalog.builtIn.value p cell = .ok value) :
    input.Admits value := by
  simp only [Catalog.value, hStage, hInput] at hValue
  rcases Catalog.builtIn_input? hInput with
    ⟨known, hKnown, _, hListed, _⟩
  rw [Stage.value_eq_ok hValue]
  exact Catalog.admits_resolve hKnown hListed stage.params

namespace Pipeline

/-
  Whatever the stages of a pipeline store, its fragment
  carries and spells admitted values only, and the values
  that are handed out for any layout are admitted by the
  inputs that they are for.  A value that was resolved and
  is stored in turn is resolved to itself, with its sign.
-/
theorem confines_values (p : Pipeline) :
    (∀ settings fragment,
      Fragment.ofPipeline .builtIn settings p =
          .ok fragment →
        ∃ program,
          Program.ofPipeline .builtIn settings.inlineLiterals
              p =
            .ok program ∧
          fragment = program.fragment settings ∧
          fragment.values.length = fragment.layout.length ∧
          (∀ entry ∈ fragment.layout.zip fragment.values,
            p.Admits entry.1 entry.2) ∧
          ∀ block ∈ program.blocks, ∀ name value,
            (name, .literal value) ∈ block.references →
              p.Admits ⟨block.node, name⟩ value) ∧
      (∀ layout, ∃ values,
        Catalog.builtIn.values p layout = .ok values ∧
          values.length = layout.length ∧
          ∀ entry ∈ layout.zip values, ∀ stage input,
            p.stage? entry.1.node = some stage →
              Catalog.builtIn.input? stage.kind
                  entry.1.input =
                some input →
              input.Admits entry.2) ∧
      ∀ stage ∈ p, ∀ name input,
        Catalog.builtIn.input? stage.kind name =
            some input →
          input.Admits (input.resolve stage.params) ∧
            input.resolve
                (stage.params.insert name
                  (input.resolve stage.params)) =
              input.resolve stage.params := by
  refine ⟨?_, ?_, ?_⟩
  · intro settings fragment hFragment
    rcases Fragment.exists_program hFragment with
      ⟨program, hProgram, rfl⟩
    refine
      ⟨program, hProgram, rfl, by simp [Program.fragment], ?_,
        Program.admits_literal hProgram⟩
    intro entry hEntry
    apply Program.admits_of_assemble hProgram
    rwa [← program.zip_fragment settings]
  · intro layout
    rcases Answers.exists_mapM fun cell (_ : cell ∈ layout) =>
        Catalog.proper_builtIn.exists_value p cell with
      ⟨values, hValues⟩
    rcases Answers.of_mapM_eq_ok hValues with
      ⟨hLength, hEach⟩
    refine ⟨values, hValues, hLength, ?_⟩
    intro entry hEntry stage input hStage hInput
    exact
      Catalog.admits_value hStage hInput (hEach entry hEntry)
  · intro stage _ name input hInput
    rcases Catalog.builtIn_input? hInput with
      ⟨known, hKnown, _, hListed, rfl⟩
    have hAdmits :=
      Catalog.admits_resolve hKnown hListed stage.params
    exact ⟨hAdmits, hAdmits.resolve_insert stage.params⟩

/-
  Stages that share an id and store NaN, infinity, a value
  above the limits and one under a name that no kind
  declares, and nothing for some inputs.
-/
def wild : Pipeline :=
  [ { id := "w"
      kind := "mandelbulb"
      params :=
        .ofList
          [("power", .infinite true), ("scale", .nan)] }
  , { id := "w"
      kind := "mandelbulb"
      params :=
        .ofList
          [("power", .ofInt 99), ("shadow", .nan)] } ]

theorem confines_values_wild :
    Catalog.builtIn.values wild [⟨"w", "power"⟩] =
        .ok [.ofInt 32] ∧
      ∃ input,
        Catalog.builtIn.input? "mandelbulb" "power" =
            some input ∧
          input.Admits (.ofInt 32) := by
  have hValues :
      Catalog.builtIn.values wild [⟨"w", "power"⟩] =
        .ok [.ofInt 32] := by
    decide +kernel
  have hDeclared :
      ∃ input,
        Catalog.builtIn.input? "mandelbulb" "power" =
          some input :=
    Option.isSome_iff_exists.mp (by decide +kernel)
  rcases hDeclared with ⟨input, hInput⟩
  rcases (confines_values wild).2.1 [⟨"w", "power"⟩] with
    ⟨values, hFound, _, hAdmits⟩
  rw [hValues] at hFound
  cases hFound
  exact
    ⟨hValues, input, hInput,
      hAdmits _ List.mem_cons_self _ input rfl hInput⟩

end Pipeline

end FractalShader
