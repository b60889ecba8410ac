import FractalShader.Catalog.BuiltIn
import FractalShader.Proofs.Answers
import FractalShader.Proofs.Pipeline.OfGraph
import FractalShader.Proofs.Shader.Assembly
import FractalShader.Shader.Fragment

/-
  The values of a fragment are those that the catalog finds
  for its layout, when ids are distinct.

  Main declarations:
    * `Program.Carries`
    * `Program.carries_of_assemble`
    * `Catalog.Distinct`
    * `Catalog.distinct_builtIn`
    * `Fragment.values_eq`
-/

------------------------------------------------------------
-- Cells of a Program
------------------------------------------------------------

namespace FractalShader

namespace Stage

/-
  A cell carries the value of an input of a stage, within
  the limits of the input.
-/
def Carries
    (stage : Stage)
    (inputs : List Input)
    (entry : Cell × F32) : Prop :=
  ∃ input ∈ inputs,
    entry.1 = ⟨stage.id, input.id⟩ ∧
      stage.value input = .ok entry.2

theorem Carries.cons
    {stage : Stage}
    {inputs : List Input}
    {entry : Cell × F32}
    (h : stage.Carries inputs entry)
    (input : Input) :
    stage.Carries (input :: inputs) entry := by
  rcases h with ⟨later, hMem, hEntry⟩
  exact ⟨later, List.mem_cons_of_mem _ hMem, hEntry⟩

/- The cells of a stage carry values of its inputs. -/
theorem carries_of_references
    {stage : Stage}
    {inline : Bool}
    {next : Nat}
    {inputs : List Input}
    {references : List (String × Reference)}
    {cells : List (Cell × F32)}
    (h :
      stage.references inline next inputs =
        .ok (references, cells)) :
    ∀ entry ∈ cells, stage.Carries inputs entry := by
  have hSteps := refers_of_references h
  clear h
  induction hSteps with
  | nil => simp
  | slot _ _ ih | literal _ _ _ _ ih =>
      intro entry hEntry
      exact (ih entry hEntry).cons _
  | @cell _ input _ _ _ _ _ _ hValue _ ih =>
      intro entry hEntry
      rcases List.mem_cons.mp hEntry with rfl | hLater
      · exact ⟨input, List.mem_cons_self, rfl, hValue⟩
      · exact (ih entry hLater).cons input

end Stage

namespace Program

/- The cells of a program carry values of its stages. -/
theorem carries_of_assemble
    {catalog : Catalog}
    {inline : Bool}
    {index : Nat}
    {outputs : Outputs}
    {pipeline : Pipeline}
    {program : Program}
    (h :
      assemble catalog inline index outputs pipeline =
        .ok program) :
    ∀ entry ∈ program.cells,
      ∃ stage ∈ pipeline, ∃ kind,
        catalog.find? stage.kind = some kind ∧
          stage.Carries kind.inputs entry := by
  have hSteps := assembles_of_assemble h
  clear h
  induction hSteps with
  | nil => simp
  | @enabled _ _ stage _ kind _ _ _ hKind _ hFound _ ih =>
      intro entry hEntry
      rcases List.mem_append.mp hEntry with hHere | hThere
      · exact
          ⟨stage, List.mem_cons_self, kind, hKind,
            Stage.carries_of_references hFound entry hHere⟩
      · rcases ih entry hThere with ⟨later, hMem, hKind⟩
        exact ⟨later, List.mem_cons_of_mem _ hMem, hKind⟩
  | disabled _ _ _ ih =>
      intro entry hEntry
      rcases ih entry hEntry with ⟨later, hMem, hKind⟩
      exact ⟨later, List.mem_cons_of_mem _ hMem, hKind⟩

end Program

end FractalShader

------------------------------------------------------------
-- Finding Values Again
------------------------------------------------------------

namespace FractalShader

namespace Catalog

/- No kind declares two inputs with one id. -/
def Distinct (catalog : Catalog) : Prop :=
  ∀ id kind, catalog.find? id = some kind →
    (kind.inputs.map Input.id).Nodup

/- A kind that is found is one of those collected. -/
theorem find?_ofKinds
    {kinds : List Kind}
    {id : String}
    {kind : Kind}
    (h : (ofKinds kinds).find? id = some kind) :
    kind ∈ kinds ∧ kind.id = id := by
  rw [find?, ofKinds, Dict.get?_ofList,
    Option.map_eq_some_iff] at h
  rcases h with ⟨entry, hEntry, rfl⟩
  have hId := List.find?_some hEntry
  have hMem := List.mem_of_find?_eq_some hEntry
  rw [List.mem_reverse, List.mem_map] at hMem
  rcases hMem with ⟨kind, hKind, rfl⟩
  exact ⟨hKind, by simpa using hId⟩

theorem distinct_builtIn : builtIn.Distinct := by
  have hKinds :
      ∀ kind ∈ BuiltIn.kinds,
        (kind.inputs.map Input.id).Nodup := by
    decide
  intro id kind h
  exact hKinds kind (find?_ofKinds h).1

/- A stage of distinct ids is found under its id. -/
theorem stage?_eq_some
    {pipeline : Pipeline}
    (hNodup : pipeline.ids.Nodup)
    {stage : Stage}
    (h : stage ∈ pipeline) :
    pipeline.stage? stage.id = some stage := by
  have hReverse :
      (pipeline.reverse.map fun stage => stage.id).Nodup := by
    rw [List.map_reverse, List.nodup_reverse]
    exact hNodup
  exact
    Answers.find?_eq_some hReverse (List.mem_reverse.mpr h)

/- An input of distinct ids is found under its id. -/
theorem input?_eq_some
    {kind : Kind}
    (hNodup : (kind.inputs.map Input.id).Nodup)
    {input : Input}
    (h : input ∈ kind.inputs) :
    kind.input? input.id = some input :=
  Answers.find?_eq_some hNodup h

/- The value that a cell carries is found again. -/
theorem value_of_carries
    {catalog : Catalog}
    (hDistinct : catalog.Distinct)
    {pipeline : Pipeline}
    (hNodup : pipeline.ids.Nodup)
    {stage : Stage}
    (hStage : stage ∈ pipeline)
    {kind : Kind}
    (hKind : catalog.find? stage.kind = some kind)
    {entry : Cell × F32}
    (h : stage.Carries kind.inputs entry) :
    catalog.value pipeline entry.1 = .ok entry.2 := by
  rcases h with ⟨input, hInput, hCell, hValue⟩
  have hFound :=
    input?_eq_some (hDistinct _ kind hKind) hInput
  rw [hCell]
  simp [value, stage?_eq_some hNodup hStage, Catalog.input?,
    hKind, hFound, hValue]

end Catalog

namespace Fragment

/-
  The values of a fragment are found again from its layout
  when the ids of the stages are distinct.
-/
theorem values_eq
    {catalog : Catalog}
    (hDistinct : catalog.Distinct)
    {settings : Settings}
    {pipeline : Pipeline}
    (hNodup : pipeline.ids.Nodup)
    {fragment : Fragment}
    (h :
      ofPipeline catalog settings pipeline = .ok fragment) :
    catalog.values pipeline fragment.layout =
      .ok fragment.values := by
  unfold ofPipeline Program.ofPipeline at h
  cases hProgram :
      Program.assemble catalog settings.inlineLiterals 0
        .start pipeline with
  | error why =>
      rw [hProgram] at h
      cases h
  | ok program =>
      rw [hProgram] at h
      cases h
      apply Answers.mapM_eq_ok
      intro entry hEntry
      rcases Program.carries_of_assemble hProgram entry hEntry
        with ⟨stage, hStage, kind, hKind, hCarries⟩
      exact
        Catalog.value_of_carries hDistinct hNodup hStage hKind
          hCarries

end Fragment

end FractalShader
