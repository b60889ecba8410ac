import FractalShader.Catalog.BuiltIn
import FractalShader.Pipeline.Comparison
import FractalShader.Proofs.Answers
import FractalShader.Shader.Fragment
import Mathlib.Data.List.Nodup

/-
  What a fragment takes from a pipeline when values live in
  uniforms: pipelines of one structure have fragments that
  differ in their values only.

  Main declarations:
    * `Stage.Alike`
    * `Program.frame`
    * `Program.assemble_sameStructure`
    * `Fragment.Alike`
    * `Fragment.ofPipeline_alike`
    * `Fragment.ofPipeline_sameStructure`
    * `Fragment.ofPipeline_mode`
-/

------------------------------------------------------------
-- Stages of One Structure
------------------------------------------------------------

namespace FractalShader

/- The slots that are defined are those that are read. -/
theorem Bindings.slot?_eq_some_iff
    (b : Bindings)
    (input : String)
    (slot : Slot) :
    slot? b input = some slot ↔ (input, slot) ∈ defined b := by
  simp only [slot?, Option.join_eq_some_iff,
    Dict.get?_eq_some_iff, defined, List.mem_filterMap,
    Option.map_eq_some_iff, Prod.exists, Prod.mk.injEq]
  constructor
  · intro h
    exact ⟨input, some slot, h, slot, rfl, rfl, rfl⟩
  · intro hGiven
    rcases hGiven with ⟨_, _, h, _, rfl, rfl, rfl⟩
    exact h

theorem Bindings.slot?_congr
    {b c : Bindings}
    (h : defined b = defined c)
    (input : String) :
    slot? b input = slot? c input := by
  apply Option.ext
  intro slot
  rw [slot?_eq_some_iff, h, ← slot?_eq_some_iff]

/- Guards of one test are written alike. -/
theorem Guard.filter_congr
    {guard other : Option Guard}
    (h : Guard.test? guard = Guard.test? other) :
    guard.filter (fun g => g.active && g.valid) =
      other.filter (fun g => g.active && g.valid) := by
  have hRead :
      ∀ g : Option Guard,
        g.filter (fun g => g.active && g.valid) =
          ((Guard.test? g).map fun t =>
            ⟨true, t.1, t.2⟩).filter Guard.valid := by
    intro g
    cases g with
    | none => rfl
    | some g =>
        rcases g with ⟨active, modulus, remainder⟩
        cases active
        · rfl
        · simp [Guard.test?, Option.filter, Guard.valid]
  rw [hRead guard, hRead other, h]

namespace Stage

/- What stages of one structure share. -/
structure Alike (s t : Stage) : Prop where
  id : s.id = t.id
  kind : s.kind = t.kind
  enabled : s.enabled = t.enabled
  sources : s.sources = t.sources
  slots : ∀ input, s.slot? input = t.slot? input
  guard :
    s.guard.filter (fun g => g.active && g.valid) =
      t.guard.filter (fun g => g.active && g.valid)

theorem alike_of_sameStructure
    {s t : Stage}
    (h : s.sameStructure t = true) :
    Alike s t := by
  simp only [sameStructure, Bool.and_eq_true, beq_iff_eq] at h
  rcases h with
    ⟨⟨⟨⟨⟨hId, hKind⟩, hEnabled⟩, hSources⟩, hBound⟩, hTest⟩
  exact
    { id := hId
      kind := hKind
      enabled := hEnabled
      sources := hSources
      slots := fun input =>
        Bindings.slot?_congr hBound input.id
      guard := Guard.filter_congr hTest }

/- Limits are at fault for a missing value, or nothing is. -/
theorem value_alike
    {s t : Stage}
    (h : Alike s t)
    (input : Input) :
    (s.value input).map (fun _ => ()) =
      (t.value input).map (fun _ => ()) := by
  unfold value
  split
  · rfl
  · rw [h.id]

/- What references are without the values in their cells. -/
def referenceFrame
    (found : List (String × Reference) × List (Cell × F32)) :
    List (String × Reference) × List Cell :=
  (found.1, found.2.map Prod.fst)

/- References to uniforms do not depend on values. -/
theorem references_alike
    {s t : Stage}
    (h : Alike s t)
    (next : Nat)
    (inputs : List Input) :
    (s.references false next inputs).map referenceFrame =
      (t.references false next inputs).map
        referenceFrame := by
  induction inputs generalizing next with
  | nil => rfl
  | cons input inputs ih =>
      rw [references, references, h.slots input]
      cases t.slot? input with
      | some slot =>
          rcases Answers.cases_of_map_eq (ih next) with
            ⟨why, hs, ht⟩ | ⟨found, other, hs, ht, hFrame⟩
          · rw [hs, ht]
          · rw [hs, ht]
            simp only [referenceFrame, Prod.mk.injEq] at hFrame
            simp [bind, Except.bind, Except.map,
              referenceFrame, hFrame]
      | none =>
          rcases Answers.cases_of_map_eq
              (value_alike h input) with
            ⟨why, hs, ht⟩ | ⟨value, other, hs, ht, _⟩
          · rw [hs, ht]
            rfl
          · rw [hs, ht]
            rcases Answers.cases_of_map_eq (ih (next + 1)) with
              ⟨why, hs, ht⟩ | ⟨found, other, hs, ht, hFrame⟩
            · simp [bind, Except.bind, hs, ht]
            · simp only [referenceFrame, Prod.mk.injEq]
                at hFrame
              simp [bind, Except.bind, Except.map, hs, ht,
                referenceFrame, hFrame, h.id]

end Stage

end FractalShader

------------------------------------------------------------
-- Programs of One Structure
------------------------------------------------------------

namespace FractalShader

namespace Program

/- What a program is without its values. -/
def frame (program : Program) :
    List Block × Var × List Cell :=
  (program.blocks, program.result,
    program.cells.map Prod.fst)

/-
  Stages of one structure keep programs of one frame, or
  fail alike.
-/
theorem frame_cons
    {catalog : Catalog}
    {s t : Stage}
    (h : Stage.Alike s t)
    {p q : Pipeline}
    (hRest :
      ∀ index outputs,
        (assemble catalog false index outputs p).map frame =
          (assemble catalog false index outputs q).map frame)
    (index : Nat)
    (outputs : Outputs) :
    (assemble catalog false index outputs (s :: p)).map frame =
      (assemble catalog false index outputs
        (t :: q)).map frame := by
  unfold assemble
  rw [h.id, h.kind, h.sources, h.enabled, h.guard]
  cases catalog.find? t.kind with
  | none => rfl
  | some kind =>
      dsimp only
      split
      · rcases Answers.cases_of_map_eq
            (Stage.references_alike h outputs.cells
              kind.inputs) with
          ⟨why, hs, ht⟩ |
          ⟨⟨references, cells⟩, ⟨others, cells'⟩,
            hs, ht, hFrame⟩
        · rw [hs, ht]
          rfl
        · rw [hs, ht]
          injection hFrame with hReferences hCells
          cases hReferences
          -- Equal cells: the next stage starts at one number.
          have hLength : cells.length = cells'.length := by
            simpa using congrArg List.length hCells
          simp only [bind, Except.bind, hLength]
          rcases Answers.cases_of_map_eq
              (hRest (index + 1)
                (outputs.push t.id (.stage index)
                  cells'.length)) with
            ⟨why, hs, ht⟩ |
            ⟨program, other, hs, ht, hProgram⟩
          · rw [hs, ht]
          · rw [hs, ht]
            simp only [frame, Prod.mk.injEq] at hProgram
            simp [Except.map, frame, hProgram, hCells]
      · exact hRest _ _

/-
  Pipelines of one structure have programs of one frame, or
  fail alike.
-/
theorem assemble_sameStructure
    (catalog : Catalog)
    {p q : Pipeline}
    (h : Pipeline.sameStructure p q = true)
    (index : Nat)
    (outputs : Outputs) :
    (assemble catalog false index outputs p).map frame =
      (assemble catalog false index outputs q).map frame := by
  induction p generalizing q index outputs with
  | nil =>
      cases q with
      | nil => rfl
      | cons t q => cases h
  | cons s p ih =>
      cases q with
      | nil => cases h
      | cons t q =>
          rcases Bool.and_eq_true_iff.mp h with
            ⟨hStage, hRest⟩
          exact
            frame_cons (Stage.alike_of_sameStructure hStage)
              (ih hRest) index outputs

end Program

end FractalShader

------------------------------------------------------------
-- Fragments of One Structure
------------------------------------------------------------

namespace FractalShader

namespace Program

/- The blocks and the result make the text. -/
theorem fragment_of_frame
    (settings : Settings)
    {program other : Program}
    (h : program.frame = other.frame) :
    (program.fragment settings).source =
        (other.fragment settings).source ∧
      (program.fragment settings).declarations =
        (other.fragment settings).declarations ∧
      (program.fragment settings).layout =
        (other.fragment settings).layout ∧
      (program.fragment settings).hash =
        (other.fragment settings).hash := by
  simp only [frame, Prod.mk.injEq] at h
  rcases h with ⟨hBlocks, hResult, hCells⟩
  have hLength :
      program.cells.length = other.cells.length := by
    simpa using congrArg List.length hCells
  simp [fragment, source, hBlocks, hResult, hCells, hLength]

end Program

namespace Fragment

/- Fragments that differ in their values only. -/
structure Alike (f g : Fragment) : Prop where
  source : f.source = g.source
  declarations : f.declarations = g.declarations
  layout : f.layout = g.layout
  hash : f.hash = g.hash

theorem Alike.refl (f : Fragment) : Alike f f :=
  ⟨rfl, rfl, rfl, rfl⟩

/-
  Pipelines of one structure fail alike, or have fragments
  that differ in their values only.
-/
theorem ofPipeline_alike
    (catalog : Catalog)
    {settings : Settings}
    {p q : Pipeline}
    (hInline : settings.inlineLiterals = false)
    (hSame : Pipeline.sameStructure p q = true) :
    (∃ why,
        ofPipeline catalog settings p = .error why ∧
          ofPipeline catalog settings q = .error why) ∨
      ∃ fragment other,
        ofPipeline catalog settings p = .ok fragment ∧
          ofPipeline catalog settings q = .ok other ∧
          Alike fragment other := by
  have hFrames :=
    Program.assemble_sameStructure catalog hSame 0 .start
  unfold ofPipeline Program.ofPipeline
  rw [hInline]
  rcases Answers.cases_of_map_eq hFrames with
    ⟨why, hp, hq⟩ | ⟨program, other, hp, hq, hFrame⟩
  · rw [hp, hq]
    exact Or.inl ⟨why, rfl, rfl⟩
  · rcases Program.fragment_of_frame settings hFrame with
      ⟨hSource, hDeclarations, hLayout, hHash⟩
    rw [hp, hq]
    exact
      Or.inr
        ⟨_, _, rfl, rfl, hSource, hDeclarations, hLayout,
          hHash⟩

/-
  A pipeline of the structure of one that has a fragment has
  a fragment as well, and only the values may differ.
-/
theorem ofPipeline_sameStructure
    {catalog : Catalog}
    {settings : Settings}
    {p q : Pipeline}
    {fragment : Fragment}
    (hInline : settings.inlineLiterals = false)
    (hSame : Pipeline.sameStructure p q = true)
    (h : ofPipeline catalog settings p = .ok fragment) :
    ∃ other, ofPipeline catalog settings q = .ok other ∧
      Alike fragment other := by
  rcases ofPipeline_alike catalog hInline hSame with
    ⟨why, hp, _⟩ | ⟨found, other, hp, hq, hAlike⟩
  · rw [hp] at h
    cases h
  · rw [hp] at h
    cases h
    exact ⟨other, hq, hAlike⟩

/- The mode does not change what is compiled. -/
theorem ofPipeline_mode
    (catalog : Catalog)
    (settings : Settings)
    (mode : Mode)
    (pipeline : Pipeline) :
    ofPipeline catalog { settings with mode := mode }
        pipeline =
      ofPipeline catalog settings pipeline := by
  have hSource :
      ∀ program : Program,
        program.source { settings with mode := mode } =
          program.source settings :=
    fun _ => rfl
  have hDeclarations :
      ∀ cells,
        { settings with mode := mode }.declarations cells =
          settings.declarations cells :=
    fun _ => rfl
  have hFragment :
      ∀ program : Program,
        program.fragment { settings with mode := mode } =
          program.fragment settings := by
    intro program
    simp only [Program.fragment, hSource, hDeclarations]
  unfold ofPipeline
  simp only [hFragment]

end Fragment

end FractalShader
