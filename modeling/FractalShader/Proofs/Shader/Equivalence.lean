import FractalShader.Proofs.Shader.Structure
import FractalShader.Proofs.Shader.Wiring

/-
  Pipelines of one structure have one shader.

  Either both have no shader for the sake of one stage, or
  they agree in everything that is compiled, and the layout
  of the one finds the values of the other.

  Main declarations:
    * `Catalog.firstUnknown?`
    * `Program.error_of_assemble`
    * `Fragment.error_of_ofPipeline`
    * `Fragment.shares_shader`
-/

------------------------------------------------------------
-- Pipelines without a Shader
------------------------------------------------------------

namespace FractalShader

/- The first stage, enabled or not, of an unknown kind. -/
def Catalog.firstUnknown?
    (catalog : Catalog)
    (p : Pipeline) : Option Stage :=
  p.find? fun stage => !catalog.contains stage.kind

/- A program is missing for the sake of an unknown kind. -/
theorem Program.error_of_assemble
    {catalog : Catalog}
    (hProper : catalog.Proper)
    {inline : Bool}
    {index : Nat}
    {outputs : Outputs}
    {p : Pipeline}
    {why : Failure}
    (h : assemble catalog inline index outputs p =
      .error why) :
    ∃ stage,
      catalog.firstUnknown? p = some stage ∧
        why = .unknownKind stage.id stage.kind := by
  induction p generalizing index outputs with
  | nil => cases h
  | cons stage p ih =>
      rw [Catalog.firstUnknown?, List.find?_cons]
      cases hKind : catalog.find? stage.kind with
      | none =>
          simp only [assemble, hKind] at h
          cases h
          refine ⟨stage, ?_, rfl⟩
          simp [Catalog.contains, hKind]
      | some kind =>
          simp only [Catalog.contains, hKind,
            Option.isSome_some, Bool.not_true]
          cases hEnabled : stage.enabled with
          | false =>
              rw [assemble_disabled hKind hEnabled] at h
              exact ih h
          | true =>
              rcases stage.exists_references inline
                  outputs.cells (hProper _ _ hKind) with
                ⟨⟨references, cells⟩, hFound⟩
              cases hRest :
                  assemble catalog inline (index + 1)
                    (outputs.push stage.id (.stage index)
                      cells.length) p with
              | error other =>
                  rw [assemble] at h
                  simp only [hKind, hEnabled, if_true, hFound,
                    hRest, bind, Except.bind] at h
                  cases h
                  exact ih hRest
              | ok program =>
                  rw [assemble_enabled hKind hEnabled hFound
                    hRest] at h
                  cases h

namespace Fragment

/- So is a fragment. -/
theorem error_of_ofPipeline
    {catalog : Catalog}
    (hProper : catalog.Proper)
    {settings : Settings}
    {p : Pipeline}
    {why : Failure}
    (h : ofPipeline catalog settings p = .error why) :
    ∃ stage,
      catalog.firstUnknown? p = some stage ∧
        why = .unknownKind stage.id stage.kind := by
  unfold ofPipeline Program.ofPipeline at h
  cases hProgram :
      Program.assemble catalog settings.inlineLiterals 0
        .start p with
  | error other =>
      rw [hProgram] at h
      cases h
      exact Program.error_of_assemble hProper hProgram
  | ok program =>
      rw [hProgram] at h
      cases h

end Fragment

end FractalShader

------------------------------------------------------------
-- Pipelines of One Structure
------------------------------------------------------------

namespace FractalShader

namespace Fragment

variable {catalog : Catalog} {settings : Settings}
variable {p q : Pipeline}

/-
  With values in uniforms, pipelines of one structure fail
  for the sake of one stage, or have fragments that differ
  in their values only.  The values of the second are those
  that the layout of the first finds, unless ids repeat.
-/
theorem shares_shader
    (hProper : catalog.Proper)
    (hInline : settings.inlineLiterals = false)
    (hSame : Pipeline.sameStructure p q = true) :
    (∃ stage,
        catalog.firstUnknown? p = some stage ∧
          ofPipeline catalog settings p =
            .error (.unknownKind stage.id stage.kind) ∧
          ofPipeline catalog settings q =
            .error (.unknownKind stage.id stage.kind)) ∨
      ∃ fragment other,
        ofPipeline catalog settings p = .ok fragment ∧
          ofPipeline catalog settings q = .ok other ∧
          Alike fragment other ∧
          (q.ids.Nodup → catalog.Distinct →
            catalog.values q fragment.layout =
              .ok other.values) := by
  rcases ofPipeline_alike catalog hInline hSame with
    ⟨why, hp, hq⟩ | ⟨fragment, other, hp, hq, hAlike⟩
  · rcases error_of_ofPipeline hProper hp with
      ⟨stage, hFirst, rfl⟩
    exact Or.inl ⟨stage, hFirst, hp, hq⟩
  · refine Or.inr ⟨fragment, other, hp, hq, hAlike, ?_⟩
    intro hNodup hDistinct
    rw [hAlike.layout]
    exact values_eq hDistinct hNodup hq

/-
  A listed input without a slot, a binding that no input
  uses, and a guard that is not active.
-/
def idleMarks : Pipeline :=
  [ { id := "s"
      kind := "scale"
      params := Dict.empty.insert "scale" (.ofInt 2)
      bindings := Dict.empty.insert "scale" none }
  , { id := "m"
      kind := "mandelbulb"
      bindings := Dict.empty.insert "spin" (some .b)
      guard := some ⟨false, 3, 5⟩ } ]

/- The same stages without such marks, and other values. -/
def movedValues : Pipeline :=
  [ { id := "s"
      kind := "scale"
      params := Dict.empty.insert "scale" (.ofInt 3) }
  , { id := "m"
      kind := "mandelbulb"
      params := Dict.empty.insert "power" (.ofInt 99)
      bindings := Dict.empty.insert "spin" (some .b) } ]

theorem shares_shader_movedValues :
    Pipeline.sameStructure idleMarks movedValues = true ∧
      ∃ fragment other,
        ofPipeline .builtIn {} idleMarks = .ok fragment ∧
          ofPipeline .builtIn {} movedValues = .ok other ∧
          Alike fragment other ∧
          Catalog.builtIn.values movedValues fragment.layout =
            .ok other.values ∧
          other.values = [.ofInt 3, .ofInt 32] := by
  have hSame :
      Pipeline.sameStructure idleMarks movedValues = true := by
    decide +kernel
  have hNodup : movedValues.ids.Nodup := by decide
  have hValues :
      (ofPipeline .builtIn {} movedValues).map Fragment.values =
        .ok [.ofInt 3, .ofInt 32] := by
    decide +kernel
  have hInline : ({} : Settings).inlineLiterals = false := rfl
  rcases shares_shader Catalog.proper_builtIn hInline hSame with
    ⟨stage, _, _, hFailed⟩ |
    ⟨fragment, other, hp, hq, hAlike, hFound⟩
  · rw [hFailed] at hValues
    cases hValues
  · rw [hq] at hValues
    refine
      ⟨hSame, fragment, other, hp, hq, hAlike,
        hFound hNodup Catalog.distinct_builtIn, ?_⟩
    injection hValues

end Fragment

end FractalShader
