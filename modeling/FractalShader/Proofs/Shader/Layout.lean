import FractalShader.Proofs.Session.Inlined
import FractalShader.Proofs.Shader.Equivalence
import FractalShader.Proofs.Shader.Passages

/-
  The array of parameters of a fragment, and the numbers of
  its cells in the text.

  Main declarations:
    * `Fragment.ofPipeline_eq_error_iff`
    * `Fragment.exists_program`
    * `Fragment.lays_out`
-/

------------------------------------------------------------
-- Layouts
------------------------------------------------------------

namespace FractalShader

namespace Fragment

variable {catalog : Catalog} {settings : Settings}

/- A fragment is missing for the sake of the first unknown. -/
theorem ofPipeline_eq_error_iff
    (hProper : catalog.Proper)
    (p : Pipeline)
    (why : Failure) :
    ofPipeline catalog settings p = .error why ↔
      ∃ stage,
        catalog.firstUnknown? p = some stage ∧
          why = .unknownKind stage.id stage.kind := by
  constructor
  · exact error_of_ofPipeline hProper
  · rintro ⟨stage, hFirst, rfl⟩
    cases hFragment : ofPipeline catalog settings p with
    | error other =>
        rcases error_of_ofPipeline hProper hFragment with
          ⟨found, hFound, rfl⟩
        rw [hFirst] at hFound
        cases hFound
        rfl
    | ok fragment =>
        have hKnown :=
          (exists_ofPipeline_iff hProper settings p).mp
            ⟨fragment, hFragment⟩ stage
            (List.mem_of_find?_eq_some hFirst)
        have hUnknown := List.find?_some hFirst
        simp [hKnown] at hUnknown

/- A fragment is that of a program. -/
theorem exists_program
    {p : Pipeline}
    {fragment : Fragment}
    (h : ofPipeline catalog settings p = .ok fragment) :
    ∃ program,
      Program.ofPipeline catalog settings.inlineLiterals p =
          .ok program ∧
        fragment = program.fragment settings := by
  unfold ofPipeline at h
  cases hProgram :
      Program.ofPipeline catalog settings.inlineLiterals p
    with
  | error why =>
      rw [hProgram] at h
      cases h
  | ok program =>
      rw [hProgram] at h
      cases h
      exact ⟨program, rfl, rfl⟩

/-
  With values in uniforms, a fragment is missing only for the
  sake of a stage of an unknown kind, enabled or not, and the
  first one is named.  Otherwise the array is laid out as the
  inputs without a slot are.  The text is that of a program
  with one block for each enabled stage, in order, and the
  statements in it are written for the slots and the cells of
  the inputs.
-/
theorem lays_out
    (hProper : catalog.Proper)
    (hDistinct : catalog.Distinct)
    (hInline : settings.inlineLiterals = false)
    (p : Pipeline) :
    (∀ why,
      ofPipeline catalog settings p = .error why ↔
        ∃ stage,
          catalog.firstUnknown? p = some stage ∧
            why = .unknownKind stage.id stage.kind) ∧
    ∀ fragment,
      ofPipeline catalog settings p = .ok fragment →
      Laid catalog settings p fragment ∧
      ∃ program,
        Program.ofPipeline catalog false p = .ok program ∧
        fragment = program.fragment settings ∧
        fragment.source =
          String.join
              (program.blocks.map (Block.text settings)) ++
            settings.stateVar ++ " = " ++
            program.result.text settings ++ ";\n" ∧
        List.Forall₂
          (fun entry block =>
            block.Receives catalog settings fragment
              (p.take entry.2) entry.1)
          (p.zipIdx.filter fun entry => entry.1.enabled)
          program.blocks := by
  refine ⟨ofPipeline_eq_error_iff hProper p, ?_⟩
  intro fragment hFragment
  rcases exists_program hFragment with
    ⟨program, hProgram, rfl⟩
  have hBlocks :=
    Program.receives_of_ofPipeline hDistinct hProgram
  rw [hInline] at hProgram
  have hLaid : Laid catalog settings p _ :=
    laid_of_cells
      (Program.assembles_of_assemble hProgram).cells_eq
  exact ⟨hLaid, program, hProgram, rfl, rfl, hBlocks⟩

/-
  Two stages of one id with a disabled one between them; one
  input has a slot, and one is listed without one.
-/
def sharedId : Pipeline :=
  [ { id := "s"
      kind := "sphere_fold"
      bindings := Dict.empty.insert "min_radius" (some .b) }
  , { id := "d"
      kind := "scale"
      enabled := false }
  , { id := "s"
      kind := "translate"
      params := Dict.empty.insert "z" (.ofInt 3)
      bindings := Dict.empty.insert "x" none } ]

theorem lays_out_sharedId :
    Catalog.builtIn.Proper ∧ Catalog.builtIn.Distinct ∧
      ({} : Settings).inlineLiterals = false ∧
      ∃ fragment,
        ofPipeline .builtIn {} sharedId = .ok fragment ∧
          fragment.layout =
            [⟨"s", "fixed_radius"⟩, ⟨"s", "x"⟩, ⟨"s", "y"⟩,
              ⟨"s", "z"⟩] ∧
          fragment.values =
            [.ofInt 1, .zero false, .zero false, .ofInt 3] ∧
          ∃ (fold move : Block) (kind : Kind) (after : String),
            fragment.source =
                fold.text {} ++ move.text {} ++ after ∧
              (fold.scope {}).param "min_radius" =
                "uParamB" ∧
              Catalog.builtIn.find? "translate" = some kind ∧
              move.text {} =
                "// s (translate)\n" ++
                  ("vec4 v2 = " ++ (move.scope {}).inputA ++
                    ";\n") ++
                  kind.body (move.scope {}) ∧
              (move.scope {}).param "y" =
                "uNodeParams[2]" := by
  have hProper := Catalog.proper_builtIn
  have hDistinct := Catalog.distinct_builtIn
  have hInline : ({} : Settings).inlineLiterals = false := rfl
  have hKnown :
      ∀ stage ∈ sharedId,
        Catalog.builtIn.contains stage.kind = true := by
    decide
  have hUnbound :
      (Catalog.builtIn.unbound sharedId).map
          (fun e => (e.1.id, e.2.id, e.2.resolve e.1.params)) =
        [ ("s", "fixed_radius", .ofInt 1)
        , ("s", "x", .zero false)
        , ("s", "y", .zero false)
        , ("s", "z", .ofInt 3) ] := by
    decide
  rcases (exists_ofPipeline_iff hProper {} sharedId).mpr hKnown
    with ⟨fragment, hFragment⟩
  rcases (lays_out hProper hDistinct hInline sharedId).2 fragment
      hFragment with
    ⟨hLaid, program, _, _, hSource, hBlocks⟩
  have hLayout := congrArg
    (List.map fun e => (⟨e.1, e.2.1⟩ : Cell)) hUnbound
  have hValues := congrArg
    (List.map fun e => e.2.2) hUnbound
  rw [List.map_map] at hLayout hValues
  -- The disabled stage has no block, but it has a number.
  have hEnabled :
      (sharedId.zipIdx.filter fun entry => entry.1.enabled) =
        [(sharedId[0], 0), (sharedId[2], 2)] := rfl
  rw [hEnabled] at hBlocks
  rcases Program.exists_two_blocks hBlocks with
    ⟨fold, move, hPair, hFold, hMove⟩
  have hRadius :
      ∃ input ∈ Catalog.builtIn.inputs "sphere_fold",
        input.id = "min_radius" := by
    decide
  rcases hRadius with ⟨radius, hRadius, hId⟩
  have hBound : sharedId[0].slot? radius = some .b := by
    rw [Stage.slot?, hId]
    decide
  have hSlot := hFold.slot radius hRadius .b hBound
  rw [hId] at hSlot
  rcases hMove.text with ⟨kind, hKind, hText⟩
  rcases hMove.cell hInline
      ((Catalog.builtIn.inputs "translate").take 1)
      (BuiltIn.input "y" "Y" (-400) 400 1 0)
      ((Catalog.builtIn.inputs "translate").drop 2)
      (by decide) (by decide) with
    ⟨k, hPlace, hParam, _⟩
  have hNumber : k = 2 := by
    rw [hPlace]
    decide
  rw [hNumber] at hParam
  have hHeader :
      "// " ++ Lines.commentSafe "s" ++ " (" ++ "translate" ++
          ")\n" =
        "// s (translate)\n" := by
    decide +kernel
  have hJoin :
      String.join [fold.text {}, move.text {}] =
        fold.text {} ++ move.text {} := by
    simp [String.join]
  refine
    ⟨hProper, hDistinct, hInline, fragment, hFragment,
      hLaid.layout.trans hLayout, hLaid.values.trans hValues,
      fold, move, kind,
      "z" ++ (" = " ++ (program.result.text {} ++ ";\n")), ?_,
      hSlot, hKind, ?_, hParam⟩
  · rw [hSource, hPair, List.map_cons, List.map_singleton,
      hJoin]
    simp only [String.append_assoc]
  · rw [hText, ← hHeader]
    rfl

end Fragment

end FractalShader
