import FractalShader.Proofs.Session.Reload
import FractalShader.Proofs.Shader.Wiring

/-
  What sessions answer to an edit, and what an edit leaves
  behind that is not taken.

  A session rejects what its graph refuses, and nothing
  else: a graph that was changed can be ordered again, and
  the values of its stages are there.  All that fails leaves
  the state as it was.

  Main declarations:
    * `Session.exists_settle`
    * `Session.Ordered.apply_taken`
    * `Session.Ordered.rejected_iff`
    * `Session.orders_every_edit`
    * `Graph.KeptOnError`
    * `Session.KeptOnError`
    * `Session.kept_on_error`
-/

------------------------------------------------------------
-- Values
------------------------------------------------------------

namespace FractalShader

namespace Catalog

/- In a proper catalog every cell has a value. -/
theorem Proper.exists_value
    {catalog : Catalog}
    (h : catalog.Proper)
    (pipeline : Pipeline)
    (cell : Cell) :
    ∃ value, catalog.value pipeline cell = .ok value := by
  unfold Catalog.value
  split
  · exact ⟨_, rfl⟩
  · rename_i stage _
    split
    · exact ⟨_, rfl⟩
    · rename_i input hInput
      rcases Option.bind_eq_some_iff.mp hInput with
        ⟨kind, hKind, hFound⟩
      have hProper :=
        h _ kind hKind input (List.mem_of_find?_eq_some hFound)
      refine ⟨input.resolve stage.params, ?_⟩
      rw [Stage.value, if_pos hProper]

end Catalog

namespace Session

/- A session can always tell its values. -/
theorem exists_values (s : Session) :
    ∃ values, s.values = .ok values := by
  unfold Session.values
  cases s.baseline with
  | none => exact ⟨[], rfl⟩
  | some baseline =>
      exact
        Answers.exists_mapM fun cell _ =>
          Catalog.proper_builtIn.exists_value s.pipeline cell

end Session

end FractalShader

------------------------------------------------------------
-- Answers to Edits
------------------------------------------------------------

namespace FractalShader

/- A refused edit uses up no id. -/
theorem Graph.apply_refused
    {g : Graph}
    {supply : Supply}
    {edit : Edit}
    {why : Refusal}
    (h : (g.apply supply edit).answer = .error why) :
    (g.apply supply edit).graph = g ∧
      (g.apply supply edit).supply = supply := by
  constructor
  · rw [Graph.apply_graph]
    exact Graph.perform_of_refused
      ((Graph.apply_refused_iff why).mp h)
  · have hDrawing :
        ∀ id (result : Except Refusal Unit × Graph),
          (Change.drawing id supply result).answer =
              .error why →
            (Change.drawing id supply result).supply =
              supply := by
      rintro id ⟨answer, graph⟩ hError
      cases answer with
      | error other => rfl
      | ok done => cases hError
    cases edit with
    | addNode id kind =>
        cases id with
        | none => exact hDrawing _ _ h
        | some id => rfl
    | connect source target port => exact hDrawing _ _ h
    | _ => rfl

namespace Session

variable {s : Session} {supply : Supply} {edit : Edit}

/- Settling has an outcome that names what was created. -/
theorem exists_settle
    (s : Session)
    (created : Option String) :
    ∃ outcome,
      (s.settle created).1 = .ok outcome ∧
        outcome.created = created := by
  unfold Session.settle
  split
  · split
    · exact ⟨_, rfl, rfl⟩
    · split
      · exact ⟨_, rfl, rfl⟩
      · exact ⟨_, rfl, rfl⟩
  · rcases s.exists_values with ⟨values, hValues⟩
    rw [hValues]
    exact ⟨_, rfl, rfl⟩

/- What the graph refuses is rejected and changes nothing. -/
theorem apply_refused
    {why : Refusal}
    (h : (s.graph.apply supply edit).answer = .error why) :
    s.apply supply edit =
      (.error (.refused why), s, supply) := by
  rcases Graph.apply_refused h with ⟨hGraph, hSupply⟩
  unfold Session.apply
  simp only [h, hGraph, hSupply]

/- What the graph takes is ordered again and settled. -/
theorem Ordered.apply_taken
    (h : s.Ordered)
    {created : Option String}
    (hTaken :
      (s.graph.apply supply edit).answer = .ok created) :
    ∃ outcome pipeline,
      (s.apply supply edit).1 = .ok outcome ∧
        outcome.created = created ∧
        Pipeline.ofGraph (s.graph.apply supply edit).graph =
          .ok pipeline ∧
        (s.apply supply edit).2.1.pipeline = pipeline := by
  have hAfter := h.apply supply edit
  have hPipeline := hAfter.pipeline
  rw [s.apply_graph, ← Graph.apply_graph] at hPipeline
  rcases exists_settle
      { s with
        graph := (s.graph.apply supply edit).graph
        pipeline := (s.apply supply edit).2.1.pipeline }
      created with
    ⟨outcome, hOutcome, hCreated⟩
  refine ⟨outcome, _, ?_, hCreated, hPipeline, rfl⟩
  conv_lhs => unfold Session.apply
  simp only [hTaken, hPipeline, hOutcome]
  rfl

/- The graph alone decides what is rejected, and why. -/
theorem Ordered.rejected_iff
    (h : s.Ordered)
    (rejection : Rejection) :
    (s.apply supply edit).1 = .error rejection ↔
      ∃ why,
        rejection = .refused why ∧
          (s.graph.apply supply edit).answer =
            .error why := by
  cases hAnswer : (s.graph.apply supply edit).answer with
  | error why =>
      rw [apply_refused hAnswer]
      constructor
      · intro hRejected
        exact
          ⟨why, (Except.error.inj hRejected).symm, rfl⟩
      · rintro ⟨other, rfl, hOther⟩
        rw [Except.error.inj hOther]
  | ok created =>
      rcases h.apply_taken hAnswer with ⟨outcome, _, hOk, _⟩
      rw [hOk]
      simp

end Session

end FractalShader

------------------------------------------------------------
-- Orders After Edits
------------------------------------------------------------

namespace FractalShader

namespace Session

/-
  A session that is reached holds the pipeline of its graph.
  An edit that the graph takes has an outcome, and then the
  pipeline is that of the new graph.  No edit is rejected
  for want of one.
-/
theorem orders_every_edit
    {s : Session}
    (h : s.Reached) :
    Pipeline.ofGraph s.graph = .ok s.pipeline ∧
      ∀ supply edit,
        (∀ created,
          (s.graph.apply supply edit).answer = .ok created →
            ∃ outcome pipeline,
              (s.apply supply edit).1 = .ok outcome ∧
                outcome.created = created ∧
                Pipeline.ofGraph
                    (s.graph.apply supply edit).graph =
                  .ok pipeline ∧
                (s.apply supply edit).2.1.pipeline =
                  pipeline) ∧
          ∀ why,
            (s.apply supply edit).1 ≠ .error (.failed why) := by
  have hOrdered := h.ordered
  refine ⟨hOrdered.pipeline, fun supply edit => ⟨?_, ?_⟩⟩
  · intro created hTaken
    exact hOrdered.apply_taken hTaken
  · intro why hFailed
    rcases (hOrdered.rejected_iff _).mp hFailed with
      ⟨refusal, hEq, _⟩
    cases hEq

/-
  Two nodes of one id, two edges between the same nodes, and
  edges against both sentinels, one of them on a cycle.
-/
def crossedGraph : Graph where
  nodes :=
    [{ id := "a", kind := "scale" },
      { id := "a", kind := "translate" },
      { id := "b", kind := "scale" }]
  edges :=
    [⟨"e1", endId, "a", none⟩, ⟨"e2", startId, "a", none⟩,
      ⟨"e3", "a", "b", none⟩, ⟨"e4", "a", "b", none⟩,
      ⟨"e5", "b", startId, none⟩]

/- Its session. -/
def crossed : Session where
  graph := crossedGraph.normalize
  settings := {}
  pipeline :=
    [{ id := "a", kind := "translate" },
      { id := "b", kind := "scale" }]
  baseline := none

theorem reached_crossed : crossed.Reached := by
  have hStart :
      Session.ofGraph crossedGraph {} = .ok crossed := by
    decide +kernel
  exact ⟨crossed, .ofGraph hStart, {}, [], rfl⟩

theorem orders_every_edit_crossed :
    crossed.Reached ∧
      ∃ outcome pipeline,
        (crossed.apply {} (.removeNode "a")).1 =
            .ok outcome ∧
          (crossed.apply {} (.removeNode "a")).2.1.pipeline =
            pipeline ∧
          pipeline.ids = ["a", "b"] := by
  have hTaken :
      (crossed.graph.apply {} (.removeNode "a")).answer =
        .ok none := rfl
  rcases (orders_every_edit reached_crossed).2 {} _ with
    ⟨hOutcome, _⟩
  rcases hOutcome none hTaken with
    ⟨outcome, pipeline, hOk, _, hOrder, hPipeline⟩
  refine
    ⟨reached_crossed, outcome, pipeline, hOk, hPipeline, ?_⟩
  have hIds :
      (Pipeline.ofGraph
          (crossed.graph.apply {} (.removeNode "a")).graph).map
          Pipeline.ids =
        .ok ["a", "b"] := by
    decide +kernel
  rw [hOrder] at hIds
  exact Except.ok.inj hIds

end Session

end FractalShader

------------------------------------------------------------
-- What Errors Leave
------------------------------------------------------------

namespace FractalShader

namespace Graph

/- An operation that fails leaves the graph as it was. -/
def KeptBy
    (g : Graph)
    {α : Type}
    (result : Except Refusal α × Graph) : Prop :=
  ∀ why, result.1 = .error why → result.2 = g

/- No operation and no edit that fails changes the graph. -/
structure KeptOnError (g : Graph) : Prop where
  addNode : ∀ id kind, g.KeptBy (g.addNode id kind)
  removeNode : ∀ id, g.KeptBy (g.removeNode id)
  connect :
    ∀ catalog id source target port,
      g.KeptBy (g.connect catalog id source target port)
  disconnect : ∀ id, g.KeptBy (g.disconnect id)
  setParam :
    ∀ id input value, g.KeptBy (g.setParam id input value)
  toggleBinding :
    ∀ id input, g.KeptBy (g.toggleBinding id input)
  setBinding :
    ∀ id input slot, g.KeptBy (g.setBinding id input slot)
  setGuard : ∀ id guard, g.KeptBy (g.setGuard id guard)
  setEnabled : ∀ id enabled, g.KeptBy (g.setEnabled id enabled)
  setPosition :
    ∀ id position, g.KeptBy (g.setPosition id position)
  apply :
    ∀ supply edit why,
      (g.apply supply edit).answer = .error why →
        (g.apply supply edit).graph = g ∧
          (g.apply supply edit).supply = supply

variable {g : Graph}

/- What an action does that is refused changes nothing. -/
theorem keptBy_of_action
    {α : Type}
    {result : Except Refusal α × Graph}
    (action : Action)
    (hAnswer : g.refusal? action = Refusal.of? result.1)
    (hGraph : g.perform action = result.2) :
    g.KeptBy result := by
  intro why hError
  have hRefused : g.refusal? action = some why := by
    rw [hAnswer, hError]
    rfl
  rw [← hGraph]
  exact perform_of_refused hRefused

theorem keptBy_connect
    (g : Graph)
    (catalog : Catalog)
    (id source target : String)
    (port : Option Port) :
    g.KeptBy (g.connect catalog id source target port) := by
  intro why hError
  unfold Graph.connect at hError ⊢
  split at hError
  · rfl
  · cases hError

theorem keptOnError (g : Graph) : g.KeptOnError where
  addNode id kind :=
    keptBy_of_action (.addNode id kind) rfl rfl
  removeNode id := keptBy_of_action (.removeNode id) rfl rfl
  connect := g.keptBy_connect
  disconnect id := keptBy_of_action (.disconnect id) rfl rfl
  setParam id input value :=
    keptBy_of_action (.setParam id input value) rfl rfl
  toggleBinding id input :=
    keptBy_of_action (.toggleBinding id input) rfl rfl
  setBinding id input slot :=
    keptBy_of_action (.setBinding id input slot) rfl rfl
  setGuard id guard :=
    keptBy_of_action (.setGuard id guard) rfl rfl
  setEnabled id enabled :=
    keptBy_of_action (.setEnabled id enabled) rfl rfl
  setPosition id position :=
    keptBy_of_action (.setPosition id position) rfl rfl
  apply _ _ _ := apply_refused

end Graph

namespace Session

/-
  A rejected edit leaves the whole session as it was, and so
  does a compilation that fails.
-/
structure KeptOnError (s : Session) : Prop where
  apply :
    ∀ supply edit why,
      (s.apply supply edit).1 = .error why →
        (s.apply supply edit).2 = (s, supply)
  compile : ∀ why, s.compile.1 = .error why → s.compile.2 = s
  compileIfNeeded :
    ∀ why,
      s.compileIfNeeded.1 = .error why →
        s.compileIfNeeded.2 = s

variable {s : Session}

theorem compileIfNeeded_error
    {why : Failure}
    (h : s.compileIfNeeded.1 = .error why) :
    s.compileIfNeeded.2 = s := by
  unfold Session.compileIfNeeded at h ⊢
  split
  · rename_i hNeeds
    rw [if_pos hNeeds] at h
    rcases hCompile : s.compile with ⟨answer, next⟩
    rw [hCompile] at h
    cases answer with
    | error other => exact compile_error hCompile
    | ok fragment => cases h
  · rfl

theorem Ordered.keptOnError
    (h : s.Ordered) :
    s.KeptOnError where
  apply supply edit why hError := by
    rcases (h.rejected_iff why).mp hError with
      ⟨refusal, _, hAnswer⟩
    rw [apply_refused hAnswer]
  compile why hError := compile_error (Prod.ext hError rfl)
  compileIfNeeded _ := compileIfNeeded_error

/-
  Whatever fails leaves what there was: an operation on any
  graph leaves the graph, and an edit or a compilation of a
  session that is reached leaves the session.
-/
theorem kept_on_error :
    (∀ g : Graph, g.KeptOnError) ∧
      ∀ s : Session, s.Reached → s.KeptOnError :=
  ⟨Graph.keptOnError, fun _ h => h.ordered.keptOnError⟩

/- A session on a node of a kind that is not known. -/
def strange : Session :=
  ((Desk.start (.new {}) {}).run
    [.edit (.addNode (some "a") "cloud")]).session

theorem kept_on_error_strange :
    crossed.Reached ∧ strange.Reached ∧
      crossed.apply {} (.connect "b" "b" none) =
        (.error (.refused (.selfLoop "b")), crossed, {}) ∧
      strange.compile =
        (.error (.unknownKind "a" "cloud"), strange) ∧
      strange.compileIfNeeded.2 = strange := by
  have hStrange : strange.Reached := ⟨_, .new {}, {}, _, rfl⟩
  have hCrossed := kept_on_error.2 _ reached_crossed
  have hLoop :
      (crossed.apply {} (.connect "b" "b" none)).1 =
        .error (.refused (.selfLoop "b")) := by
    decide +kernel
  have hCompile :
      strange.compile.1 =
        .error (.unknownKind "a" "cloud") := by
    decide +kernel
  have hNeeded :
      strange.compileIfNeeded.1 =
        .error (.unknownKind "a" "cloud") := by
    decide +kernel
  have hKept := kept_on_error.2 _ hStrange
  exact
    ⟨reached_crossed, hStrange,
      Prod.ext hLoop (hCrossed.apply _ _ _ hLoop),
      Prod.ext hCompile (hKept.compile _ hCompile),
      hKept.compileIfNeeded _ hNeeded⟩

end Session

end FractalShader
