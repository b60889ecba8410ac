import FractalShader.Proofs.Graph.Effects
import FractalShader.Proofs.Session.Renderer

/-
  Sessions hold the pipeline of their graph.

  Edits are the only commands that change the graph, and a
  taken one orders it again.  A refused one leaves it as it
  was, so the pipeline at hand is still the right one.

  Main declarations:
    * `Session.Ordered`
    * `Session.Ordered.apply`
    * `Desk.exists_actions`
    * `Desk.ordered_run`
-/

------------------------------------------------------------
-- The Invariant
------------------------------------------------------------

namespace FractalShader

/- A graph with a pipeline is orderly once it is normalized. -/
theorem Graph.orderly_normalize
    {g : Graph}
    {p : Pipeline}
    (h : Pipeline.ofGraph g.normalize = .ok p) :
    g.normalize.Orderly where
  ends := by
    intro edge hEdge
    have hEnds := List.of_mem_filter hEdge
    simp only [Bool.and_eq_true, hasNode_iff] at hEnds
    exact hEnds
  acyclic := (Pipeline.exists_ofGraph_iff _).mp ⟨p, h⟩

namespace Session

/-
  The graph is orderly, and its pipeline is the one that the
  session holds.
-/
structure Ordered (s : Session) : Prop where
  graph : s.graph.Orderly
  pipeline : Pipeline.ofGraph s.graph = .ok s.pipeline

theorem ordered_of_ofGraph
    {graph : Graph}
    {settings : Settings}
    {s : Session}
    (h : Session.ofGraph graph settings = .ok s) :
    s.Ordered := by
  rcases Answers.bind_eq_ok_iff.mp h with
    ⟨pipeline, hPipeline, hEq⟩
  cases hEq
  exact ⟨Graph.orderly_normalize hPipeline, hPipeline⟩

/- A session starts with the pipeline of its graph. -/
theorem Started.ordered
    {s : Session}
    (h : s.Started) :
    s.Ordered := by
  cases h with
  | new settings =>
      refine ⟨Graph.orderly_initial, ?_⟩
      change Pipeline.ofGraph .initial = .ok []
      decide +kernel
  | ofGraph h => exact ordered_of_ofGraph h
  | ofPipeline h => exact ordered_of_ofGraph h

end Session

end FractalShader

------------------------------------------------------------
-- Steps
------------------------------------------------------------

namespace FractalShader

namespace Session

/- Compiling touches neither the graph nor the pipeline. -/
theorem compile_content (s : Session) :
    s.compile.2.graph = s.graph ∧
      s.compile.2.pipeline = s.pipeline := by
  unfold Session.compile
  split <;> exact ⟨rfl, rfl⟩

theorem compileIfNeeded_content (s : Session) :
    s.compileIfNeeded.2.graph = s.graph ∧
      s.compileIfNeeded.2.pipeline = s.pipeline := by
  unfold Session.compileIfNeeded
  split
  · exact s.compile_content
  · exact ⟨rfl, rfl⟩

theorem settle_content
    (s : Session)
    (created : Option String) :
    (s.settle created).2.graph = s.graph ∧
      (s.settle created).2.pipeline = s.pipeline := by
  unfold Session.settle
  split
  · split
    · exact ⟨rfl, rfl⟩
    · have hContent := s.compile_content
      split <;> rename_i hCompile <;> rw [hCompile] at hContent
      · exact hContent
      · exact hContent
  · exact ⟨rfl, rfl⟩

/- An edit does to the graph what its action does. -/
theorem apply_graph
    (s : Session)
    (supply : Supply)
    (edit : Edit) :
    (s.apply supply edit).2.1.graph =
      s.graph.perform (edit.action supply) := by
  rw [← Graph.apply_graph]
  unfold Session.apply
  dsimp only
  split
  · rfl
  · split
    · rfl
    · exact (settle_content _ _).1

/- A session is ordered after every edit, taken or not. -/
theorem Ordered.apply
    {s : Session}
    (h : s.Ordered)
    (supply : Supply)
    (edit : Edit) :
    (s.apply supply edit).2.1.Ordered := by
  have hGraph :
      (s.graph.perform (edit.action supply)).Orderly := by
    rw [← Graph.performWith_builtIn]
    exact (Graph.effect_performWith _ _ _).orderly h.graph
  refine ⟨s.apply_graph supply edit ▸ hGraph, ?_⟩
  rw [s.apply_graph]
  rcases (Pipeline.exists_ofGraph_iff _).mpr hGraph.acyclic
    with ⟨next, hNext⟩
  unfold Session.apply
  dsimp only
  rw [Graph.apply_graph]
  cases hAnswer : (s.graph.apply supply edit).answer with
  | error why =>
      have hRefused := (Graph.apply_refused_iff why).mp hAnswer
      rw [Graph.perform_of_refused hRefused]
      exact h.pipeline
  | ok created =>
      simp only [hNext]
      rw [(settle_content _ _).2]

end Session

end FractalShader

------------------------------------------------------------
-- Runs
------------------------------------------------------------

namespace FractalShader

namespace Desk

/- Only edits change the graph, and each by one action. -/
theorem exists_action
    (desk : Desk)
    (command : Command) :
    ∃ actions,
      (desk.step command).session.graph =
        desk.session.graph.performAll actions := by
  cases command with
  | edit edit =>
      exact
        ⟨[edit.action desk.supply],
          desk.session.apply_graph desk.supply edit⟩
  | compile =>
      exact ⟨[], desk.session.compile_content.1⟩
  | compileIfNeeded =>
      exact ⟨[], desk.session.compileIfNeeded_content.1⟩
  | setMode mode => exact ⟨[], rfl⟩

/- What a run does to the graph, some actions do. -/
theorem exists_actions
    (desk : Desk)
    (commands : List Command) :
    ∃ actions,
      (desk.run commands).session.graph =
        desk.session.graph.performAll actions := by
  induction commands generalizing desk with
  | nil => exact ⟨[], rfl⟩
  | cons command commands ih =>
      rcases desk.exists_action command with ⟨first, hFirst⟩
      rcases ih (desk.step command) with ⟨rest, hRest⟩
      refine ⟨first ++ rest, ?_⟩
      unfold Graph.performAll at hFirst hRest ⊢
      rw [List.foldl_append, ← hFirst]
      exact hRest

/- Every command leaves an ordered session. -/
theorem ordered_step
    {desk : Desk}
    (h : desk.session.Ordered)
    (command : Command) :
    (desk.step command).session.Ordered := by
  have hKeep :
      ∀ s : Session,
        s.graph = desk.session.graph ∧
            s.pipeline = desk.session.pipeline →
          s.Ordered := by
    rintro s ⟨hGraph, hPipeline⟩
    exact
      ⟨hGraph ▸ h.graph, by rw [hGraph, hPipeline, h.pipeline]⟩
  cases command with
  | edit edit => exact h.apply desk.supply edit
  | compile => exact hKeep _ desk.session.compile_content
  | compileIfNeeded =>
      exact hKeep _ desk.session.compileIfNeeded_content
  | setMode mode => exact hKeep _ ⟨rfl, rfl⟩

/- Every run leaves an ordered session. -/
theorem ordered_run
    {desk : Desk}
    (h : desk.session.Ordered)
    (commands : List Command) :
    (desk.run commands).session.Ordered :=
  @run_induction
    (fun desk => desk.session.Ordered)
    (fun _ command hOrdered => ordered_step hOrdered command)
    desk h commands

end Desk

end FractalShader
