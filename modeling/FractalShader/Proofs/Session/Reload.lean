import FractalShader.Proofs.Exchange.Model
import FractalShader.Proofs.Pipeline.Rebuilt
import FractalShader.Proofs.Session.Ordered
import FractalShader.Session.Archive

/-
  Loading what a session has saved.

  The text of a pipeline is read as the pipeline, and the
  graph that is rebuilt from it has a pipeline again.  The
  two are the same unless an edge into an input that another
  edge feeds has constrained the order: no stage records it,
  so the rebuilt graph may be ordered in another way.

  Main declarations:
    * `Session.load_save`
    * `Session.load_save_of_not_finite`
    * `Session.Ordered.reload`
    * `Session.Reached`
    * `Session.fedOnce_run`
-/

------------------------------------------------------------
-- Loading
------------------------------------------------------------

namespace FractalShader

namespace Session

/- A tidy pipeline gives a session. -/
theorem exists_ofPipeline
    {p : Pipeline}
    (h : p.Tidy)
    (settings : Settings) :
    ∃ s,
      ofPipeline p settings = .ok s ∧
        Pipeline.ofGraph (p.toGraph .builtIn) =
          .ok s.pipeline := by
  rcases h.exists_ofGraph .builtIn with ⟨q, hq⟩
  refine ⟨⟨p.toGraph .builtIn, settings, q, none⟩, ?_, hq⟩
  unfold ofPipeline ofGraph
  simp only [h.normalize_toGraph, hq]
  rfl

variable {s : Session}

/- The text of a session is read as its pipeline. -/
theorem load_save
    (h : s.pipeline.Readable)
    (settings : Settings) :
    load s.save settings =
      (ofPipeline s.pipeline settings).mapError .failed := by
  unfold load save
  rw [ofText?_prettyText s.pipeline.clean_toJson,
    h.ofJson?_toJson]

/- With one value that is not finite, the text is not read. -/
theorem load_save_of_not_finite
    {stage : Stage}
    (hStage : stage ∈ s.pipeline)
    {entry : String × F32}
    (hEntry : entry ∈ stage.params.entries)
    (h : entry.2.isFinite = false)
    (settings : Settings) :
    load s.save settings = .error .unreadable := by
  unfold load save
  rw [ofText?_prettyText s.pipeline.clean_toJson,
    Pipeline.ofJson?_toJson_eq_none hStage hEntry h]

/-
  A session with readable values is loaded again.  It has
  the same pipeline exactly when no other order of the
  rebuilt graph comes first, as when inputs are fed once.
-/
theorem Ordered.reload
    (h : s.Ordered)
    (hReadable : s.pipeline.Readable)
    (settings : Settings) :
    ∃ restored,
      load s.save settings = .ok restored ∧
        (restored.pipeline = s.pipeline ↔
          ∀ order,
            (s.pipeline.toGraph .builtIn).Orders order →
              s.pipeline.ids = order ∨
                List.Lex (· < ·) s.pipeline.ids order) ∧
        (s.graph.FedOnce →
          restored.pipeline = s.pipeline) := by
  have hTidy := Pipeline.tidy_of_ofGraph h.pipeline
  rcases exists_ofPipeline hTidy settings with
    ⟨restored, hRestored, hPipeline⟩
  refine ⟨restored, ?_, ?_, ?_⟩
  · rw [load_save hReadable, hRestored]
    rfl
  · rw [← hTidy.ofGraph_toGraph_iff .builtIn, hPipeline]
    exact ⟨congrArg _, fun hEq => by injection hEq⟩
  · intro hFed
    have hRebuilt :=
      Pipeline.ofGraph_toGraph_of_fedOnce hFed h.pipeline
        .builtIn
    rw [hPipeline] at hRebuilt
    injection hRebuilt

end Session

end FractalShader

------------------------------------------------------------
-- Sessions That Are Reached
------------------------------------------------------------

namespace FractalShader

namespace Session

/- Some run from an accepted start ends in the session. -/
def Reached (s : Session) : Prop :=
  ∃ first : Session, first.Started ∧
    ∃ supply commands,
      ((Desk.start first supply).run commands).session = s

theorem Reached.ordered
    {s : Session}
    (h : s.Reached) :
    s.Ordered := by
  rcases h with ⟨first, hStarted, supply, commands, rfl⟩
  exact Desk.ordered_run hStarted.ordered commands

/- A run feeds no input of the graph more often. -/
theorem fedOnce_run
    {s : Session}
    (h : s.graph.FedOnce)
    (supply : Supply)
    (commands : List Command) :
    ((Desk.start s supply).run commands).session.graph.FedOnce
    := by
  rcases (Desk.start s supply).exists_actions commands with
    ⟨actions, hActions⟩
  rw [hActions, ← Graph.runWith_builtIn]
  exact h.runWith .builtIn actions

end Session

end FractalShader
