import FractalShader.Graph.Editing
import FractalShader.Pipeline.Comparison
import FractalShader.Pipeline.OfGraph
import FractalShader.Pipeline.ToGraph
import FractalShader.Shader.Fragment

/-
  This file defines editing sessions: a graph, its pipeline,
  and the pipeline and fragment of the last compilation.

  After every edit the session says whether the fragment
  that the renderer holds still fits.  If it does, fresh
  values are enough.  Operations that can fail return an
  answer and the session that they leave behind.

  Key definitions include:
    * `Session`
    * `Session.ofGraph`
    * `Session.ofPipeline`
    * `Session.needsCompile`
    * `Session.compile`
    * `Session.compileIfNeeded`
    * `Session.values`
    * `Outcome`
    * `Session.apply`
-/

namespace FractalShader

------------------------------------------------------------
-- Sessions
------------------------------------------------------------

/- What was compiled last. -/
structure Baseline where
  pipeline : Pipeline
  fragment : Fragment
deriving DecidableEq

/- An editing session. -/
structure Session where
  graph : Graph
  settings : Settings
  pipeline : Pipeline
  baseline : Option Baseline
deriving DecidableEq

namespace Session

/- A session on the initial graph. -/
def new (settings : Settings) : Session where
  graph := .initial
  settings := settings
  pipeline := []
  baseline := none

/- A session on a given graph, which is normalized. -/
def ofGraph
    (graph : Graph)
    (settings : Settings) : Except Failure Session := do
  let graph := graph.normalize
  let pipeline ← Pipeline.ofGraph graph
  .ok
    { graph := graph
      settings := settings
      pipeline := pipeline
      baseline := none }

/- A session on the graph of a pipeline. -/
def ofPipeline
    (pipeline : Pipeline)
    (settings : Settings) : Except Failure Session :=
  ofGraph (pipeline.toGraph .builtIn) settings

/- The same session under another mode. -/
def setMode
    (s : Session)
    (mode : Mode) : Session :=
  { s with settings := { s.settings with mode := mode } }

/- The card of the kind of a node. -/
def card?
    (s : Session)
    (id : String) : Option KindCard :=
  (s.graph.node? id).map fun node =>
    Catalog.builtIn.describe node.kind

end Session

------------------------------------------------------------
-- Compiling
------------------------------------------------------------

namespace Session

/-
  The fragment compiled last, if any, does not fit the
  pipeline.  When literals are inlined a changed value does
  not fit either.
-/
def needsCompile (s : Session) : Bool :=
  match s.baseline with
  | none => true
  | some baseline =>
      if s.settings.inlineLiterals then
        !Pipeline.same baseline.pipeline s.pipeline
      else
        !Pipeline.sameStructure baseline.pipeline s.pipeline

/- Compile the pipeline and keep it as what was compiled. -/
def compile
    (s : Session) : Except Failure Fragment × Session :=
  match Fragment.ofPipeline .builtIn s.settings s.pipeline with
  | .error why => (.error why, s)
  | .ok fragment =>
      (.ok fragment,
        { s with baseline := some ⟨s.pipeline, fragment⟩ })

/- Compile only when the last fragment does not fit. -/
def compileIfNeeded
    (s : Session) :
    Except Failure (Option Fragment) × Session :=
  if s.needsCompile then
    let (answer, s) := s.compile
    (answer.map some, s)
  else
    (.ok none, s)

/- The present values for the fragment compiled last. -/
def values
    (s : Session) : Except Failure (List F32) :=
  match s.baseline with
  | none => .ok []
  | some baseline =>
      Catalog.builtIn.values s.pipeline
        baseline.fragment.layout

end Session

------------------------------------------------------------
-- Outcomes
------------------------------------------------------------

/-
  What an edit means for the renderer: a new fragment, or
  fresh values for the one it has, or that a compilation is
  due.
-/
structure Outcome where
  requiresCompile : Bool
  fragment : Option Fragment := none
  values : Option (List F32) := none
  created : Option String := none
  compileError : Option String := none
deriving DecidableEq, Repr

/- Why a session did not take an edit. -/
inductive Rejection where
  | refused (why : Refusal)
  | failed (why : Failure)
deriving DecidableEq, Repr

/- The text of a rejection. -/
def Rejection.message : Rejection → String
  | .refused why => "Edit rejected: " ++ why.message
  | .failed why => "Compile failed: " ++ why.message

------------------------------------------------------------
-- Edits
------------------------------------------------------------

namespace Session

/-
  Bring the renderer up to date after an edit that created
  an id, as far as the mode allows.  A failed compilation is
  reported in the outcome.
-/
def settle
    (s : Session)
    (created : Option String) :
    Except Failure Outcome × Session :=
  if s.needsCompile then
    match s.settings.mode with
    | .manual =>
        (.ok { requiresCompile := true, created := created },
          s)
    | .auto =>
        match s.compile with
        | (.ok fragment, s) =>
            (.ok
              { requiresCompile := false
                fragment := some fragment
                created := created }, s)
        | (.error why, s) =>
            (.ok
              { requiresCompile := true
                created := created
                compileError := some why.message }, s)
  else
    (s.values.map fun values =>
      { requiresCompile := false
        values := some values
        created := created }, s)

/-
  Apply an edit: change the graph, order it again, and bring
  the renderer up to date.
-/
def apply
    (s : Session)
    (supply : Supply)
    (edit : Edit) :
    Except Rejection Outcome × Session × Supply :=
  let change := s.graph.apply supply edit
  let s := { s with graph := change.graph }
  match change.answer with
  | .error why => (.error (.refused why), s, change.supply)
  | .ok created =>
      match Pipeline.ofGraph s.graph with
      | .error why => (.error (.failed why), s, change.supply)
      | .ok pipeline =>
          let (outcome, s) :=
            { s with pipeline := pipeline }.settle created
          (outcome.mapError .failed, s, change.supply)

end Session

end FractalShader
