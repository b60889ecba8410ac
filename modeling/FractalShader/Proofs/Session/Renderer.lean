import FractalShader.Proofs.Shader.Structure
import FractalShader.Proofs.Shader.Values
import FractalShader.Session.Basic

/-
  A renderer that takes what a session hands out shows what
  the session would compile, as long as no compilation is
  due.  Values live in uniforms throughout.

  Main declarations:
    * `Renderer`
    * `Command`
    * `Desk.run`
    * `Session.Shown`
    * `Session.InSync`
    * `Desk.run_induction`
    * `Desk.InSync.step`
    * `Desk.InSync.run`
-/

------------------------------------------------------------
-- Renderers
------------------------------------------------------------

namespace FractalShader

/- What a renderer runs, with the values of its uniforms. -/
structure Renderer where
  fragment : Option Fragment := none
  values : List F32 := []

namespace Renderer

/- Run a fragment with the values that come with it. -/
def load
    (_r : Renderer)
    (fragment : Fragment) : Renderer where
  fragment := some fragment
  values := fragment.values

/- Take the fragment or the values of an outcome. -/
def take
    (r : Renderer)
    (outcome : Outcome) : Renderer :=
  let r := (outcome.fragment.map r.load).getD r
  (outcome.values.map fun values =>
    { r with values := values }).getD r

/- Follow the answer to an edit. -/
def follow
    (r : Renderer) :
    Except Rejection Outcome → Renderer
  | .ok outcome => r.take outcome
  | .error _ => r

/- Follow the answer to a request for a fragment. -/
def receive
    (r : Renderer) :
    Except Failure (Option Fragment) → Renderer
  | .ok fragment => (fragment.map r.load).getD r
  | .error _ => r

end Renderer

/- What the editor asks of a session. -/
inductive Command where
  | edit (edit : Edit)
  | compile
  | compileIfNeeded
  | setMode (mode : Mode)

/- A session with its supply of ids and its renderer. -/
structure Desk where
  session : Session
  supply : Supply
  renderer : Renderer

namespace Desk

/- A session that nothing was compiled of. -/
def start
    (session : Session)
    (supply : Supply) : Desk :=
  ⟨session, supply, {}⟩

/- Carry out a command; the renderer follows the answer. -/
def step (desk : Desk) : Command → Desk
  | .edit edit =>
      let (answer, session, supply) :=
        desk.session.apply desk.supply edit
      ⟨session, supply, desk.renderer.follow answer⟩
  | .compile =>
      let (answer, session) := desk.session.compile
      ⟨session, desk.supply,
        desk.renderer.receive (answer.map some)⟩
  | .compileIfNeeded =>
      let (answer, session) := desk.session.compileIfNeeded
      ⟨session, desk.supply, desk.renderer.receive answer⟩
  | .setMode mode =>
      { desk with session := desk.session.setMode mode }

/- Carry out commands one after another. -/
def run
    (desk : Desk)
    (commands : List Command) : Desk :=
  commands.foldl step desk

end Desk

/- Sessions that a caller can start from. -/
inductive Session.Started : Session → Prop where
  | new (settings : Settings) : Started (.new settings)
  | ofGraph
      {graph : Graph}
      {settings : Settings}
      {s : Session}
      (h : Session.ofGraph graph settings = .ok s) :
      Started s
  | ofPipeline
      {pipeline : Pipeline}
      {settings : Settings}
      {s : Session}
      (h : Session.ofPipeline pipeline settings = .ok s) :
      Started s

end FractalShader

------------------------------------------------------------
-- The Invariant
------------------------------------------------------------

namespace FractalShader

namespace Session

/-
  The renderer runs the fragment compiled last, which is the
  fragment of the pipeline compiled last.
-/
structure Shown
    (s : Session)
    (r : Renderer) : Prop where
  uniforms : s.settings.inlineLiterals = false
  distinct : s.pipeline.ids.Nodup
  baseline :
    ∀ b ∈ s.baseline,
      Fragment.ofPipeline .builtIn s.settings b.pipeline =
          .ok b.fragment ∧
        r.fragment = some b.fragment

/-
  In addition, the values are those of the present pipeline
  unless a compilation is due.
-/
structure InSync
    (s : Session)
    (r : Renderer) : Prop extends Shown s r where
  values :
    s.needsCompile = false →
      ∃ live,
        Fragment.ofPipeline .builtIn s.settings s.pipeline =
            .ok live ∧
          r.values = live.values

variable {s : Session} {r : Renderer}

/-
  When no compilation is due, the fragment compiled last is
  that of the present pipeline up to values, and these are
  what the session answers.
-/
theorem Shown.live
    (h : s.Shown r)
    (hFits : s.needsCompile = false) :
    ∃ shown live,
      r.fragment = some shown ∧
        Fragment.ofPipeline .builtIn s.settings s.pipeline =
          .ok live ∧
        Fragment.Alike shown live ∧
        s.values = .ok live.values := by
  cases hBaseline : s.baseline with
  | none => simp [needsCompile, hBaseline] at hFits
  | some b =>
      rcases h.baseline b hBaseline with ⟨hCompiled, hShown⟩
      have hSame :
          Pipeline.sameStructure b.pipeline s.pipeline =
            true := by
        simpa [needsCompile, hBaseline, h.uniforms] using hFits
      rcases Fragment.ofPipeline_sameStructure h.uniforms hSame
          hCompiled with
        ⟨live, hLive, hAlike⟩
      refine ⟨b.fragment, live, hShown, hLive, hAlike, ?_⟩
      simp only [values, hBaseline, hAlike.layout]
      exact
        Fragment.values_eq Catalog.distinct_builtIn h.distinct
          hLive

/- Another pipeline does not change what is shown. -/
theorem Shown.withPipeline
    (h : s.Shown r)
    {pipeline : Pipeline}
    (hDistinct : pipeline.ids.Nodup) :
    { s with pipeline := pipeline }.Shown r where
  uniforms := h.uniforms
  distinct := hDistinct
  baseline := h.baseline

/- A new fragment is in sync with what it was compiled of. -/
theorem Shown.compile
    (h : s.Shown r)
    {fragment : Fragment}
    {next : Session}
    (hCompile : s.compile = (.ok fragment, next)) :
    next.InSync (r.load fragment) := by
  unfold Session.compile at hCompile
  cases hFragment :
      Fragment.ofPipeline .builtIn s.settings s.pipeline with
  | error why =>
      rw [hFragment] at hCompile
      cases hCompile
  | ok compiled =>
      rw [hFragment] at hCompile
      cases hCompile
      refine ⟨⟨h.uniforms, h.distinct, ?_⟩, ?_⟩
      · intro b hBaseline
        cases hBaseline
        exact ⟨hFragment, rfl⟩
      · intro _
        exact ⟨fragment, hFragment, rfl⟩

/- A failed compilation leaves the session as it was. -/
theorem compile_error
    {why : Failure}
    {next : Session}
    (hCompile : s.compile = (.error why, next)) :
    next = s := by
  unfold Session.compile at hCompile
  cases hFragment :
      Fragment.ofPipeline .builtIn s.settings s.pipeline with
  | error other =>
      rw [hFragment] at hCompile
      cases hCompile
      rfl
  | ok compiled =>
      rw [hFragment] at hCompile
      cases hCompile

end Session

end FractalShader

------------------------------------------------------------
-- Steps
------------------------------------------------------------

namespace FractalShader

namespace Session

variable {s : Session} {r : Renderer}

/-
  Settling has an outcome that brings the renderer in sync,
  whatever had to be done.
-/
theorem Shown.settle
    (h : s.Shown r)
    (created : Option String) :
    ∃ outcome next,
      s.settle created = (.ok outcome, next) ∧
        next.InSync (r.take outcome) := by
  -- While a compilation is due, the values do not matter.
  have hDue :
      s.needsCompile = true → s.InSync r := by
    intro hNeeds
    refine ⟨h, ?_⟩
    intro hFits
    rw [hNeeds] at hFits
    cases hFits
  unfold Session.settle
  cases hNeeds : s.needsCompile with
  | true =>
      simp only [if_true]
      cases s.settings.mode with
      | manual => exact ⟨_, _, rfl, hDue hNeeds⟩
      | auto =>
          rcases hCompile : s.compile with ⟨answer, after⟩
          cases answer with
          | ok fragment =>
              exact ⟨_, _, rfl, h.compile hCompile⟩
          | error failure =>
              cases compile_error hCompile
              exact ⟨_, _, rfl, hDue hNeeds⟩
  | false =>
      rcases h.live hNeeds with
        ⟨_, live, _, hLive, _, hValues⟩
      simp only [hValues, Bool.false_eq_true, if_false]
      refine ⟨_, _, rfl, ?_⟩
      refine ⟨⟨h.uniforms, h.distinct, h.baseline⟩, ?_⟩
      intro _
      exact ⟨live, hLive, rfl⟩

/- The graph alone decides nothing of what is in sync. -/
theorem InSync.withGraph
    (h : s.InSync r)
    (graph : Graph) :
    { s with graph := graph }.InSync r :=
  ⟨⟨h.uniforms, h.distinct, h.baseline⟩, h.values⟩

/- An edit, taken or not, leaves the renderer in sync. -/
theorem InSync.apply
    (h : s.InSync r)
    (supply : Supply)
    (edit : Edit) :
    (s.apply supply edit).2.1.InSync
      (r.follow (s.apply supply edit).1) := by
  have hGraph :=
    h.withGraph (s.graph.apply supply edit).graph
  unfold Session.apply
  dsimp only
  cases (s.graph.apply supply edit).answer with
  | error refusal => exact hGraph
  | ok created =>
      cases hOrder :
          Pipeline.ofGraph (s.graph.apply supply edit).graph
        with
      | error failure => exact hGraph
      | ok pipeline =>
          have hDistinct :=
            (Pipeline.orders_of_ofGraph hOrder).nodup
          rcases (hGraph.withPipeline hDistinct).settle created
            with ⟨outcome, next, hSettle, hNext⟩
          simp only [hSettle]
          exact hNext

/- A compilation leaves the renderer in sync. -/
theorem InSync.compile
    (h : s.InSync r) :
    s.compile.2.InSync
      (r.receive (s.compile.1.map some)) := by
  rcases hCompile : s.compile with ⟨answer, after⟩
  cases answer with
  | ok fragment => exact h.toShown.compile hCompile
  | error failure =>
      cases compile_error hCompile
      exact h

theorem InSync.compileIfNeeded
    (h : s.InSync r) :
    s.compileIfNeeded.2.InSync
      (r.receive s.compileIfNeeded.1) := by
  unfold Session.compileIfNeeded
  split
  · exact h.compile
  · exact h

/- The mode says when to compile, not what. -/
theorem InSync.setMode
    (h : s.InSync r)
    (mode : Mode) :
    (s.setMode mode).InSync r where
  uniforms := h.uniforms
  distinct := h.distinct
  baseline := by
    intro b hBaseline
    have hShown := h.baseline b hBaseline
    rw [← Fragment.ofPipeline_mode _ _ mode] at hShown
    exact hShown
  values := by
    intro hFits
    rcases h.values hFits with ⟨live, hLive, hValues⟩
    rw [← Fragment.ofPipeline_mode _ _ mode] at hLive
    exact ⟨live, hLive, hValues⟩

end Session

end FractalShader

------------------------------------------------------------
-- Runs
------------------------------------------------------------

namespace FractalShader

namespace Desk

/- What every command keeps, every run keeps. -/
theorem run_induction
    {Kept : Desk → Prop}
    (hStep :
      ∀ desk command, Kept desk → Kept (desk.step command))
    {desk : Desk}
    (h : Kept desk)
    (commands : List Command) :
    Kept (desk.run commands) := by
  induction commands generalizing desk with
  | nil => exact h
  | cons command commands ih =>
      exact ih (hStep desk command h)

/- The renderer of a desk is in sync with its session. -/
def InSync (desk : Desk) : Prop :=
  desk.session.InSync desk.renderer

/- Every command keeps the renderer in sync. -/
theorem InSync.step
    {desk : Desk}
    (h : desk.InSync)
    (command : Command) :
    (desk.step command).InSync := by
  cases command with
  | edit edit => exact Session.InSync.apply h desk.supply edit
  | compile => exact Session.InSync.compile h
  | compileIfNeeded => exact Session.InSync.compileIfNeeded h
  | setMode mode => exact Session.InSync.setMode h mode

/- Every run keeps the renderer in sync. -/
theorem InSync.run
    {desk : Desk}
    (h : desk.InSync)
    (commands : List Command) :
    (desk.run commands).InSync :=
  run_induction (fun _ command hSync => hSync.step command) h
    commands

/- The ids of a session that starts are distinct. -/
theorem nodup_of_ofGraph
    {graph : Graph}
    {settings : Settings}
    {s : Session}
    (h : Session.ofGraph graph settings = .ok s) :
    s.baseline = none ∧ s.pipeline.ids.Nodup := by
  rcases Answers.bind_eq_ok_iff.mp h with
    ⟨pipeline, hOrder, hEq⟩
  cases hEq
  exact ⟨rfl, (Pipeline.orders_of_ofGraph hOrder).nodup⟩

/- Nothing is compiled at the start. -/
theorem fresh_of_started
    {s : Session}
    (h : s.Started) :
    s.baseline = none ∧ s.pipeline.ids.Nodup := by
  cases h with
  | new settings => exact ⟨rfl, List.nodup_nil⟩
  | ofGraph h => exact nodup_of_ofGraph h
  | ofPipeline h => exact nodup_of_ofGraph h

theorem inSync_start
    {s : Session}
    (hStarted : s.Started)
    (hUniforms : s.settings.inlineLiterals = false)
    (supply : Supply) :
    (start s supply).InSync := by
  rcases fresh_of_started hStarted with ⟨hNone, hNodup⟩
  refine ⟨⟨hUniforms, hNodup, ?_⟩, ?_⟩
  · intro b hBaseline
    have hSome : s.baseline = some b := hBaseline
    rw [hNone] at hSome
    cases hSome
  · intro hFits
    have hNeeds : s.needsCompile = false := hFits
    simp [Session.needsCompile, hNone] at hNeeds

/-
  Whenever no compilation is due, the renderer shows the
  fragment of the present pipeline, with its values.
-/
theorem shows_live
    {s : Session}
    (hStarted : s.Started)
    (hUniforms : s.settings.inlineLiterals = false)
    (supply : Supply)
    (commands : List Command)
    (hFits :
      ((start s supply).run commands).session.needsCompile =
        false) :
    ∃ shown live,
      ((start s supply).run commands).renderer.fragment =
          some shown ∧
        Fragment.ofPipeline .builtIn
            ((start s supply).run commands).session.settings
            ((start s supply).run commands).session.pipeline =
          .ok live ∧
        shown.source = live.source ∧
        shown.declarations = live.declarations ∧
        shown.layout = live.layout ∧
        shown.hash = live.hash ∧
        ((start s supply).run commands).renderer.values =
          live.values := by
  have hSync :=
    (inSync_start hStarted hUniforms supply).run commands
  rcases Session.Shown.live hSync.toShown hFits with
    ⟨shown, live, hShown, hLive, hAlike, _⟩
  rcases hSync.values hFits with ⟨other, hOther, hValues⟩
  rw [hLive] at hOther
  cases hOther
  exact
    ⟨shown, live, hShown, hLive, hAlike.source,
      hAlike.declarations, hAlike.layout, hAlike.hash,
      hValues⟩

/-
  A session in which a value is changed in manual mode while
  the stage is disabled, before it is enabled again.
-/
def sample : Desk :=
  (start (.new {}) {}).run
    [.edit (.addNode (some "fold") "abs_fold"),
      .setMode .manual,
      .edit (.setEnabled "fold" false),
      .edit (.setParam "fold" "offset_x" (.ofInt 2)),
      .edit (.setEnabled "fold" true)]

theorem shows_live_sample :
    sample.session.needsCompile = false ∧
      ∃ shown live,
        sample.renderer.fragment = some shown ∧
          Fragment.ofPipeline .builtIn
              sample.session.settings
              sample.session.pipeline =
            .ok live ∧
          shown.source = live.source ∧
          shown.declarations = live.declarations ∧
          shown.layout = live.layout ∧
          shown.hash = live.hash ∧
          sample.renderer.values = live.values :=
  ⟨by decide +kernel,
    shows_live (.new {}) rfl {} _ (by decide +kernel)⟩

/- The value that was set in manual mode is shown. -/
example :
    sample.renderer.values =
      [.ofInt 2, .zero false, .zero false] := by
  decide +kernel

end Desk

end FractalShader
