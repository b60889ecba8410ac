import FractalShader.Proofs.Session.Inlined
import FractalShader.Proofs.Session.Visible
import FractalShader.Proofs.Shader.Equivalence

/-
  What is left to be done after an edit.

  In automatic mode a compilation is due after an edit only
  when there is a stage of an unknown kind: what was compiled
  last has no such stage, and what was compiled just now fits
  itself, whichever way the two are compared.  For the latter
  no value may be a NaN, since it would differ from itself.

  Main declarations:
    * `Session.Settles`
    * `Session.settles_of_apply`
    * `Session.Sound`
    * `Session.Sound.known`
    * `Session.needsCompile_compiled`
    * `Session.SettledAuto`
    * `Session.settles_edits`
-/

------------------------------------------------------------
-- Ways to Settle
------------------------------------------------------------

namespace FractalShader

namespace Session

/- How a session settles, with which outcome. -/
inductive Settles
    (s : Session)
    (created : Option String) : Outcome → Session → Prop where
  | due
      (hMode : s.settings.mode = .manual)
      (hNeeds : s.needsCompile = true) :
      Settles s created
        { requiresCompile := true, created := created } s
  | compiled
      {fragment : Fragment}
      (hMode : s.settings.mode = .auto)
      (hFragment :
        Fragment.ofPipeline .builtIn s.settings s.pipeline =
          .ok fragment) :
      Settles s created
        { requiresCompile := false
          fragment := some fragment
          created := created }
        { s with baseline := some ⟨s.pipeline, fragment⟩ }
  | failed
      {why : Failure}
      (hMode : s.settings.mode = .auto)
      (hNeeds : s.needsCompile = true)
      (hFragment :
        Fragment.ofPipeline .builtIn s.settings s.pipeline =
          .error why) :
      Settles s created
        { requiresCompile := true
          created := created
          compileError := some why.message } s
  | refreshed
      {values : List F32}
      (hFits : s.needsCompile = false) :
      Settles s created
        { requiresCompile := false
          values := some values
          created := created } s

/- Settling with an outcome is one of these. -/
theorem settles_of_settle
    {s : Session}
    {created : Option String}
    {outcome : Outcome}
    (h : (s.settle created).1 = .ok outcome) :
    s.Settles created outcome (s.settle created).2 := by
  unfold Session.settle at h ⊢
  cases hNeeds : s.needsCompile with
  | true =>
      simp only [hNeeds, if_true] at h ⊢
      cases hMode : s.settings.mode with
      | manual =>
          rw [hMode] at h
          cases h
          exact .due hMode hNeeds
      | auto =>
          simp only [hMode, Session.compile] at h ⊢
          cases hFragment :
              Fragment.ofPipeline .builtIn s.settings
                s.pipeline with
          | ok fragment =>
              rw [hFragment] at h
              cases h
              exact .compiled hMode hFragment
          | error why =>
              rw [hFragment] at h
              cases h
              exact .failed hMode hNeeds hFragment
  | false =>
      simp only [hNeeds, Bool.false_eq_true, if_false] at h ⊢
      cases hValues : s.values with
      | ok values =>
          rw [hValues] at h
          cases h
          exact .refreshed hNeeds
      | error why =>
          rw [hValues] at h
          cases h

/-
  An edit that is taken by a session is taken by the graph,
  and the session settles on the new pipeline.
-/
theorem settles_of_apply
    {s : Session}
    {supply : Supply}
    {edit : Edit}
    {outcome : Outcome}
    (hTaken : (s.apply supply edit).1 = .ok outcome) :
    ∃ created pipeline,
      (s.graph.apply supply edit).answer = .ok created ∧
        Pipeline.ofGraph (s.graph.apply supply edit).graph =
          .ok pipeline ∧
        Settles
          { s with
            graph := (s.graph.apply supply edit).graph
            pipeline := pipeline }
          created outcome (s.apply supply edit).2.1 := by
  unfold Session.apply at hTaken ⊢
  dsimp only at hTaken ⊢
  cases hAnswer : (s.graph.apply supply edit).answer with
  | error why =>
      rw [hAnswer] at hTaken
      cases hTaken
  | ok created =>
      rw [hAnswer] at hTaken
      dsimp only at hTaken ⊢
      cases hPipeline :
          Pipeline.ofGraph (s.graph.apply supply edit).graph
        with
      | error why =>
          rw [hPipeline] at hTaken
          cases hTaken
      | ok pipeline =>
          rw [hPipeline] at hTaken
          refine ⟨created, pipeline, rfl, rfl, ?_⟩
          apply settles_of_settle
          exact Answers.mapError_eq_ok_iff.mp hTaken

end Session

end FractalShader

------------------------------------------------------------
-- What Was Compiled Last
------------------------------------------------------------

namespace FractalShader

namespace Session

/- What was compiled last is the fragment of its pipeline. -/
def Sound (s : Session) : Prop :=
  ∀ b ∈ s.baseline,
    Fragment.ofPipeline .builtIn s.settings b.pipeline =
      .ok b.fragment

/- Runs keep what was compiled last sound. -/
theorem sound_run
    {s : Session}
    (hStarted : s.Started)
    (supply : Supply)
    (commands : List Command) :
    ((Desk.start s supply).run commands).session.Sound := by
  intro b hBaseline
  cases hInline : s.settings.inlineLiterals with
  | true =>
      have hKept :=
        Desk.Kept.run
          (Desk.kept_start hStarted hInline supply) commands
      exact hKept.compiled b hBaseline
  | false =>
      have hSync :=
        (Desk.inSync_start hStarted hInline supply).run commands
      exact (hSync.baseline b hBaseline).1

variable {s : Session}

/-
  Neither comparison overlooks a kind, so no stage of an
  unknown kind fits what was compiled last.
-/
theorem Sound.known
    (h : s.Sound)
    (hFits : s.needsCompile = false) :
    ∀ stage ∈ s.pipeline,
      Catalog.builtIn.contains stage.kind = true := by
  cases hBaseline : s.baseline with
  | none => simp [needsCompile, hBaseline] at hFits
  | some b =>
      have hKnown :=
        (Fragment.exists_ofPipeline_iff Catalog.proper_builtIn
          s.settings b.pipeline).mp ⟨_, h b hBaseline⟩
      simp only [needsCompile, hBaseline] at hFits
      split at hFits
      · rw [Bool.not_eq_false'] at hFits
        exact Pipeline.known_of_same .builtIn hFits hKnown
      · rw [Bool.not_eq_false'] at hFits
        exact
          Pipeline.known_of_sameStructure .builtIn hFits hKnown

/- Without a NaN, what was compiled just now fits itself. -/
theorem needsCompile_compiled
    (hNumbers :
      ∀ stage ∈ s.pipeline, ∀ entry ∈ stage.params.entries,
        entry.2 ≠ .nan)
    (fragment : Fragment) :
    { s with
      baseline := some ⟨s.pipeline, fragment⟩ }.needsCompile =
        false := by
  have hStructure :
      Pipeline.sameStructure s.pipeline s.pipeline = true := by
    apply Pipeline.compareBy_self
    intro stage _
    simp [Stage.sameStructure]
  have hSame := Pipeline.same_self_of_numbers hNumbers
  simp [needsCompile, hStructure, hSame]

end Session

end FractalShader

------------------------------------------------------------
-- After an Edit
------------------------------------------------------------

namespace FractalShader

namespace Session

/-
  What an edit leaves in automatic mode: a compilation is due
  exactly when a kind is unknown, and then the first stage
  with such a kind is named and nothing else happens.
-/
structure SettledAuto
    (before after : Session)
    (outcome : Outcome) : Prop where
  due : after.needsCompile = outcome.requiresCompile
  due_iff :
    outcome.requiresCompile = true ↔
      ∃ stage ∈ after.pipeline,
        Catalog.builtIn.contains stage.kind = false
  failed :
    outcome.requiresCompile = true →
      outcome.fragment = none ∧
        outcome.values = none ∧
        after.baseline = before.baseline ∧
        ∃ stage,
          Catalog.builtIn.firstUnknown? after.pipeline =
              some stage ∧
            outcome.compileError =
              some
                (Failure.unknownKind stage.id
                  stage.kind).message
  done :
    outcome.requiresCompile = false →
      outcome.compileError = none ∧
        outcome.fragment.isSome = !outcome.values.isSome

variable {s next : Session} {created : Option String}
variable {outcome : Outcome}

/- How a session settles in automatic mode. -/
theorem Settles.auto
    (h : s.Settles created outcome next)
    (hMode : s.settings.mode = .auto)
    (hSound : s.Sound)
    (hNumbers :
      ∀ stage ∈ s.pipeline, ∀ entry ∈ stage.params.entries,
        entry.2 ≠ .nan) :
    SettledAuto s next outcome := by
  -- No stage is of an unknown kind when all are known.
  have hNone :
      (∀ stage ∈ s.pipeline,
        Catalog.builtIn.contains stage.kind = true) →
        ¬ ∃ stage ∈ s.pipeline,
          Catalog.builtIn.contains stage.kind = false := by
    rintro hKnown ⟨stage, hStage, hUnknown⟩
    rw [hKnown stage hStage] at hUnknown
    cases hUnknown
  cases h with
  | due hManual =>
      rw [hMode] at hManual
      cases hManual
  | compiled _ hFragment =>
      have hKnown :=
        (Fragment.exists_ofPipeline_iff Catalog.proper_builtIn
          s.settings s.pipeline).mp ⟨_, hFragment⟩
      exact
        { due := needsCompile_compiled hNumbers _
          due_iff := by simpa using hNone hKnown
          failed := by simp
          done := by simp }
  | failed _ hNeeds hFragment =>
      rcases Fragment.error_of_ofPipeline Catalog.proper_builtIn
          hFragment with
        ⟨stage, hFirst, rfl⟩
      have hUnknown := List.find?_some hFirst
      have hMem := List.mem_of_find?_eq_some hFirst
      exact
        { due := hNeeds
          due_iff := by
            simpa using ⟨stage, hMem, by simpa using hUnknown⟩
          failed := fun _ =>
            ⟨rfl, rfl, rfl, stage, hFirst, rfl⟩
          done := by simp }
  | refreshed hFits =>
      exact
        { due := hFits
          due_iff := by simpa using hNone (hSound.known hFits)
          failed := by simp
          done := by simp }

/- Some run from an accepted start without a NaN ends here. -/
def ReachedInNumbers (s : Session) : Prop :=
  ∃ first : Session,
    (first.Started ∨
        ∃ text settings, load text settings = .ok first) ∧
      first.graph.AllValues (· ≠ .nan) ∧
        ∃ supply commands,
          ((Desk.start first supply).run commands).session = s

/- What holds of all such sessions. -/
theorem ReachedInNumbers.invariants
    {s : Session}
    (h : s.ReachedInNumbers) :
    s.Sound ∧ s.graph.AllValues (· ≠ .nan) := by
  rcases h with ⟨first, hFirst, hNumbers, supply, commands, rfl⟩
  have hStarted : first.Started := by
    rcases hFirst with hStarted | ⟨text, settings, hLoad⟩
    · exact hStarted
    · exact started_of_load hLoad
  exact
    ⟨sound_run hStarted supply commands,
      allValues_run hNumbers
        (fun _ => Binary.ne_nan_of_isFinite)
        supply commands⟩

/-
  In automatic mode an edit that is taken leaves a
  compilation due only for the sake of an unknown kind, from
  every start without a NaN.  In manual mode it answers with
  values exactly when no compilation is due, and with nothing
  else.
-/
theorem settles_edits
    {s : Session}
    {supply : Supply}
    {edit : Edit}
    {outcome : Outcome}
    (hTaken : (s.apply supply edit).1 = .ok outcome) :
    (s.ReachedInNumbers → s.settings.mode = .auto →
      SettledAuto s (s.apply supply edit).2.1 outcome) ∧
      (s.settings.mode = .manual →
        outcome.fragment = none ∧
          outcome.compileError = none ∧
          (outcome.values.isSome = true ↔
            (s.apply supply edit).2.1.needsCompile =
              false)) := by
  rcases settles_of_apply hTaken with
    ⟨created, pipeline, _, hPipeline, hSettles⟩
  constructor
  · intro hReached hMode
    rcases hReached.invariants with ⟨hSound, hBefore⟩
    have hAfter :
        (s.graph.apply supply edit).graph.AllValues (· ≠ .nan)
    := by
      rw [Graph.apply_graph, ← Graph.performWith_builtIn]
      exact
        hBefore.performWith
          (fun _ => Binary.ne_nan_of_isFinite) .builtIn _
    have hSettled :=
      hSettles.auto hMode hSound
        (Pipeline.values_of_ofGraph hAfter hPipeline)
    exact
      ⟨hSettled.due, hSettled.due_iff, hSettled.failed,
        hSettled.done⟩
  · intro hMode
    generalize (s.apply supply edit).2.1 = after at hSettles ⊢
    cases hSettles with
    | due _ hNeeds => simpa using hNeeds
    | compiled hAuto =>
        rw [hMode] at hAuto
        cases hAuto
    | failed hAuto =>
        rw [hMode] at hAuto
        cases hAuto
    | refreshed hFits => simpa using hFits

/- A session on two stages, one of an unknown kind. -/
def clouded : Session :=
  ((Desk.start (.new { inlineLiterals := true }) {}).run
    [.edit (.addNode (some "a") "scale"),
      .edit (.addNode (some "b") "cloud")]).session

theorem reachedInNumbers_clouded :
    clouded.ReachedInNumbers := by
  refine ⟨_, .inl (.new _), ?_, {}, _, rfl⟩
  intro node hNode input value hValue
  exact
    Binary.ne_nan_of_isFinite
      (Graph.finiteValues_initial node hNode input value hValue)

/-
  A stage of another unknown kind is added, and the first of
  the two is named.  In a session that compiles on request a
  value is set, and values are the answer.
-/
theorem settles_edits_clouded :
    (∃ outcome,
      (clouded.apply {} (.addNode (some "c") "fog")).1 =
          .ok outcome ∧
        SettledAuto clouded
          (clouded.apply {} (.addNode (some "c") "fog")).2.1
          outcome ∧
        outcome.compileError =
          some "Node 'b' has unknown type 'cloud'") ∧
      ∃ outcome,
        (Desk.sample.session.apply {}
            (.setParam "fold" "offset_x" (.ofInt 3))).1 =
            .ok outcome ∧
          outcome.fragment = none ∧
          outcome.compileError = none ∧
          (outcome.values.isSome = true ↔
            (Desk.sample.session.apply {}
              (.setParam "fold" "offset_x"
                (.ofInt 3))).2.1.needsCompile =
              false) := by
  have hAuto :
      (clouded.apply {} (.addNode (some "c") "fog")).1 =
        .ok
          { requiresCompile := true
            created := some "c"
            compileError :=
              some "Node 'b' has unknown type 'cloud'" } := by
    decide +kernel
  have hManual :
      (Desk.sample.session.apply {}
          (.setParam "fold" "offset_x" (.ofInt 3))).1 =
        .ok
          { requiresCompile := false
            values :=
              some [.ofInt 3, .zero false, .zero false] } := by
    decide +kernel
  have hModes :
      clouded.settings.mode = .auto ∧
        Desk.sample.session.settings.mode = .manual := by
    decide +kernel
  exact
    ⟨⟨_, hAuto,
        (settles_edits hAuto).1 reachedInNumbers_clouded
          hModes.1,
        rfl⟩,
      ⟨_, hManual, (settles_edits hManual).2 hModes.2⟩⟩

end Session

end FractalShader
