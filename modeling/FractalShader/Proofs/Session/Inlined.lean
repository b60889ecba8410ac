import FractalShader.Proofs.Session.Renderer
import FractalShader.Proofs.Shader.Wiring

/-
  A renderer whose values are literals in its text.

  A session with inlined literals asks for a compilation
  when a value of the pipeline is numerically another one.
  The two zeros are numerically equal and have two texts, so
  the renderer shows the present pipeline unless a zero has
  turned into the other one.

  Main declarations:
    * `Fragment.exists_ofPipeline_iff`
    * `Stage.SameZeros`
    * `Pipeline.eq_of_same`
    * `Session.Kept`
    * `Desk.Kept.run`
    * `Desk.shows_literals`
    * `Desk.shows_other_zero`
-/

------------------------------------------------------------
-- Pipelines with a Fragment
------------------------------------------------------------

namespace FractalShader

namespace Program

/- There is a program when and only when all kinds are known. -/
theorem exists_assemble_iff
    {catalog : Catalog}
    (hProper : catalog.Proper)
    (inline : Bool)
    (index : Nat)
    (outputs : Outputs)
    (p : Pipeline) :
    (∃ program,
        assemble catalog inline index outputs p =
          .ok program) ↔
      ∀ stage ∈ p, catalog.contains stage.kind = true := by
  induction p generalizing index outputs with
  | nil => simp [assemble]
  | cons stage p ih =>
      rw [List.forall_mem_cons, Catalog.contains]
      cases hKind : catalog.find? stage.kind with
      | none => simp [assemble, hKind]
      | some kind =>
          simp only [Option.isSome_some, true_and]
          cases hEnabled : stage.enabled with
          | false =>
              rw [assemble_disabled hKind hEnabled]
              exact ih _ _
          | true =>
              rcases stage.exists_references inline
                  outputs.cells (hProper _ _ hKind) with
                ⟨⟨references, cells⟩, hFound⟩
              rw [← ih (index + 1)
                (outputs.push stage.id (.stage index)
                  cells.length)]
              constructor
              · intro hGiven
                rcases hGiven with ⟨program, hProgram⟩
                rw [assemble] at hProgram
                simp only [hKind, hEnabled, if_true] at hProgram
                rcases Answers.bind_eq_ok_iff.mp hProgram with
                  ⟨found, hSame, hProgram⟩
                rw [hFound] at hSame
                cases hSame
                rcases Answers.bind_eq_ok_iff.mp hProgram with
                  ⟨rest, hRest, _⟩
                exact ⟨rest, hRest⟩
              · intro hGiven
                rcases hGiven with ⟨rest, hRest⟩
                exact
                  ⟨_,
                    assemble_enabled hKind hEnabled hFound
                      hRest⟩

end Program

/- There is a fragment when and only when all kinds are known. -/
theorem Fragment.exists_ofPipeline_iff
    {catalog : Catalog}
    (hProper : catalog.Proper)
    (settings : Settings)
    (p : Pipeline) :
    (∃ fragment,
        ofPipeline catalog settings p = .ok fragment) ↔
      ∀ stage ∈ p, catalog.contains stage.kind = true := by
  rw [← Program.exists_assemble_iff hProper
    settings.inlineLiterals 0 .start p]
  unfold ofPipeline Program.ofPipeline
  cases Program.assemble catalog settings.inlineLiterals 0
      .start p with
  | error why => simp [Except.map]
  | ok program => simp [Except.map]

end FractalShader

------------------------------------------------------------
-- Pipelines That Are the Same
------------------------------------------------------------

namespace FractalShader

/- Numbers that are equal are the same unless they are zero. -/
theorem Binary.eq_of_equal
    {f : Format}
    {a b : Binary f}
    (h : a.equal b = true)
    (hZero : a.key? = some 0 → b.key? = some 0 → a = b) :
    a = b := by
  cases a with
  | nan => simp [equal, key?] at h
  | signed negative rank =>
      cases b with
      | nan => simp [equal, key?] at h
      | signed other rank' =>
          rcases rank with ⟨m, hm⟩
          rcases rank' with ⟨n, hn⟩
          have hRanks : m = n ∧ (negative = other ∨ m = 0) := by
            cases negative <;> cases other <;>
              simp [equal, key?] at h ⊢ <;> omega
          rcases hRanks with ⟨rfl, rfl | rfl⟩
          · rfl
          · apply hZero
            · cases negative <;> simp [key?]
            · cases other <;> simp [key?]

/- Zeros of two stages under one name have one sign. -/
def Stage.SameZeros (s t : Stage) : Prop :=
  ∀ entry ∈ s.params.entries, ∀ other ∈ t.params.entries,
    entry.1 = other.1 → entry.2.key? = some 0 →
      other.2.key? = some 0 → entry.2 = other.2

theorem Params.eq_of_same
    {xs ys : List (String × F32)}
    (h : same xs ys = true)
    (hZeros :
      ∀ entry ∈ xs, ∀ other ∈ ys,
        entry.1 = other.1 → entry.2.key? = some 0 →
          other.2.key? = some 0 → entry.2 = other.2) :
    xs = ys := by
  induction xs generalizing ys with
  | nil =>
      cases ys with
      | nil => rfl
      | cons other ys => cases h
  | cons entry xs ih =>
      cases ys with
      | nil => cases h
      | cons other ys =>
          simp only [same, Bool.and_eq_true, beq_iff_eq] at h
          rcases h with ⟨⟨hName, hValue⟩, hRest⟩
          have hFirst : entry.2 = other.2 :=
            Binary.eq_of_equal hValue
              (hZeros entry List.mem_cons_self other
                List.mem_cons_self hName)
          have hLater : xs = ys := by
            apply ih hRest
            intro entry hEntry other hOther
            exact
              hZeros entry (List.mem_cons_of_mem _ hEntry) other
                (List.mem_cons_of_mem _ hOther)
          rw [hLater, Prod.ext hName hFirst]

theorem Stage.eq_of_same
    {s t : Stage}
    (h : s.same t = true)
    (hZeros : s.SameZeros t) :
    s = t := by
  simp only [same, Bool.and_eq_true, beq_iff_eq] at h
  rcases h with
    ⟨⟨⟨⟨⟨⟨hId, hKind⟩, hEnabled⟩, hParams⟩, hBindings⟩,
      hGuard⟩, hSources⟩
  have hEntries := Params.eq_of_same hParams hZeros
  have hSame : s.params = t.params := Dict.ext_entries hEntries
  rcases s with ⟨⟨_, _, _, _, _, _⟩, _⟩
  rcases t with ⟨⟨_, _, _, _, _, _⟩, _⟩
  simp_all

namespace Pipeline

/- Pipelines that are the same differ in signs of zeros only. -/
theorem eq_of_same
    {p q : Pipeline}
    (h : same p q = true)
    (hZeros : List.Forall₂ Stage.SameZeros p q) :
    p = q := by
  induction hZeros with
  | nil => rfl
  | cons hStage _ ih =>
      rcases Bool.and_eq_true_iff.mp h with ⟨hFirst, hRest⟩
      rw [Stage.eq_of_same hFirst hStage, ih hRest]

/- A comparison that minds the kinds leaves them known. -/
theorem known_of_compareBy
    {related : Stage → Stage → Bool}
    (hKinds : ∀ s t, related s t = true → s.kind = t.kind)
    (catalog : Catalog)
    {p q : Pipeline}
    (h : compareBy related p q = true)
    (hKnown :
      ∀ stage ∈ p, catalog.contains stage.kind = true) :
    ∀ stage ∈ q, catalog.contains stage.kind = true := by
  induction p generalizing q with
  | nil =>
      cases q with
      | nil => exact hKnown
      | cons t q => cases h
  | cons s p ih =>
      cases q with
      | nil => cases h
      | cons t q =>
          rcases Bool.and_eq_true_iff.mp h with
            ⟨hFirst, hRest⟩
          rw [List.forall_mem_cons] at hKnown ⊢
          rw [← hKinds s t hFirst]
          exact ⟨hKnown.1, ih hRest hKnown.2⟩

theorem known_of_same
    (catalog : Catalog)
    {p q : Pipeline}
    (h : same p q = true)
    (hKnown :
      ∀ stage ∈ p, catalog.contains stage.kind = true) :
    ∀ stage ∈ q, catalog.contains stage.kind = true := by
  refine known_of_compareBy ?_ catalog h hKnown
  intro s t hSame
  simp only [Stage.same, Bool.and_eq_true, beq_iff_eq] at hSame
  exact hSame.1.1.1.1.1.2

theorem known_of_sameStructure
    (catalog : Catalog)
    {p q : Pipeline}
    (h : sameStructure p q = true)
    (hKnown :
      ∀ stage ∈ p, catalog.contains stage.kind = true) :
    ∀ stage ∈ q, catalog.contains stage.kind = true := by
  refine known_of_compareBy ?_ catalog h hKnown
  intro s t hSame
  simp only [Stage.sameStructure, Bool.and_eq_true,
    beq_iff_eq] at hSame
  exact hSame.1.1.1.1.2

end Pipeline

end FractalShader

------------------------------------------------------------
-- The Invariant
------------------------------------------------------------

namespace FractalShader

namespace Session

/-
  Literals are inlined, and the renderer runs the fragment
  compiled last, which is the fragment of the pipeline
  compiled last.
-/
structure Kept
    (s : Session)
    (r : Renderer) : Prop where
  literals : s.settings.inlineLiterals = true
  compiled :
    ∀ b ∈ s.baseline,
      Fragment.ofPipeline .builtIn s.settings b.pipeline =
        .ok b.fragment
  shown : ∀ b ∈ s.baseline, r.fragment = some b.fragment

variable {s : Session} {r : Renderer}

/-
  When no compilation is due, there is a fragment of the
  present pipeline, and it is the one that is shown unless a
  zero has turned into the other one.
-/
theorem Kept.live
    (h : s.Kept r)
    (hFits : s.needsCompile = false) :
    ∃ compiled live,
      s.baseline = some compiled ∧
        r.fragment = some compiled.fragment ∧
        Fragment.ofPipeline .builtIn s.settings s.pipeline =
          .ok live ∧
        (List.Forall₂ Stage.SameZeros compiled.pipeline
            s.pipeline →
          live = compiled.fragment) := by
  cases hBaseline : s.baseline with
  | none => simp [needsCompile, hBaseline] at hFits
  | some b =>
      have hCompiled := h.compiled b hBaseline
      have hSame :
          Pipeline.same b.pipeline s.pipeline = true := by
        simpa [needsCompile, hBaseline, h.literals] using hFits
      have hKnown :=
        Pipeline.known_of_same .builtIn hSame
          ((Fragment.exists_ofPipeline_iff
            Catalog.proper_builtIn s.settings b.pipeline).mp
            ⟨_, hCompiled⟩)
      rcases (Fragment.exists_ofPipeline_iff
          Catalog.proper_builtIn s.settings s.pipeline).mpr
          hKnown with
        ⟨live, hLive⟩
      refine ⟨b, live, rfl, h.shown b hBaseline, hLive, ?_⟩
      intro hZeros
      rw [← Pipeline.eq_of_same hSame hZeros, hCompiled]
        at hLive
      injection hLive with hEq
      exact hEq.symm

/- Values alone leave the fragment in place. -/
theorem Kept.withFragment
    (h : s.Kept r)
    {next : Renderer}
    (hSame : next.fragment = r.fragment) :
    s.Kept next where
  literals := h.literals
  compiled := h.compiled
  shown := fun b hBaseline =>
    hSame.trans (h.shown b hBaseline)

/- The renderer takes a fragment as soon as it is compiled. -/
theorem Kept.compile
    (h : s.Kept r)
    {fragment : Fragment}
    {next : Session}
    (hCompile : s.compile = (.ok fragment, next)) :
    next.Kept (r.load fragment) := by
  unfold Session.compile at hCompile
  cases hFragment :
      Fragment.ofPipeline .builtIn s.settings s.pipeline with
  | error why =>
      rw [hFragment] at hCompile
      cases hCompile
  | ok compiled =>
      rw [hFragment] at hCompile
      cases hCompile
      refine ⟨h.literals, ?_, ?_⟩
      · intro b hBaseline
        cases hBaseline
        exact hFragment
      · intro b hBaseline
        cases hBaseline
        rfl

/- Settling hands out values or the fragment compiled now. -/
theorem Kept.settle
    (h : s.Kept r)
    (created : Option String) :
    (s.settle created).2.Kept
      (r.follow ((s.settle created).1.mapError .failed)) := by
  unfold Session.settle
  cases hNeeds : s.needsCompile with
  | true =>
      simp only [if_true]
      cases s.settings.mode with
      | manual => exact h
      | auto =>
          rcases hCompile : s.compile with ⟨answer, after⟩
          cases answer with
          | ok fragment => exact h.compile hCompile
          | error failure =>
              cases compile_error hCompile
              exact h
  | false =>
      simp only [Bool.false_eq_true, if_false]
      cases s.values with
      | error failure => exact h
      | ok values => exact h.withFragment rfl

/- An edit, taken or not, keeps what is shown. -/
theorem Kept.apply
    (h : s.Kept r)
    (supply : Supply)
    (edit : Edit) :
    (s.apply supply edit).2.1.Kept
      (r.follow (s.apply supply edit).1) := by
  have hChanged :
      ∀ graph pipeline,
        { s with graph := graph, pipeline := pipeline }.Kept
          r :=
    fun _ _ => ⟨h.literals, h.compiled, h.shown⟩
  unfold Session.apply
  dsimp only
  cases (s.graph.apply supply edit).answer with
  | error refusal => exact hChanged _ s.pipeline
  | ok created =>
      cases Pipeline.ofGraph (s.graph.apply supply edit).graph
        with
      | error failure => exact hChanged _ s.pipeline
      | ok pipeline => exact (hChanged _ pipeline).settle created

theorem Kept.compileAny
    (h : s.Kept r) :
    s.compile.2.Kept
      (r.receive (s.compile.1.map some)) := by
  rcases hCompile : s.compile with ⟨answer, after⟩
  cases answer with
  | ok fragment => exact h.compile hCompile
  | error failure =>
      cases compile_error hCompile
      exact h

end Session

namespace Desk

/- Every command keeps what the renderer shows. -/
theorem Kept.step
    {desk : Desk}
    (h : desk.session.Kept desk.renderer)
    (command : Command) :
    (desk.step command).session.Kept
      (desk.step command).renderer := by
  cases command with
  | edit edit => exact h.apply desk.supply edit
  | compile => exact h.compileAny
  | compileIfNeeded =>
      change
        desk.session.compileIfNeeded.2.Kept
          (desk.renderer.receive
            desk.session.compileIfNeeded.1)
      unfold Session.compileIfNeeded
      split
      · exact h.compileAny
      · exact h
  | setMode mode =>
      refine ⟨h.literals, ?_, h.shown⟩
      intro b hBaseline
      exact
        (Fragment.ofPipeline_mode _ _ mode _).trans
          (h.compiled b hBaseline)

/- Every run keeps what the renderer shows. -/
theorem Kept.run
    {desk : Desk}
    (h : desk.session.Kept desk.renderer)
    (commands : List Command) :
    (desk.run commands).session.Kept
      (desk.run commands).renderer :=
  @run_induction
    (fun desk => desk.session.Kept desk.renderer)
    (fun _ command hKept => Kept.step hKept command) desk h
    commands

theorem kept_start
    {s : Session}
    (hStarted : s.Started)
    (hInline : s.settings.inlineLiterals = true)
    (supply : Supply) :
    (start s supply).session.Kept
      (start s supply).renderer := by
  have hNone : (start s supply).session.baseline = none :=
    (fresh_of_started hStarted).1
  refine ⟨hInline, ?_, ?_⟩ <;>
    · intro b hBaseline
      rw [hNone] at hBaseline
      cases hBaseline

/-
  Whenever no compilation is due, the present pipeline has a
  fragment, and it is the one compiled last and shown, unless
  a zero of the pipeline compiled last is now the other one.
-/
theorem shows_literals
    {s : Session}
    (hStarted : s.Started)
    (hInline : s.settings.inlineLiterals = true)
    (supply : Supply)
    (commands : List Command)
    (hFits :
      ((start s supply).run commands).session.needsCompile =
        false) :
    ∃ compiled live,
      ((start s supply).run commands).session.baseline =
          some compiled ∧
        ((start s supply).run commands).renderer.fragment =
          some compiled.fragment ∧
        Fragment.ofPipeline .builtIn
            ((start s supply).run commands).session.settings
            ((start s supply).run commands).session.pipeline =
          .ok live ∧
        (List.Forall₂ Stage.SameZeros compiled.pipeline
            ((start s supply).run commands).session.pipeline →
          live = compiled.fragment) :=
  (Kept.run (kept_start hStarted hInline supply) commands).live
    hFits

/- A session that moves by nothing and then by minus nothing. -/
def otherZero : Desk :=
  (start (.new { inlineLiterals := true }) {}).run
    [.edit (.addNode (some "t") "translate"),
      .edit (.setParam "t" "x" (.zero true))]

theorem shows_literals_otherZero :
    otherZero.session.needsCompile = false ∧
      ∃ compiled live,
        otherZero.session.baseline = some compiled ∧
          otherZero.renderer.fragment =
            some compiled.fragment ∧
          Fragment.ofPipeline .builtIn
              otherZero.session.settings
              otherZero.session.pipeline =
            .ok live := by
  have hFits : otherZero.session.needsCompile = false := by
    decide +kernel
  rcases shows_literals (.new { inlineLiterals := true }) rfl {}
      _ hFits with
    ⟨compiled, live, hBaseline, hShown, hLive, _⟩
  exact ⟨hFits, compiled, live, hBaseline, hShown, hLive⟩

/-
  No compilation is due, and the text that is shown is not
  that of the present pipeline.
-/
theorem shows_other_zero :
    otherZero.session.needsCompile = false ∧
      otherZero.renderer.fragment.map Fragment.source =
        some
          ("// t (translate)\n" ++ "vec4 v0 = z;\n" ++
            "v0.xyz += vec3(0.0, 0.0, 0.0);\n" ++
            "z = v0;\n") ∧
      (Fragment.ofPipeline .builtIn otherZero.session.settings
          otherZero.session.pipeline).map Fragment.source =
        .ok
          ("// t (translate)\n" ++ "vec4 v0 = z;\n" ++
            "v0.xyz += vec3(-0.0, 0.0, 0.0);\n" ++
            "z = v0;\n") := by
  refine ⟨?_, ?_, ?_⟩ <;> decide +kernel

end Desk

end FractalShader
