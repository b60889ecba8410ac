import FractalShader.Proofs.Binary.ReadBack
import FractalShader.Proofs.Session.Parameters
import FractalShader.Proofs.Session.Reload

/-
  Saved sessions are loaded again with their values.

  A value is written with the fewest digits that tell it
  from all other four-byte numbers, and read with more
  precision than it has.  What is read is the same number:
  the text of a pipeline gives the pipeline again exactly
  when all its values are finite, and so does a session that
  is loaded from it, up to the order of the stages.

  Main declarations:
    * `Binary.ofJson?_toJson`
    * `Pipeline.FiniteValues`
    * `Pipeline.ofText?_prettyText_eq_some_iff`
    * `Pipeline.store`
    * `Session.Ordered.exists_loaded`
    * `Session.reloads`
    * `Pipeline.reads_stored_value`
-/

------------------------------------------------------------
-- Values
------------------------------------------------------------

namespace FractalShader

namespace Binary

/- Every finite number is read back from its form. -/
theorem ofJson?_toJson
    {v : F32}
    (h : v.isFinite = true) :
    ofJson? (toJson v) = some v := by
  rcases reading?_numeral? h with ⟨n, hNumeral, hReading⟩
  change
    (v.toJsonAs .jsonSingle).reading?.map Reading.toBinary =
      some v
  unfold toJsonAs
  rw [hNumeral]
  exact hReading

end Binary

end FractalShader

------------------------------------------------------------
-- Pipelines
------------------------------------------------------------

namespace FractalShader

namespace Pipeline

/- Every value that a stage stores is finite. -/
def FiniteValues (p : Pipeline) : Prop :=
  ∀ stage ∈ p, ∀ entry ∈ stage.params.entries,
    entry.2.isFinite = true

variable {p : Pipeline}

/- Finite values are all that can be read back. -/
theorem readable_iff (p : Pipeline) :
    p.Readable ↔ p.FiniteValues := by
  constructor
  · exact Readable.isFinite
  · intro h stage hStage entry hEntry
    exact Binary.ofJson?_toJson (h stage hStage entry hEntry)

/-
  What is read from the text of a pipeline is the pipeline,
  and something is read if all values are finite.
-/
theorem ofText?_prettyText_eq_some_iff
    (p read : Pipeline) :
    ofText? (prettyText p) = some read ↔
      p.FiniteValues ∧ read = p := by
  rw [ofText?_prettyText p.clean_toJson]
  by_cases hFinite : p.FiniteValues
  · rw [((readable_iff p).mpr hFinite).ofJson?_toJson]
    simp [hFinite, eq_comm]
  · simp only [hFinite, false_and, iff_false]
    unfold FiniteValues at hFinite
    push Not at hFinite
    rcases hFinite with ⟨stage, hStage, entry, hEntry, hNot⟩
    rw [ofJson?_toJson_eq_none hStage hEntry
      (Bool.eq_false_iff.mpr hNot)]
    simp

end Pipeline

end FractalShader

------------------------------------------------------------
-- Storing
------------------------------------------------------------

namespace FractalShader

/- The stage with a value stored under a name. -/
def Stage.store
    (stage : Stage)
    (name : String)
    (v : F32) : Stage :=
  { stage with params := stage.params.insert name v }

namespace Pipeline

/- The pipeline with a value stored at one of its stages. -/
def store
    (p : Pipeline)
    (i : Nat)
    (name : String)
    (v : F32) : Pipeline :=
  p.modify i fun stage => stage.store name v

/- The value that is stored at a stage under a name. -/
def stored?
    (p : Pipeline)
    (i : Nat)
    (name : String) : Option F32 :=
  p[i]?.bind fun stage => stage.params.get? name

variable {p : Pipeline} {i : Nat}

theorem getElem?_store
    (h : i < p.length)
    (name : String)
    (v : F32) :
    (p.store i name v)[i]? = some (p[i].store name v) := by
  rw [store, List.getElem?_modify_eq,
    List.getElem?_eq_getElem h]
  rfl

theorem stored?_store
    (h : i < p.length)
    (name : String)
    (v : F32) :
    (p.store i name v).stored? i name = some v := by
  rw [stored?, getElem?_store h]
  simp [Stage.store]

/- A finite value leaves all values finite. -/
theorem FiniteValues.store
    (h : p.FiniteValues)
    {v : F32}
    (hFinite : v.isFinite = true)
    (i : Nat)
    (name : String) :
    (p.store i name v).FiniteValues := by
  intro stage hStage entry hEntry
  rcases List.mem_iff_getElem?.mp hStage with ⟨j, hj⟩
  rw [Pipeline.store, List.getElem?_modify] at hj
  rcases Option.map_eq_some_iff.mp hj with ⟨old, hOld, rfl⟩
  have hMem := List.mem_of_getElem? hOld
  split at hEntry
  · have hGet :=
      (Dict.get?_eq_some_iff _ entry.1 entry.2).mpr hEntry
    rw [Stage.store, Dict.get?_insert] at hGet
    split at hGet
    · injection hGet with hValue
      exact hValue ▸ hFinite
    · exact
        h old hMem entry
          ((Dict.get?_eq_some_iff _ entry.1 entry.2).mp hGet)
  · exact h old hMem entry hEntry

end Pipeline

end FractalShader

------------------------------------------------------------
-- Loading
------------------------------------------------------------

namespace FractalShader

namespace Session

/-
  A session with finite values is loaded again, and every
  stage is found in what is loaded, though perhaps at another
  place.
-/
theorem Ordered.exists_loaded
    {s : Session}
    (h : s.Ordered)
    (hFinite : s.pipeline.FiniteValues)
    (settings : Settings) :
    ∃ restored,
      load s.save settings = .ok restored ∧
        ∀ stage ∈ s.pipeline, ∃ read ∈ restored.pipeline,
          read.toOperation = stage.toOperation := by
  have hTidy := Pipeline.tidy_of_ofGraph h.pipeline
  rcases exists_ofPipeline hTidy settings with
    ⟨restored, hRestored, hPipeline⟩
  refine ⟨restored, ?_, ?_⟩
  · rw [load_save ((Pipeline.readable_iff _).mpr hFinite),
      hRestored]
    rfl
  · intro stage hStage
    rcases hTidy.operations_get? .builtIn hStage with
      ⟨node, hNode, hSame⟩
    have hId : stage.id ∈ restored.pipeline.ids := by
      rw [(Pipeline.orders_of_ofGraph hPipeline).mem_iff,
        hTidy.real_toGraph_iff]
      exact List.mem_map_of_mem hStage
    rcases List.mem_map.mp hId with ⟨read, hRead, hReadId⟩
    refine ⟨read, hRead, ?_⟩
    rw [(Pipeline.ofGraph_eq_ok hPipeline).2] at hRead
    rcases Pipeline.operation_of_stages hRead with
      ⟨other, hOther, hOperation⟩
    rw [hReadId, hNode] at hOther
    injection hOther with hOther
    rw [hOperation, ← hOther, hSame]

/- Edits store finite values only. -/
theorem finiteValues_of_new
    {s : Session}
    {first : Settings}
    {supply : Supply}
    {commands : List Command}
    (hRun :
      ((Desk.start (.new first) supply).run commands).session =
        s) :
    s.pipeline.FiniteValues := by
  have hReached : s.Reached :=
    ⟨_, .new first, supply, commands, hRun⟩
  have hFinite : s.graph.FiniteValues := by
    rw [← hRun]
    exact
      finiteValues_run Graph.finiteValues_initial supply
        commands
  exact
    Pipeline.isFinite_of_ofGraph hFinite
      hReached.ordered.pipeline

/-
  The text of every session that is reached is read again
  when its values are finite, and only then.  What is loaded
  has the same pipeline exactly when no other order of the
  rebuilt graph comes first, as when no input of the graph is
  fed by two sources.  So whatever is done to an empty
  session, its text is loaded with the same pipeline.
-/
theorem reloads
    {s : Session}
    (h : s.Reached)
    (settings : Settings) :
    (s.pipeline.FiniteValues →
      ∃ restored,
        load s.save settings = .ok restored ∧
          (restored.pipeline = s.pipeline ↔
            ∀ order,
              (s.pipeline.toGraph .builtIn).Orders order →
                s.pipeline.ids = order ∨
                  List.Lex (· < ·) s.pipeline.ids order) ∧
          (s.graph.FedOnce →
            restored.pipeline = s.pipeline ∧
              Pipeline.same restored.pipeline s.pipeline =
                true)) ∧
      (∀ stage ∈ s.pipeline, ∀ entry ∈ stage.params.entries,
        entry.2.isFinite = false →
          load s.save settings = .error .unreadable) ∧
      ∀ first supply commands,
        ((Desk.start (.new first) supply).run
            commands).session = s →
          ∃ restored,
            load s.save settings = .ok restored ∧
              restored.pipeline = s.pipeline := by
  refine ⟨?_, ?_, ?_⟩
  · intro hFinite
    rcases h.ordered.reload
        ((Pipeline.readable_iff _).mpr hFinite) settings with
      ⟨restored, hLoad, hIff, hFed⟩
    refine ⟨restored, hLoad, hIff, fun hOnce => ?_⟩
    have hSame := hFed hOnce
    refine ⟨hSame, ?_⟩
    rw [hSame]
    exact Pipeline.same_self hFinite
  · intro stage hStage entry hEntry hNot
    exact load_save_of_not_finite hStage hEntry hNot settings
  · intro first supply commands hRun
    have hReadable : s.pipeline.Readable :=
      (Pipeline.readable_iff _).mpr (finiteValues_of_new hRun)
    have hFed : s.graph.FedOnce := by
      rw [← hRun]
      exact fedOnce_run Graph.fedOnce_initial supply commands
    rcases h.ordered.reload hReadable settings with
      ⟨restored, hLoad, _, hSame⟩
    exact ⟨restored, hLoad, hSame hFed⟩

/- A fold that feeds a bulb of another power. -/
def foldedBulb : Session :=
  ((Desk.start (.new {}) {}).run
    [.edit (.addNode (some "a") "sphere_fold"),
      .edit (.addNode (some "b") "mandelbulb"),
      .edit (.connect "a" "b" none),
      .edit (.setParam "b" "power" (.ofInt 6))]).session

theorem reloads_foldedBulb :
    foldedBulb.pipeline.ids = ["a", "b"] ∧
      ∃ restored,
        load foldedBulb.save {} = .ok restored ∧
          restored.pipeline = foldedBulb.pipeline := by
  have hReached : foldedBulb.Reached :=
    ⟨_, .new {}, {}, _, rfl⟩
  have hFinite : foldedBulb.pipeline.FiniteValues := by
    unfold Pipeline.FiniteValues
    decide +kernel
  have hFed : foldedBulb.graph.FedOnce := by
    unfold Graph.FedOnce
    decide +kernel
  rcases (reloads hReached {}).1 hFinite with
    ⟨restored, hLoad, _, hSame⟩
  exact
    ⟨by decide +kernel, restored, hLoad, (hSame hFed).1⟩

/- Two stages into the one input of a third. -/
def forkedGraph : Graph where
  nodes :=
    [{ id := "b", kind := "scale" },
      { id := "z", kind := "scale" },
      { id := "a", kind := "scale" }]
  edges :=
    [⟨"e1", "z", "a", none⟩, ⟨"e2", "b", "a", none⟩]

/- Its session; one of the two sources is recorded. -/
def forked : Session where
  graph := forkedGraph.normalize
  settings := {}
  pipeline :=
    [{ id := "b", kind := "scale" },
      { id := "z", kind := "scale" },
      { id := "a", kind := "scale"
        sources := { a := some "b" } }]
  baseline := none

/- A session on a node whose factor has overflowed. -/
def overflowed : Session where
  graph :=
    { nodes :=
        [{ id := "b", kind := "scale"
           params :=
             Dict.empty.insert "scale" (.infinite false) },
          .sentinel startId, .sentinel endId]
      edges := [] }
  settings := {}
  pipeline :=
    [{ id := "b", kind := "scale"
       params :=
         Dict.empty.insert "scale" (.infinite false) }]
  baseline := none

/-
  Both sessions are accepted.  One is loaded with its stages
  in another order, and the text of the other is not read.
-/
theorem reloads_otherwise :
    (Session.ofGraph forkedGraph {} = .ok forked ∧
      forked.pipeline.ids = ["b", "z", "a"] ∧
        (load forked.save {}).map
            (fun restored => restored.pipeline.ids) =
          .ok ["b", "a", "z"]) ∧
      Session.ofGraph overflowed.graph {} = .ok overflowed ∧
        load overflowed.save {} = .error .unreadable := by
  have hFinite : forked.pipeline.FiniteValues := by
    unfold Pipeline.FiniteValues
    decide +kernel
  refine ⟨⟨by decide +kernel, rfl, ?_⟩, by decide +kernel, ?_⟩
  · rw [load_save ((Pipeline.readable_iff _).mpr hFinite)]
    decide +kernel
  · exact
      load_save_of_not_finite List.mem_cons_self
        List.mem_cons_self rfl {}

end Session

namespace Pipeline

/-
  A finite value that is stored at a stage is read back as
  it was: its sign and its rank are its bits.  What is read
  from the text of the pipeline is the pipeline with that
  value.  With all other values finite it is read for
  certain, and a session on it is loaded with that value at
  that stage.
-/
theorem reads_stored_value
    {v : F32}
    (hFinite : v.isFinite = true)
    {p : Pipeline}
    {i : Nat}
    (hStage : i < p.length)
    (name : String) :
    (∀ read,
      ofText? (prettyText (p.store i name v)) = some read →
        read = p.store i name v ∧
          read.stored? i name = some v) ∧
      (p.FiniteValues →
        ofText? (prettyText (p.store i name v)) =
            some (p.store i name v) ∧
          ∀ s : Session, s.Ordered →
            s.pipeline = p.store i name v →
              ∀ settings, ∃ restored,
                Session.load s.save settings =
                    .ok restored ∧
                  ∃ stage ∈ restored.pipeline,
                    stage.id = p[i].id ∧
                      stage.params.get? name = some v) := by
  constructor
  · intro read hRead
    have hSame :=
      ((ofText?_prettyText_eq_some_iff _ _).mp hRead).2
    exact ⟨hSame, hSame ▸ stored?_store hStage name v⟩
  · intro hOthers
    have hAll := hOthers.store hFinite i name
    refine
      ⟨(ofText?_prettyText_eq_some_iff _ _).mpr ⟨hAll, rfl⟩,
        ?_⟩
    intro s hOrdered hPipeline settings
    rcases hOrdered.exists_loaded (hPipeline ▸ hAll) settings
      with ⟨restored, hLoad, hFound⟩
    have hMem : p[i].store name v ∈ s.pipeline := by
      rw [hPipeline]
      exact List.mem_of_getElem? (getElem?_store hStage name v)
    rcases hFound _ hMem with ⟨stage, hMember, hSame⟩
    have hId := congrArg Operation.id hSame
    have hParams := congrArg Operation.params hSame
    refine ⟨restored, hLoad, stage, hMember, hId, ?_⟩
    rw [hParams]
    simp [Stage.store]

/-
  A number whose shortest digits are so near the middle of
  two four-byte numbers that eight bytes hardly tell.
-/
def nearMiss : F32 :=
  .ofRatio 14077062 (10 ^ (32 : Nat))

/- A move whose values are the other zero and the least one. -/
def slightMove : Pipeline :=
  [{ id := "a", kind := "translate"
     params :=
       (Dict.empty.insert "y" (.zero true)).insert
         "z" (.ofRank false 1) }]

/- A session on that move with a near miss besides. -/
def movedSession : Session :=
  ((Desk.start (.new {}) {}).run
    [.edit (.addNode (some "a") "translate"),
      .edit (.setParam "a" "y" (.zero true)),
      .edit (.setParam "a" "z" (.ofRank false 1)),
      .edit (.setParam "a" "x" nearMiss)]).session

theorem reads_stored_value_nearMiss :
    nearMiss.isFinite = true ∧
      ∃ restored,
        Session.load movedSession.save {} = .ok restored ∧
          ∃ stage ∈ restored.pipeline,
            stage.id = "a" ∧
              stage.params.get? "x" = some nearMiss := by
  have hReached : movedSession.Reached :=
    ⟨_, .new {}, {}, _, rfl⟩
  have hPipeline :
      movedSession.pipeline =
        slightMove.store 0 "x" nearMiss := by
    decide +kernel
  have hOthers : slightMove.FiniteValues := by
    unfold FiniteValues
    decide +kernel
  have hFinite : nearMiss.isFinite = true := by
    decide +kernel
  have hStage : 0 < slightMove.length := by
    decide
  exact
    ⟨hFinite,
      ((reads_stored_value hFinite hStage "x").2 hOthers).2
        movedSession hReached.ordered hPipeline {}⟩

end Pipeline

end FractalShader
