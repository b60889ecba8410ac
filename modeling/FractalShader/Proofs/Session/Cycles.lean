import FractalShader.Proofs.Graph.Closing
import FractalShader.Proofs.Session.Rejections

/-
  Which edges a session refuses because they would close a
  cycle.

  These are the edges with which the graph has no pipeline,
  as long as all edges run from the first sentinel to the
  last one.  Edits keep to that, and so do the graphs of
  saved pipelines; a given graph may not.

  Main declarations:
    * `Session.directed_run`
    * `Session.RefusesCycle`
    * `Session.TakesEdge`
    * `Session.Ordered.refusesCycle_iff`
    * `Session.guards_cycles`
    * `Session.guards_more`
-/

------------------------------------------------------------
-- Directed Sessions
------------------------------------------------------------

namespace FractalShader

/- What is rebuilt from a tidy pipeline is directed. -/
theorem Pipeline.Tidy.directed_toGraph
    {p : Pipeline}
    (h : p.Tidy)
    (catalog : Catalog) :
    (p.toGraph catalog).Directed := by
  have hStage :
      ∀ id ∈ p.ids, id ≠ startId ∧ id ≠ endId := by
    intro id hMem
    simpa [isSentinel] using h.real id hMem
  intro edge hEdge
  rcases (mem_edgesFrom_iff catalog startId p edge).mp hEdge
    with ⟨before, stage, after, hSplit, hMem⟩ | rfl
  · refine ⟨?_, ?_⟩
    · rcases h.source_of_mem_edges hSplit hMem with
        hFirst | hEarlier
      · rw [hFirst]
        decide
      · exact (hStage _ (by simp [hSplit, hEarlier])).2
    · rw [(ends_of_mem_edges hMem).1]
      exact (hStage _ (by simp [hSplit])).1
  · refine ⟨?_, ?_⟩
    · change latest startId p ≠ endId
      rcases latest_eq_or_mem startId p with hFirst | hLast
      · rw [hFirst]
        decide
      · exact (hStage _ hLast).2
    · change endId ≠ startId
      decide

namespace Session

variable {s : Session}

/- A session on a directed graph is directed. -/
theorem directed_ofGraph
    {graph : Graph}
    (hDirected : graph.Directed)
    {settings : Settings}
    (h : Session.ofGraph graph settings = .ok s) :
    s.graph.Directed := by
  rcases Answers.bind_eq_ok_iff.mp h with ⟨_, _, hEq⟩
  rw [← Except.ok.inj hEq]
  exact hDirected.normalize

/- So is one on a pipeline that a session has held. -/
theorem directed_ofPipeline
    {p : Pipeline}
    (hTidy : p.Tidy)
    {settings : Settings}
    (h : Session.ofPipeline p settings = .ok s) :
    s.graph.Directed :=
  directed_ofGraph (hTidy.directed_toGraph .builtIn) h

/- Every run keeps a session directed. -/
theorem directed_run
    (h : s.graph.Directed)
    (supply : Supply)
    (commands : List Command) :
    ((Desk.start s supply).run commands).session.graph.Directed
    := by
  rcases (Desk.start s supply).exists_actions commands with
    ⟨actions, hActions⟩
  rw [hActions, ← Graph.runWith_builtIn]
  exact h.runWith .builtIn actions

end Session

end FractalShader

------------------------------------------------------------
-- Refused Edges
------------------------------------------------------------

namespace FractalShader

namespace Session

/- An edge that is asked for is refused for a cycle. -/
def RefusesCycle
    (s : Session)
    (supply : Supply)
    (requested : Option Port)
    (edge : Edge) : Prop :=
  (s.apply supply
      (.connect edge.source edge.target requested)).1 =
    .error
      (.refused (.closesCycle edge.source edge.target))

/- An edge that is asked for joins the graph. -/
def TakesEdge
    (s : Session)
    (supply : Supply)
    (requested : Option Port)
    (edge : Edge) : Prop :=
  ∃ outcome next,
    s.apply supply
        (.connect edge.source edge.target requested) =
      (.ok outcome, next) ∧
      outcome.created = some edge.id ∧
      next.1.graph = s.graph.withEdge edge

variable {s : Session} {supply : Supply}
variable {requested : Option Port} {edge : Edge}

/- What becomes of an edge when only the search is left. -/
theorem apply_connect
    (hAdmits : s.graph.Admits requested edge)
    (hDrawn : edge.id = supply.edgeId) :
    s.graph.apply supply
        (.connect edge.source edge.target requested) =
      .drawing edge.id supply
        (if s.graph.wouldCycle edge.source edge.target then
          (.error (.closesCycle edge.source edge.target),
            s.graph)
        else
          (.ok (), s.graph.withEdge edge)) := by
  rw [← hAdmits.connect_eq, hDrawn]
  rfl

/-
  An edge is refused when the graph with it has no pipeline
  or has a sentinel on a cycle.
-/
theorem Ordered.refusesCycle_iff
    (h : s.Ordered)
    (hAdmits : s.graph.Admits requested edge)
    (hDrawn : edge.id = supply.edgeId) :
    s.RefusesCycle supply requested edge ↔
      (s.graph.withEdge edge).Stalls ∨
        (s.graph.withEdge edge).Knotted := by
  rw [← hAdmits.closesCycle_iff h.graph.ends, RefusesCycle,
    h.rejected_iff, apply_connect hAdmits hDrawn]
  cases s.graph.wouldCycle edge.source edge.target <;>
    simp [Change.drawing, Change.creating, Except.map]

/- Nothing else stops the edge. -/
theorem Ordered.takes_edge
    (h : s.Ordered)
    (hAdmits : s.graph.Admits requested edge)
    (hDrawn : edge.id = supply.edgeId)
    (hNot : ¬ s.RefusesCycle supply requested edge) :
    s.TakesEdge supply requested edge := by
  have hSearch :
      s.graph.wouldCycle edge.source edge.target = false := by
    rw [h.refusesCycle_iff hAdmits hDrawn,
      ← hAdmits.closesCycle_iff h.graph.ends] at hNot
    simpa using hNot
  have hConnect := apply_connect hAdmits hDrawn
  rw [hSearch] at hConnect
  have hTaken := congrArg Change.answer hConnect
  have hGraph := congrArg Change.graph hConnect
  rcases h.apply_taken hTaken with
    ⟨outcome, _, hOk, hCreated, _⟩
  refine ⟨outcome, _, Prod.ext hOk rfl, hCreated, ?_⟩
  rw [s.apply_graph, ← Graph.apply_graph, hGraph]
  rfl

/-
  An edge that passes the other checks is refused when the
  graph with it has no pipeline or has a sentinel on a
  cycle, and it is taken otherwise.  In a session that
  starts directed no sentinel is on a cycle.
-/
theorem guards_cycles
    {first : Session}
    (hStarted : first.Started)
    {supply : Supply}
    {commands : List Command}
    (hRun :
      ((Desk.start first supply).run commands).session = s)
    (hAdmits : s.graph.Admits requested edge)
    (next : Supply)
    (hDrawn : edge.id = next.edgeId) :
    (s.RefusesCycle next requested edge ↔
      (s.graph.withEdge edge).Stalls ∨
        (s.graph.withEdge edge).Knotted) ∧
      (first.graph.Directed →
        (s.RefusesCycle next requested edge ↔
          (s.graph.withEdge edge).Stalls)) ∧
      (¬ s.RefusesCycle next requested edge →
        s.TakesEdge next requested edge) := by
  have hReached : s.Reached :=
    ⟨first, hStarted, supply, commands, hRun⟩
  have hIff := hReached.ordered.refusesCycle_iff hAdmits hDrawn
  refine ⟨hIff, ?_, hReached.ordered.takes_edge hAdmits hDrawn⟩
  intro hFirst
  have hDirected : s.graph.Directed :=
    hRun ▸ directed_run hFirst supply commands
  have hLoose :=
    (hDirected.withEdge hAdmits.directed).not_knotted
  rw [hIff, or_iff_left hLoose]

/- Two nodes, the first of which feeds the second. -/
def paired : Session :=
  ((Desk.start (.new {}) {}).run
    [.edit (.addNode (some "a") "scale"),
      .edit (.addNode (some "b") "scale"),
      .edit (.connect "a" "b" none)]).session

/- The edge back, under the next id. -/
def edgeBack : Edge :=
  ⟨Supply.edgeId ⟨1⟩, "b", "a", none⟩

theorem guards_cycles_paired :
    paired.graph.Admits none edgeBack ∧
      paired.RefusesCycle ⟨1⟩ none edgeBack ∧
      (paired.graph.withEdge edgeBack).Stalls := by
  have hAdmits : paired.graph.Admits none edgeBack :=
    { source_mem := by decide +kernel
      directed := by decide
      apart := by decide
      fresh := by decide +kernel
      free :=
        ⟨Graph.freshNode "a" "scale",
          by decide +kernel, by decide +kernel⟩ }
  have hRefused : paired.RefusesCycle ⟨1⟩ none edgeBack := by
    unfold RefusesCycle
    decide +kernel
  have hGuards :=
    guards_cycles (.new {}) rfl hAdmits ⟨1⟩ rfl
  exact
    ⟨hAdmits, hRefused,
      (hGuards.2.1 Graph.directed_initial).mp hRefused⟩

/- A node that the first sentinel feeds and that feeds it. -/
def ringedGraph : Graph where
  nodes :=
    [{ id := "a", kind := "scale" },
      { id := "b", kind := "scale" }]
  edges :=
    [⟨"e1", startId, "a", none⟩, ⟨"e2", "a", startId, none⟩]

/- Its session. -/
def ringed : Session where
  graph := ringedGraph.normalize
  settings := {}
  pipeline :=
    [{ id := "a", kind := "scale" },
      { id := "b", kind := "scale" }]
  baseline := none

/- The edge from one node to the other. -/
def edgeAcross : Edge :=
  ⟨Supply.edgeId {}, "a", "b", none⟩

/- An edge is refused with which there is a pipeline. -/
theorem guards_more :
    Session.ofGraph ringedGraph {} = .ok ringed ∧
      ringed.graph.Admits none edgeAcross ∧
      ringed.RefusesCycle {} none edgeAcross ∧
      (Pipeline.ofGraph
          (ringed.graph.withEdge edgeAcross)).map
          Pipeline.ids =
        .ok ["a", "b"] := by
  have hAdmits : ringed.graph.Admits none edgeAcross :=
    { source_mem := by decide +kernel
      directed := by decide
      apart := by decide
      fresh := by decide +kernel
      free :=
        ⟨{ id := "b", kind := "scale" },
          by decide +kernel, by decide +kernel⟩ }
  refine ⟨by decide +kernel, hAdmits, ?_, by decide +kernel⟩
  unfold RefusesCycle
  decide +kernel

end Session

end FractalShader
