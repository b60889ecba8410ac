import FractalShader.Proofs.Graph.Effects

/-
  Which edges the search for a cycle refuses, and which ones
  leave the graph without a pipeline.

  The search follows every edge, the pipeline only those
  between nodes with a stage.  So the two disagree when a
  sentinel lies on a cycle, and no sentinel does when all
  edges run from the first one to the last one.

  Main declarations:
    * `Graph.withEdge`
    * `Graph.Admits`
    * `Graph.Knotted`
    * `Graph.acyclic_iff`
    * `Graph.stalls_iff`
    * `Graph.Admits.closesCycle_iff`
    * `Graph.Directed`
    * `Graph.Directed.runWith`
-/

------------------------------------------------------------
-- Checks Before the Search
------------------------------------------------------------

namespace FractalShader

open Relation

namespace Graph

/- The graph with one more edge. -/
def withEdge
    (g : Graph)
    (edge : Edge) : Graph :=
  { g with edges := g.edges ++ [edge] }

/-
  An edge that passes all checks but the one for cycles,
  with the port that it takes.
-/
structure Admits
    (g : Graph)
    (requested : Option Port)
    (edge : Edge) : Prop where
  source_mem : edge.source ∈ g.ids
  directed : edge.source ≠ endId ∧ edge.target ≠ startId
  apart : edge.source ≠ edge.target
  fresh : edge.arrow ∉ g.arrows
  free :
    ∃ node,
      g.node? edge.target = some node ∧
        g.freePort .builtIn node requested = .ok edge.port

variable {g : Graph} {requested : Option Port} {edge : Edge}

theorem Admits.target_mem
    (h : g.Admits requested edge) :
    edge.target ∈ g.ids := by
  rcases h.free with ⟨node, hNode, _⟩
  rcases node?_eq_some hNode with ⟨hMem, hId⟩
  exact hId ▸ id_mem_ids hMem

/- Only the search for a cycle is left to decide. -/
theorem Admits.connect_eq
    (h : g.Admits requested edge) :
    g.connect .builtIn edge.id edge.source edge.target
        requested =
      if g.wouldCycle edge.source edge.target then
        (.error (.closesCycle edge.source edge.target), g)
      else
        (.ok (), g.withEdge edge) := by
  rcases h.free with ⟨node, hNode, hFree⟩
  have hSource := (hasNode_iff g _).mpr h.source_mem
  have hAgainst :
      ¬ (edge.source = endId ∨ edge.target = startId) :=
    not_or.mpr h.directed
  have hFresh :
      g.arrows.contains ⟨edge.source, edge.target⟩ =
        false := by
    simpa [Edge.arrow] using h.fresh
  have hPort :
      g.acceptedPort .builtIn edge.source edge.target
          requested =
        if g.wouldCycle edge.source edge.target then
          .error (.closesCycle edge.source edge.target)
        else
          .ok edge.port := by
    simp only [acceptedPort, hSource, hNode, hAgainst,
      h.apart, hFresh, hFree, Bool.not_true,
      Bool.false_eq_true, if_false]
  unfold Graph.connect
  rw [hPort]
  cases g.wouldCycle edge.source edge.target <;> rfl

end Graph

end FractalShader

------------------------------------------------------------
-- Cycles Through Sentinels
------------------------------------------------------------

namespace FractalShader

open Relation

namespace Graph

/- Edges join nodes of the graph. -/
def Joined (g : Graph) : Prop :=
  ∀ edge ∈ g.edges,
    edge.source ∈ g.ids ∧ edge.target ∈ g.ids

/- A sentinel leads back to itself. -/
def Knotted (g : Graph) : Prop :=
  ∃ id,
    isSentinel id = true ∧
      TransGen (Arrow.Leads g.arrows) id id

variable {g : Graph}

/- What feeds a node leads to it. -/
theorem leads_of_feeds
    {x y : String}
    (h : g.Feeds x y) :
    Arrow.Leads g.arrows x y := by
  rcases h with ⟨_, _, edge, hEdge, rfl, rfl⟩
  exact List.mem_map_of_mem hEdge

/- Between real nodes, what leads to a node feeds it. -/
theorem feeds_of_leads
    (hEnds : g.Joined)
    {x y : String}
    (h : Arrow.Leads g.arrows x y)
    (hx : isSentinel x = false)
    (hy : isSentinel y = false) :
    g.Feeds x y := by
  rcases List.mem_map.mp h with ⟨edge, hEdge, hArrow⟩
  rcases hEnds edge hEdge with ⟨hSource, hTarget⟩
  injection hArrow with hSourceEq hTargetEq
  subst hSourceEq hTargetEq
  exact ⟨⟨hx, hSource⟩, ⟨hy, hTarget⟩, edge, hEdge, rfl, rfl⟩

/- From one id to another, arrows lead past a sentinel. -/
def PassesSentinel
    (g : Graph)
    (x y : String) : Prop :=
  ∃ id,
    isSentinel id = true ∧
      ReflTransGen (Arrow.Leads g.arrows) x id ∧
      ReflTransGen (Arrow.Leads g.arrows) id y

/- An arrow joins real nodes unless one is a sentinel. -/
theorem feeds_or_passes
    (hEnds : g.Joined)
    {x y : String}
    (h : Arrow.Leads g.arrows x y) :
    g.Feeds x y ∨ g.PassesSentinel x y := by
  cases hx : isSentinel x with
  | true => exact Or.inr ⟨x, hx, .refl, .single h⟩
  | false =>
      cases hy : isSentinel y with
      | true => exact Or.inr ⟨y, hy, .single h, .refl⟩
      | false => exact Or.inl (feeds_of_leads hEnds h hx hy)

/- So does a path. -/
theorem path_feeds_or_passes
    (hEnds : g.Joined)
    {x y : String}
    (h : TransGen (Arrow.Leads g.arrows) x y) :
    TransGen g.Feeds x y ∨ g.PassesSentinel x y := by
  induction h with
  | single hFirst =>
      exact (feeds_or_passes hEnds hFirst).imp_left .single
  | tail hPath hLast ih =>
      rcases ih with hFeeds | ⟨id, hId, hBefore, hAfter⟩
      · rcases feeds_or_passes hEnds hLast with
          hNext | ⟨id, hId, hBefore, hAfter⟩
        · exact Or.inl (hFeeds.tail hNext)
        · exact
            Or.inr
              ⟨id, hId, hPath.to_reflTransGen.trans hBefore,
                hAfter⟩
      · exact Or.inr ⟨id, hId, hBefore, hAfter.tail hLast⟩

/- A cycle is one of real nodes or one of a sentinel. -/
theorem acyclic_iff
    (hEnds : g.Joined) :
    Arrow.Acyclic g.arrows ↔
      (∀ id, ¬ TransGen g.Feeds id id) ∧ ¬ g.Knotted := by
  constructor
  · intro h
    refine ⟨fun id hCycle => ?_, fun ⟨id, _, hCycle⟩ => ?_⟩
    · exact
        h id (TransGen.mono (fun _ _ => leads_of_feeds) _ _
          hCycle)
    · exact h id hCycle
  · rintro ⟨hReal, hKnot⟩ id hCycle
    rcases path_feeds_or_passes hEnds hCycle with
      hFeeds | ⟨sentinel, hSentinel, hBefore, hAfter⟩
    · exact hReal id hFeeds
    · -- The cycle can be entered at the sentinel.
      exact
        hKnot
          ⟨sentinel, hSentinel,
            (TransGen.trans_right hAfter hCycle).trans_left
              hBefore⟩

/- There is no pipeline since nodes wait for each other. -/
def Stalls (g : Graph) : Prop :=
  ∃ waiting, Pipeline.ofGraph g = .error (.cycle waiting)

/- Nodes wait when one with a stage feeds itself. -/
theorem stalls_iff (g : Graph) :
    g.Stalls ↔ ∃ id, TransGen g.Feeds id id := by
  rw [← not_iff_not, not_exists,
    ← Pipeline.stuck_eq_nil_iff, Stalls, Pipeline.ofGraph_eq]
  by_cases hStuck : Pipeline.stuck g = []
  · simp [hStuck]
  · simp [hStuck]

variable {requested : Option Port} {edge : Edge}

/-
  The search finds a cycle when the graph with the edge has
  no pipeline or has a sentinel on a cycle.
-/
theorem Admits.closesCycle_iff
    (h : g.Admits requested edge)
    (hEnds : g.Joined) :
    g.wouldCycle edge.source edge.target = true ↔
      (g.withEdge edge).Stalls ∨
        (g.withEdge edge).Knotted := by
  have hArrows :
      (g.withEdge edge).arrows =
        g.arrows ++ [⟨edge.source, edge.target⟩] := by
    simp [arrows, withEdge, Edge.arrow]
  have hNewEnds : (g.withEdge edge).Joined := by
    intro other hOther
    rcases List.mem_append.mp hOther with hOld | hNew
    · exact hEnds other hOld
    · cases List.mem_singleton.mp hNew
      exact ⟨h.source_mem, h.target_mem⟩
  have hWithin :
      Arrow.within g.ids (g.withEdge edge).arrows =
        (g.withEdge edge).arrows := by
    apply Arrow.within_eq_self
    intro a ha
    rcases List.mem_map.mp ha with ⟨other, hOther, rfl⟩
    exact hNewEnds other hOther
  rw [stalls_iff, ← not_iff_not, not_or, not_exists,
    ← acyclic_iff hNewEnds, Bool.not_eq_true, wouldCycle,
    Arrow.closesCycle_eq_false_iff, ← hArrows, hWithin]
  exact and_iff_right h.apart

end Graph

end FractalShader

------------------------------------------------------------
-- Directed Graphs
------------------------------------------------------------

namespace FractalShader

open Relation

namespace Graph

/- No edge leaves the last sentinel or enters the first. -/
def Directed (g : Graph) : Prop :=
  ∀ edge ∈ g.edges,
    edge.source ≠ endId ∧ edge.target ≠ startId

theorem directed_initial : initial.Directed := by
  intro edge hEdge
  cases hEdge

variable {catalog : Catalog} {g h : Graph}

theorem Directed.mono
    (hDirected : g.Directed)
    (hEdges : ∀ edge ∈ h.edges, edge ∈ g.edges) :
    h.Directed :=
  fun edge hEdge => hDirected edge (hEdges edge hEdge)

theorem Directed.normalize
    (hDirected : g.Directed) :
    g.normalize.Directed :=
  hDirected.mono fun _ hEdge => mem_edges_of_normalize hEdge

theorem Directed.withEdge
    (hDirected : g.Directed)
    {edge : Edge}
    (hEdge : edge.source ≠ endId ∧ edge.target ≠ startId) :
    (g.withEdge edge).Directed := by
  intro other hOther
  rcases List.mem_append.mp hOther with hOld | hNew
  · exact hDirected other hOld
  · exact List.mem_singleton.mp hNew ▸ hEdge

/- No sentinel of a directed graph lies on a cycle. -/
theorem Directed.not_knotted
    (hDirected : g.Directed) :
    ¬ g.Knotted := by
  rintro ⟨id, hSentinel, hCycle⟩
  have hCases : id = startId ∨ id = endId := by
    simpa [isSentinel] using hSentinel
  rcases hCases with rfl | rfl
  · rcases TransGen.tail'_iff.mp hCycle with ⟨x, _, hLast⟩
    rcases List.mem_map.mp hLast with ⟨edge, hEdge, hArrow⟩
    exact
      (hDirected edge hEdge).2 (congrArg Arrow.target hArrow)
  · rcases TransGen.head'_iff.mp hCycle with ⟨x, hFirst, _⟩
    rcases List.mem_map.mp hFirst with ⟨edge, hEdge, hArrow⟩
    exact
      (hDirected edge hEdge).1 (congrArg Arrow.source hArrow)

/- Every action keeps a graph directed. -/
theorem Effect.directed
    (hEffect : Effect catalog g h)
    (hDirected : g.Directed) :
    h.Directed := by
  cases hEffect with
  | kept ids edges =>
      exact hDirected.mono fun _ hEdge => edges.subset hEdge
  | added id absent ids edges =>
      exact hDirected.mono fun _ hEdge => edges ▸ hEdge
  | removed id ids edges =>
      apply hDirected.mono
      intro edge hEdge
      rw [edges] at hEdge
      exact List.mem_of_mem_filter hEdge
  | wired edge requested accepted nodes edges =>
      rcases (acceptedPort_eq_ok_iff g _ _ _ _ _).mp accepted
        with ⟨_, hEdge, _⟩
      apply (hDirected.withEdge hEdge).mono
      intro other hOther
      rw [edges] at hOther
      exact hOther
  | normalized => exact hDirected.normalize

/- Every run keeps a graph directed. -/
theorem Directed.runWith
    (hDirected : g.Directed)
    (catalog : Catalog)
    (actions : List Action) :
    (g.runWith catalog actions).Directed :=
  runWith_induction
    (fun g action =>
      (effect_performWith catalog g action).directed)
    hDirected actions

end Graph

end FractalShader
