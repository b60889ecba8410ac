import FractalShader.Proofs.Pipeline.OfGraph

/-
  Wires that lead forward along the order of a pipeline.

  Such a wire makes no id ready sooner, and it does not hold
  up the id that is taken next: all that lies before this
  one was taken already.  So with these wires every step
  takes the id that it takes without them.  A wire that
  leads back changes the order or closes a cycle.

  Main declarations:
    * `Schedule.ready?_eq_of_subset`
    * `Schedule.along_eq_of_forward`
    * `Pipeline.along_eq_of_wired`
    * `Pipeline.ids_eq_of_wired`
    * `Pipeline.keeps_order_iff`
-/

------------------------------------------------------------
-- More Arrows
------------------------------------------------------------

namespace FractalShader

namespace Schedule

/-
  With more arrows fewer ids are ready.  So the first ready
  id stays the first one when it is among them.
-/
theorem ready?_eq_of_subset
    {pending : List String}
    {arrows others : List Arrow}
    {id : String}
    (hSubset : arrows ⊆ others)
    (h : ready? pending arrows = some id)
    (hFree : ∀ a ∈ others, a.target ≠ id) :
    ready? pending others = some id := by
  rcases List.find?_eq_some_iff_append.mp h with
    ⟨_, before, after, rfl, hBefore⟩
  apply List.find?_eq_some_iff_append.mpr
  refine ⟨by simpa using hFree, before, after, rfl, ?_⟩
  intro other hOther
  have hEntered := hBefore other hOther
  simp only [Bool.not_not, List.any_eq_true, beq_iff_eq]
    at hEntered ⊢
  rcases hEntered with ⟨a, ha, hTarget⟩
  exact ⟨a, hSubset ha, hTarget⟩

/- With more arrows there is no ready id either. -/
theorem ready?_eq_none_of_subset
    {pending : List String}
    {arrows others : List Arrow}
    (hSubset : arrows ⊆ others)
    (h : ready? pending arrows = none) :
    ready? pending others = none := by
  rw [ready?_eq_none_iff] at h ⊢
  intro id hMem
  rcases h id hMem with ⟨a, ha, hTarget⟩
  exact ⟨a, hSubset ha, hTarget⟩

/-
  Arrows from taken ids to ids taken later change neither
  what is taken nor what waits.
-/
theorem along_eq_of_forward
    {pending : List String}
    {arrows others : List Arrow}
    (hNodup : pending.Nodup)
    (hSubset : arrows ⊆ others)
    (hForward :
      ∀ a ∈ others,
        a ∈ arrows ∨
          Before (along pending arrows).1 a.source a.target) :
    along pending others = along pending arrows := by
  induction pending, arrows using along.induct
      generalizing others with
  | case1 pending arrows hNone =>
      rw [along_none hNone]
      exact along_none (ready?_eq_none_of_subset hSubset hNone)
  | case2 pending arrows id hSome ih =>
      have hOnce := nodup_along arrows hNodup
      rw [along_some hSome] at hForward hOnce
      -- The id is taken first, so nothing leads forward to it.
      have hFree : ∀ a ∈ others, a.target ≠ id := by
        rintro a ha rfl
        rcases hForward a ha with hOld | hBefore
        · exact (ready?_eq_some hSome).2 a hOld rfl
        · exact not_before_head hOnce a.source hBefore
      -- Of the other arrows those remain that leave later ids.
      have hRest :
          along (pending.erase id)
              (Arrow.withoutSource id others) =
            along (pending.erase id)
              (Arrow.withoutSource id arrows) := by
        apply ih (hNodup.erase id)
          (Arrow.withoutSource_mono id hSubset)
        intro a ha
        rw [Arrow.mem_withoutSource_iff] at ha ⊢
        rcases hForward a ha.1 with hOld | hBefore
        · exact Or.inl ⟨hOld, ha.2⟩
        · exact Or.inr (hBefore.tail ha.2)
      rw [along_some (ready?_eq_of_subset hSubset hSome hFree),
        along_some hSome, hRest]

end Schedule

end FractalShader

------------------------------------------------------------
-- More Edges
------------------------------------------------------------

namespace FractalShader

open Schedule

namespace Graph

/- Edges do not decide which nodes have a stage. -/
theorem real_withEdges_iff
    (g : Graph)
    (edges : List Edge)
    (id : String) :
    Real { g with edges := edges } id ↔ g.Real id :=
  Iff.rfl

/- What feeds a node when edges are added, in any order. -/
theorem feeds_withEdges_iff
    {g : Graph}
    {added edges : List Edge}
    (hEdges : edges.Perm (g.edges ++ added))
    (x y : String) :
    Feeds { g with edges := edges } x y ↔
      g.Feeds x y ∨
        g.Real x ∧ g.Real y ∧
          ∃ edge ∈ added,
            edge.source = x ∧ edge.target = y := by
  simp only [Feeds, real_withEdges_iff, hEdges.mem_iff,
    List.mem_append, or_and_right, exists_or, and_or_left]

end Graph

namespace Pipeline

/-
  A graph with more edges, which lead forward among the ids
  that are taken, has the same ids taken and the same ones
  wait.
-/
theorem along_eq_of_wired
    {g h : Graph}
    (hReal : ∀ id, h.Real id ↔ g.Real id)
    (hMore : ∀ x y, g.Feeds x y → h.Feeds x y)
    (hAlong :
      ∀ x y, h.Feeds x y →
        g.Feeds x y ∨ Before (canonical g) x y) :
    canonical h = canonical g ∧ stuck h = stuck g := by
  have hIncreasing := g.operations.pairwise_keys
  have hKeys : h.operations.keys = g.operations.keys := by
    apply
      eq_of_increasing h.operations.pairwise_keys hIncreasing
    intro id
    rw [Graph.mem_operations_keys_iff, hReal,
      Graph.mem_operations_keys_iff]
  rw [← g.leads_dependencies, ← h.leads_dependencies]
    at hMore hAlong
  have hSame :
      along g.operations.keys h.dependencies =
        along g.operations.keys g.dependencies :=
    along_eq_of_forward (nodup_of_increasing hIncreasing)
      (fun a ha => hMore a.source a.target ha)
      (fun a ha => hAlong a.source a.target ha)
  unfold canonical stuck
  rw [hKeys, hSame]
  exact ⟨rfl, rfl⟩

/-
  More edges along the order of a pipeline leave a graph
  with a pipeline of the same order.
-/
theorem ids_eq_of_wired
    {g h : Graph}
    {p : Pipeline}
    (hPipeline : ofGraph g = .ok p)
    (hReal : ∀ id, h.Real id ↔ g.Real id)
    (hMore : ∀ x y, g.Feeds x y → h.Feeds x y)
    (hAlong : ∀ x y, h.Feeds x y → Before p.ids x y) :
    ∃ q, ofGraph h = .ok q ∧ q.ids = p.ids := by
  have hIds := ids_of_ofGraph hPipeline
  rw [hIds] at hAlong
  rcases along_eq_of_wired hReal hMore
      (fun x y hFeeds => Or.inr (hAlong x y hFeeds)) with
    ⟨hCanonical, hStuck⟩
  have hDone : stuck h = [] :=
    hStuck.trans (ofGraph_eq_ok hPipeline).1
  have hOk := ofGraph_eq h
  rw [if_pos hDone] at hOk
  refine ⟨_, hOk, ?_⟩
  rw [ids_of_ofGraph hOk, hCanonical, hIds]

/-
  Edges from the start and between stages, added anywhere
  among the others, leave the order of a pipeline as it is
  exactly when none of them leads from a stage to itself or
  to an earlier one.
-/
theorem keeps_order_iff
    {g : Graph}
    {p : Pipeline}
    (h : ofGraph g = .ok p)
    {added edges : List Edge}
    (hEdges : edges.Perm (g.edges ++ added))
    (hEnds :
      ∀ edge ∈ added,
        edge.target ∈ p.ids ∧
          (edge.source = startId ∨ edge.source ∈ p.ids)) :
    (∃ q,
        ofGraph { g with edges := edges } = .ok q ∧
          q.ids = p.ids) ↔
      ∀ edge ∈ added,
        edge.source = startId ∨
          Before p.ids edge.source edge.target := by
  have hOrders := orders_of_ofGraph h
  constructor
  · rintro ⟨q, hq, hIds⟩ edge hEdge
    rcases hEnds edge hEdge with ⟨hTarget, hStart | hSource⟩
    · exact Or.inl hStart
    · right
      rw [← hIds]
      apply (orders_of_ofGraph hq).forward
      rw [Graph.feeds_withEdges_iff hEdges]
      rw [hOrders.mem_iff] at hTarget hSource
      exact
        Or.inr ⟨hSource, hTarget, edge, hEdge, rfl, rfl⟩
  · intro hForward
    apply ids_eq_of_wired h (g.real_withEdges_iff edges)
    · intro x y hFeeds
      rw [Graph.feeds_withEdges_iff hEdges]
      exact Or.inl hFeeds
    · intro x y hFeeds
      rw [Graph.feeds_withEdges_iff hEdges] at hFeeds
      rcases hFeeds with
        hOld | ⟨hReal, _, edge, hEdge, rfl, rfl⟩
      · exact hOrders.forward x y hOld
      · exact
          (hForward edge hEdge).resolve_left hReal.ne_startId

/- Three stages of which one feeds a smaller one. -/
def sampleFork : Graph where
  nodes :=
    ["fold", "sum", "turn"].map fun id =>
      { id := id, kind := "union" }
  edges := [⟨"first", "turn", "fold", none⟩]

/- More wires from the start, from before and in parallel. -/
def sampleForward : List Edge :=
  [⟨"second", startId, "fold", some .a⟩,
    ⟨"third", "sum", "fold", some .b⟩,
    ⟨"first", "turn", "fold", some .a⟩,
    ⟨"fourth", "sum", "turn", none⟩]

/- A wire from the last stage to the first one. -/
def sampleBackward : Edge :=
  ⟨"fifth", "fold", "sum", none⟩

theorem keeps_order_iff_sampleFork :
    ∃ p,
      ofGraph sampleFork = .ok p ∧
        p.ids = ["sum", "turn", "fold"] ∧
        (∃ q,
          ofGraph
              { sampleFork with
                edges := sampleForward ++ sampleFork.edges } =
            .ok q ∧
          q.ids = p.ids) ∧
        ¬ ∃ q,
          ofGraph
              { sampleFork with
                edges :=
                  sampleFork.edges ++ [sampleBackward] } =
            .ok q ∧
          q.ids = p.ids := by
  have h :
      ofGraph sampleFork =
        .ok
          (["sum", "turn", "fold"].map fun id =>
            { id := id, kind := "union" }) := by
    decide +kernel
  refine ⟨_, h, rfl, ?_, ?_⟩
  · exact
      (keeps_order_iff h List.perm_append_comm
        (by decide)).mpr (by decide)
  · rw [keeps_order_iff h (List.Perm.refl _) (by decide)]
    decide

end Pipeline

end FractalShader
