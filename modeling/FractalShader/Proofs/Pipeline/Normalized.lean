import FractalShader.Proofs.Graph.Effects

/-
  What normalizing does to a graph, and that it does nothing
  to its pipeline.

  Normalizing drops the edges that miss an end, and a
  pipeline is made from the edges that join two stages or
  come from the start.  The start and the end of what counts
  are always there: stages are nodes of the graph, and the
  start is restored before edges are dropped.

  Main declarations:
    * `Graph.nodes_normalize`
    * `Graph.edges_normalize`
    * `Graph.normalize_normalize`
    * `Graph.operations_normalize`
    * `Graph.wires_normalize`
    * `Graph.normalizes`
-/

------------------------------------------------------------
-- Nodes and Edges
------------------------------------------------------------

namespace FractalShader

namespace Graph

/- The sentinels that a graph does not have. -/
def missing (g : Graph) : List String :=
  [startId, endId].filter fun id => !g.hasNode id

theorem nodes_withSentinel
    (g : Graph)
    (id : String) :
    (g.withSentinel id).nodes =
      if g.hasNode id then
        g.nodes
      else
        g.nodes ++ [.sentinel id] := by
  unfold withSentinel
  split <;> rfl

/- Missing sentinels come after the nodes that are there. -/
theorem nodes_normalize (g : Graph) :
    g.normalize.nodes =
      g.nodes ++ g.missing.map Node.sentinel := by
  have hOther :
      (g.withSentinel startId).hasNode endId =
        g.hasNode endId := by
    rw [Bool.eq_iff_iff, hasNode_iff, hasNode_iff,
      ids_withSentinel]
    split
    · rfl
    · simp [startId, endId]
  change ((g.withSentinel startId).withSentinel endId).nodes = _
  rw [nodes_withSentinel, nodes_withSentinel, hOther, missing]
  cases hStart : g.hasNode startId <;>
    cases hFinal : g.hasNode endId <;>
    simp [hStart, hFinal]

/- The edges with both ends are kept in their order. -/
theorem edges_normalize (g : Graph) :
    g.normalize.edges =
      g.edges.filter fun edge =>
        g.normalize.hasNode edge.source &&
          g.normalize.hasNode edge.target := by
  have hEdges :
      ((g.withSentinel startId).withSentinel endId).edges =
        g.edges := by
    rw [edges_withSentinel, edges_withSentinel]
  rw [← hEdges]
  rfl

theorem ends_normalize
    (g : Graph) :
    ∀ edge ∈ g.normalize.edges,
      edge.source ∈ g.normalize.ids ∧
        edge.target ∈ g.normalize.ids := by
  intro edge hEdge
  rw [edges_normalize] at hEdge
  have hEnds := List.of_mem_filter hEdge
  simpa [hasNode_iff] using hEnds

/- A normalized graph is whole. -/
theorem normalize_normalize (g : Graph) :
    g.normalize.normalize = g.normalize := by
  apply normalize_eq_self
  · exact (g.mem_ids_normalize_iff startId).mpr (Or.inr rfl)
  · exact (g.mem_ids_normalize_iff endId).mpr (Or.inr rfl)
  · exact g.ends_normalize

end Graph

end FractalShader

------------------------------------------------------------
-- What Counts
------------------------------------------------------------

namespace FractalShader

namespace Graph

/- Sentinels have no stage, restored or not. -/
theorem operations_normalize (g : Graph) :
    g.normalize.operations = g.operations := by
  have hSentinels :
      (g.missing.map Node.sentinel).filter
          (fun node => !isSentinel node.id) =
        [] := by
    rw [List.filter_eq_nil_iff]
    intro node hNode
    rcases List.mem_map.mp hNode with ⟨id, hId, rfl⟩
    have hListed := List.mem_of_mem_filter hId
    simp only [List.mem_cons, List.not_mem_nil, or_false]
      at hListed
    rcases hListed with rfl | rfl <;> decide
  unfold operations realNodes
  rw [nodes_normalize, List.filter_append, hSentinels,
    List.append_nil]

/- An edge that counts has both ends once the start is there. -/
theorem wires_normalize (g : Graph) :
    g.normalize.wires = g.wires := by
  unfold wires
  rw [edges_normalize, operations_normalize,
    List.filter_filter]
  apply List.filter_congr
  intro edge _
  rw [Bool.eq_iff_iff]
  simp only [Bool.and_eq_true, Bool.or_eq_true, beq_iff_eq,
    operations_contains_iff, hasNode_iff,
    mem_ids_normalize_iff]
  constructor
  · exact And.left
  · rintro ⟨hTarget, hSource⟩
    refine ⟨⟨hTarget, hSource⟩, ?_, Or.inl hTarget.2⟩
    rcases hSource with hStart | hReal
    · rw [hStart]
      exact Or.inr rfl
    · exact Or.inl hReal.2

end Graph

/- The pipeline depends on the edges that count only. -/
theorem Pipeline.ofGraph_normalize (g : Graph) :
    ofGraph g.normalize = ofGraph g := by
  unfold ofGraph Graph.dependencies
  rw [g.operations_normalize, g.wires_normalize]

/-
  Normalizing keeps all nodes in their order and appends the
  sentinels that are missing.  Of the edges it keeps, in
  their order, those with both ends, so that none dangles.
  Nothing is left for a second time, and the pipeline, or
  the report of nodes that wait, is the same.
-/
theorem Graph.normalizes (g : Graph) :
    g.normalize.nodes =
        g.nodes ++ g.missing.map Node.sentinel ∧
      g.normalize.edges =
        g.edges.filter (fun edge =>
          g.normalize.hasNode edge.source &&
            g.normalize.hasNode edge.target) ∧
      (∀ edge ∈ g.normalize.edges,
        edge.source ∈ g.normalize.ids ∧
          edge.target ∈ g.normalize.ids) ∧
      g.normalize.normalize = g.normalize ∧
      Pipeline.ofGraph g.normalize = Pipeline.ofGraph g :=
  ⟨g.nodes_normalize, g.edges_normalize, g.ends_normalize,
    g.normalize_normalize, Pipeline.ofGraph_normalize g⟩

/-
  The start is missing and feeds a stage, an edge leaves the
  end, one comes from no node, and an id is there twice.
-/
example :
    let g : Graph :=
      { nodes :=
          [{ id := "a", kind := "scale" },
            { id := endId, kind := endId },
            { id := "a", kind := "rotate" }]
        edges :=
          [⟨"e1", startId, "a", none⟩,
            ⟨"e2", endId, "a", none⟩,
            ⟨"e3", "gone", "a", none⟩] }
    g.normalize.ids = ["a", endId, "a", startId] ∧
      g.normalize.edges.map Edge.id = ["e1", "e2"] ∧
      Pipeline.ofGraph g =
        .ok [{ id := "a", kind := "rotate" }] := by
  decide +kernel

end FractalShader
