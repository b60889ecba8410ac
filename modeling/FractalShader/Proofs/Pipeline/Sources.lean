import FractalShader.Proofs.Pipeline.OfGraph

/-
  What a pipeline takes from the edges of a graph.

  The sources of a stage depend on which wires enter it, not
  on the order in which they were added.  In a legal graph
  at most one wire enters each input, and its source is the
  one recorded.

  Main declarations:
    * `Sources.smallest?_congr`
    * `Graph.Rewired`
    * `Graph.Resembles`
    * `Pipeline.ofGraph_resembles`
    * `Graph.feed?`
    * `Graph.Legal.sources_eq`
-/

------------------------------------------------------------
-- The Smallest Source
------------------------------------------------------------

namespace FractalShader

namespace Sources

/- Some wire into a port comes from a source. -/
def Enters
    (wires : List Edge)
    (port : Option Port)
    (source : String) : Prop :=
  ∃ edge ∈ wires, edge.port = port ∧ edge.source = source

theorem smaller_le
    (x y : String) :
    smaller x y ≤ x ∧ smaller x y ≤ y := by
  unfold smaller
  split
  · rename_i hLt
    have hLe := String.not_lt.mp (String.lt_asymm hLt)
    exact ⟨hLe, String.le_refl y⟩
  · rename_i hNot
    exact ⟨String.le_refl x, String.not_lt.mp hNot⟩

/- The smallest of some ids is below all of them. -/
theorem foldl_smaller_le
    (first : String)
    (ids : List String) :
    ∀ id ∈ first :: ids, ids.foldl smaller first ≤ id := by
  induction ids generalizing first with
  | nil =>
      intro id hMem
      cases List.mem_singleton.mp hMem
      exact String.le_refl _
  | cons next ids ih =>
      intro id hMem
      rw [List.foldl_cons]
      have hHead :=
        ih (smaller first next) _ List.mem_cons_self
      rcases smaller_le first next with ⟨hFirst, hNext⟩
      rcases List.mem_cons.mp hMem with rfl | hMem
      · exact String.le_trans hHead hFirst
      · rcases List.mem_cons.mp hMem with rfl | hLater
        · exact String.le_trans hHead hNext
        · exact ih _ id (List.mem_cons_of_mem _ hLater)

theorem mem_sources_iff
    (wires : List Edge)
    (port : Option Port)
    (source : String) :
    source ∈ (wires.filter (·.port == port)).map Edge.source ↔
      Enters wires port source := by
  simp [Enters, and_assoc]

/- A source is found when and only when a wire enters. -/
theorem smallest?_eq_none_iff
    (wires : List Edge)
    (port : Option Port) :
    smallest? wires port = none ↔
      ∀ source, ¬ Enters wires port source := by
  simp only [← mem_sources_iff]
  unfold smallest?
  split
  · rename_i hNone
    simp [hNone]
  · rename_i first rest hSome
    rw [hSome]
    constructor
    · intro h
      cases h
    · intro h
      exact absurd List.mem_cons_self (h first)

/- The source that is found enters and is below all others. -/
theorem smallest?_eq_some_iff
    (wires : List Edge)
    (port : Option Port)
    (source : String) :
    smallest? wires port = some source ↔
      Enters wires port source ∧
        ∀ other, Enters wires port other → source ≤ other := by
  have hSound :
      ∀ found, smallest? wires port = some found →
        Enters wires port found ∧
          ∀ other, Enters wires port other →
            found ≤ other := by
    intro found h
    refine ⟨exists_wire_of_smallest? h, ?_⟩
    simp only [← mem_sources_iff]
    unfold smallest? at h
    split at h
    · cases h
    · rename_i hSources
      cases h
      rw [hSources]
      exact foldl_smaller_le _ _
  constructor
  · exact hSound source
  · intro hGiven
    rcases hGiven with ⟨hEnters, hLeast⟩
    cases hFound : smallest? wires port with
    | none =>
        exact
          absurd hEnters
            ((smallest?_eq_none_iff wires port).mp hFound
              source)
    | some found =>
        rcases hSound found hFound with ⟨hMem, hBelow⟩
        rw [String.le_antisymm (hBelow source hEnters)
          (hLeast found hMem)]

/- The source found depends on which sources enter only. -/
theorem smallest?_congr
    {wires others : List Edge}
    {port : Option Port}
    (h :
      ∀ source,
        Enters wires port source ↔
          Enters others port source) :
    smallest? wires port = smallest? others port := by
  apply Option.ext
  intro source
  simp only [smallest?_eq_some_iff, h]

theorem ofWires_congr
    {wires others : List Edge}
    (h :
      ∀ port source,
        Enters wires port source ↔
          Enters others port source)
    (expected : String) :
    ofWires wires expected = ofWires others expected := by
  unfold ofWires
  rw [smallest?_congr (h none), smallest?_congr (h (some .a)),
    smallest?_congr (h (some .b))]

end Sources

end FractalShader

------------------------------------------------------------
-- The Order of Edges
------------------------------------------------------------

namespace FractalShader

open Schedule

namespace Schedule

/- The order taken depends on which arrows there are only. -/
theorem along_congr
    (pending : List String)
    (arrows others : List Arrow)
    (h : ∀ a, a ∈ arrows ↔ a ∈ others) :
    along pending arrows = along pending others := by
  have hReady :
      ∀ {pending arrows others},
        (∀ a : Arrow, a ∈ arrows ↔ a ∈ others) →
          ready? pending arrows = ready? pending others := by
    intro pending arrows others h
    unfold ready?
    congr 1
    funext id
    rw [Bool.eq_iff_iff]
    simp [h]
  induction pending, arrows using along.induct
      generalizing others with
  | case1 pending arrows hNone =>
      rw [along_none hNone, along_none (hReady h ▸ hNone)]
  | case2 pending arrows id hSome ih =>
      have hOther : ready? pending others = some id :=
        hReady h ▸ hSome
      have hRest :
          ∀ a, a ∈ Arrow.withoutSource id arrows ↔
            a ∈ Arrow.withoutSource id others := by
        intro a
        simp [h a]
      rw [along_some hSome, along_some hOther, ih _ hRest]

end Schedule

/- What an edge joins, without its id. -/
def Edge.wire (edge : Edge) : Arrow × Option Port :=
  (edge.arrow, edge.port)

/-
  The same nodes with the same wires, added under other ids
  and in another order.
-/
structure Graph.Rewired (g other : Graph) : Prop where
  nodes : other.nodes = g.nodes
  wires :
    (other.edges.map Edge.wire).Perm (g.edges.map Edge.wire)

/-
  Nodes with a stage that differ by their places at most,
  and edges with the same ends and ports, however often each
  of them is there.
-/
structure Graph.Resembles (g other : Graph) : Prop where
  operations :
    ∀ id,
      (other.operations.get? id).map Node.toOperation =
        (g.operations.get? id).map Node.toOperation
  wires :
    ∀ wire,
      wire ∈ other.edges.map Edge.wire ↔
        wire ∈ g.edges.map Edge.wire

namespace Graph

variable {g other : Graph}

theorem Rewired.resembles
    (h : Rewired g other) :
    Resembles g other where
  operations := by
    intro id
    unfold Graph.operations realNodes
    rw [h.nodes]
  wires := fun wire => h.wires.mem_iff

namespace Resembles

/- The same wires can be found. -/
theorem exists_edge_iff
    (h : Resembles g other)
    (source target : String)
    (port : Option Port) :
    (∃ edge ∈ other.edges,
        edge.source = source ∧ edge.target = target ∧
          edge.port = port) ↔
      ∃ edge ∈ g.edges,
        edge.source = source ∧ edge.target = target ∧
          edge.port = port := by
  have hMem := h.wires (⟨source, target⟩, port)
  simpa [Edge.wire, Edge.arrow, and_assoc] using hMem

theorem real_iff
    (h : Resembles g other)
    (id : String) :
    other.Real id ↔ g.Real id := by
  have hFound := congrArg Option.isSome (h.operations id)
  rw [Option.isSome_map, Option.isSome_map] at hFound
  rw [← operations_contains_iff, ← operations_contains_iff]
  unfold Dict.contains
  rw [hFound]

theorem keys_eq
    (h : Resembles g other) :
    other.operations.keys = g.operations.keys := by
  refine
    eq_of_increasing other.operations.pairwise_keys
      g.operations.pairwise_keys ?_
  intro id
  rw [mem_operations_keys_iff, mem_operations_keys_iff,
    h.real_iff]

theorem feeds_iff
    (h : Resembles g other)
    (x y : String) :
    other.Feeds x y ↔ g.Feeds x y := by
  have hEdges :
      (∃ edge ∈ other.edges,
          edge.source = x ∧ edge.target = y) ↔
        ∃ edge ∈ g.edges,
          edge.source = x ∧ edge.target = y := by
    constructor
    · intro hGiven
      rcases hGiven with ⟨edge, hEdge, hx, hy⟩
      rcases (h.exists_edge_iff x y edge.port).mp
          ⟨edge, hEdge, hx, hy, rfl⟩ with
        ⟨found, hFound, hx, hy, _⟩
      exact ⟨found, hFound, hx, hy⟩
    · intro hGiven
      rcases hGiven with ⟨edge, hEdge, hx, hy⟩
      rcases (h.exists_edge_iff x y edge.port).mpr
          ⟨edge, hEdge, hx, hy, rfl⟩ with
        ⟨found, hFound, hx, hy, _⟩
      exact ⟨found, hFound, hx, hy⟩
  unfold Feeds
  rw [h.real_iff, h.real_iff, hEdges]

/- The same sources enter every port of a stage. -/
theorem enters_iff
    (h : Resembles g other)
    (id : String)
    (port : Option Port)
    (source : String) :
    Sources.Enters
        (other.wires.filter (fun edge => edge.target == id))
        port source ↔
      Sources.Enters
        (g.wires.filter (fun edge => edge.target == id))
        port source := by
  have hRead :
      ∀ k : Graph,
        Sources.Enters
            (k.wires.filter (fun edge => edge.target == id))
            port source ↔
          (k.Real id ∧ (source = startId ∨ k.Real source)) ∧
            ∃ edge ∈ k.edges,
              edge.source = source ∧ edge.target = id ∧
                edge.port = port := by
    intro k
    simp only [Sources.Enters, List.mem_filter, beq_iff_eq,
      mem_wires_iff]
    constructor
    · intro hGiven
      rcases hGiven with
        ⟨edge, ⟨⟨hEdge, hReal⟩, rfl⟩, rfl, rfl⟩
      exact ⟨hReal, edge, hEdge, rfl, rfl, rfl⟩
    · intro hGiven
      rcases hGiven with ⟨hReal, edge, hEdge, rfl, rfl, rfl⟩
      exact ⟨edge, ⟨⟨hEdge, hReal⟩, rfl⟩, rfl, rfl⟩
  rw [hRead other, hRead g, h.exists_edge_iff, h.real_iff,
    h.real_iff]

/- Stages have the same contents and record the same sources. -/
theorem stages_eq
    (h : Resembles g other)
    (previous : String)
    (order : List String) :
    Pipeline.stages other.operations other.wires previous
        order =
      Pipeline.stages g.operations g.wires previous order := by
  induction order generalizing previous with
  | nil => rfl
  | cons id order ih =>
      have hSame := h.operations id
      unfold Pipeline.stages
      rw [ih id, Sources.ofWires_congr (h.enters_iff id)]
      cases hNode : g.operations.get? id with
      | none =>
          rw [hNode, Option.map_none,
            Option.map_eq_none_iff] at hSame
          rw [hSame]
      | some node =>
          rw [hNode, Option.map_some,
            Option.map_eq_some_iff] at hSame
          rcases hSame with ⟨found, hFound, hOperation⟩
          rw [hFound]
          simp only [hOperation]

end Resembles

end Graph

namespace Pipeline

/-
  The pipeline depends on which operations and wires there
  are, and neither on places and the ids of edges nor on the
  order in which nodes and edges were added.
-/
theorem ofGraph_resembles
    {g other : Graph}
    (h : g.Resembles other) :
    ofGraph other = ofGraph g := by
  have hArrows :
      ∀ a, a ∈ other.dependencies ↔ a ∈ g.dependencies := by
    intro a
    change
      Arrow.Leads other.dependencies a.source a.target ↔
        Arrow.Leads g.dependencies a.source a.target
    rw [Graph.leads_dependencies, Graph.leads_dependencies]
    exact h.feeds_iff a.source a.target
  have hAlong :
      along other.operations.keys other.dependencies =
        along g.operations.keys g.dependencies := by
    rw [h.keys_eq]
    exact along_congr _ _ _ hArrows
  rw [ofGraph_eq, ofGraph_eq]
  unfold stuck canonical
  rw [hAlong, h.stages_eq]

/- The wires may come under other ids and in another order. -/
theorem ofGraph_rewired
    {g other : Graph}
    (h : g.Rewired other) :
    ofGraph other = ofGraph g :=
  ofGraph_resembles h.resembles

end Pipeline

end FractalShader

------------------------------------------------------------
-- Inputs of a Legal Graph
------------------------------------------------------------

namespace FractalShader

namespace Graph

/-
  The source of the edge into the first input of a node,
  which may leave its port unnamed.
-/
def first?
    (g : Graph)
    (id : String) : Option String :=
  ((g.incoming id).find? fun edge =>
    edge.port == none || edge.port == some .a).map Edge.source

/- The source of the edge into the second input of a node. -/
def second?
    (g : Graph)
    (id : String) : Option String :=
  ((g.incoming id).find? fun edge =>
    edge.port == some .b).map Edge.source

variable {g : Graph}

/- Edges come from the start or from nodes with a stage. -/
theorem Legal.source_real
    (h : g.Legal)
    {edge : Edge}
    (hEdge : edge ∈ g.edges) :
    edge.source = startId ∨ g.Real edge.source := by
  by_cases hStart : edge.source = startId
  · exact Or.inl hStart
  · have hNotEnd := (h.directed edge hEdge).1
    refine Or.inr ⟨?_, (h.ends edge hEdge).1⟩
    simp [isSentinel, hStart, hNotEnd]

/- No two edges enter the first input of a node. -/
theorem Legal.first_unique
    (h : g.Legal)
    {edge other : Edge}
    (hEdge : edge ∈ g.edges)
    (hOther : other ∈ g.edges)
    (hReal : isSentinel edge.target = false)
    (hTarget : other.target = edge.target)
    (hPort : edge.port = none ∨ edge.port = some .a)
    (hOtherPort : other.port = none ∨ other.port = some .a) :
    other = edge := by
  rcases (g.mem_ids_iff edge.target).mp (h.ends edge hEdge).2
    with ⟨node, hNode, hId⟩
  have hNodeReal : isSentinel node.id = false := hId ▸ hReal
  have hEdgeIn :=
    (mem_ports_iff g node.id edge.port).mpr
      ⟨edge, hEdge, hId.symm, rfl⟩
  have hOtherIn :=
    (mem_ports_iff g node.id other.port).mpr
      ⟨other, hOther, hTarget.trans hId.symm, rfl⟩
  apply h.edge_unique hEdge hOther hReal hTarget
  cases hArity : Catalog.builtIn.arity node.kind with
  | single =>
      have hNone := (h.single node hNode hNodeReal hArity).2
      rw [hNone _ hEdgeIn, hNone _ hOtherIn]
  | dual =>
      have hNamed := (h.dual node hNode hNodeReal hArity).1
      have hA :
          ∀ port, port ∈ g.ports node.id →
            (port = none ∨ port = some .a) →
              port = some .a := by
        rintro port hMem (rfl | rfl)
        · exact absurd hMem hNamed
        · rfl
      rw [hA _ hEdgeIn hPort, hA _ hOtherIn hOtherPort]

/- The wires into a node are the edges into it. -/
theorem Legal.enters_iff
    (h : g.Legal)
    {id : String}
    (hReal : g.Real id)
    (port : Option Port)
    (source : String) :
    Sources.Enters
        (g.wires.filter (fun edge => edge.target == id))
        port source ↔
      ∃ edge ∈ g.incoming id,
        edge.port = port ∧ edge.source = source := by
  simp only [Sources.Enters, List.mem_filter, beq_iff_eq,
    mem_wires_iff, mem_incoming_iff]
  constructor
  · intro hGiven
    rcases hGiven with ⟨edge, ⟨⟨hEdge, _⟩, hTarget⟩, hFound⟩
    exact ⟨edge, ⟨hEdge, hTarget⟩, hFound⟩
  · intro hGiven
    rcases hGiven with ⟨edge, ⟨hEdge, rfl⟩, hFound⟩
    exact
      ⟨edge, ⟨⟨hEdge, hReal, h.source_real hEdge⟩, rfl⟩,
        hFound⟩

/- The source found for a port is that of the edge into it. -/
theorem Legal.smallest?_eq_some_iff
    (h : g.Legal)
    {id : String}
    (hReal : g.Real id)
    (port : Option Port)
    (source : String) :
    Sources.smallest?
        (g.wires.filter (fun edge => edge.target == id))
        port = some source ↔
      ∃ edge ∈ g.incoming id,
        edge.port = port ∧ edge.source = source := by
  rw [Sources.smallest?_eq_some_iff, h.enters_iff hReal]
  constructor
  · intro hFound
    exact hFound.1
  · intro hGiven
    rcases hGiven with ⟨edge, hEdge, rfl, rfl⟩
    refine ⟨⟨edge, hEdge, rfl, rfl⟩, ?_⟩
    intro source hOther
    rw [h.enters_iff hReal] at hOther
    rcases hOther with ⟨other, hOther, hPort, rfl⟩
    rw [mem_incoming_iff] at hEdge hOther
    have hSame :=
      h.edge_unique hEdge.1 hOther.1 (hEdge.2.symm ▸ hReal.1)
        (hOther.2.trans hEdge.2.symm) hPort
    exact hSame.symm ▸ String.le_refl edge.source

/- The only edge that passes a test is found. -/
theorem find?_source_eq_some_iff
    {edges : List Edge}
    {test : Edge → Bool}
    (hUnique :
      ∀ edge ∈ edges, ∀ other ∈ edges,
        test edge = true → test other = true → other = edge)
    (source : String) :
    (edges.find? test).map Edge.source = some source ↔
      ∃ edge ∈ edges,
        test edge = true ∧ edge.source = source := by
  rw [Option.map_eq_some_iff]
  constructor
  · intro hGiven
    rcases hGiven with ⟨edge, hFound, hSource⟩
    exact
      ⟨edge, List.mem_of_find?_eq_some hFound,
        List.find?_some hFound, hSource⟩
  · intro hGiven
    rcases hGiven with ⟨edge, hEdge, hTest, hSource⟩
    cases hFound : edges.find? test with
    | none =>
        have hNot := List.find?_eq_none.mp hFound edge hEdge
        exact absurd hTest hNot
    | some found =>
        have hSame :=
          hUnique found (List.mem_of_find?_eq_some hFound) edge
            hEdge (List.find?_some hFound) hTest
        exact ⟨found, rfl, hSame ▸ hSource⟩

theorem Legal.first?_eq_some_iff
    (h : g.Legal)
    {id : String}
    (hReal : g.Real id)
    (source : String) :
    g.first? id = some source ↔
      ∃ edge ∈ g.incoming id,
        (edge.port = none ∨ edge.port = some .a) ∧
          edge.source = source := by
  rw [first?, find?_source_eq_some_iff]
  · simp only [Bool.or_eq_true, beq_iff_eq]
  · intro edge hEdge other hOther hPort hOtherPort
    simp only [Bool.or_eq_true, beq_iff_eq]
      at hPort hOtherPort
    rw [mem_incoming_iff] at hEdge hOther
    exact
      h.first_unique hEdge.1 hOther.1
        (hEdge.2.symm ▸ hReal.1)
        (hOther.2.trans hEdge.2.symm) hPort hOtherPort

theorem Legal.second?_eq_some_iff
    (h : g.Legal)
    {id : String}
    (hReal : g.Real id)
    (source : String) :
    g.second? id = some source ↔
      ∃ edge ∈ g.incoming id,
        edge.port = some .b ∧ edge.source = source := by
  rw [second?, find?_source_eq_some_iff]
  · simp only [beq_iff_eq]
  · intro edge hEdge other hOther hPort hOtherPort
    simp only [beq_iff_eq] at hPort hOtherPort
    rw [mem_incoming_iff] at hEdge hOther
    exact
      h.edge_unique hEdge.1 hOther.1 (hEdge.2.symm ▸ hReal.1)
        (hOther.2.trans hEdge.2.symm)
        (hOtherPort.trans hPort.symm)

/-
  The sources of a stage of a legal graph are those of its
  inputs; the first one is left out when it is expected.
-/
theorem Legal.sources_eq
    (h : g.Legal)
    {id : String}
    (hReal : g.Real id)
    (expected : String) :
    Sources.ofWires
        (g.wires.filter (fun edge => edge.target == id))
        expected =
      { a := (g.first? id).filter (· != expected)
        b := g.second? id } := by
  unfold Sources.ofWires
  congr 1
  · congr 1
    apply Option.ext
    intro source
    rw [Option.or_eq_some_iff, h.first?_eq_some_iff hReal,
      h.smallest?_eq_some_iff hReal,
      h.smallest?_eq_some_iff hReal]
    constructor
    · intro hGiven
      rcases hGiven with
        ⟨edge, hEdge, hPort, hSource⟩ |
        ⟨_, edge, hEdge, hPort, hSource⟩
      · exact ⟨edge, hEdge, Or.inl hPort, hSource⟩
      · exact ⟨edge, hEdge, Or.inr hPort, hSource⟩
    · intro hGiven
      rcases hGiven with ⟨edge, hEdge, hPort | hPort, hSource⟩
      · exact Or.inl ⟨edge, hEdge, hPort, hSource⟩
      · refine Or.inr ⟨?_, edge, hEdge, hPort, hSource⟩
        -- No other edge leaves the port unnamed.
        apply Option.eq_none_iff_forall_ne_some.mpr
        intro found hFound
        rcases (h.smallest?_eq_some_iff hReal none found).mp
            hFound with
          ⟨other, hOther, hUnnamed, _⟩
        rw [mem_incoming_iff] at hEdge hOther
        have hSame :=
          h.first_unique hEdge.1 hOther.1
            (hEdge.2.symm ▸ hReal.1)
            (hOther.2.trans hEdge.2.symm) (Or.inr hPort)
            (Or.inl hUnnamed)
        rw [hSame, hPort] at hUnnamed
        cases hUnnamed
  · apply Option.ext
    intro source
    rw [h.second?_eq_some_iff hReal,
      h.smallest?_eq_some_iff hReal]

end Graph

end FractalShader
