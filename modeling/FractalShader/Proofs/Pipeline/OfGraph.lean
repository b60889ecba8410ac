import FractalShader.Pipeline.OfGraph
import FractalShader.Proofs.Graph.Legal
import FractalShader.Proofs.Pipeline.Tally

/-
  The pipeline of a graph lists its nodes along its edges,
  and of all such lists it is the least one.

  Main declarations:
    * `Graph.Real`
    * `Graph.Feeds`
    * `Graph.Orders`
    * `Pipeline.ofGraph_eq`
    * `Pipeline.orders_of_ofGraph`
    * `Pipeline.ids_le`
    * `Pipeline.source_earlier`
-/

------------------------------------------------------------
-- Nodes and Edges That Count
------------------------------------------------------------

namespace FractalShader

open Relation Schedule

namespace Graph

/- A node with a stage stands under this id. -/
def Real
    (g : Graph)
    (id : String) : Prop :=
  isSentinel id = false ∧ id ∈ g.ids

/- An edge leads from one node with a stage to another. -/
def Feeds
    (g : Graph)
    (x y : String) : Prop :=
  g.Real x ∧ g.Real y ∧
    ∃ edge ∈ g.edges, edge.source = x ∧ edge.target = y

/-
  A list holds the id of every node with a stage once, and
  every edge between two of them leads to a later one.
-/
structure Orders
    (g : Graph)
    (order : List String) : Prop where
  nodup : order.Nodup
  mem_iff : ∀ id, id ∈ order ↔ g.Real id
  forward : ∀ x y, g.Feeds x y → Before order x y

variable {g : Graph}

theorem Real.ne_startId
    {id : String}
    (h : g.Real id) :
    id ≠ startId := by
  rintro rfl
  cases h.1

/- An operation is the one of a real node with its id. -/
theorem operations_get?
    {id : String}
    {node : Node}
    (h : g.operations.get? id = some node) :
    node ∈ g.realNodes ∧ node.id = id := by
  rw [operations, Dict.get?_ofList,
    Option.map_eq_some_iff] at h
  rcases h with ⟨entry, hEntry, rfl⟩
  have hId := List.find?_some hEntry
  have hMem := List.mem_of_find?_eq_some hEntry
  rw [List.mem_reverse, List.mem_map] at hMem
  rcases hMem with ⟨node, hNode, rfl⟩
  exact ⟨hNode, by simpa using hId⟩

theorem operations_contains_iff
    (g : Graph)
    (id : String) :
    g.operations.contains id = true ↔ g.Real id := by
  rw [operations, Dict.contains_ofList]
  simp only [realNodes, List.mem_map, List.mem_filter,
    Real, mem_ids_iff]
  constructor
  · intro hGiven
    rcases hGiven with ⟨_, ⟨node, ⟨hNode, hReal⟩, rfl⟩, rfl⟩
    exact ⟨by simpa using hReal, node, hNode, rfl⟩
  · intro hGiven
    rcases hGiven with ⟨hReal, node, hNode, rfl⟩
    exact ⟨_, ⟨node, ⟨hNode, by simpa using hReal⟩, rfl⟩, rfl⟩

theorem mem_operations_keys_iff
    (g : Graph)
    (id : String) :
    id ∈ g.operations.keys ↔ g.Real id := by
  rw [Dict.mem_keys_iff, operations_contains_iff]

theorem mem_wires_iff
    (g : Graph)
    (edge : Edge) :
    edge ∈ g.wires ↔
      edge ∈ g.edges ∧ g.Real edge.target ∧
        (edge.source = startId ∨ g.Real edge.source) := by
  simp [wires, operations_contains_iff]

/- The arrows between stages are the edges between them. -/
theorem leads_dependencies
    (g : Graph) :
    Arrow.Leads g.dependencies = g.Feeds := by
  funext x y
  simp only [Arrow.Leads, dependencies, List.mem_map,
    List.mem_filter, mem_wires_iff, Feeds, Edge.arrow,
    Arrow.mk.injEq, eq_iff_iff, bne_iff_ne]
  constructor
  · intro hGiven
    rcases hGiven with
      ⟨edge, ⟨⟨hEdge, hTarget, hSource⟩, hNe⟩, rfl, rfl⟩
    rcases hSource with hStart | hSource
    · exact absurd hStart hNe
    · exact ⟨hSource, hTarget, edge, hEdge, rfl, rfl⟩
  · intro hGiven
    rcases hGiven with ⟨hx, hy, edge, hEdge, rfl, rfl⟩
    exact
      ⟨edge, ⟨⟨hEdge, hy, Or.inr hx⟩, hx.ne_startId⟩, rfl,
        rfl⟩

theorem acyclic_dependencies_iff
    (g : Graph) :
    Arrow.Acyclic g.dependencies ↔
      ∀ id, ¬ TransGen g.Feeds id id := by
  rw [Arrow.Acyclic, leads_dependencies]

/- Arrows between stages have stages at both ends. -/
theorem within_dependencies
    (g : Graph) :
    Within g.operations.keys g.dependencies := by
  intro a ha
  have hFeeds : g.Feeds a.source a.target := by
    rw [← leads_dependencies]
    exact ha
  simp only [mem_operations_keys_iff]
  exact ⟨hFeeds.1, hFeeds.2.1⟩

/- Orders of a graph are orders of its keys and arrows. -/
theorem orders_iff
    (g : Graph)
    (order : List String) :
    g.Orders order ↔
      Along g.operations.keys g.dependencies order := by
  have hKeys :=
    nodup_of_increasing g.operations.pairwise_keys
  constructor
  · intro h
    refine ⟨?_, ?_⟩
    · rw [List.perm_ext_iff_of_nodup h.nodup hKeys]
      intro id
      rw [h.mem_iff, mem_operations_keys_iff]
    · intro a ha
      apply h.forward
      rw [← leads_dependencies]
      exact ha
  · intro h
    refine ⟨h.perm.nodup_iff.mpr hKeys, ?_, ?_⟩
    · intro id
      rw [h.perm.mem_iff, mem_operations_keys_iff]
    · intro x y hFeeds
      rw [← leads_dependencies] at hFeeds
      exact h.forward ⟨x, y⟩ hFeeds

end Graph

end FractalShader

------------------------------------------------------------
-- Sources
------------------------------------------------------------

namespace FractalShader

namespace Sources

/- The smallest of some ids is one of them. -/
theorem foldl_smaller_mem
    (first : String)
    (ids : List String) :
    ids.foldl smaller first ∈ first :: ids := by
  induction ids generalizing first with
  | nil => exact List.mem_singleton_self first
  | cons id ids ih =>
      rw [List.foldl_cons]
      rcases List.mem_cons.mp (ih (smaller first id)) with
        hFirst | hRest
      · rw [hFirst]
        unfold smaller
        split <;> simp
      · simp [hRest]

/- The smallest source belongs to a wire into the port. -/
theorem exists_wire_of_smallest?
    {wires : List Edge}
    {port : Option Port}
    {source : String}
    (h : smallest? wires port = some source) :
    ∃ edge ∈ wires,
      edge.port = port ∧ edge.source = source := by
  have hMem :
      source ∈
        (wires.filter (·.port == port)).map Edge.source := by
    unfold smallest? at h
    split at h
    · cases h
    · rename_i hSources
      cases h
      rw [hSources]
      exact foldl_smaller_mem _ _
  rcases List.mem_map.mp hMem with ⟨edge, hEdge, hSource⟩
  rw [List.mem_filter, beq_iff_eq] at hEdge
  exact ⟨edge, hEdge.1, hEdge.2, hSource⟩

/- Recorded sources are sources of wires. -/
theorem exists_wire
    {wires : List Edge}
    {expected source : String}
    (h :
      (ofWires wires expected).a = some source ∨
        (ofWires wires expected).b = some source) :
    ∃ edge ∈ wires, edge.source = source := by
  have hFound :
      ∃ port, smallest? wires port = some source := by
    rcases h with ha | hb
    · have hOr := (Option.filter_eq_some_iff.mp ha).1
      rcases Option.or_eq_some_iff.mp hOr with hNone | ⟨_, hA⟩
      · exact ⟨none, hNone⟩
      · exact ⟨some .a, hA⟩
    · exact ⟨some .b, hb⟩
  rcases hFound with ⟨port, hPort⟩
  rcases exists_wire_of_smallest? hPort with
    ⟨edge, hEdge, _, hSource⟩
  exact ⟨edge, hEdge, hSource⟩

end Sources

end FractalShader

------------------------------------------------------------
-- Stages
------------------------------------------------------------

namespace FractalShader

open Schedule

namespace Pipeline

/- The ids of the stages in the order in which they run. -/
def ids (p : Pipeline) : List String :=
  p.map fun stage => stage.id

/- Stages are those of the given ids, in their order. -/
theorem ids_stages
    (g : Graph)
    (previous : String)
    (order : List String)
    (hReal : ∀ id ∈ order, g.Real id) :
    ids (stages g.operations g.wires previous order) =
      order := by
  induction order generalizing previous with
  | nil => rfl
  | cons id order ih =>
      have hContains :=
        (g.operations_contains_iff id).mpr
          (hReal id List.mem_cons_self)
      rcases Option.isSome_iff_exists.mp hContains with
        ⟨node, hNode⟩
      have hRest :=
        ih id fun other hOther =>
          hReal other (List.mem_cons_of_mem _ hOther)
      simp only [stages, hNode]
      unfold ids at hRest ⊢
      rw [List.map_cons, hRest]
      exact
        congrArg (· :: order) (Graph.operations_get? hNode).2

/- A stage has the operation that is found under its id. -/
theorem operation_of_stages
    {g : Graph}
    {previous : String}
    {order : List String}
    {stage : Stage}
    (h :
      stage ∈ stages g.operations g.wires previous order) :
    ∃ node, g.operations.get? stage.id = some node ∧
      stage.toOperation = node.toOperation := by
  induction order generalizing previous with
  | nil => cases h
  | cons id order ih =>
      rw [stages] at h
      split at h
      · exact ih h
      · rename_i node hNode
        rcases List.mem_cons.mp h with rfl | hRest
        · refine ⟨node, ?_, rfl⟩
          have hId := (Graph.operations_get? hNode).2
          exact hId.symm ▸ hNode
        · exact ih hRest

/- A source that a stage records is that of a wire into it. -/
theorem exists_wire_of_stages
    {g : Graph}
    {previous : String}
    {order : List String}
    {stage : Stage}
    (h :
      stage ∈ stages g.operations g.wires previous order)
    {source : String}
    (hSource :
      stage.sources.a = some source ∨
        stage.sources.b = some source) :
    ∃ edge ∈ g.wires,
      edge.target = stage.id ∧ edge.source = source := by
  induction order generalizing previous with
  | nil => cases h
  | cons id order ih =>
      rw [stages] at h
      split at h
      · exact ih h
      · rename_i node hNode
        rcases List.mem_cons.mp h with rfl | hRest
        · rcases Sources.exists_wire hSource with
            ⟨edge, hEdge, hEq⟩
          rw [List.mem_filter, beq_iff_eq] at hEdge
          have hId := (Graph.operations_get? hNode).2
          exact
            ⟨edge, hEdge.1, hEdge.2.trans hId.symm, hEq⟩
        · exact ih hRest

end Pipeline

end FractalShader

------------------------------------------------------------
-- The Pipeline
------------------------------------------------------------

namespace FractalShader

open Relation Schedule

namespace Pipeline

/- The order of the stages when no node waits. -/
def canonical (g : Graph) : List String :=
  (along g.operations.keys g.dependencies).1

/- The nodes that wait for each other. -/
def stuck (g : Graph) : List String :=
  (along g.operations.keys g.dependencies).2

/-
  A pipeline has the stages of all nodes unless some of them
  wait for each other.  The counts are never at fault.
-/
theorem ofGraph_eq (g : Graph) :
    ofGraph g =
      if stuck g = [] then
        .ok
          (stages g.operations g.wires startId (canonical g))
      else
        .error (.cycle (stuck g)) := by
  rcases Tally.order_start g.operations.pairwise_keys
      g.within_dependencies with
    ⟨last, hOrder, hWaiting⟩
  have hLength :=
    (perm_along g.operations.keys g.dependencies).length_eq
  rw [List.length_append] at hLength
  have hIff :
      (canonical g).length < g.operations.keys.length ↔
        stuck g ≠ [] := by
    rw [← List.length_pos_iff]
    unfold canonical stuck
    omega
  simp only [ofGraph, hOrder, hWaiting]
  change
    (if (canonical g).length < _ then
      Except.error (Failure.cycle (stuck g))
    else _) = _
  by_cases hStuck : stuck g = []
  · rw [if_neg (by simpa [hStuck] using hIff),
      if_pos hStuck]
    rfl
  · rw [if_pos (hIff.mpr hStuck), if_neg hStuck]

/- No node waits exactly when no node feeds itself. -/
theorem stuck_eq_nil_iff (g : Graph) :
    stuck g = [] ↔ ∀ id, ¬ TransGen g.Feeds id id := by
  have hKeys :=
    nodup_of_increasing g.operations.pairwise_keys
  rw [← Graph.acyclic_dependencies_iff]
  constructor
  · intro h
    exact (along_along g.within_dependencies h).acyclic hKeys
  · intro h
    exact along_of_acyclic hKeys g.within_dependencies h

/- There is a pipeline exactly when no node feeds itself. -/
theorem exists_ofGraph_iff (g : Graph) :
    (∃ p, ofGraph g = .ok p) ↔
      ∀ id, ¬ TransGen g.Feeds id id := by
  rw [← stuck_eq_nil_iff, ofGraph_eq]
  constructor
  · intro hGiven
    rcases hGiven with ⟨p, h⟩
    split at h
    · assumption
    · cases h
  · intro h
    exact ⟨_, if_pos h⟩

theorem orders_canonical
    {g : Graph}
    (h : stuck g = []) :
    g.Orders (canonical g) :=
  (g.orders_iff _).mpr (along_along g.within_dependencies h)

/- What a pipeline is made of when there is one. -/
theorem ofGraph_eq_ok
    {g : Graph}
    {p : Pipeline}
    (h : ofGraph g = .ok p) :
    stuck g = [] ∧
      p =
        stages g.operations g.wires startId
          (canonical g) := by
  rw [ofGraph_eq] at h
  split at h
  · rename_i hStuck
    cases h
    exact ⟨hStuck, rfl⟩
  · cases h

/- The stages of a pipeline come in the canonical order. -/
theorem ids_of_ofGraph
    {g : Graph}
    {p : Pipeline}
    (h : ofGraph g = .ok p) :
    p.ids = canonical g := by
  rcases ofGraph_eq_ok h with ⟨hStuck, rfl⟩
  apply ids_stages
  intro id hMem
  exact ((orders_canonical hStuck).mem_iff id).mp hMem

/- The ids of a pipeline are an order of the graph. -/
theorem orders_of_ofGraph
    {g : Graph}
    {p : Pipeline}
    (h : ofGraph g = .ok p) :
    g.Orders p.ids := by
  rw [ids_of_ofGraph h]
  exact orders_canonical (ofGraph_eq_ok h).1

/- No order of the graph comes before that of its pipeline. -/
theorem ids_le
    {g : Graph}
    {p : Pipeline}
    (h : ofGraph g = .ok p)
    {order : List String}
    (hOrder : g.Orders order) :
    p.ids = order ∨ List.Lex (· < ·) p.ids order := by
  rw [ids_of_ofGraph h]
  exact
    along_le _ _ g.operations.pairwise_keys
      (ofGraph_eq_ok h).1 ((g.orders_iff order).mp hOrder)

/- Recorded sources are the start or earlier stages. -/
theorem source_earlier
    {g : Graph}
    {before after : Pipeline}
    {stage : Stage}
    (h : ofGraph g = .ok (before ++ stage :: after))
    {source : String}
    (hSource :
      stage.sources.a = some source ∨
        stage.sources.b = some source) :
    source = startId ∨ source ∈ before.ids := by
  have hOrders := orders_of_ofGraph h
  have hMem : stage ∈ before ++ stage :: after :=
    List.mem_append_right _ List.mem_cons_self
  rw [(ofGraph_eq_ok h).2] at hMem
  rcases exists_wire_of_stages hMem hSource with
    ⟨edge, hEdge, hTarget, rfl⟩
  rcases (g.mem_wires_iff edge).mp hEdge with
    ⟨hEdge, hReal, hStart | hFrom⟩
  · exact Or.inl hStart
  · right
    have hBefore :=
      hOrders.forward edge.source edge.target
        ⟨hFrom, hReal, edge, hEdge, rfl, rfl⟩
    rw [hTarget] at hBefore
    have hNodup := hOrders.nodup
    simp only [ids, List.map_append, List.map_cons]
      at hBefore hNodup
    exact hBefore.mem_left hNodup

/-
  A graph has a pipeline exactly when no node feeds itself.
  Its ids are the least order of the graph, and sources are
  recorded only of the start and of earlier stages.
-/
theorem ofGraph_correct (g : Graph) :
    (∀ why, ofGraph g = .error why →
      ∃ waiting, why = .cycle waiting) ∧
    ((∃ p, ofGraph g = .ok p) ↔
      ∀ id, ¬ TransGen g.Feeds id id) ∧
    ∀ p, ofGraph g = .ok p →
      g.Orders p.ids ∧
      (∀ before stage after, p = before ++ stage :: after →
        ∀ source,
          stage.sources.a = some source ∨
              stage.sources.b = some source →
            source = startId ∨ source ∈ ids before) ∧
      ∀ order, g.Orders order →
        p.ids = order ∨ List.Lex (· < ·) p.ids order := by
  refine ⟨?_, exists_ofGraph_iff g, ?_⟩
  · intro why h
    rw [ofGraph_eq] at h
    split at h
    · cases h
    · cases h
      exact ⟨_, rfl⟩
  · intro p h
    refine ⟨orders_of_ofGraph h, ?_, ?_⟩
    · rintro before stage after rfl source hSource
      exact source_earlier h hSource
    · intro order hOrder
      exact ids_le h hOrder

end Pipeline

end FractalShader
