import FractalShader.Graph.Editing
import FractalShader.Proofs.Graph.Cycles
import Mathlib.Data.List.Nodup

/-
  Legal graphs, and the changes that keep a graph legal.

  Main declarations:
    * `Graph.Legal`
    * `Graph.Legal.withNode`
    * `Graph.Legal.withoutNode`
    * `Graph.Legal.withEdge`
    * `Graph.Legal.ofSublist`
    * `Graph.Legal.modify`
-/

------------------------------------------------------------
-- Legality
------------------------------------------------------------

namespace FractalShader

/- The same node at another place. -/
def Node.placed
    (node : Node)
    (position : Option Position) : Node :=
  { node with position := position }

@[simp] theorem Node.sentinel_id (id : String) :
    (Node.sentinel id).id = id := rfl

@[simp] theorem Node.placed_id
    (node : Node)
    (position : Option Position) :
    (node.placed position).id = node.id := rfl

@[simp] theorem Node.placed_placed
    (node : Node)
    (first second : Option Position) :
    (node.placed first).placed second =
      node.placed second := rfl

namespace Graph

/- The ports that the edges into a node take. -/
def ports
    (g : Graph)
    (id : String) : List (Option Port) :=
  (g.incoming id).map Edge.port

/-
  A graph that the editor can hold: ids are distinct, the
  sentinels are in place, edges join nodes without a cycle,
  every input is fed at most once, and every guard holds on
  some iteration.
-/
structure Legal (g : Graph) : Prop where
  nodeIds : g.ids.Nodup
  start :
    ∃ position,
      (Node.sentinel startId).placed position ∈ g.nodes
  final :
    ∃ position,
      (Node.sentinel endId).placed position ∈ g.nodes
  edgeIds : (g.edges.map Edge.id).Nodup
  ends :
    ∀ edge ∈ g.edges,
      edge.source ∈ g.ids ∧ edge.target ∈ g.ids
  directed :
    ∀ edge ∈ g.edges,
      edge.source ≠ endId ∧ edge.target ≠ startId
  arrows : g.arrows.Nodup
  acyclic : Arrow.Acyclic g.arrows
  single :
    ∀ node ∈ g.nodes,
      isSentinel node.id = false →
        Catalog.builtIn.arity node.kind = .single →
          (g.ports node.id).length ≤ 1 ∧
            ∀ port ∈ g.ports node.id, port = none
  dual :
    ∀ node ∈ g.nodes,
      isSentinel node.id = false →
        Catalog.builtIn.arity node.kind = .dual →
          none ∉ g.ports node.id ∧
            ∀ port, (g.ports node.id).count (some port) ≤ 1
  guards :
    ∀ node ∈ g.nodes,
      ∀ guard ∈ node.guard, guard.remainder < guard.modulus

/- The graph that holds the sentinels only is legal. -/
theorem legal_initial : initial.Legal where
  nodeIds := by decide
  start := ⟨none, List.mem_cons_self⟩
  final := ⟨none, List.mem_cons_of_mem _ List.mem_cons_self⟩
  edgeIds := List.nodup_nil
  ends := by simp [initial]
  directed := by simp [initial]
  arrows := List.nodup_nil
  acyclic := by
    apply (Arrow.cyclic_eq_false_iff _).mp
    rfl
  single := by simp [initial, ports, incoming]
  dual := by simp [initial, ports, incoming]
  guards := by simp [initial, Node.sentinel]

end Graph

end FractalShader

------------------------------------------------------------
-- Ids
------------------------------------------------------------

namespace FractalShader

namespace Graph

theorem mem_ids_iff
    (g : Graph)
    (id : String) :
    id ∈ g.ids ↔ ∃ node ∈ g.nodes, node.id = id := by
  simp [ids]

theorem hasNode_iff
    (g : Graph)
    (id : String) :
    g.hasNode id = true ↔ id ∈ g.ids := by
  simp [hasNode, ids]

theorem id_mem_ids
    {g : Graph}
    {node : Node}
    (h : node ∈ g.nodes) :
    node.id ∈ g.ids :=
  List.mem_map_of_mem h

theorem node?_eq_some
    {g : Graph}
    {id : String}
    {node : Node}
    (h : g.node? id = some node) :
    node ∈ g.nodes ∧ node.id = id := by
  have hId := List.find?_some h
  exact ⟨List.mem_of_find?_eq_some h, by simpa using hId⟩

theorem exists_node?_of_mem_ids
    {g : Graph}
    {id : String}
    (h : id ∈ g.ids) :
    ∃ node, g.node? id = some node := by
  rcases (g.mem_ids_iff id).mp h with ⟨node, hNode, hId⟩
  apply Option.isSome_iff_exists.mp
  exact List.find?_isSome.mpr ⟨node, hNode, by simpa using hId⟩

@[simp] theorem mem_incoming_iff
    (g : Graph)
    (id : String)
    (edge : Edge) :
    edge ∈ g.incoming id ↔
      edge ∈ g.edges ∧ edge.target = id := by
  simp [incoming]

theorem mem_ports_iff
    (g : Graph)
    (id : String)
    (port : Option Port) :
    port ∈ g.ports id ↔
      ∃ edge ∈ g.edges, edge.target = id ∧
        edge.port = port := by
  simp [ports, and_assoc]

/- Nodes of distinct ids are told apart by their ids. -/
theorem Legal.node_unique
    {g : Graph}
    (h : g.Legal)
    {m n : Node}
    (hm : m ∈ g.nodes)
    (hn : n ∈ g.nodes)
    (hId : m.id = n.id) :
    m = n :=
  List.inj_on_of_nodup_map h.nodeIds hm hn hId

/- No edge enters an id that is not in the graph. -/
theorem Legal.ports_eq_nil
    {g : Graph}
    (h : g.Legal)
    {id : String}
    (hId : id ∉ g.ids) :
    g.ports id = [] := by
  apply List.eq_nil_iff_forall_not_mem.mpr
  intro port hPort
  rcases (mem_ports_iff g id port).mp hPort with
    ⟨edge, hEdge, hTarget, _⟩
  exact hId (hTarget ▸ (h.ends edge hEdge).2)

/- Two members of a list with one member are the same. -/
theorem eq_of_length_le_one
    {α : Type}
    {xs : List α}
    (hLength : xs.length ≤ 1)
    {x y : α}
    (hx : x ∈ xs)
    (hy : y ∈ xs) :
    x = y := by
  match xs, hLength, hx, hy with
  | [_], _, hx, hy =>
      rw [List.mem_singleton.mp hx, List.mem_singleton.mp hy]

/- No two edges enter one port of a node. -/
theorem Legal.edge_unique
    {g : Graph}
    (h : g.Legal)
    {edge other : Edge}
    (hEdge : edge ∈ g.edges)
    (hOther : other ∈ g.edges)
    (hReal : isSentinel edge.target = false)
    (hTarget : other.target = edge.target)
    (hPort : other.port = edge.port) :
    other = edge := by
  rcases (g.mem_ids_iff edge.target).mp (h.ends edge hEdge).2
    with ⟨node, hNode, hId⟩
  rw [← hId] at hReal
  have hEdgeIn : edge ∈ g.incoming node.id :=
    (mem_incoming_iff g node.id edge).mpr ⟨hEdge, hId.symm⟩
  have hOtherIn : other ∈ g.incoming node.id :=
    (mem_incoming_iff g node.id other).mpr
      ⟨hOther, hTarget.trans hId.symm⟩
  cases hArity : Catalog.builtIn.arity node.kind with
  | single =>
      have hLength := (h.single node hNode hReal hArity).1
      rw [ports, List.length_map] at hLength
      exact eq_of_length_le_one hLength hOtherIn hEdgeIn
  | dual =>
      rcases h.dual node hNode hReal hArity with
        ⟨hNone, hCount⟩
      cases hNamed : edge.port with
      | none =>
          have hUnnamed : none ∈ g.ports node.id :=
            (mem_ports_iff g node.id none).mpr
              ⟨edge, hEdge, hId.symm, hNamed⟩
          exact absurd hUnnamed hNone
      | some port =>
          have hLength := hCount port
          rw [ports, List.count, List.countP_map,
            List.countP_eq_length_filter] at hLength
          apply eq_of_length_le_one hLength
          · simpa [hPort, hNamed] using hOtherIn
          · simpa [hNamed] using hEdgeIn

end Graph

end FractalShader

------------------------------------------------------------
-- Changes of Nodes
------------------------------------------------------------

namespace FractalShader

namespace Graph

variable {g : Graph}

/- A new node that no edge touches keeps a graph legal. -/
theorem Legal.withNode
    (h : g.Legal)
    {node : Node}
    (hFresh : node.id ∉ g.ids)
    (hGuard :
      ∀ guard ∈ node.guard, guard.remainder < guard.modulus) :
    { g with nodes := g.nodes ++ [node] }.Legal where
  nodeIds := by
    have hNodup : (g.ids ++ [node.id]).Nodup := by
      apply List.nodup_append.mpr
      refine ⟨h.nodeIds, by simp, ?_⟩
      intro x hx y hy hEq
      cases List.mem_singleton.mp hy
      exact hFresh (hEq ▸ hx)
    simpa [ids] using hNodup
  start := by
    rcases h.start with ⟨position, hMem⟩
    exact ⟨position, List.mem_append_left _ hMem⟩
  final := by
    rcases h.final with ⟨position, hMem⟩
    exact ⟨position, List.mem_append_left _ hMem⟩
  edgeIds := h.edgeIds
  ends := by
    intro edge hEdge
    have hEnds := h.ends edge hEdge
    simp only [ids, List.map_append, List.mem_append]
    exact ⟨Or.inl hEnds.1, Or.inl hEnds.2⟩
  directed := h.directed
  arrows := h.arrows
  acyclic := h.acyclic
  single := by
    intro other hOther hReal hArity
    rcases List.mem_append.mp hOther with hOld | hNew
    · exact h.single other hOld hReal hArity
    · cases List.mem_singleton.mp hNew
      change (g.ports node.id).length ≤ 1 ∧
        ∀ port ∈ g.ports node.id, port = none
      simp [h.ports_eq_nil hFresh]
  dual := by
    intro other hOther hReal hArity
    rcases List.mem_append.mp hOther with hOld | hNew
    · exact h.dual other hOld hReal hArity
    · cases List.mem_singleton.mp hNew
      change none ∉ g.ports node.id ∧
        ∀ port, (g.ports node.id).count (some port) ≤ 1
      simp [h.ports_eq_nil hFresh]
  guards := by
    intro other hOther
    rcases List.mem_append.mp hOther with hOld | hNew
    · exact h.guards other hOld
    · cases List.mem_singleton.mp hNew
      exact hGuard

/- A node that no edge touches can be removed. -/
theorem Legal.withoutNode
    (h : g.Legal)
    {id : String}
    (hReal : isSentinel id = false)
    (hUntouched :
      ∀ edge ∈ g.edges,
        edge.source ≠ id ∧ edge.target ≠ id) :
    { g with
      nodes := g.nodes.eraseP (fun n => n.id == id) }.Legal :=
  have hKept :
      ∀ node ∈ g.nodes, node.id ≠ id →
        node ∈ g.nodes.eraseP (fun n => n.id == id) := by
    intro node hNode hNe
    exact
      (List.mem_eraseP_of_neg (by simpa using hNe)).mpr hNode
  have hOld :
      ∀ node ∈ g.nodes.eraseP (fun n => n.id == id),
        node ∈ g.nodes :=
    fun _ hNode => List.mem_of_mem_eraseP hNode
  have hSentinels : startId ≠ id ∧ endId ≠ id := by
    constructor <;>
      · rintro rfl
        simp [isSentinel] at hReal
  { nodeIds :=
      h.nodeIds.sublist (List.eraseP_sublist.map _)
    start := by
      rcases h.start with ⟨position, hMem⟩
      exact ⟨position, hKept _ hMem hSentinels.1⟩
    final := by
      rcases h.final with ⟨position, hMem⟩
      exact ⟨position, hKept _ hMem hSentinels.2⟩
    edgeIds := h.edgeIds
    ends := by
      intro edge hEdge
      have hNe := hUntouched edge hEdge
      have hEnds := h.ends edge hEdge
      simp only [mem_ids_iff] at hEnds ⊢
      rcases hEnds with ⟨⟨x, hx, hxId⟩, y, hy, hyId⟩
      exact
        ⟨⟨x, hKept x hx (hxId ▸ hNe.1), hxId⟩,
          ⟨y, hKept y hy (hyId ▸ hNe.2), hyId⟩⟩
    directed := h.directed
    arrows := h.arrows
    acyclic := h.acyclic
    single := fun node hNode => h.single node (hOld node hNode)
    dual := fun node hNode => h.dual node (hOld node hNode)
    guards := fun node hNode =>
      h.guards node (hOld node hNode) }

/- Distinct ids: the first node with an id is the only one. -/
theorem modifyFirst_eq_map
    (id : String)
    (change : Node → Node)
    {nodes : List Node}
    (hNodup : (nodes.map (·.id)).Nodup) :
    modifyFirst id change nodes =
      nodes.map fun n => if n.id = id then change n else n := by
  induction nodes with
  | nil => rfl
  | cons node nodes ih =>
      rw [List.map_cons, List.nodup_cons] at hNodup
      rw [modifyFirst, List.map_cons]
      split
      · rename_i hId
        have hRest :
            nodes.map
                (fun n => if n.id = id then change n else n) =
              nodes := by
          conv_rhs => rw [← List.map_id nodes]
          apply List.map_congr_left
          intro n hn
          apply if_neg
          intro hEq
          apply hNodup.1
          rw [hId, ← hEq]
          exact List.mem_map_of_mem hn
        rw [hRest]
      · rw [ih hNodup.2]

/-
  Changing a node keeps a graph legal when its id, its kind
  and the validity of its guard stay, and a sentinel is
  moved at most.
-/
theorem Legal.modify
    (h : g.Legal)
    (id : String)
    {change : Node → Node}
    (hId : ∀ n, (change n).id = n.id)
    (hKind : ∀ n, (change n).kind = n.kind)
    (hGuard :
      ∀ n ∈ g.nodes,
        ∀ guard ∈ (change n).guard,
          guard.remainder < guard.modulus)
    (hSentinel :
      isSentinel id = true →
        ∀ n, ∃ position, change n = n.placed position) :
    (g.modify id change).Legal := by
  have hNodes :
      (g.modify id change).nodes =
        g.nodes.map fun n =>
          if n.id = id then change n else n :=
    modifyFirst_eq_map id change h.nodeIds
  have hIds : (g.modify id change).ids = g.ids := by
    simp only [ids, hNodes, List.map_map]
    apply List.map_congr_left
    intro n _
    simp only [Function.comp]
    split
    · exact hId n
    · rfl
  have hStays :
      ∀ sentinel, isSentinel sentinel = true →
        (∃ position,
          (Node.sentinel sentinel).placed position ∈
            g.nodes) →
        ∃ position,
          (Node.sentinel sentinel).placed position ∈
            (g.modify id change).nodes := by
    intro sentinel hIs ⟨position, hMem⟩
    rw [hNodes]
    by_cases hEq : sentinel = id
    · subst hEq
      rcases hSentinel hIs
          ((Node.sentinel sentinel).placed position) with
        ⟨moved, hMoved⟩
      refine ⟨moved, List.mem_map.mpr ⟨_, hMem, ?_⟩⟩
      simp [hMoved]
    · refine ⟨position, List.mem_map.mpr ⟨_, hMem, ?_⟩⟩
      exact if_neg hEq
  -- A node of the new graph has the id and the kind of an
  -- old one, and the edges are the old ones.
  have hOrigin :
      ∀ node ∈ (g.modify id change).nodes,
        ∃ old ∈ g.nodes,
          node.id = old.id ∧ node.kind = old.kind ∧
            ∀ guard ∈ node.guard,
              guard.remainder < guard.modulus := by
    intro node hNode
    rw [hNodes] at hNode
    rcases List.mem_map.mp hNode with ⟨old, hOld, rfl⟩
    refine ⟨old, hOld, ?_⟩
    split
    · exact ⟨hId old, hKind old, hGuard old hOld⟩
    · exact ⟨rfl, rfl, h.guards old hOld⟩
  refine
    { nodeIds := hIds ▸ h.nodeIds
      start := hStays startId (by decide) h.start
      final := hStays endId (by decide) h.final
      edgeIds := h.edgeIds
      ends := hIds ▸ h.ends
      directed := h.directed
      arrows := h.arrows
      acyclic := h.acyclic
      single := ?_
      dual := ?_
      guards := ?_ }
  · intro node hNode hReal hArity
    rcases hOrigin node hNode with
      ⟨old, hOld, hSame, hSameKind, _⟩
    rw [hSame] at hReal ⊢
    exact h.single old hOld hReal (hSameKind ▸ hArity)
  · intro node hNode hReal hArity
    rcases hOrigin node hNode with
      ⟨old, hOld, hSame, hSameKind, _⟩
    rw [hSame] at hReal ⊢
    exact h.dual old hOld hReal (hSameKind ▸ hArity)
  · intro node hNode
    rcases hOrigin node hNode with ⟨_, _, _, _, hGuards⟩
    exact hGuards

end Graph

end FractalShader

------------------------------------------------------------
-- Changes of Edges
------------------------------------------------------------

namespace FractalShader

namespace Graph

variable {g : Graph}

/- Removing edges keeps a graph legal. -/
theorem Legal.ofSublist
    (h : g.Legal)
    {edges : List Edge}
    (hEdges : edges.Sublist g.edges) :
    { g with edges := edges }.Legal :=
  have hPorts :
      ∀ id,
        ({ g with edges := edges } : Graph).ports id |>.Sublist
          (g.ports id) :=
    fun _ => (hEdges.filter _).map _
  { nodeIds := h.nodeIds
    start := h.start
    final := h.final
    edgeIds := h.edgeIds.sublist (hEdges.map _)
    ends := fun edge hEdge =>
      h.ends edge (hEdges.subset hEdge)
    directed := fun edge hEdge =>
      h.directed edge (hEdges.subset hEdge)
    arrows := h.arrows.sublist (hEdges.map _)
    acyclic := h.acyclic.mono (hEdges.map _).subset
    single := by
      intro node hNode hReal hArity
      have hOld := h.single node hNode hReal hArity
      have hFewer := hPorts node.id
      exact
        ⟨Nat.le_trans hFewer.length_le hOld.1,
          fun port hPort => hOld.2 port (hFewer.subset hPort)⟩
    dual := by
      intro node hNode hReal hArity
      have hOld := h.dual node hNode hReal hArity
      have hFewer := hPorts node.id
      exact
        ⟨fun hNone => hOld.1 (hFewer.subset hNone),
          fun port =>
            Nat.le_trans (hFewer.count_le _) (hOld.2 port)⟩
    guards := h.guards }

/- The ports of a node after one more edge. -/
theorem ports_withEdge
    (g : Graph)
    (edge : Edge)
    (id : String) :
    ({ g with edges := g.edges ++ [edge] } : Graph).ports id =
      g.ports id ++
        (if edge.target = id then [edge.port] else []) := by
  by_cases hTarget : edge.target = id <;>
    simp [ports, incoming, hTarget]

/-
  A port may take a new edge into a node: the only port of a
  node with one input, or a port of a node with two that no
  edge takes yet.
-/
def Takes
    (g : Graph)
    (node : Node)
    (port : Option Port) : Prop :=
  match Catalog.builtIn.arity node.kind with
  | .single => g.ports node.id = [] ∧ port = none
  | .dual => port ≠ none ∧ port ∉ g.ports node.id

/-
  A new edge keeps a graph legal when it is the first one
  between its ends, runs against no sentinel, closes no
  cycle and takes a port that is free.
-/
theorem Legal.withEdge
    (h : g.Legal)
    {edge : Edge}
    (hFresh : edge.id ∉ g.edges.map Edge.id)
    (hEnds : edge.source ∈ g.ids ∧ edge.target ∈ g.ids)
    (hDirected :
      edge.source ≠ endId ∧ edge.target ≠ startId)
    (hNew : edge.arrow ∉ g.arrows)
    (hAcyclic : Arrow.Acyclic (g.arrows ++ [edge.arrow]))
    (hPort :
      ∀ node ∈ g.nodes,
        isSentinel node.id = false →
          node.id = edge.target → g.Takes node edge.port) :
    { g with edges := g.edges ++ [edge] }.Legal where
  nodeIds := h.nodeIds
  start := h.start
  final := h.final
  edgeIds := by
    simpa [List.nodup_append, h.edgeIds] using hFresh
  ends := by
    intro other hOther
    rcases List.mem_append.mp hOther with hOld | hLast
    · exact h.ends other hOld
    · exact List.mem_singleton.mp hLast ▸ hEnds
  directed := by
    intro other hOther
    rcases List.mem_append.mp hOther with hOld | hLast
    · exact h.directed other hOld
    · exact List.mem_singleton.mp hLast ▸ hDirected
  arrows := by
    have hConcat := List.Nodup.concat hNew h.arrows
    simpa [Graph.arrows] using hConcat
  acyclic := by
    simpa [Graph.arrows] using hAcyclic
  single := by
    intro node hNode hReal hArity
    have hOld := h.single node hNode hReal hArity
    simp only [ports_withEdge]
    by_cases hTarget : edge.target = node.id
    · have hTakes := hPort node hNode hReal hTarget.symm
      simp only [Takes, hArity] at hTakes
      simp [hTarget, hTakes.1, hTakes.2]
    · simpa [hTarget] using hOld
  dual := by
    intro node hNode hReal hArity
    have hOld := h.dual node hNode hReal hArity
    simp only [ports_withEdge]
    by_cases hTarget : edge.target = node.id
    · have hTakes := hPort node hNode hReal hTarget.symm
      simp only [Takes, hArity] at hTakes
      refine ⟨?_, ?_⟩
      · simp [hTarget, hOld.1, Ne.symm hTakes.1]
      · intro port
        rw [if_pos hTarget, List.count_append]
        by_cases hSame : edge.port = some port
        · have hAbsent : some port ∉ g.ports node.id :=
            hSame ▸ hTakes.2
          simp [List.count_eq_zero_of_not_mem hAbsent, hSame]
        · have hOther : ¬ some port = edge.port :=
            fun hEq => hSame hEq.symm
          simpa [hSame, List.count_singleton, hOther] using
            hOld.2 port
    · simpa [hTarget] using hOld
  guards := h.guards

end Graph

end FractalShader
