import FractalShader.Proofs.Graph.Effects

/-
  Plans that build a graph anew without a refusal.

  A plan adds every node and every edge of a graph, in any
  order in which an edge comes after its ends.  What it has
  added so far is a part of the graph, so nothing stands in
  the way of the next addition.

  Main declarations:
    * `Graph.Plan`
    * `Graph.grown`
    * `Graph.Plan.step`
    * `Graph.Plan.run`
-/

------------------------------------------------------------
-- Plans
------------------------------------------------------------

namespace FractalShader

/- Add a node of the same id and kind. -/
def Node.addition (node : Node) : Action :=
  .addNode node.id node.kind

/- Join the same ends at the same port, under a drawn id. -/
def Edge.joining
    (draw : Edge → String)
    (edge : Edge) : Action :=
  .connect (draw edge) edge.source edge.target edge.port

namespace Graph

/-
  One action for every node that is no sentinel, and one for
  every edge.
-/
def additions
    (g : Graph)
    (draw : Edge → String) : List Action :=
  g.realNodes.map Node.addition ++
    g.edges.map (Edge.joining draw)

/-
  The additions of a graph in an order in which both ends of
  an edge come before it.
-/
structure Plan
    (g : Graph)
    (draw : Edge → String)
    (actions : List Action) : Prop where
  all : actions.Perm (g.additions draw)
  ordered :
    ∀ edge ∈ g.edges, ∀ node ∈ g.realNodes,
      node.id = edge.source ∨ node.id = edge.target →
        [node.addition, edge.joining draw].Sublist actions

/- All nodes may come first, and all edges after them. -/
theorem plan_additions
    (g : Graph)
    (draw : Edge → String) :
    g.Plan draw (g.additions draw) where
  all := List.Perm.refl _
  ordered := by
    intro edge hEdge node hNode _
    have hFirst :
        [node.addition].Sublist
          (g.realNodes.map Node.addition) :=
      List.singleton_sublist.mpr (List.mem_map_of_mem hNode)
    have hSecond :
        [edge.joining draw].Sublist
          (g.edges.map (Edge.joining draw)) :=
      List.singleton_sublist.mpr (List.mem_map_of_mem hEdge)
    exact hFirst.append hSecond

end Graph

/- The node that an action adds when it is carried out. -/
def Action.node? : Action → Option Node
  | .addNode id kind => some (Graph.freshNode id kind)
  | _ => none

/-
  The edge that an action adds when it gets the port that it
  asks for.  Edges into the end take none.
-/
def Action.edge? : Action → Option Edge
  | .connect id source target port =>
      some
        ⟨id, source, target,
          if target = endId then none else port⟩
  | _ => none

namespace Graph

/- What additions leave when none of them is refused. -/
def grown (actions : List Action) : Graph where
  nodes := initial.nodes ++ actions.filterMap Action.node?
  edges := actions.filterMap Action.edge?

/- The ids are those of the sentinels and of all additions. -/
theorem mem_ids_grown_iff
    (actions : List Action)
    (id : String) :
    id ∈ (grown actions).ids ↔
      isSentinel id = true ∨
        ∃ kind, .addNode id kind ∈ actions := by
  have hSentinel :
      id ∈ initial.ids ↔ isSentinel id = true := by
    simp [initial, ids, isSentinel]
  have hAdded :
      id ∈ (actions.filterMap Action.node?).map (·.id) ↔
        ∃ kind, .addNode id kind ∈ actions := by
    simp only [List.mem_map, List.mem_filterMap]
    constructor
    · intro hGiven
      rcases hGiven with ⟨node, ⟨action, hAction, hNode⟩, rfl⟩
      cases action with
      | addNode id kind =>
          cases hNode
          exact ⟨kind, hAction⟩
      | _ => cases hNode
    · intro hGiven
      rcases hGiven with ⟨kind, hAction⟩
      exact ⟨_, ⟨_, hAction, rfl⟩, rfl⟩
  rw [← hSentinel, ← hAdded, ← List.mem_append]
  unfold ids grown
  rw [List.map_append]

/- An edge was added by an action that names its ends. -/
theorem exists_connect_of_mem_grown
    {actions : List Action}
    {edge : Edge}
    (h : edge ∈ (grown actions).edges) :
    ∃ port,
      .connect edge.id edge.source edge.target port ∈
          actions ∧
        edge.port =
          if edge.target = endId then none else port := by
  rcases List.mem_filterMap.mp h with ⟨action, hAction, hEdge⟩
  cases action with
  | connect id source target port =>
      cases hEdge
      exact ⟨port, hAction, rfl⟩
  | _ => cases hEdge

/- A node that is no sentinel was added with its kind. -/
theorem exists_addNode_of_mem_grown
    {actions : List Action}
    {node : Node}
    (h : node ∈ (grown actions).nodes)
    (hReal : isSentinel node.id = false) :
    .addNode node.id node.kind ∈ actions := by
  rcases List.mem_append.mp h with hOld | hNew
  · rcases (List.mem_cons.mp hOld) with rfl | hOld
    · cases hReal
    · cases List.mem_singleton.mp hOld
      cases hReal
  · rcases List.mem_filterMap.mp hNew with
      ⟨action, hAction, hNode⟩
    cases action with
    | addNode id kind =>
        cases hNode
        exact hAction
    | _ => cases hNode

end Graph

end FractalShader

------------------------------------------------------------
-- Plans of Legal Graphs
------------------------------------------------------------

namespace FractalShader

namespace Graph

variable {g : Graph} {draw : Edge → String}

/- An edge of a legal graph joins two nodes. -/
theorem Legal.source_ne_target
    (h : g.Legal)
    {edge : Edge}
    (hEdge : edge ∈ g.edges) :
    edge.source ≠ edge.target := by
  intro hSame
  apply h.acyclic edge.source
  apply Relation.TransGen.single
  have hMem : edge.arrow ∈ g.arrows := List.mem_map_of_mem hEdge
  unfold Edge.arrow at hMem
  rwa [← hSame] at hMem

/- A legal graph names none of its additions twice. -/
theorem Legal.nodup_additions
    (h : g.Legal)
    (draw : Edge → String) :
    (g.additions draw).Nodup := by
  have hNodes : (g.realNodes.map Node.addition).Nodup := by
    have hIds : (g.realNodes.map (·.id)).Nodup :=
      h.nodeIds.sublist (List.filter_sublist.map _)
    apply List.Nodup.map_on _ (List.Nodup.of_map _ hIds)
    intro node hNode other hOther hSame
    injection hSame with hId
    exact List.inj_on_of_nodup_map hIds hNode hOther hId
  have hEdges : (g.edges.map (Edge.joining draw)).Nodup := by
    apply List.Nodup.map_on _ (List.Nodup.of_map _ h.arrows)
    intro edge hEdge other hOther hSame
    injection hSame with _ hSource hTarget
    apply List.inj_on_of_nodup_map h.arrows hEdge hOther
    unfold Edge.arrow
    rw [hSource, hTarget]
  refine List.Nodup.append hNodes hEdges ?_
  intro action hNode hEdge
  rcases List.mem_map.mp hNode with ⟨node, _, rfl⟩
  rcases List.mem_map.mp hEdge with ⟨edge, _, hSame⟩
  cases hSame

/- An only input that no edge feeds is free. -/
theorem freePort_single
    {catalog : Catalog}
    {node : Node}
    (hEnd : node.id ≠ endId)
    (hArity : catalog.arity node.kind = .single)
    (hEmpty : g.incoming node.id = [])
    (requested : Option Port) :
    g.freePort catalog node requested = .ok none := by
  simp [freePort, hEnd, hArity, hEmpty]

/- A requested input of two is free when no edge feeds it. -/
theorem freePort_dual
    {catalog : Catalog}
    {node : Node}
    {port : Port}
    (hEnd : node.id ≠ endId)
    (hArity : catalog.arity node.kind = .dual)
    (hOthers :
      ∀ edge ∈ g.incoming node.id, edge.input ≠ port) :
    g.freePort catalog node (some port) = .ok (some port) := by
  have hUntaken : g.portTaken node.id port = false := by
    rw [portTaken, List.any_eq_false]
    intro edge hEdge
    simpa [Edge.input] using hOthers edge hEdge
  simp [freePort, hEnd, hArity, hUntaken]

namespace Plan

variable {actions before after : List Action}

theorem exists_node
    (h : g.Plan draw actions)
    {id kind : String}
    (hMem : .addNode id kind ∈ actions) :
    ∃ node ∈ g.realNodes, node.id = id ∧ node.kind = kind := by
  rcases List.mem_append.mp (h.all.mem_iff.mp hMem) with
    hNode | hEdge
  · rcases List.mem_map.mp hNode with ⟨node, hFound, hSame⟩
    cases hSame
    exact ⟨node, hFound, rfl, rfl⟩
  · rcases List.mem_map.mp hEdge with ⟨edge, _, hSame⟩
    cases hSame

theorem exists_edge
    (h : g.Plan draw actions)
    {id source target : String}
    {port : Option Port}
    (hMem : .connect id source target port ∈ actions) :
    ∃ edge ∈ g.edges,
      edge.source = source ∧ edge.target = target ∧
        edge.port = port ∧ draw edge = id := by
  rcases List.mem_append.mp (h.all.mem_iff.mp hMem) with
    hNode | hEdge
  · rcases List.mem_map.mp hNode with ⟨node, _, hSame⟩
    cases hSame
  · rcases List.mem_map.mp hEdge with ⟨edge, hFound, hSame⟩
    cases hSame
    exact ⟨edge, hFound, rfl, rfl, rfl, rfl⟩

/- No action of a plan comes twice. -/
theorem nodup
    (h : g.Plan draw actions)
    (hLegal : g.Legal) :
    actions.Nodup :=
  h.all.nodup_iff.mpr (hLegal.nodup_additions draw)

/- No action of a plan was carried out before. -/
theorem not_mem_before
    (h : g.Plan draw actions)
    (hLegal : g.Legal)
    {action : Action}
    (hSplit : actions = before ++ action :: after) :
    action ∉ before := by
  have hNodup := h.nodup hLegal
  rw [hSplit, List.nodup_middle, List.nodup_cons,
    List.mem_append, not_or] at hNodup
  exact hNodup.1.1

/- An end of an edge was added before the edge. -/
theorem addition_mem_before
    (h : g.Plan draw actions)
    (hLegal : g.Legal)
    {next : Edge}
    (hNext : next ∈ g.edges)
    (hSplit : actions = before ++ next.joining draw :: after)
    {node : Node}
    (hNode : node ∈ g.realNodes)
    (hEnd : node.id = next.source ∨ node.id = next.target) :
    node.addition ∈ before := by
  have hNodup := h.nodup hLegal
  have hPair := h.ordered next hNext node hNode hEnd
  rw [hSplit] at hNodup hPair
  have hAfter : next.joining draw ∉ after := by
    have hLast := (List.nodup_append.mp hNodup).2.1
    exact (List.nodup_cons.mp hLast).1
  rcases List.sublist_append_iff.mp hPair with
    ⟨left, right, hSame, hLeft, hRight⟩
  cases left with
  | nil =>
      -- The edge would come a second time.
      rw [List.nil_append] at hSame
      rw [← hSame] at hRight
      exact absurd (hRight.tail.mem (by simp)) hAfter
  | cons first left =>
      injection hSame with hFirst
      exact hLeft.mem (hFirst ▸ List.mem_cons_self)

/-
  What was added before is part of the graph: an edge there
  is one of the graph but the one that comes next.
-/
theorem edge_of_mem_grown
    (h : g.Plan draw actions)
    (hLegal : g.Legal)
    {next : Edge}
    (hSplit : actions = before ++ next.joining draw :: after)
    {edge : Edge}
    (hEdge : edge ∈ (grown before).edges) :
    ∃ old ∈ g.edges,
      old ≠ next ∧ edge.arrow = old.arrow ∧
        (edge.target ≠ endId → edge.port = old.port) := by
  rcases exists_connect_of_mem_grown hEdge with
    ⟨port, hBefore, hPort⟩
  have hMem :
      .connect edge.id edge.source edge.target port ∈
        actions := by
    rw [hSplit]
    exact List.mem_append_left _ hBefore
  rcases h.exists_edge hMem with
    ⟨old, hOld, hSource, hTarget, hSame, hId⟩
  refine ⟨old, hOld, ?_, ?_, ?_⟩
  · rintro rfl
    apply h.not_mem_before hLegal hSplit
    unfold Edge.joining
    rw [hSource, hTarget, hSame, hId]
    exact hBefore
  · unfold Edge.arrow
    rw [hSource, hTarget]
  · intro hEnd
    rw [hPort, if_neg hEnd, hSame]

/- An end of the next edge is there, with its kind. -/
theorem end_mem_grown
    (h : g.Plan draw actions)
    (hLegal : g.Legal)
    {next : Edge}
    (hNext : next ∈ g.edges)
    (hSplit : actions = before ++ next.joining draw :: after)
    {id : String}
    (hId : id ∈ g.ids)
    (hEnd : id = next.source ∨ id = next.target) :
    id ∈ (grown before).ids := by
  rw [mem_ids_grown_iff]
  by_cases hReal : isSentinel id = true
  · exact Or.inl hReal
  · right
    rcases (g.mem_ids_iff id).mp hId with ⟨node, hNode, rfl⟩
    have hMem : node ∈ g.realNodes :=
      List.mem_filter.mpr ⟨hNode, by simpa using hReal⟩
    exact
      ⟨node.kind,
        h.addition_mem_before hLegal hNext hSplit hMem hEnd⟩

/-
  An edge into the end of the next one takes a port that an
  edge of the graph takes, and not the same as the next one.
-/
theorem port_of_incoming_grown
    (h : g.Plan draw actions)
    (hLegal : g.Legal)
    {next : Edge}
    (hNext : next ∈ g.edges)
    (hSplit : actions = before ++ next.joining draw :: after)
    (hReal : isSentinel next.target = false)
    {edge : Edge}
    (hEdge : edge ∈ (grown before).incoming next.target) :
    edge.port ∈ g.ports next.target ∧
      edge.port ≠ next.port := by
  rw [mem_incoming_iff] at hEdge
  rcases h.edge_of_mem_grown hLegal hSplit hEdge.1 with
    ⟨old, hOld, hNe, hArrow, hSame⟩
  injection hArrow with _ hTarget
  rw [hEdge.2] at hTarget hSame
  have hPort : edge.port = old.port := by
    apply hSame
    intro hEnd
    simp [isSentinel, hEnd] at hReal
  rw [hPort]
  refine ⟨?_, ?_⟩
  · exact
      (mem_ports_iff g next.target old.port).mpr
        ⟨old, hOld, hTarget.symm, rfl⟩
  · intro hTwice
    exact
      hNe
        (hLegal.edge_unique hNext hOld hReal hTarget.symm
          hTwice)

/- An added node has the kind that it has in the graph. -/
theorem exists_node_of_mem_grown
    (h : g.Plan draw actions)
    (hSplit : actions = before ++ after)
    {node : Node}
    (hNode : node ∈ (grown before).nodes)
    (hReal : isSentinel node.id = false) :
    ∃ old ∈ g.nodes, old.id = node.id ∧ old.kind = node.kind := by
  have hAdded : .addNode node.id node.kind ∈ actions := by
    rw [hSplit]
    exact
      List.mem_append_left _
        (exists_addNode_of_mem_grown hNode hReal)
  rcases h.exists_node hAdded with ⟨old, hOld, hSame⟩
  exact ⟨old, List.mem_of_mem_filter hOld, hSame⟩

/- The next edge gets the port that it has in the graph. -/
theorem freePort_grown
    (h : g.Plan draw actions)
    (hLegal : g.Legal)
    {next : Edge}
    (hNext : next ∈ g.edges)
    (hSplit : actions = before ++ next.joining draw :: after)
    {node : Node}
    (hNode : node ∈ (grown before).nodes)
    (hId : node.id = next.target) :
    (grown before).freePort .builtIn node next.port =
      .ok (if next.target = endId then none else next.port)
      := by
  by_cases hEnd : next.target = endId
  · simp [freePort, hId, hEnd]
  · rw [if_neg hEnd]
    have hReal : isSentinel next.target = false := by
      simp [isSentinel, (hLegal.directed next hNext).2, hEnd]
    rcases h.exists_node_of_mem_grown hSplit hNode
        (hId ▸ hReal) with
      ⟨old, hOld, hOldId, hKind⟩
    have hTarget := hOldId.trans hId
    have hOldReal : isSentinel old.id = false :=
      hTarget ▸ hReal
    have hIn : next.port ∈ g.ports next.target :=
      (mem_ports_iff g next.target next.port).mpr
        ⟨next, hNext, rfl, rfl⟩
    have hOthers :
        ∀ edge ∈ (grown before).incoming next.target,
          edge.port ∈ g.ports next.target ∧
            edge.port ≠ next.port :=
      fun edge hEdge =>
        h.port_of_incoming_grown hLegal hNext hSplit hReal
          hEdge
    cases hArity : Catalog.builtIn.arity node.kind with
    | single =>
        have hNone :=
          (hLegal.single old hOld hOldReal
            (hKind ▸ hArity)).2
        rw [hTarget] at hNone
        rw [hNone _ hIn]
        apply freePort_single (hId ▸ hEnd) hArity
        rw [hId, List.eq_nil_iff_forall_not_mem]
        intro edge hEdge
        rcases hOthers edge hEdge with ⟨hPort, hNe⟩
        exact hNe ((hNone _ hPort).trans (hNone _ hIn).symm)
    | dual =>
        have hNamed :=
          (hLegal.dual old hOld hOldReal (hKind ▸ hArity)).1
        rw [hTarget] at hNamed
        cases hPort : next.port with
        | none => exact absurd (hPort ▸ hIn) hNamed
        | some port =>
            apply freePort_dual (hId ▸ hEnd) hArity
            intro edge hEdge
            rw [hId] at hEdge
            rcases hOthers edge hEdge with ⟨hOther, hNe⟩
            cases hTaken : edge.port with
            | none => exact absurd (hTaken ▸ hOther) hNamed
            | some other =>
                rw [hTaken, hPort] at hNe
                simpa [Edge.input, hTaken] using hNe

/- The next node is added. -/
theorem step_addition
    (h : g.Plan draw actions)
    (hLegal : g.Legal)
    {next : Node}
    (hNext : next ∈ g.realNodes)
    (hSplit : actions = before ++ next.addition :: after) :
    (grown before).addNode next.id next.kind =
      (.ok (), grown (before ++ [next.addition])) := by
  have hReal : isSentinel next.id = false := by
    simpa using List.of_mem_filter hNext
  have hAbsent : (grown before).hasNode next.id = false := by
    rw [Bool.eq_false_iff, Ne, hasNode_iff, mem_ids_grown_iff]
    rintro (hSentinel | ⟨kind, hAdded⟩)
    · simp [hReal] at hSentinel
    · -- It would be the same addition a second time.
      have hTwice : .addNode next.id kind ∈ actions := by
        rw [hSplit]
        exact List.mem_append_left _ hAdded
      rcases h.exists_node hTwice with
        ⟨other, hOther, hId, hKind⟩
      have hSame : other = next :=
        hLegal.node_unique (List.mem_of_mem_filter hOther)
          (List.mem_of_mem_filter hNext) hId
      apply h.not_mem_before hLegal hSplit
      unfold Node.addition
      rw [← hSame, hKind, hSame]
      exact hAdded
  unfold Graph.addNode
  rw [hReal, hAbsent]
  simp [grown, Node.addition, Action.node?, Action.edge?]

/- The arrow of the next edge is new, and the others are old. -/
theorem arrows_grown
    (h : g.Plan draw actions)
    (hLegal : g.Legal)
    {next : Edge}
    (hNext : next ∈ g.edges)
    (hSplit : actions = before ++ next.joining draw :: after)
    {a : Arrow}
    (ha : a ∈ (grown before).arrows) :
    a ∈ g.arrows ∧ a ≠ next.arrow := by
  rcases List.mem_map.mp ha with ⟨edge, hEdge, rfl⟩
  rcases h.edge_of_mem_grown hLegal hSplit hEdge with
    ⟨old, hOld, hNe, hArrow, _⟩
  rw [hArrow]
  refine ⟨List.mem_map_of_mem hOld, fun hSame => hNe ?_⟩
  exact
    List.inj_on_of_nodup_map hLegal.arrows hOld hNext hSame

/- The next edge is added, at the port of the graph. -/
theorem step_joining
    (h : g.Plan draw actions)
    (hLegal : g.Legal)
    {next : Edge}
    (hNext : next ∈ g.edges)
    (hSplit : actions = before ++ next.joining draw :: after) :
    (grown before).connect .builtIn (draw next) next.source
        next.target next.port =
      (.ok (), grown (before ++ [next.joining draw])) := by
  have hEnds := hLegal.ends next hNext
  have hSource :=
    h.end_mem_grown hLegal hNext hSplit hEnds.1 (Or.inl rfl)
  have hTarget :=
    h.end_mem_grown hLegal hNext hSplit hEnds.2 (Or.inr rfl)
  rcases exists_node?_of_mem_ids hTarget with ⟨node, hNode⟩
  rcases node?_eq_some hNode with ⟨hMem, hId⟩
  have hLoop := hLegal.source_ne_target hNext
  have hNew : next.arrow ∉ (grown before).arrows :=
    fun hOld => (h.arrows_grown hLegal hNext hSplit hOld).2 rfl
  have hCycle :
      (grown before).wouldCycle next.source next.target =
        false := by
    have hAll :
        Arrow.within (grown before).ids
            ((grown before).arrows ++ [next.arrow]) ⊆
          g.arrows := by
      intro a ha
      rcases List.mem_append.mp (List.mem_of_mem_filter ha)
        with hOld | hLast
      · exact (h.arrows_grown hLegal hNext hSplit hOld).1
      · cases List.mem_singleton.mp hLast
        exact List.mem_map_of_mem hNext
    rw [wouldCycle, Arrow.closesCycle_eq_false_iff]
    exact ⟨hLoop, hLegal.acyclic.mono hAll⟩
  have hAccepted :
      (grown before).acceptedPort .builtIn next.source
          next.target next.port =
        .ok
          (if next.target = endId then none else next.port) :=
    (acceptedPort_eq_ok_iff _ _ _ _ _ _).mpr
      ⟨(hasNode_iff _ _).mpr hSource,
        hLegal.directed next hNext, hLoop, hNew, hCycle, node,
        hNode, h.freePort_grown hLegal hNext hSplit hMem hId⟩
  unfold Graph.connect
  rw [hAccepted]
  simp [grown, Edge.joining, Action.node?, Action.edge?]

/- The next addition of either sort is carried out. -/
theorem step
    (h : g.Plan draw actions)
    (hLegal : g.Legal)
    {action : Action}
    (hSplit : actions = before ++ action :: after) :
    (grown before).refusal? action = none ∧
      (grown before).perform action =
        grown (before ++ [action]) := by
  have hMem : action ∈ g.additions draw := by
    rw [← h.all.mem_iff, hSplit]
    simp
  rcases List.mem_append.mp hMem with hNode | hEdge
  · rcases List.mem_map.mp hNode with ⟨next, hNext, rfl⟩
    have hAdd := h.step_addition hLegal hNext hSplit
    unfold Node.addition at hAdd ⊢
    simp [refusal?, perform, hAdd, Refusal.of?]
  · rcases List.mem_map.mp hEdge with ⟨next, hNext, rfl⟩
    have hConnect := h.step_joining hLegal hNext hSplit
    unfold Edge.joining at hConnect ⊢
    simp [refusal?, perform, hConnect, Refusal.of?]

/- What a plan has carried out so far, all of it was added. -/
theorem run
    (h : g.Plan draw actions)
    (hLegal : g.Legal)
    (hSplit : actions = before ++ after) :
    initial.performAll before = grown before := by
  induction before using List.reverseRecOn
      generalizing after with
  | nil => rfl
  | append_singleton before action ih =>
      have hNext : actions = before ++ action :: after := by
        simpa using hSplit
      unfold performAll at ih ⊢
      rw [List.foldl_append, ih hNext]
      exact (h.step hLegal hNext).2

end Plan

end Graph

end FractalShader
