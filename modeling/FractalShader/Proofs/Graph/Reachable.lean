import FractalShader.Proofs.Graph.Legal

/-
  The graphs that actions of the editor lead to, and the
  proof that they are legal.

  Main declarations:
    * `Action`
    * `Graph.perform`
    * `Graph.performAll`
    * `Graph.Reachable`
    * `Graph.Legal.perform`
    * `Graph.Reachable.legal`
-/

------------------------------------------------------------
-- Actions
------------------------------------------------------------

namespace FractalShader

/-
  What the editor asks of a graph.  New nodes and edges come
  with the id that was given to them or drawn for them.
-/
inductive Action where
  | addNode (id kind : String)
  | removeNode (id : String)
  | connect
      (id source target : String)
      (port : Option Port)
  | disconnect (id : String)
  | setParam (id input : String) (value : F32)
  | toggleBinding (id input : String)
  | setBinding (id input : String) (slot : Option Slot)
  | setGuard (id : String) (guard : Option Guard)
  | setEnabled (id : String) (enabled : Bool)
  | setPosition (id : String) (position : Position)
  | normalize

/- The id that an action draws for a new edge. -/
def Action.drawn? : Action → Option String
  | .connect id .. => some id
  | _ => none

namespace Graph

/- The graph that an action leaves, refused or not. -/
def perform (g : Graph) : Action → Graph
  | .addNode id kind => (g.addNode id kind).2
  | .removeNode id => (g.removeNode id).2
  | .connect id source target port =>
      (g.connect .builtIn id source target port).2
  | .disconnect id => (g.disconnect id).2
  | .setParam id input value => (g.setParam id input value).2
  | .toggleBinding id input => (g.toggleBinding id input).2
  | .setBinding id input slot =>
      (g.setBinding id input slot).2
  | .setGuard id guard => (g.setGuard id guard).2
  | .setEnabled id enabled => (g.setEnabled id enabled).2
  | .setPosition id position => (g.setPosition id position).2
  | .normalize => g.normalize

/- The graph that actions leave, one after another. -/
def performAll
    (g : Graph)
    (actions : List Action) : Graph :=
  actions.foldl perform g

/- The id drawn for a new edge is not in use. -/
def Fresh
    (g : Graph)
    (action : Action) : Prop :=
  ∀ id ∈ action.drawn?, id ∉ g.edges.map Edge.id

/- Graphs reached from the initial one by actions. -/
inductive Reachable : Graph → Prop where
  | initial : Reachable .initial
  | perform
      {g : Graph}
      (hReachable : Reachable g)
      (action : Action)
      (hFresh : g.Fresh action) :
      Reachable (g.perform action)

end Graph

end FractalShader

------------------------------------------------------------
-- Nodes
------------------------------------------------------------

namespace FractalShader

namespace Graph

variable {g : Graph}

theorem Legal.addNode
    (h : g.Legal)
    (id kind : String) :
    (g.addNode id kind).2.Legal := by
  unfold Graph.addNode
  split
  · exact h
  · split
    · exact h
    · rename_i hAbsent
      apply h.withNode
      · rw [← hasNode_iff]
        exact hAbsent
      · intro guard hGuard
        cases hGuard

/- Removing the edges at a node first makes it untouched. -/
theorem Legal.removeNode
    (h : g.Legal)
    (id : String) :
    (g.removeNode id).2.Legal := by
  unfold Graph.removeNode
  split
  · exact h
  · rename_i hReal
    split
    · exact h
    · have hEdges :=
        h.ofSublist
          (List.filter_sublist
            (p := fun edge : Edge =>
              edge.source != id && edge.target != id))
      apply hEdges.withoutNode (by simpa using hReal)
      intro edge hEdge
      have hKept := List.of_mem_filter hEdge
      simpa using hKept

end Graph

end FractalShader

------------------------------------------------------------
-- Edges
------------------------------------------------------------

namespace FractalShader

namespace Graph

variable {g : Graph}

/- What it takes for a new edge to pass all checks. -/
theorem acceptedPort_eq_ok_iff
    (g : Graph)
    (catalog : Catalog)
    (source target : String)
    (requested port : Option Port) :
    g.acceptedPort catalog source target requested =
        .ok port ↔
      g.hasNode source = true ∧
        (source ≠ endId ∧ target ≠ startId) ∧
        source ≠ target ∧
        ⟨source, target⟩ ∉ g.arrows ∧
        g.wouldCycle source target = false ∧
        ∃ node, g.node? target = some node ∧
          g.freePort catalog node requested = .ok port := by
  unfold acceptedPort
  cases hSource : g.hasNode source with
  | false => simp
  | true =>
      cases hTarget : g.node? target with
      | none => simp
      | some node =>
          by_cases hAgainst : source = endId ∨ target = startId
          · simp [hAgainst]
            tauto
          · by_cases hLoop : source = target
            · subst hLoop
              simp [hAgainst]
            · by_cases hTwice :
                ⟨source, target⟩ ∈ g.arrows
              · simp [hAgainst, hLoop, hTwice]
              · cases hFree :
                    g.freePort catalog node requested with
                | error why =>
                    simp [hAgainst, hLoop, hTwice, hFree]
                | ok free =>
                    cases hCycle :
                        g.wouldCycle source target with
                    | true =>
                        simp [hAgainst, hLoop, hTwice, hFree]
                    | false =>
                        push Not at hAgainst
                        simp [hAgainst, hLoop, hTwice, hFree]

/- A port found free takes the new edge. -/
theorem takes_of_freePort
    {node : Node}
    {requested port : Option Port}
    (hReal : isSentinel node.id = false)
    (h : g.freePort .builtIn node requested = .ok port) :
    g.Takes node port := by
  have hNotEnd : ¬ node.id = endId := by
    intro hEq
    simp [isSentinel, hEq] at hReal
  unfold freePort at h
  rw [if_neg hNotEnd] at h
  unfold Takes
  cases hArity : Catalog.builtIn.arity node.kind with
  | single =>
      rw [hArity] at h
      by_cases hNone : g.incoming node.id = []
      · simp only [hNone, List.isEmpty_nil, if_true] at h
        cases h
        simp [ports, hNone]
      · simp [hNone] at h
  | dual =>
      rw [hArity] at h
      dsimp only at h
      split at h
      · rename_i free hFound
        cases h
        have hFree := List.find?_some hFound
        refine ⟨by simp, ?_⟩
        intro hTaken
        rcases (mem_ports_iff g node.id _).mp hTaken with
          ⟨edge, hEdge, hTarget, hSame⟩
        rw [Bool.not_eq_true', portTaken,
          List.any_eq_false] at hFree
        apply hFree edge
        · exact
            (mem_incoming_iff g node.id edge).mpr
              ⟨hEdge, hTarget⟩
        · simp [hSame]
      · cases h

/- The search for a cycle speaks of all edges of the graph. -/
theorem Legal.acyclic_withArrow
    (h : g.Legal)
    {source target : String}
    (hSource : source ∈ g.ids)
    (hTarget : target ∈ g.ids)
    (hCycle : g.wouldCycle source target = false) :
    Arrow.Acyclic (g.arrows ++ [⟨source, target⟩]) := by
  have hAcyclic :=
    ((Arrow.closesCycle_eq_false_iff _ _ _).mp hCycle).2
  rwa [Arrow.within_eq_self] at hAcyclic
  intro a ha
  rcases List.mem_append.mp ha with hOld | hNew
  · rcases List.mem_map.mp hOld with ⟨edge, hEdge, rfl⟩
    exact h.ends edge hEdge
  · cases List.mem_singleton.mp hNew
    exact ⟨hSource, hTarget⟩

theorem Legal.connect
    (h : g.Legal)
    {id : String}
    (hFresh : id ∉ g.edges.map Edge.id)
    (source target : String)
    (requested : Option Port) :
    (g.connect .builtIn id source target
      requested).2.Legal := by
  unfold Graph.connect
  split
  · exact h
  · rename_i port hPort
    rcases (acceptedPort_eq_ok_iff g _ source target requested
        port).mp hPort with
      ⟨hSource, hDirected, _, hNew, hCycle, node, hNode, hFree⟩
    rw [hasNode_iff] at hSource
    rcases node?_eq_some hNode with ⟨hMem, hId⟩
    have hTarget : target ∈ g.ids := hId ▸ id_mem_ids hMem
    refine
      Legal.withEdge h hFresh ⟨hSource, hTarget⟩ hDirected
        hNew ?_ ?_
    · exact h.acyclic_withArrow hSource hTarget hCycle
    · intro other hOther hReal hSame
      have hEq : other = node :=
        h.node_unique hOther hMem (hSame.trans hId.symm)
      subst hEq
      exact takes_of_freePort hReal hFree

theorem Legal.disconnect
    (h : g.Legal)
    (id : String) :
    (g.disconnect id).2.Legal := by
  unfold Graph.disconnect
  split
  · exact h
  · exact h.ofSublist List.eraseP_sublist

end Graph

end FractalShader

------------------------------------------------------------
-- Fields of a Node
------------------------------------------------------------

namespace FractalShader

namespace Graph

variable {g : Graph}

/- A node open to changes is in the graph, no sentinel. -/
theorem editable_eq_ok
    {id : String}
    {node : Node}
    (h : g.editable id = .ok node) :
    isSentinel id = false ∧ g.node? id = some node := by
  unfold editable at h
  split at h
  · cases h
  · rename_i hReal
    split at h
    · cases h
      rename_i hNode
      exact ⟨by simpa using hReal, hNode⟩
    · cases h

/-
  Changing a node that is open to changes keeps a graph
  legal when the id and the kind stay and the guard holds on
  some iteration.
-/
theorem Legal.modifyEditable
    (h : g.Legal)
    {id : String}
    {node : Node}
    (hEditable : g.editable id = .ok node)
    {change : Node → Node}
    (hId : ∀ n, (change n).id = n.id)
    (hKind : ∀ n, (change n).kind = n.kind)
    (hGuard :
      ∀ n ∈ g.nodes,
        ∀ guard ∈ (change n).guard,
          guard.remainder < guard.modulus) :
    (g.modify id change).Legal := by
  apply h.modify id hId hKind hGuard
  intro hSentinel
  rw [(editable_eq_ok hEditable).1] at hSentinel
  cases hSentinel

theorem Legal.adjust
    (h : g.Legal)
    (id : String)
    {change : Node → Node}
    (hId : ∀ n, (change n).id = n.id)
    (hKind : ∀ n, (change n).kind = n.kind)
    (hGuard :
      ∀ n ∈ g.nodes,
        ∀ guard ∈ (change n).guard,
          guard.remainder < guard.modulus) :
    (g.adjust id change).2.Legal := by
  unfold Graph.adjust
  split
  · exact h
  · rename_i hEditable
    exact h.modifyEditable hEditable hId hKind hGuard

theorem Legal.setParam
    (h : g.Legal)
    (id input : String)
    (value : F32) :
    (g.setParam id input value).2.Legal := by
  unfold Graph.setParam
  split
  · exact h
  · split
    · exact h
    · rename_i hEditable
      split
      · exact h
      · exact
          h.modifyEditable hEditable (fun _ => rfl)
            (fun _ => rfl) h.guards

theorem Legal.toggleBinding
    (h : g.Legal)
    (id input : String) :
    (g.toggleBinding id input).2.Legal := by
  unfold Graph.toggleBinding
  split
  · exact h
  · rename_i hEditable
    exact
      h.modifyEditable hEditable (fun _ => rfl)
        (fun _ => rfl) h.guards

/- An invalid guard is refused, so none is stored. -/
theorem Legal.setGuard
    (h : g.Legal)
    (id : String)
    (guard : Option Guard) :
    (g.setGuard id guard).2.Legal := by
  unfold Graph.setGuard
  split
  · exact h
  · rename_i hValid
    refine h.adjust id (fun _ => rfl) (fun _ => rfl) ?_
    intro n _ stored hStored
    have hStored : guard = some stored := hStored
    simp only [hStored, Option.filter_eq_none_iff,
      Option.some.injEq] at hValid
    have hBounds := hValid stored rfl
    simp only [Guard.valid, Bool.not_eq_true',
      Bool.not_eq_false, Bool.and_eq_true,
      decide_eq_true_eq] at hBounds
    exact hBounds.2

theorem Legal.setPosition
    (h : g.Legal)
    (id : String)
    (position : Position) :
    (g.setPosition id position).2.Legal := by
  unfold Graph.setPosition
  split
  · exact
      h.modify id (fun _ => rfl) (fun _ => rfl) h.guards
        (fun _ _ => ⟨some position, rfl⟩)
  · exact h

end Graph

end FractalShader

------------------------------------------------------------
-- Runs
------------------------------------------------------------

namespace FractalShader

namespace Graph

variable {g : Graph}

/- A graph that is whole has nothing to restore or to drop. -/
theorem normalize_eq_self
    (hStart : startId ∈ g.ids)
    (hFinal : endId ∈ g.ids)
    (hEnds :
      ∀ edge ∈ g.edges,
        edge.source ∈ g.ids ∧ edge.target ∈ g.ids) :
    g.normalize = g := by
  rw [← hasNode_iff] at hStart hFinal
  have hEdges :
      g.edges.filter
          (fun edge =>
            g.hasNode edge.source && g.hasNode edge.target) =
        g.edges := by
    apply List.filter_eq_self.mpr
    intro edge hEdge
    simpa [hasNode_iff] using hEnds edge hEdge
  simp [normalize, withSentinel, withoutDangling, hStart,
    hFinal, hEdges]

theorem Legal.normalize_eq
    (h : g.Legal) :
    g.normalize = g := by
  rcases h.start with ⟨_, hStart⟩
  rcases h.final with ⟨_, hFinal⟩
  exact
    normalize_eq_self (id_mem_ids hStart) (id_mem_ids hFinal)
      h.ends

/- Every action keeps a graph legal. -/
theorem Legal.perform
    (h : g.Legal)
    {action : Action}
    (hFresh : g.Fresh action) :
    (g.perform action).Legal := by
  cases action with
  | addNode id kind => exact h.addNode id kind
  | removeNode id => exact h.removeNode id
  | connect id source target port =>
      exact h.connect (hFresh id rfl) source target port
  | disconnect id => exact h.disconnect id
  | setParam id input value => exact h.setParam id input value
  | toggleBinding id input => exact h.toggleBinding id input
  | setBinding id input slot =>
      exact h.adjust id (fun _ => rfl) (fun _ => rfl) h.guards
  | setGuard id guard => exact h.setGuard id guard
  | setEnabled id enabled =>
      exact h.adjust id (fun _ => rfl) (fun _ => rfl) h.guards
  | setPosition id position => exact h.setPosition id position
  | normalize =>
      change g.normalize.Legal
      rw [h.normalize_eq]
      exact h

/- Every graph that actions lead to is legal. -/
theorem Reachable.legal
    (h : g.Reachable) :
    g.Legal := by
  induction h with
  | initial => exact legal_initial
  | perform _ action hFresh ih => exact ih.perform hFresh

end Graph

end FractalShader

------------------------------------------------------------
-- Drawn Ids
------------------------------------------------------------

namespace FractalShader

namespace Graph

variable {g : Graph}

/- A restored sentinel comes without edges. -/
theorem edges_withSentinel
    (g : Graph)
    (id : String) :
    (g.withSentinel id).edges = g.edges := by
  unfold withSentinel
  split <;> rfl

/- An action adds no edge but the one that it draws. -/
theorem mem_edgeIds_perform
    {action : Action}
    {id : String}
    (h : id ∈ (g.perform action).edges.map Edge.id) :
    id ∈ g.edges.map Edge.id ∨ action.drawn? = some id := by
  have hFewer :
      ∀ edges : List Edge, edges.Sublist g.edges →
        id ∈ edges.map Edge.id → id ∈ g.edges.map Edge.id :=
    fun edges hSublist hMem => (hSublist.map _).subset hMem
  cases action with
  | connect drawn source target port =>
      simp only [perform, Graph.connect] at h
      split at h
      · exact Or.inl h
      · rw [List.map_append] at h
        rcases List.mem_append.mp h with hOld | hNew
        · exact Or.inl hOld
        · cases List.mem_singleton.mp hNew
          exact Or.inr rfl
  | removeNode other =>
      left
      simp only [perform, Graph.removeNode] at h
      split at h
      · exact h
      · split at h
        · exact h
        · exact hFewer _ List.filter_sublist h
  | disconnect other =>
      left
      simp only [perform, Graph.disconnect] at h
      split at h
      · exact h
      · exact hFewer _ List.eraseP_sublist h
  | normalize =>
      left
      have hKept : id ∈ g.normalize.edges.map Edge.id := h
      unfold normalize withoutDangling at hKept
      rw [edges_withSentinel, edges_withSentinel] at hKept
      exact hFewer _ List.filter_sublist hKept
  | addNode | setParam | toggleBinding | setBinding
  | setGuard | setEnabled | setPosition =>
      left
      revert h
      simp only [perform, Graph.addNode, Graph.setParam,
        Graph.toggleBinding, Graph.setBinding,
        Graph.setGuard, Graph.setEnabled,
        Graph.setPosition, Graph.adjust, Graph.modify]
      repeat' split
      all_goals exact fun h => h

/- Ids that are drawn once each are never in use. -/
theorem Reachable.performAll
    (h : g.Reachable)
    (actions : List Action)
    (hDrawn : (actions.filterMap Action.drawn?).Nodup)
    (hUnused :
      ∀ id ∈ actions.filterMap Action.drawn?,
        id ∉ g.edges.map Edge.id) :
    (g.performAll actions).Reachable := by
  induction actions generalizing g with
  | nil => exact h
  | cons action actions ih =>
      have hFresh : g.Fresh action := by
        intro id hId
        apply hUnused id
        exact
          List.mem_filterMap.mpr
            ⟨action, List.mem_cons_self, hId⟩
      have hRest :
          (actions.filterMap Action.drawn?).Nodup :=
        hDrawn.sublist
          ((List.sublist_cons_self action actions).filterMap _)
      refine ih (h.perform action hFresh) hRest ?_
      intro id hMem hUsed
      rcases mem_edgeIds_perform hUsed with hOld | hNew
      · refine hUnused id ?_ hOld
        rcases List.mem_filterMap.mp hMem with
          ⟨later, hLater, hId⟩
        exact
          List.mem_filterMap.mpr
            ⟨later, List.mem_cons_of_mem _ hLater, hId⟩
      · -- The id would be drawn a second time.
        rw [List.filterMap_cons, hNew] at hDrawn
        exact (List.nodup_cons.mp hDrawn).1 hMem

/- Every run leaves a legal graph. -/
theorem legal_performAll
    (actions : List Action)
    (hDrawn : (actions.filterMap Action.drawn?).Nodup) :
    (initial.performAll actions).Legal := by
  apply Reachable.legal
  apply Reachable.initial.performAll actions hDrawn
  intro id _ hMem
  cases hMem

/-
  A run that wires a node with two inputs, in which a second
  edge between the same nodes is refused.
-/
def sampleRun : List Action :=
  [.addNode "turn" "rotate", .addNode "sum" "union",
    .connect "first" startId "sum" (some .b),
    .connect "again" startId "sum" (some .a),
    .connect "second" "turn" "sum" none,
    .setGuard "sum" (some ⟨true, 3, 3⟩)]

theorem legal_sampleRun :
    (sampleRun.filterMap Action.drawn?).Nodup ∧
      (initial.performAll sampleRun).Legal ∧
      (initial.performAll sampleRun).ports "sum" =
        [some .b, some .a] :=
  ⟨by decide, legal_performAll sampleRun (by decide),
    by decide +kernel⟩

end Graph

end FractalShader
