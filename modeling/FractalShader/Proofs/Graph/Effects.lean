import FractalShader.Proofs.Graph.Reachable
import FractalShader.Proofs.Pipeline.OfGraph
import FractalShader.Proofs.Shader.Values

/-
  What actions do to any graph, legal or not, when a catalog
  of choice decides where new edges go, and what every run
  of actions keeps.

  Main declarations:
    * `Graph.performWith`
    * `Graph.runWith`
    * `Graph.refusal?`
    * `Graph.perform_of_refused`
    * `Edit.action`
    * `Graph.Effect`
    * `Graph.effect_performWith`
    * `Graph.Orderly`
    * `Graph.FedOnce`
    * `Graph.AllValues`
    * `Graph.FiniteValues`
-/

------------------------------------------------------------
-- Actions Under a Catalog
------------------------------------------------------------

namespace FractalShader

namespace Graph

/-
  The graph that an action leaves when the kinds of a
  catalog say how many inputs the end of a new edge has.
-/
def performWith
    (catalog : Catalog)
    (g : Graph) : Action → Graph
  | .connect id source target port =>
      (g.connect catalog id source target port).2
  | action => g.perform action

/- The graph that actions leave, one after another. -/
def runWith
    (catalog : Catalog)
    (g : Graph)
    (actions : List Action) : Graph :=
  actions.foldl (performWith catalog) g

@[simp] theorem performWith_builtIn
    (g : Graph)
    (action : Action) :
    g.performWith .builtIn action = g.perform action := by
  cases action <;> rfl

theorem runWith_builtIn
    (g : Graph)
    (actions : List Action) :
    g.runWith .builtIn actions = g.performAll actions := by
  unfold runWith performAll
  congr 1
  funext g action
  exact performWith_builtIn g action

/- What every action keeps, every run keeps. -/
theorem runWith_induction
    {catalog : Catalog}
    {Kept : Graph → Prop}
    (hStep :
      ∀ g action, Kept g → Kept (g.performWith catalog action))
    {g : Graph}
    (h : Kept g)
    (actions : List Action) :
    Kept (g.runWith catalog actions) := by
  induction actions generalizing g with
  | nil => exact h
  | cons action actions ih => exact ih (hStep g action h)

end Graph

end FractalShader

------------------------------------------------------------
-- Refused Actions
------------------------------------------------------------

namespace FractalShader

/- The reason that an answer gives. -/
def Refusal.of?
    {α : Type} : Except Refusal α → Option Refusal
  | .ok _ => none
  | .error why => some why

namespace Graph

/- Why an action is refused, unless it is carried out. -/
def refusal? (g : Graph) : Action → Option Refusal
  | .addNode id kind => Refusal.of? (g.addNode id kind).1
  | .removeNode id => Refusal.of? (g.removeNode id).1
  | .connect id source target port =>
      Refusal.of?
        (g.connect .builtIn id source target port).1
  | .disconnect id => Refusal.of? (g.disconnect id).1
  | .setParam id input value =>
      Refusal.of? (g.setParam id input value).1
  | .toggleBinding id input =>
      Refusal.of? (g.toggleBinding id input).1
  | .setBinding id input slot =>
      Refusal.of? (g.setBinding id input slot).1
  | .setGuard id guard => Refusal.of? (g.setGuard id guard).1
  | .setEnabled id enabled =>
      Refusal.of? (g.setEnabled id enabled).1
  | .setPosition id position =>
      Refusal.of? (g.setPosition id position).1
  | .normalize => none

/- A refused action leaves the graph as it was. -/
theorem perform_of_refused
    {g : Graph}
    {action : Action}
    {why : Refusal}
    (h : g.refusal? action = some why) :
    g.perform action = g := by
  revert h
  cases action <;>
    simp only [refusal?, perform, addNode, removeNode,
      Graph.connect, Graph.disconnect, setParam,
      toggleBinding, setBinding, setGuard, setEnabled,
      setPosition, adjust]
  -- Every branch refuses and keeps the graph, or accepts.
  all_goals
    repeat' split
    all_goals
      intro h
      first
      | rfl
      | cases h

end Graph

/-
  The action that an edit asks for.  A new node or edge
  without an id gets the next one of the supply.
-/
def Edit.action
    (supply : Supply) : Edit → Action
  | .addNode id kind => .addNode (id.getD supply.nodeId) kind
  | .removeNode node => .removeNode node
  | .connect source target port =>
      .connect supply.edgeId source target port
  | .disconnect edge => .disconnect edge
  | .setParam node input value => .setParam node input value
  | .toggleBinding node input => .toggleBinding node input
  | .setBinding node input slot => .setBinding node input slot
  | .setGuard node guard => .setGuard node guard
  | .setEnabled node enabled => .setEnabled node enabled
  | .moveNode node position => .setPosition node position

namespace Graph

variable {g : Graph} {supply : Supply} {edit : Edit}

/- An edit does what its action does. -/
theorem apply_graph :
    (g.apply supply edit).graph =
      g.perform (edit.action supply) := by
  cases edit with
  | addNode id kind => cases id <;> rfl
  | _ => rfl

/- An edit is refused when its action is, for one reason. -/
theorem apply_refused_iff
    (why : Refusal) :
    (g.apply supply edit).answer = .error why ↔
      g.refusal? (edit.action supply) = some why := by
  have hAnswer :
      ∀ {α β : Type} (answer : Except Refusal α) (f : α → β),
        answer.map f = .error why ↔
          Refusal.of? answer = some why := by
    intro α β answer f
    cases answer with
    | error other => simp [Refusal.of?, Except.map]
    | ok a => simp [Refusal.of?, Except.map]
  cases edit with
  | addNode id kind => cases id <;> exact hAnswer _ _
  | _ => exact hAnswer _ _

end Graph

end FractalShader

------------------------------------------------------------
-- Ids and Edges
------------------------------------------------------------

namespace FractalShader

namespace Graph

/-
  All that an action can do to the ids and the edges of a
  graph.
-/
inductive Effect
    (catalog : Catalog)
    (g : Graph) : Graph → Prop where
  | kept
      {h : Graph}
      (ids : h.ids = g.ids)
      (edges : h.edges.Sublist g.edges) :
      Effect catalog g h
  | added
      {h : Graph}
      (id : String)
      (absent : id ∉ g.ids)
      (ids : h.ids = g.ids ++ [id])
      (edges : h.edges = g.edges) :
      Effect catalog g h
  | removed
      {h : Graph}
      (id : String)
      (ids : h.ids = g.ids.erase id)
      (edges :
        h.edges =
          g.edges.filter fun edge =>
            edge.source != id && edge.target != id) :
      Effect catalog g h
  | wired
      {h : Graph}
      (edge : Edge)
      (requested : Option Port)
      (accepted :
        g.acceptedPort catalog edge.source edge.target
          requested = .ok edge.port)
      (nodes : h.nodes = g.nodes)
      (edges : h.edges = g.edges ++ [edge]) :
      Effect catalog g h
  | normalized : Effect catalog g g.normalize

variable {catalog : Catalog} {g : Graph}

theorem Effect.same : Effect catalog g g :=
  .kept rfl (List.Sublist.refl _)

/- Changing a node in place keeps all ids. -/
theorem ids_modify
    (g : Graph)
    (id : String)
    {change : Node → Node}
    (hId : ∀ n, (change n).id = n.id) :
    (g.modify id change).ids = g.ids := by
  have hNodes :
      ∀ nodes : List Node,
        (modifyFirst id change nodes).map (·.id) =
          nodes.map (·.id) := by
    intro nodes
    induction nodes with
    | nil => rfl
    | cons node nodes ih =>
        rw [modifyFirst]
        split
        · simp [hId]
        · simp [ih]
  exact hNodes g.nodes

theorem Effect.modify
    (id : String)
    {change : Node → Node}
    (hId : ∀ n, (change n).id = n.id) :
    Effect catalog g (g.modify id change) :=
  .kept (ids_modify g id hId) (List.Sublist.refl _)

theorem Effect.adjust
    (id : String)
    {change : Node → Node}
    (hId : ∀ n, (change n).id = n.id) :
    Effect catalog g (g.adjust id change).2 := by
  unfold Graph.adjust
  split
  · exact .same
  · exact .modify id hId

/- The node that is removed is the first one with its id. -/
theorem ids_eraseP
    (id : String)
    (nodes : List Node) :
    (nodes.eraseP (fun n => n.id == id)).map (·.id) =
      (nodes.map (·.id)).erase id := by
  induction nodes with
  | nil => rfl
  | cons node nodes ih =>
      by_cases h : node.id = id
      · simp [h]
      · simp [h, ih]

/- Every action has one of these effects. -/
theorem effect_performWith
    (catalog : Catalog)
    (g : Graph)
    (action : Action) :
    Effect catalog g (g.performWith catalog action) := by
  cases action with
  | addNode id kind =>
      simp only [performWith, perform, addNode]
      split
      · exact .same
      · split
        · exact .same
        · rename_i hAbsent
          refine .added id ?_ ?_ rfl
          · rw [← hasNode_iff]
            exact hAbsent
          · simp [ids, freshNode]
  | removeNode id =>
      simp only [performWith, perform, removeNode]
      split
      · exact .same
      · split
        · exact .same
        · exact .removed id (ids_eraseP id g.nodes) rfl
  | connect id source target port =>
      simp only [performWith, Graph.connect]
      split
      · exact .same
      · rename_i free hFree
        exact
          .wired ⟨id, source, target, free⟩ port hFree rfl rfl
  | disconnect id =>
      simp only [performWith, perform, Graph.disconnect]
      split
      · exact .same
      · exact .kept rfl List.eraseP_sublist
  | setParam id input value =>
      simp only [performWith, perform, setParam]
      split
      · exact .same
      · split
        · exact .same
        · split
          · exact .same
          · exact .modify id fun _ => rfl
  | toggleBinding id input =>
      simp only [performWith, perform, toggleBinding]
      split
      · exact .same
      · exact .modify id fun _ => rfl
  | setBinding id input slot => exact .adjust id fun _ => rfl
  | setGuard id guard =>
      simp only [performWith, perform, setGuard]
      split
      · exact .same
      · exact .adjust id fun _ => rfl
  | setEnabled id enabled => exact .adjust id fun _ => rfl
  | setPosition id position =>
      simp only [performWith, perform, setPosition]
      split
      · exact .modify id fun _ => rfl
      · exact .same
  | normalize => exact .normalized

end Graph

end FractalShader

------------------------------------------------------------
-- Distinct Ids
------------------------------------------------------------

namespace FractalShader

namespace Graph

variable {catalog : Catalog} {g h : Graph}

/- A sentinel is added under an id that is not in use. -/
theorem ids_withSentinel
    (g : Graph)
    (id : String) :
    (g.withSentinel id).ids =
      if id ∈ g.ids then g.ids else g.ids ++ [id] := by
  unfold withSentinel
  by_cases hId : id ∈ g.ids
  · rw [if_pos ((hasNode_iff g id).mpr hId), if_pos hId]
  · rw [if_neg (by rwa [hasNode_iff]), if_neg hId]
    simp [ids]

theorem mem_ids_normalize_iff
    (g : Graph)
    (id : String) :
    id ∈ g.normalize.ids ↔
      id ∈ g.ids ∨ isSentinel id = true := by
  change
    id ∈ ((g.withSentinel startId).withSentinel endId).ids ↔ _
  have hOne :
      ∀ (g : Graph) (sentinel : String),
        id ∈ (g.withSentinel sentinel).ids ↔
          id ∈ g.ids ∨ id = sentinel := by
    intro g sentinel
    rw [ids_withSentinel]
    split
    · constructor
      · exact Or.inl
      · rintro (hMem | rfl)
        · exact hMem
        · assumption
    · simp
  rw [hOne, hOne, or_assoc]
  simp [isSentinel]

theorem nodup_ids_normalize
    (hNodup : g.ids.Nodup) :
    g.normalize.ids.Nodup := by
  change
    ((g.withSentinel startId).withSentinel endId).ids.Nodup
  have hOne :
      ∀ (g : Graph) (id : String), g.ids.Nodup →
        (g.withSentinel id).ids.Nodup := by
    intro g id hNodup
    rw [ids_withSentinel]
    split
    · exact hNodup
    · rename_i hAbsent
      rw [← List.concat_eq_append]
      exact hNodup.concat hAbsent
  exact hOne _ _ (hOne _ _ hNodup)

/- Normalizing adds no edge. -/
theorem mem_edges_of_normalize
    {edge : Edge}
    (h : edge ∈ g.normalize.edges) :
    edge ∈ g.edges := by
  have hKept := List.mem_of_mem_filter h
  rwa [edges_withSentinel, edges_withSentinel] at hKept

/- No action gives an id to a second node. -/
theorem Effect.nodup_ids
    (hEffect : Effect catalog g h)
    (hNodup : g.ids.Nodup) :
    h.ids.Nodup := by
  cases hEffect with
  | kept ids edges => exact ids ▸ hNodup
  | added id absent ids edges =>
      rw [ids, ← List.concat_eq_append]
      exact hNodup.concat absent
  | removed id ids edges => exact ids ▸ hNodup.erase id
  | wired edge requested accepted nodes edges =>
      unfold Graph.ids
      rw [nodes]
      exact hNodup
  | normalized => exact nodup_ids_normalize hNodup

end Graph

end FractalShader

------------------------------------------------------------
-- Orderly Graphs
------------------------------------------------------------

namespace FractalShader

open Relation

namespace Graph

/-
  Edges join nodes of the graph, and no node with a stage
  feeds itself.  Sentinels may be wired in any way.
-/
structure Orderly (g : Graph) : Prop where
  ends :
    ∀ edge ∈ g.edges,
      edge.source ∈ g.ids ∧ edge.target ∈ g.ids
  acyclic : ∀ id, ¬ TransGen g.Feeds id id

theorem orderly_initial : initial.Orderly where
  ends := by simp [initial]
  acyclic := by
    intro id hCycle
    rcases TransGen.head'_iff.mp hCycle with
      ⟨y, ⟨_, _, edge, hEdge, _⟩, _⟩
    cases hEdge

variable {catalog : Catalog} {g h : Graph}

/- A graph that feeds no more than an orderly one. -/
theorem Orderly.mono
    (hOrderly : g.Orderly)
    (hEnds :
      ∀ edge ∈ h.edges,
        edge.source ∈ h.ids ∧ edge.target ∈ h.ids)
    (hFeeds : ∀ x y, h.Feeds x y → g.Feeds x y) :
    h.Orderly where
  ends := hEnds
  acyclic := by
    intro id hCycle
    exact
      hOrderly.acyclic id (TransGen.mono hFeeds _ _ hCycle)

/-
  Edges of an orderly graph feed no more when more ids join
  them, since their ends were there before.
-/
theorem Orderly.feeds_of_edges
    (hOrderly : g.Orderly)
    (hEdges : ∀ edge ∈ h.edges, edge ∈ g.edges)
    {x y : String}
    (hFeeds : h.Feeds x y) :
    g.Feeds x y := by
  rcases hFeeds with ⟨hx, hy, edge, hEdge, rfl, rfl⟩
  have hOld := hEdges edge hEdge
  have hEnds := hOrderly.ends edge hOld
  exact
    ⟨⟨hx.1, hEnds.1⟩, ⟨hy.1, hEnds.2⟩, edge, hOld, rfl, rfl⟩

/- The search for a cycle covers all nodes with a stage. -/
theorem acyclic_of_wouldCycle
    {edge : Edge}
    (hNodes : h.nodes = g.nodes)
    (hEdges : h.edges = g.edges ++ [edge])
    (hCycle : g.wouldCycle edge.source edge.target = false) :
    ∀ id, ¬ TransGen h.Feeds id id := by
  have hAcyclic :=
    ((Arrow.closesCycle_eq_false_iff _ _ _).mp hCycle).2
  intro id hLoop
  refine hAcyclic id (TransGen.mono ?_ _ _ hLoop)
  intro x y hFeeds
  rcases hFeeds with ⟨hx, hy, found, hFound, rfl, rfl⟩
  have hIds : h.ids = g.ids := by
    unfold ids
    rw [hNodes]
  rw [Real, hIds] at hx hy
  have hArrow :
      found.arrow ∈
        g.arrows ++ [⟨edge.source, edge.target⟩] := by
    rw [hEdges] at hFound
    rcases List.mem_append.mp hFound with hOld | hNew
    · exact
        List.mem_append_left _ (List.mem_map_of_mem hOld)
    · cases List.mem_singleton.mp hNew
      exact List.mem_append_right _ List.mem_cons_self
  change found.arrow ∈ Arrow.within g.ids _
  unfold Arrow.within
  rw [List.mem_filter]
  refine ⟨hArrow, ?_⟩
  simpa [Edge.arrow] using ⟨hx.2, hy.2⟩

/- Every action keeps a graph orderly. -/
theorem Effect.orderly
    (hEffect : Effect catalog g h)
    (hOrderly : g.Orderly) :
    h.Orderly := by
  cases hEffect with
  | kept ids edges =>
      refine hOrderly.mono ?_ ?_
      · intro edge hEdge
        rw [ids]
        exact hOrderly.ends edge (edges.subset hEdge)
      · intro x y
        exact
          hOrderly.feeds_of_edges fun _ hEdge =>
            edges.subset hEdge
  | added id absent ids edges =>
      refine hOrderly.mono ?_ ?_
      · intro edge hEdge
        rw [edges] at hEdge
        have hEnds := hOrderly.ends edge hEdge
        rw [ids]
        exact
          ⟨List.mem_append_left _ hEnds.1,
            List.mem_append_left _ hEnds.2⟩
      · intro x y
        exact
          hOrderly.feeds_of_edges fun _ hEdge =>
            edges ▸ hEdge
  | removed id ids edges =>
      refine hOrderly.mono ?_ ?_
      · intro edge hEdge
        rw [edges, List.mem_filter] at hEdge
        have hEnds := hOrderly.ends edge hEdge.1
        have hNe : edge.source ≠ id ∧ edge.target ≠ id := by
          simpa using hEdge.2
        rw [ids, List.mem_erase_of_ne hNe.1,
          List.mem_erase_of_ne hNe.2]
        exact hEnds
      · intro x y
        apply hOrderly.feeds_of_edges
        intro edge hEdge
        rw [edges] at hEdge
        exact List.mem_of_mem_filter hEdge
  | wired edge requested accepted nodes edges =>
      rcases (acceptedPort_eq_ok_iff g _ _ _ _ _).mp accepted
        with ⟨hSource, _, _, _, hCycle, node, hNode, _⟩
      rcases node?_eq_some hNode with ⟨hMem, hId⟩
      have hIds : h.ids = g.ids := by
        unfold ids
        rw [nodes]
      refine ⟨?_, acyclic_of_wouldCycle nodes edges hCycle⟩
      intro other hOther
      rw [hIds]
      rw [edges] at hOther
      rcases List.mem_append.mp hOther with hOld | hNew
      · exact hOrderly.ends other hOld
      · cases List.mem_singleton.mp hNew
        exact
          ⟨(hasNode_iff g _).mp hSource,
            hId ▸ id_mem_ids hMem⟩
  | normalized =>
      refine hOrderly.mono ?_ ?_
      · intro edge hEdge
        have hEnds :=
          hOrderly.ends edge (mem_edges_of_normalize hEdge)
        simp only [mem_ids_normalize_iff]
        exact ⟨Or.inl hEnds.1, Or.inl hEnds.2⟩
      · intro x y
        exact
          hOrderly.feeds_of_edges fun _ hEdge =>
            mem_edges_of_normalize hEdge

/- Every run keeps a graph orderly. -/
theorem Orderly.runWith
    (hOrderly : g.Orderly)
    (catalog : Catalog)
    (actions : List Action) :
    (g.runWith catalog actions).Orderly :=
  runWith_induction
    (fun g action =>
      (effect_performWith catalog g action).orderly)
    hOrderly actions

end Graph

end FractalShader

------------------------------------------------------------
-- Inputs Fed Once
------------------------------------------------------------

namespace FractalShader

/-
  The input that an edge feeds.  An edge that names no port
  feeds the first one.
-/
def Edge.input (edge : Edge) : Port :=
  edge.port.getD .a

namespace Graph

/- Edges into one input of a node have one source. -/
def FedOnce (g : Graph) : Prop :=
  ∀ edge ∈ g.edges, ∀ other ∈ g.edges,
    isSentinel edge.target = false →
      other.target = edge.target →
        other.input = edge.input →
          other.source = edge.source

theorem fedOnce_initial : initial.FedOnce := by
  intro edge hEdge
  cases hEdge

variable {catalog : Catalog} {g h : Graph}

/- Fewer edges feed no input more often. -/
theorem FedOnce.mono
    (hFed : g.FedOnce)
    (hEdges : ∀ edge ∈ h.edges, edge ∈ g.edges) :
    h.FedOnce :=
  fun edge hEdge other hOther =>
    hFed edge (hEdges edge hEdge) other (hEdges other hOther)

/- A port found free is one that no edge feeds. -/
theorem input_ne_of_freePort
    {node : Node}
    {requested port : Option Port}
    (hReal : isSentinel node.id = false)
    (hFree : g.freePort catalog node requested = .ok port)
    {edge : Edge}
    (hEdge : edge ∈ g.edges)
    (hTarget : edge.target = node.id) :
    edge.input ≠ port.getD .a := by
  have hNotEnd : ¬ node.id = endId := by
    intro hEq
    simp [isSentinel, hEq] at hReal
  have hIn := (mem_incoming_iff g node.id edge).mpr
    ⟨hEdge, hTarget⟩
  unfold freePort at hFree
  rw [if_neg hNotEnd] at hFree
  cases hArity : catalog.arity node.kind with
  | single =>
      rw [hArity] at hFree
      simp [List.ne_nil_of_mem hIn] at hFree
  | dual =>
      rw [hArity] at hFree
      dsimp only at hFree
      split at hFree
      · rename_i free hFound
        cases hFree
        have hNotTaken := List.find?_some hFound
        rw [Bool.not_eq_true', portTaken,
          List.any_eq_false] at hNotTaken
        simpa [Edge.input] using hNotTaken edge hIn
      · cases hFree

/- Every action keeps inputs fed once. -/
theorem Effect.fedOnce
    (hEffect : Effect catalog g h)
    (hFed : g.FedOnce) :
    h.FedOnce := by
  cases hEffect with
  | kept ids edges =>
      exact hFed.mono fun _ hEdge => edges.subset hEdge
  | added id absent ids edges =>
      exact hFed.mono fun _ hEdge => edges ▸ hEdge
  | removed id ids edges =>
      apply hFed.mono
      intro edge hEdge
      rw [edges] at hEdge
      exact List.mem_of_mem_filter hEdge
  | wired new requested accepted nodes edges =>
      rcases (acceptedPort_eq_ok_iff g _ _ _ _ _).mp accepted
        with ⟨_, _, _, _, _, node, hNode, hFree⟩
      have hId := (node?_eq_some hNode).2
      -- An old edge and the new one feed different inputs.
      have hApart :
          ∀ old ∈ g.edges,
            isSentinel new.target = false →
              old.target = new.target →
                old.input ≠ new.input := by
        intro old hOld hReal hTarget
        rw [← hId] at hReal hTarget
        exact input_ne_of_freePort hReal hFree hOld hTarget
      intro edge hEdge other hOther hReal hTarget hInput
      rw [edges, List.mem_append, List.mem_singleton]
        at hEdge hOther
      rcases hEdge with hEdge | rfl
      · rcases hOther with hOther | rfl
        · exact hFed edge hEdge other hOther hReal hTarget
            hInput
        · exact
            absurd hInput.symm
              (hApart edge hEdge (hTarget ▸ hReal)
                hTarget.symm)
      · rcases hOther with hOther | rfl
        · exact
            absurd hInput (hApart other hOther hReal hTarget)
        · rfl
  | normalized =>
      exact hFed.mono fun _ hEdge => mem_edges_of_normalize hEdge

/- Every run keeps inputs fed once. -/
theorem FedOnce.runWith
    (hFed : g.FedOnce)
    (catalog : Catalog)
    (actions : List Action) :
    (g.runWith catalog actions).FedOnce :=
  runWith_induction
    (fun g action =>
      (effect_performWith catalog g action).fedOnce)
    hFed actions

end Graph

end FractalShader

------------------------------------------------------------
-- Stored Values
------------------------------------------------------------

namespace FractalShader

namespace Catalog

/- Initial values and limits of built-in inputs are finite. -/
theorem finite_builtIn
    {id : String}
    {kind : Kind}
    (h : builtIn.find? id = some kind) :
    ∀ input ∈ kind.inputs,
      input.initial.isFinite = true ∧
        ∀ limits ∈ input.limits,
          limits.least.isFinite = true ∧
            limits.greatest.isFinite = true := by
  have hKinds :
      ∀ kind ∈ BuiltIn.kinds, ∀ input ∈ kind.inputs,
        input.initial.isFinite = true ∧
          input.limits.all (fun limits =>
            limits.least.isFinite &&
              limits.greatest.isFinite) = true := by
    decide +kernel
  intro input hInput
  rcases hKinds kind (find?_ofKinds h).1 input hInput with
    ⟨hInitial, hLimits⟩
  refine ⟨hInitial, ?_⟩
  intro limits hMem
  have hEq : input.limits = some limits := hMem
  simpa [hEq] using hLimits

end Catalog

/- A finite value within finite limits is finite. -/
theorem Input.isFinite_confine
    {input : Input}
    {value : F32}
    (hValue : value.isFinite = true)
    (hLimits :
      ∀ limits ∈ input.limits,
        limits.least.isFinite = true ∧
          limits.greatest.isFinite = true) :
    (input.confine value).isFinite = true := by
  unfold Input.confine
  split
  · rename_i limits hSome
    rcases hLimits limits hSome with ⟨hLeast, hGreatest⟩
    unfold Interval.confine
    dsimp only
    split
    · split
      · exact hGreatest
      · exact hLeast
    · split
      · exact hGreatest
      · exact hValue
  · exact hValue

namespace Graph

/- All values stored at nodes are allowed. -/
def AllValues
    (Allowed : F32 → Prop)
    (g : Graph) : Prop :=
  ∀ node ∈ g.nodes, ∀ input value,
    node.params.get? input = some value → Allowed value

/- All values stored at nodes are finite. -/
def FiniteValues (g : Graph) : Prop :=
  ∀ node ∈ g.nodes, ∀ input value,
    node.params.get? input = some value →
      value.isFinite = true

variable {g : Graph}

theorem finiteValues_initial : initial.FiniteValues := by
  intro node hNode input value hValue
  simp only [initial, List.mem_cons, List.not_mem_nil,
    or_false] at hNode
  rcases hNode with rfl | rfl <;> cases hValue

/- The values of a new node are initial values of its kind. -/
theorem isFinite_of_freshNode
    {id kind input : String}
    {value : F32}
    (h : (freshNode id kind).params.get? input = some value) :
    value.isFinite = true := by
  unfold freshNode at h
  dsimp only at h
  split at h
  · rename_i known hKnown
    rw [Kind.initialParams, Dict.get?_ofList,
      Option.map_eq_some_iff] at h
    rcases h with ⟨entry, hEntry, rfl⟩
    have hMem := List.mem_of_find?_eq_some hEntry
    rw [List.mem_reverse, List.mem_map] at hMem
    rcases hMem with ⟨declared, hDeclared, rfl⟩
    exact (Catalog.finite_builtIn hKnown declared hDeclared).1
  · cases h

/- A value that is stored is finite if it was given so. -/
theorem isFinite_of_storable
    {node : Node}
    {input : String}
    {value stored : F32}
    (hValue : value.isFinite = true)
    (h : storable node input value = .ok stored) :
    stored.isFinite = true := by
  unfold storable at h
  split at h
  · cases h
    exact hValue
  · rename_i kind hKind
    split at h
    · rename_i declared hDeclared
      cases h
      have hMem := List.mem_of_find?_eq_some hDeclared
      exact
        Input.isFinite_confine hValue
          (Catalog.finite_builtIn hKind declared hMem).2
    · cases h

variable {Allowed : F32 → Prop}

/- A change of a node that keeps its values allowed. -/
theorem AllValues.modify
    (hValues : g.AllValues Allowed)
    (id : String)
    {change : Node → Node}
    (hChange :
      ∀ n ∈ g.nodes, ∀ input value,
        (change n).params.get? input = some value →
          Allowed value) :
    (g.modify id change).AllValues Allowed := by
  have hOrigin :
      ∀ nodes : List Node,
        ∀ node ∈ modifyFirst id change nodes,
          node ∈ nodes ∨ ∃ n ∈ nodes, node = change n := by
    intro nodes
    induction nodes with
    | nil => simp [modifyFirst]
    | cons head nodes ih =>
        intro node hNode
        rw [modifyFirst] at hNode
        split at hNode
        · rcases List.mem_cons.mp hNode with rfl | hRest
          · exact Or.inr ⟨head, List.mem_cons_self, rfl⟩
          · exact Or.inl (List.mem_cons_of_mem _ hRest)
        · rcases List.mem_cons.mp hNode with rfl | hRest
          · exact Or.inl List.mem_cons_self
          · rcases ih node hRest with hOld | ⟨n, hn, hEq⟩
            · exact Or.inl (List.mem_cons_of_mem _ hOld)
            · exact
                Or.inr ⟨n, List.mem_cons_of_mem _ hn, hEq⟩
  intro node hNode
  rcases hOrigin g.nodes node hNode with hOld | ⟨n, hn, rfl⟩
  · exact hValues node hOld
  · exact hChange n hn

theorem AllValues.adjust
    (hValues : g.AllValues Allowed)
    (id : String)
    {change : Node → Node}
    (hParams : ∀ n, (change n).params = n.params) :
    (g.adjust id change).2.AllValues Allowed := by
  unfold Graph.adjust
  split
  · exact hValues
  · apply hValues.modify
    intro n hn
    rw [hParams]
    exact hValues n hn

theorem AllValues.withSentinel
    (hValues : g.AllValues Allowed)
    (id : String) :
    (g.withSentinel id).AllValues Allowed := by
  unfold Graph.withSentinel
  split
  · exact hValues
  · intro node hNode input value hValue
    rcases List.mem_append.mp hNode with hOld | hNew
    · exact hValues node hOld input value hValue
    · cases List.mem_singleton.mp hNew
      cases hValue

/- A value is set only when it is finite. -/
theorem AllValues.setParam
    (hValues : g.AllValues Allowed)
    (hFinite : ∀ value, value.isFinite = true → Allowed value)
    (id input : String)
    (value : F32) :
    (g.setParam id input value).2.AllValues Allowed := by
  unfold Graph.setParam
  split
  · exact hValues
  · rename_i hGiven
    split
    · exact hValues
    · split
      · exact hValues
      · rename_i stored hStored
        have hStoredFinite :=
          isFinite_of_storable (by simpa using hGiven) hStored
        apply hValues.modify
        intro n hn other found hFound
        rw [Dict.get?_insert] at hFound
        split at hFound
        · cases hFound
          exact hFinite _ hStoredFinite
        · exact hValues n hn other found hFound

/-
  Every action keeps stored values allowed, as long as all
  finite values are.
-/
theorem AllValues.performWith
    (hValues : g.AllValues Allowed)
    (hFinite : ∀ value, value.isFinite = true → Allowed value)
    (catalog : Catalog)
    (action : Action) :
    (g.performWith catalog action).AllValues Allowed := by
  cases action with
  | addNode id kind =>
      simp only [Graph.performWith, perform, addNode]
      split
      · exact hValues
      · split
        · exact hValues
        · intro node hNode input value hValue
          rcases List.mem_append.mp hNode with hOld | hNew
          · exact hValues node hOld input value hValue
          · cases List.mem_singleton.mp hNew
            exact hFinite _ (isFinite_of_freshNode hValue)
  | removeNode id =>
      simp only [Graph.performWith, perform, removeNode]
      split
      · exact hValues
      · split
        · exact hValues
        · intro node hNode
          exact hValues node (List.mem_of_mem_eraseP hNode)
  | connect id source target port =>
      simp only [Graph.performWith, Graph.connect]
      split <;> exact hValues
  | disconnect id =>
      simp only [Graph.performWith, perform, Graph.disconnect]
      split <;> exact hValues
  | setParam id input value =>
      exact hValues.setParam hFinite id input value
  | toggleBinding id input =>
      simp only [Graph.performWith, perform, toggleBinding]
      split
      · exact hValues
      · exact hValues.modify id hValues
  | setBinding id input slot =>
      exact hValues.adjust id fun _ => rfl
  | setGuard id guard =>
      simp only [Graph.performWith, perform, setGuard]
      split
      · exact hValues
      · exact hValues.adjust id fun _ => rfl
  | setEnabled id enabled =>
      exact hValues.adjust id fun _ => rfl
  | setPosition id position =>
      simp only [Graph.performWith, perform, setPosition]
      split
      · exact hValues.modify id hValues
      · exact hValues
  | normalize =>
      exact (hValues.withSentinel startId).withSentinel endId

/- Every run keeps stored values allowed. -/
theorem AllValues.runWith
    (hValues : g.AllValues Allowed)
    (hFinite : ∀ value, value.isFinite = true → Allowed value)
    (catalog : Catalog)
    (actions : List Action) :
    (g.runWith catalog actions).AllValues Allowed :=
  runWith_induction
    (fun _ action hKept =>
      hKept.performWith hFinite catalog action)
    hValues actions

theorem FiniteValues.runWith
    (hFinite : g.FiniteValues)
    (catalog : Catalog)
    (actions : List Action) :
    (g.runWith catalog actions).FiniteValues :=
  AllValues.runWith hFinite (fun _ h => h) catalog actions

end Graph

end FractalShader
