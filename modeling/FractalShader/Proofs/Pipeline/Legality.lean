import FractalShader.Proofs.Session.Cycles
import FractalShader.Proofs.Shader.Wiring

/-
  How far the graph that is rebuilt from the pipeline of a
  legal graph is legal.

  It has all that legality asks for, except that two of its
  edges may join the same nodes, and two may have the same
  id.  The first happens to a stage that only its second
  input is wired to, from the stage before.  The second does
  not happen to node ids without an arrow in them.

  Main declarations:
    * `Graph.Shaped`
    * `Graph.Lopsided`
    * `Pipeline.PlainIds`
    * `Graph.Legal.shaped_toGraph`
    * `Graph.Legal.nodup_arrows_toGraph_iff`
    * `Pipeline.nodup_edgeIds_toGraph`
    * `Pipeline.rebuilds_legal`
-/

------------------------------------------------------------
-- Edges of a Rebuilt Graph
------------------------------------------------------------

namespace FractalShader

namespace Pipeline

variable {catalog : Catalog} {previous : String}
variable {p : Pipeline} {edge : Edge}

/- Edges into a stage name their ends and their port. -/
theorem chain_of_mem_edges
    {stage : Stage}
    (h : edge ∈ stage.edges catalog previous) :
    edge = .chain edge.source stage.id edge.port := by
  unfold Stage.edges at h
  cases hb : stage.sources.b with
  | none =>
      simp only [hb, List.mem_singleton] at h
      rw [h]
      rfl
  | some source =>
      simp only [hb, List.mem_cons, List.not_mem_nil,
        or_false] at h
      rcases h with rfl | rfl <;> rfl

/-
  An edge names its ends and its port.  It leads to a stage,
  or to the last sentinel without a port.
-/
theorem chain_of_mem_edgesFrom
    (h : edge ∈ edgesFrom catalog previous p) :
    edge = .chain edge.source edge.target edge.port ∧
      (edge.target ∈ p.ids ∨
        edge.target = endId ∧ edge.port = none) := by
  rcases (mem_edgesFrom_iff catalog previous p edge).mp h with
    ⟨before, stage, after, rfl, hEdge⟩ | rfl
  · have hTarget := (ends_of_mem_edges hEdge).1
    refine ⟨?_, Or.inl ?_⟩
    · rw [hTarget]
      exact chain_of_mem_edges hEdge
    · rw [hTarget]
      simp
  · exact ⟨rfl, Or.inr ⟨rfl, rfl⟩⟩

/- No edge leads to an id that is not in the pipeline. -/
theorem target_ne_of_mem_edgesFrom
    (h : edge ∈ edgesFrom catalog previous p)
    {id : String}
    (hAbsent : id ∉ p.ids)
    (hReal : isSentinel id = false) :
    edge.target ≠ id := by
  rintro rfl
  rcases (chain_of_mem_edgesFrom h).2 with hMem | ⟨hEnd, _⟩
  · exact hAbsent hMem
  · rw [hEnd] at hReal
    cases hReal

/-
  What tells edges of different targets apart tells all
  edges apart when it does so for those into each stage.
-/
theorem nodup_map_edgesFrom_iff
    {β : Type}
    (f : Edge → β)
    (hNodup : p.ids.Nodup)
    (hReal : ∀ id ∈ p.ids, isSentinel id = false)
    (hApart :
      ∀ first ∈ edgesFrom catalog previous p,
        ∀ second ∈ edgesFrom catalog previous p,
          f first = f second → first.target = second.target) :
    ((edgesFrom catalog previous p).map f).Nodup ↔
      ∀ before stage after, p = before ++ stage :: after →
        ((stage.edges catalog (latest previous before)).map
          f).Nodup := by
  induction p generalizing previous with
  | nil => simp [edgesFrom]
  | cons stage p ih =>
      rw [ids_cons, List.nodup_cons] at hNodup
      have hStage := hReal stage.id List.mem_cons_self
      have hRest :=
        ih hNodup.2
          (fun id hId => hReal id (List.mem_cons_of_mem _ hId))
          fun first hFirst second hSecond =>
            hApart first (List.mem_append_right _ hFirst)
              second (List.mem_append_right _ hSecond)
      -- An edge of a later stage has another target.
      have hCross :
          ∀ x ∈ (stage.edges catalog previous).map f,
            ∀ y ∈ (edgesFrom catalog stage.id p).map f,
              x ≠ y := by
        intro x hx y hy hEq
        rcases List.mem_map.mp hx with ⟨first, hFirst, rfl⟩
        rcases List.mem_map.mp hy with ⟨second, hSecond, rfl⟩
        have hTarget :=
          hApart first (List.mem_append_left _ hFirst) second
            (List.mem_append_right _ hSecond) hEq
        rw [(ends_of_mem_edges hFirst).1] at hTarget
        exact
          target_ne_of_mem_edgesFrom hSecond hNodup.1 hStage
            hTarget.symm
      rw [edgesFrom, List.map_append, List.nodup_append, hRest]
      constructor
      · rintro ⟨hFirst, hLater, _⟩ before other after hSplit
        cases before with
        | nil =>
            cases hSplit
            exact hFirst
        | cons second before =>
            injection hSplit with hSame hSplit
            subst hSame
            exact hLater before other after hSplit
      · intro hAll
        refine ⟨hAll [] stage p rfl, ?_, hCross⟩
        rintro before other after rfl
        exact hAll (stage :: before) other after rfl

/- The edges into a stage are those it was given. -/
theorem incoming_edgesFrom
    (catalog : Catalog)
    {before after : Pipeline}
    {stage : Stage}
    (hNodup : (ids (before ++ stage :: after)).Nodup)
    (hReal : isSentinel stage.id = false) :
    (edgesFrom catalog previous
        (before ++ stage :: after)).filter
        (fun edge => edge.target == stage.id) =
      stage.edges catalog (latest previous before) := by
  have hNone :
      ∀ edges : List Edge,
        (∀ edge ∈ edges, edge.target ≠ stage.id) →
          edges.filter (fun edge => edge.target == stage.id) =
            [] := by
    intro edges hOthers
    simpa [List.filter_eq_nil_iff] using hOthers
  induction before generalizing previous with
  | nil =>
      rw [List.nil_append, ids_cons, List.nodup_cons] at hNodup
      have hAfter :=
        hNone (edgesFrom catalog stage.id after)
          fun edge hEdge =>
            target_ne_of_mem_edgesFrom hEdge hNodup.1 hReal
      have hOwn :
          (stage.edges catalog previous).filter
              (fun edge => edge.target == stage.id) =
            stage.edges catalog previous := by
        apply List.filter_eq_self.mpr
        intro edge hEdge
        exact beq_iff_eq.mpr (ends_of_mem_edges hEdge).1
      rw [List.nil_append, edgesFrom, List.filter_append,
        hOwn, hAfter, List.append_nil, latest]
  | cons first before ih =>
      rw [List.cons_append, ids_cons, List.nodup_cons]
        at hNodup
      have hFirst :=
        hNone (first.edges catalog previous) (by
          intro edge hEdge hEq
          rw [(ends_of_mem_edges hEdge).1] at hEq
          apply hNodup.1
          simp [hEq])
      rw [List.cons_append, edgesFrom, List.filter_append,
        hFirst, List.nil_append, latest]
      exact ih hNodup.2

end Pipeline

end FractalShader

------------------------------------------------------------
-- Nodes of a Rebuilt Graph
------------------------------------------------------------

namespace FractalShader

/- The ports that the edges into a stage take. -/
theorem Stage.ports_edges
    (catalog : Catalog)
    (previous : String)
    (stage : Stage) :
    (stage.edges catalog previous).map Edge.port =
      match stage.sources.b with
      | none =>
          [if catalog.arity stage.kind = .dual then
            some .a
          else
            none]
      | some _ => [some .a, some .b] := by
  unfold Stage.edges
  cases stage.sources.b <;> simp [Edge.chain]

/- The nodes that the edges into a stage join. -/
theorem Stage.arrows_edges
    (catalog : Catalog)
    (previous : String)
    (stage : Stage) :
    (stage.edges catalog previous).map Edge.arrow =
      ⟨stage.sources.a.getD previous, stage.id⟩ ::
        stage.sources.b.toList.map (⟨·, stage.id⟩) := by
  unfold Stage.edges
  cases stage.sources.b <;> rfl

namespace Pipeline

/- Every node after the sentinels is that of a stage. -/
theorem exists_stage_of_node
    {row : Nat}
    {p : Pipeline}
    {node : Node}
    (h : node ∈ nodesFrom row p) :
    ∃ stage ∈ p, node.toOperation = stage.toOperation := by
  induction p generalizing row with
  | nil => cases h
  | cons stage p ih =>
      rcases List.mem_cons.mp h with rfl | hLater
      · exact ⟨stage, List.mem_cons_self, rfl⟩
      · rcases ih hLater with ⟨other, hOther, hSame⟩
        exact ⟨other, List.mem_cons_of_mem _ hOther, hSame⟩

/- A node is a sentinel without a guard or that of a stage. -/
theorem mem_nodes_toGraph
    {catalog : Catalog}
    {p : Pipeline}
    {node : Node}
    (h : node ∈ (p.toGraph catalog).nodes) :
    (isSentinel node.id = true ∧ node.guard = none) ∨
      ∃ stage ∈ p, node.toOperation = stage.toOperation := by
  rcases List.mem_cons.mp h with rfl | h
  · exact Or.inl ⟨rfl, rfl⟩
  · rcases List.mem_cons.mp h with rfl | h
    · exact Or.inl ⟨rfl, rfl⟩
    · exact Or.inr (exists_stage_of_node h)

/- The nodes of the rebuilt graph have distinct ids. -/
theorem Tidy.nodup_ids_toGraph
    {p : Pipeline}
    (h : p.Tidy)
    (catalog : Catalog) :
    (p.toGraph catalog).ids.Nodup := by
  have hNot : ∀ id, isSentinel id = true → id ∉ p.ids := by
    intro id hIs hMem
    rw [h.real id hMem] at hIs
    cases hIs
  have hApart : startId ≠ endId := by decide
  rw [ids_toGraph]
  simp [h.nodup, hNot startId (by decide),
    hNot endId (by decide), hApart]

/- Its edges have their ends and close no cycle of stages. -/
theorem Tidy.orderly_toGraph
    {p : Pipeline}
    (h : p.Tidy)
    (catalog : Catalog) :
    (p.toGraph catalog).Orderly := by
  rcases h.exists_ofGraph catalog with ⟨_, hAgain⟩
  have hNormal := h.normalize_toGraph catalog
  rw [← hNormal] at hAgain
  exact hNormal ▸ Graph.orderly_normalize hAgain

/-
  A node that is no sentinel is that of a stage, and its
  ports are those that the edges into the stage take.
-/
theorem Tidy.exists_split_of_node
    {p : Pipeline}
    (h : p.Tidy)
    {catalog : Catalog}
    {node : Node}
    (hNode : node ∈ (p.toGraph catalog).nodes)
    (hReal : isSentinel node.id = false) :
    ∃ before stage after, p = before ++ stage :: after ∧
      node.kind = stage.kind ∧
        (p.toGraph catalog).ports node.id =
          (stage.edges catalog (latest startId before)).map
            Edge.port := by
  rcases mem_nodes_toGraph hNode with
    ⟨hSentinel, _⟩ | ⟨stage, hStage, hSame⟩
  · rw [hReal] at hSentinel
    cases hSentinel
  · rcases List.append_of_mem hStage with
      ⟨before, after, hSplit⟩
    have hId : node.id = stage.id :=
      congrArg Operation.id hSame
    refine
      ⟨before, stage, after, hSplit,
        congrArg Operation.kind hSame, ?_⟩
    rw [hId] at hReal ⊢
    have hNodup := h.nodup
    subst hSplit
    exact
      congrArg (List.map Edge.port)
        (incoming_edgesFrom catalog hNodup hReal)

end Pipeline

end FractalShader

------------------------------------------------------------
-- Stages of a Legal Graph
------------------------------------------------------------

namespace FractalShader

open Pipeline

namespace Graph

variable {g : Graph} {p : Pipeline}

/- A stage is that of a node with a stage. -/
theorem exists_node_of_mem
    (hPipeline : ofGraph g = .ok p)
    {stage : Stage}
    (hStage : stage ∈ p) :
    ∃ node ∈ g.nodes,
      isSentinel node.id = false ∧
        stage.toOperation = node.toOperation := by
  rw [(ofGraph_eq_ok hPipeline).2] at hStage
  rcases operation_of_stages hStage with ⟨node, hNode, hSame⟩
  rcases List.mem_filter.mp (operations_get? hNode).1 with
    ⟨hMem, hReal⟩
  exact ⟨node, hMem, by simpa using hReal, hSame⟩

/- The sources of a stage are those of its inputs. -/
theorem Legal.sources_of_split
    (h : g.Legal)
    (hPipeline : ofGraph g = .ok p)
    {before after : Pipeline}
    {stage : Stage}
    (hSplit : p = before ++ stage :: after) :
    stage.sources =
      { a :=
          (g.first? stage.id).filter
            (· != Pipeline.latest startId before)
        b := g.second? stage.id } := by
  have hReal :=
    ((orders_of_ofGraph hPipeline).mem_iff stage.id).mp
      (by simp [hSplit])
  subst hSplit
  rw [sources_of_ofGraph hPipeline, h.sources_eq hReal]

/- A stage with one input records no second source. -/
theorem Legal.second_eq_none
    (h : g.Legal)
    (hPipeline : ofGraph g = .ok p)
    {before after : Pipeline}
    {stage : Stage}
    (hSplit : p = before ++ stage :: after)
    (hArity : Catalog.builtIn.arity stage.kind = .single) :
    stage.sources.b = none := by
  have hStage : stage ∈ p := by simp [hSplit]
  rcases exists_node_of_mem hPipeline hStage with
    ⟨node, hNode, hReal, hSame⟩
  have hId : stage.id = node.id := congrArg Operation.id hSame
  have hKind : stage.kind = node.kind :=
    congrArg Operation.kind hSame
  rw [h.sources_of_split hPipeline hSplit, hId]
  exact h.second?_eq_none hNode hReal (hKind ▸ hArity)

end Graph

end FractalShader

------------------------------------------------------------
-- What Is Always Rebuilt
------------------------------------------------------------

namespace FractalShader

open Pipeline

namespace Graph

/-
  All that makes a graph legal, except that edges have
  distinct ids and no two of them join the same nodes.
  Besides, edges into the end name no port.
-/
structure Shaped (g : Graph) : Prop where
  nodeIds : g.ids.Nodup
  start :
    ∃ position,
      (Node.sentinel startId).placed position ∈ g.nodes
  final :
    ∃ position,
      (Node.sentinel endId).placed position ∈ g.nodes
  ends :
    ∀ edge ∈ g.edges,
      edge.source ∈ g.ids ∧ edge.target ∈ g.ids
  directed :
    ∀ edge ∈ g.edges,
      edge.source ≠ endId ∧ edge.target ≠ startId
  finalPort :
    ∀ edge ∈ g.edges, edge.target = endId → edge.port = none
  acyclic : Arrow.Acyclic g.arrows
  single :
    ∀ node ∈ g.nodes,
      isSentinel node.id = false →
        Catalog.builtIn.arity node.kind = .single →
          (g.ports node.id).length ≤ 1 ∧
            ∀ port ∈ g.ports node.id, port = none
  dual :
    ∀ node ∈ g.nodes,
      isSentinel node.id = false →
        Catalog.builtIn.arity node.kind = .dual →
          none ∉ g.ports node.id ∧
            ∀ port, (g.ports node.id).count (some port) ≤ 1
  guards :
    ∀ node ∈ g.nodes,
      ∀ guard ∈ node.guard, guard.remainder < guard.modulus

/- What a graph of this shape lacks to be legal. -/
theorem Shaped.legal_iff
    {g : Graph}
    (h : g.Shaped) :
    g.Legal ↔
      g.arrows.Nodup ∧ (g.edges.map Edge.id).Nodup := by
  constructor
  · intro hLegal
    exact ⟨hLegal.arrows, hLegal.edgeIds⟩
  · rintro ⟨hArrows, hIds⟩
    exact
      { nodeIds := h.nodeIds
        start := h.start
        final := h.final
        edgeIds := hIds
        ends := h.ends
        directed := h.directed
        arrows := hArrows
        acyclic := h.acyclic
        single := h.single
        dual := h.dual
        guards := h.guards }

variable {g : Graph} {p : Pipeline}

/- The graph rebuilt from that of a legal graph has it. -/
theorem Legal.shaped_toGraph
    (h : g.Legal)
    (hPipeline : ofGraph g = .ok p) :
    (p.toGraph .builtIn).Shaped := by
  have hTidy := tidy_of_ofGraph hPipeline
  have hDirected := hTidy.directed_toGraph .builtIn
  have hOrderly := hTidy.orderly_toGraph .builtIn
  refine
    { nodeIds := hTidy.nodup_ids_toGraph .builtIn
      start := ⟨some (.row 0), List.mem_cons_self⟩
      final :=
        ⟨some (.row (p.length + 1)),
          List.mem_cons_of_mem _ List.mem_cons_self⟩
      ends := hOrderly.ends
      directed := hDirected
      finalPort := ?_
      acyclic :=
        (acyclic_iff hOrderly.ends).mpr
          ⟨hOrderly.acyclic, hDirected.not_knotted⟩
      single := ?_
      dual := ?_
      guards := ?_ }
  · intro edge hEdge hTarget
    rcases (chain_of_mem_edgesFrom hEdge).2 with
      hStage | ⟨_, hPort⟩
    · have hReal := hTidy.real edge.target hStage
      rw [hTarget] at hReal
      cases hReal
    · exact hPort
  · intro node hNode hReal hArity
    rcases hTidy.exists_split_of_node hNode hReal with
      ⟨before, stage, after, hSplit, hKind, hPorts⟩
    rw [hKind] at hArity
    rw [hPorts, Stage.ports_edges,
      h.second_eq_none hPipeline hSplit hArity]
    simp [hArity]
  · intro node hNode hReal hArity
    rcases hTidy.exists_split_of_node hNode hReal with
      ⟨before, stage, after, hSplit, hKind, hPorts⟩
    rw [hKind] at hArity
    rw [hPorts, Stage.ports_edges]
    cases stage.sources.b with
    | none =>
        rw [if_pos hArity]
        refine ⟨by simp, fun port => ?_⟩
        exact List.count_le_length
    | some source =>
        refine ⟨by simp, fun port => ?_⟩
        cases port <;> simp
  · intro node hNode guard hGuard
    rcases mem_nodes_toGraph hNode with
      ⟨_, hNone⟩ | ⟨stage, hStage, hSame⟩
    · rw [hNone] at hGuard
      cases hGuard
    · rcases exists_node_of_mem hPipeline hStage with
        ⟨old, hOld, _, hOldSame⟩
      have hGuards : node.guard = old.guard :=
        congrArg Operation.guard (hSame.trans hOldSame)
      exact h.guards old hOld guard (hGuards ▸ hGuard)

end Graph

end FractalShader

------------------------------------------------------------
-- Edges That Join the Same Nodes
------------------------------------------------------------

namespace FractalShader

open Pipeline

/- When the edges into a stage come from different nodes. -/
theorem Stage.nodup_arrows_iff
    (catalog : Catalog)
    (previous : String)
    (stage : Stage) :
    ((stage.edges catalog previous).map Edge.arrow).Nodup ↔
      stage.sources.b ≠
        some (stage.sources.a.getD previous) := by
  rw [Stage.arrows_edges]
  cases stage.sources.b <;> simp [eq_comm]

namespace Graph

/-
  Only the second input of a stage is wired, and it is wired
  to the stage before, or to the start if there is none.
-/
def Lopsided
    (g : Graph)
    (p : Pipeline) : Prop :=
  ∃ before stage after, p = before ++ stage :: after ∧
    g.first? stage.id = none ∧
      g.second? stage.id =
        some (Pipeline.latest startId before)

variable {g : Graph} {p : Pipeline}

/- The inputs of a node are fed by different nodes. -/
theorem Legal.second?_ne_first?
    (h : g.Legal)
    {id source : String}
    (hReal : g.Real id)
    (hFirst : g.first? id = some source) :
    g.second? id ≠ some source := by
  intro hSecond
  rcases (h.first?_eq_some_iff hReal source).mp hFirst with
    ⟨edge, hEdge, hPort, hSource⟩
  rcases (h.second?_eq_some_iff hReal source).mp hSecond with
    ⟨other, hOther, hOtherPort, hOtherSource⟩
  rw [mem_incoming_iff] at hEdge hOther
  have hArrow : edge.arrow = other.arrow := by
    simp [Edge.arrow, hSource, hOtherSource, hEdge.2, hOther.2]
  rw [List.inj_on_of_nodup_map h.arrows hEdge.1 hOther.1
    hArrow, hOtherPort] at hPort
  rcases hPort with hPort | hPort <;> cases hPort

/- What is left of a first source is what it stands for. -/
theorem getD_filter_ne
    (source : Option String)
    (expected : String) :
    (source.filter (· != expected)).getD expected =
      source.getD expected := by
  cases source with
  | none => rfl
  | some source =>
      by_cases hEq : source = expected <;>
        simp [Option.filter_some, hEq]

/- Two rebuilt edges join the same nodes at such a stage. -/
theorem Legal.nodup_arrows_toGraph_iff
    (h : g.Legal)
    (hPipeline : ofGraph g = .ok p)
    (catalog : Catalog) :
    (p.toGraph catalog).arrows.Nodup ↔ ¬ g.Lopsided p := by
  have hTidy := tidy_of_ofGraph hPipeline
  have hStage :
      ∀ before stage after, p = before ++ stage :: after →
        (((stage.edges catalog
              (Pipeline.latest startId before)).map
            Edge.arrow).Nodup ↔
          ¬ (g.first? stage.id = none ∧
            g.second? stage.id =
              some (Pipeline.latest startId before))) := by
    intro before stage after hSplit
    have hReal :=
      ((orders_of_ofGraph hPipeline).mem_iff stage.id).mp
        (by simp [hSplit])
    rw [Stage.nodup_arrows_iff,
      h.sources_of_split hPipeline hSplit, getD_filter_ne]
    apply not_congr
    cases hFirst : g.first? stage.id with
    | none => simp
    | some source =>
        simp [h.second?_ne_first? hReal hFirst]
  have hEdges :
      (p.toGraph catalog).arrows.Nodup ↔ _ :=
    nodup_map_edgesFrom_iff Edge.arrow hTidy.nodup hTidy.real
      fun first _ second _ hArrows =>
        congrArg Arrow.target hArrows
  rw [hEdges]
  constructor
  · rintro hAll ⟨before, stage, after, hSplit, hInputs⟩
    exact
      (hStage before stage after hSplit).mp
        (hAll before stage after hSplit) hInputs
  · intro hNot before stage after hSplit
    rw [hStage before stage after hSplit]
    intro hInputs
    exact hNot ⟨before, stage, after, hSplit, hInputs⟩

end Graph

end FractalShader

------------------------------------------------------------
-- Ids of Rebuilt Edges
------------------------------------------------------------

namespace FractalShader

/- The text has an arrow in it. -/
def Arrowed (text : String) : Prop :=
  "->".toList <:+: text.toList

/- No characters stand between two first arrows of a text. -/
theorem eq_nil_of_append_arrow
    {left more right rest : List Char}
    (hPlain : ¬ "->".toList <:+: left ++ more)
    (h : "->".toList ++ right = more ++ ("->".toList ++ rest)) :
    more = [] := by
  match more, hPlain, h with
  | [], _, _ => rfl
  | [_], _, h => simp at h
  | _ :: _ :: more, hPlain, h =>
      simp only [String.reduceToList, List.cons_append,
        List.cons.injEq] at h
      rcases h with ⟨rfl, rfl, _⟩
      exact absurd ⟨left, more, by simp⟩ hPlain

/- Texts without an arrow end before the first arrow. -/
theorem eq_of_append_arrow
    {first second : String}
    (hFirst : ¬ Arrowed first)
    (hSecond : ¬ Arrowed second)
    {x y : String}
    (h : first ++ "->" ++ x = second ++ "->" ++ y) :
    first = second ∧ x = y := by
  have hChars := congrArg String.toList h
  simp only [String.toList_append, List.append_assoc] at hChars
  have hSame : first.toList = second.toList := by
    rcases List.append_eq_append_iff.mp hChars with
      ⟨more, hMore, hRest⟩ | ⟨more, hMore, hRest⟩
    · rw [Arrowed, hMore] at hSecond
      rw [hMore, eq_nil_of_append_arrow hSecond hRest,
        List.append_nil]
    · rw [Arrowed, hMore] at hFirst
      rw [hMore, eq_nil_of_append_arrow hFirst hRest,
        List.append_nil]
  rw [hSame] at hChars
  refine ⟨String.toList_inj.mp hSame, ?_⟩
  simpa [String.toList_inj] using hChars

namespace Pipeline

/-
  Ids have no arrow in them, and none is another one with
  the suffix of a second port.
-/
def PlainIds (p : Pipeline) : Prop :=
  ∀ id ∈ p.ids, ¬ Arrowed id ∧ id ++ ":b" ∉ p.ids

variable {catalog : Catalog} {previous : String}
variable {p : Pipeline} {edge : Edge}

/- The sources of rebuilt edges have no arrow in them. -/
theorem Tidy.source_plain
    (h : p.Tidy)
    (hPlain : p.PlainIds)
    (hEdge : edge ∈ (p.toGraph catalog).edges) :
    ¬ Arrowed edge.source := by
  have hPlace :
      ∀ q : Pipeline, (∀ id ∈ q.ids, id ∈ p.ids) →
        ∀ source, source = startId ∨ source ∈ q.ids →
          ¬ Arrowed source := by
    rintro q hIds source (rfl | hMem)
    · unfold Arrowed
      decide
    · exact (hPlain source (hIds source hMem)).1
  rcases (mem_edgesFrom_iff catalog startId p edge).mp hEdge
    with ⟨before, stage, after, hSplit, hMem⟩ | rfl
  · exact
      hPlace before (by simp +contextual [hSplit]) _
        (h.source_of_mem_edges hSplit hMem)
  · exact
      hPlace p (fun _ hId => hId) _
        (latest_eq_or_mem startId p)

/- A rebuilt id is the source, an arrow and the rest. -/
theorem id_of_mem_edgesFrom
    (h : edge ∈ edgesFrom catalog previous p) :
    edge.id =
      edge.source ++ "->" ++
        (edge.target ++
          if edge.port = some .b then ":b" else "") := by
  have hId := congrArg Edge.id (chain_of_mem_edgesFrom h).1
  rw [hId]
  exact String.append_assoc

/- Another target does not make up for a suffix. -/
theorem suffixed_ne_target
    (hPlain : p.PlainIds)
    {first second : Edge}
    (hFirst : first ∈ edgesFrom catalog previous p)
    (hSecond : second ∈ edgesFrom catalog previous p)
    (hPort : first.port = some .b) :
    first.target ++ ":b" ≠ second.target := by
  intro hSame
  rcases (chain_of_mem_edgesFrom hFirst).2 with
    hMem | ⟨_, hNone⟩
  · rcases (chain_of_mem_edgesFrom hSecond).2 with
      hOther | ⟨hEnd, _⟩
    · exact (hPlain _ hMem).2 (hSame ▸ hOther)
    · -- They end in different characters.
      have hLast :=
        congrArg (fun text => text.toList.getLast?)
          (hSame.trans hEnd)
      simp [endId] at hLast
  · rw [hPort] at hNone
    cases hNone

/- Edges of the same id take the same port of one stage. -/
theorem Tidy.same_of_id_eq
    (h : p.Tidy)
    (hPlain : p.PlainIds)
    {first second : Edge}
    (hFirst : first ∈ (p.toGraph catalog).edges)
    (hSecond : second ∈ (p.toGraph catalog).edges)
    (hId : first.id = second.id) :
    first.target = second.target ∧
      (first.port = some .b ↔ second.port = some .b) := by
  rw [id_of_mem_edgesFrom hFirst,
    id_of_mem_edgesFrom hSecond] at hId
  have hRest :=
    (eq_of_append_arrow (h.source_plain hPlain hFirst)
      (h.source_plain hPlain hSecond) hId).2
  by_cases hPort : first.port = some .b <;>
    by_cases hOther : second.port = some .b
  · rw [if_pos hPort, if_pos hOther] at hRest
    exact
      ⟨(String.append_left_inj _).mp hRest,
        iff_of_true hPort hOther⟩
  · rw [if_pos hPort, if_neg hOther, String.append_empty]
      at hRest
    exact
      absurd hRest
        (suffixed_ne_target hPlain hFirst hSecond hPort)
  · rw [if_neg hPort, if_pos hOther, String.append_empty]
      at hRest
    exact
      absurd hRest.symm
        (suffixed_ne_target hPlain hSecond hFirst hOther)
  · rw [if_neg hPort, if_neg hOther] at hRest
    exact
      ⟨(String.append_left_inj _).mp hRest,
        iff_of_false hPort hOther⟩

/- Edges rebuilt for plain ids have distinct ids. -/
theorem Tidy.nodup_edgeIds_toGraph
    (h : p.Tidy)
    (hPlain : p.PlainIds)
    (catalog : Catalog) :
    ((p.toGraph catalog).edges.map Edge.id).Nodup := by
  refine
    (nodup_map_edgesFrom_iff Edge.id h.nodup h.real
      fun first hFirst second hSecond hId =>
        (h.same_of_id_eq hPlain hFirst hSecond hId).1).mpr ?_
  intro before stage after hSplit
  have hMem :
      ∀ edge ∈
          stage.edges catalog (latest startId before),
        edge ∈ (p.toGraph catalog).edges :=
    fun edge hEdge =>
      (mem_edgesFrom_iff catalog startId p edge).mpr
        (Or.inl ⟨before, stage, after, hSplit, hEdge⟩)
  unfold Stage.edges at hMem ⊢
  cases hb : stage.sources.b with
  | none => simp
  | some source =>
      rw [List.map_cons, List.map_cons, List.map_nil,
        List.nodup_cons, List.mem_singleton]
      refine ⟨fun hId => ?_, List.nodup_singleton _⟩
      rw [hb] at hMem
      -- Only the second of the two takes the second port.
      have hPorts :=
        (h.same_of_id_eq hPlain (hMem _ List.mem_cons_self)
          (hMem _ (List.mem_cons_of_mem _ List.mem_cons_self))
          hId).2
      simp [Edge.chain] at hPorts

end Pipeline

end FractalShader

------------------------------------------------------------
-- Legality of a Rebuilt Graph
------------------------------------------------------------

namespace FractalShader

namespace Pipeline

/-
  A graph that actions lead to has a pipeline.  What is
  rebuilt from it has the shape of a legal graph, joins each
  two nodes at most once unless the graph is lopsided, and
  has distinct edge ids when the ids of its nodes are plain.
  Nothing else can keep it from being legal.
-/
theorem rebuilds_legal
    {g : Graph}
    (h : g.Reachable) :
    ∃ p,
      ofGraph g = .ok p ∧
        (p.toGraph .builtIn).Shaped ∧
        ((p.toGraph .builtIn).arrows.Nodup ↔
          ¬ g.Lopsided p) ∧
        (p.PlainIds →
          ((p.toGraph .builtIn).edges.map Edge.id).Nodup) ∧
        ((p.toGraph .builtIn).Legal ↔
          ¬ g.Lopsided p ∧
            ((p.toGraph .builtIn).edges.map Edge.id).Nodup) := by
  have hLegal := h.legal
  rcases (exists_ofGraph_iff g).mpr hLegal.not_feeds_self with
    ⟨p, hPipeline⟩
  have hShaped := hLegal.shaped_toGraph hPipeline
  have hArrows :=
    hLegal.nodup_arrows_toGraph_iff hPipeline .builtIn
  have hTidy := tidy_of_ofGraph hPipeline
  refine
    ⟨p, hPipeline, hShaped, hArrows,
      fun hPlain => hTidy.nodup_edgeIds_toGraph hPlain .builtIn,
      ?_⟩
  rw [hShaped.legal_iff, hArrows]

/- The stage of a new node. -/
def freshStage
    (id kind : String)
    (sources : Sources) : Stage where
  toOperation := (Graph.freshNode id kind).toOperation
  sources := sources

/- The pipeline of the sample run. -/
def sampleStages : Pipeline :=
  [freshStage "turn" "rotate" {},
    freshStage "sum" "union" ⟨none, some startId⟩]

theorem rebuilds_legal_sampleRun :
    (Graph.initial.performAll Graph.sampleRun).Reachable ∧
      ofGraph (Graph.initial.performAll Graph.sampleRun) =
        .ok sampleStages ∧
      (sampleStages.toGraph .builtIn).Legal := by
  have hReachable :
      (Graph.initial.performAll Graph.sampleRun).Reachable :=
    Graph.Reachable.initial.performAll Graph.sampleRun
      (by decide) (by simp [Graph.initial])
  have hPipeline :
      ofGraph (Graph.initial.performAll Graph.sampleRun) =
        .ok sampleStages := by
    decide +kernel
  rcases rebuilds_legal hReachable with
    ⟨p, hp, _, hArrows, hIds, hLegal⟩
  cases hp.symm.trans hPipeline
  refine ⟨hReachable, hPipeline, hLegal.mpr ⟨?_, hIds ?_⟩⟩
  · exact hArrows.mp (by decide +kernel)
  · unfold PlainIds Arrowed
    decide +kernel

/- A run after which only the second input is wired. -/
def lopsidedRun : List Action :=
  [.addNode "u" "union",
    .connect "first" startId "u" (some .b)]

/- A run after which two edges have ends of the same text. -/
def arrowedRun : List Action :=
  [.addNode "x" "scale", .addNode "y->z" "scale",
    .addNode "x->y" "scale", .addNode "z" "scale",
    .connect "first" "x" "y->z" none,
    .connect "second" "x->y" "z" none]

/-
  Two runs whose graphs are not rebuilt as legal ones: two
  edges join the same nodes, or two edges have the same id.
-/
theorem rebuilds_illegal :
    (∃ p,
      (Graph.initial.performAll lopsidedRun).Reachable ∧
        ofGraph (Graph.initial.performAll lopsidedRun) = .ok p ∧
        (p.toGraph .builtIn).edges =
          [⟨"root-start->u", startId, "u", some .a⟩,
            ⟨"root-start->u:b", startId, "u", some .b⟩,
            ⟨"u->root-end", "u", endId, none⟩] ∧
        ¬ (p.toGraph .builtIn).Legal) ∧
      ∃ p,
        (Graph.initial.performAll arrowedRun).Reachable ∧
          ofGraph (Graph.initial.performAll arrowedRun) =
            .ok p ∧
          (p.toGraph .builtIn).edges =
            [⟨"root-start->x", startId, "x", none⟩,
              ⟨"x->x->y", "x", "x->y", none⟩,
              ⟨"x->y->z", "x", "y->z", none⟩,
              ⟨"x->y->z", "x->y", "z", none⟩,
              ⟨"z->root-end", "z", endId, none⟩] ∧
          ¬ (p.toGraph .builtIn).Legal := by
  constructor
  · refine
      ⟨[freshStage "u" "union" ⟨none, some startId⟩],
        ?_, by decide +kernel, by decide +kernel, ?_⟩
    · exact
        Graph.Reachable.initial.performAll lopsidedRun
          (by decide) (by simp [Graph.initial])
    · intro hLegal
      exact absurd hLegal.arrows (by decide +kernel)
  · refine
      ⟨[freshStage "x" "scale" {},
          freshStage "x->y" "scale" {},
          freshStage "y->z" "scale" ⟨some "x", none⟩,
          freshStage "z" "scale" ⟨some "x->y", none⟩],
        ?_, by decide +kernel, by decide +kernel, ?_⟩
    · exact
        Graph.Reachable.initial.performAll arrowedRun
          (by decide) (by simp [Graph.initial])
    · intro hLegal
      exact absurd hLegal.edgeIds (by decide +kernel)

end Pipeline

end FractalShader
