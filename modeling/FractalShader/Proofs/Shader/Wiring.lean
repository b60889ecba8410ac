import FractalShader.Proofs.Graph.Reachable
import FractalShader.Proofs.Pipeline.Sources
import FractalShader.Proofs.Shader.Passages

/-
  The text of a fragment computes what the wires of its
  graph say.

  The variable that holds the output of each node is given
  by a recursion over the wires.  The assembly of a program
  keeps a list of variables instead; it reads the same ones.

  Main declarations:
    * `Graph.feeder`
    * `Graph.Values`
    * `Graph.Legal.values_value`
    * `Graph.Legal.values_unique`
    * `Block.Follows`
    * `Program.assemble_follows`
    * `Fragment.follows_wires`
-/

------------------------------------------------------------
-- Values of Nodes
------------------------------------------------------------

namespace FractalShader

open Schedule

namespace Graph

/- The id that runs last among some, or the start. -/
def latest (before : List String) : String :=
  before.getLast?.getD startId

/-
  The id that feeds the first input of a node: the source of
  the edge into it, or what ran right before the node.
-/
def feeder
    (g : Graph)
    (before : List String)
    (id : String) : String :=
  (g.first? id).getD (latest before)

/-
  The variables that hold the values of nodes in an order:
  the start has the state, an enabled node has a variable of
  its own, and a disabled one passes on what feeds it.
-/
structure Values
    {α : Type}
    (g : Graph)
    (state : α)
    (stage : Nat → α)
    (order : List String)
    (val : String → α) : Prop where
  start : val startId = state
  enabled :
    ∀ before node after,
      order = before ++ node.id :: after →
        node ∈ g.nodes → node.enabled = true →
          val node.id = stage before.length
  disabled :
    ∀ before node after,
      order = before ++ node.id :: after →
        node ∈ g.nodes → node.enabled = false →
          val node.id = val (g.feeder before node.id)

/- The variables of nodes, given the ids latest first. -/
def value (g : Graph) : List String → String → Var
  | [], _ => .state
  | id :: earlier, other =>
      if other = id then
        if (g.node? id).any (fun node => node.enabled) then
          .stage earlier.length
        else
          g.value earlier (g.feeder earlier.reverse id)
      else
        g.value earlier other

/- Later nodes do not change the values of earlier ones. -/
theorem value_append
    (g : Graph)
    {later : List String}
    (earlier : List String)
    {id : String}
    (h : id ∉ later) :
    g.value (later ++ earlier) id = g.value earlier id := by
  induction later with
  | nil => rfl
  | cons next later ih =>
      rw [List.mem_cons, not_or] at h
      rw [List.cons_append, value, if_neg h.1, ih h.2]

variable {g : Graph}

/- Variables that are written another way. -/
theorem Values.map
    {α β : Type}
    {state : α}
    {stage : Nat → α}
    {order : List String}
    {val : String → α}
    (h : g.Values state stage order val)
    (f : α → β) :
    g.Values (f state) (fun index => f (stage index)) order
      (fun id => f (val id)) where
  start := congrArg f h.start
  enabled := by
    intro before node after hSplit hNode hEnabled
    exact congrArg f (h.enabled _ _ _ hSplit hNode hEnabled)
  disabled := by
    intro before node after hSplit hNode hDisabled
    exact congrArg f (h.disabled _ _ _ hSplit hNode hDisabled)

/- An id that runs last is one of them, or the start. -/
theorem latest_earlier
    (before : List String) :
    latest before = startId ∨ latest before ∈ before := by
  unfold latest
  cases hLast : before.getLast? with
  | none => exact Or.inl rfl
  | some id =>
      exact Or.inr (List.mem_of_getLast? hLast)

/- An edge into a node comes from the start or from before. -/
theorem Legal.edge_earlier
    (h : g.Legal)
    {order before after : List String}
    {id : String}
    (hOrders : g.Orders order)
    (hSplit : order = before ++ id :: after)
    {edge : Edge}
    (hEdge : edge ∈ g.incoming id) :
    edge.source = startId ∨ edge.source ∈ before := by
  rw [mem_incoming_iff] at hEdge
  rcases h.source_real hEdge.1 with hStart | hReal
  · exact Or.inl hStart
  · have hId : id ∈ order := by simp [hSplit]
    have hFeeds : g.Feeds edge.source id :=
      ⟨hReal, (hOrders.mem_iff id).mp hId, edge, hEdge.1, rfl,
        hEdge.2⟩
    have hBefore := hOrders.forward _ _ hFeeds
    have hNodup := hOrders.nodup
    rw [hSplit] at hBefore hNodup
    exact Or.inr (hBefore.mem_left hNodup)

/- What feeds a node is the start or runs before it. -/
theorem Legal.feeder_earlier
    (h : g.Legal)
    {order before after : List String}
    {id : String}
    (hOrders : g.Orders order)
    (hSplit : order = before ++ id :: after) :
    g.feeder before id = startId ∨
      g.feeder before id ∈ before := by
  unfold feeder
  cases hFirst : g.first? id with
  | none => exact latest_earlier before
  | some source =>
      have hReal : g.Real id :=
        (hOrders.mem_iff id).mp (by simp [hSplit])
      rcases (h.first?_eq_some_iff hReal source).mp hFirst with
        ⟨edge, hEdge, _, rfl⟩
      exact h.edge_earlier hOrders hSplit hEdge

/- A node of a legal graph is found under its id. -/
theorem Legal.node?_eq
    (h : g.Legal)
    {node : Node}
    (hNode : node ∈ g.nodes) :
    g.node? node.id = some node :=
  Answers.find?_eq_some h.nodeIds hNode

/- The start is not one of the ids of an order. -/
theorem Orders.startId_not_mem
    {order : List String}
    (hOrders : g.Orders order) :
    startId ∉ order := by
  intro hMem
  exact ((hOrders.mem_iff startId).mp hMem).ne_startId rfl

/- The value of an id is settled once it has run. -/
theorem value_of_split
    (g : Graph)
    {order before after : List String}
    {id : String}
    (hNodup : order.Nodup)
    (hSplit : order = before ++ id :: after) :
    g.value order.reverse id =
      g.value (id :: before.reverse) id := by
  have hReverse :
      order.reverse =
        after.reverse ++ id :: before.reverse := by
    simp [hSplit]
  rw [hReverse, value_append]
  rw [hSplit, List.nodup_middle, List.nodup_cons] at hNodup
  intro hMem
  apply hNodup.1
  exact List.mem_append_right _ (List.mem_reverse.mp hMem)

/- The recursion over the order has the values asked for. -/
theorem Legal.values_value
    (h : g.Legal)
    {order : List String}
    (hOrders : g.Orders order) :
    g.Values .state .stage order
      (g.value order.reverse) where
  start := by
    have hStart : startId ∉ order.reverse := by
      simpa using hOrders.startId_not_mem
    have hValue := g.value_append [] hStart
    rwa [List.append_nil] at hValue
  enabled := by
    intro before node after hSplit hNode hEnabled
    rw [value_of_split g hOrders.nodup hSplit, value,
      if_pos rfl, h.node?_eq hNode]
    simp [hEnabled]
  disabled := by
    intro before node after hSplit hNode hDisabled
    rw [value_of_split g hOrders.nodup hSplit, value,
      if_pos rfl, h.node?_eq hNode, List.reverse_reverse]
    simp only [Option.any_some, hDisabled,
      Bool.false_eq_true, if_false]
    -- What feeds the node ran before it, so nothing later
    -- changes its value.
    have hReverse :
        order.reverse =
          (after.reverse ++ [node.id]) ++ before.reverse := by
      simp [hSplit]
    rw [hReverse, value_append]
    intro hLater
    have hAfter :
        g.feeder before node.id ∈ node.id :: after := by
      simpa [or_comm] using hLater
    have hNodup := hOrders.nodup
    rcases h.feeder_earlier hOrders hSplit with
      hStart | hBefore
    · rw [hStart] at hAfter
      apply hOrders.startId_not_mem
      rw [hSplit]
      exact List.mem_append_right _ hAfter
    · rw [hSplit] at hNodup
      exact
        (List.nodup_append.mp hNodup).2.2 _ hBefore _ hAfter
          rfl

/-
  No other variables have these values: what feeds a node
  runs before it, so the equations settle one id after
  another.
-/
theorem Legal.values_unique
    (h : g.Legal)
    {order : List String}
    (hOrders : g.Orders order)
    {α : Type}
    {state : α}
    {stage : Nat → α}
    {val other : String → α}
    (hVal : g.Values state stage order val)
    (hOther : g.Values state stage order other)
    {before after : List String}
    (hSplit : order = before ++ after) :
    ∀ id, id = startId ∨ id ∈ before → val id = other id := by
  induction before using List.reverseRecOn
      generalizing after with
  | nil =>
      intro id hId
      rcases hId with hStart | hMem
      · rw [hStart, hVal.start, hOther.start]
      · cases hMem
  | append_singleton before last ih =>
      rw [List.append_assoc, List.singleton_append] at hSplit
      have hBefore := ih hSplit
      intro id hId
      by_cases hLast : id = last
      · subst hLast
        have hReal : g.Real id :=
          (hOrders.mem_iff id).mp (by simp [hSplit])
        rcases (g.mem_ids_iff id).mp hReal.2 with
          ⟨node, hNode, rfl⟩
        cases hEnabled : node.enabled with
        | true =>
            rw [hVal.enabled _ _ _ hSplit hNode hEnabled,
              hOther.enabled _ _ _ hSplit hNode hEnabled]
        | false =>
            rw [hVal.disabled _ _ _ hSplit hNode hEnabled,
              hOther.disabled _ _ _ hSplit hNode hEnabled]
            exact hBefore _ (h.feeder_earlier hOrders hSplit)
      · apply hBefore id
        simpa [hLast] using hId

end Graph

end FractalShader

------------------------------------------------------------
-- Blocks That Follow Wires
------------------------------------------------------------

namespace FractalShader

open Schedule

/-
  A block follows the wires into the node of its stage: its
  variable starts from the value of what feeds the first
  input, and the statements of the kind of the node are
  written for that value and, as the second input, for the
  value of the source of the second edge, if there is one.
-/
structure Block.Follows
    (g : Graph)
    (settings : Settings)
    (val : String → String)
    (before : List String)
    (stage : Stage)
    (block : Block) : Prop where
  node :
    ∃ node ∈ g.nodes, node.toOperation = stage.toOperation
  text :
    ∃ kind,
      Catalog.builtIn.find? stage.kind = some kind ∧
        block.text settings =
          stage.passage settings before.length
            (val (g.feeder before stage.id))
            (kind.body (block.scope settings))
  inputA :
    (block.scope settings).inputA =
      val (g.feeder before stage.id)
  inputB :
    (block.scope settings).inputB =
      ((g.second? stage.id).map val).getD
        (val (g.feeder before stage.id))

namespace Outputs

/- The variables at hand are the values of some ids. -/
structure Hold
    (outputs : Outputs)
    (val : String → Var)
    (before : List String) : Prop where
  latest : outputs.latest = val (Graph.latest before)
  named :
    ∀ id ∈ before, outputs.named.lookup id = some (val id)

variable
  {outputs : Outputs}
  {val : String → Var}
  {before : List String}

/- Reading the start or an id that ran gives its value. -/
theorem Hold.read_some
    (h : outputs.Hold val before)
    (hStart : val startId = .state)
    {source : String}
    (hSource : source = startId ∨ source ∈ before) :
    outputs.read (some source) = val source := by
  simp only [read]
  by_cases hEq : source = startId
  · rw [if_pos hEq, hEq, hStart]
  · have hMem := hSource.resolve_left hEq
    rw [if_neg hEq, h.named source hMem]
    rfl

/-
  Reading a recorded first source gives the value of what
  feeds the node, also when it was left out as expected.
-/
theorem Hold.read_first
    (h : outputs.Hold val before)
    (hStart : val startId = .state)
    {g : Graph}
    {id : String}
    (hFeeder :
      g.feeder before id = startId ∨
        g.feeder before id ∈ before) :
    outputs.read
        ((g.first? id).filter (· != Graph.latest before)) =
      val (g.feeder before id) := by
  unfold Graph.feeder at hFeeder ⊢
  cases hFirst : g.first? id with
  | none => exact h.latest
  | some source =>
      rw [hFirst] at hFeeder
      by_cases hEq : source = Graph.latest before
      · simp [Option.filter, hEq, read, h.latest]
      · simp only [Option.filter, bne_iff_ne, ne_eq, hEq,
          not_false_eq_true, if_true]
        exact h.read_some hStart hFeeder

/- A stage leaves its value in a variable. -/
theorem Hold.push
    (h : outputs.Hold val before)
    {id : String}
    {var : Var}
    (hVar : val id = var)
    (cells : Nat) :
    (outputs.push id var cells).Hold val (before ++ [id]) where
  latest := by
    simp [Outputs.push, Graph.latest, hVar]
  named := by
    intro other hOther
    by_cases hEq : other = id
    · simp [Outputs.push, hEq, hVar]
    · have hMem : other ∈ before := by
        simpa [hEq] using hOther
      have hKey : (other == id) = false := by
        simpa using hEq
      simp only [Outputs.push, List.lookup_cons, hKey]
      exact h.named other hMem

end Outputs

end FractalShader

------------------------------------------------------------
-- Assembly
------------------------------------------------------------

namespace FractalShader

open Schedule

namespace Catalog

/- All limits of all inputs have their ends in order. -/
def Proper (catalog : Catalog) : Prop :=
  ∀ id kind, catalog.find? id = some kind →
    ∀ input ∈ kind.inputs, input.proper = true

theorem proper_builtIn : builtIn.Proper := by
  have hKinds :
      ∀ kind ∈ BuiltIn.kinds, ∀ input ∈ kind.inputs,
        input.proper = true := by
    decide +kernel
  intro id kind h
  exact hKinds kind (find?_ofKinds h).1

end Catalog

/- Inputs with proper limits have references. -/
theorem Stage.exists_references
    (inline : Bool)
    (stage : Stage)
    (next : Nat)
    {inputs : List Input}
    (h : ∀ input ∈ inputs, input.proper = true) :
    ∃ found,
      stage.references inline next inputs = .ok found := by
  induction inputs generalizing next with
  | nil => exact ⟨_, rfl⟩
  | cons input inputs ih =>
      have hRest := fun next =>
        ih next fun other hOther =>
          h other (List.mem_cons_of_mem _ hOther)
      have hValue :
          stage.value input =
            .ok (input.resolve stage.params) := by
        simp [Stage.value, h input List.mem_cons_self]
      rw [Stage.references]
      split
      · rcases hRest next with ⟨found, hFound⟩
        simp [hFound, bind, Except.bind]
      · rcases hRest next with ⟨found, hFound⟩
        rcases hRest (next + 1) with ⟨other, hOther⟩
        cases inline with
        | true => simp [hValue, hFound, bind, Except.bind]
        | false => simp [hValue, hOther, bind, Except.bind]

namespace Graph

variable {g : Graph}

/- The kinds of all nodes with a stage are known. -/
def Known (g : Graph) : Prop :=
  ∀ node ∈ g.nodes, isSentinel node.id = false →
    Catalog.builtIn.contains node.kind = true

/- A node with one input has no second one. -/
theorem Legal.second?_eq_none
    (h : g.Legal)
    {node : Node}
    (hNode : node ∈ g.nodes)
    (hReal : isSentinel node.id = false)
    (hArity : Catalog.builtIn.arity node.kind = .single) :
    g.second? node.id = none := by
  have hPorts := (h.single node hNode hReal hArity).2
  unfold second?
  rw [Option.map_eq_none_iff, List.find?_eq_none]
  intro edge hEdge hPort
  have hMem : edge.port ∈ g.ports node.id :=
    List.mem_map_of_mem hEdge
  rw [beq_iff_eq] at hPort
  rw [hPorts _ hMem] at hPort
  cases hPort

/-
  A stage is that of a node: it has its operation, and its
  sources are those of the inputs, the first one left out
  when it runs last before the stage.
-/
structure Stands
    (g : Graph)
    (before : List String)
    (node : Node)
    (stage : Stage) : Prop where
  mem : node ∈ g.nodes
  real : isSentinel node.id = false
  operation : stage.toOperation = node.toOperation
  sources :
    stage.sources =
      { a := (g.first? node.id).filter (· != latest before)
        b := g.second? node.id }

/- The first of the stages is that of the first node. -/
theorem Legal.stages_cons
    (h : g.Legal)
    {id : String}
    (hReal : g.Real id)
    (before rest : List String) :
    ∃ node stage, g.Stands before node stage ∧
      node.id = id ∧
      Pipeline.stages g.operations g.wires (latest before)
          (id :: rest) =
        stage ::
          Pipeline.stages g.operations g.wires id rest := by
  have hContains := (g.operations_contains_iff id).mpr hReal
  rcases Option.isSome_iff_exists.mp hContains with
    ⟨node, hNode⟩
  rcases operations_get? hNode with ⟨hMem, hId⟩
  rw [realNodes, List.mem_filter] at hMem
  subst hId
  let stage : Stage :=
    { toOperation := node.toOperation
      sources :=
        .ofWires
          (g.wires.filter fun edge => edge.target == node.id)
          (latest before) }
  refine ⟨node, stage, ?_, rfl, ?_⟩
  · exact
      { mem := hMem.1
        real := hReal.1
        operation := rfl
        sources := h.sources_eq hReal (latest before) }
  · rw [Pipeline.stages, hNode]

end Graph

namespace Program

variable
  {catalog : Catalog}
  {inline : Bool}
  {index : Nat}
  {outputs : Outputs}
  {stage : Stage}
  {rest : Pipeline}
  {kind : Kind}

/- A block starts from the value of what feeds its node. -/
theorem block_inputA
    {g : Graph}
    (hLegal : g.Legal)
    {order before after : List String}
    (hOrders : g.Orders order)
    {val : String → Var}
    (hStart : val startId = .state)
    {node : Node}
    (hSplit : order = before ++ node.id :: after)
    (hStands : g.Stands before node stage)
    (hHold : outputs.Hold val before) :
    outputs.read stage.sources.a =
      val (g.feeder before node.id) := by
  rw [hStands.sources]
  exact
    hHold.read_first hStart
      (hLegal.feeder_earlier hOrders hSplit)

/- Its second input is the value of the second source. -/
theorem block_inputB
    {g : Graph}
    (hLegal : g.Legal)
    {order before after : List String}
    (hOrders : g.Orders order)
    {val : String → Var}
    (hStart : val startId = .state)
    {node : Node}
    (hSplit : order = before ++ node.id :: after)
    (hStands : g.Stands before node stage)
    (hKind : Catalog.builtIn.find? stage.kind = some kind)
    (hHold : outputs.Hold val before)
    (references : List (String × Reference)) :
    (stage.block kind before.length outputs
        references).inputB =
      (g.second? node.id).map val := by
  have hArity :
      Catalog.builtIn.arity node.kind = kind.arity := by
    rw [hStands.operation] at hKind
    simp [Catalog.arity, hKind]
  unfold Stage.block
  rw [hStands.sources]
  cases hCase : kind.arity with
  | single =>
      rw [hCase] at hArity
      rw [hLegal.second?_eq_none hStands.mem hStands.real
        hArity]
      rfl
  | dual =>
      cases hSecond : g.second? node.id with
      | none => rfl
      | some source =>
          have hReal : g.Real node.id :=
            (hOrders.mem_iff node.id).mp (by simp [hSplit])
          rcases (hLegal.second?_eq_some_iff hReal source).mp
              hSecond with
            ⟨edge, hEdge, _, rfl⟩
          have hRead :=
            hHold.read_some hStart
              (hLegal.edge_earlier hOrders hSplit hEdge)
          simp [hRead]

/- The block of a stage of a legal graph follows its wires. -/
theorem block_follows
    {g : Graph}
    (hLegal : g.Legal)
    {order before after : List String}
    (hOrders : g.Orders order)
    {val : String → Var}
    (hStart : val startId = .state)
    (settings : Settings)
    {node : Node}
    (hSplit : order = before ++ node.id :: after)
    (hStands : g.Stands before node stage)
    (hKind : Catalog.builtIn.find? stage.kind = some kind)
    (hHold : outputs.Hold val before)
    (references : List (String × Reference)) :
    Block.Follows g settings
      (fun id => (val id).text settings) before stage
      (stage.block kind before.length outputs references) := by
  have hId : stage.id = node.id :=
    congrArg Operation.id hStands.operation
  have hA :
      (stage.block kind before.length outputs
          references).inputA =
        val (g.feeder before stage.id) := by
    rw [hId]
    exact
      block_inputA hLegal hOrders hStart hSplit hStands hHold
  have hB :=
    block_inputB hLegal hOrders hStart hSplit hStands hKind
      hHold references
  rw [← hId] at hB
  exact
    { node := ⟨node, hStands.mem, hStands.operation.symm⟩
      text := by
        rw [← hA]
        exact ⟨kind, hKind, stage.text_block settings⟩
      inputA := by
        rw [← hA]
        rfl
      inputB := by
        unfold Scope.inputB Block.scope
        rw [hA, hB, Option.map_map]
        rfl }

/-
  The program of the stages after some ids follows the
  wires, given that the variables of those ids are at hand.
-/
theorem assemble_follows
    {g : Graph}
    (hLegal : g.Legal)
    (hKnown : g.Known)
    {order : List String}
    (hOrders : g.Orders order)
    {val : String → Var}
    (hValues : g.Values .state .stage order val)
    (settings : Settings)
    {before rest : List String}
    (hSplit : order = before ++ rest)
    {outputs : Outputs}
    (hHold : outputs.Hold val before) :
    ∃ program,
      assemble .builtIn settings.inlineLiterals before.length
          outputs
          (Pipeline.stages g.operations g.wires
            (Graph.latest before) rest) =
        .ok program ∧
      program.result = val (Graph.latest order) ∧
      List.Forall₂
        (fun entry block =>
          Block.Follows g settings
            (fun id => (val id).text settings)
            (order.take entry.2) entry.1 block)
        (((Pipeline.stages g.operations g.wires
            (Graph.latest before) rest).zipIdx
              before.length).filter
          fun entry => entry.1.enabled)
        program.blocks := by
  induction rest generalizing before outputs with
  | nil =>
      rw [List.append_nil] at hSplit
      refine ⟨_, rfl, ?_, List.Forall₂.nil⟩
      rw [hSplit]
      exact hHold.latest
  | cons id rest ih =>
      have hReal : g.Real id :=
        (hOrders.mem_iff id).mp (by simp [hSplit])
      rcases hLegal.stages_cons hReal before rest with
        ⟨node, stage, hStands, rfl, hStages⟩
      have hId : stage.id = node.id :=
        congrArg Operation.id hStands.operation
      rw [hStages, ← hId]
      have hSame : stage.enabled = node.enabled :=
        congrArg Operation.enabled hStands.operation
      have hContains :
          Catalog.builtIn.contains stage.kind = true := by
        rw [hStands.operation]
        exact hKnown node hStands.mem hStands.real
      rcases Option.isSome_iff_exists.mp hContains with
        ⟨kind, hKind⟩
      have hNext :
          order = (before ++ [node.id]) ++ rest := by
        simp [hSplit]
      have hTake : order.take before.length = before := by
        simp [hSplit]
      have hLatest :
          Graph.latest (before ++ [node.id]) = node.id := by
        simp [Graph.latest]
      cases hEnabled : node.enabled with
      | true =>
          rw [hEnabled] at hSame
          rcases Stage.exists_references
              settings.inlineLiterals stage outputs.cells
              (Catalog.proper_builtIn _ kind hKind) with
            ⟨⟨references, cells⟩, hFound⟩
          have hVar :=
            hValues.enabled before node rest hSplit
              hStands.mem hEnabled
          rcases ih hNext (hHold.push hVar cells.length) with
            ⟨program, hProgram, hResult, hBlocks⟩
          rw [hLatest, List.length_append,
            List.length_singleton, ← hId] at hProgram hBlocks
          refine
            ⟨_, assemble_enabled hKind hSame hFound hProgram,
              hResult, ?_⟩
          rw [List.zipIdx_cons, List.filter_cons,
            if_pos hSame]
          refine List.Forall₂.cons ?_ hBlocks
          rw [hTake]
          exact
            block_follows hLegal hOrders hValues.start settings
              hSplit hStands hKind hHold references
      | false =>
          rw [hEnabled] at hSame
          have hInput :=
            block_inputA hLegal hOrders hValues.start hSplit
              hStands hHold
          have hVar :
              val node.id = outputs.read stage.sources.a :=
            (hValues.disabled before node rest hSplit
              hStands.mem hEnabled).trans hInput.symm
          rcases ih hNext (hHold.push hVar 0) with
            ⟨program, hProgram, hResult, hBlocks⟩
          rw [hLatest, List.length_append,
            List.length_singleton, ← hId] at hProgram hBlocks
          refine ⟨program, ?_, hResult, ?_⟩
          · rw [assemble_disabled hKind hSame]
            exact hProgram
          · rw [List.zipIdx_cons, List.filter_cons,
              if_neg (by simp [hSame])]
            exact hBlocks

end Program

end FractalShader

------------------------------------------------------------
-- Fragments of Legal Graphs
------------------------------------------------------------

namespace FractalShader

open Relation Schedule

namespace Graph

/- Nodes of a legal graph do not feed themselves. -/
theorem Legal.not_feeds_self
    {g : Graph}
    (h : g.Legal) :
    ∀ id, ¬ TransGen g.Feeds id id := by
  intro id hCycle
  have hArrows : g.Feeds ≤ Arrow.Leads g.arrows := by
    rintro x y ⟨_, _, edge, hEdge, rfl, rfl⟩
    exact List.mem_map_of_mem hEdge
  exact h.acyclic id (TransGen.mono hArrows _ _ hCycle)

/- Every node with a stage has one with its operation. -/
theorem Legal.exists_stage
    {g : Graph}
    (h : g.Legal)
    {p : Pipeline}
    (hPipeline : Pipeline.ofGraph g = .ok p)
    {node : Node}
    (hNode : node ∈ g.nodes)
    (hReal : isSentinel node.id = false) :
    ∃ stage ∈ p, stage.toOperation = node.toOperation := by
  have hId : node.id ∈ p.ids :=
    ((Pipeline.orders_of_ofGraph hPipeline).mem_iff
      node.id).mpr ⟨hReal, id_mem_ids hNode⟩
  rcases List.mem_map.mp hId with ⟨stage, hStage, hSame⟩
  refine ⟨stage, hStage, ?_⟩
  rw [(Pipeline.ofGraph_eq_ok hPipeline).2] at hStage
  rcases Pipeline.operation_of_stages hStage with
    ⟨found, hFound, hOperation⟩
  rcases operations_get? hFound with ⟨hMem, hFoundId⟩
  have hEq :=
    h.node_unique (List.mem_filter.mp hMem).1 hNode
      (hFoundId.trans hSame)
  rw [hOperation, hEq]

end Graph

namespace Fragment

/-
  A legal graph of known kinds has a fragment.  Its text has
  a block for each enabled stage in order, which follows the
  wires into the node and is written for the slots, values
  and cells of its inputs, and it ends with the value of the
  last node.  The order in which edges were added is
  irrelevant.
-/
theorem follows_wires
    {g : Graph}
    (hLegal : g.Legal)
    (hKnown : g.Known)
    (settings : Settings) :
    ∃ p program val,
      Pipeline.ofGraph g = .ok p ∧
      Program.ofPipeline .builtIn settings.inlineLiterals p =
        .ok program ∧
      ofPipeline .builtIn settings p =
        .ok (program.fragment settings) ∧
      (∀ node ∈ g.nodes, isSentinel node.id = false →
        ∃ stage ∈ p, stage.toOperation = node.toOperation) ∧
      g.Values settings.stateVar
        (fun index => "v" ++ toString index) p.ids val ∧
      List.Forall₂
        (fun entry block =>
          Block.Follows g settings val (p.ids.take entry.2)
            entry.1 block)
        (p.zipIdx.filter fun entry => entry.1.enabled)
        program.blocks ∧
      List.Forall₂
        (fun entry block =>
          block.Receives .builtIn settings
            (program.fragment settings) (p.take entry.2)
            entry.1)
        (p.zipIdx.filter fun entry => entry.1.enabled)
        program.blocks ∧
      (program.fragment settings).source =
        String.join
            (program.blocks.map (Block.text settings)) ++
          settings.stateVar ++ " = " ++
          val (Graph.latest p.ids) ++ ";\n" ∧
      ∀ other, g.Rewired other →
        Pipeline.ofGraph other = .ok p := by
  rcases (Pipeline.exists_ofGraph_iff g).mpr
      hLegal.not_feeds_self with
    ⟨p, hPipeline⟩
  have hOrders := Pipeline.orders_of_ofGraph hPipeline
  have hValues := hLegal.values_value hOrders
  have hStages :
      p =
        Pipeline.stages g.operations g.wires
          (Graph.latest []) p.ids := by
    rw [Pipeline.ids_of_ofGraph hPipeline]
    exact (Pipeline.ofGraph_eq_ok hPipeline).2
  have hHold :
      Outputs.start.Hold (g.value p.ids.reverse) [] :=
    ⟨hValues.start.symm, fun _ hMem => by cases hMem⟩
  have hSplit : p.ids = [] ++ p.ids := rfl
  rcases Program.assemble_follows hLegal hKnown hOrders hValues
      settings hSplit hHold with
    ⟨program, hProgram, hResult, hBlocks⟩
  rw [← hStages] at hProgram hBlocks
  refine
    ⟨p, program, _, hPipeline, hProgram, ?_, ?_,
      hValues.map (Var.text settings), hBlocks, ?_, ?_, ?_⟩
  · exact congrArg (Except.map (·.fragment settings)) hProgram
  · intro node hNode hReal
    exact hLegal.exists_stage hPipeline hNode hReal
  · exact
      Program.receives_of_ofPipeline Catalog.distinct_builtIn
        hProgram
  · rw [← hResult]
    rfl
  · intro other hOther
    rw [Pipeline.ofGraph_rewired hOther, hPipeline]

/-
  Two nodes in a row feed one with two inputs, and the first
  of them is disabled.
-/
def sampleGraph : Graph :=
  Graph.initial.performAll
    [.addNode "fold" "abs_fold", .addNode "move" "translate",
      .addNode "sum" "union",
      .connect "first" "fold" "move" none,
      .connect "second" "move" "sum" (some .b),
      .connect "third" "fold" "sum" (some .a),
      .setEnabled "fold" false]

theorem legal_sampleGraph : sampleGraph.Legal := by
  apply Graph.Reachable.legal
  apply Graph.Reachable.initial.performAll
  · decide
  · intro id _ hMem
    cases hMem

theorem known_sampleGraph : sampleGraph.Known := by
  unfold Graph.Known
  decide +kernel

/- Nothing feeds the disabled node, so it has the state. -/
theorem values_sampleGraph
    {val : String → String}
    (h :
      sampleGraph.Values "z"
        (fun index => "v" ++ toString index)
        ["fold", "move", "sum"] val) :
    val "fold" = "z" ∧ val "move" = "v1" ∧
      val "sum" = "v2" := by
  have hNodes :
      (∃ node ∈ sampleGraph.nodes,
          node.id = "fold" ∧ node.enabled = false) ∧
        (∃ node ∈ sampleGraph.nodes,
          node.id = "move" ∧ node.enabled = true) ∧
        ∃ node ∈ sampleGraph.nodes,
          node.id = "sum" ∧ node.enabled = true := by
    decide +kernel
  rcases hNodes with
    ⟨⟨fold, hFold, hFoldId, hOff⟩, ⟨move, hMove, hMoveId, hOn⟩,
      ⟨sum, hSum, hSumId, hLast⟩⟩
  refine ⟨?_, ?_, ?_⟩
  · have hFeeder :
        sampleGraph.feeder [] "fold" = startId := by
      decide +kernel
    have hVal :=
      h.disabled [] fold ["move", "sum"] (by rw [hFoldId]; rfl)
        hFold hOff
    rw [hFoldId, hFeeder, h.start] at hVal
    exact hVal
  · have hVal :=
      h.enabled ["fold"] move ["sum"] (by rw [hMoveId]; rfl)
        hMove hOn
    rw [hMoveId] at hVal
    exact hVal.trans (by decide)
  · have hVal :=
      h.enabled ["fold", "move"] sum [] (by rw [hSumId]; rfl)
        hSum hLast
    rw [hSumId] at hVal
    exact hVal.trans (by decide)

theorem sampleGraph_follows_wires :
    sampleGraph.Legal ∧ sampleGraph.Known ∧
      ∃ (p : Pipeline) (program : Program) (move sum : Block)
          (text : String),
        Pipeline.ofGraph sampleGraph = .ok p ∧
          ofPipeline .builtIn {} p =
            .ok (program.fragment {}) ∧
          (program.fragment {}).source =
            text ++ "z" ++ " = " ++ "v2" ++ ";\n" ∧
          program.blocks = [move, sum] ∧
          (move.scope {}).inputA = "z" ∧
          (sum.scope {}).inputA = "z" ∧
          (sum.scope {}).inputB = "v1" := by
  refine ⟨legal_sampleGraph, known_sampleGraph, ?_⟩
  rcases follows_wires legal_sampleGraph known_sampleGraph {}
    with
    ⟨p, program, val, hPipeline, _, hFragment, _, hValues,
      hBlocks, _, hSource, _⟩
  have hStages :
      (Pipeline.ofGraph sampleGraph).map
          (List.map fun stage => (stage.id, stage.enabled)) =
        .ok
          [("fold", false), ("move", true), ("sum", true)] := by
    decide +kernel
  rw [hPipeline] at hStages
  rcases p with _ | ⟨fold, _ | ⟨move, _ | ⟨sum, _ | _⟩⟩⟩ <;>
    simp only [Except.map, Except.ok.injEq, List.map_cons,
      List.map_nil, List.cons.injEq, Prod.mk.injEq,
      reduceCtorEq, and_false, and_true] at hStages
  rcases hStages with
    ⟨⟨hFold, hOff⟩, ⟨hMove, hOn⟩, hSum, hLast⟩
  have hIds :
      Pipeline.ids [fold, move, sum] =
        ["fold", "move", "sum"] := by
    simp [Pipeline.ids, hFold, hMove, hSum]
  have hEnabled :
      (([fold, move, sum] : Pipeline).zipIdx.filter
          fun entry => entry.1.enabled) =
        [(move, 1), (sum, 2)] := by
    simp [hOff, hOn, hLast]
  rw [hIds] at hValues hBlocks hSource
  rw [hEnabled] at hBlocks
  rcases values_sampleGraph hValues with
    ⟨hValFold, hValMove, hValSum⟩
  rcases Program.exists_two_blocks hBlocks with
    ⟨one, two, hPair, hOne, hTwo⟩
  have hFeeders :
      sampleGraph.feeder ["fold"] "move" = "fold" ∧
        sampleGraph.feeder ["fold", "move"] "sum" = "fold" ∧
        sampleGraph.second? "sum" = some "move" := by
    decide +kernel
  have hOneA := hOne.inputA
  have hTwoA := hTwo.inputA
  have hTwoB := hTwo.inputB
  simp only [List.take, hMove, hSum, hFeeders,
    Option.map_some, Option.getD_some, hValFold, hValMove]
    at hOneA hTwoA hTwoB
  rw [show Graph.latest ["fold", "move", "sum"] = "sum" from
    rfl, hValSum] at hSource
  exact
    ⟨_, program, one, two, _, hPipeline, hFragment, hSource,
      hPair, hOneA, hTwoA, hTwoB⟩

/- What reads the disabled node reads the state instead. -/
example :
    (do
      let p ← Pipeline.ofGraph sampleGraph
      let program ← Program.ofPipeline .builtIn false p
      .ok
        (program.blocks.map fun block =>
          (block.node, block.index, block.inputA,
            block.inputB)) :
      Except Failure (List (String × Nat × Var × Option Var))) =
      .ok
        [("move", 1, .state, none),
          ("sum", 2, .state, some (.stage 1))] := by
  decide +kernel

end Fragment

end FractalShader
