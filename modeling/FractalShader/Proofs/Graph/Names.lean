import FractalShader.Proofs.Graph.Stored
import FractalShader.Proofs.Shader.Release

/-
  The names under which nodes store values and slots.

  In every graph that actions lead to, a node of a known kind
  stores a value under each input that the kind declares, and
  under no other name.  A slot is stored under a declared
  input too, unless an action asked for another name: values
  are checked for their names, and slots are not.  A slot
  under another name changes nothing in a fragment, and yet
  it counts as a change of the structure.

  Main declarations:
    * `Graph.Origin`
    * `Graph.origin_performWith`
    * `Action.Binds`
    * `Graph.Names`
    * `Graph.Names.performWith`
    * `Fragment.ofPipeline_release`
    * `Graph.names_inputs`
    * `Graph.names_others`
-/

------------------------------------------------------------
-- Origins of Nodes
------------------------------------------------------------

namespace FractalShader

namespace Graph

/-
  Where a node comes from that is in the graph after an
  action: it was there before, as it is or before it was
  changed, or the action has added it.
-/
inductive Origin
    (g : Graph) : Action → Node → Prop where
  | kept
      {action : Action}
      {node : Node}
      (old : node ∈ g.nodes) :
      Origin g action node
  | fresh
      (id kind : String) :
      Origin g (.addNode id kind) (freshNode id kind)
  | sentinel
      {id : String}
      (fixed : isSentinel id = true) :
      Origin g .normalize (.sentinel id)
  | stored
      {old : Node}
      {input : String}
      {value stored : F32}
      (mem : old ∈ g.nodes)
      (accepted : storable old input value = .ok stored) :
      Origin g (.setParam old.id input value)
        { old with params := old.params.insert input stored }
  | toggled
      {old : Node}
      (input : String)
      (mem : old ∈ g.nodes) :
      Origin g (.toggleBinding old.id input)
        { old with
          bindings := Bindings.toggle old.bindings input }
  | bound
      {old : Node}
      (input : String)
      (slot : Option Slot)
      (mem : old ∈ g.nodes) :
      Origin g (.setBinding old.id input slot)
        { old with
          bindings :=
            Bindings.assign old.bindings input slot }
  | changed
      {action : Action}
      {old node : Node}
      (mem : old ∈ g.nodes)
      (id : node.id = old.id)
      (kind : node.kind = old.kind)
      (params : node.params = old.params)
      (bindings : node.bindings = old.bindings) :
      Origin g action node

/- A node of a changed graph was there, or was changed. -/
theorem mem_modify
    {g : Graph}
    {id : String}
    {change : Node → Node}
    {node : Node}
    (h : node ∈ (g.modify id change).nodes) :
    node ∈ g.nodes ∨
      ∃ old, g.node? id = some old ∧ node = change old := by
  have hFirst :
      ∀ nodes : List Node, node ∈ modifyFirst id change nodes →
        node ∈ nodes ∨
          ∃ old,
            nodes.find? (fun n => n.id == id) = some old ∧
              node = change old := by
    intro nodes
    induction nodes with
    | nil => simp [modifyFirst]
    | cons head nodes ih =>
        intro hMem
        rw [modifyFirst] at hMem
        split at hMem
        · rename_i hHead
          rcases List.mem_cons.mp hMem with hEq | hRest
          · exact Or.inr ⟨head, by simp [hHead], hEq⟩
          · exact Or.inl (List.mem_cons_of_mem _ hRest)
        · rename_i hHead
          rcases List.mem_cons.mp hMem with rfl | hRest
          · exact Or.inl List.mem_cons_self
          · rcases ih hRest with hOld | ⟨old, hFound, hEq⟩
            · exact Or.inl (List.mem_cons_of_mem _ hOld)
            · exact Or.inr ⟨old, by simp [hHead, hFound], hEq⟩
  exact hFirst g.nodes h

variable {g : Graph} {action : Action} {node : Node}

/- A change of a node that leaves what it stores. -/
theorem origin_adjust
    {id : String}
    {change : Node → Node}
    (h : node ∈ (g.adjust id change).2.nodes)
    (hChange :
      ∀ n,
        (change n).id = n.id ∧ (change n).kind = n.kind ∧
          (change n).params = n.params ∧
          (change n).bindings = n.bindings) :
    Origin g action node := by
  unfold Graph.adjust at h
  split at h
  · exact .kept h
  · rcases mem_modify h with hOld | ⟨old, hFound, rfl⟩
    · exact .kept hOld
    · rcases hChange old with ⟨hId, hKind, hParams, hBindings⟩
      exact
        .changed (node?_eq_some hFound).1 hId hKind hParams
          hBindings

/- Adding a sentinel adds no other node. -/
theorem mem_withSentinel
    {id : String}
    (h : node ∈ (g.withSentinel id).nodes) :
    node ∈ g.nodes ∨ node = .sentinel id := by
  unfold Graph.withSentinel at h
  split at h
  · exact Or.inl h
  · simpa using h

/- Every node has one of these origins. -/
theorem origin_performWith
    (catalog : Catalog)
    (h : node ∈ (g.performWith catalog action).nodes) :
    Origin g action node := by
  cases action with
  | addNode id kind =>
      simp only [Graph.performWith, perform, addNode] at h
      split at h
      · exact .kept h
      · split at h
        · exact .kept h
        · rcases List.mem_append.mp h with hOld | hNew
          · exact .kept hOld
          · rw [List.mem_singleton.mp hNew]
            exact .fresh id kind
  | removeNode id => exact .kept (g.nodes_removeNode id _ h)
  | connect id source target port =>
      rw [Graph.performWith, nodes_connect] at h
      exact .kept h
  | disconnect id =>
      simp only [Graph.performWith, perform,
        nodes_disconnect] at h
      exact .kept h
  | setParam id input value =>
      simp only [Graph.performWith, perform, setParam] at h
      split at h
      · exact .kept h
      · split at h
        · exact .kept h
        · rename_i old hEditable
          split at h
          · exact .kept h
          · rename_i stored hStored
            rcases mem_modify h with
              hOld | ⟨found, hFound, rfl⟩
            · exact .kept hOld
            · have hSame := (editable_eq_ok hEditable).2
              rw [hFound] at hSame
              cases hSame
              rcases node?_eq_some hFound with ⟨hMem, rfl⟩
              exact .stored hMem hStored
  | toggleBinding id input =>
      simp only [Graph.performWith, perform,
        toggleBinding] at h
      split at h
      · exact .kept h
      · rename_i old hEditable
        rcases mem_modify h with hOld | ⟨found, hFound, rfl⟩
        · exact .kept hOld
        · have hSame := (editable_eq_ok hEditable).2
          rw [hFound] at hSame
          cases hSame
          rcases node?_eq_some hFound with ⟨hMem, rfl⟩
          exact .toggled input hMem
  | setBinding id input slot =>
      simp only [Graph.performWith, perform, setBinding,
        Graph.adjust] at h
      split at h
      · exact .kept h
      · rcases mem_modify h with hOld | ⟨found, hFound, rfl⟩
        · exact .kept hOld
        · rcases node?_eq_some hFound with ⟨hMem, rfl⟩
          exact .bound input slot hMem
  | setGuard id guard =>
      simp only [Graph.performWith, perform, setGuard] at h
      split at h
      · exact .kept h
      · exact origin_adjust h fun _ => ⟨rfl, rfl, rfl, rfl⟩
  | setEnabled id enabled =>
      simp only [Graph.performWith, perform, setEnabled] at h
      exact origin_adjust h fun _ => ⟨rfl, rfl, rfl, rfl⟩
  | setPosition id position =>
      simp only [Graph.performWith, perform, setPosition] at h
      split at h
      · rcases mem_modify h with hOld | ⟨found, hFound, rfl⟩
        · exact .kept hOld
        · exact
            .changed (node?_eq_some hFound).1 rfl rfl rfl rfl
      · exact .kept h
  | normalize =>
      rcases mem_withSentinel h with hFirst | rfl
      · rcases mem_withSentinel hFirst with hOld | rfl
        · exact .kept hOld
        · exact .sentinel rfl
      · exact .sentinel rfl

end Graph

end FractalShader

------------------------------------------------------------
-- Names
------------------------------------------------------------

namespace FractalShader

/- An action gives an input of a node a slot. -/
inductive Action.Binds
    (id input : String) : Action → Prop where
  | toggled : Binds id input (.toggleBinding id input)
  | bound
      (slot : Slot) :
      Binds id input (.setBinding id input (some slot))

/- The ids of the inputs that a kind declares. -/
def Kind.names (kind : Kind) : List String :=
  kind.inputs.map Input.id

namespace Kind

variable {kind : Kind} {name : String}

/- An input is found under each of the names. -/
theorem mem_names_iff :
    name ∈ kind.names ↔ (kind.input? name).isSome = true := by
  unfold names input?
  rw [List.find?_isSome, List.mem_map]
  simp

/- The initial values stand under the names. -/
theorem mem_keys_initialParams :
    name ∈ kind.initialParams.keys ↔ name ∈ kind.names := by
  rw [Dict.mem_keys_iff, Dict.contains, initialParams,
    Dict.get?_ofList, Option.isSome_map, List.find?_isSome]
  simp [names]

end Kind

namespace Bindings

variable {b : Bindings} {input name : String}
variable {slot : Option Slot}

/- What is stored under a name, after one more assignment. -/
theorem mem_keys_assign
    (h : name ∈ (assign b input slot).keys) :
    name ∈ Dict.keys b ∨ name = input ∧ slot ≠ none := by
  rw [Dict.mem_keys_iff, Dict.contains] at h
  rw [Dict.mem_keys_iff, Dict.contains]
  cases slot with
  | none =>
      rw [assign, Dict.get?_erase] at h
      split at h
      · cases h
      · exact Or.inl h
  | some slot =>
      rw [assign, Dict.get?_insert] at h
      split at h
      · rename_i hName
        exact Or.inr ⟨hName, by simp⟩
      · exact Or.inl h

/- No name is listed without a slot. -/
def Defined (b : Bindings) : Prop :=
  ∀ name ∈ Dict.keys b, slot? b name ≠ none

theorem Defined.assign
    (h : Defined b)
    (input : String)
    (slot : Option Slot) :
    Defined (assign b input slot) := by
  intro name hName
  rw [slot?_assign]
  split
  · rename_i hSame
    subst hSame
    cases slot with
    | none =>
        rw [Dict.mem_keys_iff, Dict.contains, Bindings.assign,
          Dict.get?_erase, if_pos rfl] at hName
        cases hName
    | some slot => simp
  · rename_i hOther
    rcases mem_keys_assign hName with hOld | ⟨hSame, _⟩
    · exact h name hOld
    · exact absurd hSame hOther

end Bindings

/-
  A node stores values under the names of its kind.  It lists
  slots, under these names or under those that actions asked
  for.
-/
structure Node.Names
    (node : Node)
    (kind : Kind)
    (actions : List Action) : Prop where
  params :
    ∀ name, name ∈ node.params.keys ↔ name ∈ kind.names
  bindings :
    ∀ name ∈ Dict.keys node.bindings,
      name ∈ kind.names ∨
        ∃ action ∈ actions, action.Binds node.id name
  defined : Bindings.Defined node.bindings

namespace Node

variable {node : Node} {kind : Kind} {actions : List Action}

/- A node without slots that has initial values. -/
theorem names_freshNode
    {id : String}
    (hKind : Catalog.builtIn.find? node.kind = some kind)
    (hNode : node = Graph.freshNode id node.kind) :
    node.Names kind actions where
  params := by
    intro name
    have hParams : node.params = kind.initialParams := by
      rw [hNode]
      unfold Graph.freshNode
      simp only [hKind]
    rw [hParams]
    exact Kind.mem_keys_initialParams
  bindings := by
    rw [hNode]
    rintro name ⟨⟩
  defined := by
    rw [hNode]
    rintro name ⟨⟩

/- More actions may have asked for more. -/
theorem Names.append
    (h : node.Names kind actions)
    (more : List Action) :
    node.Names kind (actions ++ more) where
  params := h.params
  bindings := by
    intro name hName
    rcases h.bindings name hName with
      hDeclared | ⟨action, hAction, hBinds⟩
    · exact Or.inl hDeclared
    · exact
        Or.inr
          ⟨action, List.mem_append_left _ hAction, hBinds⟩
  defined := h.defined

/- A value is stored only under a name of the kind. -/
theorem Names.setParam
    (h : node.Names kind actions)
    (hKind : Catalog.builtIn.find? node.kind = some kind)
    {input : String}
    {value stored : F32}
    (hAccepted :
      Graph.storable node input value = .ok stored) :
    Names
      { node with params := node.params.insert input stored }
      kind actions where
  params := by
    have hDeclared : input ∈ kind.names := by
      unfold Graph.storable at hAccepted
      simp only [hKind] at hAccepted
      split at hAccepted
      · rename_i declared hFound
        rw [Kind.mem_names_iff, hFound]
        rfl
      · cases hAccepted
    intro name
    rw [← h.params, Dict.mem_keys_iff, Dict.contains_insert,
      ← Dict.mem_keys_iff]
    constructor
    · rintro (rfl | hOld)
      · exact (h.params _).mpr hDeclared
      · exact hOld
    · exact Or.inr
  bindings := h.bindings
  defined := h.defined

/- A slot is stored under the name that an action gives. -/
theorem Names.assign
    (h : node.Names kind actions)
    {input : String}
    {slot : Option Slot}
    {action : Action}
    (hBinds : slot ≠ none → action.Binds node.id input) :
    Names
      { node with
        bindings := Bindings.assign node.bindings input slot }
      kind (actions ++ [action]) where
  params := h.params
  bindings := by
    intro name hName
    rcases Bindings.mem_keys_assign hName with
      hOld | ⟨rfl, hSlot⟩
    · exact (h.append [action]).bindings name hOld
    · exact
        Or.inr
          ⟨action, by simp, hBinds hSlot⟩
  defined := h.defined.assign input slot

end Node

namespace Graph

/- All nodes of known kinds do. -/
def Names
    (g : Graph)
    (actions : List Action) : Prop :=
  ∀ node ∈ g.nodes, ∀ kind,
    Catalog.builtIn.find? node.kind = some kind →
      node.Names kind actions

/- A sentinel has no kind of the catalog. -/
theorem names_sentinel
    {id : String}
    (hSentinel : isSentinel id = true)
    {kind : Kind}
    (hKind :
      Catalog.builtIn.find? (Node.sentinel id).kind =
        some kind)
    (actions : List Action) :
    (Node.sentinel id).Names kind actions := by
  have hNone : Catalog.builtIn.find? id = none :=
    Catalog.builtIn_find?_sentinel hSentinel
  rw [show (Node.sentinel id).kind = id from rfl, hNone]
    at hKind
  cases hKind

/- The nodes of the initial graph are sentinels. -/
theorem names_initial : initial.Names [] := by
  intro node hNode kind hKind
  simp only [initial, List.mem_cons, List.not_mem_nil,
    or_false] at hNode
  rcases hNode with rfl | rfl
  · exact names_sentinel rfl hKind []
  · exact names_sentinel rfl hKind []

/- Every action keeps this, as one more that was taken. -/
theorem Names.performWith
    {g : Graph}
    {actions : List Action}
    (h : g.Names actions)
    (catalog : Catalog)
    (action : Action) :
    (g.performWith catalog action).Names
      (actions ++ [action]) := by
  intro node hNode kind hKind
  cases origin_performWith catalog hNode with
  | kept old => exact (h node old kind hKind).append _
  | fresh id name => exact Node.names_freshNode hKind rfl
  | sentinel fixed => exact names_sentinel fixed hKind _
  | stored mem accepted =>
      exact
        ((h _ mem kind hKind).setParam hKind accepted).append _
  | toggled input mem =>
      exact (h _ mem kind hKind).assign fun _ => .toggled
  | bound input slot mem =>
      apply (h _ mem kind hKind).assign
      intro hSlot
      cases slot with
      | none => exact absurd rfl hSlot
      | some slot => exact .bound slot
  | @changed _ old _ mem id same params bindings =>
      have hOld :=
        (h old mem kind (same ▸ hKind)).append [action]
      exact
        { params := params ▸ hOld.params
          bindings := bindings ▸ id ▸ hOld.bindings
          defined := bindings ▸ hOld.defined }

/- So does every run. -/
theorem names_runWith
    (catalog : Catalog)
    (actions : List Action) :
    (initial.runWith catalog actions).Names actions := by
  induction actions using List.reverseRecOn with
  | nil => exact names_initial
  | append_singleton actions action ih =>
      rw [runWith, List.foldl_append]
      exact ih.performWith catalog action

end Graph

end FractalShader

------------------------------------------------------------
-- Slots Under Names
------------------------------------------------------------

namespace FractalShader

/- A slot under a name that is not declared has no effect. -/
theorem Fragment.ofPipeline_release
    {stage : Stage}
    {kind : Kind}
    (hKind : Catalog.builtIn.find? stage.kind = some kind)
    {name : String}
    (hOther : name ∉ kind.names)
    (settings : Settings)
    (before after : Pipeline) :
    ofPipeline .builtIn settings
        (before ++ stage.release name :: after) =
      ofPipeline .builtIn settings
        (before ++ stage :: after) := by
  have hInputs :
      name ∉
        (Catalog.builtIn.inputs stage.kind).map Input.id := by
    rw [Catalog.inputs_eq hKind]
    exact hOther
  rw [ofPipeline, ofPipeline,
    Program.ofPipeline_release hInputs]

namespace Graph

variable {g : Graph} {node : Node} {kind : Kind}

/-
  After any actions, a node of a known kind stores values
  under the declared inputs, all of them and no others, and
  slots under declared inputs or where an action has asked
  for another name.  Without a slot the structure is another
  one, wherever the node stands in a pipeline.  The fragment
  is another one, too, when the input is declared and the
  node is enabled; it is the same for any other name.
-/
theorem names_inputs
    {catalog : Catalog}
    {actions : List Action}
    (hRun : initial.runWith catalog actions = g)
    (hNode : node ∈ g.nodes)
    (hKind : Catalog.builtIn.find? node.kind = some kind) :
    node.Names kind actions ∧
      ∀ name ∈ Dict.keys node.bindings,
        ∀ stage : Stage,
          stage.toOperation = node.toOperation →
            ∀ before after,
              Pipeline.sameStructure
                  (before ++ stage.release name :: after)
                  (before ++ stage :: after) =
                false ∧
              (name ∉ kind.names →
                ∀ settings,
                  Fragment.ofPipeline .builtIn settings
                      (before ++
                        stage.release name :: after) =
                    Fragment.ofPipeline .builtIn settings
                      (before ++ stage :: after)) ∧
              (name ∈ kind.names →
                node.enabled = true →
                  (∀ inline program released,
                    Program.ofPipeline .builtIn inline
                        (before ++ stage :: after) =
                      .ok program →
                    Program.ofPipeline .builtIn inline
                        (before ++
                          stage.release name :: after) =
                      .ok released →
                    released.references ≠
                      program.references) ∧
                  ∀ settings fragment released,
                    settings.inlineLiterals = false →
                    Fragment.ofPipeline .builtIn settings
                        (before ++ stage :: after) =
                      .ok fragment →
                    Fragment.ofPipeline .builtIn settings
                        (before ++
                          stage.release name :: after) =
                      .ok released →
                    released.declarations ≠
                      fragment.declarations) := by
  have hNames : node.Names kind actions := by
    subst hRun
    exact names_runWith catalog actions node hNode kind hKind
  refine ⟨hNames, ?_⟩
  intro name hName stage hStage before after
  have hSlot :
      Bindings.slot? stage.bindings name ≠ none := by
    rw [hStage]
    exact hNames.defined name hName
  have hKnown :
      Catalog.builtIn.find? stage.kind = some kind := by
    rw [hStage]
    exact hKind
  refine
    ⟨Pipeline.sameStructure_release hSlot before after, ?_,
      ?_⟩
  · intro hOther settings
    exact
      Fragment.ofPipeline_release hKnown hOther settings before
        after
  · intro hDeclared hOn
    have hEnabled : stage.enabled = true := by
      rw [hStage]
      exact hOn
    rcases List.mem_map.mp hDeclared with ⟨input, hMem, rfl⟩
    have hInput :
        input ∈ Catalog.builtIn.inputs stage.kind := by
      rw [Catalog.inputs_eq hKnown]
      exact hMem
    constructor
    · intro inline program released hProgram hReleased
      exact
        Program.references_release hInput hEnabled hSlot
          hProgram hReleased
    · intro settings fragment released hInline hFragment
        hReleased
      exact
        Fragment.declarations_release hInline hInput hEnabled
          hSlot hFragment hReleased

/-
  Actions that ask for slots under two names, of which only
  one is that of an input, and for a value under the other.
-/
def haunted : List Action :=
  [.addNode "n" "scale",
    .setBinding "n" "ghost" (some .a),
    .toggleBinding "n" "scale",
    .setParam "n" "ghost" (.ofInt 1)]

/- The node that they leave. -/
def hauntedNode : Node where
  id := "n"
  kind := "scale"
  params := .ofList [("scale", .ofInt 2)]
  bindings := .ofList [("ghost", some .a), ("scale", some .a)]

theorem names_inputs_haunted :
    hauntedNode ∈ (initial.runWith .builtIn haunted).nodes ∧
      ∃ kind,
        Catalog.builtIn.find? hauntedNode.kind = some kind ∧
          hauntedNode.Names kind haunted := by
  have hNode :
      hauntedNode ∈
        (initial.runWith .builtIn haunted).nodes := by
    decide +kernel
  have hKnown :
      (Catalog.builtIn.find? hauntedNode.kind).isSome =
        true := by
    decide +kernel
  rcases Option.isSome_iff_exists.mp hKnown with ⟨kind, hKind⟩
  exact
    ⟨hNode, kind, hKind, (names_inputs rfl hNode hKind).1⟩

/-
  A slot is stored under a name that no input has.  Without
  it the structure is another one, and the fragment is not.
-/
theorem names_others :
    hauntedNode ∈ (initial.runWith .builtIn haunted).nodes ∧
      "ghost" ∈ Dict.keys hauntedNode.bindings ∧
      ∃ kind,
        Catalog.builtIn.find? hauntedNode.kind = some kind ∧
          "ghost" ∉ kind.names ∧
          ∀ sources settings,
            let stage : Stage :=
              { hauntedNode with sources := sources }
            Pipeline.sameStructure [stage.release "ghost"]
                [stage] =
              false ∧
            Fragment.ofPipeline .builtIn settings
                [stage.release "ghost"] =
              Fragment.ofPipeline .builtIn settings
                [stage] := by
  have hKnown :
      (Catalog.builtIn.find? hauntedNode.kind).isSome =
        true := by
    decide +kernel
  rcases Option.isSome_iff_exists.mp hKnown with ⟨kind, hKind⟩
  have hOther :
      (Catalog.builtIn.find? hauntedNode.kind).all
          (fun kind => !kind.names.contains "ghost") =
        true := by
    decide +kernel
  have hUndeclared : "ghost" ∉ kind.names := by
    rw [hKind] at hOther
    simpa using hOther
  refine
    ⟨by decide +kernel, by decide +kernel, kind, hKind,
      hUndeclared, ?_⟩
  intro sources settings stage
  have hSlot :
      Bindings.slot? stage.bindings "ghost" ≠ none := by
    change Bindings.slot? hauntedNode.bindings "ghost" ≠ none
    decide +kernel
  have hSame : stage.kind = hauntedNode.kind := rfl
  exact
    ⟨Pipeline.sameStructure_release hSlot [] [],
      Fragment.ofPipeline_release (hSame ▸ hKind) hUndeclared
        settings [] []⟩

end Graph

end FractalShader
