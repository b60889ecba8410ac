import FractalShader.Proofs.Catalog.Limits

/-
  What nodes store follows the history of edits.

  A taken edit adds a node with initial values, or stores
  one value, or leaves what is stored.  So every input holds
  the value to which it was set last since its node was
  added, or its initial value.

  Main declarations:
    * `Graph.setParam_ok`
    * `Edit.Changes`
    * `Graph.changes_of_apply`
    * `Taken`
    * `LastSet`
    * `lastSet?_eq_some_iff`
    * `Graph.Written`
    * `Graph.written_apply`
    * `Graph.Stores`
    * `Graph.Stores.apply`
-/

------------------------------------------------------------
-- Answers
------------------------------------------------------------

namespace FractalShader

namespace Graph

variable {g : Graph} {id : String}

/- What it takes for a change of a node to be taken. -/
theorem adjust_ok
    {change : Node → Node}
    {answer : Unit}
    (h : (g.adjust id change).1 = .ok answer) :
    ∃ old,
      g.editable id = .ok old ∧
        (g.adjust id change).2 = g.modify id change := by
  unfold Graph.adjust at h ⊢
  split at h
  · cases h
  · rename_i old hEditable
    exact ⟨old, hEditable, rfl⟩

theorem toggleBinding_ok
    {input : String}
    {answer : Option Slot}
    (h : (g.toggleBinding id input).1 = .ok answer) :
    ∃ old,
      g.editable id = .ok old ∧
        (g.toggleBinding id input).2 =
          g.modify id fun n =>
            { n with
              bindings :=
                Bindings.toggle old.bindings input } := by
  unfold Graph.toggleBinding at h ⊢
  split at h
  · cases h
  · rename_i old hEditable
    exact ⟨old, hEditable, rfl⟩

theorem setParam_ok
    {input : String}
    {value stored : F32}
    (h : (g.setParam id input value).1 = .ok stored) :
    value.isFinite = true ∧
      ∃ old,
        g.editable id = .ok old ∧
          storable old input value = .ok stored ∧
          (g.setParam id input value).2 =
            g.modify id fun n =>
              { n with
                params := n.params.insert input stored } := by
  unfold Graph.setParam at h ⊢
  split at h
  · cases h
  · rename_i hFinite
    rw [if_neg hFinite]
    split at h
    · cases h
    · rename_i old hEditable
      split at h
      · cases h
      · rename_i accepted hStored
        cases h
        exact
          ⟨by simpa using hFinite, old, hEditable, hStored,
            rfl⟩

theorem setGuard_ok
    {guard : Option Guard}
    {answer : Unit}
    (h : (g.setGuard id guard).1 = .ok answer) :
    ∃ old,
      g.editable id = .ok old ∧
        (g.setGuard id guard).2 =
          g.modify id fun n => { n with guard := guard } := by
  unfold Graph.setGuard at h ⊢
  split at h
  · cases h
  · exact adjust_ok h

theorem setPosition_ok
    {position : Position}
    {answer : Unit}
    (h : (g.setPosition id position).1 = .ok answer) :
    (g.setPosition id position).2 =
      g.modify id fun n =>
        { n with position := some position } := by
  unfold Graph.setPosition at h ⊢
  split at h
  · rename_i hNode
    rw [if_pos hNode]
  · cases h

theorem plain_ok
    {α : Type}
    {supply : Supply}
    {result : Except Refusal α × Graph}
    {created : Option String}
    (h : (Change.plain supply result).answer = .ok created) :
    ∃ answer, result.1 = .ok answer := by
  rcases result with ⟨answer, after⟩
  cases answer with
  | error why => cases h
  | ok a => exact ⟨a, rfl⟩

theorem addNode_ok
    {kind : String}
    {answer : Unit}
    (h : (g.addNode id kind).1 = .ok answer) :
    isSentinel id = false ∧
      id ∉ g.ids ∧
      (g.addNode id kind).2.nodes =
        g.nodes ++ [freshNode id kind] := by
  unfold Graph.addNode at h ⊢
  split at h
  · cases h
  · rename_i hReal
    rw [if_neg hReal]
    split at h
    · cases h
    · rename_i hAbsent
      rw [if_neg hAbsent]
      rw [hasNode_iff] at hAbsent
      exact ⟨by simpa using hReal, hAbsent, rfl⟩

/- The answer of a change that creates an id. -/
theorem creating_ok
    {supply : Supply}
    {result : Except Refusal Unit × Graph}
    {created : Option String}
    (h :
      (Change.creating id supply result).answer = .ok created) :
    result.1 = .ok () ∧ created = some id := by
  rcases result with ⟨answer, after⟩
  cases answer with
  | error why => cases h
  | ok a =>
      cases h
      exact ⟨rfl, rfl⟩

/- No run gives an id to a second node. -/
theorem nodup_ids_performAll
    (hNodup : g.ids.Nodup)
    (actions : List Action) :
    (g.performAll actions).ids.Nodup := by
  induction actions generalizing g with
  | nil => exact hNodup
  | cons action actions ih =>
      apply ih
      rw [← performWith_builtIn]
      exact
        (effect_performWith .builtIn g action).nodup_ids hNodup

end Graph

end FractalShader

------------------------------------------------------------
-- Edits in Place
------------------------------------------------------------

namespace FractalShader

namespace Edit

/- The node whose operation an edit changes. -/
def node? : Edit → Option String
  | .setParam node _ _ => some node
  | .toggleBinding node _ => some node
  | .setBinding node _ _ => some node
  | .setGuard node _ => some node
  | .setEnabled node _ => some node
  | _ => none

/- The node that an edit changes in place. -/
def subject? : Edit → Option String
  | .moveNode node _ => some node
  | edit => edit.node?

theorem subject?_of_node?
    {edit : Edit}
    {id : String}
    (h : edit.node? = some id) :
    edit.subject? = some id := by
  cases edit with
  | moveNode => cases h
  | _ => exact h

/- What an edit does to the node with an id. -/
inductive Changes
    (g : Graph)
    (id : String) : Edit → (Node → Node) → Prop where
  | setParam
      {input : String}
      {value stored : F32}
      {old : Node}
      (editable : g.editable id = .ok old)
      (accepted : Graph.storable old input value = .ok stored) :
      Changes g id (.setParam id input value) fun n =>
        { n with params := n.params.insert input stored }
  | toggleBinding
      {input : String}
      {old : Node}
      (editable : g.editable id = .ok old) :
      Changes g id (.toggleBinding id input) fun n =>
        { n with
          bindings := Bindings.toggle old.bindings input }
  | setBinding
      {input : String}
      {slot : Option Slot}
      {old : Node}
      (editable : g.editable id = .ok old) :
      Changes g id (.setBinding id input slot) fun n =>
        { n with
          bindings := Bindings.assign n.bindings input slot }
  | setGuard
      {guard : Option Guard}
      {old : Node}
      (editable : g.editable id = .ok old) :
      Changes g id (.setGuard id guard) fun n =>
        { n with guard := guard }
  | setEnabled
      {enabled : Bool}
      {old : Node}
      (editable : g.editable id = .ok old) :
      Changes g id (.setEnabled id enabled) fun n =>
        { n with enabled := enabled }
  | moveNode
      {position : Position} :
      Changes g id (.moveNode id position) fun n =>
        { n with position := some position }

/- No node is given another id. -/
theorem Changes.id_eq
    {g : Graph}
    {id : String}
    {edit : Edit}
    {change : Node → Node}
    (h : edit.Changes g id change)
    (n : Node) :
    (change n).id = n.id := by
  cases h <;> rfl

end Edit

/- An edit in place, when it is taken, changes its node. -/
theorem Graph.changes_of_apply
    {g : Graph}
    {supply : Supply}
    {edit : Edit}
    {id : String}
    (hSubject : edit.subject? = some id)
    {created : Option String}
    (hTaken : (g.apply supply edit).answer = .ok created) :
    ∃ change,
      edit.Changes g id change ∧
        (g.apply supply edit).graph = g.modify id change := by
  cases edit with
  | addNode | removeNode | connect | disconnect =>
      cases hSubject
  | setParam node input value =>
      cases hSubject
      rcases plain_ok hTaken with ⟨stored, hAnswer⟩
      rcases setParam_ok hAnswer with
        ⟨_, old, hEditable, hStored, hAfter⟩
      exact ⟨_, .setParam hEditable hStored, hAfter⟩
  | toggleBinding node input =>
      cases hSubject
      rcases plain_ok hTaken with ⟨answer, hAnswer⟩
      rcases toggleBinding_ok hAnswer with
        ⟨old, hEditable, hAfter⟩
      exact ⟨_, .toggleBinding hEditable, hAfter⟩
  | setBinding node input slot =>
      cases hSubject
      rcases plain_ok hTaken with ⟨answer, hAnswer⟩
      rcases adjust_ok hAnswer with ⟨old, hEditable, hAfter⟩
      exact ⟨_, .setBinding hEditable, hAfter⟩
  | setGuard node guard =>
      cases hSubject
      rcases plain_ok hTaken with ⟨answer, hAnswer⟩
      rcases setGuard_ok hAnswer with ⟨old, hEditable, hAfter⟩
      exact ⟨_, .setGuard hEditable, hAfter⟩
  | setEnabled node enabled =>
      cases hSubject
      rcases plain_ok hTaken with ⟨answer, hAnswer⟩
      rcases adjust_ok hAnswer with ⟨old, hEditable, hAfter⟩
      exact ⟨_, .setEnabled hEditable, hAfter⟩
  | moveNode node position =>
      cases hSubject
      rcases plain_ok hTaken with ⟨answer, hAnswer⟩
      exact ⟨_, .moveNode, setPosition_ok hAnswer⟩

end FractalShader

------------------------------------------------------------
-- Histories
------------------------------------------------------------

namespace FractalShader

/- An edit that was taken, with the id that it created. -/
structure Taken where
  edit : Edit
  created : Option String

namespace Taken

/- What was asked of an input last, after one more edit. -/
def after
    (node input : String)
    (asked : Option F32)
    (taken : Taken) : Option F32 :=
  match taken.edit with
  | .setParam id name value =>
      if id = node ∧ name = input then some value else asked
  | .addNode _ _ =>
      if taken.created = some node then none else asked
  | _ => asked

theorem after_setParam
    (node input : String)
    (asked : Option F32)
    (id name : String)
    (value : F32)
    (created : Option String) :
    after node input asked ⟨.setParam id name value, created⟩ =
      if id = node ∧ name = input then
        some value
      else
        asked := rfl

theorem after_addNode
    (node input : String)
    (asked : Option F32)
    (id : Option String)
    (kind : String)
    (created : Option String) :
    after node input asked ⟨.addNode id kind, created⟩ =
      if created = some node then none else asked := rfl

/- An edit sets an input of a node. -/
def Sets
    (taken : Taken)
    (node input : String)
    (value : F32) : Prop :=
  taken.edit = .setParam node input value

/- An edit adds a node. -/
def Adds
    (taken : Taken)
    (node : String) : Prop :=
  taken.created = some node ∧
    ∃ id kind, taken.edit = .addNode id kind

/- An edit sets the input, or adds the node, or neither. -/
theorem after_cases
    (taken : Taken)
    (node input : String) :
    (∃ value,
      taken.Sets node input value ∧
        ∀ asked,
          taken.after node input asked = some value) ∨
      (taken.Adds node ∧
        ∀ asked, taken.after node input asked = none) ∨
      (¬ taken.Adds node ∧
        (∀ value, ¬ taken.Sets node input value) ∧
        ∀ asked, taken.after node input asked = asked) := by
  rcases taken with ⟨edit, created⟩
  cases edit with
  | setParam id name value =>
      by_cases hSame : id = node ∧ name = input
      · rcases hSame with ⟨rfl, rfl⟩
        exact
          Or.inl ⟨value, rfl, fun asked => if_pos ⟨rfl, rfl⟩⟩
      · refine Or.inr (Or.inr ⟨?_, ?_, ?_⟩)
        · rintro ⟨_, _, _, hEdit⟩
          cases hEdit
        · intro other hSets
          cases hSets
          exact hSame ⟨rfl, rfl⟩
        · exact fun asked => if_neg hSame
  | addNode id kind =>
      by_cases hSame : created = some node
      · exact
          Or.inr
            (Or.inl
              ⟨⟨hSame, id, kind, rfl⟩,
                fun asked => if_pos hSame⟩)
      · refine Or.inr (Or.inr ⟨?_, ?_, ?_⟩)
        · exact fun hAdds => hSame hAdds.1
        · intro other hSets
          cases hSets
        · exact fun asked => if_neg hSame
  | _ =>
      refine Or.inr (Or.inr ⟨?_, ?_, fun _ => rfl⟩)
      · rintro ⟨_, _, _, hEdit⟩
        cases hEdit
      · intro other hSets
        cases hSets

end Taken

/-
  An input of a node was set to a value, and nothing later
  sets it again or adds the node.
-/
def LastSet
    (node input : String)
    (history : List Taken)
    (value : F32) : Prop :=
  ∃ before taken after,
    history = before ++ taken :: after ∧
      taken.Sets node input value ∧
      ∀ later ∈ after,
        ¬ later.Adds node ∧
          ∀ other, ¬ later.Sets node input other

/- What is set last is set by the last edit or before it. -/
theorem lastSet_append_singleton_iff
    {node input : String}
    {history : List Taken}
    {last : Taken}
    {value : F32} :
    LastSet node input (history ++ [last]) value ↔
      last.Sets node input value ∨
        (¬ last.Adds node ∧
          (∀ other, ¬ last.Sets node input other) ∧
          LastSet node input history value) := by
  constructor
  · rintro ⟨before, taken, after, hEq, hSets, hLater⟩
    rcases List.eq_nil_or_concat' after with
      rfl | ⟨rest, final, rfl⟩
    · have hLast := List.append_inj_right' hEq rfl
      cases hLast
      exact Or.inl hSets
    · have hAssoc :
          history ++ [last] =
            (before ++ taken :: rest) ++ [final] := by
        simpa using hEq
      have hHistory := List.append_inj_left' hAssoc rfl
      have hFinal := List.append_inj_right' hAssoc rfl
      cases hFinal
      rcases hLater last (by simp) with ⟨hAdds, hNone⟩
      refine
        Or.inr
          ⟨hAdds, hNone, before, taken, rest, hHistory, hSets,
            ?_⟩
      intro later hMem
      exact hLater later (List.mem_append_left _ hMem)
  · rintro (hSets | ⟨hAdds, hNone, hBefore⟩)
    · exact ⟨history, last, [], rfl, hSets, by simp⟩
    · rcases hBefore with
        ⟨before, taken, after, hEq, hSets, hLater⟩
      refine
        ⟨before, taken, after ++ [last], by simp [hEq], hSets,
          ?_⟩
      intro later hMem
      rcases List.mem_append.mp hMem with hOld | hNew
      · exact hLater later hOld
      · cases List.mem_singleton.mp hNew
        exact ⟨hAdds, hNone⟩

/- The value to which an input was set last, if it was. -/
def lastSet?
    (node input : String)
    (history : List Taken) : Option F32 :=
  history.foldl (Taken.after node input) none

@[simp] theorem lastSet?_append_singleton
    (node input : String)
    (history : List Taken)
    (taken : Taken) :
    lastSet? node input (history ++ [taken]) =
      taken.after node input
        (lastSet? node input history) := by
  simp [lastSet?]

theorem lastSet?_eq_some_iff
    {node input : String}
    {history : List Taken}
    {value : F32} :
    lastSet? node input history = some value ↔
      LastSet node input history value := by
  induction history using List.reverseRecOn with
  | nil => simp [lastSet?, LastSet]
  | append_singleton history last ih =>
      rw [lastSet?_append_singleton,
        lastSet_append_singleton_iff, ← ih]
      rcases last.after_cases node input with
        ⟨found, hSets, hAfter⟩ | ⟨hAdds, hAfter⟩ |
          ⟨hAdds, hNone, hAfter⟩
      · rw [hAfter]
        constructor
        · intro hEq
          cases hEq
          exact Or.inl hSets
        · rintro (hAgain | ⟨_, hNone, _⟩)
          · unfold Taken.Sets at hSets hAgain
            rw [hSets] at hAgain
            cases hAgain
            rfl
          · exact absurd hSets (hNone found)
      · rw [hAfter]
        constructor
        · intro hEq
          cases hEq
        · rintro (hSets | ⟨hNot, _⟩)
          · rcases hAdds with ⟨_, _, _, hEdit⟩
            unfold Taken.Sets at hSets
            rw [hEdit] at hSets
            cases hSets
          · exact absurd hAdds hNot
      · rw [hAfter]
        constructor
        · exact fun hLast => Or.inr ⟨hAdds, hNone, hLast⟩
        · rintro (hSets | ⟨_, _, hLast⟩)
          · exact absurd hSets (hNone value)
          · exact hLast

end FractalShader

------------------------------------------------------------
-- Writes
------------------------------------------------------------

namespace FractalShader

namespace Graph

/-
  All that a taken edit does to what nodes store: it adds a
  node with initial values, or stores one value, or leaves
  the values that the nodes have.
-/
inductive Written
    (g : Graph) : Taken → Graph → Prop where
  | added
      {h : Graph}
      {asked : Option String}
      (id kind : String)
      (absent : id ∉ g.ids)
      (real : isSentinel id = false)
      (nodes : h.nodes = g.nodes ++ [freshNode id kind]) :
      Written g ⟨.addNode asked kind, some id⟩ h
  | stored
      {h : Graph}
      {created : Option String}
      (node input : String)
      (value stored : F32)
      (old : Node)
      (found : g.node? node = some old)
      (accepted : storable old input value = .ok stored)
      (nodes :
        h.nodes =
          g.nodes.map fun n =>
            if n.id = node then
              { n with
                params := n.params.insert input stored }
            else
              n) :
      Written g ⟨.setParam node input value, created⟩ h
  | kept
      {h : Graph}
      {taken : Taken}
      (quiet :
        ∀ node input asked,
          taken.after node input asked = asked)
      (nodes :
        ∀ node ∈ h.nodes, ∃ old ∈ g.nodes,
          node.id = old.id ∧ node.kind = old.kind ∧
            node.params = old.params) :
      Written g taken h

variable {g : Graph}

/- A change in place that keeps what is stored. -/
theorem kept_modify
    (hNodup : g.ids.Nodup)
    (id : String)
    {change : Node → Node}
    (hChange :
      ∀ n,
        (change n).id = n.id ∧ (change n).kind = n.kind ∧
          (change n).params = n.params) :
    ∀ node ∈ (g.modify id change).nodes, ∃ old ∈ g.nodes,
      node.id = old.id ∧ node.kind = old.kind ∧
        node.params = old.params := by
  intro node hNode
  have hNodes :
      (g.modify id change).nodes =
        g.nodes.map fun n =>
          if n.id = id then change n else n :=
    modifyFirst_eq_map id change hNodup
  rw [hNodes] at hNode
  rcases List.mem_map.mp hNode with ⟨old, hOld, rfl⟩
  refine ⟨old, hOld, ?_⟩
  split
  · exact hChange old
  · exact ⟨rfl, rfl, rfl⟩

/- Removing, connecting and disconnecting keep values. -/
theorem nodes_removeNode
    (g : Graph)
    (id : String) :
    ∀ node ∈ (g.removeNode id).2.nodes, node ∈ g.nodes := by
  intro node hNode
  unfold Graph.removeNode at hNode
  split at hNode
  · exact hNode
  · split at hNode
    · exact hNode
    · exact List.mem_of_mem_eraseP hNode

theorem nodes_connect
    (g : Graph)
    (catalog : Catalog)
    (id source target : String)
    (port : Option Port) :
    (g.connect catalog id source target port).2.nodes =
      g.nodes := by
  unfold Graph.connect
  split <;> rfl

theorem nodes_disconnect
    (g : Graph)
    (id : String) :
    (g.disconnect id).2.nodes = g.nodes := by
  unfold Graph.disconnect
  split <;> rfl

/- Every edit that is taken writes in one of these ways. -/
theorem written_apply
    (hNodup : g.ids.Nodup)
    {supply : Supply}
    {edit : Edit}
    {created : Option String}
    (hTaken : (g.apply supply edit).answer = .ok created) :
    g.Written ⟨edit, created⟩ (g.apply supply edit).graph := by
  have hSame :
      ∀ h : Graph, (∀ node ∈ h.nodes, node ∈ g.nodes) →
        ∀ node ∈ h.nodes, ∃ old ∈ g.nodes,
          node.id = old.id ∧ node.kind = old.kind ∧
            node.params = old.params :=
    fun h hSub node hNode =>
      ⟨node, hSub node hNode, rfl, rfl, rfl⟩
  cases edit with
  | addNode asked kind =>
      cases asked with
      | none =>
          rcases creating_ok hTaken with ⟨hAnswer, rfl⟩
          rcases addNode_ok hAnswer with
            ⟨hReal, hAbsent, hNodes⟩
          exact .added _ kind hAbsent hReal hNodes
      | some id =>
          rcases creating_ok hTaken with ⟨hAnswer, rfl⟩
          rcases addNode_ok hAnswer with
            ⟨hReal, hAbsent, hNodes⟩
          exact .added _ kind hAbsent hReal hNodes
  | setParam node input value =>
      rcases changes_of_apply rfl hTaken with
        ⟨change, hChanges, hAfter⟩
      rw [hAfter]
      cases hChanges with
      | setParam hEditable hStored =>
          exact
            .stored node input value _ _
              (editable_eq_ok hEditable).2 hStored
              (modifyFirst_eq_map node _ hNodup)
  | removeNode node =>
      exact
        .kept (fun _ _ _ => rfl)
          (hSame _ (g.nodes_removeNode node))
  | connect source target port =>
      refine .kept (fun _ _ _ => rfl) (hSame _ ?_)
      intro node hNode
      rwa [← g.nodes_connect .builtIn supply.edgeId source
        target port]
  | disconnect edge =>
      refine .kept (fun _ _ _ => rfl) (hSame _ ?_)
      intro node hNode
      rwa [← g.nodes_disconnect edge]
  | toggleBinding | setBinding | setGuard | setEnabled
  | moveNode =>
      rcases changes_of_apply rfl hTaken with
        ⟨change, hChanges, hAfter⟩
      rw [hAfter]
      refine .kept (fun _ _ _ => rfl) ?_
      cases hChanges
      exact kept_modify hNodup _ fun _ => ⟨rfl, rfl, rfl⟩

end Graph

end FractalShader

------------------------------------------------------------
-- Stored Values
------------------------------------------------------------

namespace FractalShader

/- The value of an input for which one was asked, or none. -/
def Input.answer
    (input : Input)
    (asked : Option F32) : F32 :=
  (asked.map input.confine).getD input.initial

/- A finite answer is within the limits. -/
theorem Input.within_answer
    {id : String}
    {kind : Kind}
    (hKnown : Catalog.builtIn.find? id = some kind)
    {input : Input}
    (hListed : input ∈ kind.inputs)
    {asked : Option F32}
    (hFinite : (input.answer asked).isFinite = true) :
    input.Within (input.answer asked) := by
  cases asked with
  | some asked =>
      exact
        Input.within_confine
          (Catalog.proper_builtIn id kind hKnown input hListed)
          hFinite
  | none => exact Catalog.within_initial hKnown input hListed

/- The initial values of a new node are stored. -/
theorem Graph.freshNode_get?
    {id kind name : String}
    {input : Input}
    (h : Catalog.builtIn.input? kind name = some input) :
    (freshNode id kind).params.get? name =
      some input.initial := by
  rcases Catalog.builtIn_input? h with
    ⟨known, hKnown, _, hMem, rfl⟩
  have hParams :
      (freshNode id kind).params = known.initialParams := by
    unfold freshNode
    simp only [hKnown]
  have hNodup :
      ((known.inputs.map fun i => (i.id, i.initial)).reverse.map
        Prod.fst).Nodup := by
    rw [List.map_reverse, List.nodup_reverse, List.map_map]
    exact Catalog.distinct_builtIn kind known hKnown
  have hEntry :
      (input.id, input.initial) ∈
        (known.inputs.map fun i =>
          (i.id, i.initial)).reverse := by
    rw [List.mem_reverse]
    exact List.mem_map.mpr ⟨input, hMem, rfl⟩
  have hFound := Answers.find?_eq_some hNodup hEntry
  rw [hParams, Kind.initialParams, Dict.get?_ofList, hFound]
  rfl

namespace Graph

/-
  Nodes of distinct ids store the values that a history
  tells, and the sentinels have no kind of the catalog.
-/
structure Stores
    (g : Graph)
    (history : List Taken) : Prop where
  nodup : g.ids.Nodup
  sentinels :
    ∀ node ∈ g.nodes,
      isSentinel node.id = true → node.kind = node.id
  params :
    ∀ node ∈ g.nodes, ∀ name input,
      Catalog.builtIn.input? node.kind name = some input →
        node.params.get? name =
          some (input.answer (lastSet? node.id name history))

/- A node with an input of the catalog is no sentinel. -/
theorem Stores.real_of_input?
    {g : Graph}
    {history : List Taken}
    (h : g.Stores history)
    {node : Node}
    (hNode : node ∈ g.nodes)
    {name : String}
    {input : Input}
    (hInput :
      Catalog.builtIn.input? node.kind name = some input) :
    isSentinel node.id = false := by
  cases hSentinel : isSentinel node.id with
  | false => rfl
  | true =>
      rw [h.sentinels node hNode hSentinel,
        Catalog.builtIn_input?_sentinel hSentinel] at hInput
      cases hInput

/- Before any edit there are the sentinels only. -/
theorem stores_initial : initial.Stores [] where
  nodup := by decide
  sentinels := by
    intro node hNode _
    simp only [initial, List.mem_cons, List.not_mem_nil,
      or_false] at hNode
    rcases hNode with rfl | rfl <;> rfl
  params := by
    intro node hNode name input hInput
    simp only [initial, List.mem_cons, List.not_mem_nil,
      or_false] at hNode
    have hSentinel : isSentinel node.kind = true := by
      rcases hNode with rfl | rfl <;> decide
    rw [Catalog.builtIn_input?_sentinel hSentinel] at hInput
    cases hInput

variable {g h : Graph} {history : List Taken}

/-
  A value that is accepted for an input which the node of
  its id declares is stored within the limits.
-/
theorem Stores.storable_eq
    (hStores : g.Stores history)
    {id input : String}
    {value stored : F32}
    {old node : Node}
    (hFound : g.node? id = some old)
    (hAccepted : storable old input value = .ok stored)
    (hNode : node ∈ g.nodes)
    (hId : node.id = id)
    {declared : Input}
    (hDeclared :
      Catalog.builtIn.input? node.kind input =
        some declared) :
    stored = declared.confine value := by
  rcases node?_eq_some hFound with ⟨hOld, hOldId⟩
  have hSame : node = old :=
    List.inj_on_of_nodup_map hStores.nodup hNode hOld
      (hId.trans hOldId.symm)
  rcases Catalog.builtIn_input? hDeclared with
    ⟨known, hKnown, hInput, _⟩
  rw [hSame] at hKnown
  unfold storable at hAccepted
  simp only [hKnown, hInput] at hAccepted
  exact (Except.ok.inj hAccepted).symm

/- An edit that is taken keeps sentinels without a kind. -/
theorem Stores.sentinels_written
    (hStores : g.Stores history)
    {taken : Taken}
    (hWritten : g.Written taken h) :
    ∀ node ∈ h.nodes,
      isSentinel node.id = true → node.kind = node.id := by
  intro node hNode hSentinel
  cases hWritten with
  | added id kind absent real nodes =>
      rw [nodes, List.mem_append, List.mem_singleton] at hNode
      rcases hNode with hOld | rfl
      · exact hStores.sentinels node hOld hSentinel
      · have hReal : isSentinel id = true := hSentinel
        rw [real] at hReal
        cases hReal
  | stored id key value stored old found accepted nodes =>
      rw [nodes] at hNode
      rcases List.mem_map.mp hNode with ⟨n, hn, rfl⟩
      revert hSentinel
      split
      · exact hStores.sentinels n hn
      · exact hStores.sentinels n hn
  | kept quiet nodes =>
      rcases nodes node hNode with ⟨old, hOld, hId, hKind, _⟩
      rw [hKind, hId]
      exact hStores.sentinels old hOld (hId ▸ hSentinel)

/- An edit that is taken stores what the longer one tells. -/
theorem Stores.written
    (hStores : g.Stores history)
    {taken : Taken}
    (hWritten : g.Written taken h)
    (hNodup : h.ids.Nodup) :
    h.Stores (history ++ [taken]) := by
  refine ⟨hNodup, hStores.sentinels_written hWritten, ?_⟩
  intro node hNode name input hInput
  rw [lastSet?_append_singleton]
  cases hWritten with
  | added id kind absent real nodes =>
      rw [Taken.after_addNode]
      rw [nodes, List.mem_append, List.mem_singleton] at hNode
      rcases hNode with hOld | rfl
      · have hOther : ¬ some id = some node.id := by
          intro hSame
          cases hSame
          exact absent (id_mem_ids hOld)
        rw [if_neg hOther]
        exact hStores.params node hOld name input hInput
      · have hSelf :
            some id = some (freshNode id kind).id := rfl
        rw [if_pos hSelf]
        exact freshNode_get? hInput
  | stored id key value stored old found accepted nodes =>
      rw [Taken.after_setParam]
      rw [nodes] at hNode
      rcases List.mem_map.mp hNode with ⟨n, hn, rfl⟩
      by_cases hId : n.id = id
      · rw [if_pos hId] at hInput ⊢
        rw [Dict.get?_insert]
        by_cases hName : name = key
        · subst hName
          rw [if_pos rfl, if_pos ⟨hId.symm, rfl⟩,
            hStores.storable_eq found accepted hn hId hInput]
          rfl
        · have hOther : ¬ (id = n.id ∧ key = name) :=
            fun hSame => hName hSame.2.symm
          rw [if_neg hName, if_neg hOther]
          exact hStores.params n hn name input hInput
      · rw [if_neg hId] at hInput ⊢
        have hOther : ¬ (id = n.id ∧ key = name) :=
          fun hSame => hId hSame.1.symm
        rw [if_neg hOther]
        exact hStores.params n hn name input hInput
  | kept quiet nodes =>
      rcases nodes node hNode with
        ⟨old, hOld, hId, hKind, hParams⟩
      rw [quiet, hParams, hId]
      exact hStores.params old hOld name input (hKind ▸ hInput)

/- An edit that is refused adds nothing to the history. -/
theorem Stores.apply
    (hStores : g.Stores history)
    {supply : Supply}
    {edit : Edit}
    {created : Option String}
    (hTaken : (g.apply supply edit).answer = .ok created) :
    (g.apply supply edit).graph.Stores
      (history ++ [⟨edit, created⟩]) := by
  refine hStores.written (written_apply hStores.nodup hTaken) ?_
  rw [apply_graph]
  exact nodup_ids_performAll hStores.nodup [_]

end Graph

end FractalShader
