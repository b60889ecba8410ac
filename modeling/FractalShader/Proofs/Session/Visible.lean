import FractalShader.Proofs.Graph.Stored
import FractalShader.Proofs.Session.Rejections

/-
  How edits show in the pipeline of a session.

  An edit changes the first node with an id, and the stage
  of an id is made from the last one.  Both are the same
  node unless a graph was given with two nodes of one id;
  edits never add a second one.

  Main declarations:
    * `Graph.last?`
    * `Session.Shows`
    * `Session.Ordered.shows_last`
    * `Edit.AsksOf`
    * `Graph.node?_apply`
    * `Session.shows_edits`
    * `Session.hides_edit`
-/

------------------------------------------------------------
-- First and Last Nodes
------------------------------------------------------------

namespace FractalShader

namespace Graph

/- The last node with an id. -/
def last?
    (g : Graph)
    (id : String) : Option Node :=
  g.nodes.reverse.find? (fun node => node.id == id)

variable {g : Graph}

/- The operation under an id is that of the last node. -/
theorem operations_get?_eq_last?
    {id : String}
    (hReal : isSentinel id = false) :
    g.operations.get? id = g.last? id := by
  have hTest :
      (fun node : Node =>
          decide
            ((!isSentinel node.id) = true ∧
              (node.id == id) = true)) =
        fun node => node.id == id := by
    funext node
    by_cases hId : node.id = id
    · simp [hId, hReal]
    · simp [hId]
  rw [operations, Dict.get?_ofList, ← List.map_reverse,
    List.find?_map, realNodes, ← List.filter_reverse,
    last?]
  simp only [Function.comp_def]
  rw [List.find?_filter, hTest, Option.map_map]
  exact Option.map_id'

/- A node that is found first is the last one of no two. -/
theorem last?_eq_node?
    (hNodup : g.ids.Nodup)
    {id : String}
    {node : Node}
    (h : g.node? id = some node) :
    g.last? id = some node := by
  rcases node?_eq_some h with ⟨hMem, rfl⟩
  have hReverse : (g.nodes.reverse.map (·.id)).Nodup := by
    rw [List.map_reverse, List.nodup_reverse]
    exact hNodup
  exact
    Answers.find?_eq_some hReverse (List.mem_reverse.mpr hMem)

theorem exists_last?
    {id : String}
    {node : Node}
    (h : g.node? id = some node) :
    ∃ last, g.last? id = some last := by
  apply Option.isSome_iff_exists.mp
  rcases node?_eq_some h with ⟨hMem, hId⟩
  exact
    List.find?_isSome.mpr
      ⟨node, List.mem_reverse.mpr hMem, by simpa using hId⟩

end Graph

end FractalShader

------------------------------------------------------------
-- Stages of Nodes
------------------------------------------------------------

namespace FractalShader

/- Of distinct ids one stage has a given one. -/
theorem Pipeline.filter_eq_singleton
    {p : Pipeline}
    (hNodup : p.ids.Nodup)
    {stage : Stage}
    (h : stage ∈ p) :
    p.filter (fun t => t.id == stage.id) = [stage] := by
  induction p with
  | nil => cases h
  | cons first rest ih =>
      rcases List.nodup_cons.mp hNodup with ⟨hFirst, hRest⟩
      rcases List.mem_cons.mp h with rfl | hLater
      · have hNone :
            rest.filter (fun t => t.id == stage.id) = [] := by
          apply List.filter_eq_nil_iff.mpr
          intro other hOther hSame
          exact
            hFirst
              (List.mem_map.mpr
                ⟨other, hOther, beq_iff_eq.mp hSame⟩)
        rw [List.filter_cons, if_pos (beq_self_eq_true _),
          hNone]
      · have hNe : ¬ first.id = stage.id := by
          intro hSame
          exact
            hFirst
              (List.mem_map.mpr ⟨stage, hLater, hSame.symm⟩)
        rw [List.filter_cons, if_neg (by simpa using hNe)]
        exact ih hRest hLater

namespace Session

/- One stage has the id, with this operation. -/
def Shows
    (s : Session)
    (id : String)
    (operation : Operation) : Prop :=
  ∃ stage,
    s.pipeline.filter (fun t => t.id == id) = [stage] ∧
      stage.toOperation = operation

variable {s : Session} {id : String}

theorem Shows.unique
    {first second : Operation}
    (hFirst : s.Shows id first)
    (hSecond : s.Shows id second) :
    first = second := by
  rcases hFirst with ⟨stage, hStage, rfl⟩
  rcases hSecond with ⟨other, hOther, rfl⟩
  rw [hStage] at hOther
  rw [(List.cons.inj hOther).1]

/- The stage of an id is made from the last node with it. -/
theorem Ordered.shows_last
    (h : s.Ordered)
    (hReal : isSentinel id = false)
    {last : Node}
    (hLast : s.graph.last? id = some last) :
    s.Shows id last.toOperation := by
  have hOrders := Pipeline.orders_of_ofGraph h.pipeline
  have hFound :=
    (Graph.operations_get?_eq_last? hReal).trans hLast
  have hContains : s.graph.operations.contains id = true :=
    Option.isSome_iff_exists.mpr ⟨last, hFound⟩
  have hMem : id ∈ s.pipeline.ids :=
    (hOrders.mem_iff id).mpr
      ((s.graph.operations_contains_iff id).mp hContains)
  rcases List.mem_map.mp hMem with ⟨stage, hStage, rfl⟩
  refine
    ⟨stage,
      Pipeline.filter_eq_singleton hOrders.nodup hStage, ?_⟩
  rw [(Pipeline.ofGraph_eq_ok h.pipeline).2] at hStage
  rcases Pipeline.operation_of_stages hStage with
    ⟨node, hNode, hOperation⟩
  rw [hFound] at hNode
  rw [hOperation, Option.some.inj hNode]

/- No other operation is shown than that of the last node. -/
theorem Ordered.shows_iff
    (h : s.Ordered)
    (hReal : isSentinel id = false)
    {last : Node}
    (hLast : s.graph.last? id = some last)
    (operation : Operation) :
    s.Shows id operation ↔ last.toOperation = operation := by
  have hShows := h.shows_last hReal hLast
  constructor
  · exact hShows.unique
  · rintro rfl
    exact hShows

/- With distinct ids the node that is found is shown. -/
theorem Ordered.shows_node?
    (h : s.Ordered)
    (hNodup : s.graph.ids.Nodup)
    (hReal : isSentinel id = false)
    {node : Node}
    (hNode : s.graph.node? id = some node) :
    s.Shows id node.toOperation :=
  h.shows_last hReal (Graph.last?_eq_node? hNodup hNode)

end Session

end FractalShader

------------------------------------------------------------
-- Edits of One Node
------------------------------------------------------------

namespace FractalShader

namespace Edit

/- What an edit asks of the operation of a node. -/
def AsksOf
    (old : Node)
    (operation : Operation) : Edit → Prop
  | .setParam _ input value =>
      ∃ stored,
        Graph.storable old input value = .ok stored ∧
          operation.params.get? input = some stored
  | .toggleBinding _ input =>
      Bindings.slot? operation.bindings input =
        Slot.afterToggle (Bindings.slot? old.bindings input)
  | .setBinding _ input slot =>
      Bindings.slot? operation.bindings input = slot
  | .setGuard _ guard => operation.guard = guard
  | .setEnabled _ enabled => operation.enabled = enabled
  | _ => True

end Edit

namespace Graph

variable {g : Graph} {id : String}

/- The node that is changed is found in its place. -/
theorem node?_modify
    {change : Node → Node}
    (hId : ∀ n, (change n).id = n.id)
    {node : Node}
    (h : g.node? id = some node) :
    (g.modify id change).node? id = some (change node) := by
  have hNodes :
      ∀ nodes : List Node,
        nodes.find? (fun n => n.id == id) = some node →
          (modifyFirst id change nodes).find?
              (fun n => n.id == id) =
            some (change node) := by
    intro nodes hFound
    induction nodes with
    | nil => cases hFound
    | cons first rest ih =>
        rw [modifyFirst]
        by_cases hFirst : first.id = id
        · simp only [List.find?_cons, hFirst,
            beq_self_eq_true] at hFound
          cases hFound
          simp [hFirst, hId]
        · simp only [List.find?_cons,
            beq_eq_false_iff_ne.mpr hFirst] at hFound
          simp [hFirst, ih hFound]
  exact hNodes g.nodes h

/- A node that is changed is no sentinel and is found again. -/
theorem node?_editable
    {after : Graph}
    {old : Node}
    (hEditable : g.editable id = .ok old)
    {change : Node → Node}
    (hAfter : after = g.modify id change)
    (hId : ∀ n, (change n).id = n.id)
    {edit : Edit}
    (hAsks : edit.AsksOf old (change old).toOperation) :
    isSentinel id = false ∧
      ∃ old new,
        g.node? id = some old ∧
          after.node? id = some new ∧
          edit.AsksOf old new.toOperation := by
  rcases editable_eq_ok hEditable with ⟨hReal, hOld⟩
  rw [hAfter]
  exact
    ⟨hReal, old, _, hOld, node?_modify hId hOld, hAsks⟩

/- After an edit is taken, its node is as it asked for. -/
theorem node?_apply
    {supply : Supply}
    {edit : Edit}
    (hId : edit.node? = some id)
    {created : Option String}
    (hTaken : (g.apply supply edit).answer = .ok created) :
    isSentinel id = false ∧
      ∃ old new,
        g.node? id = some old ∧
          (g.apply supply edit).graph.node? id = some new ∧
          edit.AsksOf old new.toOperation := by
  rcases changes_of_apply (Edit.subject?_of_node? hId) hTaken
    with ⟨change, hChanges, hAfter⟩
  have hIds := hChanges.id_eq
  cases hChanges with
  | setParam hEditable hStored =>
      refine
        node?_editable hEditable hAfter hIds ⟨_, hStored, ?_⟩
      rw [Dict.get?_insert, if_pos rfl]
  | toggleBinding hEditable | setBinding hEditable =>
      refine node?_editable hEditable hAfter hIds ?_
      exact
        (Bindings.slot?_assign _ _ _ _).trans (if_pos rfl)
  | setGuard hEditable | setEnabled hEditable =>
      exact node?_editable hEditable hAfter hIds rfl
  | moveNode => cases hId

end Graph

end FractalShader

------------------------------------------------------------
-- Sessions
------------------------------------------------------------

namespace FractalShader

namespace Session

/- A session that is loaded starts on a pipeline. -/
theorem started_of_load
    {text : String}
    {settings : Settings}
    {s : Session}
    (h : load text settings = .ok s) :
    s.Started := by
  unfold load at h
  split at h
  · cases h
  · exact .ofPipeline (Answers.mapError_eq_ok_iff.mp h)

/- A run gives no id to a second node. -/
theorem nodup_ids_run
    {s : Session}
    (h : s.graph.ids.Nodup)
    (supply : Supply)
    (commands : List Command) :
    ((Desk.start s supply).run commands).session.graph.ids.Nodup
    := by
  rcases (Desk.start s supply).exists_actions commands with
    ⟨actions, hActions⟩
  rw [hActions]
  exact Graph.nodup_ids_performAll h actions

/- A run stores no value that is neither there nor finite. -/
theorem allValues_run
    {s : Session}
    {Allowed : F32 → Prop}
    (h : s.graph.AllValues Allowed)
    (hFinite : ∀ value, value.isFinite = true → Allowed value)
    (supply : Supply)
    (commands : List Command) :
    ((Desk.start s supply).run
      commands).session.graph.AllValues Allowed := by
  rcases (Desk.start s supply).exists_actions commands with
    ⟨actions, hActions⟩
  rw [hActions, ← Graph.runWith_builtIn]
  exact h.runWith hFinite .builtIn actions

/- Whatever an edit asks of a node is shown once it is taken. -/
theorem Ordered.shows_apply
    {s : Session}
    (h : s.Ordered)
    (hNodup : s.graph.ids.Nodup)
    {supply : Supply}
    {edit : Edit}
    {id : String}
    (hId : edit.node? = some id)
    {outcome : Outcome}
    (hTaken : (s.apply supply edit).1 = .ok outcome) :
    ∃ old new,
      s.graph.node? id = some old ∧
        (s.apply supply edit).2.1.graph.node? id = some new ∧
        edit.AsksOf old new.toOperation ∧
        (s.apply supply edit).2.1.Shows id new.toOperation := by
  cases hAnswer : (s.graph.apply supply edit).answer with
  | error why =>
      rw [apply_refused hAnswer] at hTaken
      cases hTaken
  | ok created =>
      rcases Graph.node?_apply hId hAnswer with
        ⟨hReal, old, new, hOld, hNew, hAsks⟩
      have hGraph := s.apply_graph supply edit
      rw [Graph.apply_graph, ← hGraph] at hNew
      refine ⟨old, new, hOld, hNew, hAsks, ?_⟩
      refine (h.apply supply edit).shows_node? ?_ hReal hNew
      rw [hGraph]
      exact Graph.nodup_ids_performAll hNodup [_]

/-
  From every start, each node without a sentinel's id has
  one stage, with the operation of the last node with this
  id.  That is the node which edits change exactly when the
  two agree, as in every session that starts with distinct
  ids; there each edit that is taken is shown.
-/
theorem shows_edits
    {first s : Session}
    (hFirst :
      first.Started ∨
        ∃ text settings, load text settings = .ok first)
    {supply : Supply}
    {commands : List Command}
    (hRun :
      ((Desk.start first supply).run commands).session = s) :
    (∀ id node,
      isSentinel id = false →
        s.graph.node? id = some node →
          ∃ last,
            s.graph.last? id = some last ∧
              s.Shows id last.toOperation ∧
              (s.Shows id node.toOperation ↔
                last.toOperation = node.toOperation)) ∧
      (first.graph.ids.Nodup →
        (∀ id node,
          isSentinel id = false →
            s.graph.node? id = some node →
              s.Shows id node.toOperation) ∧
          ∀ next edit id outcome,
            edit.node? = some id →
              (s.apply next edit).1 = .ok outcome →
                ∃ old new,
                  s.graph.node? id = some old ∧
                    (s.apply next edit).2.1.graph.node? id =
                      some new ∧
                    edit.AsksOf old new.toOperation ∧
                    (s.apply next edit).2.1.Shows id
                      new.toOperation) := by
  have hStarted : first.Started := by
    rcases hFirst with hStarted | ⟨text, settings, hLoad⟩
    · exact hStarted
    · exact started_of_load hLoad
  have hOrdered : s.Ordered := by
    rw [← hRun]
    exact Desk.ordered_run hStarted.ordered commands
  constructor
  · intro id node hReal hNode
    rcases Graph.exists_last? hNode with ⟨last, hLast⟩
    exact
      ⟨last, hLast, hOrdered.shows_last hReal hLast,
        hOrdered.shows_iff hReal hLast _⟩
  · intro hDistinct
    have hNodup : s.graph.ids.Nodup := by
      rw [← hRun]
      exact nodup_ids_run hDistinct supply commands
    constructor
    · intro id node hReal hNode
      exact hOrdered.shows_node? hNodup hReal hNode
    · intro next edit id outcome hId hTaken
      exact hOrdered.shows_apply hNodup hId hTaken

/- A session that compiles on request, on one node. -/
def scaled : Session :=
  ((Desk.start (.new { mode := .manual }) {}).run
    [.edit (.addNode (some "n") "scale")]).session

/- The session after the node is given another factor. -/
def rescaled : Session :=
  (scaled.apply {} (.setParam "n" "scale" (.ofInt 3))).2.1

theorem shows_edits_scaled :
    (Session.new { mode := .manual }).graph.ids.Nodup ∧
      ∃ old new,
        scaled.graph.node? "n" = some old ∧
          rescaled.graph.node? "n" = some new ∧
          (∃ stored,
            Graph.storable old "scale" (.ofInt 3) =
                .ok stored ∧
              new.params.get? "scale" = some stored) ∧
          rescaled.Shows "n" new.toOperation := by
  have hNodup :
      (Session.new { mode := .manual }).graph.ids.Nodup := by
    decide
  have hTaken :
      (scaled.apply {} (.setParam "n" "scale" (.ofInt 3))).1 =
        .ok { requiresCompile := true } := by
    decide +kernel
  have hShown :=
    shows_edits (s := scaled) (.inl (.new { mode := .manual }))
      rfl
  exact
    ⟨hNodup, (hShown.2 hNodup).2 {} _ "n" _ rfl hTaken⟩

/- Two nodes of one id. -/
def twinGraph : Graph where
  nodes :=
    [{ id := "n", kind := "scale" },
      { id := "n", kind := "scale" }]
  edges := []

/- Its session, which shows the second node. -/
def twinned : Session where
  graph := twinGraph.normalize
  settings := { mode := .manual }
  pipeline := [{ id := "n", kind := "scale" }]
  baseline := none

/-
  An edit that is taken disables the first node, and the
  stage stays enabled.
-/
theorem hides_edit :
    Session.ofGraph twinGraph { mode := .manual } =
        .ok twinned ∧
      (twinned.apply {} (.setEnabled "n" false)).1 =
        .ok { requiresCompile := true } ∧
      ((twinned.apply {}
            (.setEnabled "n" false)).2.1.graph.node? "n").map
          (fun node => node.enabled) =
        some false ∧
      (twinned.apply {} (.setEnabled "n" false)).2.1.pipeline =
        [{ id := "n", kind := "scale", enabled := true }] := by
  decide +kernel

end Session

end FractalShader
