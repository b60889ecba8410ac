import FractalShader.Proofs.Session.Settling

/-
  What edits that change a node in place do to pipelines.

  Order and sources of the stages depend on ids and edges
  only, and these are the same after such an edit.  So the
  new pipeline is the old one with one operation changed, as
  the edit says.  This changes nothing that decides whether
  a compilation is due when a node is moved, or when a value
  is set that lives in a uniform.

  Main declarations:
    * `Graph.Redone`
    * `Pipeline.ofGraph_redone`
    * `Edit.Spares`
    * `Edit.Changes.spares`
    * `Edit.Retouches`
    * `Pipeline.ofGraph_apply`
    * `Session.touches_one_field`
-/

------------------------------------------------------------
-- Graphs with Nodes Changed in Place
------------------------------------------------------------

namespace FractalShader

open Schedule

namespace Graph

/- The same graph with each node changed, its id apart. -/
structure Redone
    (change : Node → Node)
    (g h : Graph) : Prop where
  ids : ∀ n, (change n).id = n.id
  nodes : h.nodes = g.nodes.map change
  edges : h.edges = g.edges

variable {g h : Graph} {change : Node → Node}

/- Changing one of distinct nodes leaves the others. -/
theorem redone_modify
    (hNodup : g.ids.Nodup)
    (id : String)
    (hId : ∀ n, (change n).id = n.id) :
    Redone (fun n => if n.id = id then change n else n) g
      (g.modify id change) where
  ids := by
    intro n
    split
    · exact hId n
    · rfl
  nodes := modifyFirst_eq_map id change hNodup
  edges := rfl

namespace Redone

/- The operation under an id is the changed one. -/
theorem operations_get?
    (hRedone : Redone change g h)
    (id : String) :
    h.operations.get? id =
      (g.operations.get? id).map change := by
  have hReal : h.realNodes = g.realNodes.map change := by
    unfold realNodes
    rw [hRedone.nodes, List.filter_map]
    congr 1
    apply List.filter_congr
    intro n _
    simp only [Function.comp_apply, hRedone.ids]
  unfold operations
  rw [Dict.get?_ofList, Dict.get?_ofList, hReal,
    List.map_map, ← List.map_reverse, ← List.map_reverse,
    List.find?_map, List.find?_map, Option.map_map,
    Option.map_map, Option.map_map]
  simp only [Function.comp_def, hRedone.ids]

theorem contains_eq
    (hRedone : Redone change g h)
    (id : String) :
    h.operations.contains id = g.operations.contains id := by
  unfold Dict.contains
  rw [hRedone.operations_get?, Option.isSome_map]

theorem keys_eq
    (hRedone : Redone change g h) :
    h.operations.keys = g.operations.keys := by
  refine
    eq_of_increasing h.operations.pairwise_keys
      g.operations.pairwise_keys ?_
  intro id
  rw [Dict.mem_keys_iff, Dict.mem_keys_iff,
    hRedone.contains_eq]

/- The same edges count. -/
theorem wires_eq
    (hRedone : Redone change g h) :
    h.wires = g.wires := by
  unfold wires
  simp only [hRedone.edges, hRedone.contains_eq]

end Redone

end Graph

/- A stage is its operation with its sources. -/
theorem Stage.eq_of_parts
    {s t : Stage}
    (hOperation : t.toOperation = s.toOperation)
    (hSources : t.sources = s.sources) :
    t = s := by
  rcases s with ⟨operation, sources⟩
  rcases t with ⟨other, others⟩
  cases hOperation
  cases hSources
  rfl

/-
  A stage before and after: it records the same sources, and
  its operation is that of a node before and after.
-/
structure Stage.Redone
    (g : Graph)
    (change : Node → Node)
    (s t : Stage) : Prop where
  sources : t.sources = s.sources
  operations :
    ∃ node ∈ g.nodes,
      s.toOperation = node.toOperation ∧
        t.toOperation = (change node).toOperation

namespace Pipeline

variable {g h : Graph} {change : Node → Node}

theorem stages_redone
    (hRedone : g.Redone change h)
    (previous : String)
    (order : List String) :
    List.Forall₂ (Stage.Redone g change)
      (stages g.operations g.wires previous order)
      (stages h.operations h.wires previous order) := by
  induction order generalizing previous with
  | nil => exact .nil
  | cons id order ih =>
      unfold stages
      rw [hRedone.operations_get?, hRedone.wires_eq]
      cases hNode : g.operations.get? id with
      | none => exact hRedone.wires_eq ▸ ih id
      | some node =>
          have hMem := (Graph.operations_get? hNode).1
          refine .cons ⟨rfl, node, ?_, rfl, rfl⟩ ?_
          · exact List.mem_of_mem_filter hMem
          · exact hRedone.wires_eq ▸ ih id

/- The stages are changed where they are. -/
theorem ofGraph_redone
    (hRedone : g.Redone change h)
    {p : Pipeline}
    (hPipeline : ofGraph g = .ok p) :
    ∃ q,
      ofGraph h = .ok q ∧
        List.Forall₂ (Stage.Redone g change) p q := by
  rcases ofGraph_eq_ok hPipeline with ⟨hStuck, rfl⟩
  have hAlong :
      along h.operations.keys h.dependencies =
        along g.operations.keys g.dependencies := by
    unfold Graph.dependencies
    rw [hRedone.keys_eq, hRedone.wires_eq]
  refine
    ⟨stages h.operations h.wires startId (canonical g), ?_,
      stages_redone hRedone startId _⟩
  unfold stuck at hStuck
  rw [ofGraph_eq]
  unfold stuck canonical
  rw [hAlong, if_pos hStuck]

end Pipeline

end FractalShader

------------------------------------------------------------
-- Edits of One Node in Place
------------------------------------------------------------

namespace FractalShader

/- Maps that agree under every other key. -/
def Dict.AgreeBut
    {α : Type}
    (key : String)
    (d e : Dict α) : Prop :=
  ∀ other, other ≠ key → e.get? other = d.get? other

theorem Dict.agreeBut_insert
    {α : Type}
    (d : Dict α)
    (key : String)
    (value : α) :
    d.AgreeBut key (d.insert key value) := by
  intro other hOther
  rw [get?_insert, if_neg hOther]

theorem Bindings.agreeBut_assign
    (b : Bindings)
    (input : String)
    (slot : Option Slot) :
    Dict.AgreeBut input b (assign b input slot) := by
  intro other hOther
  cases slot with
  | none => exact (Dict.get?_erase _ _ _).trans (if_neg hOther)
  | some slot =>
      exact (Dict.get?_insert _ _ _ _).trans (if_neg hOther)

namespace Edit

/-
  What an edit does to the operation of its node: all else
  is the same, and nothing changes when it only moves.
-/
def Spares
    (before after : Operation) : Edit → Prop
  | .setParam _ input _ =>
      ∃ params,
        before.params.AgreeBut input params ∧
          after = { before with params := params }
  | .toggleBinding _ input =>
      ∃ bindings,
        Dict.AgreeBut input before.bindings bindings ∧
          after = { before with bindings := bindings }
  | .setBinding _ input _ =>
      ∃ bindings,
        Dict.AgreeBut input before.bindings bindings ∧
          after = { before with bindings := bindings }
  | .setGuard _ guard => after = { before with guard := guard }
  | .setEnabled _ enabled =>
      after = { before with enabled := enabled }
  | _ => after = before

/- What an edit of a node does to a stage. -/
structure Retouches
    (edit : Edit)
    (node : String)
    (s t : Stage) : Prop where
  id : t.id = s.id
  sources : t.sources = s.sources
  others : s.id ≠ node → t = s
  own : s.id = node → edit.Spares s.toOperation t.toOperation

end Edit

/- An edit changes its node as far as it says. -/
theorem Edit.Changes.spares
    {g : Graph}
    {id : String}
    {edit : Edit}
    {change : Node → Node}
    (h : edit.Changes g id change)
    {node : Node}
    (hNode : g.node? id = some node) :
    edit.Spares node.toOperation (change node).toOperation := by
  cases h with
  | setParam => exact ⟨_, Dict.agreeBut_insert _ _ _, rfl⟩
  | toggleBinding hEditable =>
      -- All bindings are taken from the node that was found.
      rw [(Graph.editable_eq_ok hEditable).2] at hNode
      cases hNode
      exact ⟨_, Bindings.agreeBut_assign _ _ _, rfl⟩
  | setBinding =>
      exact ⟨_, Bindings.agreeBut_assign _ _ _, rfl⟩
  | setGuard | setEnabled | moveNode => rfl

namespace Pipeline

/-
  After such an edit of distinct nodes the stages are as
  before, apart from what the edit changes.
-/
theorem ofGraph_apply
    {g : Graph}
    {p : Pipeline}
    (hNodup : g.ids.Nodup)
    (hPipeline : ofGraph g = .ok p)
    {supply : Supply}
    {edit : Edit}
    {id : String}
    {created : Option String}
    (hSubject : edit.subject? = some id)
    (hTaken : (g.apply supply edit).answer = .ok created) :
    ∃ q,
      ofGraph (g.apply supply edit).graph = .ok q ∧
        List.Forall₂ (edit.Retouches id) p q := by
  rcases Graph.changes_of_apply hSubject hTaken with
    ⟨change, hChanges, hGraph⟩
  rcases ofGraph_redone
      (Graph.redone_modify hNodup id hChanges.id_eq)
      hPipeline with
    ⟨q, hq, hStages⟩
  refine ⟨q, hGraph ▸ hq, hStages.imp ?_⟩
  rintro s t ⟨hSources, node, hNode, hBefore, hAfter⟩
  have hSame : s.id = node.id := congrArg Operation.id hBefore
  by_cases hOwn : node.id = id
  · rw [if_pos hOwn] at hAfter
    have hFound : g.node? id = some node :=
      hOwn ▸ Answers.find?_eq_some hNodup hNode
    refine ⟨?_, hSources, ?_, ?_⟩
    · exact
        (congrArg Operation.id hAfter).trans
          ((hChanges.id_eq node).trans hSame.symm)
    · exact fun hOther => absurd (hSame.trans hOwn) hOther
    · intro _
      rw [hBefore, hAfter]
      exact hChanges.spares hFound
  · rw [if_neg hOwn] at hAfter
    have hEq : t = s :=
      Stage.eq_of_parts (hAfter.trans hBefore.symm) hSources
    refine ⟨by rw [hEq], hSources, fun _ => hEq, ?_⟩
    exact fun hOther => absurd (hSame.symm.trans hOther) hOwn

end Pipeline

end FractalShader

------------------------------------------------------------
-- Compilations That Are Due
------------------------------------------------------------

namespace FractalShader

/- What each stage keeps is kept in the same order. -/
theorem Pipeline.map_eq_of_forall₂
    {α : Type}
    {part : Stage → α}
    {p q : Pipeline}
    (h : List.Forall₂ (fun s t => part t = part s) p q) :
    q.map part = p.map part := by
  induction h with
  | nil => rfl
  | cons hStage _ ih =>
      rw [List.map_cons, List.map_cons, hStage, ih]

/- Pipelines that compare alike stage by stage do so. -/
theorem Pipeline.compareBy_congr
    {related : Stage → Stage → Bool}
    {p q : Pipeline}
    (h :
      List.Forall₂ (fun s t => ∀ r, related r t = related r s)
        p q)
    (old : Pipeline) :
    compareBy related old q = compareBy related old p := by
  induction h generalizing old with
  | nil => rfl
  | cons hStage _ ih =>
      cases old with
      | nil => rfl
      | cons r old => rw [compareBy, compareBy, hStage, ih]

namespace Edit

variable {node : String} {s t : Stage}

/- A stage does not tell where its node is. -/
theorem Retouches.eq_of_moveNode
    {position : Position}
    (h : (moveNode node position).Retouches node s t) :
    s = t := by
  by_cases hOwn : s.id = node
  · exact (Stage.eq_of_parts (h.own hOwn) h.sources).symm
  · exact (h.others hOwn).symm

/- The structure of a stage does not depend on its values. -/
theorem Retouches.sameStructure
    {input : String}
    {value : F32}
    (h : (setParam node input value).Retouches node s t)
    (r : Stage) :
    r.sameStructure t = r.sameStructure s := by
  by_cases hOwn : s.id = node
  · rcases h.own hOwn with ⟨params, _, hOperation⟩
    unfold Stage.sameStructure
    rw [hOperation, h.sources]
  · rw [h.others hOwn]

end Edit

namespace Session

variable {s : Session}

/- In manual mode nothing is compiled. -/
theorem Settles.manual
    {created : Option String}
    {outcome : Outcome}
    {next : Session}
    (h : s.Settles created outcome next)
    (hMode : s.settings.mode = .manual) :
    next = s := by
  cases h with
  | due | failed | refreshed => rfl
  | compiled hAuto =>
      rw [hMode] at hAuto
      cases hAuto

/- What an edit in place leaves to compile in manual mode. -/
theorem Ordered.retouches
    (h : s.Ordered)
    (hNodup : s.graph.ids.Nodup)
    (hMode : s.settings.mode = .manual)
    {supply : Supply}
    {edit : Edit}
    {id : String}
    (hSubject : edit.subject? = some id)
    {outcome : Outcome}
    (hTaken : (s.apply supply edit).1 = .ok outcome) :
    ∃ pipeline,
      List.Forall₂ (edit.Retouches id) s.pipeline pipeline ∧
        (s.apply supply edit).2.1.needsCompile =
          { s with pipeline := pipeline }.needsCompile := by
  rcases settles_of_apply hTaken with
    ⟨created, pipeline, hAnswer, hPipeline, hSettles⟩
  rcases Pipeline.ofGraph_apply hNodup h.pipeline hSubject
      hAnswer with
    ⟨found, hFound, hStages⟩
  rw [hPipeline] at hFound
  cases hFound
  refine ⟨pipeline, hStages, ?_⟩
  rw [hSettles.manual hMode]
  rfl

/- Moving a node leaves a compilation as due as it was. -/
theorem Ordered.needsCompile_moveNode
    (h : s.Ordered)
    (hNodup : s.graph.ids.Nodup)
    (hMode : s.settings.mode = .manual)
    {supply : Supply}
    {node : String}
    {position : Position}
    {outcome : Outcome}
    (hTaken :
      (s.apply supply (.moveNode node position)).1 =
        .ok outcome) :
    (s.apply supply
        (.moveNode node position)).2.1.needsCompile =
      s.needsCompile := by
  rcases h.retouches hNodup hMode rfl hTaken with
    ⟨pipeline, hStages, hNeeds⟩
  have hSame : s.pipeline = pipeline := by
    rw [← List.forall₂_eq_eq_eq]
    exact hStages.imp fun _ _ => Edit.Retouches.eq_of_moveNode
  rw [hNeeds, ← hSame]

/- So does setting a value that lives in a uniform. -/
theorem Ordered.needsCompile_setParam
    (h : s.Ordered)
    (hNodup : s.graph.ids.Nodup)
    (hMode : s.settings.mode = .manual)
    (hUniforms : s.settings.inlineLiterals = false)
    {supply : Supply}
    {node input : String}
    {value : F32}
    {outcome : Outcome}
    (hTaken :
      (s.apply supply (.setParam node input value)).1 =
        .ok outcome) :
    (s.apply supply
        (.setParam node input value)).2.1.needsCompile =
      s.needsCompile := by
  rcases h.retouches hNodup hMode rfl hTaken with
    ⟨pipeline, hStages, hNeeds⟩
  have hSame :
      ∀ old,
        Pipeline.sameStructure old pipeline =
          Pipeline.sameStructure old s.pipeline :=
    Pipeline.compareBy_congr
      (hStages.imp fun _ _ => Edit.Retouches.sameStructure)
  rw [hNeeds]
  simp [needsCompile, hUniforms, hSame]

/-
  Every edit in place that a graph of distinct ids takes
  keeps the order and the sources of its pipeline.  All
  stages but that of the node are the same, and this one
  differs in what was edited at most.  So in manual mode
  neither moving a node nor setting a value in a uniform
  makes a compilation due, or spares one that is.
-/
theorem touches_one_field :
    (∀ (g : Graph) (p : Pipeline),
      g.ids.Nodup → Pipeline.ofGraph g = .ok p →
        ∀ supply (edit : Edit) id created,
          edit.subject? = some id →
            (g.apply supply edit).answer = .ok created →
              ∃ q,
                Pipeline.ofGraph (g.apply supply edit).graph =
                    .ok q ∧
                  q.ids = p.ids ∧
                  q.map (·.sources) = p.map (·.sources) ∧
                  List.Forall₂ (edit.Retouches id) p q) ∧
      ∀ settings first commands s,
        ((Desk.start (.new settings) first).run
            commands).session = s →
          s.settings.mode = .manual →
            ∀ supply node outcome,
              (∀ position,
                (s.apply supply (.moveNode node position)).1 =
                    .ok outcome →
                  (s.apply supply
                      (.moveNode node
                        position)).2.1.needsCompile =
                    s.needsCompile) ∧
                ∀ input value,
                  s.settings.inlineLiterals = false →
                    (s.apply supply
                          (.setParam node input value)).1 =
                        .ok outcome →
                      (s.apply supply
                          (.setParam node input
                            value)).2.1.needsCompile =
                        s.needsCompile := by
  constructor
  · intro g p hNodup hPipeline supply edit id created hSubject
      hTaken
    rcases Pipeline.ofGraph_apply hNodup hPipeline hSubject
        hTaken with
      ⟨q, hq, hStages⟩
    refine ⟨q, hq, ?_, ?_, hStages⟩
    · exact
        Pipeline.map_eq_of_forall₂
          (hStages.imp fun _ _ h => h.id)
    · exact
        Pipeline.map_eq_of_forall₂
          (hStages.imp fun _ _ h => h.sources)
  · intro settings first commands s hRun hMode supply node
      outcome
    have hOrdered : s.Ordered := by
      rw [← hRun]
      exact
        Desk.ordered_run (Started.new settings).ordered commands
    have hNodup : s.graph.ids.Nodup := by
      rw [← hRun]
      have hFirst : Graph.initial.ids.Nodup := by decide
      exact nodup_ids_run hFirst first commands
    constructor
    · intro position hTaken
      exact
        hOrdered.needsCompile_moveNode hNodup hMode hTaken
    · intro input value hUniforms hTaken
      exact
        hOrdered.needsCompile_setParam hNodup hMode hUniforms
          hTaken

/- A session on two stages, compiled on request. -/
def tuned : Session :=
  ((Desk.start (.new { mode := .manual }) {}).run
    [.edit (.addNode (some "fold") "abs_fold"),
      .edit (.addNode (some "bulb") "mandelbulb"),
      .edit (.connect "fold" "bulb" none),
      .compile]).session

/- One of its values is set, and a sentinel is moved. -/
theorem touches_one_field_tuned :
    (∃ q,
      Pipeline.ofGraph
          (tuned.graph.apply {}
            (.setParam "bulb" "power" (.ofInt 3))).graph =
          .ok q ∧
        q.ids = ["fold", "bulb"] ∧
        List.Forall₂
          ((Edit.setParam "bulb" "power" (.ofInt 3)).Retouches
            "bulb")
          tuned.pipeline q) ∧
      (tuned.apply {}
          (.setParam "bulb" "power"
            (.ofInt 3))).2.1.needsCompile =
        false ∧
      (tuned.apply {}
          (.moveNode endId
            ⟨.ofInt 1, .ofInt 2⟩)).2.1.needsCompile =
        false := by
  have hTuned :
      tuned.graph.ids.Nodup ∧
        Pipeline.ofGraph tuned.graph = .ok tuned.pipeline ∧
        tuned.pipeline.ids = ["fold", "bulb"] ∧
        tuned.settings.mode = .manual ∧
        tuned.settings.inlineLiterals = false ∧
        tuned.needsCompile = false := by
    decide +kernel
  rcases hTuned with
    ⟨hNodup, hPipeline, hIds, hMode, hUniforms, hFits⟩
  have hAnswer :
      (tuned.graph.apply {}
          (.setParam "bulb" "power" (.ofInt 3))).answer =
        .ok none := by
    decide +kernel
  have hSet :
      (tuned.apply {}
          (.setParam "bulb" "power" (.ofInt 3))).1 =
        .ok
          { requiresCompile := false
            values :=
              some
                [.zero false, .zero false, .zero false,
                  .ofInt 3] } := by
    decide +kernel
  have hMoved :
      (tuned.apply {}
          (.moveNode endId ⟨.ofInt 1, .ofInt 2⟩)).1 =
        .ok
          { requiresCompile := false
            values :=
              some
                [.zero false, .zero false, .zero false,
                  .ofInt 8] } := by
    decide +kernel
  rcases touches_one_field.1 _ _ hNodup hPipeline {} _ "bulb"
      none rfl hAnswer with
    ⟨q, hq, hSame, _, hStages⟩
  have hQuiet := touches_one_field.2 _ _ _ tuned rfl hMode {}
  refine ⟨⟨q, hq, hSame.trans hIds, hStages⟩, ?_, ?_⟩
  · rw [← hFits]
    exact (hQuiet "bulb" _).2 "power" _ hUniforms hSet
  · rw [← hFits]
    exact (hQuiet endId _).1 _ hMoved

end Session

end FractalShader
