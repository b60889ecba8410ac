import FractalShader.Proofs.Graph.Plan
import FractalShader.Proofs.Pipeline.Sources
import FractalShader.Shader.Fragment

/-
  Pipelines do not remember how a graph came about.

  Runs that lead to the same nodes and wires lead to the
  same pipeline, whatever they did on the way, and a legal
  graph may be built by its additions in any order that
  respects the ends of edges.

  Main declarations:
    * `Graph.Alike`
    * `Graph.Alike.resembles`
    * `Graph.Plan.alike`
    * `Pipeline.ofGraph_plans`
    * `Pipeline.history_free`
-/

------------------------------------------------------------
-- Graphs That Are Alike
------------------------------------------------------------

namespace FractalShader

/-
  The same nodes apart from their places, and the same edges
  apart from their ids, in any order.
-/
structure Graph.Alike (g other : Graph) : Prop where
  nodes :
    (other.nodes.map Node.toOperation).Perm
      (g.nodes.map Node.toOperation)
  wires :
    (other.edges.map Edge.wire).Perm (g.edges.map Edge.wire)

namespace Graph

variable {g other : Graph}

/- The operations found are those of the nodes with a stage. -/
theorem operations_get?_eq_some_iff
    (hNodup : g.ids.Nodup)
    (id : String)
    (operation : Operation) :
    (g.operations.get? id).map Node.toOperation =
        some operation ↔
      operation ∈ g.nodes.map Node.toOperation ∧
        isSentinel id = false ∧ operation.id = id := by
  rw [Option.map_eq_some_iff]
  constructor
  · intro hGiven
    rcases hGiven with ⟨node, hNode, rfl⟩
    rcases operations_get? hNode with ⟨hMem, rfl⟩
    refine
      ⟨List.mem_map_of_mem (List.mem_of_mem_filter hMem), ?_,
        rfl⟩
    simpa using List.of_mem_filter hMem
  · intro hGiven
    rcases hGiven with ⟨hMem, hReal, hId⟩
    rcases List.mem_map.mp hMem with ⟨node, hNode, rfl⟩
    have hStage : g.Real id :=
      ⟨hReal, (g.mem_ids_iff id).mpr ⟨node, hNode, hId⟩⟩
    rw [← operations_contains_iff, Dict.contains,
      Option.isSome_iff_exists] at hStage
    rcases hStage with ⟨found, hFound⟩
    rcases operations_get? hFound with ⟨hFoundMem, hFoundId⟩
    have hSame : found = node :=
      List.inj_on_of_nodup_map hNodup
        (List.mem_of_mem_filter hFoundMem) hNode
        (hFoundId.trans hId.symm)
    exact ⟨found, hFound, hSame ▸ rfl⟩

theorem Alike.resembles
    (h : Alike g other)
    (hNodup : g.ids.Nodup)
    (hOther : other.ids.Nodup) :
    Resembles g other where
  operations := by
    intro id
    apply Option.ext
    intro operation
    rw [operations_get?_eq_some_iff hOther,
      operations_get?_eq_some_iff hNodup, h.nodes.mem_iff]
  wires := fun wire => h.wires.mem_iff

/- No run gives an id to two nodes. -/
theorem nodup_ids_runWith
    (catalog : Catalog)
    (actions : List Action) :
    (initial.runWith catalog actions).ids.Nodup := by
  have hStep :
      ∀ (g : Graph) (action : Action), g.ids.Nodup →
        (g.performWith catalog action).ids.Nodup :=
    fun g action =>
      (effect_performWith catalog g action).nodup_ids
  exact
    @runWith_induction catalog (fun g => g.ids.Nodup) hStep
      initial (by decide) actions

/- A plan adds a new node for every node of the graph. -/
theorem Plan.perm_nodes
    {draw : Edge → String}
    {actions : List Action}
    (h : g.Plan draw actions) :
    (grown actions).nodes.Perm
      (initial.nodes ++
        g.realNodes.map fun node =>
          freshNode node.id node.kind) := by
  have hNodes :
      (g.additions draw).filterMap Action.node? =
        g.realNodes.map fun node =>
          freshNode node.id node.kind := by
    unfold additions
    rw [List.filterMap_append, List.filterMap_map,
      List.filterMap_map]
    have hEdges :
        g.edges.filterMap (Action.node? ∘ Edge.joining draw) =
          [] :=
      List.filterMap_eq_nil_iff.mpr fun _ _ => rfl
    rw [hEdges, List.append_nil]
    exact congrFun List.filterMap_eq_map g.realNodes
  exact ((hNodes ▸ h.all.filterMap _).append_left _)

/- A plan adds the wire of every edge of the graph. -/
theorem Plan.perm_wires
    {draw : Edge → String}
    {actions : List Action}
    (h : g.Plan draw actions) :
    ((grown actions).edges.map Edge.wire).Perm
      (g.edges.map fun edge =>
        (edge.arrow,
          if edge.target = endId then none else edge.port))
      := by
  have hEdges :
      ((g.additions draw).filterMap Action.edge?).map
          Edge.wire =
        g.edges.map fun edge =>
          (edge.arrow,
            if edge.target = endId then none
            else edge.port) := by
    unfold additions
    rw [List.filterMap_append, List.filterMap_map,
      List.filterMap_map]
    have hNodes :
        g.realNodes.filterMap (Action.edge? ∘ Node.addition) =
          [] :=
      List.filterMap_eq_nil_iff.mpr fun _ _ => rfl
    rw [hNodes, List.nil_append, List.map_filterMap]
    exact congrFun List.filterMap_eq_map g.edges
  exact hEdges ▸ (h.all.filterMap _).map _

/- Two plans of one graph leave graphs that are alike. -/
theorem Plan.alike
    {draw otherDraw : Edge → String}
    {actions others : List Action}
    (h : g.Plan draw actions)
    (hOther : g.Plan otherDraw others) :
    Alike (grown actions) (grown others) where
  nodes := (hOther.perm_nodes.trans h.perm_nodes.symm).map _
  wires := hOther.perm_wires.trans h.perm_wires.symm

end Graph

namespace Pipeline

/- All plans of a legal graph lead to one pipeline. -/
theorem ofGraph_plans
    {g : Graph}
    (hLegal : g.Legal)
    {draw otherDraw : Edge → String}
    {actions others : List Action}
    (h : g.Plan draw actions)
    (hOther : g.Plan otherDraw others) :
    ofGraph (Graph.initial.performAll others) =
      ofGraph (Graph.initial.performAll actions) := by
  have hNodup :
      ∀ actions,
        (Graph.initial.performAll actions).ids.Nodup := by
    intro actions
    have h := Graph.nodup_ids_runWith .builtIn actions
    rwa [Graph.runWith_builtIn] at h
  have hRun :=
    h.run hLegal (List.append_nil actions).symm
  have hOtherRun :=
    hOther.run hLegal (List.append_nil others).symm
  apply ofGraph_resembles
  apply Graph.Alike.resembles _ (hNodup _) (hNodup _)
  rw [hRun, hOtherRun]
  exact h.alike hOther

/-
  Runs that lead to graphs that are alike lead to the same
  pipeline and the same fragment.  Every plan of a legal
  graph is carried out without a refusal.  It builds a graph
  with new nodes of the same ids and kinds and with the same
  wires, and all plans lead to one pipeline.
-/
theorem history_free :
    (∀ (catalog other : Catalog) (actions others : List Action),
      (Graph.initial.runWith catalog actions).Alike
          (Graph.initial.runWith other others) →
        ofGraph (Graph.initial.runWith other others) =
            ofGraph (Graph.initial.runWith catalog actions) ∧
          ∀ settings,
            (ofGraph (Graph.initial.runWith other others)).bind
                (Fragment.ofPipeline .builtIn settings) =
              (ofGraph
                  (Graph.initial.runWith catalog actions)).bind
                (Fragment.ofPipeline .builtIn settings)) ∧
    ∀ (g : Graph) (draw : Edge → String)
      (actions : List Action), g.Legal → g.Plan draw actions →
        (∀ before action after,
          actions = before ++ action :: after →
            (Graph.initial.performAll before).refusal? action =
              none) ∧
        (Graph.initial.performAll actions).nodes.Perm
            (Graph.initial.nodes ++
              g.realNodes.map fun node =>
                Graph.freshNode node.id node.kind) ∧
        ((Graph.initial.performAll actions).edges.map
            Edge.wire).Perm
            (g.edges.map fun edge =>
              (edge.arrow,
                if edge.target = endId then none
                else edge.port)) ∧
        ∀ (otherDraw : Edge → String) (others : List Action),
          g.Plan otherDraw others →
            ofGraph (Graph.initial.performAll others) =
              ofGraph (Graph.initial.performAll actions) := by
  constructor
  · intro catalog other actions others hAlike
    have hSame :=
      ofGraph_resembles
        (hAlike.resembles
          (Graph.nodup_ids_runWith catalog actions)
          (Graph.nodup_ids_runWith other others))
    exact ⟨hSame, fun settings => by rw [hSame]⟩
  · intro g draw actions hLegal hPlan
    have hRun :=
      hPlan.run hLegal (List.append_nil actions).symm
    refine ⟨?_, ?_, ?_, ?_⟩
    · intro before action after hSplit
      rw [hPlan.run hLegal hSplit]
      exact (hPlan.step hLegal hSplit).1
    · rw [hRun]
      exact hPlan.perm_nodes
    · rw [hRun]
      exact hPlan.perm_wires
    · intro otherDraw others hOther
      exact ofGraph_plans hLegal hPlan hOther

/-
  Another run to the same graph, which adds a node too many
  and removes it, wires in another order and moves a node.
-/
def sampleDetour : List Action :=
  [.addNode "sum" "union", .addNode "extra" "scale",
    .connect "gone" "extra" "sum" none, .addNode "turn" "rotate",
    .removeNode "extra",
    .connect "late" "turn" "sum" (some .a),
    .setPosition "turn" ⟨.zero false, .zero true⟩,
    .connect "later" startId "sum" (some .b)]

theorem history_free_sample :
    (Graph.initial.performAll Graph.sampleRun).Alike
        (Graph.initial.performAll sampleDetour) ∧
      ofGraph (Graph.initial.performAll sampleDetour) =
        ofGraph (Graph.initial.performAll Graph.sampleRun) ∧
      ∃ plan other,
        plan =
            (Graph.initial.performAll
              Graph.sampleRun).additions Edge.id ∧
          other =
            (Graph.initial.performAll
              Graph.sampleRun).additions Edge.source ∧
          (∀ before action after,
            plan = before ++ action :: after →
              (Graph.initial.performAll before).refusal?
                  action =
                none) ∧
          ((Graph.initial.performAll plan).edges.map
              Edge.wire).Perm
            [(⟨startId, "sum"⟩, some .b),
              (⟨"turn", "sum"⟩, some .a)] ∧
          ofGraph (Graph.initial.performAll other) =
            ofGraph (Graph.initial.performAll plan) := by
  have hAlike :
      (Graph.initial.performAll Graph.sampleRun).Alike
        (Graph.initial.performAll sampleDetour) :=
    ⟨by decide +kernel, by decide +kernel⟩
  have hLegal :
      (Graph.initial.performAll Graph.sampleRun).Legal := by
    apply Graph.Reachable.legal
    apply Graph.Reachable.initial.performAll
    · decide
    · intro id _ hMem
      cases hMem
  have hWires :
      ((Graph.initial.performAll Graph.sampleRun).edges.map
          fun edge =>
            (edge.arrow,
              if edge.target = endId then none
              else edge.port)) =
        [(⟨startId, "sum"⟩, some .b),
          (⟨"turn", "sum"⟩, some .a)] := by
    decide +kernel
  rcases history_free with ⟨hRuns, hPlans⟩
  refine ⟨hAlike, ?_, _, _, rfl, rfl, ?_⟩
  · have hSame :=
      hRuns .builtIn .builtIn Graph.sampleRun sampleDetour
    simp only [Graph.runWith_builtIn] at hSame
    exact (hSame hAlike).1
  · rcases hPlans _ Edge.id _ hLegal (Graph.plan_additions _ _)
      with ⟨hNone, _, hPerm, hSame⟩
    rw [hWires] at hPerm
    exact
      ⟨hNone, hPerm,
        hSame Edge.source _ (Graph.plan_additions _ _)⟩

end Pipeline

end FractalShader
