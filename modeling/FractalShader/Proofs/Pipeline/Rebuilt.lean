import FractalShader.Pipeline.Comparison
import FractalShader.Pipeline.ToGraph
import FractalShader.Proofs.Graph.Effects
import FractalShader.Proofs.Pipeline.Forward
import FractalShader.Proofs.Pipeline.Sources
import Mathlib.Data.List.Chain
import Mathlib.Data.List.Lex

/-
  The graph that is rebuilt from a pipeline, and when it has
  that pipeline again.

  A rebuilt graph has more edges than the graph that a
  pipeline was taken from, but all of them lead from the
  start or an earlier stage to a later one.  So the order of
  the stages stays the one that is taken.

  Main declarations:
    * `Pipeline.Tidy`
    * `Pipeline.Tidy.orders_toGraph`
    * `Pipeline.Tidy.ofGraph_toGraph_iff`
    * `Pipeline.ofGraph_toGraph_of_fedOnce`
    * `Pipeline.rebuilt`
-/

------------------------------------------------------------
-- The Least of Two Orders
------------------------------------------------------------

namespace FractalShader

namespace Pipeline

/- Lists of ids that are not above each other are the same. -/
theorem eq_of_least
    {ids others : List String}
    (h : ids = others ∨ List.Lex (· < ·) ids others)
    (hBack : others = ids ∨ List.Lex (· < ·) others ids) :
    ids = others := by
  have hAsymm : Std.Asymm (fun x y : String => x < y) :=
    ⟨fun _ _ => String.lt_asymm⟩
  rcases h with hEq | hLess
  · exact hEq
  · rcases hBack with hEq | hMore
    · exact hEq.symm
    · exact absurd hMore (Std.Asymm.asymm _ _ hLess)

end Pipeline

end FractalShader

------------------------------------------------------------
-- Places in a Pipeline
------------------------------------------------------------

namespace FractalShader

open Schedule

namespace Pipeline

@[simp] theorem ids_nil : ids [] = [] := rfl

@[simp] theorem ids_cons
    (stage : Stage)
    (p : Pipeline) :
    ids (stage :: p) = stage.id :: ids p := rfl

@[simp] theorem ids_append (p q : Pipeline) :
    ids (p ++ q) = ids p ++ ids q := by
  simp [ids]

/- The id of the last stage, if any, after a previous one. -/
def latest : String → Pipeline → String
  | previous, [] => previous
  | _, stage :: rest => latest stage.id rest

theorem latest_append_singleton
    (previous : String)
    (p : Pipeline)
    (stage : Stage) :
    latest previous (p ++ [stage]) = stage.id := by
  induction p generalizing previous with
  | nil => rfl
  | cons first p ih => exact ih first.id

/- The latest id is the previous one or that of a stage. -/
theorem latest_eq_or_mem
    (previous : String)
    (p : Pipeline) :
    latest previous p = previous ∨
      latest previous p ∈ p.ids := by
  induction p generalizing previous with
  | nil => exact Or.inl rfl
  | cons stage p ih =>
      rw [latest, ids_cons]
      rcases ih stage.id with hFirst | hLater
      · rw [hFirst]
        exact Or.inr List.mem_cons_self
      · exact Or.inr (List.mem_cons_of_mem _ hLater)

/- A stage whose id occurs once has one place. -/
theorem split_unique
    {before after others rest : Pipeline}
    {stage other : Stage}
    (hSplit :
      before ++ stage :: after = others ++ other :: rest)
    (hNodup : (ids (before ++ stage :: after)).Nodup)
    (hId : other.id = stage.id) :
    others = before ∧ other = stage := by
  induction before generalizing others with
  | nil =>
      cases others with
      | nil =>
          cases hSplit
          exact ⟨rfl, rfl⟩
      | cons first others =>
          cases hSplit
          simp [hId] at hNodup
  | cons first before ih =>
      cases others with
      | nil =>
          cases hSplit
          simp [← hId] at hNodup
      | cons second others =>
          injection hSplit with hFirst hRest
          subst hFirst
          rw [List.cons_append, ids_cons,
            List.nodup_cons] at hNodup
          rcases ih hRest hNodup.2 with ⟨rfl, rfl⟩
          exact ⟨rfl, rfl⟩

/- What stands left of an id is before it. -/
theorem before_of_mem_left
    {before after : List String}
    {x y : String}
    (h : x ∈ before) :
    Before (before ++ y :: after) x y := by
  have hRight : [y].Sublist (y :: after) :=
    List.singleton_sublist.mpr List.mem_cons_self
  exact (List.singleton_sublist.mpr h).append hRight

end Pipeline

end FractalShader

------------------------------------------------------------
-- Tidy Pipelines
------------------------------------------------------------

namespace FractalShader

namespace Pipeline

/-
  Ids are distinct and none is a sentinel, sources are the
  start or earlier stages, and a first source that is the
  stage before is left out.
-/
structure Tidy (p : Pipeline) : Prop where
  nodup : p.ids.Nodup
  real : ∀ id ∈ p.ids, isSentinel id = false
  earlier :
    ∀ before stage after, p = before ++ stage :: after →
      ∀ source,
        stage.sources.a = some source ∨
            stage.sources.b = some source →
          source = startId ∨ source ∈ ids before
  elided :
    ∀ before stage after, p = before ++ stage :: after →
      stage.sources.a ≠ some (latest startId before)

/- Stages record the sources of the wires that enter them. -/
theorem sources_of_stages
    {g : Graph}
    {previous : String}
    {order : List String}
    (hReal : ∀ id ∈ order, g.Real id)
    {before after : Pipeline}
    {stage : Stage}
    (h :
      stages g.operations g.wires previous order =
        before ++ stage :: after) :
    stage.sources =
      Sources.ofWires
        (g.wires.filter (fun edge => edge.target == stage.id))
        (latest previous before) := by
  induction order generalizing previous before with
  | nil => simp [stages] at h
  | cons id order ih =>
      have hContains :=
        (g.operations_contains_iff id).mpr
          (hReal id List.mem_cons_self)
      rcases Option.isSome_iff_exists.mp hContains with
        ⟨node, hNode⟩
      have hId := (Graph.operations_get? hNode).2
      simp only [stages, hNode] at h
      cases before with
      | nil =>
          rw [List.nil_append] at h
          injection h with hStage _
          rw [← hStage, ← hId]
          rfl
      | cons first before =>
          injection h with hFirst hRest
          have hLater :=
            ih (fun other hOther =>
              hReal other (List.mem_cons_of_mem _ hOther))
              hRest
          rw [hLater, latest, ← hFirst]
          exact congrArg (Sources.ofWires _ <| latest · before)
            hId.symm

/- The sources that a pipeline of a graph records. -/
theorem sources_of_ofGraph
    {g : Graph}
    {before after : Pipeline}
    {stage : Stage}
    (h : ofGraph g = .ok (before ++ stage :: after)) :
    stage.sources =
      Sources.ofWires
        (g.wires.filter (fun edge => edge.target == stage.id))
        (latest startId before) := by
  rcases ofGraph_eq_ok h with ⟨hStuck, hStages⟩
  apply sources_of_stages _ hStages.symm
  intro id hMem
  exact ((orders_canonical hStuck).mem_iff id).mp hMem

/- The pipeline of a graph is tidy. -/
theorem tidy_of_ofGraph
    {g : Graph}
    {p : Pipeline}
    (h : ofGraph g = .ok p) :
    p.Tidy where
  nodup := (orders_of_ofGraph h).nodup
  real := by
    intro id hMem
    exact (((orders_of_ofGraph h).mem_iff id).mp hMem).1
  earlier := by
    rintro before stage after rfl source hSource
    exact source_earlier h hSource
  elided := by
    rintro before stage after rfl hExpected
    rw [sources_of_ofGraph h] at hExpected
    have hNe := (Option.filter_eq_some_iff.mp hExpected).2
    simp at hNe

/- Without sources, distinct ids are all that it takes. -/
theorem tidy_of_sourceFree
    {p : Pipeline}
    (hNodup : p.ids.Nodup)
    (hReal : ∀ stage ∈ p, isSentinel stage.id = false)
    (hFree : ∀ stage ∈ p, stage.sources = {}) :
    p.Tidy where
  nodup := hNodup
  real := by
    intro id hMem
    rcases List.mem_map.mp hMem with ⟨stage, hStage, rfl⟩
    exact hReal stage hStage
  earlier := by
    rintro before stage after rfl source hSource
    rw [hFree stage (by simp)] at hSource
    rcases hSource with hSource | hSource <;> cases hSource
  elided := by
    rintro before stage after rfl
    rw [hFree stage (by simp)]
    simp

end Pipeline

end FractalShader

------------------------------------------------------------
-- Rebuilt Graphs
------------------------------------------------------------

namespace FractalShader

namespace Pipeline

/- The edges that are rebuilt after a previous id. -/
theorem mem_edgesFrom_iff
    (catalog : Catalog)
    (previous : String)
    (p : Pipeline)
    (edge : Edge) :
    edge ∈ edgesFrom catalog previous p ↔
      (∃ before stage after, p = before ++ stage :: after ∧
        edge ∈
          stage.edges catalog (latest previous before)) ∨
        edge = .chain (latest previous p) endId none := by
  induction p generalizing previous with
  | nil => simp [edgesFrom, latest]
  | cons first p ih =>
      rw [edgesFrom, List.mem_append, ih, latest]
      constructor
      · rintro (hFirst | ⟨before, stage, after, rfl, hEdge⟩ |
          hLast)
        · exact Or.inl ⟨[], first, p, rfl, hFirst⟩
        · exact
            Or.inl ⟨first :: before, stage, after, rfl, hEdge⟩
        · exact Or.inr hLast
      · rintro (⟨before, stage, after, hSplit, hEdge⟩ | hLast)
        · cases before with
          | nil =>
              cases hSplit
              exact Or.inl hEdge
          | cons second before =>
              injection hSplit with hFirst hRest
              subst hFirst
              exact
                Or.inr
                  (Or.inl ⟨before, stage, after, hRest, hEdge⟩)
        · exact Or.inr (Or.inr hLast)

/- The ends of an edge into a stage. -/
theorem ends_of_mem_edges
    {catalog : Catalog}
    {previous : String}
    {stage : Stage}
    {edge : Edge}
    (h : edge ∈ stage.edges catalog previous) :
    edge.target = stage.id ∧
      (edge.source = previous ∨
        stage.sources.a = some edge.source ∨
          stage.sources.b = some edge.source) := by
  have hFirst :
      ∀ port,
        (stage.sources.a.getD previous = previous ∨
          stage.sources.a =
              some (stage.sources.a.getD previous)) ∧
          (Edge.chain (stage.sources.a.getD previous) stage.id
            port).target = stage.id := by
    intro port
    refine ⟨?_, rfl⟩
    cases stage.sources.a with
    | none => exact Or.inl rfl
    | some source => exact Or.inr rfl
  unfold Stage.edges at h
  cases hb : stage.sources.b with
  | none =>
      simp only [hb] at h
      cases List.mem_singleton.mp h
      rcases hFirst none with ⟨hSource, _⟩
      exact ⟨rfl, hSource.imp id Or.inl⟩
  | some source =>
      simp only [hb, List.mem_cons, List.not_mem_nil,
        or_false] at h
      rcases h with rfl | rfl
      · rcases hFirst none with ⟨hSource, _⟩
        exact ⟨rfl, hSource.imp id Or.inl⟩
      · exact ⟨rfl, Or.inr (Or.inr rfl)⟩

theorem ids_nodesFrom
    (row : Nat)
    (p : Pipeline) :
    (nodesFrom row p).map (·.id) = p.ids := by
  induction p generalizing row with
  | nil => rfl
  | cons stage p ih =>
      rw [nodesFrom, List.map_cons, ih, ids_cons]
      rfl

theorem ids_toGraph
    (catalog : Catalog)
    (p : Pipeline) :
    (p.toGraph catalog).ids = startId :: endId :: p.ids := by
  change startId :: endId :: (nodesFrom 1 p).map (·.id) = _
  rw [ids_nodesFrom]

/- Every stage has a node with its operation. -/
theorem exists_node_of_stage
    {p : Pipeline}
    {stage : Stage}
    (h : stage ∈ p)
    (row : Nat) :
    ∃ node ∈ nodesFrom row p,
      node.toOperation = stage.toOperation := by
  induction p generalizing row with
  | nil => cases h
  | cons first p ih =>
      rw [nodesFrom]
      rcases List.mem_cons.mp h with rfl | hLater
      · exact ⟨stage.node row, List.mem_cons_self, rfl⟩
      · rcases ih hLater (row + 1) with ⟨node, hNode, hSame⟩
        exact ⟨node, List.mem_cons_of_mem _ hNode, hSame⟩

end Pipeline

/-
  The edges into a stage record its sources again, when the
  stage before is not recorded.
-/
theorem Sources.ofWires_edges
    (catalog : Catalog)
    {previous : String}
    {stage : Stage}
    (h : stage.sources.a ≠ some previous) :
    ofWires (stage.edges catalog previous) previous =
      stage.sources := by
  rcases hSources : stage.sources with ⟨a, b⟩
  rw [hSources] at h
  have hFirst :
      (some (a.getD previous)).filter (· != previous) = a := by
    cases a with
    | none => simp
    | some source =>
        have hNe : source ≠ previous := by simpa using h
        simp [hNe]
  unfold Stage.edges
  rw [hSources]
  cases b with
  | none =>
      cases hArity : catalog.arity stage.kind == .dual <;>
        simpa [ofWires, smallest?, Edge.chain] using hFirst
  | some source =>
      simpa [ofWires, smallest?, Edge.chain] using hFirst

end FractalShader

------------------------------------------------------------
-- Rebuilt Graphs of Tidy Pipelines
------------------------------------------------------------

namespace FractalShader

open Schedule

namespace Pipeline

variable {p : Pipeline}

/- The nodes with a stage are those of the pipeline. -/
theorem Tidy.real_toGraph_iff
    (h : p.Tidy)
    (catalog : Catalog)
    (id : String) :
    (p.toGraph catalog).Real id ↔ id ∈ p.ids := by
  rw [Graph.Real, ids_toGraph]
  constructor
  · rintro ⟨hReal, hMem⟩
    rcases List.mem_cons.mp hMem with rfl | hMem
    · cases hReal
    · rcases List.mem_cons.mp hMem with rfl | hMem
      · cases hReal
      · exact hMem
  · intro hMem
    exact
      ⟨h.real id hMem,
        List.mem_cons_of_mem _ (List.mem_cons_of_mem _ hMem)⟩

/- What feeds a stage is the start or an earlier stage. -/
theorem Tidy.source_of_mem_edges
    (h : p.Tidy)
    {catalog : Catalog}
    {before after : Pipeline}
    {stage : Stage}
    (hSplit : p = before ++ stage :: after)
    {edge : Edge}
    (hEdge :
      edge ∈ stage.edges catalog (latest startId before)) :
    edge.source = startId ∨ edge.source ∈ before.ids := by
  rcases (ends_of_mem_edges hEdge).2 with hPrevious | hRecorded
  · rw [hPrevious]
    exact latest_eq_or_mem startId before
  · exact h.earlier before stage after hSplit _ hRecorded

/- An edge into a node with a stage is one of its stage. -/
theorem exists_split_of_mem_edges
    {catalog : Catalog}
    {edge : Edge}
    (hEdge : edge ∈ (p.toGraph catalog).edges)
    (hReal : (p.toGraph catalog).Real edge.target) :
    ∃ before stage after, p = before ++ stage :: after ∧
      edge.target = stage.id ∧
        edge ∈
          stage.edges catalog (latest startId before) := by
  rcases (mem_edgesFrom_iff catalog startId p edge).mp hEdge
    with ⟨before, stage, after, hSplit, hMem⟩ | rfl
  · exact
      ⟨before, stage, after, hSplit,
        (ends_of_mem_edges hMem).1, hMem⟩
  · cases hReal.1

/- Edges of the rebuilt graph follow the pipeline. -/
theorem Tidy.before_of_feeds
    (h : p.Tidy)
    {catalog : Catalog}
    {x y : String}
    (hFeeds : (p.toGraph catalog).Feeds x y) :
    Before p.ids x y := by
  rcases hFeeds with ⟨hx, hy, edge, hEdge, rfl, rfl⟩
  rcases exists_split_of_mem_edges hEdge hy with
    ⟨before, stage, after, hSplit, hTarget, hMem⟩
  rcases h.source_of_mem_edges hSplit hMem with
    hStart | hEarlier
  · exact absurd hStart hx.ne_startId
  · rw [hSplit, hTarget, ids_append, ids_cons]
    exact before_of_mem_left hEarlier

/- The ids of the pipeline are an order of its graph. -/
theorem Tidy.orders_toGraph
    (h : p.Tidy)
    (catalog : Catalog) :
    (p.toGraph catalog).Orders p.ids where
  nodup := h.nodup
  mem_iff := fun id => (h.real_toGraph_iff catalog id).symm
  forward := fun _ _ hFeeds => h.before_of_feeds hFeeds

/- Normalizing the rebuilt graph changes nothing. -/
theorem Tidy.normalize_toGraph
    (h : p.Tidy)
    (catalog : Catalog) :
    (p.toGraph catalog).normalize = p.toGraph catalog := by
  have hStage :
      ∀ id, id ∈ p.ids → id ∈ (p.toGraph catalog).ids := by
    intro id hMem
    simp [ids_toGraph, hMem]
  have hStart : startId ∈ (p.toGraph catalog).ids := by
    simp [ids_toGraph]
  have hFinal : endId ∈ (p.toGraph catalog).ids := by
    simp [ids_toGraph]
  apply Graph.normalize_eq_self hStart hFinal
  intro edge hEdge
  rcases (mem_edgesFrom_iff catalog startId p edge).mp hEdge
    with ⟨before, stage, after, hSplit, hMem⟩ | rfl
  · refine ⟨?_, ?_⟩
    · rcases h.source_of_mem_edges hSplit hMem with
        hFirst | hEarlier
      · exact hFirst ▸ hStart
      · apply hStage
        simp [hSplit, hEarlier]
    · rw [(ends_of_mem_edges hMem).1]
      apply hStage
      simp [hSplit]
  · refine ⟨?_, hFinal⟩
    rcases latest_eq_or_mem startId p with hFirst | hLast
    · exact hFirst.symm ▸ hStart
    · exact hStage _ hLast

/- The wires into a stage are those it was given. -/
theorem Tidy.enters_iff
    (h : p.Tidy)
    (catalog : Catalog)
    {before after : Pipeline}
    {stage : Stage}
    (hSplit : p = before ++ stage :: after)
    (port : Option Port)
    (source : String) :
    Sources.Enters
        ((p.toGraph catalog).wires.filter
          (fun edge => edge.target == stage.id))
        port source ↔
      Sources.Enters
        (stage.edges catalog (latest startId before))
        port source := by
  have hMem : stage.id ∈ p.ids := by simp [hSplit]
  have hReal := (h.real_toGraph_iff catalog stage.id).mpr hMem
  constructor
  · rintro ⟨edge, hWire, hPort, hSource⟩
    rw [List.mem_filter, Graph.mem_wires_iff,
      beq_iff_eq] at hWire
    rcases hWire with ⟨⟨hEdge, hTarget, _⟩, hId⟩
    rcases exists_split_of_mem_edges hEdge hTarget with
      ⟨others, other, rest, hOther, hOtherId, hFound⟩
    have hNodup := hSplit ▸ h.nodup
    rcases split_unique (hSplit.symm.trans hOther) hNodup
        (hOtherId.symm.trans hId) with
      ⟨rfl, rfl⟩
    exact ⟨edge, hFound, hPort, hSource⟩
  · rintro ⟨edge, hEdge, hPort, hSource⟩
    have hTarget := (ends_of_mem_edges hEdge).1
    refine ⟨edge, ?_, hPort, hSource⟩
    rw [List.mem_filter, Graph.mem_wires_iff, beq_iff_eq,
      hTarget]
    refine ⟨⟨?_, hReal, ?_⟩, rfl⟩
    · exact
        (mem_edgesFrom_iff catalog startId p edge).mpr
          (Or.inl ⟨before, stage, after, hSplit, hEdge⟩)
    · refine
        (h.source_of_mem_edges hSplit hEdge).imp id ?_
      intro hEarlier
      rw [h.real_toGraph_iff]
      simp [hSplit, hEarlier]

/- The operation of a stage is found under its id. -/
theorem Tidy.operations_get?
    (h : p.Tidy)
    (catalog : Catalog)
    {stage : Stage}
    (hStage : stage ∈ p) :
    ∃ node,
      (p.toGraph catalog).operations.get? stage.id =
          some node ∧
        node.toOperation = stage.toOperation := by
  have hMem : stage.id ∈ p.ids :=
    List.mem_map_of_mem hStage
  have hContains :=
    ((p.toGraph catalog).operations_contains_iff _).mpr
      ((h.real_toGraph_iff catalog stage.id).mpr hMem)
  rcases Option.isSome_iff_exists.mp hContains with
    ⟨node, hNode⟩
  refine ⟨node, hNode, ?_⟩
  rcases Graph.operations_get? hNode with ⟨hFound, hId⟩
  rcases exists_node_of_stage hStage 1 with
    ⟨other, hOther, hSame⟩
  -- Both nodes have the id of the stage, which is no
  -- sentinel, and ids of stages are distinct.
  have hNotStart := h.real stage.id hMem
  have hNodes : node ∈ nodesFrom 1 p := by
    have hAll := List.mem_of_mem_filter hFound
    rcases List.mem_cons.mp hAll with rfl | hAll
    · rw [← hId] at hNotStart
      cases hNotStart
    · rcases List.mem_cons.mp hAll with rfl | hAll
      · rw [← hId] at hNotStart
        cases hNotStart
      · exact hAll
  have hNodup : ((nodesFrom 1 p).map (·.id)).Nodup := by
    rw [ids_nodesFrom]
    exact h.nodup
  have hOtherId : other.id = stage.id :=
    congrArg Operation.id hSame
  rw [List.inj_on_of_nodup_map hNodup hNodes hOther
    (hId.trans hOtherId.symm), hSame]

/- The stages of the rebuilt graph, in the same order. -/
theorem Tidy.stages_toGraph
    (h : p.Tidy)
    (catalog : Catalog)
    {before rest : Pipeline}
    (hSplit : p = before ++ rest) :
    stages (p.toGraph catalog).operations
        (p.toGraph catalog).wires (latest startId before)
        rest.ids =
      rest := by
  induction rest generalizing before with
  | nil => rfl
  | cons stage rest ih =>
      have hStage : stage ∈ p := by simp [hSplit]
      rcases h.operations_get? catalog hStage with
        ⟨node, hNode, hSame⟩
      have hRest :=
        @ih (before ++ [stage]) (by simp [hSplit])
      rw [latest_append_singleton] at hRest
      rw [ids_cons, stages, hNode]
      simp only
      rw [hRest,
        Sources.ofWires_congr (h.enters_iff catalog hSplit),
        Sources.ofWires_edges catalog
          (h.elided before stage rest hSplit),
        hSame]

/- The same order gives the same pipeline. -/
theorem Tidy.eq_of_ids_eq
    (h : p.Tidy)
    {catalog : Catalog}
    {q : Pipeline}
    (hPipeline : ofGraph (p.toGraph catalog) = .ok q)
    (hIds : q.ids = p.ids) :
    q = p := by
  have hStages := (ofGraph_eq_ok hPipeline).2
  rw [← ids_of_ofGraph hPipeline, hIds] at hStages
  rw [hStages]
  exact h.stages_toGraph catalog (List.nil_append p).symm

/- The rebuilt graph of a tidy pipeline has a pipeline. -/
theorem Tidy.exists_ofGraph
    (h : p.Tidy)
    (catalog : Catalog) :
    ∃ q, ofGraph (p.toGraph catalog) = .ok q := by
  rw [exists_ofGraph_iff, ← Graph.acyclic_dependencies_iff]
  exact
    ((Graph.orders_iff _ _).mp (h.orders_toGraph catalog)).acyclic
      (nodup_of_increasing
        (p.toGraph catalog).operations.pairwise_keys)

/-
  A tidy pipeline is rebuilt exactly when no other order of
  its graph comes before it.
-/
theorem Tidy.ofGraph_toGraph_iff
    (h : p.Tidy)
    (catalog : Catalog) :
    ofGraph (p.toGraph catalog) = .ok p ↔
      ∀ order, (p.toGraph catalog).Orders order →
        p.ids = order ∨ List.Lex (· < ·) p.ids order := by
  constructor
  · intro hPipeline order hOrder
    exact ids_le hPipeline hOrder
  · intro hLeast
    have hOrders := h.orders_toGraph catalog
    rcases h.exists_ofGraph catalog with ⟨q, hq⟩
    have hIds :=
      eq_of_least (ids_le hq hOrders)
        (hLeast q.ids (orders_of_ofGraph hq))
    rw [hq, h.eq_of_ids_eq hq hIds]

end Pipeline

end FractalShader

------------------------------------------------------------
-- Graphs Whose Inputs Are Fed Once
------------------------------------------------------------

namespace FractalShader

open Schedule

/-
  A wire into an input that no other source feeds has its
  source recorded, unless that one is expected.
-/
theorem Sources.recorded_of_fedOnce
    {wires : List Edge}
    {edge : Edge}
    (hEdge : edge ∈ wires)
    (hOnce :
      ∀ other ∈ wires, other.input = edge.input →
        other.source = edge.source)
    (expected : String) :
    (ofWires wires expected).a.getD expected = edge.source ∨
      (ofWires wires expected).b = some edge.source := by
  -- What is found for a port of the input is this source.
  have hFound :
      ∀ port source, port.getD .a = edge.input →
        smallest? wires port = some source →
          source = edge.source := by
    intro port source hPort hSome
    rcases exists_wire_of_smallest? hSome with
      ⟨other, hOther, rfl, rfl⟩
    exact hOnce other hOther hPort
  have hEnters :
      Enters wires edge.port edge.source :=
    ⟨edge, hEdge, rfl, rfl⟩
  have hSome :
      smallest? wires edge.port = some edge.source := by
    cases hCase : smallest? wires edge.port with
    | none =>
        exact
          absurd hEnters
            ((smallest?_eq_none_iff _ _).mp hCase _)
    | some source => rw [hFound _ source rfl hCase]
  have hFirst :
      ∀ found : Option String, found = some edge.source →
        (found.filter (· != expected)).getD expected =
          edge.source := by
    rintro _ rfl
    by_cases hEq : edge.source = expected
    · rw [hEq, Option.filter_some, if_neg (by simp)]
      rfl
    · rw [Option.filter_some, if_pos (by simpa using hEq)]
      rfl
  cases hPort : edge.port with
  | none =>
      left
      apply hFirst
      rw [← hPort, hSome]
      rfl
  | some port =>
      rw [hPort] at hSome
      cases port with
      | a =>
          left
          apply hFirst
          cases hUnnamed : smallest? wires none with
          | none => exact hSome
          | some source =>
              have hInput : edge.input = .a := by
                simp [Edge.input, hPort]
              rw [hFound none source hInput.symm hUnnamed]
              rfl
      | b => exact Or.inr hSome

namespace Pipeline

/- A source that is recorded or expected has its edge. -/
theorem exists_edge_of_recorded
    (catalog : Catalog)
    {previous source : String}
    {stage : Stage}
    (h :
      stage.sources.a.getD previous = source ∨
        stage.sources.b = some source) :
    ∃ edge ∈ stage.edges catalog previous,
      edge.source = source := by
  unfold Stage.edges
  cases hb : stage.sources.b with
  | none =>
      rw [hb] at h
      rcases h with rfl | h
      · exact ⟨_, List.mem_cons_self, rfl⟩
      · cases h
  | some other =>
      rw [hb] at h
      rcases h with rfl | h
      · exact ⟨_, List.mem_cons_self, rfl⟩
      · cases h
        exact
          ⟨_, List.mem_cons_of_mem _ List.mem_cons_self, rfl⟩

/- What feeds a stage of the graph feeds it in the rebuilt one. -/
theorem feeds_toGraph
    {g : Graph}
    (hFed : g.FedOnce)
    {p : Pipeline}
    (hPipeline : ofGraph g = .ok p)
    (catalog : Catalog)
    {x y : String}
    (hFeeds : g.Feeds x y) :
    (p.toGraph catalog).Feeds x y := by
  have hTidy := tidy_of_ofGraph hPipeline
  have hOrders := orders_of_ofGraph hPipeline
  have hx := (hOrders.mem_iff x).mpr hFeeds.1
  have hy := (hOrders.mem_iff y).mpr hFeeds.2.1
  refine
    ⟨(hTidy.real_toGraph_iff catalog x).mpr hx,
      (hTidy.real_toGraph_iff catalog y).mpr hy, ?_⟩
  rcases hFeeds with ⟨hRealX, hRealY, edge, hEdge, rfl, rfl⟩
  rcases List.mem_map.mp hy with ⟨stage, hStage, hId⟩
  rcases List.append_of_mem hStage with
    ⟨before, after, hSplit⟩
  -- All wires into the input of the edge have its source.
  have hRecorded :
      stage.sources.a.getD (latest startId before) =
          edge.source ∨
        stage.sources.b = some edge.source := by
    rw [hSplit] at hPipeline
    rw [sources_of_ofGraph hPipeline]
    apply Sources.recorded_of_fedOnce
    · rw [List.mem_filter, Graph.mem_wires_iff, beq_iff_eq]
      exact ⟨⟨hEdge, hRealY, Or.inr hRealX⟩, hId.symm⟩
    · intro other hOther hInput
      rw [List.mem_filter, Graph.mem_wires_iff,
        beq_iff_eq] at hOther
      exact
        hFed edge hEdge other hOther.1.1 hRealY.1
          (hOther.2.trans hId) hInput
  rcases exists_edge_of_recorded catalog hRecorded with
    ⟨rebuilt, hRebuilt, hSource⟩
  refine ⟨rebuilt, ?_, hSource, ?_⟩
  · exact
      (mem_edgesFrom_iff catalog startId p rebuilt).mpr
        (Or.inl ⟨before, stage, after, hSplit, hRebuilt⟩)
  · exact (ends_of_mem_edges hRebuilt).1.trans hId

/- The pipeline of a graph is rebuilt when inputs are fed once. -/
theorem ofGraph_toGraph_of_fedOnce
    {g : Graph}
    (hFed : g.FedOnce)
    {p : Pipeline}
    (hPipeline : ofGraph g = .ok p)
    (catalog : Catalog) :
    ofGraph (p.toGraph catalog) = .ok p := by
  have hTidy := tidy_of_ofGraph hPipeline
  have hOrders := orders_of_ofGraph hPipeline
  rcases ids_eq_of_wired hPipeline
      (fun id =>
        (hTidy.real_toGraph_iff catalog id).trans
          (hOrders.mem_iff id))
      (fun x y => feeds_toGraph hFed hPipeline catalog)
      (fun x y => hTidy.before_of_feeds) with
    ⟨q, hq, hIds⟩
  rw [hq, hTidy.eq_of_ids_eq hq hIds]

end Pipeline

end FractalShader

------------------------------------------------------------
-- Pipelines Without Sources
------------------------------------------------------------

namespace FractalShader

open Schedule

namespace Pipeline

/- Neighbours in both lists alike leave one list. -/
theorem eq_of_neighbours
    {ids order : List String}
    (hPerm : order.Perm ids)
    (hNodup : order.Nodup)
    (hNeighbours :
      ∀ x y before after, ids = before ++ x :: y :: after →
        Before order x y) :
    ids = order := by
  have hTrans : Trans (Before order) (Before order)
      (Before order) :=
    ⟨fun hxy hyz => hxy.trans hNodup hyz⟩
  have hIds : ids.Pairwise (Before order) :=
    List.isChain_iff_pairwise.mp
      (List.isChain_iff_forall_rel_of_append_cons_cons.mpr
        fun x y before after hSplit =>
          hNeighbours x y before after hSplit)
  have hOrder : order.Pairwise (Before order) := by
    rw [List.pairwise_iff_forall_sublist]
    exact fun hPair => hPair
  refine hPerm.symm.eq_of_pairwise ?_ hIds hOrder
  intro x y _ _ hxy hyx
  exact absurd (hxy.trans hNodup hyx) (not_before_self hNodup x)

/- A stage without a recorded source is fed by the one before. -/
theorem Tidy.feeds_of_neighbours
    {p : Pipeline}
    (h : p.Tidy)
    (catalog : Catalog)
    {before after : Pipeline}
    {first second : Stage}
    (hSplit : p = before ++ first :: second :: after)
    (hFree : second.sources = {}) :
    (p.toGraph catalog).Feeds first.id second.id := by
  have hRecorded :
      second.sources.a.getD
          (latest startId (before ++ [first])) =
          first.id ∨
        second.sources.b = some first.id := by
    rw [hFree, latest_append_singleton]
    exact Or.inl rfl
  rcases exists_edge_of_recorded catalog hRecorded with
    ⟨edge, hEdge, hSource⟩
  refine ⟨?_, ?_, edge, ?_, hSource, ?_⟩
  · rw [h.real_toGraph_iff]
    simp [hSplit]
  · rw [h.real_toGraph_iff]
    simp [hSplit]
  · exact
      (mem_edgesFrom_iff catalog startId p edge).mpr
        (Or.inl
          ⟨before ++ [first], second, after, by simp [hSplit],
            hEdge⟩)
  · exact (ends_of_mem_edges hEdge).1

/- A chain has one order, whatever its ids. -/
theorem ofGraph_toGraph_of_sourceFree
    {p : Pipeline}
    (hNodup : p.ids.Nodup)
    (hReal : ∀ stage ∈ p, isSentinel stage.id = false)
    (hFree : ∀ stage ∈ p, stage.sources = {})
    (catalog : Catalog) :
    ofGraph (p.toGraph catalog) = .ok p := by
  have hTidy := tidy_of_sourceFree hNodup hReal hFree
  rw [hTidy.ofGraph_toGraph_iff]
  intro order hOrder
  left
  apply eq_of_neighbours _ hOrder.nodup
  · intro x y before after hIds
    apply hOrder.forward
    rcases List.map_eq_append_iff.mp hIds with
      ⟨left, right, rfl, _, hRight⟩
    rcases List.map_eq_cons_iff.mp hRight with
      ⟨first, rest, rfl, rfl, hRest⟩
    rcases List.map_eq_cons_iff.mp hRest with
      ⟨second, others, rfl, rfl, _⟩
    exact
      hTidy.feeds_of_neighbours catalog rfl
        (hFree second (by simp))
  · rw [List.perm_ext_iff_of_nodup hOrder.nodup hNodup]
    intro id
    rw [hOrder.mem_iff, hTidy.real_toGraph_iff]

end Pipeline

end FractalShader

------------------------------------------------------------
-- Pipelines of Runs
------------------------------------------------------------

namespace FractalShader

namespace Pipeline

/- A pipeline of stages that compare to themselves. -/
theorem compareBy_self
    {related : Stage → Stage → Bool}
    {p : Pipeline}
    (h : ∀ stage ∈ p, related stage stage = true) :
    compareBy related p p = true := by
  induction p with
  | nil => rfl
  | cons stage p ih =>
      rcases List.forall_mem_cons.mp h with ⟨hStage, hRest⟩
      rw [compareBy, hStage, ih hRest]
      rfl

/- Values other than NaN are equal to themselves. -/
theorem same_self_of_numbers
    {p : Pipeline}
    (h :
      ∀ stage ∈ p, ∀ entry ∈ stage.params.entries,
        entry.2 ≠ .nan) :
    same p p = true := by
  have hParams :
      ∀ entries : List (String × F32),
        (∀ entry ∈ entries, entry.2 ≠ .nan) →
          Params.same entries entries = true := by
    intro entries hNumbers
    induction entries with
    | nil => rfl
    | cons entry entries ih =>
        rcases List.forall_mem_cons.mp hNumbers with
          ⟨hValue, hRest⟩
        rcases entry with ⟨key, value⟩
        simp [Params.same, ih hRest,
          (Binary.equal_self_iff value).mpr hValue]
  apply compareBy_self
  intro stage hStage
  simp [Stage.same, hParams _ (h stage hStage)]

theorem same_self
    {p : Pipeline}
    (h :
      ∀ stage ∈ p, ∀ entry ∈ stage.params.entries,
        entry.2.isFinite = true) :
    same p p = true :=
  same_self_of_numbers fun stage hStage entry hEntry =>
    Binary.ne_nan_of_isFinite (h stage hStage entry hEntry)

/- Stages have the values of the nodes of the graph. -/
theorem values_of_ofGraph
    {Allowed : F32 → Prop}
    {g : Graph}
    (hValues : g.AllValues Allowed)
    {p : Pipeline}
    (h : ofGraph g = .ok p) :
    ∀ stage ∈ p, ∀ entry ∈ stage.params.entries,
      Allowed entry.2 := by
  intro stage hStage entry hEntry
  rw [(ofGraph_eq_ok h).2] at hStage
  rcases operation_of_stages hStage with
    ⟨node, hNode, hSame⟩
  have hMem := (Graph.operations_get? hNode).1
  rw [hSame] at hEntry
  exact
    hValues node (List.mem_of_mem_filter hMem) entry.1 entry.2
      ((Dict.get?_eq_some_iff _ _ _).mpr hEntry)

theorem isFinite_of_ofGraph
    {g : Graph}
    (hFinite : g.FiniteValues)
    {p : Pipeline}
    (h : ofGraph g = .ok p) :
    ∀ stage ∈ p, ∀ entry ∈ stage.params.entries,
      entry.2.isFinite = true :=
  values_of_ofGraph hFinite h

/-
  Every run of actions, under any catalog, leaves a graph
  with a pipeline, and the graph rebuilt from it has the
  same pipeline.  So has every pipeline without sources of
  distinct ids that are no sentinels, in any order of ids.
-/
theorem rebuilt (catalog : Catalog) :
    (∀ actions : List Action,
      ∃ p,
        ofGraph (Graph.initial.runWith catalog actions) =
            .ok p ∧
          ofGraph (p.toGraph catalog) = .ok p ∧
          same p p = true) ∧
    ∀ p : Pipeline, p.ids.Nodup →
      (∀ stage ∈ p, isSentinel stage.id = false) →
        (∀ stage ∈ p, stage.sources = {}) →
          ofGraph (p.toGraph catalog) = .ok p := by
  constructor
  · intro actions
    have hOrderly :=
      Graph.orderly_initial.runWith catalog actions
    rcases (exists_ofGraph_iff _).mpr hOrderly.acyclic with
      ⟨p, hp⟩
    refine ⟨p, hp, ?_, ?_⟩
    · exact
        ofGraph_toGraph_of_fedOnce
          (Graph.fedOnce_initial.runWith catalog actions) hp
          catalog
    · apply same_self
      exact
        isFinite_of_ofGraph
          (Graph.finiteValues_initial.runWith catalog actions)
          hp
  · intro p hNodup hReal hFree
    exact ofGraph_toGraph_of_sourceFree hNodup hReal hFree catalog

/- Three stages against the order of their ids. -/
def sampleChain : Pipeline :=
  [{ id := "turn", kind := "rotate" },
    { id := "fold", kind := "box_fold" },
    { id := "sum", kind := "union" }]

theorem rebuilt_sampleChain :
    (sampleChain.ids.Nodup ∧
      ofGraph (sampleChain.toGraph .builtIn) =
        .ok sampleChain) ∧
      ∃ p,
        ofGraph (Graph.initial.performAll Graph.sampleRun) =
            .ok p ∧
          (p.map fun stage => (stage.id, stage.sources)) =
            [("turn", {}), ("sum", ⟨none, some startId⟩)] ∧
          ofGraph (p.toGraph .builtIn) = .ok p := by
  rcases rebuilt .builtIn with ⟨hRuns, hFree⟩
  refine ⟨⟨by decide, ?_⟩, ?_⟩
  · exact
      hFree sampleChain (by decide) (by decide) (by decide)
  · rcases hRuns Graph.sampleRun with ⟨p, hp, hRebuilt, _⟩
    rw [Graph.runWith_builtIn] at hp
    have hSources :
        (ofGraph
            (Graph.initial.performAll Graph.sampleRun)).map
            (List.map fun stage => (stage.id, stage.sources)) =
          .ok
            [("turn", {}), ("sum", ⟨none, some startId⟩)] := by
      decide +kernel
    rw [hp] at hSources
    injection hSources with hSources
    exact ⟨p, hp, hSources, hRebuilt⟩

end Pipeline

end FractalShader
