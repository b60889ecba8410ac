import FractalShader.Proofs.Pipeline.OfGraph

/-
  The nodes that are reported when a graph has no pipeline.

  Whatever waits is entered from something that waits, and
  among finitely many ids such a chain closes: it comes from
  a cycle.  Nothing behind a cycle is ever taken, since all
  that leads to a taken id was taken before it.

  Main declarations:
    * `Arrow.BehindCycle`
    * `Schedule.behindCycle_of_entered`
    * `Schedule.before_of_path`
    * `Schedule.mem_waiting_iff`
    * `Pipeline.mem_stuck_iff`
    * `Pipeline.reports_cycles`
-/

------------------------------------------------------------
-- Ids Behind a Cycle
------------------------------------------------------------

namespace FractalShader

open Relation

namespace Arrow

/- An id lies on a cycle, or a cycle leads to it. -/
def BehindCycle
    (arrows : List Arrow)
    (id : String) : Prop :=
  ∃ first,
    TransGen (Leads arrows) first first ∧
      ReflTransGen (Leads arrows) first id

theorem BehindCycle.tail
    {arrows : List Arrow}
    {x y : String}
    (h : BehindCycle arrows x)
    (hStep : Leads arrows x y) :
    BehindCycle arrows y := by
  rcases h with ⟨first, hCycle, hPath⟩
  exact ⟨first, hCycle, hPath.tail hStep⟩

/- Some arrow enters every id behind a cycle. -/
theorem BehindCycle.exists_entering
    {arrows : List Arrow}
    {id : String}
    (h : BehindCycle arrows id) :
    ∃ x, Leads arrows x id := by
  rcases h with ⟨first, hCycle, hPath⟩
  rcases TransGen.tail'_iff.mp (hCycle.trans_left hPath) with
    ⟨x, _, hLast⟩
  exact ⟨x, hLast⟩

end Arrow

end FractalShader

------------------------------------------------------------
-- Ids That Wait
------------------------------------------------------------

namespace FractalShader

open Relation

namespace Schedule

/- Ids entered from each other lie behind a cycle. -/
theorem behindCycle_of_entered
    {arrows : List Arrow}
    {ids : List String}
    (hEntered :
      ∀ id ∈ ids, ∃ a ∈ arrows,
        a.target = id ∧ a.source ∈ ids) :
    ∀ id ∈ ids, Arrow.BehindCycle arrows id := by
  classical
  -- The arrows that lead behind no cycle are acyclic.  Ids
  -- behind no cycle would be entered from each other along
  -- these arrows.
  let free :=
    arrows.filter fun a =>
      ¬ Arrow.BehindCycle arrows a.target
  have hAcyclic : Arrow.Acyclic free := by
    intro id hCycle
    rcases TransGen.tail'_iff.mp hCycle with ⟨x, _, hLast⟩
    have hFree : ¬ Arrow.BehindCycle arrows id := by
      simpa using (List.mem_filter.mp hLast).2
    have hSubset : free ⊆ arrows := List.filter_subset_self _
    have hAround : TransGen (Arrow.Leads arrows) id id :=
      TransGen.mono (Arrow.leads_mono hSubset) _ _ hCycle
    exact hFree ⟨id, hAround, .refl⟩
  have hNone :
      ids.filter
          (fun id => ¬ Arrow.BehindCycle arrows id) =
        [] := by
    apply eq_nil_of_acyclic hAcyclic
    intro id hId
    rcases List.mem_filter.mp hId with ⟨hMem, hFree⟩
    rcases hEntered id hMem with ⟨a, ha, rfl, hSource⟩
    refine
      ⟨a, List.mem_filter.mpr ⟨ha, hFree⟩, rfl,
        List.mem_filter.mpr ⟨hSource, ?_⟩⟩
    rw [decide_eq_true_eq] at hFree ⊢
    intro hBehind
    exact hFree (hBehind.tail ha)
  intro id hId
  by_contra hFree
  have hMem := List.eq_nil_iff_forall_not_mem.mp hNone id
  exact hMem (List.mem_filter.mpr ⟨hId, by simpa using hFree⟩)

/- A path to a taken id comes from ids taken before it. -/
theorem before_of_path
    {pending : List String}
    {arrows : List Arrow}
    {x y : String}
    (hPath : TransGen (Arrow.Leads arrows) x y)
    (hTaken : y ∈ (along pending arrows).1)
    (hNodup : (along pending arrows).1.Nodup) :
    Before (along pending arrows).1 x y := by
  induction hPath using TransGen.head_induction_on with
  | single hStep =>
      exact before_of_mem_along pending arrows _ hStep hTaken
  | head hStep _ ih =>
      have hMiddle := ih.left_mem
      have hFirst :=
        before_of_mem_along pending arrows _ hStep hMiddle
      exact hFirst.trans hNodup ih

/- The ids that wait are those behind a cycle. -/
theorem mem_waiting_iff
    {pending : List String}
    {arrows : List Arrow}
    (hNodup : pending.Nodup)
    (hWithin : Within pending arrows)
    (id : String) :
    id ∈ (along pending arrows).2 ↔
      Arrow.BehindCycle arrows id := by
  have hPerm := perm_along pending arrows
  constructor
  · intro hWaits
    exact
      behindCycle_of_entered
        (exists_waiting_source pending arrows hNodup hWithin)
        id hWaits
  · intro hBehind
    rcases hBehind.exists_entering with ⟨x, hEnters⟩
    have hPending := (hWithin _ hEnters).2
    rcases List.mem_append.mp (hPerm.mem_iff.mpr hPending) with
      hTaken | hWaits
    · -- The cycle would have been taken before itself.
      have hOnce := nodup_along arrows hNodup
      rcases hBehind with ⟨first, hCycle, hPath⟩
      have hFirst :=
        before_of_path (hCycle.trans_left hPath) hTaken hOnce
      have hSelf :=
        before_of_path hCycle hFirst.left_mem hOnce
      exact absurd hSelf (not_before_self hOnce first)
    · exact hWaits

end Schedule

end FractalShader

------------------------------------------------------------
-- The Report
------------------------------------------------------------

namespace FractalShader

open Relation

namespace Pipeline

/- The nodes that wait are fed by a cycle, or lie on one. -/
theorem mem_stuck_iff
    (g : Graph)
    (id : String) :
    id ∈ stuck g ↔
      ∃ first,
        TransGen g.Feeds first first ∧
          ReflTransGen g.Feeds first id := by
  rw [← g.leads_dependencies]
  exact
    Schedule.mem_waiting_iff
      (Schedule.nodup_of_increasing g.operations.pairwise_keys)
      g.within_dependencies id

theorem increasing_stuck (g : Graph) :
    (stuck g).Pairwise (· < ·) :=
  g.operations.pairwise_keys.sublist
    (Schedule.sublist_along _ _)

/- Only nodes with a stage wait. -/
theorem real_of_mem_stuck
    {g : Graph}
    {id : String}
    (h : id ∈ stuck g) :
    g.Real id := by
  rw [← g.mem_operations_keys_iff]
  exact (Schedule.sublist_along _ _).subset h

/- A report is made when nodes wait, and names these. -/
theorem ofGraph_eq_cycle_iff
    (g : Graph)
    (waiting : List String) :
    ofGraph g = .error (.cycle waiting) ↔
      waiting ≠ [] ∧ waiting = stuck g := by
  rw [ofGraph_eq]
  split
  · rename_i hStuck
    rw [hStuck]
    simp
  · rename_i hStuck
    rw [Except.error.injEq, Failure.cycle.injEq, eq_comm]
    constructor
    · rintro rfl
      exact ⟨hStuck, rfl⟩
    · exact And.right

/-
  A graph without a pipeline is reported with the increasing
  list of those nodes with a stage that lie on a cycle or
  behind one.  The list is never empty, and a graph for
  which this list is not empty is reported.
-/
theorem reports_cycles
    (g : Graph)
    (waiting : List String) :
    ofGraph g = .error (.cycle waiting) ↔
      waiting ≠ [] ∧
        waiting.Pairwise (· < ·) ∧
        ∀ id,
          id ∈ waiting ↔
            g.Real id ∧
              ∃ first,
                TransGen g.Feeds first first ∧
                  ReflTransGen g.Feeds first id := by
  have hStuck :
      ∀ id,
        id ∈ stuck g ↔
          g.Real id ∧
            ∃ first,
              TransGen g.Feeds first first ∧
                ReflTransGen g.Feeds first id := by
    intro id
    rw [← mem_stuck_iff]
    exact ⟨fun h => ⟨real_of_mem_stuck h, h⟩, And.right⟩
  rw [ofGraph_eq_cycle_iff]
  apply and_congr_right
  intro _
  constructor
  · rintro rfl
    exact ⟨increasing_stuck g, hStuck⟩
  · rintro ⟨hIncreasing, hMem⟩
    apply
      Schedule.eq_of_increasing hIncreasing
        (increasing_stuck g)
    intro id
    rw [hMem, hStuck]

/-
  Two stages feed each other along parallel edges, a third
  one feeds itself, and a fourth one is behind both.  What
  feeds the cycle and what stands alone is not reported.
-/
example :
    ofGraph
        { nodes :=
            ["in", "x", "y", "loop", "out", "alone"].map
              fun id => { id := id, kind := "union" }
          edges :=
            [("in", "x"), ("x", "y"), ("x", "y"), ("y", "x"),
              ("loop", "loop"), ("y", "out"),
              ("loop", "out"), (startId, "alone"),
              ("gone", "alone")].map
              fun ends => ⟨"", ends.1, ends.2, none⟩ } =
      .error (.cycle ["loop", "out", "x", "y"]) := by
  decide +kernel

end Pipeline

end FractalShader
