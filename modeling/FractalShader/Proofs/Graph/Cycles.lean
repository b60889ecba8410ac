import FractalShader.Graph.Arrow
import Mathlib.Logic.Relation

/-
  Reachability along arrows, and what it means that arrows
  close a cycle.

  Main declarations:
    * `Arrow.Leads`
    * `Arrow.Acyclic`
    * `Arrow.mem_reach_iff`
    * `Arrow.cyclic_eq_false_iff`
    * `Arrow.closesCycle_eq_false_iff`
-/

------------------------------------------------------------
-- Paths
------------------------------------------------------------

namespace FractalShader

open Relation

namespace Arrow

/- An arrow leads from one id to another. -/
def Leads
    (arrows : List Arrow)
    (x y : String) : Prop :=
  ⟨x, y⟩ ∈ arrows

/- No id leads back to itself. -/
def Acyclic (arrows : List Arrow) : Prop :=
  ∀ id, ¬ TransGen (Leads arrows) id id

/- Fewer arrows lead no further. -/
theorem leads_mono
    {arrows others : List Arrow}
    (hSubset : arrows ⊆ others) :
    Leads arrows ≤ Leads others :=
  fun _ _ h => hSubset h

/- Arrows among acyclic ones are acyclic. -/
theorem Acyclic.mono
    {arrows others : List Arrow}
    (hSubset : arrows ⊆ others)
    (h : Acyclic others) :
    Acyclic arrows := by
  intro id hCycle
  exact h id (TransGen.mono (leads_mono hSubset) _ _ hCycle)

@[simp] theorem mem_leaving_iff
    (id : String)
    (arrows : List Arrow)
    (a : Arrow) :
    a ∈ leaving id arrows ↔ a ∈ arrows ∧ a.source = id := by
  simp [leaving]

@[simp] theorem mem_entering_iff
    (id : String)
    (arrows : List Arrow)
    (a : Arrow) :
    a ∈ entering id arrows ↔ a ∈ arrows ∧ a.target = id := by
  simp [entering]

@[simp] theorem mem_withoutSource_iff
    (id : String)
    (arrows : List Arrow)
    (a : Arrow) :
    a ∈ withoutSource id arrows ↔
      a ∈ arrows ∧ a.source ≠ id := by
  simp [withoutSource]

theorem withoutSource_subset
    (id : String)
    (arrows : List Arrow) :
    withoutSource id arrows ⊆ arrows := by
  intro a ha
  exact ((mem_withoutSource_iff id arrows a).mp ha).1

theorem withoutSource_mono
    (id : String)
    {arrows others : List Arrow}
    (hSubset : arrows ⊆ others) :
    withoutSource id arrows ⊆ withoutSource id others :=
  List.filter_subset _ hSubset

/-
  A path either avoids the arrows that leave an id, or it
  ends at the id, or it goes on from the id for the last
  time along one of them.
-/
theorem reflTransGen_withoutSource
    (id : String)
    {arrows : List Arrow}
    {x y : String}
    (h : ReflTransGen (Leads arrows) x y) :
    ReflTransGen (Leads (withoutSource id arrows)) x y ∨
      y = id ∨
      ∃ t, Leads arrows id t ∧
        ReflTransGen (Leads (withoutSource id arrows)) t y := by
  induction h with
  | refl => exact Or.inl ReflTransGen.refl
  | @tail y z _ hLast ih =>
      by_cases hId : y = id
      · subst hId
        exact Or.inr (Or.inr ⟨z, hLast, ReflTransGen.refl⟩)
      · have hKept : Leads (withoutSource id arrows) y z :=
          (mem_withoutSource_iff id arrows _).mpr ⟨hLast, hId⟩
        rcases ih with hAvoids | hEnds | ⟨t, hFirst, hRest⟩
        · exact Or.inl (hAvoids.tail hKept)
        · exact absurd hEnds hId
        · exact Or.inr (Or.inr ⟨t, hFirst, hRest.tail hKept⟩)

end Arrow

end FractalShader

------------------------------------------------------------
-- Reachability
------------------------------------------------------------

namespace FractalShader

open Relation

namespace Arrow

/- Everything found is reached from the frontier. -/
theorem exists_path_of_mem_reach
    (arrows : List Arrow)
    (frontier : List String)
    {y : String}
    (h : y ∈ reach arrows frontier) :
    ∃ x ∈ frontier, ReflTransGen (Leads arrows) x y := by
  induction arrows, frontier using reach.induct with
  | case1 arrows => simp [reach] at h
  | case2 arrows id frontier ih =>
      rw [reach, List.mem_cons] at h
      rcases h with hHead | hRest
      · exact ⟨id, List.mem_cons_self, hHead ▸ .refl⟩
      · rcases ih hRest with ⟨x, hx, hPath⟩
        have hLonger : ReflTransGen (Leads arrows) x y :=
          ReflTransGen.mono
            (leads_mono (withoutSource_subset id arrows))
            _ _ hPath
        rcases List.mem_append.mp hx with hx | hx
        · exact ⟨x, List.mem_cons_of_mem _ hx, hLonger⟩
        · rcases List.mem_map.mp hx with ⟨a, ha, rfl⟩
          rcases (mem_leaving_iff id arrows a).mp ha with
            ⟨hArrow, hSource⟩
          have hStep : Leads arrows id a.target := by
            cases a
            cases hSource
            exact hArrow
          exact
            ⟨id, List.mem_cons_self,
              ReflTransGen.head hStep hLonger⟩

/- Everything reached from the frontier is found. -/
theorem mem_reach_of_path
    (arrows : List Arrow)
    (frontier : List String)
    {x y : String}
    (hx : x ∈ frontier)
    (hPath : ReflTransGen (Leads arrows) x y) :
    y ∈ reach arrows frontier := by
  induction arrows, frontier using reach.induct
      generalizing x with
  | case1 arrows => cases hx
  | case2 arrows id frontier ih =>
      rw [reach, List.mem_cons]
      -- The first id is dealt with once: later paths may
      -- avoid the arrows that leave it.
      have hThrough :
          ∀ t, Leads arrows id t →
            ReflTransGen (Leads (withoutSource id arrows)) t
                y →
            y ∈ reach (withoutSource id arrows)
              (frontier ++
                (leaving id arrows).map Arrow.target) := by
        intro t hStep hRest
        refine ih (List.mem_append_right _ ?_) hRest
        exact
          List.mem_map.mpr
            ⟨⟨id, t⟩,
              (mem_leaving_iff id arrows _).mpr ⟨hStep, rfl⟩,
              rfl⟩
      rcases reflTransGen_withoutSource id hPath with
        hAvoids | hEnds | ⟨t, hStep, hRest⟩
      · rcases List.mem_cons.mp hx with rfl | hx
        · rcases hAvoids.cases_head with hEq | ⟨t, hStep, _⟩
          · exact Or.inl hEq.symm
          · have hNe :=
              ((mem_withoutSource_iff x arrows _).mp hStep).2
            exact absurd rfl hNe
        · exact
            Or.inr (ih (List.mem_append_left _ hx) hAvoids)
      · exact Or.inl hEnds
      · exact Or.inr (hThrough t hStep hRest)

/- What is found is what the frontier reaches. -/
theorem mem_reach_iff
    (arrows : List Arrow)
    (frontier : List String)
    (y : String) :
    y ∈ reach arrows frontier ↔
      ∃ x ∈ frontier, ReflTransGen (Leads arrows) x y :=
  ⟨exists_path_of_mem_reach arrows frontier,
    fun ⟨_, hx, hPath⟩ =>
      mem_reach_of_path arrows frontier hx hPath⟩

end Arrow

end FractalShader

------------------------------------------------------------
-- Cycles
------------------------------------------------------------

namespace FractalShader

open Relation

namespace Arrow

/- The search for a cycle finds one if there is one. -/
theorem cyclic_eq_false_iff (arrows : List Arrow) :
    cyclic arrows = false ↔ Acyclic arrows := by
  constructor
  · intro h id hCycle
    rcases TransGen.head'_iff.mp hCycle with
      ⟨y, hFirst, hBack⟩
    have hNotFound :=
      (List.any_eq_false.mp h) ⟨id, y⟩ hFirst
    apply hNotFound
    rw [List.contains_iff_mem, mem_reach_iff]
    exact ⟨y, List.mem_singleton_self y, hBack⟩
  · intro h
    apply List.any_eq_false.mpr
    intro a ha hFound
    rw [List.contains_iff_mem, mem_reach_iff] at hFound
    rcases hFound with ⟨x, hx, hBack⟩
    cases List.mem_singleton.mp hx
    have hFirst : Leads arrows a.source a.target := ha
    exact h a.source (TransGen.head' hFirst hBack)

/- Arrows among some ids are kept when all ends are. -/
theorem within_eq_self
    {ids : List String}
    {arrows : List Arrow}
    (h :
      ∀ a ∈ arrows, a.source ∈ ids ∧ a.target ∈ ids) :
    within ids arrows = arrows := by
  apply List.filter_eq_self.mpr
  intro a ha
  simpa using h a ha

/-
  A new arrow is harmless when its ends differ and it leaves
  the arrows among the ids acyclic.
-/
theorem closesCycle_eq_false_iff
    (ids : List String)
    (arrows : List Arrow)
    (candidate : Arrow) :
    closesCycle ids arrows candidate = false ↔
      candidate.source ≠ candidate.target ∧
        Acyclic (within ids (arrows ++ [candidate])) := by
  simp [closesCycle, cyclic_eq_false_iff]

end Arrow

end FractalShader
