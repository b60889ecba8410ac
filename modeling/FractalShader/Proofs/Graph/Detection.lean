import FractalShader.Graph.Editing
import FractalShader.Proofs.Graph.Cycles
import Mathlib.Data.List.Nodup

/-
  The search for a cycle decides whether a new edge closes
  one.

  Any nodes and edges are allowed: ids may repeat, edges may
  be parallel, be loops, or miss an end.  Only ids count, so
  the answer is the one that any exact search gives on nodes
  numbered by their places.

  Main declarations:
    * `Arrow.Among`
    * `Arrow.closesCycle_iff`
    * `Arrow.cycle_iff_reaches`
    * `Numbering`
    * `Numbering.ofIds`
    * `Numbering.cyclic_ofIds_iff`
    * `Graph.wouldCycle_iff`
-/

------------------------------------------------------------
-- Arrows among Ids
------------------------------------------------------------

namespace FractalShader

open Relation

namespace Arrow

/- An arrow between two of some ids leads from one to another. -/
def Among
    (ids : List String)
    (arrows : List Arrow)
    (x y : String) : Prop :=
  x ∈ ids ∧ y ∈ ids ∧ Leads arrows x y

variable {ids : List String} {arrows : List Arrow}
variable {candidate : Arrow}

theorem leads_within :
    Leads (within ids arrows) = Among ids arrows := by
  funext x y
  simp [Leads, Among, within, and_comm, and_assoc]

/- The search answers whether some id leads back to itself. -/
theorem closesCycle_iff
    (hApart : candidate.source ≠ candidate.target) :
    closesCycle ids arrows candidate = true ↔
      ∃ id,
        TransGen (Among ids (arrows ++ [candidate])) id id := by
  have hFalse := closesCycle_eq_false_iff ids arrows candidate
  rw [and_iff_right hApart, Acyclic, leads_within] at hFalse
  rw [← not_iff_not, Bool.not_eq_true, hFalse, not_exists]

/- Among more arrows there are more paths. -/
theorem among_mono
    (candidate : Arrow) :
    Among ids arrows ≤ Among ids (arrows ++ [candidate]) :=
  fun _ _ h => ⟨h.1, h.2.1, List.mem_append_left _ h.2.2⟩

/- A step takes an old arrow or the new one. -/
theorem among_append_cases
    {x y : String}
    (h : Among ids (arrows ++ [candidate]) x y) :
    Among ids arrows x y ∨
      x = candidate.source ∧ y = candidate.target := by
  rcases h with ⟨hx, hy, hLeads⟩
  rcases List.mem_append.mp hLeads with hOld | hNew
  · exact Or.inl ⟨hx, hy, hOld⟩
  · cases List.mem_singleton.mp hNew
    exact Or.inr ⟨rfl, rfl⟩

/-
  A path takes old arrows only, or it comes to the new arrow
  for the first time and leaves it for the last time.
-/
theorem path_append_cases
    {x y : String}
    (h : TransGen (Among ids (arrows ++ [candidate])) x y) :
    TransGen (Among ids arrows) x y ∨
      ReflTransGen (Among ids arrows) x candidate.source ∧
        ReflTransGen (Among ids arrows) candidate.target
          y := by
  induction h with
  | single hFirst =>
      rcases among_append_cases hFirst with hOld | ⟨rfl, rfl⟩
      · exact Or.inl (.single hOld)
      · exact Or.inr ⟨.refl, .refl⟩
  | tail _ hLast ih =>
      rcases among_append_cases hLast with hOld | ⟨rfl, rfl⟩
      · rcases ih with hPath | ⟨hTo, hFrom⟩
        · exact Or.inl (hPath.tail hOld)
        · exact Or.inr ⟨hTo, hFrom.tail hOld⟩
      · rcases ih with hPath | ⟨hTo, _⟩
        · exact Or.inr ⟨hPath.to_reflTransGen, .refl⟩
        · exact Or.inr ⟨hTo, .refl⟩

/-
  Without a cycle before, there is one with a new arrow when
  its end leads to its start.
-/
theorem cycle_iff_reaches
    (hSource : candidate.source ∈ ids)
    (hTarget : candidate.target ∈ ids)
    (hAcyclic : ∀ id, ¬ TransGen (Among ids arrows) id id) :
    (∃ id,
        TransGen (Among ids (arrows ++ [candidate])) id
          id) ↔
      ReflTransGen (Among ids arrows) candidate.target
        candidate.source := by
  constructor
  · rintro ⟨id, hCycle⟩
    rcases path_append_cases hCycle with hOld | ⟨hTo, hFrom⟩
    · exact absurd hOld (hAcyclic id)
    · exact hFrom.trans hTo
  · intro hBack
    have hNew :
        Among ids (arrows ++ [candidate]) candidate.source
          candidate.target :=
      ⟨hSource, hTarget, List.mem_append_right _ (by simp)⟩
    exact
      ⟨candidate.source,
        TransGen.head' hNew
          (ReflTransGen.mono (among_mono candidate) _ _
            hBack)⟩

end Arrow

end FractalShader

------------------------------------------------------------
-- Numbered Nodes
------------------------------------------------------------

namespace FractalShader

open Relation

/- A graph with numbers for its nodes. -/
structure Numbering where
  size : Nat
  arrows : List (Nat × Nat)

namespace Numbering

/- Some node leads back to itself. -/
def Cyclic (g : Numbering) : Prop :=
  ∃ i, TransGen (fun i j => (i, j) ∈ g.arrows) i i

/- The number of an id: the last place that holds it. -/
def place?
    (ids : List String)
    (id : String) : Option Nat :=
  (Dict.ofList ids.zipIdx).get? id

/- The arrow between the numbers of two ids. -/
def arrow?
    (ids : List String)
    (a : Arrow) : Option (Nat × Nat) := do
  let source ← place? ids a.source
  let target ← place? ids a.target
  some (source, target)

/-
  Every id in a list is a node, and the arrows that miss an
  end are left out.
-/
def ofIds
    (ids : List String)
    (arrows : List Arrow) : Numbering where
  size := ids.length
  arrows := arrows.filterMap (arrow? ids)

/- Whether a new arrow closes a cycle, as a search finds. -/
def closesCycle
    (search : Numbering → Bool)
    (ids : List String)
    (arrows : List Arrow)
    (candidate : Arrow) : Bool :=
  candidate.source == candidate.target ||
    search (ofIds ids (arrows ++ [candidate]))

/-
  A path of labels is one of what they belong to, when a
  label belongs to one thing only.
-/
theorem labelled_path
    {α β : Type}
    {r : α → α → Prop}
    {s : β → β → Prop}
    (label : α → β → Prop)
    (hUnique :
      ∀ {a b : α} {i : β}, label a i → label b i → a = b)
    (hStep :
      ∀ i j, s i j → ∃ a b, label a i ∧ label b j ∧ r a b)
    {i j : β}
    (h : TransGen s i j) :
    ∃ a b, label a i ∧ label b j ∧ TransGen r a b := by
  induction h with
  | single hFirst =>
      rcases hStep _ _ hFirst with ⟨a, b, ha, hb, hRelated⟩
      exact ⟨a, b, ha, hb, .single hRelated⟩
  | tail _ hLast ih =>
      rcases ih with ⟨a, b, ha, hb, hPath⟩
      rcases hStep _ _ hLast with ⟨b', c, hb', hc, hRelated⟩
      cases hUnique hb hb'
      exact ⟨a, c, ha, hc, hPath.tail hRelated⟩

variable {ids : List String} {arrows : List Arrow}

/- The place of an id holds it. -/
theorem getElem?_of_place?
    {id : String}
    {i : Nat}
    (h : place? ids id = some i) :
    ids[i]? = some id := by
  rw [place?, Dict.get?_ofList, Option.map_eq_some_iff] at h
  rcases h with ⟨⟨found, place⟩, hFound, rfl⟩
  have hId : found = id := by simpa using List.find?_some hFound
  have hMem := List.mem_of_find?_eq_some hFound
  rw [List.mem_reverse, List.mem_zipIdx_iff_getElem?] at hMem
  exact hId ▸ hMem

/- An id that is listed has a place. -/
theorem exists_place?
    {id : String}
    (h : id ∈ ids) :
    ∃ i, place? ids id = some i := by
  rcases List.getElem?_of_mem h with ⟨i, hPlace⟩
  apply Option.isSome_iff_exists.mp
  apply (Dict.contains_ofList _ _).mpr
  exact ⟨(id, i), List.mem_zipIdx_iff_getElem?.mpr hPlace, rfl⟩

/- Two ids have two places. -/
theorem place?_injective
    {x y : String}
    {i : Nat}
    (hx : place? ids x = some i)
    (hy : place? ids y = some i) :
    x = y :=
  Option.some.inj
    ((getElem?_of_place? hx).symm.trans (getElem?_of_place? hy))

/- Numbers are joined when the ids at them are. -/
theorem mem_ofIds_iff
    {i j : Nat} :
    (i, j) ∈ (ofIds ids arrows).arrows ↔
      ∃ x y,
        place? ids x = some i ∧
          place? ids y = some j ∧ Arrow.Leads arrows x y := by
  simp only [ofIds, List.mem_filterMap, arrow?,
    Option.bind_eq_bind, Option.bind_eq_some_iff,
    Option.some.injEq, Prod.mk.injEq]
  constructor
  · rintro ⟨a, hArrow, source, hSource, target, hTarget,
      rfl, rfl⟩
    exact ⟨a.source, a.target, hSource, hTarget, hArrow⟩
  · rintro ⟨x, y, hx, hy, hLeads⟩
    exact ⟨⟨x, y⟩, hLeads, i, hx, j, hy, rfl, rfl⟩

/- A path of numbers is one of ids. -/
theorem ids_path
    {i j : Nat}
    (h :
      TransGen (fun i j => (i, j) ∈ (ofIds ids arrows).arrows)
        i j) :
    ∃ x y,
      place? ids x = some i ∧
        place? ids y = some j ∧
        TransGen (Arrow.Among ids arrows) x y := by
  have hListed :
      ∀ {x : String} {i : Nat}, place? ids x = some i →
        x ∈ ids :=
    fun hx => List.mem_of_getElem? (getElem?_of_place? hx)
  refine
    labelled_path (fun x i => place? ids x = some i)
      place?_injective ?_ h
  intro i j hStep
  rcases mem_ofIds_iff.mp hStep with ⟨x, y, hx, hy, hLeads⟩
  exact ⟨x, y, hx, hy, hListed hx, hListed hy, hLeads⟩

/- A path of ids is one of numbers. -/
theorem numbers_path
    {x y : String}
    (h : TransGen (Arrow.Among ids arrows) x y)
    {i j : Nat}
    (hx : place? ids x = some i)
    (hy : place? ids y = some j) :
    TransGen (fun i j => (i, j) ∈ (ofIds ids arrows).arrows)
      i j := by
  induction h generalizing j with
  | single hFirst =>
      exact
        .single (mem_ofIds_iff.mpr ⟨x, _, hx, hy, hFirst.2.2⟩)
  | tail _ hLast ih =>
      rcases exists_place? hLast.1 with ⟨k, hMiddle⟩
      exact
        (ih hMiddle).tail
          (mem_ofIds_iff.mpr ⟨_, _, hMiddle, hy, hLast.2.2⟩)

/- Numbering keeps cycles. -/
theorem cyclic_ofIds_iff :
    (ofIds ids arrows).Cyclic ↔
      ∃ id, TransGen (Arrow.Among ids arrows) id id := by
  constructor
  · rintro ⟨i, hCycle⟩
    rcases ids_path hCycle with ⟨x, y, hx, hy, hPath⟩
    cases place?_injective hx hy
    exact ⟨x, hPath⟩
  · rintro ⟨id, hCycle⟩
    have hMem : id ∈ ids := by
      rcases TransGen.head'_iff.mp hCycle with ⟨_, hFirst, _⟩
      exact hFirst.1
    rcases exists_place? hMem with ⟨i, hi⟩
    exact ⟨i, numbers_path hCycle hi hi⟩

/- Every exact search for a cycle of numbers gives one answer. -/
theorem closesCycle_eq
    {search : Numbering → Bool}
    (hExact : ∀ g, search g = true ↔ g.Cyclic)
    (candidate : Arrow) :
    closesCycle search ids arrows candidate =
      Arrow.closesCycle ids arrows candidate := by
  by_cases hApart : candidate.source = candidate.target
  · simp [closesCycle, Arrow.closesCycle, hApart]
  · rw [Bool.eq_iff_iff, Arrow.closesCycle_iff hApart,
      ← cyclic_ofIds_iff, ← hExact]
    simp [closesCycle, hApart]

/- A number written as strokes. -/
def strokes (i : Nat) : String :=
  String.ofList (List.replicate i '|')

theorem strokes_injective
    {i j : Nat}
    {x : String}
    (hi : strokes i = x)
    (hj : strokes j = x) :
    i = j := by
  have hStrokes := String.ofList_injective (hi.trans hj.symm)
  simpa using congrArg List.length hStrokes

/- The search for a cycle, on numbers that are written out. -/
def search (g : Numbering) : Bool :=
  Arrow.cyclic
    (g.arrows.map fun a => ⟨strokes a.1, strokes a.2⟩)

/- It is exact. -/
theorem search_eq_true_iff
    (g : Numbering) :
    g.search = true ↔ g.Cyclic := by
  have hLeads :
      ∀ x y,
        Arrow.Leads
            (g.arrows.map fun a =>
              ⟨strokes a.1, strokes a.2⟩) x y ↔
          ∃ i j, strokes i = x ∧ strokes j = y ∧
            (i, j) ∈ g.arrows := by
    intro x y
    simp only [Arrow.Leads, List.mem_map, Prod.exists,
      Arrow.mk.injEq]
    constructor
    · rintro ⟨i, j, hMem, hx, hy⟩
      exact ⟨i, j, hx, hy, hMem⟩
    · rintro ⟨i, j, hx, hy, hMem⟩
      exact ⟨i, j, hMem, hx, hy⟩
  rw [← not_iff_not, Bool.not_eq_true, search,
    Arrow.cyclic_eq_false_iff, Cyclic, not_exists]
  constructor
  · intro hAcyclic i hCycle
    apply hAcyclic (strokes i)
    apply TransGen.lift strokes _ _ _ hCycle
    intro i j hMem
    exact (hLeads _ _).mpr ⟨i, j, rfl, rfl, hMem⟩
  · intro hAcyclic x hCycle
    rcases labelled_path (fun i x => strokes i = x)
        strokes_injective (fun x y => (hLeads x y).mp)
        hCycle with
      ⟨i, j, hi, hj, hPath⟩
    cases strokes_injective hi hj
    exact hAcyclic i hPath

end Numbering

end FractalShader

------------------------------------------------------------
-- New Edges
------------------------------------------------------------

namespace FractalShader

open Relation

namespace Graph

/-
  A new edge between two ids is found to close a cycle when
  one lies on the edges among the nodes and the new one; if
  none did before, when its end leads to its start.  Every
  exact search on numbered nodes answers the same.
-/
theorem wouldCycle_iff
    (g : Graph)
    (source target : String) :
    (source = target → g.wouldCycle source target = true) ∧
      (source ≠ target →
        (g.wouldCycle source target = true ↔
          ∃ id,
            TransGen
              (Arrow.Among g.ids
                (g.arrows ++ [⟨source, target⟩]))
              id id)) ∧
      (source ≠ target → source ∈ g.ids → target ∈ g.ids →
        (∀ id,
          ¬ TransGen (Arrow.Among g.ids g.arrows) id id) →
        (g.wouldCycle source target = true ↔
          ReflTransGen (Arrow.Among g.ids g.arrows) target
            source)) ∧
      ∀ search : Numbering → Bool,
        (∀ numbered,
          search numbered = true ↔ numbered.Cyclic) →
        Numbering.closesCycle search g.ids g.arrows
            ⟨source, target⟩ =
          g.wouldCycle source target := by
  refine ⟨?_, ?_, ?_, ?_⟩
  · rintro rfl
    simp [wouldCycle, Arrow.closesCycle]
  · intro hApart
    exact Arrow.closesCycle_iff hApart
  · intro hApart hSource hTarget hAcyclic
    exact
      (Arrow.closesCycle_iff hApart).trans
        (Arrow.cycle_iff_reaches hSource hTarget hAcyclic)
  · intro search hExact
    exact Numbering.closesCycle_eq hExact _

/-
  Two ways from one node to another, one of them twice, an
  id that two nodes have, and edges that miss an end.
-/
def diamond : Graph where
  nodes :=
    [{ id := "a", kind := "scale" },
      { id := "b", kind := "scale" },
      { id := "c", kind := "scale" },
      { id := "d", kind := "scale" },
      { id := "a", kind := "rotate" }]
  edges :=
    [⟨"e1", "a", "b", none⟩, ⟨"e2", "b", "d", none⟩,
      ⟨"e3", "a", "c", none⟩, ⟨"e4", "c", "d", none⟩,
      ⟨"e5", "a", "b", none⟩, ⟨"e6", "d", "gone", none⟩,
      ⟨"e7", "gone", "a", none⟩]

theorem wouldCycle_iff_diamond :
    diamond.wouldCycle "gone" "gone" = true ∧
      diamond.wouldCycle "d" "a" = true ∧
      ReflTransGen (Arrow.Among diamond.ids diamond.arrows)
        "a" "d" ∧
      (¬ ∃ id,
        TransGen
          (Arrow.Among diamond.ids
            (diamond.arrows ++ [⟨"a", "d"⟩]))
          id id) ∧
      Numbering.closesCycle Numbering.search diamond.ids
          diamond.arrows ⟨"d", "a"⟩ =
        true := by
  have hBack : diamond.wouldCycle "d" "a" = true := by
    decide +kernel
  have hAcross : ¬ diamond.wouldCycle "a" "d" = true := by
    decide +kernel
  have hNone :=
    mt ((diamond.wouldCycle_iff "a" "d").2.1 (by decide)).mpr
      hAcross
  -- Without the edge across there is no cycle either.
  have hAcyclic :
      ∀ id,
        ¬ TransGen (Arrow.Among diamond.ids diamond.arrows) id
          id :=
    fun id hCycle =>
      hNone
        ⟨id,
          TransGen.mono (Arrow.among_mono ⟨"a", "d"⟩) _ _
            hCycle⟩
  have hReaches :=
    ((diamond.wouldCycle_iff "d" "a").2.2.1 (by decide)
      (by decide) (by decide) hAcyclic).mp hBack
  have hSearch :=
    (diamond.wouldCycle_iff "d" "a").2.2.2 Numbering.search
      Numbering.search_eq_true_iff
  exact
    ⟨(diamond.wouldCycle_iff "gone" "gone").1 rfl, hBack,
      hReaches, hNone, hSearch.trans hBack⟩

end Graph

end FractalShader
