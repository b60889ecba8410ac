import FractalShader.Proofs.Graph.Cycles
import Mathlib.Data.Fintype.EquivFin
import Mathlib.Data.List.Nodup
import Mathlib.Order.WellFounded

/-
  Orders of ids along arrows.

  `Schedule.along` takes ready ids without counting: an id is
  ready when no arrow enters it, and the arrows that leave a
  taken id are dropped.  It ends without waiting ids exactly
  when the arrows are acyclic, and then it is the least of
  all orders along the arrows.

  Main declarations:
    * `Schedule.along`
    * `Schedule.Along`
    * `Schedule.along_of_acyclic`
    * `Schedule.Along.acyclic`
    * `Schedule.along_le`
-/

------------------------------------------------------------
-- Taking Ready Ids
------------------------------------------------------------

namespace FractalShader

namespace Schedule

/- The first id that no arrow enters. -/
def ready?
    (pending : List String)
    (arrows : List Arrow) : Option String :=
  pending.find? fun id =>
    !arrows.any (fun a => a.target == id)

/-
  Take ready ids one by one.  The ids that remain when none
  is ready wait for each other.
-/
def along
    (pending : List String)
    (arrows : List Arrow) : List String × List String :=
  match _hReady : ready? pending arrows with
  | none => ([], pending)
  | some id =>
      let rest :=
        along (pending.erase id)
          (Arrow.withoutSource id arrows)
      (id :: rest.1, rest.2)
termination_by pending.length
decreasing_by
  have hMem : id ∈ pending :=
    List.mem_of_find?_eq_some _hReady
  have hLength := List.length_erase_of_mem hMem
  have hPos := List.length_pos_of_mem hMem
  omega

/- Nothing is taken when no id is ready. -/
theorem along_none
    {pending : List String}
    {arrows : List Arrow}
    (h : ready? pending arrows = none) :
    along pending arrows = ([], pending) := by
  rw [along]
  split
  · rfl
  · rename_i hSome
    rw [h] at hSome
    cases hSome

/- The first ready id is taken first. -/
theorem along_some
    {pending : List String}
    {arrows : List Arrow}
    {id : String}
    (h : ready? pending arrows = some id) :
    along pending arrows =
      (id ::
          (along (pending.erase id)
            (Arrow.withoutSource id arrows)).1,
        (along (pending.erase id)
          (Arrow.withoutSource id arrows)).2) := by
  rw [along]
  split
  · rename_i hNone
    rw [h] at hNone
    cases hNone
  · rename_i other hSome
    rw [h] at hSome
    cases hSome
    rfl

/- A ready id is pending, and no arrow enters it. -/
theorem ready?_eq_some
    {pending : List String}
    {arrows : List Arrow}
    {id : String}
    (h : ready? pending arrows = some id) :
    id ∈ pending ∧ ∀ a ∈ arrows, a.target ≠ id := by
  refine ⟨List.mem_of_find?_eq_some h, ?_⟩
  have hReady := List.find?_some h
  simpa using hReady

/- Every pending id is entered when none is ready. -/
theorem ready?_eq_none_iff
    (pending : List String)
    (arrows : List Arrow) :
    ready? pending arrows = none ↔
      ∀ id ∈ pending, ∃ a ∈ arrows, a.target = id := by
  simp [ready?]

/- Increasing ids do not repeat. -/
theorem nodup_of_increasing
    {ids : List String}
    (hSorted : ids.Pairwise (· < ·)) :
    ids.Nodup := by
  apply List.Pairwise.imp _ hSorted
  intro x y hLt hEq
  exact String.lt_irrefl y (hEq ▸ hLt)

/- Increasing lists of the same ids are the same. -/
theorem eq_of_increasing
    {ids others : List String}
    (hSorted : ids.Pairwise (· < ·))
    (hOthers : others.Pairwise (· < ·))
    (h : ∀ id, id ∈ ids ↔ id ∈ others) :
    ids = others := by
  have hPerm : ids.Perm others :=
    (List.perm_ext_iff_of_nodup
      (nodup_of_increasing hSorted)
      (nodup_of_increasing hOthers)).mpr h
  refine hPerm.eq_of_pairwise ?_ hSorted hOthers
  intro x y _ _ hLt hGt
  exact absurd hGt (String.lt_asymm hLt)

/- The first ready id is the smallest when ids increase. -/
theorem eq_or_lt_of_ready?
    {pending : List String}
    {arrows : List Arrow}
    {id other : String}
    (hSorted : pending.Pairwise (· < ·))
    (h : ready? pending arrows = some id)
    (hOther : other ∈ pending)
    (hReady : ∀ a ∈ arrows, a.target ≠ other) :
    other = id ∨ id < other := by
  rcases List.find?_eq_some_iff_append.mp h with
    ⟨_, before, after, rfl, hBefore⟩
  rcases List.mem_append.mp hOther with hOther | hOther
  · have hNotReady := hBefore other hOther
    simp only [Bool.not_not, List.any_eq_true,
      beq_iff_eq] at hNotReady
    rcases hNotReady with ⟨a, ha, hTarget⟩
    exact absurd hTarget (hReady a ha)
  · rcases List.mem_cons.mp hOther with hEq | hAfter
    · exact Or.inl hEq
    · have hTail := (List.pairwise_append.mp hSorted).2.1
      exact
        Or.inr ((List.pairwise_cons.mp hTail).1 other hAfter)

end Schedule

end FractalShader

------------------------------------------------------------
-- Orders Along Arrows
------------------------------------------------------------

namespace FractalShader

namespace Schedule

/- One id stands before another in a list. -/
def Before
    (ids : List String)
    (x y : String) : Prop :=
  [x, y].Sublist ids

instance
    (ids : List String)
    (x y : String) :
    Decidable (Before ids x y) :=
  inferInstanceAs (Decidable ([x, y].Sublist ids))

theorem before_cons_iff
    (id : String)
    (ids : List String)
    (x y : String) :
    Before (id :: ids) x y ↔
      Before ids x y ∨ x = id ∧ y ∈ ids := by
  unfold Before
  rw [List.sublist_cons_iff]
  constructor
  · rintro (hLater | ⟨rest, hEq, hRest⟩)
    · exact Or.inl hLater
    · cases hEq
      exact Or.inr ⟨rfl, List.singleton_sublist.mp hRest⟩
  · rintro (hLater | ⟨rfl, hMem⟩)
    · exact Or.inl hLater
    · exact
        Or.inr
          ⟨[y], rfl, List.singleton_sublist.mpr hMem⟩

theorem Before.right_mem
    {ids : List String}
    {x y : String}
    (h : Before ids x y) :
    y ∈ ids :=
  h.subset (List.mem_cons_of_mem _ List.mem_cons_self)

theorem Before.left_mem
    {ids : List String}
    {x y : String}
    (h : Before ids x y) :
    x ∈ ids :=
  h.subset List.mem_cons_self

/- What is not the first id is before another in the rest. -/
theorem Before.tail
    {id : String}
    {ids : List String}
    {x y : String}
    (h : Before (id :: ids) x y)
    (hNe : x ≠ id) :
    Before ids x y := by
  rw [before_cons_iff] at h
  rcases h with hLater | ⟨hFirst, _⟩
  · exact hLater
  · exact absurd hFirst hNe

/- In a list without repetitions no id is before itself. -/
theorem not_before_self
    {ids : List String}
    (hNodup : ids.Nodup)
    (x : String) :
    ¬ Before ids x x := by
  intro h
  have hPair := hNodup.sublist h
  simp at hPair

/- Nothing is before the first of ids that do not repeat. -/
theorem not_before_head
    {id : String}
    {ids : List String}
    (hNodup : (id :: ids).Nodup)
    (x : String) :
    ¬ Before (id :: ids) x id := by
  intro h
  rw [List.nodup_cons] at hNodup
  rw [before_cons_iff] at h
  rcases h with hLater | ⟨_, hMem⟩
  · exact hNodup.1 hLater.right_mem
  · exact hNodup.1 hMem

theorem Before.trans
    {ids : List String}
    (hNodup : ids.Nodup)
    {x y z : String}
    (hxy : Before ids x y)
    (hyz : Before ids y z) :
    Before ids x z := by
  induction ids with
  | nil => cases hxy
  | cons id ids ih =>
      rw [List.nodup_cons] at hNodup
      rw [before_cons_iff] at hxy hyz ⊢
      rcases hyz with hyz | ⟨rfl, hz⟩
      · rcases hxy with hxy | ⟨rfl, _⟩
        · exact Or.inl (ih hNodup.2 hxy hyz)
        · exact Or.inr ⟨rfl, hyz.right_mem⟩
      · rcases hxy with hxy | ⟨_, hy⟩
        · exact absurd hxy.right_mem hNodup.1
        · exact absurd hy hNodup.1

/- What is before an id that occurs once stands left of it. -/
theorem Before.mem_left
    {before after : List String}
    {x y : String}
    (h : Before (before ++ y :: after) x y)
    (hNodup : (before ++ y :: after).Nodup) :
    x ∈ before := by
  induction before with
  | nil =>
      rw [List.nil_append, before_cons_iff] at h
      rw [List.nil_append, List.nodup_cons] at hNodup
      rcases h with hLater | ⟨_, hMem⟩
      · exact absurd hLater.right_mem hNodup.1
      · exact absurd hMem hNodup.1
  | cons id before ih =>
      rw [List.cons_append, before_cons_iff] at h
      rw [List.cons_append, List.nodup_cons] at hNodup
      rcases h with hLater | ⟨rfl, _⟩
      · exact List.mem_cons_of_mem _ (ih hLater hNodup.2)
      · exact List.mem_cons_self

/-
  A list holds some ids, each once, and every arrow leads
  from one of them to a later one.
-/
structure Along
    (ids : List String)
    (arrows : List Arrow)
    (order : List String) : Prop where
  perm : order.Perm ids
  forward :
    ∀ a ∈ arrows, Before order a.source a.target

/- Arrows whose ends are among some ids. -/
def Within
    (ids : List String)
    (arrows : List Arrow) : Prop :=
  ∀ a ∈ arrows, a.source ∈ ids ∧ a.target ∈ ids

/- Taking a ready id leaves arrows among the other ids. -/
theorem Within.withoutSource
    {ids : List String}
    {arrows : List Arrow}
    (h : Within ids arrows)
    {id : String}
    (hReady : ∀ a ∈ arrows, a.target ≠ id) :
    Within (ids.erase id) (Arrow.withoutSource id arrows) := by
  intro a ha
  rw [Arrow.mem_withoutSource_iff] at ha
  have hEnds := h a ha.1
  exact
    ⟨(List.mem_erase_of_ne ha.2).mpr hEnds.1,
      (List.mem_erase_of_ne (hReady a ha.1)).mpr hEnds.2⟩

/- Orders along arrows exist only if these are acyclic. -/
theorem Along.acyclic
    {ids order : List String}
    {arrows : List Arrow}
    (hNodup : ids.Nodup)
    (h : Along ids arrows order) :
    Arrow.Acyclic arrows := by
  have hOrder : order.Nodup := h.perm.nodup_iff.mpr hNodup
  have hPath :
      ∀ x y, Relation.TransGen (Arrow.Leads arrows) x y →
        Before order x y := by
    intro x y hPath
    induction hPath with
    | single hStep => exact h.forward _ hStep
    | tail _ hStep ih =>
        exact ih.trans hOrder (h.forward _ hStep)
  intro id hCycle
  exact not_before_self hOrder id (hPath id id hCycle)

end Schedule

end FractalShader

------------------------------------------------------------
-- The Order That Is Taken
------------------------------------------------------------

namespace FractalShader

namespace Schedule

/- Taken and waiting ids are the pending ones. -/
theorem perm_along
    (pending : List String)
    (arrows : List Arrow) :
    ((along pending arrows).1 ++
      (along pending arrows).2).Perm pending := by
  induction pending, arrows using along.induct with
  | case1 pending arrows hNone =>
      rw [along_none hNone]
      exact List.Perm.refl _
  | case2 pending arrows id hSome ih =>
      rw [along_some hSome]
      have hMem := (ready?_eq_some hSome).1
      exact (ih.cons id).trans (List.perm_cons_erase hMem).symm

/- No id is taken twice. -/
theorem nodup_along
    {pending : List String}
    (arrows : List Arrow)
    (hNodup : pending.Nodup) :
    (along pending arrows).1.Nodup := by
  have hPerm := perm_along pending arrows
  exact (hPerm.nodup_iff.mpr hNodup).of_append_left

/- Waiting ids keep the order of the pending ones. -/
theorem sublist_along
    (pending : List String)
    (arrows : List Arrow) :
    (along pending arrows).2.Sublist pending := by
  induction pending, arrows using along.induct with
  | case1 pending arrows hNone =>
      rw [along_none hNone]
  | case2 pending arrows id hSome ih =>
      rw [along_some hSome]
      exact ih.trans List.erase_sublist

/- A taken id comes after every id with an arrow to it. -/
theorem before_of_mem_along
    (pending : List String)
    (arrows : List Arrow) :
    ∀ a ∈ arrows,
      a.target ∈ (along pending arrows).1 →
        Before (along pending arrows).1 a.source a.target := by
  induction pending, arrows using along.induct with
  | case1 pending arrows hNone =>
      rw [along_none hNone]
      intro a _ hTaken
      cases hTaken
  | case2 pending arrows id hSome ih =>
      rw [along_some hSome]
      rcases ready?_eq_some hSome with ⟨_, hReady⟩
      intro a ha hTaken
      have hLater :
          a.target ∈
            (along (pending.erase id)
              (Arrow.withoutSource id arrows)).1 :=
        List.mem_of_ne_of_mem (hReady a ha) hTaken
      rw [before_cons_iff]
      by_cases hSource : a.source = id
      · exact Or.inr ⟨hSource, hLater⟩
      · apply Or.inl
        apply ih a _ hLater
        exact
          (Arrow.mem_withoutSource_iff id arrows a).mpr
            ⟨ha, hSource⟩

/- When no id waits, all arrows lead to taken ids. -/
theorem forward_along
    (pending : List String)
    (arrows : List Arrow)
    (hWithin : Within pending arrows)
    (hDone : (along pending arrows).2 = []) :
    ∀ a ∈ arrows,
      Before (along pending arrows).1 a.source a.target := by
  have hPerm := perm_along pending arrows
  rw [hDone, List.append_nil] at hPerm
  intro a ha
  apply before_of_mem_along pending arrows a ha
  exact hPerm.mem_iff.mpr (hWithin a ha).2

/- When no id waits, the taken ids are in order. -/
theorem along_along
    {pending : List String}
    {arrows : List Arrow}
    (hWithin : Within pending arrows)
    (hDone : (along pending arrows).2 = []) :
    Along pending arrows (along pending arrows).1 where
  perm := by
    have hPerm := perm_along pending arrows
    rwa [hDone, List.append_nil] at hPerm
  forward := forward_along pending arrows hWithin hDone

/- Every waiting id is entered from a waiting id. -/
theorem exists_waiting_source
    (pending : List String)
    (arrows : List Arrow)
    (hNodup : pending.Nodup)
    (hWithin : Within pending arrows) :
    ∀ id ∈ (along pending arrows).2,
      ∃ a ∈ arrows,
        a.target = id ∧
          a.source ∈ (along pending arrows).2 := by
  induction pending, arrows using along.induct with
  | case1 pending arrows hNone =>
      rw [along_none hNone]
      intro id hId
      rcases (ready?_eq_none_iff pending arrows).mp hNone id
          hId with
        ⟨a, ha, hTarget⟩
      exact ⟨a, ha, hTarget, (hWithin a ha).1⟩
  | case2 pending arrows id hSome ih =>
      rw [along_some hSome]
      rcases ready?_eq_some hSome with ⟨_, hReady⟩
      intro other hOther
      rcases ih (hNodup.erase id)
          (hWithin.withoutSource hReady) other hOther with
        ⟨a, ha, hTarget, hSource⟩
      exact
        ⟨a, Arrow.withoutSource_subset id arrows ha, hTarget,
          hSource⟩

/- Ids entered from each other lie behind a cycle. -/
theorem eq_nil_of_acyclic
    {arrows : List Arrow}
    (hAcyclic : Arrow.Acyclic arrows)
    {ids : List String}
    (hEntered :
      ∀ id ∈ ids, ∃ a ∈ arrows,
        a.target = id ∧ a.source ∈ ids) :
    ids = [] := by
  -- Along acyclic arrows some id would come first, and
  -- nothing could enter it.
  let Path : { id // id ∈ ids } → { id // id ∈ ids } → Prop :=
    fun x y =>
      Relation.TransGen (Arrow.Leads arrows) x.1 y.1
  have : IsTrans _ Path := ⟨fun _ _ _ h h' => h.trans h'⟩
  have : Std.Irrefl Path := ⟨fun x => hAcyclic x.1⟩
  have hWellFounded : WellFounded Path :=
    Finite.wellFounded_of_trans_of_irrefl Path
  apply List.eq_nil_iff_forall_not_mem.mpr
  intro id hId
  have hNone : ∀ x : { id // id ∈ ids }, False := by
    intro x
    induction x using hWellFounded.induction with
    | _ x ih =>
        rcases hEntered x.1 x.2 with
          ⟨a, ha, hTarget, hSource⟩
        apply ih ⟨a.source, hSource⟩
        apply Relation.TransGen.single
        rw [← hTarget]
        exact ha
  exact hNone ⟨id, hId⟩

/- No id waits when the arrows are acyclic. -/
theorem along_of_acyclic
    {pending : List String}
    {arrows : List Arrow}
    (hNodup : pending.Nodup)
    (hWithin : Within pending arrows)
    (hAcyclic : Arrow.Acyclic arrows) :
    (along pending arrows).2 = [] :=
  eq_nil_of_acyclic hAcyclic
    (exists_waiting_source pending arrows hNodup hWithin)

end Schedule

end FractalShader

------------------------------------------------------------
-- The Least Order
------------------------------------------------------------

namespace FractalShader

namespace Schedule

/- Nothing enters the first id of an order. -/
theorem Along.head_ready
    {ids order : List String}
    {arrows : List Arrow}
    {id : String}
    (hNodup : ids.Nodup)
    (h : Along ids arrows (id :: order)) :
    ∀ a ∈ arrows, a.target ≠ id := by
  intro a ha hTarget
  have hOrder := h.perm.nodup_iff.mpr hNodup
  have hBefore := h.forward a ha
  rw [hTarget] at hBefore
  exact not_before_head hOrder a.source hBefore

/- The rest of an order is one of the other ids. -/
theorem Along.tail
    {ids order : List String}
    {arrows : List Arrow}
    {id : String}
    (h : Along ids arrows (id :: order)) :
    Along (ids.erase id) (Arrow.withoutSource id arrows)
      order where
  perm := by
    have hMem : id ∈ ids :=
      h.perm.mem_iff.mp List.mem_cons_self
    exact
      List.Perm.cons_inv
        (h.perm.trans (List.perm_cons_erase hMem))
  forward := by
    intro a ha
    rw [Arrow.mem_withoutSource_iff] at ha
    exact (h.forward a ha.1).tail ha.2

/-
  No order along the arrows comes before the one taken.  At
  the first place where they differ, the other one has a
  ready id too, and the one taken has the smallest.
-/
theorem along_le
    (pending : List String)
    (arrows : List Arrow)
    (hSorted : pending.Pairwise (· < ·))
    (hDone : (along pending arrows).2 = [])
    {order : List String}
    (hOrder : Along pending arrows order) :
    (along pending arrows).1 = order ∨
      List.Lex (· < ·) (along pending arrows).1 order := by
  induction pending, arrows using along.induct
      generalizing order with
  | case1 pending arrows hNone =>
      rw [along_none hNone] at hDone ⊢
      have hPerm := hOrder.perm
      rw [show pending = [] from hDone] at hPerm
      exact Or.inl hPerm.eq_nil.symm
  | case2 pending arrows id hSome ih =>
      rw [along_some hSome] at hDone ⊢
      have hNodup := nodup_of_increasing hSorted
      have hMem := (ready?_eq_some hSome).1
      cases order with
      | nil =>
          have hEmpty := hOrder.perm.mem_iff.mpr hMem
          cases hEmpty
      | cons other order =>
          have hOther : other ∈ pending :=
            hOrder.perm.mem_iff.mp List.mem_cons_self
          rcases eq_or_lt_of_ready? hSorted hSome hOther
              (hOrder.head_ready hNodup) with
            hEq | hLt
          · subst hEq
            rcases ih (hSorted.sublist List.erase_sublist)
                hDone hOrder.tail with
              hSame | hLess
            · exact Or.inl (congrArg (other :: ·) hSame)
            · exact Or.inr (List.Lex.cons hLess)
          · exact Or.inr (List.Lex.rel hLt)

end Schedule

end FractalShader
