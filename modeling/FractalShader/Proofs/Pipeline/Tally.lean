import FractalShader.Pipeline.Order
import FractalShader.Proofs.Pipeline.Order

/-
  The counting algorithm takes the same ids as the one that
  looks for an id without arrows.

  The invariant of the loop says what the counts and the
  ready ids are: each count is the number of arrows that
  still enter the id, and the ready ids are the pending ones
  that no such arrow enters.

  Main declarations:
    * `Tally.exists_release`
    * `Tally.exists_releaseAll`
    * `Tally.Tracks`
    * `Tally.tracks_start`
    * `Tally.Tracks.next`
    * `Tally.order_start`
-/

------------------------------------------------------------
-- Releasing Ids
------------------------------------------------------------

namespace FractalShader

namespace Tally

/-
  A release succeeds unless the id counts zero.  Its count,
  if it has one, goes down by one, and the id becomes ready
  when that was the last one.
-/
theorem exists_release
    (tally : Tally)
    (id : String)
    (hPositive : tally.counts.get? id ≠ some 0) :
    ∃ next, tally.release id = .ok next ∧
      (∀ other,
        next.counts.get? other =
          (tally.counts.get? other).map
            (fun n => n - [id].count other)) ∧
      ∀ other,
        next.ready.contains other = true ↔
          tally.ready.contains other = true ∨
            other = id ∧ tally.counts.get? id = some 1 := by
  unfold release
  cases hCount : tally.counts.get? id with
  | none =>
      refine ⟨tally, rfl, ?_, ?_⟩
      · intro other
        by_cases hEq : other = id
        · simp [hEq, hCount]
        · simp [Ne.symm hEq]
      · intro other
        simp
  | some n =>
      cases n with
      | zero => exact absurd hCount hPositive
      | succ n =>
          refine ⟨_, rfl, ?_, ?_⟩
          · intro other
            by_cases hEq : other = id
            · simp [hEq, hCount]
            · simp [hEq, Ne.symm hEq]
          · intro other
            by_cases hZero : n = 0
            · simp [hZero, or_comm]
            · simp [hZero]

/-
  Releases succeed when no id is released more often than
  it counts.  Then each count goes down by the number of
  releases, and the ids whose count was that number become
  ready.
-/
theorem exists_releaseAll
    (tally : Tally)
    (targets : List String)
    (hEnough :
      ∀ id n, tally.counts.get? id = some n →
        targets.count id ≤ n) :
    ∃ next, tally.releaseAll targets = .ok next ∧
      (∀ id,
        next.counts.get? id =
          (tally.counts.get? id).map
            (fun n => n - targets.count id)) ∧
      ∀ id,
        next.ready.contains id = true ↔
          tally.ready.contains id = true ∨
            id ∈ targets ∧
              tally.counts.get? id =
                some (targets.count id) := by
  induction targets generalizing tally with
  | nil =>
      refine ⟨tally, rfl, ?_, ?_⟩
      · intro id
        simp
      · intro id
        simp
  | cons target targets ih =>
      have hSplit :
          ∀ id, (target :: targets).count id =
            [target].count id + targets.count id := by
        intro id
        rw [← List.count_append, List.singleton_append]
      have hPositive :
          tally.counts.get? target ≠ some 0 := by
        intro hZero
        have hLe := hEnough target 0 hZero
        rw [List.count_cons_self] at hLe
        omega
      rcases exists_release tally target hPositive with
        ⟨middle, hMiddle, hMiddleCounts, hMiddleReady⟩
      have hRest :
          ∀ id n, middle.counts.get? id = some n →
            targets.count id ≤ n := by
        intro id n hId
        rw [hMiddleCounts, Option.map_eq_some_iff] at hId
        rcases hId with ⟨m, hOld, rfl⟩
        have hLe := hEnough id m hOld
        rw [hSplit] at hLe
        omega
      rcases ih middle hRest with
        ⟨next, hNext, hCounts, hReady⟩
      refine ⟨next, ?_, ?_, ?_⟩
      · simp [releaseAll, hMiddle, hNext]
      · intro id
        rw [hCounts, hMiddleCounts, Option.map_map]
        congr 1
        funext n
        simp only [Function.comp, hSplit]
        omega
      · intro id
        rw [hReady, hMiddleReady, hMiddleCounts]
        by_cases hEq : id = target
        · subst hEq
          cases hCount : tally.counts.get? id with
          | none => simp
          | some n =>
              have hLe := hEnough id n hCount
              have hMem : 0 < targets.count id ↔ id ∈ targets :=
                List.count_pos_iff
              rw [List.count_cons_self] at hLe
              simp only [true_and, Option.some.injEq,
                Option.map_some, List.count_nil,
                List.mem_cons, true_or,
                List.count_cons_self]
              -- The last release is this one, or a later one.
              rw [or_assoc]
              apply or_congr_right
              rw [← hMem]
              omega
        · simp [hEq, Ne.symm hEq]

end Tally

end FractalShader

------------------------------------------------------------
-- The Invariant
------------------------------------------------------------

namespace FractalShader

open Schedule

namespace Arrow

/-
  Of the arrows that enter an id, those that leave the taken
  id are not counted any more.
-/
theorem length_entering_add
    (id taken : String)
    (arrows : List Arrow) :
    (entering id (withoutSource taken arrows)).length +
        ((leaving taken arrows).map target).count id =
      (entering id arrows).length := by
  unfold entering withoutSource leaving
  induction arrows with
  | nil => rfl
  | cons a arrows ih =>
      by_cases hSource : a.source = taken
      · by_cases hTarget : a.target = id
        · simp [hSource, hTarget] at ih ⊢
          omega
        · simpa [hSource, hTarget] using ih
      · by_cases hTarget : a.target = id
        · simp [hSource, hTarget] at ih ⊢
          omega
        · simpa [hSource, hTarget] using ih

/- The arrows that leave other ids are kept. -/
theorem leaving_withoutSource
    {id taken : String}
    (h : id ≠ taken)
    (arrows : List Arrow) :
    leaving id (withoutSource taken arrows) =
      leaving id arrows := by
  unfold leaving withoutSource
  rw [List.filter_filter]
  apply List.filter_congr
  intro a _
  by_cases hSource : a.source = id
  · simp [hSource, h]
  · simp [hSource]

end Arrow

namespace Tally

/-
  A tally tells for each id how many of the remaining arrows
  enter it, and which pending ids none of them enters.
-/
structure Tracks
    (ids pending : List String)
    (arrows : List Arrow)
    (tally : Tally) : Prop where
  counts :
    ∀ id, tally.counts.get? id =
      if id ∈ ids then
        some (Arrow.entering id arrows).length
      else
        none
  ready :
    ∀ id, tally.ready.contains id = true ↔
      id ∈ pending ∧ Arrow.entering id arrows = []

/- At the start all ids are pending. -/
theorem tracks_start
    (ids : List String)
    (arrows : List Arrow) :
    Tracks ids ids arrows (start ids arrows) := by
  have hCounts :
      ∀ id, (start ids arrows).counts.get? id =
        if id ∈ ids then
          some (Arrow.entering id arrows).length
        else
          none :=
    Dict.get?_ofList_map ids _
  refine ⟨hCounts, ?_⟩
  intro id
  have hReady :
      (start ids arrows).ready.contains id = true ↔
        (start ids arrows).counts.get? id = some 0 := by
    rw [Dict.get?_eq_some_iff]
    simp [start, Dict.contains_ofList]
  rw [hReady, hCounts id]
  split
  · rename_i hMem
    simp [hMem]
  · rename_i hNot
    simp [hNot]

/-
  Taking a ready id and releasing the targets of its arrows
  succeeds, and the invariant holds of what remains.
-/
theorem Tracks.next
    {ids pending : List String}
    {arrows : List Arrow}
    {tally : Tally}
    {id : String}
    {ready : Dict Unit}
    (h : Tracks ids pending arrows tally)
    (hNodup : pending.Nodup)
    (hSubset : pending ⊆ ids)
    (hWithin : Within pending arrows)
    (hId : tally.ready.contains id = true)
    (hReady :
      ∀ other, ready.contains other = true ↔
        tally.ready.contains other = true ∧ other ≠ id) :
    ∃ next,
      releaseAll ⟨tally.counts, ready⟩
          ((Arrow.leaving id arrows).map Arrow.target) =
        .ok next ∧
      Tracks ids (pending.erase id)
        (Arrow.withoutSource id arrows) next := by
  have hSplit := fun other =>
    Arrow.length_entering_add other id arrows
  have hEnough :
      ∀ other n, tally.counts.get? other = some n →
        ((Arrow.leaving id arrows).map Arrow.target).count
            other ≤ n := by
    intro other n hCount
    rw [h.counts other] at hCount
    split at hCount
    · cases hCount
      have hSum := hSplit other
      omega
    · cases hCount
  rcases exists_releaseAll ⟨tally.counts, ready⟩ _ hEnough with
    ⟨next, hNext, hCounts, hNextReady⟩
  refine ⟨next, hNext, ?_, ?_⟩
  · intro other
    rw [hCounts other, h.counts other]
    have hSum := hSplit other
    split
    · simp only [Option.map_some, Option.some.injEq]
      omega
    · rfl
  · intro other
    rw [hNextReady other, hReady other, h.ready other,
      h.counts other, hNodup.mem_erase_iff]
    have hSum := hSplit other
    constructor
    · intro hGiven
      rcases hGiven with
        ⟨⟨hOther, hNone⟩, hNe⟩ | ⟨hTarget, hCount⟩
      · refine ⟨⟨hNe, hOther⟩, ?_⟩
        rw [hNone, List.length_nil] at hSum
        exact List.length_eq_zero_iff.mp (by omega)
      · -- The last arrow into the id leaves the taken one.
        rcases List.mem_map.mp hTarget with ⟨a, ha, rfl⟩
        have hArrow :=
          ((Arrow.mem_leaving_iff id arrows a).mp ha).1
        refine ⟨⟨?_, (hWithin a hArrow).2⟩, ?_⟩
        · intro hEq
          have hNone := ((h.ready id).mp hId).2
          have hEnters :=
            (Arrow.mem_entering_iff id arrows a).mpr
              ⟨hArrow, hEq⟩
          rw [hNone] at hEnters
          cases hEnters
        · rw [if_pos (hSubset (hWithin a hArrow).2)] at hCount
          simp only [Option.some.injEq] at hCount
          exact List.length_eq_zero_iff.mp (by omega)
    · intro hGiven
      rcases hGiven with ⟨⟨hNe, hOther⟩, hNone⟩
      rw [hNone, List.length_nil, Nat.zero_add] at hSum
      by_cases hTarget :
          other ∈ (Arrow.leaving id arrows).map Arrow.target
      · refine Or.inr ⟨hTarget, ?_⟩
        rw [if_pos (hSubset hOther), hSum]
      · rw [List.count_eq_zero_of_not_mem hTarget] at hSum
        have hEntering := List.length_eq_zero_iff.mp hSum.symm
        exact Or.inl ⟨⟨hOther, hEntering⟩, hNe⟩

end Tally

end FractalShader

------------------------------------------------------------
-- The Loop
------------------------------------------------------------

namespace FractalShader

open Schedule

namespace Tally

/- Nothing is taken when no id is ready. -/
theorem order_of_pop?_eq_none
    {arrows : List Arrow}
    {tally : Tally}
    (h : tally.ready.pop? = none) :
    tally.order arrows = .ok ([], tally) := by
  rw [order]
  split
  · rfl
  · rename_i hSome
    rw [h] at hSome
    cases hSome

/- The smallest ready id is taken first. -/
theorem order_of_pop?_eq_some
    {arrows : List Arrow}
    {tally next : Tally}
    {id : String}
    {ready : Dict Unit}
    (hPop : tally.ready.pop? = some ((id, ()), ready))
    (hNext :
      releaseAll ⟨tally.counts, ready⟩
          ((Arrow.leaving id arrows).map Arrow.target) =
        .ok next) :
    tally.order arrows =
      (next.order arrows).map fun (ids, last) =>
        (id :: ids, last) := by
  rw [order]
  split
  · rename_i hNone
    rw [hPop] at hNone
    cases hNone
  · rename_i hSome
    rw [hPop] at hSome
    cases hSome
    dsimp only
    split
    · rename_i hError
      rw [hNext] at hError
      cases hError
    · rename_i hOk
      rw [hNext] at hOk
      cases hOk
      rfl

/- An id is ready when no remaining arrow enters it. -/
theorem Tracks.contains_ready_iff
    {ids pending : List String}
    {arrows : List Arrow}
    {tally : Tally}
    (h : Tracks ids pending arrows tally)
    (id : String) :
    tally.ready.contains id = true ↔
      id ∈ pending ∧ ∀ a ∈ arrows, a.target ≠ id := by
  rw [h.ready id, List.eq_nil_iff_forall_not_mem]
  simp only [Arrow.mem_entering_iff, not_and]

/- The smallest ready id is the first pending one. -/
theorem Tracks.pop?_eq_some
    {ids pending : List String}
    {arrows : List Arrow}
    {tally : Tally}
    {id : String}
    (h : Tracks ids pending arrows tally)
    (hSorted : pending.Pairwise (· < ·))
    (hReady : ready? pending arrows = some id) :
    ∃ ready, tally.ready.pop? = some ((id, ()), ready) := by
  have hContains :=
    (h.contains_ready_iff id).mpr (ready?_eq_some hReady)
  cases hPop : tally.ready.pop? with
  | none =>
      have hAbsent :=
        (Dict.pop?_eq_none_iff tally.ready).mp hPop id
      rw [hContains] at hAbsent
      cases hAbsent
  | some popped =>
      rcases popped with ⟨⟨first, _⟩, ready⟩
      rcases Dict.pop?_eq_some hPop with ⟨hFirst, hLeast, _⟩
      rcases (h.contains_ready_iff first).mp hFirst with
        ⟨hMem, hNone⟩
      -- Each of the two is the smallest ready id.
      have hEq : first = id := by
        rcases hLeast id hContains with hEq | hLt
        · exact hEq.symm
        · rcases eq_or_lt_of_ready? hSorted hReady hMem hNone
            with hEq | hGt
          · exact hEq
          · exact absurd hGt (String.lt_asymm hLt)
      exact ⟨ready, by rw [hEq]⟩

/- When no id is ready, the counts tell which ones wait. -/
theorem Tracks.waiting_eq
    {ids pending : List String}
    {arrows : List Arrow}
    {tally : Tally}
    (h : Tracks ids pending arrows tally)
    (hSorted : pending.Pairwise (· < ·))
    (hSubset : pending ⊆ ids)
    (hWithin : Within pending arrows)
    (hReady : ready? pending arrows = none) :
    tally.waiting = pending := by
  apply eq_of_increasing _ hSorted
  · intro id
    have hWaiting :
        id ∈ tally.waiting ↔
          ∃ n, tally.counts.get? id = some n ∧ 0 < n := by
      simp only [waiting, List.mem_map, List.mem_filter,
        decide_eq_true_eq, Prod.exists, Dict.get?_eq_some_iff]
      constructor
      · intro hGiven
        rcases hGiven with ⟨_, n, hEntry, rfl⟩
        exact ⟨n, hEntry⟩
      · intro hGiven
        rcases hGiven with ⟨n, hEntry⟩
        exact ⟨id, n, hEntry, rfl⟩
    rw [hWaiting, h.counts id]
    constructor
    · intro hGiven
      rcases hGiven with ⟨n, hCount, hPos⟩
      split at hCount
      · cases hCount
        rcases List.exists_mem_of_length_pos hPos with ⟨a, ha⟩
        rcases (Arrow.mem_entering_iff id arrows a).mp ha with
          ⟨hArrow, hTarget⟩
        exact hTarget ▸ (hWithin a hArrow).2
      · cases hCount
    · intro hMem
      rcases (ready?_eq_none_iff pending arrows).mp hReady id
          hMem with
        ⟨a, ha, hTarget⟩
      refine ⟨_, if_pos (hSubset hMem), ?_⟩
      apply List.length_pos_of_mem
      exact
        (Arrow.mem_entering_iff id arrows a).mpr ⟨ha, hTarget⟩
  · unfold waiting
    exact
      List.pairwise_map.mpr (tally.counts.sorted.filter _)

/-
  The loop takes the ids that `along` takes and leaves those
  waiting that `along` leaves.  The arrows of the loop may
  include ones that leave ids already taken.
-/
theorem Tracks.order_eq
    {ids pending : List String}
    {arrows all : List Arrow}
    {tally : Tally}
    (h : Tracks ids pending arrows tally)
    (hSorted : pending.Pairwise (· < ·))
    (hSubset : pending ⊆ ids)
    (hWithin : Within pending arrows)
    (hAll :
      ∀ id ∈ pending,
        Arrow.leaving id all = Arrow.leaving id arrows) :
    ∃ last,
      tally.order all =
        .ok ((along pending arrows).1, last) ∧
      last.waiting = (along pending arrows).2 := by
  induction pending, arrows using along.induct
      generalizing tally with
  | case1 pending arrows hNone =>
      have hPop : tally.ready.pop? = none := by
        rw [Dict.pop?_eq_none_iff]
        intro id
        rw [← Bool.not_eq_true, h.contains_ready_iff]
        intro hGiven
        rcases hGiven with ⟨hMem, hReady⟩
        rcases (ready?_eq_none_iff pending arrows).mp hNone id
            hMem with
          ⟨a, ha, hTarget⟩
        exact hReady a ha hTarget
      refine ⟨tally, ?_, ?_⟩
      · rw [along_none hNone, order_of_pop?_eq_none hPop]
      · rw [along_none hNone]
        exact h.waiting_eq hSorted hSubset hWithin hNone
  | case2 pending arrows id hSome ih =>
      rcases ready?_eq_some hSome with ⟨hMem, hReady⟩
      rcases h.pop?_eq_some hSorted hSome with ⟨ready, hPop⟩
      rcases Dict.pop?_eq_some hPop with ⟨hFirst, _, hOthers⟩
      have hNodup := nodup_of_increasing hSorted
      rcases h.next hNodup hSubset hWithin hFirst hOthers with
        ⟨next, hNext, hTracks⟩
      rw [← hAll id hMem] at hNext
      have hRest :
          ∀ other ∈ pending.erase id,
            Arrow.leaving other all =
              Arrow.leaving other
                (Arrow.withoutSource id arrows) := by
        intro other hOther
        rcases hNodup.mem_erase_iff.mp hOther with
          ⟨hNe, hPending⟩
        rw [hAll other hPending,
          Arrow.leaving_withoutSource hNe]
      rcases ih hTracks (hSorted.sublist List.erase_sublist)
          (fun _ hOther =>
            hSubset (List.mem_of_mem_erase hOther))
          (hWithin.withoutSource hReady) hRest with
        ⟨last, hOrder, hWaiting⟩
      refine ⟨last, ?_, ?_⟩
      · rw [order_of_pop?_eq_some hPop hNext, hOrder,
          along_some hSome]
        rfl
      · rw [along_some hSome]
        exact hWaiting

/- Counting arrows gives the same order as looking at them. -/
theorem order_start
    {ids : List String}
    {arrows : List Arrow}
    (hSorted : ids.Pairwise (· < ·))
    (hWithin : Within ids arrows) :
    ∃ last,
      (start ids arrows).order arrows =
        .ok ((along ids arrows).1, last) ∧
      last.waiting = (along ids arrows).2 :=
  (tracks_start ids arrows).order_eq hSorted
    (fun _ hMem => hMem) hWithin (fun _ _ => rfl)

end Tally

end FractalShader
