import FractalShader.Dict
import FractalShader.Failure
import FractalShader.Graph.Arrow

/-
  This file orders ids along arrows.

  Every id has a count of the arrows that enter it from ids
  not yet taken.  Of the ids whose count is zero the
  smallest is taken first, and the counts at the ends of its
  arrows go down.  So the order depends on the ids and the
  arrows only, and not on the order in which they are
  listed.

  Key definitions include:
    * `Tally`
    * `Tally.start`
    * `Tally.release`
    * `Tally.order`
    * `Tally.waiting`
-/

namespace FractalShader

------------------------------------------------------------
-- Tallies
------------------------------------------------------------

/-
  How many arrows each id still waits for, and the ids that
  wait for none and were not taken yet.
-/
structure Tally where
  counts : Dict Nat
  ready : Dict Unit

namespace Tally

/- The tally of some ids before any is taken. -/
def start
    (ids : List String)
    (arrows : List Arrow) : Tally :=
  let counts : Dict Nat :=
    .ofList
      (ids.map fun id =>
        (id, (Arrow.entering id arrows).length))
  { counts := counts
    ready :=
      .ofList
        ((counts.entries.filter fun entry =>
            entry.2 == 0).map
          fun entry => (entry.1, ())) }

/-
  An id waits for one arrow less, and is ready when that was
  the last one.  A count does not fall below zero.
-/
def release
    (tally : Tally)
    (id : String) : Except Failure Tally :=
  match tally.counts.get? id with
  | none => .ok tally
  | some 0 => .error (.miscounted id)
  | some (n + 1) =>
      .ok
        { counts := tally.counts.insert id n
          ready :=
            if n = 0 then
              tally.ready.insert id ()
            else
              tally.ready }

/- Some ids wait for one arrow less, one after another. -/
def releaseAll
    (tally : Tally) : List String → Except Failure Tally
  | [] => .ok tally
  | id :: ids =>
      match tally.release id with
      | .error why => .error why
      | .ok next => next.releaseAll ids

/- The ids that still wait. -/
def waiting (tally : Tally) : List String :=
  (tally.counts.entries.filter fun entry =>
    0 < entry.2).map (·.1)

end Tally

------------------------------------------------------------
-- Progress
------------------------------------------------------------

namespace Tally

/-
  The arrows that are waited for and the ids that are ready.
  Taking an id and releasing others makes it smaller.
-/
def weight (tally : Tally) : Nat :=
  tally.counts.total + tally.ready.entries.length

/- Releasing an id does not make a tally heavier. -/
theorem weight_release_le
    {tally next : Tally}
    {id : String}
    (h : tally.release id = .ok next) :
    next.weight ≤ tally.weight := by
  unfold release at h
  split at h
  · cases h
    exact Nat.le_refl _
  · cases h
  · rename_i n hCount
    cases h
    have hSum := Dict.total_insert tally.counts hCount
    have hReady :=
      Dict.length_insert_le tally.ready id ()
    simp only [weight]
    split <;> omega

/- Releasing some ids does not make a tally heavier. -/
theorem weight_releaseAll_le
    {ids : List String}
    {tally next : Tally}
    (h : tally.releaseAll ids = .ok next) :
    next.weight ≤ tally.weight := by
  induction ids generalizing tally with
  | nil =>
      cases h
      exact Nat.le_refl _
  | cons id ids ih =>
      rw [releaseAll] at h
      split at h
      · cases h
      · rename_i middle hMiddle
        exact Nat.le_trans (ih h) (weight_release_le hMiddle)

end Tally

------------------------------------------------------------
-- The Order
------------------------------------------------------------

namespace Tally

/-
  Take the ready ids one by one, the smallest first.  The
  tally at the end tells which ids were never ready.
-/
def order
    (arrows : List Arrow)
    (tally : Tally) : Except Failure (List String × Tally) :=
  match _hPop : tally.ready.pop? with
  | none => .ok ([], tally)
  | some ((id, _), ready) =>
      let targets :=
        (Arrow.leaving id arrows).map Arrow.target
      match _hNext :
          releaseAll ⟨tally.counts, ready⟩ targets with
      | .error why => .error why
      | .ok next =>
          (order arrows next).map fun (ids, last) =>
            (id :: ids, last)
termination_by tally.weight
decreasing_by
  have hReady := Dict.length_of_pop? _hPop
  have hNext := weight_releaseAll_le _hNext
  simp only [weight] at hNext ⊢
  omega

end Tally

end FractalShader
