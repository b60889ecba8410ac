/-
  This file defines arrows between ids, which ids they reach,
  and whether they close a cycle.

  Key definitions include:
    * `Arrow`
    * `Arrow.reach`
    * `Arrow.cyclic`
    * `Arrow.within`
    * `Arrow.closesCycle`
-/

namespace FractalShader

/- A directed connection between two ids. -/
structure Arrow where
  source : String
  target : String
deriving DecidableEq, Repr

namespace Arrow

------------------------------------------------------------
-- Reachability
------------------------------------------------------------

/- The arrows that leave an id. -/
def leaving
    (id : String)
    (arrows : List Arrow) : List Arrow :=
  arrows.filter (fun a => a.source == id)

/- The arrows that enter an id. -/
def entering
    (id : String)
    (arrows : List Arrow) : List Arrow :=
  arrows.filter (fun a => a.target == id)

/- The arrows that leave other ids. -/
def withoutSource
    (id : String)
    (arrows : List Arrow) : List Arrow :=
  arrows.filter (fun a => a.source != id)

/- Every arrow leaves an id or another id. -/
theorem length_withoutSource_add
    (id : String)
    (arrows : List Arrow) :
    (withoutSource id arrows).length +
        (leaving id arrows).length =
      arrows.length := by
  unfold leaving withoutSource
  induction arrows with
  | nil => rfl
  | cons a arrows ih =>
      by_cases h : a.source = id
      · simp [h]
        omega
      · simp [h]
        omega

/-
  The ids reached from a list of ids, the list included.
  Every arrow is followed once.
-/
def reach
    (arrows : List Arrow) :
    List String → List String
  | [] => []
  | id :: frontier =>
      id ::
        reach (withoutSource id arrows)
          (frontier ++
            (leaving id arrows).map Arrow.target)
termination_by frontier =>
  arrows.length + frontier.length
decreasing_by
  have h := length_withoutSource_add id arrows
  simp only [List.length_append, List.length_map,
    List.length_cons]
  omega

------------------------------------------------------------
-- Cycles
------------------------------------------------------------

/-
  Some arrow starts at an id that its own end reaches.  An
  arrow from an id to itself is a cycle.
-/
def cyclic (arrows : List Arrow) : Bool :=
  arrows.any fun a =>
    (reach arrows [a.target]).contains a.source

/- The arrows with both ends among some ids. -/
def within
    (ids : List String)
    (arrows : List Arrow) : List Arrow :=
  arrows.filter fun a =>
    ids.contains a.source && ids.contains a.target

/-
  A new arrow makes the arrows among some ids cyclic.  An
  arrow from an id to itself always does, present or not.
-/
def closesCycle
    (ids : List String)
    (arrows : List Arrow)
    (candidate : Arrow) : Bool :=
  candidate.source == candidate.target ||
    cyclic (within ids (arrows ++ [candidate]))

end Arrow

end FractalShader
