import FractalShader.Dict

/-
  This file defines the six shared slots that can feed the
  inputs of a node, and the assignment of slots to inputs.

  Key definitions include:
    * `Slot`
    * `Slot.afterToggle`
    * `Bindings`
    * `Bindings.slot?`
    * `Bindings.assign`
    * `Bindings.toggle`
    * `Bindings.defined`
-/

namespace FractalShader

------------------------------------------------------------
-- Slots
------------------------------------------------------------

/- A value shared by inputs and set by the renderer. -/
inductive Slot where
  | a
  | b
  | c
  | d
  | e
  | f
deriving DecidableEq, Repr

namespace Slot

/- All slots in order. -/
def all : List Slot := [.a, .b, .c, .d, .e, .f]

/- Every slot is listed. -/
theorem mem_all (s : Slot) : s ∈ all := by
  cases s <;> decide

/- The letter that names a slot. -/
def letter : Slot → Char
  | .a => 'A'
  | .b => 'B'
  | .c => 'C'
  | .d => 'D'
  | .e => 'E'
  | .f => 'F'

/- The uniform that carries a slot. -/
def uniform
    (s : Slot)
    (stem : String) : String :=
  stem.push s.letter

/-
  The slot after one toggle.  Toggling visits the first four
  slots and then no slot; the last two are reached by direct
  assignment only and toggle to no slot.
-/
def afterToggle : Option Slot → Option Slot
  | none => some .a
  | some .a => some .b
  | some .b => some .c
  | some .c => some .d
  | some .d => none
  | some .e => none
  | some .f => none

end Slot

------------------------------------------------------------
-- Assignments of Slots
------------------------------------------------------------

/-
  The slots of inputs.  An input that is listed without a
  slot is as unbound as one that is not listed.
-/
abbrev Bindings := Dict (Option Slot)

namespace Bindings

/- The slot of an input. -/
def slot?
    (b : Bindings)
    (input : String) : Option Slot :=
  (Dict.get? b input).join

/- Bind an input, or clear its entry. -/
def assign
    (b : Bindings)
    (input : String) : Option Slot → Bindings
  | some slot => Dict.insert b input (some slot)
  | none => Dict.erase b input

/- Move an input to the slot after its present one. -/
def toggle
    (b : Bindings)
    (input : String) : Bindings :=
  assign b input (Slot.afterToggle (slot? b input))

/- The inputs that have a slot, in order. -/
def defined (b : Bindings) : List (String × Slot) :=
  b.entries.filterMap fun entry =>
    entry.2.map fun slot => (entry.1, slot)

/- An assigned slot is read back. -/
@[simp] theorem slot?_assign
    (b : Bindings)
    (input other : String)
    (slot : Option Slot) :
    slot? (assign b input slot) other =
      if other = input then slot else slot? b other := by
  cases slot with
  | none =>
      by_cases h : other = input <;>
        simp [slot?, assign, h]
  | some s =>
      by_cases h : other = input <;>
        simp [slot?, assign, h]

end Bindings

end FractalShader
