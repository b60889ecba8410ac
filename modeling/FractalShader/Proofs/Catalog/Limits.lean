import FractalShader.Proofs.Graph.Effects
import FractalShader.Proofs.Shader.Wiring

/-
  Values within the limits of inputs.

  Main declarations:
    * `Input.Within`
    * `Input.within_confine`
    * `Input.resolve_eq`
    * `Catalog.within_initial`
-/

------------------------------------------------------------
-- Limits
------------------------------------------------------------

namespace FractalShader

namespace Binary

variable {f : Format} {a b : Binary f}

/- A number that is not NaN has a place in the order. -/
theorem exists_key?
    (h : a ≠ .nan) :
    ∃ key, a.key? = some key := by
  cases a with
  | nan => exact absurd rfl h
  | signed negative rank =>
      cases negative <;> exact ⟨_, rfl⟩

theorem le_iff :
    a.le b = true ↔
      ∃ x y, a.key? = some x ∧ b.key? = some y ∧ x ≤ y := by
  unfold le
  cases a.key? <;> cases b.key? <;> simp

theorem lt_iff :
    a.lt b = true ↔
      ∃ x y, a.key? = some x ∧ b.key? = some y ∧ x < y := by
  unfold lt
  cases a.key? <;> cases b.key? <;> simp

theorem not_lt_of_le
    (h : a.le b = true) :
    ¬ b.lt a = true := by
  rcases le_iff.mp h with ⟨x, y, hx, hy, hLe⟩
  intro hLt
  rcases lt_iff.mp hLt with ⟨v, w, hv, hw, hLess⟩
  rw [hy] at hv
  rw [hx] at hw
  cases hv
  cases hw
  omega

/- Of two numbers in the order one is below the other. -/
theorem le_of_not_lt
    {x y : Int}
    (ha : a.key? = some x)
    (hb : b.key? = some y)
    (h : ¬ a.lt b = true) :
    b.le a = true := by
  rw [lt_iff] at h
  refine le_iff.mpr ⟨y, x, hb, ha, ?_⟩
  apply Int.not_lt.mp
  intro hLt
  exact h ⟨x, y, ha, hb, hLt⟩

end Binary

namespace Interval

variable {i : Interval} {value : F32}

/- A confined number lies between the ends. -/
theorem within_confine
    (hProper : i.proper = true)
    (hNumber : value ≠ .nan) :
    i.least.le (i.confine value) = true ∧
      (i.confine value).le i.greatest = true := by
  rcases Binary.le_iff.mp hProper with ⟨x, y, hx, hy, hLe⟩
  rcases Binary.exists_key? hNumber with ⟨key, hKey⟩
  unfold Interval.confine
  dsimp only
  split
  · rw [if_neg (Binary.not_lt_of_le hProper)]
    exact
      ⟨Binary.le_iff.mpr ⟨x, x, hx, hx, Int.le_refl x⟩,
        hProper⟩
  · rename_i hLow
    split
    · exact
        ⟨hProper,
          Binary.le_iff.mpr ⟨y, y, hy, hy, Int.le_refl y⟩⟩
    · rename_i hHigh
      exact
        ⟨Binary.le_of_not_lt hKey hx hLow,
          Binary.le_of_not_lt hy hKey hHigh⟩

/- A number between the ends is left as it is. -/
theorem confine_eq_self
    (hLeast : i.least.le value = true)
    (hGreatest : value.le i.greatest = true) :
    i.confine value = value := by
  unfold Interval.confine
  dsimp only
  rw [if_neg (Binary.not_lt_of_le hLeast),
    if_neg (Binary.not_lt_of_le hGreatest)]

end Interval

namespace Input

variable {input : Input} {value : F32}

/- A value lies within the limits, if there are any. -/
def Within
    (input : Input)
    (value : F32) : Prop :=
  ∀ limits ∈ input.limits,
    limits.least.le value = true ∧
      value.le limits.greatest = true

/- NaN cannot be confined. -/
theorem confine_nan (input : Input) :
    input.confine .nan = .nan := by
  unfold Input.confine
  split
  · simp [Interval.confine, Binary.lt, Binary.key?]
  · rfl

/- What is finite once it is confined is within the limits. -/
theorem within_confine
    (hProper : input.proper = true)
    (hFinite : (input.confine value).isFinite = true) :
    input.Within (input.confine value) := by
  have hNumber : value ≠ .nan := by
    rintro rfl
    rw [confine_nan] at hFinite
    cases hFinite
  intro limits hLimits
  have hSome : input.limits = some limits := hLimits
  have hOrdered : limits.proper = true := by
    simpa [Input.proper, hSome] using hProper
  unfold Input.confine
  rw [hSome]
  exact Interval.within_confine hOrdered hNumber

theorem confine_eq_self
    (h : input.Within value) :
    input.confine value = value := by
  unfold Input.confine
  split
  · rename_i limits hSome
    rcases h limits hSome with ⟨hLeast, hGreatest⟩
    exact Interval.confine_eq_self hLeast hGreatest
  · rfl

/- A finite value within the limits is what is read. -/
theorem resolve_eq
    {params : Dict F32}
    (hStored : params.get? input.id = some value)
    (hFinite : value.isFinite = true)
    (hWithin : input.Within value) :
    input.resolve params = value := by
  unfold Input.resolve
  rw [hStored, Option.filter_some, if_pos hFinite]
  exact confine_eq_self hWithin

end Input

namespace Catalog

/- What a built-in kind declares under a name. -/
theorem builtIn_input?
    {kind name : String}
    {input : Input}
    (h : builtIn.input? kind name = some input) :
    ∃ known,
      builtIn.find? kind = some known ∧
        known.input? name = some input ∧
        input ∈ known.inputs ∧
        input.id = name := by
  rcases Option.bind_eq_some_iff.mp h with
    ⟨known, hKnown, hInput⟩
  have hId := List.find?_some hInput
  exact
    ⟨known, hKnown, hInput, List.mem_of_find?_eq_some hInput,
      by simpa using hId⟩

/- Initial values of built-in inputs are within the limits. -/
theorem within_initial
    {kind : String}
    {known : Kind}
    (h : builtIn.find? kind = some known) :
    ∀ input ∈ known.inputs, input.Within input.initial := by
  have hKinds :
      ∀ kind ∈ BuiltIn.kinds, ∀ input ∈ kind.inputs,
        input.limits.all (fun limits =>
          limits.least.le input.initial &&
            input.initial.le limits.greatest) = true := by
    decide +kernel
  intro input hInput limits hLimits
  have hSome : input.limits = some limits := hLimits
  have hAll := hKinds known (find?_ofKinds h).1 input hInput
  simpa [hSome] using hAll

/- No built-in kind has the name of a sentinel. -/
theorem builtIn_find?_sentinel
    {id : String}
    (hSentinel : isSentinel id = true) :
    builtIn.find? id = none := by
  have hStart : builtIn.find? startId = none := by
    decide +kernel
  have hFinal : builtIn.find? endId = none := by
    decide +kernel
  rcases Bool.or_eq_true_iff.mp hSentinel with hId | hId
  · rw [beq_iff_eq.mp hId, hStart]
  · rw [beq_iff_eq.mp hId, hFinal]

theorem builtIn_input?_sentinel
    {id : String}
    (hSentinel : isSentinel id = true)
    (name : String) :
    builtIn.input? id name = none := by
  rw [Catalog.input?, builtIn_find?_sentinel hSentinel,
    Option.bind_none]

end Catalog

end FractalShader
