import FractalShader.Binary.Rounding
import Mathlib.Algebra.Order.Field.Basic
import Mathlib.Algebra.Order.Field.Rat
import Mathlib.Order.Monotone.Basic
import Mathlib.Tactic.FieldSimp
import Mathlib.Tactic.GCongr
import Mathlib.Tactic.Linarith
import Mathlib.Tactic.Positivity
import Mathlib.Tactic.Ring

/-
  Rounding takes a quotient to the nearest magnitude.

  Ranks are grouped in stretches, in which neighbours lie
  equally far apart.  Halfway between neighbours there is a
  midpoint, and a quotient rounds to the one rank whose
  midpoints it lies between.

  Main declarations:
    * `nearestEven_le`, `le_nearestEven`
    * `Format.units_stretch`
    * `Format.units_strictMono`
    * `Format.Nearest`
    * `Format.Nearest.unique`
    * `Format.nearest_rankNear`
    * `Format.round_of_nearest`
    * `Format.abs_round_sub_le`
-/

------------------------------------------------------------
-- Nearest Integers
------------------------------------------------------------

namespace FractalShader

section

variable {num den : Nat}

/- The nearest integer is one of the two around a quotient. -/
theorem div_le_nearestEven :
    num / den ≤ nearestEven num den := by
  unfold nearestEven
  dsimp only
  split <;> omega

/- It is at most half a step above the quotient. -/
theorem nearestEven_le (hDen : 0 < den) :
    2 * (nearestEven num den * den) ≤ 2 * num + den := by
  have hSplit := Nat.div_add_mod num den
  have hRest := Nat.mod_lt num hDen
  unfold nearestEven
  dsimp only
  split
  · rw [Nat.mul_comm (num / den)]
    omega
  · rw [Nat.succ_mul (num / den), Nat.mul_comm (num / den)]
    omega

/- It is at most half a step below the quotient. -/
theorem le_nearestEven (hDen : 0 < den) :
    2 * num ≤ 2 * (nearestEven num den * den) + den := by
  have hSplit := Nat.div_add_mod num den
  have hRest := Nat.mod_lt num hDen
  unfold nearestEven
  dsimp only
  split
  · rw [Nat.mul_comm (num / den)]
    omega
  · rw [Nat.succ_mul (num / den), Nat.mul_comm (num / den)]
    omega

/- Half a step away it is even. -/
theorem nearestEven_even
    (hDen : 0 < den)
    (hHalf :
      2 * (nearestEven num den * den) = 2 * num + den ∨
        2 * num = 2 * (nearestEven num den * den) + den) :
    nearestEven num den % 2 = 0 := by
  have hSplit := Nat.div_add_mod num den
  have hRest := Nat.mod_lt num hDen
  unfold nearestEven at hHalf ⊢
  dsimp only at hHalf ⊢
  split at hHalf
  · rename_i hLow
    rw [Nat.mul_comm (num / den)] at hHalf
    rw [if_pos hLow]
    omega
  · rename_i hHigh
    rw [Nat.succ_mul (num / den), Nat.mul_comm (num / den)]
      at hHalf
    rw [if_neg hHigh]
    omega

end

end FractalShader

------------------------------------------------------------
-- Stretches of Ranks
------------------------------------------------------------

namespace FractalShader

namespace Format

variable (f : Format)

/-
  In a stretch, one rank is worth `2 ^ shift` units.  The
  first stretch begins at zero, the others at a power of two.
-/
theorem units_stretch
    {shift steps : Nat}
    (hSteps : steps ≤ 2 * 2 ^ f.fractionBits)
    (hFull : shift = 0 ∨ 2 ^ f.fractionBits ≤ steps) :
    f.units (shift * 2 ^ f.fractionBits + steps) =
      steps * 2 ^ shift := by
  have hPositive : 0 < 2 ^ f.fractionBits :=
    Nat.two_pow_pos _
  unfold units
  dsimp only
  rw [Nat.mul_comm shift, Nat.mul_add_div hPositive,
    Nat.mul_add_mod]
  rcases Nat.lt_or_ge steps (2 ^ f.fractionBits) with
    hLow | hHigh
  · have hZero : shift = 0 := by omega
    subst hZero
    rw [Nat.div_eq_of_lt hLow, Nat.mod_eq_of_lt hLow]
    simp
  · rcases Nat.lt_or_ge steps (2 * 2 ^ f.fractionBits) with
      hInside | hEnd
    · have hOne : steps / 2 ^ f.fractionBits = 1 :=
        Nat.div_eq_of_lt_le (by omega) (by omega)
      have hRest := Nat.div_add_mod steps (2 ^ f.fractionBits)
      rw [hOne] at hRest ⊢
      rw [if_neg (by omega), Nat.add_sub_cancel]
      congr 1
      omega
    · -- The end of a stretch is the start of the next one.
      have hSteps : steps = 2 * 2 ^ f.fractionBits := by omega
      subst hSteps
      rw [Nat.mul_div_cancel _ hPositive, Nat.mul_mod_left,
        if_neg (by omega),
        show shift + 2 - 1 = shift + 1 from rfl,
        Nat.pow_succ]
      ring

/- Every rank lies in a stretch, and before its end. -/
theorem exists_stretch (rank : Nat) :
    ∃ shift steps,
      rank = shift * 2 ^ f.fractionBits + steps ∧
        steps < 2 * 2 ^ f.fractionBits ∧
        (shift = 0 ∨ 2 ^ f.fractionBits ≤ steps) := by
  have hPositive : 0 < 2 ^ f.fractionBits :=
    Nat.two_pow_pos _
  have hSplit := Nat.div_add_mod rank (2 ^ f.fractionBits)
  have hRest := Nat.mod_lt rank hPositive
  rw [Nat.mul_comm] at hSplit
  cases hStretch : rank / 2 ^ f.fractionBits with
  | zero =>
      rw [hStretch] at hSplit
      exact ⟨0, rank, by omega, by omega, Or.inl rfl⟩
  | succ shift =>
      rw [hStretch, Nat.succ_mul] at hSplit
      exact
        ⟨shift,
          2 ^ f.fractionBits + rank % 2 ^ f.fractionBits,
          by omega, by omega, Or.inr (by omega)⟩

/- Neighbours are an odd and an even multiple of one step. -/
theorem exists_units_succ (rank : Nat) :
    ∃ shift steps,
      rank = shift * 2 ^ f.fractionBits + steps ∧
        steps < 2 * 2 ^ f.fractionBits ∧
        f.units rank = steps * 2 ^ shift ∧
        f.units (rank + 1) = (steps + 1) * 2 ^ shift := by
  rcases f.exists_stretch rank with
    ⟨shift, steps, hRank, hSteps, hFull⟩
  refine ⟨shift, steps, hRank, hSteps, ?_, ?_⟩
  · rw [hRank, f.units_stretch (by omega) hFull]
  · rw [hRank, Nat.add_assoc,
      f.units_stretch (by omega) (by omega)]

theorem units_strictMono : StrictMono f.units := by
  apply strictMono_nat_of_lt_succ
  intro rank
  rcases f.exists_units_succ rank with
    ⟨shift, steps, _, _, hHere, hNext⟩
  rw [hHere, hNext]
  exact
    Nat.mul_lt_mul_of_pos_right (Nat.lt_succ_self _)
      (Nat.two_pow_pos _)

@[simp] theorem units_zero : f.units 0 = 0 := by
  simp [units]

/- Infinity stands where the last power of two would be. -/
theorem units_infinity
    (hBits : 0 < f.exponentBits) :
    f.units f.infinity =
      2 ^ f.fractionBits * 2 ^ (2 ^ f.exponentBits - 2) := by
  have hTwo : 2 ≤ 2 ^ f.exponentBits := by
    have h := Nat.pow_le_pow_right (show 0 < 2 by decide) hBits
    omega
  have hStretch :
      f.infinity =
        (2 ^ f.exponentBits - 2) * 2 ^ f.fractionBits +
          2 ^ f.fractionBits := by
    rw [infinity, ← Nat.succ_mul]
    congr 1
    omega
  rw [hStretch,
    f.units_stretch (by omega) (Or.inr (Nat.le_refl _))]

/- Few steps of any size are the units of some rank. -/
theorem exists_units_eq
    {steps : Nat}
    (hSteps : steps ≤ 2 * 2 ^ f.fractionBits)
    (shift : Nat) :
    ∃ rank, f.units rank = steps * 2 ^ shift := by
  induction shift generalizing steps with
  | zero =>
      refine ⟨0 * 2 ^ f.fractionBits + steps, ?_⟩
      exact f.units_stretch hSteps (Or.inl rfl)
  | succ shift ih =>
      by_cases hFull : 2 ^ f.fractionBits ≤ steps
      · exact
          ⟨(shift + 1) * 2 ^ f.fractionBits + steps,
            f.units_stretch hSteps (Or.inr hFull)⟩
      · -- Twice as many steps of half the size.
        have hTwice : 2 * steps ≤ 2 * 2 ^ f.fractionBits := by
          omega
        rcases ih hTwice with ⟨rank, hRank⟩
        refine ⟨rank, ?_⟩
        rw [hRank, Nat.pow_succ]
        ring

end Format

end FractalShader

------------------------------------------------------------
-- Magnitudes and Midpoints
------------------------------------------------------------

namespace FractalShader

namespace Format

variable (f : Format)

/- The magnitude of a rank as a number. -/
def magnitude (rank : Nat) : ℚ :=
  f.units rank / 2 ^ f.unitBits

/- The number halfway between a rank and the next one. -/
def midpoint (rank : Nat) : ℚ :=
  (f.magnitude rank + f.magnitude (rank + 1)) / 2

theorem magnitude_strictMono : StrictMono f.magnitude := by
  intro low high h
  have hUnits : (f.units low : ℚ) < f.units high := by
    exact_mod_cast f.units_strictMono h
  exact div_lt_div_of_pos_right hUnits (by positivity)

/- A small number of steps of any size is a magnitude. -/
theorem exists_magnitude_eq
    {steps : Nat}
    (hSteps : steps ≤ 2 * 2 ^ f.fractionBits)
    (shift : Nat) :
    ∃ rank,
      f.magnitude rank = steps * 2 ^ shift / 2 ^ f.unitBits := by
  rcases f.exists_units_eq hSteps shift with ⟨rank, hUnits⟩
  refine ⟨rank, ?_⟩
  rw [magnitude, hUnits]
  push_cast
  rfl

theorem magnitude_lt_midpoint (rank : Nat) :
    f.magnitude rank < f.midpoint rank := by
  have h := f.magnitude_strictMono (Nat.lt_succ_self rank)
  unfold midpoint
  linarith

theorem midpoint_lt_magnitude (rank : Nat) :
    f.midpoint rank < f.magnitude (rank + 1) := by
  have h := f.magnitude_strictMono (Nat.lt_succ_self rank)
  unfold midpoint
  linarith

theorem midpoint_strictMono : StrictMono f.midpoint :=
  strictMono_nat_of_lt_succ fun rank =>
    (f.midpoint_lt_magnitude rank).trans
      (f.magnitude_lt_midpoint (rank + 1))

/-
  A number lies between the midpoints of a rank, and on one
  of them only if the rank is even.
-/
structure Nearest (q : ℚ) (rank : Nat) : Prop where
  above : 0 < rank → f.midpoint (rank - 1) ≤ q
  below : q ≤ f.midpoint rank
  odd :
    rank % 2 = 1 →
      f.midpoint (rank - 1) < q ∧ q < f.midpoint rank

namespace Nearest

variable {f : Format} {q : ℚ} {rank other : Nat}

/- No number is nearest to two ranks. -/
theorem not_lt
    (h : f.Nearest q rank)
    (hOther : f.Nearest q other) :
    ¬ rank < other := by
  intro hLess
  have hAbove := hOther.above (by omega)
  have hMono :
      f.midpoint rank ≤ f.midpoint (other - 1) :=
    f.midpoint_strictMono.monotone (by omega)
  have hSame : rank = other - 1 :=
    f.midpoint_strictMono.injective
      (le_antisymm hMono (hAbove.trans h.below))
  -- One of two neighbours is odd.
  rcases Nat.mod_two_eq_zero_or_one rank with hEven | hOdd
  · have hStrict := (hOther.odd (by omega)).1
    rw [← hSame] at hStrict
    exact absurd h.below (not_le.mpr hStrict)
  · have hStrict := (h.odd hOdd).2
    rw [hSame] at hStrict
    exact absurd hAbove (not_le.mpr hStrict)

theorem unique
    (h : f.Nearest q rank)
    (hOther : f.Nearest q other) :
    rank = other :=
  Nat.le_antisymm
    (Nat.le_of_not_lt (hOther.not_lt h))
    (Nat.le_of_not_lt (h.not_lt hOther))

/- A magnitude is nearest to its own rank. -/
theorem magnitude
    (f : Format)
    (rank : Nat) :
    f.Nearest (f.magnitude rank) rank := by
  have hBelow :
      0 < rank → f.midpoint (rank - 1) < f.magnitude rank := by
    intro hPositive
    have h := f.midpoint_lt_magnitude (rank - 1)
    rwa [Nat.sub_add_cancel hPositive] at h
  have hAbove := f.magnitude_lt_midpoint rank
  exact
    ⟨fun hPositive => (hBelow hPositive).le, hAbove.le,
      fun hOdd => ⟨hBelow (by omega), hAbove⟩⟩

/- What is not above a magnitude is not nearest above it. -/
theorem le_of_le_magnitude
    (h : f.Nearest q rank)
    (hLe : q ≤ f.magnitude other) :
    rank ≤ other := by
  by_contra hNot
  have hAbove := h.above (by omega)
  have hMono :
      f.magnitude other ≤ f.magnitude (rank - 1) :=
    f.magnitude_strictMono.monotone (by omega)
  have hStrict := f.magnitude_lt_midpoint (rank - 1)
  linarith

end Nearest

end Format

end FractalShader

------------------------------------------------------------
-- Rounded Quotients
------------------------------------------------------------

namespace FractalShader

namespace Format

variable (f : Format)

/- The steps of a quotient are halved so often. -/
def shiftOf (num den : Nat) : Nat :=
  (num * 2 ^ f.unitBits / den).log2 - f.fractionBits

/- The steps nearest to a quotient. -/
def stepsOf (num den : Nat) : Nat :=
  nearestEven (num * 2 ^ f.unitBits)
    (den * 2 ^ f.shiftOf num den)

/- The rank nearest to a quotient, beyond infinity as well. -/
def rankNear (num den : Nat) : Nat :=
  f.shiftOf num den * 2 ^ f.fractionBits + f.stepsOf num den

theorem round_eq_min (num den : Nat) :
    f.round num den = min f.infinity (f.rankNear num den) :=
  rfl

variable (num : Nat) {den : Nat}

/- A step that is not a unit is small beside the quotient. -/
theorem shiftOf_eq_zero_or
    (hDen : 0 < den) :
    f.shiftOf num den = 0 ∨
      2 ^ f.fractionBits * (den * 2 ^ f.shiftOf num den) ≤
        num * 2 ^ f.unitBits := by
  unfold shiftOf
  by_cases hSmall :
      (num * 2 ^ f.unitBits / den).log2 ≤ f.fractionBits
  · exact Or.inl (by omega)
  · right
    have hNonzero : num * 2 ^ f.unitBits / den ≠ 0 := by
      intro hZero
      rw [hZero] at hSmall
      simp at hSmall
    have hLog := Nat.log2_self_le hNonzero
    have hTotal := (Nat.le_div_iff_mul_le hDen).mp hLog
    calc
      2 ^ f.fractionBits *
          (den *
            2 ^ ((num * 2 ^ f.unitBits / den).log2 -
              f.fractionBits))
      _ =
          2 ^ (f.fractionBits +
            ((num * 2 ^ f.unitBits / den).log2 -
              f.fractionBits)) * den := by
        rw [Nat.pow_add]
        ring
      _ = 2 ^ (num * 2 ^ f.unitBits / den).log2 * den := by
        rw [Nat.add_sub_cancel' (by omega)]
      _ ≤ num * 2 ^ f.unitBits := hTotal

/- The steps of a quotient fit in a stretch. -/
theorem stepsOf_le
    (hDen : 0 < den) :
    f.stepsOf num den ≤ 2 * 2 ^ f.fractionBits := by
  have hLog :
      num * 2 ^ f.unitBits / den <
        2 ^ (f.shiftOf num den + f.fractionBits + 1) := by
    apply Nat.lt_of_lt_of_le Nat.lt_log2_self
    apply Nat.pow_le_pow_right (by omega)
    unfold shiftOf
    omega
  have hLess :
      num * 2 ^ f.unitBits <
        2 * 2 ^ f.fractionBits *
          (den * 2 ^ f.shiftOf num den) := by
    have hTotal := (Nat.div_lt_iff_lt_mul hDen).mp hLog
    rw [Nat.pow_succ, Nat.pow_add] at hTotal
    calc
      num * 2 ^ f.unitBits
      _ < 2 ^ f.shiftOf num den * 2 ^ f.fractionBits * 2 * den :=
        hTotal
      _ = _ := by ring
  have hPositive : 0 < den * 2 ^ f.shiftOf num den :=
    Nat.mul_pos hDen (Nat.two_pow_pos _)
  have hNear : 2 * (f.stepsOf num den * _) ≤ _ :=
    nearestEven_le hPositive
  by_contra hNot
  have hMore :
      (2 * 2 ^ f.fractionBits + 1) *
          (den * 2 ^ f.shiftOf num den) ≤
        f.stepsOf num den * (den * 2 ^ f.shiftOf num den) :=
    Nat.mul_le_mul_right _ (by omega)
  rw [Nat.succ_mul] at hMore
  omega

/- In a stretch that begins above zero they fill half. -/
theorem stepsOf_full
    (hDen : 0 < den) :
    f.shiftOf num den = 0 ∨
      2 ^ f.fractionBits ≤ f.stepsOf num den := by
  refine (f.shiftOf_eq_zero_or num hDen).imp_right ?_
  intro hLe
  have hPositive : 0 < den * 2 ^ f.shiftOf num den :=
    Nat.mul_pos hDen (Nat.two_pow_pos _)
  exact
    ((Nat.le_div_iff_mul_le hPositive).mpr hLe).trans
      div_le_nearestEven

/- The magnitude of a nearest rank counts the steps. -/
theorem units_rankNear
    (hDen : 0 < den) :
    f.units (f.rankNear num den) =
      f.stepsOf num den * 2 ^ f.shiftOf num den :=
  f.units_stretch (f.stepsOf_le num hDen)
    (f.stepsOf_full num hDen)

/- So does the magnitude of the next one, or it is larger. -/
theorem le_units_rankNear_succ
    (hDen : 0 < den) :
    (f.stepsOf num den + 1) * 2 ^ f.shiftOf num den ≤
      f.units (f.rankNear num den + 1) := by
  have hSteps := f.stepsOf_le num hDen
  have hFull := f.stepsOf_full num hDen
  rcases Nat.lt_or_eq_of_le hSteps with hInside | hEnd
  · rw [rankNear, Nat.add_assoc,
      f.units_stretch (by omega) (by omega)]
  · -- The next stretch has steps of twice the size.
    have hPositive : 0 < 2 ^ f.fractionBits :=
      Nat.two_pow_pos _
    have hNext :
        f.rankNear num den + 1 =
          (f.shiftOf num den + 1) * 2 ^ f.fractionBits +
            (2 ^ f.fractionBits + 1) := by
      rw [rankNear, hEnd]
      ring
    rw [hNext, f.units_stretch (by omega) (by omega), hEnd,
      Nat.pow_succ]
    calc
      (2 * 2 ^ f.fractionBits + 1) * 2 ^ f.shiftOf num den
      _ ≤ (2 * 2 ^ f.fractionBits + 2) *
          2 ^ f.shiftOf num den :=
        Nat.mul_le_mul_right _ (by omega)
      _ = _ := by ring

/- The magnitude before it is smaller by one step at least. -/
theorem units_rankNear_pred
    (hDen : 0 < den)
    (hPositive : 0 < f.rankNear num den) :
    f.units (f.rankNear num den - 1) +
          2 ^ f.shiftOf num den ≤
        f.stepsOf num den * 2 ^ f.shiftOf num den ∨
      f.stepsOf num den * 2 ^ f.shiftOf num den * den ≤
        num * 2 ^ f.unitBits := by
  have hSteps := f.stepsOf_le num hDen
  have hFull := f.stepsOf_full num hDen
  by_cases hInside :
      0 < f.stepsOf num den ∧
        (f.shiftOf num den = 0 ∨
          2 ^ f.fractionBits < f.stepsOf num den)
  · left
    have hBefore :
        f.rankNear num den - 1 =
          f.shiftOf num den * 2 ^ f.fractionBits +
            (f.stepsOf num den - 1) := by
      unfold rankNear
      omega
    rw [hBefore, f.units_stretch (by omega) (by omega),
      Nat.sub_mul, Nat.one_mul]
    have hStep :
        2 ^ f.shiftOf num den ≤
          f.stepsOf num den * 2 ^ f.shiftOf num den :=
      Nat.le_mul_of_pos_left _ hInside.1
    omega
  · -- At the start of a stretch, the quotient lies in it.
    right
    rcases f.shiftOf_eq_zero_or num hDen with
      hZero | hLe
    · exfalso
      apply hInside
      refine ⟨?_, Or.inl hZero⟩
      rw [rankNear, hZero] at hPositive
      omega
    · have hStart : f.stepsOf num den ≤ 2 ^ f.fractionBits := by
        have hTwo := Nat.two_pow_pos f.fractionBits
        by_contra hNot
        exact hInside ⟨by omega, Or.inr (by omega)⟩
      calc
        f.stepsOf num den * 2 ^ f.shiftOf num den * den
        _ ≤ 2 ^ f.fractionBits * 2 ^ f.shiftOf num den * den :=
          Nat.mul_le_mul_right _ (Nat.mul_le_mul_right _ hStart)
        _ = 2 ^ f.fractionBits *
            (den * 2 ^ f.shiftOf num den) := by ring
        _ ≤ num * 2 ^ f.unitBits := hLe

/- A midpoint is half a sum of units. -/
theorem midpoint_eq (rank : Nat) :
    f.midpoint rank =
      ((f.units rank + f.units (rank + 1) : Nat) : ℚ) /
        (2 * 2 ^ f.unitBits : Nat) := by
  unfold midpoint magnitude
  push_cast
  field_simp

/- A quotient beside a midpoint, without division. -/
theorem midpoint_le_iff
    (hDen : 0 < den)
    (rank : Nat) :
    f.midpoint rank ≤ (num : ℚ) / den ↔
      (f.units rank + f.units (rank + 1)) * den ≤
        2 * (num * 2 ^ f.unitBits) := by
  have hTwo : 0 < 2 * 2 ^ f.unitBits :=
    Nat.mul_pos (by decide) (Nat.two_pow_pos _)
  rw [midpoint_eq,
    div_le_div_iff₀ (by exact_mod_cast hTwo)
      (by exact_mod_cast hDen),
    Nat.mul_left_comm 2 num]
  exact_mod_cast Iff.rfl

theorem le_midpoint_iff
    (hDen : 0 < den)
    (rank : Nat) :
    (num : ℚ) / den ≤ f.midpoint rank ↔
      2 * (num * 2 ^ f.unitBits) ≤
        (f.units rank + f.units (rank + 1)) * den := by
  have hTwo : 0 < 2 * 2 ^ f.unitBits :=
    Nat.mul_pos (by decide) (Nat.two_pow_pos _)
  rw [midpoint_eq,
    div_le_div_iff₀ (by exact_mod_cast hDen)
      (by exact_mod_cast hTwo),
    Nat.mul_left_comm 2 num]
  exact_mod_cast Iff.rfl

/- Half a step above the quotient at most. -/
theorem stepsOf_near
    (hDen : 0 < den) :
    2 * (f.stepsOf num den * (den * 2 ^ f.shiftOf num den)) ≤
      2 * (num * 2 ^ f.unitBits) +
        den * 2 ^ f.shiftOf num den :=
  nearestEven_le (Nat.mul_pos hDen (Nat.two_pow_pos _))

/- Half a step below the quotient at most. -/
theorem near_stepsOf
    (hDen : 0 < den) :
    2 * (num * 2 ^ f.unitBits) ≤
      2 * (f.stepsOf num den *
          (den * 2 ^ f.shiftOf num den)) +
        den * 2 ^ f.shiftOf num den :=
  le_nearestEven (Nat.mul_pos hDen (Nat.two_pow_pos _))

/-
  The steps of an odd rank are odd, so the quotient is not
  halfway between two steps.
-/
theorem stepsOf_odd
    (hBits : 0 < f.fractionBits)
    (hOdd : f.rankNear num den % 2 = 1) :
    f.stepsOf num den % 2 = 1 := by
  have hEven : 2 ^ f.fractionBits % 2 = 0 := by
    rcases Nat.exists_eq_succ_of_ne_zero hBits.ne' with
      ⟨bits, hBits⟩
    rw [hBits, Nat.pow_succ]
    omega
  have hShift :
      f.shiftOf num den * 2 ^ f.fractionBits % 2 = 0 := by
    rw [Nat.mul_mod, hEven, Nat.mul_zero, Nat.zero_mod]
  unfold rankNear at hOdd
  omega

/- A quotient counted in units. -/
theorem quotient_eq
    (hDen : 0 < den) :
    (num : ℚ) / den =
      (num * 2 ^ f.unitBits : Nat) / (den * 2 ^ f.unitBits) := by
  have hDen' : (0 : ℚ) < den := by exact_mod_cast hDen
  push_cast
  field_simp

/- The units of a nearest rank, on the scale of the quotient. -/
theorem scaled_rankNear
    (hDen : 0 < den) :
    f.units (f.rankNear num den) * den =
      f.stepsOf num den * (den * 2 ^ f.shiftOf num den) := by
  rw [f.units_rankNear num hDen]
  ring

/- The next rank is a step above it at least. -/
theorem le_scaled_rankNear_succ
    (hDen : 0 < den) :
    f.stepsOf num den * (den * 2 ^ f.shiftOf num den) +
        den * 2 ^ f.shiftOf num den ≤
      f.units (f.rankNear num den + 1) * den :=
  calc
    f.stepsOf num den * (den * 2 ^ f.shiftOf num den) +
        den * 2 ^ f.shiftOf num den
    _ = (f.stepsOf num den + 1) * 2 ^ f.shiftOf num den *
        den := by ring
    _ ≤ f.units (f.rankNear num den + 1) * den :=
      Nat.mul_le_mul_right den
        (f.le_units_rankNear_succ num hDen)

/-
  The rank before it is a step below it at least, unless the
  quotient is well above their midpoint.
-/
theorem scaled_rankNear_pred
    (hDen : 0 < den)
    (hPositive : 0 < f.rankNear num den) :
    f.units (f.rankNear num den - 1) * den +
          den * 2 ^ f.shiftOf num den ≤
        f.stepsOf num den * (den * 2 ^ f.shiftOf num den) ∨
      f.units (f.rankNear num den - 1) * den +
            f.units (f.rankNear num den) * den <
          2 * (num * 2 ^ f.unitBits) := by
  rcases f.units_rankNear_pred num hDen hPositive with
    hStepBefore | hStart
  · left
    calc
      f.units (f.rankNear num den - 1) * den +
          den * 2 ^ f.shiftOf num den
      _ = (f.units (f.rankNear num den - 1) +
          2 ^ f.shiftOf num den) * den := by ring
      _ ≤ f.stepsOf num den * 2 ^ f.shiftOf num den * den :=
        Nat.mul_le_mul_right den hStepBefore
      _ = _ := by ring
  · right
    have hLess :
        f.units (f.rankNear num den - 1) * den <
          f.units (f.rankNear num den) * den :=
      Nat.mul_lt_mul_of_pos_right
        (f.units_strictMono (by omega)) hDen
    rw [← f.units_rankNear num hDen] at hStart
    omega

/- Halfway between two steps, the even one is taken. -/
theorem stepsOf_even
    (hDen : 0 < den)
    (hHalf :
      2 * (f.stepsOf num den * (den * 2 ^ f.shiftOf num den)) =
          2 * (num * 2 ^ f.unitBits) +
            den * 2 ^ f.shiftOf num den ∨
        2 * (num * 2 ^ f.unitBits) =
          2 * (f.stepsOf num den *
              (den * 2 ^ f.shiftOf num den)) +
            den * 2 ^ f.shiftOf num den) :
    f.stepsOf num den % 2 = 0 :=
  nearestEven_even
    (Nat.mul_pos hDen (Nat.two_pow_pos (f.shiftOf num den)))
    hHalf

/- A quotient is nearest to the rank that its steps give. -/
theorem nearest_rankNear
    (hBits : 0 < f.fractionBits)
    (hDen : 0 < den) :
    f.Nearest ((num : ℚ) / den) (f.rankNear num den) := by
  have hNear := f.stepsOf_near num hDen
  have hFar := f.near_stepsOf num hDen
  have hEven := f.stepsOf_even num hDen
  have hHere := f.scaled_rankNear num hDen
  have hNext := f.le_scaled_rankNear_succ num hDen
  have hBefore := f.scaled_rankNear_pred num hDen
  have hPred :
      0 < f.rankNear num den →
        f.rankNear num den - 1 + 1 = f.rankNear num den :=
    Nat.sub_add_cancel
  refine ⟨?_, ?_, ?_⟩
  · intro hPositive
    rw [f.midpoint_le_iff num hDen, hPred hPositive, Nat.add_mul]
    have h := hBefore hPositive
    omega
  · rw [f.le_midpoint_iff num hDen, Nat.add_mul]
    omega
  · intro hOdd
    have hSteps := f.stepsOf_odd num hBits hOdd
    have hPositive : 0 < f.rankNear num den := by omega
    constructor
    · rw [← not_le, f.le_midpoint_iff num hDen, hPred hPositive,
        Nat.add_mul]
      have h := hBefore hPositive
      intro hNot
      have hSteps' := hEven (Or.inl (by omega))
      omega
    · rw [← not_le, f.midpoint_le_iff num hDen, Nat.add_mul]
      intro hNot
      have hSteps' := hEven (Or.inr (by omega))
      omega

variable {f} {num} {rank top : Nat}

/- What is nearest to a rank is rounded to it. -/
theorem round_of_nearest
    (hBits : 0 < f.fractionBits)
    (hDen : 0 < den)
    (h : f.Nearest ((num : ℚ) / den) rank)
    (hRank : rank ≤ f.infinity) :
    f.round num den = rank := by
  rw [round_eq_min, (f.nearest_rankNear num hBits hDen).unique h]
  exact Nat.min_eq_right hRank

/- A magnitude is rounded to itself. -/
theorem round_of_eq_magnitude
    (hBits : 0 < f.fractionBits)
    (hDen : 0 < den)
    (h : (num : ℚ) / den = f.magnitude rank)
    (hRank : rank ≤ f.infinity) :
    f.round num den = rank :=
  round_of_nearest hBits hDen (h ▸ .magnitude f rank) hRank

/- What is below a finite magnitude does not overflow. -/
theorem round_eq_rankNear
    (hBits : 0 < f.fractionBits)
    (hDen : 0 < den)
    (hTop : (num : ℚ) / den ≤ f.magnitude top)
    (hFinite : top < f.infinity) :
    f.round num den = f.rankNear num den ∧
      f.rankNear num den < f.infinity := by
  have hRank : f.rankNear num den ≤ top :=
    (f.nearest_rankNear num hBits hDen).le_of_le_magnitude hTop
  refine ⟨?_, by omega⟩
  rw [round_eq_min]
  exact Nat.min_eq_right (by omega)

/- The distance of two quotients of one denominator. -/
theorem abs_magnitude_sub
    (hDen : 0 < den) :
    |f.magnitude (f.rankNear num den) - (num : ℚ) / den| =
      |((f.stepsOf num den *
            (den * 2 ^ f.shiftOf num den) : Nat) : ℚ) -
          (num * 2 ^ f.unitBits : Nat)| /
        (den * 2 ^ f.unitBits) := by
  have hDen' : (0 : ℚ) < den := by exact_mod_cast hDen
  have hMagnitude :
      f.magnitude (f.rankNear num den) =
        (f.stepsOf num den * (den * 2 ^ f.shiftOf num den) :
            Nat) / (den * 2 ^ f.unitBits) := by
    rw [magnitude, f.units_rankNear num hDen]
    push_cast
    field_simp
  rw [hMagnitude, f.quotient_eq num hDen, ← sub_div, abs_div]
  congr 1
  exact abs_of_pos (by positivity)

/- Half a step is a small part of many steps. -/
theorem abs_sub_le_of_half
    {near scaled step parts : Nat}
    (hNear : 2 * near ≤ 2 * scaled + step)
    (hFar : 2 * scaled ≤ 2 * near + step)
    (hMany : parts * step ≤ scaled) :
    |(near : ℚ) - scaled| * (2 * parts) ≤ scaled := by
  have hNear : (2 * near : ℚ) ≤ 2 * scaled + step := by
    exact_mod_cast hNear
  have hFar : (2 * scaled : ℚ) ≤ 2 * near + step := by
    exact_mod_cast hFar
  have hMany : (parts * step : ℚ) ≤ scaled := by
    exact_mod_cast hMany
  have hError : |(near : ℚ) - scaled| ≤ step / 2 := by
    rw [abs_le]
    constructor <;> linarith
  calc
    |(near : ℚ) - scaled| * (2 * parts)
    _ ≤ step / 2 * (2 * parts) := by gcongr
    _ = parts * step := by ring
    _ ≤ scaled := hMany

/-
  The error of rounding is a small part of the quotient, if
  it is as large as the second power of two of the format
  and does not overflow.
-/
theorem abs_round_sub_le
    (hBits : 0 < f.fractionBits)
    (hDen : 0 < den)
    (hLow :
      2 ^ f.fractionBits / 2 ^ f.unitBits ≤ (num : ℚ) / den)
    (hTop : (num : ℚ) / den ≤ f.magnitude top)
    (hFinite : top < f.infinity) :
    f.round num den < f.infinity ∧
      |f.magnitude (f.round num den) - (num : ℚ) / den| ≤
        (num : ℚ) / den / (2 * 2 ^ f.fractionBits) := by
  rcases round_eq_rankNear hBits hDen hTop hFinite with
    ⟨hRound, hLess⟩
  rw [hRound]
  refine ⟨hLess, ?_⟩
  have hDen' : (0 : ℚ) < den := by exact_mod_cast hDen
  have hMany :
      2 ^ f.fractionBits * (den * 2 ^ f.shiftOf num den) ≤
        num * 2 ^ f.unitBits := by
    rcases f.shiftOf_eq_zero_or num hDen with
      hZero | hLe
    · rw [hZero, Nat.pow_zero, Nat.mul_one]
      rw [div_le_div_iff₀ (by positivity) hDen'] at hLow
      exact_mod_cast hLow
    · exact hLe
  have hError :=
    abs_sub_le_of_half (f.stepsOf_near num hDen)
      (f.near_stepsOf num hDen) hMany
  rw [abs_magnitude_sub hDen, f.quotient_eq num hDen,
    div_right_comm]
  apply div_le_div_of_nonneg_right _ (by positivity)
  rw [le_div_iff₀ (by positivity)]
  exact_mod_cast hError

end Format

end FractalShader
