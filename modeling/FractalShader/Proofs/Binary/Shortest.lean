import FractalShader.Binary.Shortest
import FractalShader.Proofs.Binary.Rounding
import FractalShader.Proofs.Decimal.Numeral
import Mathlib.Data.Nat.Digits.Defs
import Mathlib.Tactic.NormNum

/-
  The shortest digits of a magnitude round back to it.

  The search stops at a grid that has a point in the interval
  around the magnitude, and no coarser grid has one.  So the
  steps of the grid are not much smaller than the interval,
  and the digits are few.

  Main declarations:
    * `Format.Neighborhood.Found`
    * `Format.Neighborhood.found_coarsest`
    * `Decimal.value`
    * `Format.nearest_shortest`
    * `Format.shortest_single`
-/

------------------------------------------------------------
-- Points of Grids
------------------------------------------------------------

namespace FractalShader

namespace Format

namespace Neighborhood

/- The value lies inside, and on the finest grid. -/
structure Proper (n : Neighborhood) : Prop where
  low_lt : n.low < n.value
  lt_high : n.value < n.high
  even : n.value % 2 = 0

variable {n : Neighborhood} {tie : Decimal.Tie}
variable {step point : Nat}

/- An interval has its ends only when it is closed. -/
theorem contains_iff :
    n.contains point = true ↔
      (n.low ≤ point ∧ point ≤ n.high) ∧
        (n.closed = false →
          n.low < point ∧ point < n.high) := by
  unfold contains
  cases n.closed <;> simp
  omega

/- A point that is taken is one of two around the value. -/
theorem gridPoint?_eq_some
    (h : n.gridPoint? tie step = some point) :
    n.contains (point * step) = true ∧
      (point = n.value / step ∨
        point = n.value / step + 1) := by
  unfold gridPoint? at h
  dsimp only at h
  split at h
  · rename_i hBelow hAbove
    split at h
    · cases h
      exact ⟨hBelow, Or.inl rfl⟩
    · cases h
      exact ⟨hAbove, Or.inr rfl⟩
  · rename_i hBelow _
    cases h
    exact ⟨hBelow, Or.inl rfl⟩
  · rename_i hAbove
    cases h
    exact ⟨hAbove, Or.inr rfl⟩
  · cases h

/- So it is less than a step away. -/
theorem near_of_gridPoint?
    (hStep : 0 < step)
    (h : n.gridPoint? tie step = some point) :
    point * step ≤ n.value + step ∧
      n.value ≤ point * step + step := by
  have hSplit := Nat.div_add_mod n.value step
  have hRest := Nat.mod_lt n.value hStep
  rw [Nat.mul_comm] at hSplit
  rcases (gridPoint?_eq_some h).2 with rfl | rfl
  · omega
  · rw [Nat.succ_mul]
    omega

/- If none is taken, the interval is no wider than a step. -/
theorem high_le_of_gridPoint?
    (hProper : n.Proper)
    (hStep : 0 < step)
    (h : n.gridPoint? tie step = none) :
    n.high ≤ n.low + step := by
  have hSplit := Nat.div_add_mod n.value step
  have hRest := Nat.mod_lt n.value hStep
  have hLow := hProper.low_lt
  have hHigh := hProper.lt_high
  rw [Nat.mul_comm] at hSplit
  unfold gridPoint? at h
  dsimp only at h
  split at h
  · split at h <;> cases h
  · cases h
  · cases h
  · rename_i hBelow hAbove
    rw [← Bool.not_eq_true, contains_iff] at hBelow hAbove
    rw [Nat.succ_mul] at hAbove
    omega

/-
  What the search finds: a point of the interval on a grid,
  less than a step from the value.  The next coarser grid
  was not searched or has no point in the interval.
-/
structure Found
    (n : Neighborhood)
    (start : Nat)
    (found : Nat × Nat) : Prop where
  contained :
    n.contains (found.1 * (2 * 10 ^ found.2)) = true
  le_value :
    found.1 * (2 * 10 ^ found.2) ≤ n.value + 2 * 10 ^ found.2
  value_le :
    n.value ≤ found.1 * (2 * 10 ^ found.2) + 2 * 10 ^ found.2
  le_start : found.2 ≤ start
  coarsest :
    found.2 = start ∨ n.high ≤ n.low + 2 * 10 ^ (found.2 + 1)

theorem found_coarsest
    (hProper : n.Proper)
    (tie : Decimal.Tie)
    (start : Nat) :
    n.Found start (n.coarsest tie start) := by
  have hLow := hProper.low_lt
  have hHigh := hProper.lt_high
  have hEven := hProper.even
  induction start with
  | zero =>
      have hValue : n.value / 2 * (2 * 10 ^ 0) = n.value := by
        omega
      have hInside : n.contains n.value = true :=
        contains_iff.mpr (by omega)
      exact
        { contained := by rw [coarsest, hValue, hInside]
          le_value := by rw [coarsest, hValue]; omega
          value_le := by rw [coarsest, hValue]; omega
          le_start := Nat.le_refl 0
          coarsest := Or.inl rfl }
  | succ k ih =>
      have hStep : 0 < 2 * 10 ^ (k + 1) :=
        Nat.mul_pos (by decide) (Nat.pow_pos (by decide))
      rw [coarsest]
      cases hPoint : n.gridPoint? tie (2 * 10 ^ (k + 1)) with
      | some point =>
          have hNear := near_of_gridPoint? hStep hPoint
          exact
            { contained := (gridPoint?_eq_some hPoint).1
              le_value := hNear.1
              value_le := hNear.2
              le_start := Nat.le_refl _
              coarsest := Or.inl rfl }
      | none =>
          exact
            { contained := ih.contained
              le_value := ih.le_value
              value_le := ih.value_le
              le_start := Nat.le_succ_of_le ih.le_start
              coarsest := by
                right
                rcases ih.coarsest with hSame | hNarrow
                · rw [hSame]
                  exact
                    high_le_of_gridPoint? hProper hStep hPoint
                · exact hNarrow }

end Neighborhood

end Format

end FractalShader

------------------------------------------------------------
-- Digits That Round Back
------------------------------------------------------------

namespace FractalShader

/- The number that a decimal stands for. -/
def Decimal.value (d : Decimal) : ℚ :=
  d.coefficient * 10 ^ d.exponent

namespace Format

variable (f : Format) {rank : Nat}

theorem proper_neighborhood
    (hRank : 0 < rank) :
    (f.neighborhood rank).Proper := by
  have hScale : 0 < 5 ^ f.unitBits := Nat.pow_pos (by decide)
  have hBelow : f.units (rank - 1) < f.units rank :=
    f.units_strictMono (by omega)
  have hAbove : f.units rank < f.units (rank + 1) :=
    f.units_strictMono (Nat.lt_succ_self _)
  refine ⟨?_, ?_, ?_⟩
  · exact Nat.mul_lt_mul_of_pos_right (by omega) hScale
  · exact Nat.mul_lt_mul_of_pos_right (by omega) hScale
  · change 2 * f.units rank * 5 ^ f.unitBits % 2 = 0
    rw [Nat.mul_assoc]
    exact Nat.mul_mod_right 2 _

/- The half steps of the decimal grid in one. -/
def halfSteps : Nat :=
  2 * 10 ^ f.unitBits

theorem halfSteps_pos : (0 : ℚ) < f.halfSteps := by
  unfold halfSteps
  positivity

/- A midpoint is a whole number of half steps. -/
theorem midpoint_eq_halfSteps (rank : Nat) :
    f.midpoint rank =
      ((f.units rank + f.units (rank + 1)) * 5 ^ f.unitBits :
          Nat) / f.halfSteps := by
  have hTen : (10 : ℚ) ^ f.unitBits =
      2 ^ f.unitBits * 5 ^ f.unitBits := by
    rw [← mul_pow]
    norm_num
  unfold midpoint magnitude halfSteps
  push_cast
  rw [hTen]
  field_simp

/- What lies in the interval of a rank is nearest to it. -/
theorem nearest_of_contains
    (hRank : 0 < rank)
    {point : Nat}
    (h : (f.neighborhood rank).contains point = true) :
    f.Nearest ((point : ℚ) / f.halfSteps) rank := by
  have hPositive := f.halfSteps_pos
  have hBefore :=
    f.midpoint_eq_halfSteps (rank - 1)
  rw [Nat.sub_add_cancel hRank] at hBefore
  rcases Neighborhood.contains_iff.mp h with
    ⟨⟨hLow, hHigh⟩, hOpen⟩
  constructor
  · intro _
    rw [hBefore, div_le_div_iff_of_pos_right hPositive]
    exact_mod_cast hLow
  · rw [f.midpoint_eq_halfSteps,
      div_le_div_iff_of_pos_right hPositive]
    exact_mod_cast hHigh
  · intro hOdd
    have hStrict := hOpen (by simp [neighborhood, hOdd])
    rw [hBefore, f.midpoint_eq_halfSteps,
      div_lt_div_iff_of_pos_right hPositive,
      div_lt_div_iff_of_pos_right hPositive]
    exact_mod_cast hStrict

/- Where the search for digits starts. -/
def startOf (rank : Nat) : Nat :=
  f.unitBits +
    (Nat.toDigits 10 (f.units rank / 2 ^ f.unitBits)).length

/- What the search finds, and what it makes of it. -/
theorem exists_found
    (hRank : 0 < rank)
    (tie : Decimal.Tie) :
    ∃ point k : Nat,
      f.shortest tie rank =
          ⟨point, (k : Int) - f.unitBits⟩ ∧
        (f.neighborhood rank).Found (f.startOf rank)
          (point, k) :=
  ⟨_, _, rfl,
    Neighborhood.found_coarsest (f.proper_neighborhood hRank)
      tie _⟩

/- The digits of a point of a grid, in half steps. -/
theorem value_eq_halfSteps (point k : Nat) :
    (Decimal.mk point ((k : Int) - f.unitBits)).value =
      (point * (2 * 10 ^ k) : Nat) / f.halfSteps := by
  unfold Decimal.value halfSteps
  rw [zpow_sub₀ (by norm_num), zpow_natCast, zpow_natCast]
  push_cast
  field_simp

/- The shortest digits are nearest to the magnitude. -/
theorem nearest_shortest
    (hRank : 0 < rank)
    (tie : Decimal.Tie) :
    f.Nearest (f.shortest tie rank).value rank := by
  rcases f.exists_found hRank tie with
    ⟨point, k, hShortest, hFound⟩
  rw [hShortest, f.value_eq_halfSteps]
  exact f.nearest_of_contains hRank hFound.contained

end Format

end FractalShader

------------------------------------------------------------
-- Digits of Four-Byte Numbers
------------------------------------------------------------

namespace FractalShader

namespace Format

/- The search starts above the magnitude. -/
theorem value_lt_start
    (f : Format)
    (rank : Nat) :
    (f.neighborhood rank).value < 2 * 10 ^ f.startOf rank := by
  have hWhole :=
    Digit.lt_pow_length_toDigits
      (f.units rank / 2 ^ f.unitBits)
  have hTwo : 0 < 2 ^ f.unitBits := Nat.two_pow_pos _
  have hUnits := (Nat.div_lt_iff_lt_mul hTwo).mp hWhole
  have hFive : 0 < 5 ^ f.unitBits := Nat.pow_pos (by decide)
  have hTen : 10 ^ f.unitBits = 2 ^ f.unitBits * 5 ^ f.unitBits :=
    (Nat.mul_pow 2 5 f.unitBits)
  change 2 * f.units rank * 5 ^ f.unitBits < _
  rw [startOf, Nat.pow_add, hTen]
  have h := Nat.mul_lt_mul_of_pos_right hUnits hFive
  calc
    2 * f.units rank * 5 ^ f.unitBits
    _ = 2 * (f.units rank * 5 ^ f.unitBits) := by ring
    _ < 2 * (10 ^ (Nat.toDigits 10
          (f.units rank / 2 ^ f.unitBits)).length *
        2 ^ f.unitBits * 5 ^ f.unitBits) := by omega
    _ = _ := by ring

variable {f : Format} {rank point k : Nat}

/- The interval around a positive magnitude excludes zero. -/
theorem found_pos
    (hRank : 0 < rank)
    (h :
      (f.neighborhood rank).Found (f.startOf rank)
        (point, k)) :
    0 < point := by
  have hProper := (f.proper_neighborhood hRank).low_lt
  have hLow := (Neighborhood.contains_iff.mp h.contained).1.1
  have hPositive : 0 < (f.neighborhood rank).low := by
    have hUnits : f.units 0 < f.units rank :=
      f.units_strictMono hRank
    exact
      Nat.mul_pos (by rw [f.units_zero] at hUnits; omega)
        (Nat.pow_pos (by decide))
  by_contra hNot
  have hZero : point = 0 := by omega
  simp only [hZero, Nat.zero_mul] at hLow
  omega

/- Unless the search ends at once, steps are not too fine. -/
theorem found_narrow
    (hNarrow :
      (f.neighborhood rank).high ≤
        (f.neighborhood rank).low + 2 * 10 ^ (k + 1)) :
    (f.units (rank + 1) - f.units (rank - 1)) *
        5 ^ f.unitBits ≤
      2 * 10 ^ (k + 1) := by
  have hSplit :
      (f.neighborhood rank).high =
        f.units rank * 5 ^ f.unitBits +
          f.units (rank + 1) * 5 ^ f.unitBits :=
    Nat.add_mul _ _ _
  have hLow :
      (f.neighborhood rank).low =
        f.units (rank - 1) * 5 ^ f.unitBits +
          f.units rank * 5 ^ f.unitBits :=
    Nat.add_mul _ _ _
  rw [Nat.sub_mul]
  omega

/- The digits of a format are about as many as its bits. -/
theorem found_few
    (hRank : 0 < rank)
    (h :
      (f.neighborhood rank).Found (f.startOf rank)
        (point, k)) :
    point ≤ 20 * (2 * 2 ^ f.fractionBits) := by
  have hTen : 0 < 10 ^ k := Nat.pow_pos (by decide)
  have hTwo : 0 < 2 ^ f.fractionBits := Nat.two_pow_pos _
  have hPoint := h.le_value
  dsimp only at hPoint
  suffices hBound :
      point * (2 * 10 ^ k) ≤
        20 * (2 * 2 ^ f.fractionBits) * (2 * 10 ^ k) from
    Nat.le_of_mul_le_mul_right hBound (by omega)
  rcases h.coarsest with hStart | hNarrow
  · have hValue := f.value_lt_start rank
    dsimp only at hStart
    rw [← hStart] at hValue
    calc
      point * (2 * 10 ^ k)
      _ ≤ 2 * (2 * 10 ^ k) := by omega
      _ ≤ 20 * (2 * 2 ^ f.fractionBits) * (2 * 10 ^ k) :=
        Nat.mul_le_mul_right _ (by omega)
  · rcases f.exists_units_succ rank with
      ⟨shift, steps, _, hSteps, hHere, hNext⟩
    have hBefore : f.units (rank - 1) ≤ f.units rank :=
      f.units_strictMono.monotone (by omega)
    have hStep :
        2 ^ shift * 5 ^ f.unitBits ≤ 2 * 10 ^ (k + 1) := by
      refine Nat.le_trans ?_ (found_narrow hNarrow)
      apply Nat.mul_le_mul_right
      rw [hNext, Nat.succ_mul, ← hHere]
      omega
    have hValue :
        (f.neighborhood rank).value =
          2 * (steps * (2 ^ shift * 5 ^ f.unitBits)) := by
      change 2 * f.units rank * 5 ^ f.unitBits = _
      rw [hHere]
      ring
    have hSmaller :
        steps * (2 ^ shift * 5 ^ f.unitBits) ≤
          steps * (20 * 10 ^ k) := by
      rw [Nat.pow_succ] at hStep
      exact Nat.mul_le_mul_left _ (by omega)
    have hFit :
        (steps + 1) * (20 * 10 ^ k) ≤
          2 * 2 ^ f.fractionBits * (20 * 10 ^ k) :=
      Nat.mul_le_mul_right _ hSteps
    rw [Nat.succ_mul] at hFit
    calc
      point * (2 * 10 ^ k)
      _ ≤ 2 * (steps * (20 * 10 ^ k)) + 2 * 10 ^ k := by omega
      _ ≤ 2 * (2 * 2 ^ f.fractionBits * (20 * 10 ^ k)) := by
        omega
      _ = 20 * (2 * 2 ^ f.fractionBits) * (2 * 10 ^ k) := by
        ring

theorem unitBits_single : single.unitBits = 149 :=
  rfl

/- The magnitudes of four bytes end at a power of two. -/
theorem units_single_lt
    (hFinite : rank < single.infinity) :
    single.units rank < 2 ^ 23 * 2 ^ 254 := by
  have hLess := single.units_strictMono hFinite
  rwa [single.units_infinity (by decide)] at hLess

/-
  The shortest digits of a four-byte number: few digits on
  one of the grids of step `10 ^ (-45)` to `10 ^ 39`, less
  than a step away from the number.
-/
theorem shortest_single
    (hRank : 0 < rank)
    (hFinite : rank < single.infinity)
    (tie : Decimal.Tie) :
    ∃ point k : Nat,
      single.shortest tie rank = ⟨point, (k : Int) - 149⟩ ∧
        (single.neighborhood rank).Found
          (single.startOf rank) (point, k) ∧
        0 < point ∧ point < 2 ^ 29 ∧ 104 ≤ k ∧ k ≤ 188 := by
  rcases single.exists_found hRank tie with
    ⟨point, k, hShortest, hFound⟩
  refine
    ⟨point, k, hShortest, hFound, found_pos hRank hFound,
      Nat.lt_of_le_of_lt (found_few hRank hFound) (by decide),
      ?_, ?_⟩
  · rcases hFound.coarsest with hStart | hNarrow
    · dsimp only at hStart
      rw [hStart, startOf, unitBits_single]
      omega
    · have hBelow :
          single.units (rank - 1) < single.units rank :=
        single.units_strictMono (by omega)
      have hAbove :
          single.units rank < single.units (rank + 1) :=
        single.units_strictMono (Nat.lt_succ_self _)
      have hWide :
          2 * 5 ^ single.unitBits ≤ 2 * 10 ^ (k + 1) := by
        refine Nat.le_trans ?_ (found_narrow hNarrow)
        exact Nat.mul_le_mul_right _ (by omega)
      by_contra hNot
      have hFine : 10 ^ (k + 1) ≤ 10 ^ 104 :=
        Nat.pow_le_pow_right (by decide) (by omega)
      have hFive : 10 ^ 104 < 5 ^ single.unitBits := by
        rw [unitBits_single]
        norm_num
      omega
  · have hWhole :
        single.units rank / 2 ^ single.unitBits < 10 ^ 39 := by
      rw [Nat.div_lt_iff_lt_mul (Nat.two_pow_pos _),
        unitBits_single]
      refine (units_single_lt hFinite).trans ?_
      norm_num
    have hLength := Nat.toDigits_length 10 _ 39 (by decide) hWhole
    have hStart := hFound.le_start
    have hBits := unitBits_single
    rw [startOf] at hStart
    dsimp only at hStart
    omega

end Format

end FractalShader
