import FractalShader.Binary.Basic
import Mathlib.Algebra.Order.Group.Unbundled.Int
import Mathlib.Data.Nat.Dist
import Mathlib.Tactic.Linarith
import Mathlib.Tactic.LinearCombination
import Mathlib.Tactic.Ring
import Mathlib.Tactic.Zify

/-
  How near a decimal of few digits comes to a number of few
  bits.

  With steps of one size for the decimal and of another for
  the number of bits, both are whole numbers of steps.  Two
  fractions fence the ratio of the sizes, so close together
  that no fraction with small terms lies between them.  A
  pair of small whole numbers then is a multiple of one of
  the two, or it misses by as much as both together.

  The search for a fence is not proved to find a narrow one.
  What it finds is a fence by its type, and that it is narrow
  enough is checked.

  Main declarations:
    * `Fence`
    * `Fence.search`
    * `Fence.multiple_or_width_le`
    * `Apart`
    * `Grid.clear_of_le`
    * `Grid.told_of_level`
    * `Grid.told_of_near`
-/

------------------------------------------------------------
-- Fences
------------------------------------------------------------

namespace FractalShader

/-
  Two fractions around the ratio `b / a`, as pairs of whole
  numbers.  The pair above counts too many steps of size `a`
  for its steps of size `b`, and the pair below too few.
-/
structure Fence (a b : Nat) where
  aboveA : Nat
  aboveB : Nat
  belowA : Nat
  belowB : Nat
  unimodular : aboveA * belowB = belowA * aboveB + 1
  above : aboveB * b ≤ aboveA * a
  below : belowA * a ≤ belowB * b

namespace Fence

variable {a b : Nat}

/- Everything lies between nothing and infinitely much. -/
def start : Fence a b where
  aboveA := 1
  aboveB := 0
  belowA := 0
  belowB := 1
  unimodular := by omega
  above := by omega
  below := by omega

variable (fence : Fence a b)

/- Move the pair below towards the pair above. -/
def raise
    (times : Nat)
    (h :
      (fence.belowA + times * fence.aboveA) * a ≤
        (fence.belowB + times * fence.aboveB) * b) :
    Fence a b where
  aboveA := fence.aboveA
  aboveB := fence.aboveB
  belowA := fence.belowA + times * fence.aboveA
  belowB := fence.belowB + times * fence.aboveB
  unimodular := by
    rw [Nat.mul_add, fence.unimodular]
    ring
  above := fence.above
  below := h

/- Move the pair above towards the pair below. -/
def lower
    (times : Nat)
    (h :
      (fence.aboveB + times * fence.belowB) * b ≤
        (fence.aboveA + times * fence.belowA) * a) :
    Fence a b where
  aboveA := fence.aboveA + times * fence.belowA
  aboveB := fence.aboveB + times * fence.belowB
  belowA := fence.belowA
  belowB := fence.belowB
  unimodular := by
    rw [Nat.add_mul, fence.unimodular]
    ring
  above := h
  below := fence.below

/- By how much the pairs miss. -/
def missAbove : Nat :=
  fence.aboveA * a - fence.aboveB * b

def missBelow : Nat :=
  fence.belowB * b - fence.belowA * a

/-
  Narrow a fence until the pair between its two has more
  than `bound` steps of size `b`.
-/
def search (bound : Nat) : Nat → Fence a b → Fence a b
  | 0, fence => fence
  | fuel + 1, fence =>
      let room := bound - fence.aboveB - fence.belowB
      if bound < fence.aboveB + fence.belowB then
        fence
      else if fence.missAbove ≤ fence.missBelow then
        let most := room / fence.aboveB + 1
        let times :=
          if fence.missAbove = 0 then
            most
          else
            min most (fence.missBelow / fence.missAbove)
        if h :
            (fence.belowA + times * fence.aboveA) * a ≤
              (fence.belowB + times * fence.aboveB) * b then
          search bound fuel (fence.raise times h)
        else
          fence
      else
        let most := room / fence.belowB + 1
        let times :=
          if fence.missBelow = 0 then
            most
          else
            min most (fence.missAbove / fence.missBelow)
        if h :
            (fence.aboveB + times * fence.belowB) * b ≤
              (fence.aboveA + times * fence.belowA) * a then
          search bound fuel (fence.lower times h)
        else
          fence

/- Two numbers are as far apart as either way tells. -/
theorem le_dist
    {width x y : Nat}
    (h :
      (width : Int) ≤ (x : Int) - y ∨
        (width : Int) ≤ (y : Int) - x) :
    width ≤ Nat.dist x y := by
  unfold Nat.dist
  omega

theorem cast_missAbove :
    (fence.missAbove : Int) =
      fence.aboveA * a - fence.aboveB * b := by
  rw [missAbove, Nat.cast_sub fence.above]
  push_cast
  rfl

theorem cast_missBelow :
    (fence.missBelow : Int) =
      fence.belowB * b - fence.belowA * a := by
  rw [missBelow, Nat.cast_sub fence.below]
  push_cast
  rfl

/- The two pairs are a basis of all pairs. -/
theorem exists_coordinates (c m : Nat) :
    ∃ x y : Int,
      (c : Int) = x * fence.aboveA + y * fence.belowA ∧
        (m : Int) = x * fence.aboveB + y * fence.belowB := by
  have hUnimodular :
      (fence.aboveA * fence.belowB : Int) =
        fence.belowA * fence.aboveB + 1 := by
    exact_mod_cast fence.unimodular
  refine
    ⟨c * fence.belowB - m * fence.belowA,
      m * fence.aboveA - c * fence.aboveB, ?_, ?_⟩
  · linear_combination (-(c : Int)) * hUnimodular
  · linear_combination (-(m : Int)) * hUnimodular

variable {c m : Nat} {x y : Int}

/- By how much a pair misses, from its coordinates. -/
theorem miss_eq
    (hC : (c : Int) = x * fence.aboveA + y * fence.belowA)
    (hM : (m : Int) = x * fence.aboveB + y * fence.belowB) :
    ((c * a : Nat) : Int) - (m * b : Nat) =
      x * fence.missAbove - y * fence.missBelow := by
  rw [cast_missAbove, cast_missBelow]
  push_cast
  rw [hC, hM]
  ring

/- With opposite signs, the misses of both pairs add up. -/
theorem width_le
    (hC : (c : Int) = x * fence.aboveA + y * fence.belowA)
    (hM : (m : Int) = x * fence.aboveB + y * fence.belowB)
    (hSigns : (1 ≤ x ∧ 1 ≤ -y) ∨ (1 ≤ -x ∧ 1 ≤ y)) :
    fence.missAbove + fence.missBelow ≤
      Nat.dist (c * a) (m * b) := by
  have hMiss := fence.miss_eq hC hM
  have hOver : (0 : Int) ≤ fence.missAbove := by omega
  have hUnder : (0 : Int) ≤ fence.missBelow := by omega
  apply le_dist
  push_cast at hMiss ⊢
  rcases hSigns with ⟨hX, hY⟩ | ⟨hX, hY⟩
  · have hFirst := le_mul_of_one_le_left hOver hX
    have hSecond := le_mul_of_one_le_left hUnder hY
    left
    linarith
  · have hFirst := le_mul_of_one_le_left hOver hX
    have hSecond := le_mul_of_one_le_left hUnder hY
    right
    linarith

/-
  A small pair is a multiple of one of the two, or it takes
  them with opposite signs.
-/
theorem multiple_or_width_le
    {bound : Nat}
    (hWide : bound < fence.aboveB + fence.belowB)
    (hPositive : 0 < c)
    (hSmall : m ≤ bound) :
    (∃ times, c = times * fence.aboveA ∧
        m = times * fence.aboveB) ∨
      (∃ times, c = times * fence.belowA ∧
        m = times * fence.belowB) ∨
      fence.missAbove + fence.missBelow ≤
        Nat.dist (c * a) (m * b) := by
  rcases fence.exists_coordinates c m with ⟨x, y, hC, hM⟩
  have hWidth := fence.width_le hC hM
  zify at hWide hSmall hPositive
  have hAboveA : (0 : Int) ≤ fence.aboveA := by omega
  have hAboveB : (0 : Int) ≤ fence.aboveB := by omega
  have hBelowA : (0 : Int) ≤ fence.belowA := by omega
  have hBelowB : (0 : Int) ≤ fence.belowB := by omega
  rcases lt_trichotomy x 0 with hX | rfl | hX
  · have hY : 0 < y := by
      by_contra hNot
      have hFirst := mul_nonpos_of_nonpos_of_nonneg hX.le hAboveA
      have hSecond :=
        mul_nonpos_of_nonpos_of_nonneg (not_lt.mp hNot) hBelowA
      omega
    exact Or.inr (Or.inr (hWidth (Or.inr (by omega))))
  · rcases Int.le_total y 0 with hY | hY
    · have hNone := mul_nonpos_of_nonpos_of_nonneg hY hBelowA
      omega
    · right; left
      lift y to Nat using hY
      refine ⟨y, ?_, ?_⟩
      · zify
        linarith
      · zify
        linarith
  · rcases lt_trichotomy y 0 with hY | rfl | hY
    · exact Or.inr (Or.inr (hWidth (Or.inl (by omega))))
    · left
      lift x to Nat using hX.le
      refine ⟨x, ?_, ?_⟩
      · zify
        linarith
      · zify
        linarith
    · -- With both pairs in it, the pair is too large.
      have hFirst :=
        le_mul_of_one_le_left hAboveB (show 1 ≤ x by omega)
      have hSecond :=
        le_mul_of_one_le_left hBelowB (show 1 ≤ y by omega)
      omega

end Fence

end FractalShader

------------------------------------------------------------
-- Numbers That Are Far Apart
------------------------------------------------------------

namespace FractalShader

/-
  Two numbers are further apart than two roundings to eight
  bytes can move the first, one of them of a power of ten.
-/
def Apart (x y : Nat) : Prop :=
  1025 * x < 2 ^ 62 * Nat.dist x y

instance (x y : Nat) : Decidable (Apart x y) :=
  inferInstanceAs (Decidable (_ < _))

namespace Apart

variable {x y : Nat}

/- Only the ratio of two numbers counts. -/
theorem mul_left_iff
    {times : Nat}
    (hPositive : 0 < times) :
    Apart (times * x) (times * y) ↔ Apart x y := by
  unfold Apart
  rw [Nat.dist_mul_left, Nat.mul_left_comm 1025,
    Nat.mul_left_comm (2 ^ 62)]
  exact Nat.mul_lt_mul_left hPositive

/- Numbers of different sizes are apart. -/
theorem of_double_lt
    (h : 2 * y < x) :
    Apart x y := by
  unfold Apart Nat.dist
  omega

/- So are numbers whose distance is a part of the second. -/
theorem of_le_dist
    {width : Nat}
    (hWidth : 1025 * (2 * y) < 2 ^ 62 * width)
    (h : width ≤ Nat.dist x y) :
    Apart x y := by
  rcases Nat.lt_or_ge (2 * y) x with hLarge | hSmall
  · exact of_double_lt hLarge
  · unfold Apart
    omega

end Apart

end FractalShader

------------------------------------------------------------
-- Grids of Decimals and Midpoints
------------------------------------------------------------

namespace FractalShader

namespace Grid

/- A step of the grid `10 ^ (k - 149)`, in half steps. -/
def step (k : Nat) : Nat :=
  2 * 10 ^ k

/-
  The largest power of two for which a midpoint of that many
  halves of a unit is no larger than a step.
-/
def level (k : Nat) : Nat :=
  (step k / 5 ^ (149 : Nat)).log2

/- The midpoint of that power of two, in half steps. -/
def gap (k : Nat) : Nat :=
  2 ^ level k * 5 ^ (149 : Nat)

/- The largest odd factor of a midpoint, and more. -/
def bound : Nat :=
  2 ^ (25 : Nat)

/- A narrow fence for the ratio of a step and a midpoint. -/
def fence (k : Nat) : Fence (step k) (gap k) :=
  Fence.start.search bound 40

/-
  The pairs that come too near.  They have the exponents
  `-32` and `-15`.
-/
def nearMisses : List (Nat × Nat × Nat) :=
  [(117, 14077062, 22841339), (134, 25645849, 28874659)]

/-
  Multiples of a pair do no harm: no odd number of halves is
  among them, they are midpoints themselves and the power of
  ten is exact, they keep away, or only one of them is small.
-/
def Harmless (k c m : Nat) : Prop :=
  m % 2 = 0 ∨
    (c * step k = m * gap k ∧ 127 ≤ k ∧ k ≤ 171) ∨
    Apart (c * step k) (m * gap k) ∨
    ((k, c, m) ∈ nearMisses ∧ bound < 2 * m)

instance (k c m : Nat) : Decidable (Harmless k c m) :=
  inferInstanceAs (Decidable (_ ∨ _ ∨ _ ∨ _))

/- What is checked of each grid. -/
structure Clear (k : Nat) : Prop where
  coarse : 129 * step k ≤ 256 * gap k
  wide : bound < (fence k).aboveB + (fence k).belowB
  narrow :
    1025 * (2 * (bound * gap k)) <
      2 ^ 62 * ((fence k).missAbove + (fence k).missBelow)
  above : Harmless k (fence k).aboveA (fence k).aboveB
  below : Harmless k (fence k).belowA (fence k).belowB

instance (k : Nat) : Decidable (Clear k) :=
  decidable_of_iff
    (129 * step k ≤ 256 * gap k ∧
      bound < (fence k).aboveB + (fence k).belowB ∧
      1025 * (2 * (bound * gap k)) <
        2 ^ 62 * ((fence k).missAbove + (fence k).missBelow) ∧
      Harmless k (fence k).aboveA (fence k).aboveB ∧
      Harmless k (fence k).belowA (fence k).belowB)
    ⟨fun ⟨a, b, c, d, e⟩ => ⟨a, b, c, d, e⟩,
      fun ⟨a, b, c, d, e⟩ => ⟨a, b, c, d, e⟩⟩

/- The grids of step `10 ^ (-45)` to `10 ^ 39` are clear. -/
theorem clear_add (i : Fin 85) : Clear (104 + i) := by
  revert i
  decide +kernel

variable {k : Nat}

theorem clear_of_le
    (hLow : 104 ≤ k)
    (hHigh : k ≤ 188) :
    Clear k := by
  have h := clear_add ⟨k - 104, by omega⟩
  rwa [show 104 + (k - 104) = k by omega] at h

/- A small odd multiple of a harmless pair is harmless. -/
theorem Harmless.multiple
    {c m times : Nat}
    (h : Harmless k c m)
    (hOdd : times * m % 2 = 1)
    (hSmall : times * m ≤ bound) :
    (times * c * step k = times * m * gap k ∧
        127 ≤ k ∧ k ≤ 171) ∨
      Apart (times * c * step k) (times * m * gap k) ∨
      (k, times * c, times * m) ∈ nearMisses := by
  have hPositive : 0 < times := by
    by_contra hNot
    have hZero : times = 0 := by omega
    simp [hZero] at hOdd
  rcases h with hEven | ⟨hExact, hRange⟩ | hApart | ⟨hMem, hOne⟩
  · rw [Nat.mul_mod, hEven] at hOdd
    simp at hOdd
  · left
    refine ⟨?_, hRange⟩
    rw [Nat.mul_assoc, hExact, Nat.mul_assoc]
  · right; left
    rw [Nat.mul_assoc, Nat.mul_assoc]
    exact (Apart.mul_left_iff hPositive).mpr hApart
  · right; right
    have hTimes : times = 1 := by
      by_contra hNot
      have hTwice := Nat.mul_le_mul_right m
        (show 2 ≤ times by omega)
      omega
    rwa [hTimes, Nat.one_mul, Nat.one_mul]

/-
  On a clear grid a decimal with few digits is a midpoint,
  or it keeps away from it, or it is one of two near misses.
-/
theorem Clear.pair
    (hClear : Clear k)
    {c m : Nat}
    (hPositive : 0 < c)
    (hOdd : m % 2 = 1)
    (hSmall : m ≤ bound) :
    (c * step k = m * gap k ∧ 127 ≤ k ∧ k ≤ 171) ∨
      Apart (c * step k) (m * gap k) ∨
      (k, c, m) ∈ nearMisses := by
  rcases (fence k).multiple_or_width_le hClear.wide hPositive
      hSmall with
    ⟨times, rfl, rfl⟩ | ⟨times, rfl, rfl⟩ | hWidth
  · exact hClear.above.multiple hOdd hSmall
  · exact hClear.below.multiple hOdd hSmall
  · right; left
    refine Apart.of_le_dist ?_ hWidth
    have hTotal := Nat.mul_le_mul_right (gap k) hSmall
    have hNarrow := hClear.narrow
    omega

/- The digits of the near misses, with their exponents. -/
def nearDigits : List (Nat × Nat) :=
  [(117, 14077062), (117, 7038531), (134, 25645849)]

/-
  What can be told of `point` steps and a midpoint: they are
  equal and the power of ten is exact, they keep apart, or
  the digits are those of a near miss.
-/
def Told (k point midpoint : Nat) : Prop :=
  (point * step k = midpoint ∧ 127 ≤ k ∧ k ≤ 171) ∨
    Apart (point * step k) midpoint ∨
    (k, point) ∈ nearDigits

/- A near miss has no digits but those, halved or not. -/
theorem mem_nearDigits
    {point shift m : Nat}
    (h : (k, point * 2 ^ shift, m) ∈ nearMisses) :
    (k, point) ∈ nearDigits := by
  simp only [nearMisses, List.mem_cons, Prod.mk.injEq,
    List.not_mem_nil, or_false] at h
  simp only [nearDigits, List.mem_cons, Prod.mk.injEq,
    List.not_mem_nil, or_false]
  rcases shift with _ | _ | shift
  · omega
  · omega
  · rw [Nat.pow_succ, Nat.pow_succ] at h
    rw [← Nat.mul_assoc, ← Nat.mul_assoc] at h
    omega

/- Midpoints up to the level of a grid. -/
theorem told_of_level
    (hClear : Clear k)
    {point m shift : Nat}
    (hPositive : 0 < point)
    (hOdd : m % 2 = 1)
    (hSmall : m ≤ bound)
    (hShift : shift ≤ level k) :
    Told k point (m * (2 ^ shift * 5 ^ (149 : Nat))) := by
  have hTwo : 0 < 2 ^ (level k - shift) := Nat.two_pow_pos _
  have hStep :
      point * 2 ^ (level k - shift) * step k =
        2 ^ (level k - shift) * (point * step k) := by
    ring
  have hGap :
      m * gap k =
        2 ^ (level k - shift) *
          (m * (2 ^ shift * 5 ^ (149 : Nat))) := by
    rw [gap, ← Nat.sub_add_cancel hShift, Nat.pow_add,
      Nat.add_sub_cancel]
    ring
  rcases hClear.pair (Nat.mul_pos hPositive hTwo) hOdd
      hSmall with
    ⟨hExact, hRange⟩ | hApart | hMiss
  · rw [hStep, hGap] at hExact
    exact Or.inl ⟨Nat.eq_of_mul_eq_mul_left hTwo hExact, hRange⟩
  · rw [hStep, hGap, Apart.mul_left_iff hTwo] at hApart
    exact Or.inr (Or.inl hApart)
  · exact Or.inr (Or.inr (mem_nearDigits hMiss))

/-
  Midpoints above the level: a decimal that is no more than
  a step from the magnitude is far from them.
-/
theorem told_of_near
    (hClear : Clear k)
    {point m shift value : Nat}
    (hSmall : m ≤ bound)
    (hShift : level k < shift)
    (hBelow : point * step k ≤ value + step k)
    (hAbove : value ≤ point * step k + step k)
    (hValue :
      Nat.dist value (m * (2 ^ shift * 5 ^ (149 : Nat))) =
        2 ^ shift * 5 ^ (149 : Nat)) :
    Told k point (m * (2 ^ shift * 5 ^ (149 : Nat))) := by
  have hFive : 0 < 5 ^ (149 : Nat) := Nat.pow_pos (by decide)
  have hTwice : 2 * gap k ≤ 2 ^ shift * 5 ^ (149 : Nat) := by
    have hPower : 2 ^ (level k + 1) ≤ 2 ^ shift :=
      Nat.pow_le_pow_right (by decide) hShift
    calc
      2 * gap k
      _ = 2 ^ (level k + 1) * 5 ^ (149 : Nat) := by
        rw [gap, Nat.pow_succ]
        ring
      _ ≤ _ := Nat.mul_le_mul_right _ hPower
  have hGap : 0 < gap k := Nat.mul_pos (Nat.two_pow_pos _) hFive
  have hCoarse := hClear.coarse
  generalize 2 ^ shift * 5 ^ (149 : Nat) = half at *
  have hMany := Nat.mul_le_mul_right half hSmall
  have hWidth :
      1025 * (2 * (m * half)) < 2 ^ 62 * (half - step k) := by
    unfold bound at hMany
    omega
  right; left
  apply Apart.of_le_dist hWidth
  unfold Nat.dist at hValue ⊢
  omega

end Grid

end FractalShader
