import FractalShader.Decimal.Reading
import FractalShader.Proofs.Binary.Shortest
import Mathlib.Algebra.Order.Ring.Pow
import Mathlib.Data.Rat.Cast.Order

/-
  How exact eight-byte arithmetic is when it scales digits.

  The digits and small powers of ten are exact.  A larger
  power of ten is rounded once, and its product or quotient
  with the digits is rounded once more, so the result is
  within two roundings of the decimal.

  Main declarations:
    * `Format.round_double`
    * `Format.powerOfTen_near`, `Format.powerOfTen_exact`
    * `Close`
    * `Decimal.read?`
    * `Decimal.exists_read?`
-/

------------------------------------------------------------
-- Rounding to Eight Bytes
------------------------------------------------------------

namespace FractalShader

namespace Format

theorem unitBits_double : double.unitBits = 1074 :=
  rfl

/- What is not huge is finite. -/
theorem double_lt_infinity
    {rank : Nat}
    (h : double.magnitude rank ≤ 2 ^ 200) :
    rank < double.infinity := by
  have hExponent : 2 ^ double.exponentBits - 2 = 2046 := rfl
  have hHuge :
      (2 : ℚ) ^ 200 < double.magnitude double.infinity := by
    rw [magnitude, double.units_infinity (by decide),
      hExponent, unitBits_double, lt_div_iff₀ (by positivity),
      Nat.cast_mul, Nat.cast_pow, Nat.cast_pow, Nat.cast_ofNat,
      ← pow_add, ← pow_add]
    exact pow_lt_pow_right₀ (by norm_num) (by decide)
  exact
    double.magnitude_strictMono.lt_iff_lt.mp
      (h.trans_lt hHuge)

/- There is a magnitude above all that is read. -/
theorem exists_double_top :
    ∃ top,
      double.magnitude top = 2 ^ 200 ∧ top < double.infinity := by
  rcases double.exists_magnitude_eq (show 1 ≤ _ by decide)
      (200 + 1074) with
    ⟨top, hTop⟩
  have hValue : double.magnitude top = 2 ^ 200 := by
    rw [hTop, unitBits_double, pow_add]
    field_simp
    norm_num
  exact ⟨top, hValue, double_lt_infinity hValue.le⟩

variable {num den : Nat}

/- Neither huge nor tiny, a quotient is rounded closely. -/
theorem round_double
    (hDen : 0 < den)
    (hLow : 1 / 2 ^ 200 ≤ (num : ℚ) / den)
    (hHigh : (num : ℚ) / den ≤ 2 ^ 200) :
    double.round num den < double.infinity ∧
      |double.magnitude (double.round num den) -
          (num : ℚ) / den| ≤
        (num : ℚ) / den / 2 ^ 53 := by
  rcases exists_double_top with ⟨top, hTop, hFinite⟩
  have hSmallest :
      (2 : ℚ) ^ double.fractionBits / 2 ^ double.unitBits ≤
        1 / 2 ^ 200 := by
    rw [unitBits_double, div_le_div_iff₀ (by positivity)
      (by positivity), one_mul, ← pow_add]
    exact pow_le_pow_right₀ (by norm_num) (by decide)
  have hBits :
      (2 : ℚ) * 2 ^ double.fractionBits = 2 ^ 53 := by
    rw [show double.fractionBits = 52 from rfl]
    norm_num
  rw [← hBits]
  exact
    abs_round_sub_le (by decide) hDen (hSmallest.trans hLow)
      (hTop ▸ hHigh) hFinite

/- A magnitude that is not huge is rounded to itself. -/
theorem round_double_exact
    {exact : Nat}
    (hDen : 0 < den)
    (h : (num : ℚ) / den = double.magnitude exact)
    (hHigh : (num : ℚ) / den ≤ 2 ^ 200) :
    double.round num den = exact :=
  round_of_eq_magnitude (by decide) hDen h
    (double_lt_infinity (h ▸ hHigh)).le

/- A magnitude of few bits and any size stays what it is. -/
theorem magnitude_round_integer
    {steps shift : Nat}
    (hSteps : steps ≤ 2 * 2 ^ double.fractionBits)
    (hHigh : (steps * 2 ^ shift : ℚ) ≤ 2 ^ 200) :
    double.magnitude (double.round (steps * 2 ^ shift) 1) =
      steps * 2 ^ shift := by
  rcases double.exists_magnitude_eq hSteps (shift + 1074) with
    ⟨exact, hExact⟩
  have hValue :
      double.magnitude exact = steps * 2 ^ shift := by
    rw [hExact, unitBits_double, pow_add, ← mul_assoc,
      mul_div_assoc, div_self (by positivity), mul_one]
  have hQuotient :
      ((steps * 2 ^ shift : Nat) : ℚ) / (1 : Nat) =
        steps * 2 ^ shift := by
    rw [Nat.cast_one, div_one, Nat.cast_mul, Nat.cast_pow,
      Nat.cast_ofNat]
  rw [round_double_exact (by decide)
      (hQuotient.trans hValue.symm) (hQuotient ▸ hHigh),
    hValue]

/- Powers of ten up to this one are far from huge. -/
theorem tenPower_le
    {k : Nat}
    (h : k ≤ 45) :
    (10 : ℚ) ^ k ≤ 2 ^ 200 :=
  calc
    (10 : ℚ) ^ k
    _ ≤ 10 ^ 45 := pow_le_pow_right₀ (by norm_num) h
    _ ≤ 2 ^ 200 := by norm_num

/- Small powers of ten are exact. -/
theorem powerOfTen_exact
    {k : Nat}
    (h : k ≤ 22) :
    double.magnitude (double.powerOfTen k) = 10 ^ k := by
  have hFive : 5 ^ k ≤ 2 * 2 ^ double.fractionBits :=
    (Nat.pow_le_pow_right (by decide) h).trans (by decide)
  have hTen : ((5 ^ k : Nat) * 2 ^ k : ℚ) = 10 ^ k := by
    rw [Nat.cast_pow, Nat.cast_ofNat, ← mul_pow]
    norm_num
  have hRound :=
    magnitude_round_integer hFive
      (hTen ▸ tenPower_le (by omega))
  rw [hTen, ← Nat.mul_pow] at hRound
  exact hRound

/- Larger ones are rounded once. -/
theorem powerOfTen_near
    {k : Nat}
    (h : k ≤ 45) :
    |double.magnitude (double.powerOfTen k) - 10 ^ k| ≤
      10 ^ k / 2 ^ 53 := by
  have hQuotient :
      ((10 ^ k : Nat) : ℚ) / (1 : Nat) = 10 ^ k := by
    rw [Nat.cast_one, div_one, Nat.cast_pow, Nat.cast_ofNat]
  have hOne : (1 : ℚ) ≤ 10 ^ k := one_le_pow₀ (by norm_num)
  have hTiny : (1 : ℚ) / 2 ^ 200 ≤ 1 := by norm_num
  rw [← hQuotient]
  exact
    (round_double (by decide)
      (by rw [hQuotient]; exact hTiny.trans hOne)
      (by rw [hQuotient]; exact tenPower_le h)).2

end Format

end FractalShader

------------------------------------------------------------
-- Two Roundings
------------------------------------------------------------

namespace FractalShader

/- A number is within two roundings of another one. -/
def Close (x d : ℚ) : Prop :=
  |x - d| ≤ d * (1025 / 2 ^ 62)

namespace Close

variable {x d y : ℚ}

/-
  What is close to a number is on the same side of whatever
  is not close to it.
-/
theorem lt_iff
    (h : Close x d)
    (hApart : d * (1025 / 2 ^ 62) < |d - y|) :
    (d < y → x < y) ∧ (y < d → y < x) := by
  have hBounds := abs_le.mp h
  constructor
  · intro hLess
    rw [abs_of_neg (by linarith)] at hApart
    linarith [hBounds.2]
  · intro hLess
    rw [abs_of_pos (by linarith)] at hApart
    linarith [hBounds.1]

/-
  The quotient that is rounded in the end is within one
  rounding of the decimal, and a little more.
-/
theorem of_round
    {num den : Nat}
    (hDen : 0 < den)
    (hNear :
      |(num : ℚ) / den - d| ≤ d * (2049 / 2 ^ 64))
    (hLow : 1 / 2 ^ 199 ≤ d)
    (hHigh : d ≤ 2 ^ 199) :
    Format.double.round num den < Format.double.infinity ∧
      Close
        (Format.double.magnitude (Format.double.round num den))
        d := by
  have hPositive : (0 : ℚ) < d :=
    lt_of_lt_of_le (by positivity) hLow
  have hBounds := abs_le.mp hNear
  have hHalf : d / 2 ≤ (num : ℚ) / den := by linarith
  have hDouble : (num : ℚ) / den ≤ 2 * d := by linarith
  have hFloor : (1 : ℚ) / 2 ^ 200 ≤ (num : ℚ) / den :=
    calc
      (1 : ℚ) / 2 ^ 200
      _ = 1 / 2 ^ 199 / 2 := by norm_num
      _ ≤ d / 2 := by linarith
      _ ≤ (num : ℚ) / den := hHalf
  have hRoof : (num : ℚ) / den ≤ 2 ^ 200 :=
    calc
      (num : ℚ) / den
      _ ≤ 2 * d := hDouble
      _ ≤ 2 * 2 ^ 199 := by linarith
      _ = 2 ^ 200 := by norm_num
  rcases Format.round_double hDen hFloor hRoof with
    ⟨hFinite, hRound⟩
  refine ⟨hFinite, ?_⟩
  have hError := abs_le.mp hRound
  rw [Close, abs_le]
  constructor <;> linarith

/- A factor with a small error gives a product with one. -/
theorem mul_near
    {power ten part : ℚ}
    (hPositive : 0 ≤ d)
    (h : |power - ten| ≤ ten * part) :
    |d * power - d * ten| ≤ d * ten * part := by
  rw [← mul_sub, abs_mul, abs_of_nonneg hPositive, mul_assoc]
  exact mul_le_mul_of_nonneg_left h hPositive

/- So does a divisor with a quotient, but for a little. -/
theorem div_near
    {power ten : ℚ}
    (hPositive : 0 < d)
    (hTen : 0 < ten)
    (h : |power - ten| ≤ ten / 2 ^ 53) :
    0 < power ∧
      |d * ten / power - d| ≤ d * (2049 / 2 ^ 64) := by
  have hBounds := abs_le.mp h
  have hPower : 0 < power := by linarith [hBounds.1]
  have hTotal : 0 < d * ten := by positivity
  have hBelow :=
    mul_le_mul_of_nonneg_left hBounds.1 hPositive.le
  have hAbove :=
    mul_le_mul_of_nonneg_left hBounds.2 hPositive.le
  have hLeast : d * (1 - 2049 / 2 ^ 64) ≤ d * ten / power := by
    rw [le_div_iff₀ hPower]
    linarith
  have hMost : d * ten / power ≤ d * (1 + 2049 / 2 ^ 64) := by
    rw [div_le_iff₀ hPower]
    linarith
  refine ⟨hPower, ?_⟩
  rw [abs_le]
  constructor <;> linarith

end Close

end FractalShader

------------------------------------------------------------
-- Scaled Digits
------------------------------------------------------------

namespace FractalShader

namespace Format

/- A product is rounded from the product of magnitudes. -/
theorem scaleUp_quotient
    (f : Format)
    (rank k : Nat) :
    ((f.units rank * f.units (f.powerOfTen k) : Nat) : ℚ) /
        (2 ^ (2 * f.unitBits) : Nat) =
      f.magnitude rank * f.magnitude (f.powerOfTen k) := by
  unfold magnitude
  rw [two_mul, pow_add]
  push_cast
  field_simp

/- A magnitude above zero has units. -/
theorem units_pos_of_magnitude
    {f : Format}
    {rank : Nat}
    (h : 0 < f.magnitude rank) :
    0 < f.units rank := by
  by_contra hNot
  have hZero : f.units rank = 0 := by omega
  rw [magnitude, hZero] at h
  simp at h

/- A quotient is rounded from the quotient of magnitudes. -/
theorem scaleDown_quotient
    (f : Format)
    (rank k : Nat) :
    (f.units rank : ℚ) / f.units (f.powerOfTen k) =
      f.magnitude rank / f.magnitude (f.powerOfTen k) := by
  unfold magnitude
  rw [div_div_div_cancel_right₀ (by positivity)]

end Format

namespace Decimal

variable (d : Decimal)

/- The rank that digits are read as, with their exponent. -/
def read? : Option Nat :=
  Numeral.scaleBy? (Format.double.round d.coefficient 1)
    d.exponent

/-
  A rank is close to a decimal, and where the power of ten
  is exact it has the value of the decimal if it can.
-/
structure ReadAs (rank : Nat) : Prop where
  finite : rank < Format.double.infinity
  close : Close (Format.double.magnitude rank) d.value
  exact :
    -22 ≤ d.exponent →
      d.exponent ≤ 22 →
        ∀ other,
          d.value = Format.double.magnitude other →
            rank = other

variable {c k : Nat}

theorem magnitude_digits
    (h : c < 2 ^ 53) :
    Format.double.magnitude (Format.double.round c 1) = c := by
  have hLess : (c : ℚ) < 2 ^ 53 := by exact_mod_cast h
  have hRoof : (2 : ℚ) ^ 53 ≤ 2 ^ 200 := by norm_num
  have hTotal : (c * 2 ^ 0 : ℚ) ≤ 2 ^ 200 := by
    simpa using hLess.le.trans hRoof
  simpa using Format.magnitude_round_integer h.le hTotal

theorem value_ofNat :
    (Decimal.mk c (Int.ofNat k)).value = c * 10 ^ k := by
  change (c : ℚ) * 10 ^ ((k : Nat) : Int) = _
  rw [zpow_natCast]

theorem value_negSucc :
    (Decimal.mk c (Int.negSucc k)).value = c / 10 ^ (k + 1) := by
  change (c : ℚ) * 10 ^ (Int.negSucc k) = _
  rw [zpow_negSucc, ← div_eq_mul_inv]

/- Digits times a power of ten. -/
theorem exists_read?_ofNat
    (hPositive : 0 < c)
    (hSmall : c < 2 ^ 53)
    (hPower : k ≤ 39) :
    ∃ rank,
      (Decimal.mk c (Int.ofNat k)).read? = some rank ∧
        (Decimal.mk c (Int.ofNat k)).ReadAs rank := by
  have hDigits := magnitude_digits hSmall
  have hNear :=
    Format.powerOfTen_near (show k ≤ 45 by omega)
  have hOne : (1 : ℚ) ≤ c := by exact_mod_cast hPositive
  have hLess : (c : ℚ) ≤ 2 ^ 53 := by exact_mod_cast hSmall.le
  have hTen : (1 : ℚ) ≤ 10 ^ k := one_le_pow₀ (by norm_num)
  have hRoof : (10 : ℚ) ^ k ≤ 10 ^ 39 :=
    pow_le_pow_right₀ (by norm_num) hPower
  have hQuotient :=
    Format.double.scaleUp_quotient
      (Format.double.round c 1) k
  rw [hDigits] at hQuotient
  have hDen : 0 < 2 ^ (2 * Format.double.unitBits) :=
    Nat.two_pow_pos _
  have hLow : (1 : ℚ) / 2 ^ 199 ≤ c * 10 ^ k :=
    calc
      (1 : ℚ) / 2 ^ 199
      _ ≤ 1 * 1 := by norm_num
      _ ≤ c * 10 ^ k := by gcongr
  have hHigh : (c : ℚ) * 10 ^ k ≤ 2 ^ 199 :=
    calc
      (c : ℚ) * 10 ^ k
      _ ≤ 2 ^ 53 * 10 ^ 39 := by gcongr
      _ ≤ 2 ^ 199 := by norm_num
  have hClose :
      |(c : ℚ) * Format.double.magnitude
            (Format.double.powerOfTen k) - c * 10 ^ k| ≤
        c * 10 ^ k * (2049 / 2 ^ 64) := by
    apply Close.mul_near (by positivity)
    linarith
  rw [← hQuotient] at hClose
  rcases Close.of_round hDen hClose hLow hHigh with
    ⟨hFinite, hRead⟩
  refine
    ⟨Format.double.scaleUp (Format.double.round c 1) k, ?_,
      { finite := hFinite, close := ?_, exact := ?_ }⟩
  · have hStep : k ≤ Numeral.stepLimit := by
      unfold Numeral.stepLimit
      omega
    simp only [read?, Numeral.scaleBy?, if_pos hStep]
    exact if_neg hFinite.ne
  · rw [value_ofNat]
    exact hRead
  · intro _ hExact other hOther
    have hExact : k ≤ 22 := Int.ofNat_le.mp hExact
    rw [value_ofNat] at hOther
    rw [Format.powerOfTen_exact hExact, hOther] at hQuotient
    refine Format.round_double_exact hDen hQuotient ?_
    rw [hQuotient, ← hOther]
    linarith [show (2 : ℚ) ^ 199 ≤ 2 ^ 200 by norm_num]

/- Digits divided by a power of ten. -/
theorem exists_read?_negSucc
    (hPositive : 0 < c)
    (hSmall : c < 2 ^ 53)
    (hPower : k + 1 ≤ 45) :
    ∃ rank,
      (Decimal.mk c (Int.negSucc k)).read? = some rank ∧
        (Decimal.mk c (Int.negSucc k)).ReadAs rank := by
  have hDigits := magnitude_digits hSmall
  have hNear := Format.powerOfTen_near hPower
  have hOne : (1 : ℚ) ≤ c := by exact_mod_cast hPositive
  have hLess : (c : ℚ) ≤ 2 ^ 53 := by exact_mod_cast hSmall.le
  have hTen : (1 : ℚ) ≤ 10 ^ (k + 1) :=
    one_le_pow₀ (by norm_num)
  have hRoof : (10 : ℚ) ^ (k + 1) ≤ 10 ^ 45 :=
    pow_le_pow_right₀ (by norm_num) hPower
  have hQuotient :=
    Format.double.scaleDown_quotient
      (Format.double.round c 1) (k + 1)
  rw [hDigits] at hQuotient
  have hLow : (1 : ℚ) / 2 ^ 199 ≤ c / 10 ^ (k + 1) :=
    calc
      (1 : ℚ) / 2 ^ 199
      _ ≤ 1 / 10 ^ 45 := by norm_num
      _ ≤ c / 10 ^ (k + 1) := by gcongr
  have hHigh : (c : ℚ) / 10 ^ (k + 1) ≤ 2 ^ 199 :=
    calc
      (c : ℚ) / 10 ^ (k + 1)
      _ ≤ 2 ^ 53 / 1 := by gcongr
      _ ≤ 2 ^ 199 := by norm_num
  have hSplit :
      (c : ℚ) = c / 10 ^ (k + 1) * 10 ^ (k + 1) := by
    field_simp
  rcases Close.div_near
      (lt_of_lt_of_le (by positivity) hLow)
      (lt_of_lt_of_le one_pos hTen) hNear with
    ⟨hPowerPositive, hClose⟩
  have hDen := Format.units_pos_of_magnitude hPowerPositive
  rw [← hSplit] at hClose
  rw [← hQuotient] at hClose
  rcases Close.of_round hDen hClose hLow hHigh with
    ⟨hFinite, hRead⟩
  refine
    ⟨Format.double.scaleDown (Format.double.round c 1) (k + 1),
      ?_, { finite := hFinite, close := ?_, exact := ?_ }⟩
  · have hStep : k + 1 ≤ Numeral.stepLimit := by
      unfold Numeral.stepLimit
      omega
    simp only [read?, Numeral.scaleBy?]
    rw [Numeral.scaleDownBy, if_pos hStep]
  · rw [value_negSucc]
    exact hRead
  · intro hExact _ other hOther
    have hExact : k + 1 ≤ 22 := by
      simp only [Int.negSucc_eq] at hExact
      omega
    rw [value_negSucc] at hOther
    rw [Format.powerOfTen_exact hExact, hOther] at hQuotient
    refine Format.round_double_exact hDen hQuotient ?_
    rw [hQuotient, ← hOther]
    linarith [show (2 : ℚ) ^ 199 ≤ 2 ^ 200 by norm_num]

/- Digits on the grids that numbers are written on. -/
theorem exists_read?
    {d : Decimal}
    (hPositive : 0 < d.coefficient)
    (hSmall : d.coefficient < 2 ^ 53)
    (hLeast : -45 ≤ d.exponent)
    (hGreatest : d.exponent ≤ 39) :
    ∃ rank, d.read? = some rank ∧ d.ReadAs rank := by
  rcases d with ⟨c, e⟩
  cases e with
  | ofNat k =>
      exact
        exists_read?_ofNat hPositive hSmall
          (Int.ofNat_le.mp hGreatest)
  | negSucc k =>
      apply exists_read?_negSucc hPositive hSmall
      simp only [Int.negSucc_eq] at hLeast
      omega

end Decimal

end FractalShader
