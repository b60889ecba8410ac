import FractalShader.Decimal.Layout
import FractalShader.Proofs.Decimal.Scaling

/-
  How spelled digits are read.

  The reader collects the digits of a numeral into one
  integer and counts those after the point.  For a spelled
  decimal this gives back its digits and its exponent.

  Main declarations:
    * `Numeral.collectFraction_eq`
    * `Numeral.double?_lowest`
    * `Decimal.exists_reading?_spell`
-/

------------------------------------------------------------
-- Collected Digits
------------------------------------------------------------

namespace FractalShader

namespace Digit

/- The digits before count for as many tens as follow. -/
theorem foldl_value
    (n : Nat)
    (digits : List Digit) :
    digits.foldl (fun n d => 10 * n + d.val) n =
      n * 10 ^ digits.length + value digits := by
  induction digits using List.reverseRecOn with
  | nil => simp [value]
  | append_singleton digits d ih =>
      rw [List.foldl_append, value_append_singleton, ih,
        List.length_append, List.length_singleton, Nat.pow_succ]
      simp only [List.foldl_cons, List.foldl_nil]
      ring

theorem value_cons
    (d : Digit)
    (digits : List Digit) :
    value (d :: digits) =
      d.val * 10 ^ digits.length + value digits := by
  have h := foldl_value d.val digits
  rw [← h, value, List.foldl_cons, Nat.mul_zero, Nat.zero_add]

theorem length_lowest (k n : Nat) :
    (lowest k n).length = k := by
  induction k generalizing n with
  | zero => rfl
  | succ k ih => simp [lowest, ih]

/- The lowest digits spell a remainder. -/
theorem value_lowest (k n : Nat) :
    value (lowest k n) = n % 10 ^ k := by
  induction k generalizing n with
  | zero => simp [lowest, value, Nat.mod_one]
  | succ k ih =>
      rw [lowest, value_append_singleton, ih, Nat.pow_succ,
        Nat.mul_comm (10 ^ k), Nat.mod_mul, Nat.add_comm]
      rfl

end Digit

namespace Numeral

/- Fraction digits that fit are appended, all of them. -/
theorem collectFraction_eq
    {front : Nat}
    {digits : List Digit}
    (hFits :
      front * 10 ^ digits.length + Digit.value digits <
        collectBound) :
    collectFraction front digits =
      (front * 10 ^ digits.length + Digit.value digits,
        digits.length) := by
  induction digits generalizing front with
  | nil => simp [collectFraction, Digit.value]
  | cons d digits ih =>
      have hSplit :
          front * 10 ^ (d :: digits).length +
              Digit.value (d :: digits) =
            (10 * front + d.val) * 10 ^ digits.length +
              Digit.value digits := by
        rw [Digit.value_cons, List.length_cons, Nat.pow_succ]
        ring
      rw [hSplit] at hFits ⊢
      have hNext : 10 * front + d.val < collectBound := by
        have hTen : 0 < 10 ^ digits.length :=
          Nat.pow_pos (by decide)
        have hMore :=
          Nat.le_mul_of_pos_right (10 * front + d.val) hTen
        omega
      simp only [collectFraction, if_pos hNext, ih hFits,
        List.length_cons]

/-
  Of digits that fit, those after the point are counted and
  the rest is collected as if there were no point.
-/
theorem double?_lowest
    (negative : Bool)
    {digits : Nat}
    (hFits : digits < collectBound)
    (places : Nat)
    (exponent : Option Int) :
    (Numeral.mk negative (digits / 10 ^ places)
        (Digit.lowest places digits) exponent).double? =
      (magnitude? digits (-(places : Int)) exponent).map
        (Binary.ofRank negative) := by
  have hWhole :
      collectWhole (digits / 10 ^ places) =
        (digits / 10 ^ places, 0) := by
    rw [collectWhole, if_pos]
    exact Nat.lt_of_le_of_lt (Nat.div_le_self _ _) hFits
  have hSplit :
      digits / 10 ^ places * 10 ^ places +
          digits % 10 ^ places =
        digits := by
    rw [Nat.mul_comm]
    exact Nat.div_add_mod _ _
  have hFraction :
      collectFraction (digits / 10 ^ places)
          (Digit.lowest places digits) =
        (digits, places) := by
    rw [collectFraction_eq] <;>
      rw [Digit.length_lowest, Digit.value_lowest, hSplit]
    exact hFits
  simp only [double?, hWhole, hFraction]
  congr 2
  omega

/- With a point or an exponent, it is no integer. -/
theorem reading?_of_ne
    {n : Numeral}
    (h : n.fraction ≠ [] ∨ n.exponent ≠ none) :
    n.reading? = n.double?.map .double := by
  unfold reading?
  apply if_neg
  rintro ⟨hFraction, hExponent, _⟩
  rcases h with h | h
  · exact h hFraction
  · exact h hExponent

/- Without an exponent, only the places count. -/
theorem magnitude?_none
    (digits : Nat)
    (shift : Int) :
    magnitude? digits shift none =
      (Decimal.mk digits shift).read? :=
  rfl

/- A small exponent is added to them. -/
theorem magnitude?_some
    (digits : Nat)
    {shift written : Int}
    (hWritten : -exponentBound ≤ written)
    (hWritten' : written ≤ exponentBound)
    (hTotal : -exponentBound ≤ shift + written)
    (hTotal' : shift + written ≤ exponentBound) :
    magnitude? digits shift (some written) =
      (Decimal.mk digits (shift + written)).read? := by
  simp only [magnitude?]
  rw [if_neg (by omega), if_neg (by omega),
    Int.min_eq_right hTotal', Int.max_eq_right (by omega)]
  rfl

end Numeral

end FractalShader

------------------------------------------------------------
-- Spelled Decimals
------------------------------------------------------------

namespace FractalShader

namespace Decimal

variable {c : Nat} {negative : Bool}

/- The text of few digits is short. -/
theorem width_le
    {e : Int}
    (hFew : c < 2 ^ 29) :
    (Decimal.mk c e).width ≤ 9 :=
  Nat.toDigits_length 10 c 9 (by decide)
    (hFew.trans (by decide))

/- One digit before the point, and an exponent. -/
theorem reading?_scientific
    {e : Int}
    (hFew : c < 2 ^ 29)
    (hLeast : -45 ≤ e)
    (hGreatest : e ≤ 39) :
    ((Decimal.mk c e).scientific negative).reading? =
      ((Decimal.mk c e).read?.map
        (Binary.ofRank negative)).map .double := by
  have hWidth := width_le (e := e) hFew
  have hFits : c < Numeral.collectBound :=
    hFew.trans (by decide)
  have hLeading :
      (Decimal.mk c e).leading =
        e + ((Decimal.mk c e).width - 1 : Nat) := rfl
  have hBound : Numeral.exponentBound = 2147483647 := rfl
  rw [Numeral.reading?_of_ne (Or.inr (by simp [scientific]))]
  simp only [scientific]
  rw [Numeral.double?_lowest negative hFits,
    Numeral.magnitude?_some c (by omega) (by omega) (by omega)
      (by omega),
    hLeading]
  congr 4
  omega

/- Digits with a point in them or before them. -/
theorem reading?_plain_negSucc
    {k : Nat}
    (hFew : c < 2 ^ 29) :
    ((Decimal.mk c (Int.negSucc k)).plain negative).reading? =
      ((Decimal.mk c (Int.negSucc k)).read?.map
        (Binary.ofRank negative)).map .double := by
  have hFits : c < Numeral.collectBound :=
    hFew.trans (by decide)
  have hDigits : Digit.lowest (k + 1) c ≠ [] := by
    simp [Digit.lowest]
  rw [Numeral.reading?_of_ne (Or.inl hDigits)]
  simp only [plain]
  rw [Numeral.double?_lowest negative hFits,
    Numeral.magnitude?_none]
  rfl

/- An integer with a zero after the point. -/
theorem reading?_plain_ofNat
    {k : Nat}
    (hFits : c * 10 ^ (k + 1) < Numeral.collectBound) :
    ((Decimal.mk c (Int.ofNat k)).plain negative).reading? =
      ((Decimal.mk (c * 10 ^ (k + 1)) (-1)).read?.map
        (Binary.ofRank negative)).map .double := by
  have hRead :=
    Numeral.double?_lowest negative hFits 1 none
  have hWhole : c * 10 ^ (k + 1) / 10 ^ 1 = c * 10 ^ k := by
    rw [Nat.pow_succ, ← Nat.mul_assoc]
    exact Nat.mul_div_cancel _ (by decide)
  have hZero :
      Digit.lowest 1 (c * 10 ^ (k + 1)) = [.zero] := by
    have hRest : c * 10 ^ (k + 1) % 10 = 0 := by
      rw [Nat.pow_succ, ← Nat.mul_assoc]
      exact Nat.mul_mod_left _ _
    simp only [Digit.lowest, List.nil_append]
    congr 1
    exact Fin.ext hRest
  rw [hWhole, hZero] at hRead
  rw [Numeral.reading?_of_ne (Or.inl (by simp [plain]))]
  exact congrArg (Option.map Reading.double) hRead

/- With so many zeros the digits are still few. -/
theorem shifted_lt
    {k : Nat}
    (hPlain : (Decimal.mk c (Int.ofNat k)).leading ≤ 12) :
    c * 10 ^ (k + 1) < 2 ^ 53 := by
  have hDigits := Digit.lt_pow_length_toDigits c
  have hLeading :
      (Decimal.mk c (Int.ofNat k)).leading =
        (k : Int) + ((Nat.toDigits 10 c).length - 1 : Nat) := rfl
  have hTen : 0 < 10 ^ (k + 1) := Nat.pow_pos (by decide)
  calc
    c * 10 ^ (k + 1)
    _ < 10 ^ (Nat.toDigits 10 c).length * 10 ^ (k + 1) :=
      Nat.mul_lt_mul_of_pos_right hDigits hTen
    _ = 10 ^ ((Nat.toDigits 10 c).length + (k + 1)) :=
      (Nat.pow_add _ _ _).symm
    _ ≤ 10 ^ 14 := Nat.pow_le_pow_right (by decide) (by omega)
    _ < 2 ^ 53 := by decide

/- The zeros of a whole number change nothing but digits. -/
theorem value_shifted (c k : Nat) :
    (Decimal.mk (c * 10 ^ (k + 1)) (-1)).value =
      (Decimal.mk c (Int.ofNat k)).value := by
  rw [value_ofNat]
  change
    ((c * 10 ^ (k + 1) : Nat) : ℚ) * 10 ^ (-1 : Int) = _
  push_cast
  rw [pow_succ, zpow_neg_one]
  field_simp

/- With them, the power of ten is small and exact. -/
theorem ReadAs.of_shifted
    {c k rank : Nat}
    (h : (Decimal.mk (c * 10 ^ (k + 1)) (-1)).ReadAs rank) :
    (Decimal.mk c (Int.ofNat k)).ReadAs rank where
  finite := h.finite
  close := value_shifted c k ▸ h.close
  exact := fun _ _ other hOther =>
    h.exact
      (show (-22 : Int) ≤ -1 by decide)
      (show (-1 : Int) ≤ 22 by decide) other
      ((value_shifted c k).trans hOther)

/-
  The JSON spelling of few digits is read as a rank close to
  them.
-/
theorem exists_reading?_spell
    {d : Decimal}
    (hPositive : 0 < d.coefficient)
    (hFew : d.coefficient < 2 ^ 29)
    (hLeast : -45 ≤ d.exponent)
    (hGreatest : d.exponent ≤ 39)
    (negative : Bool) :
    ∃ rank,
      (d.spell .jsonSingle negative).reading? =
          some (.double (.ofRank negative rank)) ∧
        d.ReadAs rank ∧
        (d.exponent < 0 → d.read? = some rank) := by
  have hSmall : d.coefficient < 2 ^ 53 :=
    hFew.trans (by decide)
  rcases exists_read? hPositive hSmall hLeast hGreatest with
    ⟨rank, hRead, hReadAs⟩
  rcases d with ⟨c, e⟩
  unfold spell
  split
  · rename_i hPlain
    cases e with
    | negSucc k =>
        refine ⟨rank, ?_, hReadAs, fun _ => hRead⟩
        rw [reading?_plain_negSucc hFew, hRead]
        rfl
    | ofNat k =>
        -- The zeros move the exponent, but not the value.
        have hShifted : c * 10 ^ (k + 1) < 2 ^ 53 :=
          shifted_lt hPlain.2
        have hTen : 0 < 10 ^ (k + 1) := Nat.pow_pos (by decide)
        rcases exists_read?
            (d := ⟨c * 10 ^ (k + 1), -1⟩)
            (Nat.mul_pos hPositive hTen) hShifted
            (show (-45 : Int) ≤ -1 by decide)
            (show (-1 : Int) ≤ 39 by decide) with
          ⟨other, hOther, hOtherAs⟩
        refine ⟨other, ?_, hOtherAs.of_shifted, ?_⟩
        · rw [reading?_plain_ofNat
            (hShifted.trans (by decide)), hOther]
          rfl
        · intro hNegative
          exact absurd hNegative (by simp)
  · refine ⟨rank, ?_, hReadAs, fun _ => hRead⟩
    rw [reading?_scientific hFew hLeast hGreatest, hRead]
    rfl

end Decimal

end FractalShader
