import FractalShader.Decimal.Numeral
import Mathlib.Data.List.Induction
import Mathlib.Data.Nat.Notation

/-
  Numerals are read back from their text.

  A numeral ends where no digit, point or exponent mark goes
  on, so it does not matter what else the text holds.

  Main declarations:
    * `Digit.takeFront_append`
    * `Digit.exists_spelling`
    * `Numeral.Ends`
    * `Numeral.scan?_chars`
-/

------------------------------------------------------------
-- Digits
------------------------------------------------------------

namespace FractalShader

namespace Digit

theorem ofChar?_char (d : Digit) :
    ofChar? d.char = some d := by
  revert d
  decide

/- Digits are read up to the first other character. -/
theorem takeFront_append
    (digits : List Digit)
    {rest : List Char}
    (hRest : ∀ c ∈ rest.head?, ofChar? c = none) :
    takeFront (digits.map char ++ rest) = (digits, rest) := by
  induction digits with
  | nil =>
      cases rest with
      | nil => rfl
      | cons c rest =>
          have hNone := hRest c rfl
          simp [takeFront, hNone]
  | cons d digits ih =>
      simp [takeFront, ofChar?_char, ih]

theorem value_append_singleton
    (digits : List Digit)
    (d : Digit) :
    value (digits ++ [d]) = 10 * value digits + d.val := by
  simp [value]

/- Digits spell a number with no more digits. -/
theorem value_lt (digits : List Digit) :
    value digits < 10 ^ digits.length := by
  induction digits using List.reverseRecOn with
  | nil => decide
  | append_singleton digits d ih =>
      have hDigit := d.isLt
      rw [value_append_singleton, List.length_append,
        List.length_singleton, Nat.pow_succ]
      omega

/-
  The text of a number has digits that spell it, and the
  first of several is not zero.
-/
theorem exists_spelling (n : Nat) :
    ∃ d digits,
      Nat.toDigits 10 n = (d :: digits).map char ∧
        value (d :: digits) = n ∧
        (digits = [] ∨ d ≠ 0) := by
  induction n using Nat.strongRecOn with
  | ind n ih =>
      by_cases hSmall : n < 10
      · refine ⟨⟨n, hSmall⟩, [], ?_, ?_, Or.inl rfl⟩
        · exact Nat.toDigits_of_lt_base hSmall
        · simp [value]
      · have hLess : n / 10 < n := by omega
        have hPositive : 0 < n / 10 := by omega
        rcases ih (n / 10) hLess with
          ⟨d, digits, hText, hValue, hFirst⟩
        have hLast : n % 10 < 10 := by omega
        refine
          ⟨d, digits ++ [⟨n % 10, hLast⟩], ?_, ?_, Or.inr ?_⟩
        · have hSplit :=
            Nat.toDigits_append_toDigits (b := 10) (d := n % 10)
              (by decide) hPositive hLast
          rw [Nat.div_add_mod, hText,
            Nat.toDigits_of_lt_base hLast] at hSplit
          rw [← hSplit]
          simp [char]
        · rw [← List.cons_append, value_append_singleton, hValue]
          simp only
          omega
        · -- One digit that is zero would spell zero.
          rcases hFirst with rfl | hFirst
          · rintro rfl
            simp [value] at hValue
            omega
          · exact hFirst

/- A number is less than the power of ten of its length. -/
theorem lt_pow_length_toDigits (n : Nat) :
    n < 10 ^ (Nat.toDigits 10 n).length := by
  rcases exists_spelling n with
    ⟨d, digits, hText, hValue, _⟩
  have hLess := value_lt (d :: digits)
  rwa [hValue, ← List.length_map char, ← hText] at hLess

end Digit

end FractalShader

------------------------------------------------------------
-- Numerals
------------------------------------------------------------

namespace FractalShader

namespace Numeral

open Digit

/- No numeral goes on at the front of a text. -/
def Ends (text : List Char) : Prop :=
  ∀ c ∈ text.head?,
    ofChar? c = none ∧ c ≠ '.' ∧ c ≠ 'e' ∧ c ≠ 'E'

theorem ends_nil : Ends [] := by
  intro c hc
  cases hc

theorem scanWhole?_chars
    (n : Nat)
    {rest : List Char}
    (hRest : ∀ c ∈ rest.head?, ofChar? c = none) :
    scanWhole? (Nat.toDigits 10 n ++ rest) = some (n, rest) := by
  rcases exists_spelling n with
    ⟨d, digits, hText, hValue, hFirst⟩
  rw [hText, scanWhole?, takeFront_append _ hRest]
  cases digits with
  | nil =>
      simp only [value, List.foldl_cons, List.foldl_nil,
        Nat.mul_zero, Nat.zero_add] at hValue
      simp [hValue]
  | cons e digits =>
      have hNe : d ≠ 0 := by simpa using hFirst
      simp [hNe, hValue]

/- The text of fraction digits, with a point if there are any. -/
def fractionChars (fraction : List Digit) : List Char :=
  if fraction = [] then [] else '.' :: fraction.map char

theorem scanFraction?_chars
    (fraction : List Digit)
    {rest : List Char}
    (hRest :
      ∀ c ∈ rest.head?, ofChar? c = none ∧ c ≠ '.') :
    scanFraction? (fractionChars fraction ++ rest) =
      some (fraction, rest) := by
  unfold fractionChars
  cases fraction with
  | nil =>
      simp only [if_true, List.nil_append]
      unfold scanFraction?
      split
      · exact absurd rfl (hRest '.' rfl).2
      · rfl
  | cons d digits =>
      rw [if_neg (List.cons_ne_nil d digits), List.cons_append,
        scanFraction?,
        takeFront_append _ fun c hc => (hRest c hc).1]

theorem scanExponentDigits?_chars
    (negative : Bool)
    (n : Nat)
    {rest : List Char}
    (hRest : ∀ c ∈ rest.head?, ofChar? c = none) :
    scanExponentDigits? negative (Nat.toDigits 10 n ++ rest) =
      some (some (if negative then -(n : Int) else n), rest)
      := by
  rcases exists_spelling n with ⟨d, digits, hText, hValue, _⟩
  rw [hText, scanExponentDigits?, takeFront_append _ hRest]
  simp only [hValue]

/- Digits do not start with a sign. -/
theorem head_toDigits
    (n : Nat) :
    ∃ d : Digit, ∃ rest,
      Nat.toDigits 10 n = d.char :: rest := by
  rcases exists_spelling n with ⟨d, digits, hText, _⟩
  exact ⟨d, digits.map char, hText⟩

theorem char_ne_sign (d : Digit) :
    d.char ≠ '-' ∧ d.char ≠ '+' := by
  revert d
  decide

theorem scanExponent?_chars
    (plus : Bool)
    (exponent : Option Int)
    {rest : List Char}
    (hRest :
      ∀ c ∈ rest.head?,
        ofChar? c = none ∧ c ≠ 'e' ∧ c ≠ 'E') :
    scanExponent? (exponentChars plus exponent ++ rest) =
      some (exponent, rest) := by
  have hDigits :=
    fun negative n =>
      scanExponentDigits?_chars negative n fun c hc =>
        (hRest c hc).1
  cases exponent with
  | none =>
      cases rest with
      | nil => rfl
      | cons c rest =>
          have hNot := (hRest c rfl).2
          simp [exponentChars, scanExponent?, hNot]
  | some e =>
      cases e with
      | ofNat e =>
          cases plus with
          | true =>
              simpa [exponentChars, scanExponent?] using
                hDigits false e
          | false =>
              rcases head_toDigits e with ⟨d, digits, hText⟩
              have hSign := char_ne_sign d
              have hScan := hDigits false e
              rw [hText] at hScan
              simp only [exponentChars, hText]
              simp only [scanExponent?, List.cons_append,
                List.append_assoc, true_or, if_true]
              split
              · rename_i hHead
                injection hHead with hEq
                exact absurd hEq hSign.1
              · rename_i hHead
                injection hHead with hEq
                exact absurd hEq hSign.2
              · simpa using hScan
      | negSucc e =>
          have hScan := hDigits true (e + 1)
          simpa [exponentChars, scanExponent?, Int.negSucc_eq]
            using hScan

/- A numeral starts with a minus sign or a digit. -/
theorem head_chars
    (plus : Bool)
    (n : Numeral) :
    ∃ c tail, n.chars plus = c :: tail ∧
      (c = '-' ∨ ∃ d : Digit, c = d.char) := by
  rcases head_toDigits n.whole with ⟨d, digits, hText⟩
  unfold chars
  rw [hText]
  cases n.negative with
  | true => exact ⟨'-', _, rfl, Or.inl rfl⟩
  | false => exact ⟨d.char, _, rfl, Or.inr ⟨d, rfl⟩⟩

/- An exponent starts with its mark, or there is none. -/
theorem head_exponentChars
    (plus : Bool)
    (exponent : Option Int)
    {rest : List Char}
    (hRest : Ends rest) :
    ∀ c ∈ (exponentChars plus exponent ++ rest).head?,
      ofChar? c = none ∧ c ≠ '.' := by
  intro c hc
  cases exponent with
  | none =>
      have hNot := hRest c hc
      exact ⟨hNot.1, hNot.2.1⟩
  | some e =>
      cases e with
      | ofNat e =>
          cases hc
          decide
      | negSucc e =>
          cases hc
          decide

/- Fraction digits start with a point, or there are none. -/
theorem head_fractionChars
    (fraction : List Digit)
    {rest : List Char}
    (hRest : ∀ c ∈ rest.head?, ofChar? c = none) :
    ∀ c ∈ (fractionChars fraction ++ rest).head?,
      ofChar? c = none := by
  intro c hc
  unfold fractionChars at hc
  split at hc
  · exact hRest c hc
  · cases hc
    decide

/- A numeral is read back, with or without a plus sign. -/
theorem scan?_chars
    (plus : Bool)
    (n : Numeral)
    {rest : List Char}
    (hRest : Ends rest) :
    scan? (n.chars plus ++ rest) = some (n, rest) := by
  rcases n with ⟨negative, whole, fraction, exponent⟩
  have hExponentHead :=
    head_exponentChars plus exponent hRest
  have hExponent :=
    scanExponent?_chars plus exponent fun c hc =>
      ⟨(hRest c hc).1, (hRest c hc).2.2⟩
  have hFraction :=
    scanFraction?_chars fraction hExponentHead
  have hWhole :=
    scanWhole?_chars whole
      (head_fractionChars fraction fun c hc =>
        (hExponentHead c hc).1)
  have hChars :
      (Numeral.mk negative whole fraction exponent).chars plus
          ++ rest =
        (if negative then ['-'] else []) ++
          (Nat.toDigits 10 whole ++
            (fractionChars fraction ++
              (exponentChars plus exponent ++ rest))) := by
    simp [chars, fractionChars]
  rw [hChars]
  cases negative with
  | true =>
      simp [scan?, hWhole, hFraction, hExponent]
  | false =>
      rcases head_toDigits whole with ⟨d, digits, hText⟩
      have hSign := (char_ne_sign d).1
      rw [hText] at hWhole ⊢
      simp only [Bool.false_eq_true, if_false,
        List.nil_append, List.cons_append] at hWhole ⊢
      unfold scan?
      split
      rename_i hHead
      split at hHead
      · rename_i hText
        injection hText with hEq
        exact absurd hEq hSign
      · cases hHead
        simp [hWhole, hFraction, hExponent]

end Numeral

end FractalShader
