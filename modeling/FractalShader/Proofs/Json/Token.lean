import FractalShader.Json.Token
import FractalShader.Proofs.Decimal.Numeral
import Mathlib.Tactic.SplitIfs

/-
  Tokens are read back from every text that spells them.

  A text spells tokens when blanks stand between them and
  nothing else, and when no token runs into what follows it.

  Main declarations:
    * `Json.Text.scan?_chars`
    * `Json.Spells`
    * `Json.Spells.all?_eq`
-/

------------------------------------------------------------
-- Strings
------------------------------------------------------------

namespace FractalShader

namespace Json

namespace Symbol

theorem hexValue?_digitChar :
    ∀ d < 16, hexValue? (Nat.digitChar d) = some d := by
  decide

/- Four digits are enough for a code of sixteen bits. -/
theorem code?_lowest
    {n : Nat}
    (h : n < 0x10000) :
    ∃ a b c d, Hex.lowest 4 n = [a, b, c, d] ∧
      code? a b c d = some n := by
  refine ⟨_, _, _, _, rfl, ?_⟩
  have hDigit :
      ∀ m, hexValue? (Nat.digitChar (m % 16)) =
        some (m % 16) :=
    fun m => hexValue?_digitChar _ (Nat.mod_lt m (by decide))
  simp only [code?, hDigit, Option.bind_eq_bind,
    Option.bind_some]
  congr 1
  omega

/- The code of a control character is that character. -/
theorem ofCode_toNat
    {c : Char}
    (h : c.toNat < 32) :
    ofCode c.toNat = .char c := by
  unfold ofCode
  rw [if_neg (by omega), Char.ofNat_toNat]

/- The three ways in which a character is spelled. -/
theorem chars_char (c : Char) :
    (∃ letter, letter ≠ 'u' ∧
        ofEscape? letter = some (.char c) ∧
        chars (.char c) = ['\\', letter]) ∨
      (c.toNat < 32 ∧
        chars (.char c) = '\\' :: 'u' :: Hex.lowest 4 c.toNat) ∨
      (c ≠ '"' ∧ c ≠ '\\' ∧ 32 ≤ c.toNat ∧
        chars (.char c) = [c]) := by
  unfold chars
  dsimp only
  split_ifs with hQuote hSlash hBack hTab hLine hForm hReturn
    hControl
  · exact Or.inl ⟨'"', by decide, by rw [hQuote]; rfl, rfl⟩
  · exact Or.inl ⟨'\\', by decide, by rw [hSlash]; rfl, rfl⟩
  · exact Or.inl ⟨'b', by decide, hBack ▸ rfl, rfl⟩
  · exact Or.inl ⟨'t', by decide, hTab ▸ rfl, rfl⟩
  · exact Or.inl ⟨'n', by decide, hLine ▸ rfl, rfl⟩
  · exact Or.inl ⟨'f', by decide, hForm ▸ rfl, rfl⟩
  · exact Or.inl ⟨'r', by decide, hReturn ▸ rfl, rfl⟩
  · exact Or.inr (Or.inl ⟨hControl, rfl⟩)
  · exact
      Or.inr
        (Or.inr ⟨hQuote, hSlash, Nat.not_lt.mp hControl, rfl⟩)

end Symbol

namespace Text

/- A character is read back as it was spelled. -/
theorem scan?_symbol
    (c : Char)
    (tail : List Char) :
    scan? (Symbol.chars (.char c) ++ tail) =
      (scan? tail).map fun found =>
        (.char c :: found.1, found.2) := by
  rcases Symbol.chars_char c with
    ⟨letter, hLetter, hSymbol, hChars⟩ | ⟨hControl, hChars⟩ |
    ⟨hQuote, hSlash, hPlain, hChars⟩
  · rw [hChars, List.cons_append, List.cons_append,
      List.nil_append, scan?]
    · rw [hSymbol]
      cases scan? tail <;> rfl
    · intro _ _ _ _ _ hEq _
      exact hLetter hEq
  · rcases Symbol.code?_lowest (n := c.toNat) (by omega) with
      ⟨w, x, y, z, hText, hCode⟩
    rw [hChars, hText]
    have hSymbol := Symbol.ofCode_toNat hControl
    simp only [List.cons_append, List.nil_append, scan?, hCode,
      Option.bind_eq_bind, Option.bind_some, hSymbol]
    cases scan? tail <;> rfl
  · rw [hChars, List.cons_append, List.nil_append, scan?]
    · rw [if_neg (by omega)]
      cases scan? tail <;> rfl
    · exact hQuote
    · intro _ _ _ _ _ hEq
      exact absurd hEq hSlash
    · intro _ _ hEq
      exact absurd hEq hSlash

/- A string is read up to its closing quote. -/
theorem scan?_chars
    (s : String)
    (rest : List Char) :
    scan?
        ((ofString s).flatMap Symbol.chars ++ '"' :: rest) =
      some (ofString s, rest) := by
  unfold ofString
  induction s.toList with
  | nil => rfl
  | cons c cs ih =>
      rw [List.map_cons, List.flatMap_cons, List.append_assoc,
        scan?_symbol, ih]
      rfl

end Text

end Json

end FractalShader

------------------------------------------------------------
-- Tokens
------------------------------------------------------------

namespace FractalShader

namespace Json

namespace Token

/- A numeral is read back where none goes on. -/
theorem next?_number
    (n : Numeral)
    {rest : List Char}
    (hRest : Numeral.Ends rest) :
    next? ((Token.number n).chars ++ rest) =
      some (.number n, rest) := by
  have hScan := Numeral.scan?_chars true n hRest
  rcases Numeral.head_chars true n with ⟨c, tail, hText, hHead⟩
  -- No other token starts like a numeral.
  have hDigit :
      ∀ d : Digit,
        d.char ∉ ['[', ']', '\x7b', '\x7d', ',', ':', 'n', 't',
          'f', '"'] := by
    decide
  have hOther :
      c ∉ ['[', ']', '\x7b', '\x7d', ',', ':', 'n', 't', 'f',
        '"'] := by
    rcases hHead with rfl | ⟨d, rfl⟩
    · decide
    · exact hDigit d
  rw [hText, List.cons_append] at hScan
  rw [chars, hText, List.cons_append, next?.eq_def]
  split
  case h_11 => simp [hScan]
  all_goals
    rename_i hFirst
    injection hFirst with hEq
    simp [hEq] at hOther

theorem next?_string
    (s : String)
    (rest : List Char) :
    next? ((Token.string (.ofString s)).chars ++ rest) =
      some (.string (.ofString s), rest) := by
  simp [chars, Text.chars, next?, Text.scan?_chars]

end Token

end Json

end FractalShader

------------------------------------------------------------
-- Spelled Tokens
------------------------------------------------------------

namespace FractalShader

namespace Json

/-
  A text spells tokens: each of them is the next one after
  some blanks, and blanks come after the last one.
-/
inductive Spells : List Char → List Token → Prop where
  | nil
      {blanks : List Char}
      (hBlanks : blanks.all Token.isBlank = true) :
      Spells blanks []
  | cons
      {blanks text : List Char}
      {c : Char}
      {chars : List Char}
      {token : Token}
      {tokens : List Token}
      (hBlanks : blanks.all Token.isBlank = true)
      (hFirst : Token.isBlank c = false)
      (hNext :
        Token.next? (c :: chars ++ text) = some (token, text))
      (hRest : Spells text tokens) :
      Spells (blanks ++ c :: chars ++ text) (token :: tokens)

namespace Spells

variable {text : List Char} {tokens : List Token}

/- More blanks in front spell nothing more. -/
theorem blank
    (h : Spells text tokens)
    {blanks : List Char}
    (hBlanks : blanks.all Token.isBlank = true) :
    Spells (blanks ++ text) tokens := by
  cases h with
  | nil hEnd => exact .nil (by simp_all)
  | cons hFront hFirst hNext hRest =>
      rw [List.append_assoc, ← List.append_assoc blanks,
        ← List.append_assoc]
      exact .cons (by simp_all) hFirst hNext hRest

/- Every token takes a character at least. -/
theorem length_le
    (h : Spells text tokens) :
    tokens.length ≤ text.length := by
  induction h with
  | nil hBlanks => exact Nat.zero_le _
  | cons hBlanks hFirst hNext hRest ih =>
      simp only [List.length_append, List.length_cons]
      omega

theorem upTo?_eq
    (h : Spells text tokens)
    {bound : Nat}
    (hBound : tokens.length ≤ bound) :
    Token.upTo? bound text = some tokens := by
  have hDrop :
      ∀ {blanks : List Char} (rest : List Char),
        blanks.all Token.isBlank = true →
          (blanks ++ rest).dropWhile Token.isBlank =
            rest.dropWhile Token.isBlank := by
    intro blanks rest hBlanks
    exact List.dropWhile_append_of_pos (by simpa using hBlanks)
  induction h generalizing bound with
  | @nil blanks hBlanks =>
      cases bound with
      | zero => simp [Token.upTo?, hBlanks]
      | succ bound =>
          have hNone := hDrop [] hBlanks
          rw [List.append_nil, List.dropWhile_nil] at hNone
          simp [Token.upTo?, hNone]
  | cons hBlanks hFirst hNext hRest ih =>
      cases bound with
      | zero => simp at hBound
      | succ bound =>
          have hLater := ih (Nat.le_of_succ_le_succ hBound)
          rw [Token.upTo?, List.append_assoc, hDrop _ hBlanks,
            List.cons_append, List.dropWhile_cons_of_neg
              (by simp [hFirst])]
          rw [List.cons_append] at hNext
          simp [hNext, hLater]

/- The tokens of a text are those that it spells. -/
theorem all?_eq
    (h : Spells text tokens) :
    Token.all? text = some tokens :=
  h.upTo?_eq h.length_le

end Spells

end Json

end FractalShader
