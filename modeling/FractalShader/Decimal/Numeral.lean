/-
  This file defines spelled decimal numbers: an optional
  minus sign, whole digits, fraction digits, and an exponent.

  A numeral is what a text says, not the number it stands
  for: `1`, `1.0` and `1e0` are three numerals.

  Key definitions include:
    * `Digit`
    * `Numeral`
    * `Numeral.chars`
    * `Numeral.scan?`
-/

namespace FractalShader

------------------------------------------------------------
-- Digits
------------------------------------------------------------

/- A decimal digit. -/
abbrev Digit := Fin 10

namespace Digit

/- The digit of nothing. -/
def zero : Digit := 0

/- The character of a digit. -/
def char (d : Digit) : Char :=
  Nat.digitChar d.val

/- The digit of a character. -/
def ofChar? (c : Char) : Option Digit :=
  if h : '0'.toNat ≤ c.toNat ∧ c.toNat < '0'.toNat + 10 then
    some ⟨c.toNat - '0'.toNat, by omega⟩
  else
    none

/- The digits at the front of a text, and the rest. -/
def takeFront : List Char → List Digit × List Char
  | [] => ([], [])
  | c :: rest =>
      match ofChar? c with
      | some d =>
          let (digits, tail) := takeFront rest
          (d :: digits, tail)
      | none => ([], c :: rest)

/- The number that digits spell. -/
def value (digits : List Digit) : Nat :=
  digits.foldl (fun n d => 10 * n + d.val) 0

/- The lowest digits of a number, the highest of them first. -/
def lowest : Nat → Nat → List Digit
  | 0, _ => []
  | k + 1, n =>
      lowest k (n / 10) ++ [Fin.ofNat 10 n]

end Digit

------------------------------------------------------------
-- Numerals
------------------------------------------------------------

/-
  A spelled number.  No fraction digits means no decimal
  point.
-/
structure Numeral where
  negative : Bool
  whole : Nat
  fraction : List Digit
  exponent : Option Int
deriving DecidableEq, Repr

namespace Numeral

/- The spelling of an integer. -/
def ofInt (z : Int) : Numeral :=
  ⟨decide (z < 0), z.natAbs, [], none⟩

/- The text of an exponent; `plus` marks a positive one. -/
def exponentChars
    (plus : Bool) : Option Int → List Char
  | none => []
  | some (.ofNat e) =>
      'e' :: (if plus then ['+'] else []) ++
        Nat.toDigits 10 e
  | some (.negSucc e) =>
      'e' :: '-' :: Nat.toDigits 10 (e + 1)

/- The text of a numeral. -/
def chars
    (plus : Bool)
    (n : Numeral) : List Char :=
  (if n.negative then ['-'] else []) ++
    Nat.toDigits 10 n.whole ++
    (if n.fraction = [] then
      []
    else
      '.' :: n.fraction.map Digit.char) ++
    exponentChars plus n.exponent

end Numeral

------------------------------------------------------------
-- Reading Numerals
------------------------------------------------------------

namespace Numeral

/- Whole digits: at least one, and no idle leading zero. -/
def scanWhole?
    (text : List Char) : Option (Nat × List Char) :=
  match Digit.takeFront text with
  | ([], _) => none
  | ([d], rest) => some (d.val, rest)
  | (d :: digits, rest) =>
      if d = 0 then
        none
      else
        some (Digit.value (d :: digits), rest)

/- Fraction digits after a point, if there is a point. -/
def scanFraction? :
    List Char → Option (List Digit × List Char)
  | '.' :: text =>
      match Digit.takeFront text with
      | ([], _) => none
      | (digits, rest) => some (digits, rest)
  | text => some ([], text)

/- The digits of an exponent after its sign. -/
def scanExponentDigits?
    (negative : Bool)
    (text : List Char) : Option (Option Int × List Char) :=
  match Digit.takeFront text with
  | ([], _) => none
  | (digits, rest) =>
      let size : Int := Digit.value digits
      some (some (if negative then -size else size), rest)

/- An exponent after its mark, if there is a mark. -/
def scanExponent? :
    List Char → Option (Option Int × List Char)
  | c :: text =>
      if c = 'e' ∨ c = 'E' then
        match text with
        | '-' :: rest => scanExponentDigits? true rest
        | '+' :: rest => scanExponentDigits? false rest
        | rest => scanExponentDigits? false rest
      else
        some (none, c :: text)
  | [] => some (none, [])

/-
  The numeral at the front of a text, and the rest.  The
  longest spelling is taken.
-/
def scan?
    (text : List Char) : Option (Numeral × List Char) :=
  let (negative, text) :=
    match text with
    | '-' :: rest => (true, rest)
    | rest => (false, rest)
  do
    let (whole, text) ← scanWhole? text
    let (fraction, text) ← scanFraction? text
    let (exponent, text) ← scanExponent? text
    some (⟨negative, whole, fraction, exponent⟩, text)

end Numeral

end FractalShader
