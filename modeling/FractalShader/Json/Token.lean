import FractalShader.Hex
import FractalShader.Json.Basic

/-
  This file splits JSON text into tokens.

  Blanks between tokens are dropped here, so texts that
  differ in layout only have the same tokens.

  Key definitions include:
    * `Json.Token`
    * `Json.Token.chars`
    * `Json.Token.next?`
    * `Json.Token.all?`
-/

namespace FractalShader

namespace Json

------------------------------------------------------------
-- Tokens
------------------------------------------------------------

/- The tokens of JSON text. -/
inductive Token where
  | openArray
  | closeArray
  | openObject
  | closeObject
  | comma
  | colon
  | null
  | bool (value : Bool)
  | number (numeral : Numeral)
  | string (text : Text)
deriving DecidableEq, Repr

------------------------------------------------------------
-- Spelling
------------------------------------------------------------

namespace Symbol

/-
  The spelling of a symbol.  Quotes, backslashes and control
  characters below the blank are escaped, and nothing else
  is.
-/
def chars : Symbol → List Char
  | .half code => '\\' :: 'u' :: Hex.lowest 4 code
  | .char c =>
      if c = '"' then ['\\', '"']
      else if c = '\\' then ['\\', '\\']
      else if c = '\x08' then ['\\', 'b']
      else if c = '\t' then ['\\', 't']
      else if c = '\n' then ['\\', 'n']
      else if c = '\x0c' then ['\\', 'f']
      else if c = '\r' then ['\\', 'r']
      else if c.toNat < 32 then
        '\\' :: 'u' :: Hex.lowest 4 c.toNat
      else
        [c]

end Symbol

namespace Text

/- The spelling of a string, quotes included. -/
def chars (t : Text) : List Char :=
  '"' :: t.flatMap Symbol.chars ++ ['"']

end Text

namespace Token

/- The spelling of a token. -/
def chars : Token → List Char
  | .openArray => ['[']
  | .closeArray => [']']
  | .openObject => ['\x7b']
  | .closeObject => ['\x7d']
  | .comma => [',']
  | .colon => [':']
  | .null => ['n', 'u', 'l', 'l']
  | .bool true => ['t', 'r', 'u', 'e']
  | .bool false => ['f', 'a', 'l', 's', 'e']
  | .number n => n.chars true
  | .string t => t.chars

end Token

------------------------------------------------------------
-- Reading Strings
------------------------------------------------------------

namespace Symbol

/- The value of a hexadecimal digit of either case. -/
def hexValue? (c : Char) : Option Nat :=
  let n := c.toNat
  if '0'.toNat ≤ n ∧ n ≤ '9'.toNat then
    some (n - '0'.toNat)
  else if 'a'.toNat ≤ n ∧ n ≤ 'f'.toNat then
    some (n - 'a'.toNat + 10)
  else if 'A'.toNat ≤ n ∧ n ≤ 'F'.toNat then
    some (n - 'A'.toNat + 10)
  else
    none

/- The code of four hexadecimal digits. -/
def code?
    (a b c d : Char) : Option Nat := do
  let a ← hexValue? a
  let b ← hexValue? b
  let c ← hexValue? c
  let d ← hexValue? d
  some (((a * 16 + b) * 16 + c) * 16 + d)

/- The symbol of a 16-bit code. -/
def ofCode (code : Nat) : Symbol :=
  if 0xd800 ≤ code ∧ code < 0xe000 then
    .half code
  else
    .char (Char.ofNat code)

/- The symbol of a one-letter escape. -/
def ofEscape? (c : Char) : Option Symbol :=
  if c = '"' then some (.char '"')
  else if c = '\\' then some (.char '\\')
  else if c = '/' then some (.char '/')
  else if c = 'b' then some (.char '\x08')
  else if c = 'f' then some (.char '\x0c')
  else if c = 'n' then some (.char '\n')
  else if c = 'r' then some (.char '\r')
  else if c = 't' then some (.char '\t')
  else none

end Symbol

namespace Text

/-
  Put a symbol in front of a text.  A leading half and the
  trailing half after it are one character.
-/
def push
    (s : Symbol)
    (t : Text) : Text :=
  match s, t with
  | .half high, .half low :: rest =>
      if high < 0xdc00 ∧ 0xdc00 ≤ low then
        .char
            (Char.ofNat
              (0x10000 + (high - 0xd800) * 0x400 +
                (low - 0xdc00))) ::
          rest
      else
        s :: t
  | _, _ => s :: t

/-
  Read a string after its opening quote, up to and with its
  closing quote.
-/
def scan? : List Char → Option (Text × List Char)
  | [] => none
  | '"' :: rest => some ([], rest)
  | '\\' :: 'u' :: a :: b :: c :: d :: rest => do
      let code ← Symbol.code? a b c d
      let (text, tail) ← scan? rest
      some (push (.ofCode code) text, tail)
  | '\\' :: c :: rest => do
      let symbol ← Symbol.ofEscape? c
      let (text, tail) ← scan? rest
      some (push symbol text, tail)
  | c :: rest =>
      if c.toNat < 32 then
        none
      else do
        let (text, tail) ← scan? rest
        some (push (.char c) text, tail)

end Text

------------------------------------------------------------
-- Reading Tokens
------------------------------------------------------------

namespace Token

/- The blanks between tokens. -/
def isBlank (c : Char) : Bool :=
  c == ' ' || c == '\t' || c == '\n' || c == '\r'

/- The token at the front of a text, and the rest. -/
def next? : List Char → Option (Token × List Char)
  | '[' :: rest => some (.openArray, rest)
  | ']' :: rest => some (.closeArray, rest)
  | '\x7b' :: rest => some (.openObject, rest)
  | '\x7d' :: rest => some (.closeObject, rest)
  | ',' :: rest => some (.comma, rest)
  | ':' :: rest => some (.colon, rest)
  | 'n' :: 'u' :: 'l' :: 'l' :: rest => some (.null, rest)
  | 't' :: 'r' :: 'u' :: 'e' :: rest =>
      some (.bool true, rest)
  | 'f' :: 'a' :: 'l' :: 's' :: 'e' :: rest =>
      some (.bool false, rest)
  | '"' :: rest => do
      let (text, tail) ← Text.scan? rest
      some (.string text, tail)
  | text => do
      let (numeral, tail) ← Numeral.scan? text
      some (.number numeral, tail)

/- The tokens of a text, with a bound on their number. -/
def upTo? : Nat → List Char → Option (List Token)
  | 0, text =>
      if text.all isBlank then some [] else none
  | bound + 1, text =>
      match text.dropWhile isBlank with
      | [] => some []
      | rest => do
          let (token, tail) ← next? rest
          let tokens ← upTo? bound tail
          some (token :: tokens)

/- The tokens of a whole text. -/
def all? (text : List Char) : Option (List Token) :=
  upTo? text.length text

end Token

end Json

end FractalShader
