import FractalShader.Json.Token

/-
  This file reads JSON values from tokens and writes them as
  text in two layouts.

  Both layouts of a value have the same tokens, which
  `Json.tokens` lists; reading takes a value from the front
  of a token list.

  Key definitions include:
    * `Json.tokens`
    * `Json.ofTokens?`
    * `Json.parse?`
    * `Json.compact`
    * `Json.pretty`
-/

namespace FractalShader

namespace Json

------------------------------------------------------------
-- Tokens of a Value
------------------------------------------------------------

mutual

/- The tokens of a value. -/
def tokens : Json → List Token
  | .null => [.null]
  | .bool b => [.bool b]
  | .number n => [.number n]
  | .string t => [.string t]
  | .array [] => [.openArray, .closeArray]
  | .array (item :: items) =>
      .openArray :: item.tokens ++ itemTokens items
  | .object [] => [.openObject, .closeObject]
  | .object (member :: members) =>
      .openObject :: memberToken member ++
        memberTokens members

/- The tokens after the first item of an array. -/
def itemTokens : List Json → List Token
  | [] => [.closeArray]
  | item :: items =>
      .comma :: item.tokens ++ itemTokens items

/- The tokens after the first member of an object. -/
def memberTokens : List (Text × Json) → List Token
  | [] => [.closeObject]
  | member :: members =>
      .comma :: memberToken member ++ memberTokens members

/- The tokens of one member. -/
def memberToken : Text × Json → List Token
  | (key, value) => .string key :: .colon :: value.tokens

end

------------------------------------------------------------
-- Reading
------------------------------------------------------------

mutual

/- The value at the front of a token list, and the rest. -/
def ofTokens? :
    Nat → List Token → Option (Json × List Token)
  | 0, _ => none
  | bound + 1, toks =>
      match toks with
      | .null :: rest => some (.null, rest)
      | .bool b :: rest => some (.bool b, rest)
      | .number n :: rest => some (.number n, rest)
      | .string t :: rest => some (.string t, rest)
      | .openArray :: .closeArray :: rest =>
          some (.array [], rest)
      | .openArray :: rest => do
          let (items, tail) ← itemsOfTokens? bound rest
          some (.array items, tail)
      | .openObject :: .closeObject :: rest =>
          some (.object [], rest)
      | .openObject :: rest => do
          let (members, tail) ← membersOfTokens? bound rest
          some (.object members, tail)
      | _ => none

/- Items up to the end of an array. -/
def itemsOfTokens? :
    Nat → List Token → Option (List Json × List Token)
  | 0, _ => none
  | bound + 1, toks => do
      let (item, tail) ← ofTokens? bound toks
      match tail with
      | .closeArray :: rest => some ([item], rest)
      | .comma :: rest => do
          let (items, tail) ← itemsOfTokens? bound rest
          some (item :: items, tail)
      | _ => none

/- Members up to the end of an object. -/
def membersOfTokens? :
    Nat → List Token →
      Option (List (Text × Json) × List Token)
  | 0, _ => none
  | bound + 1, toks =>
      match toks with
      | .string key :: .colon :: toks => do
          let (value, tail) ← ofTokens? bound toks
          match tail with
          | .closeObject :: rest => some ([(key, value)], rest)
          | .comma :: rest => do
              let (members, tail) ←
                membersOfTokens? bound rest
              some ((key, value) :: members, tail)
          | _ => none
      | _ => none

end

/-
  Read a text that holds one value.  Two steps for each
  token are enough.
-/
def parse? (text : List Char) : Option Json := do
  let toks ← Token.all? text
  let (value, rest) ← ofTokens? (2 * toks.length + 1) toks
  if rest.isEmpty then some value else none

------------------------------------------------------------
-- Writing Without Blanks
------------------------------------------------------------

/- The text of a value without blanks. -/
def compact (value : Json) : List Char :=
  value.tokens.flatMap Token.chars

------------------------------------------------------------
-- Writing With Line Breaks
------------------------------------------------------------

/- A line break and two blanks for each open bracket. -/
def lineBreak (level : Nat) : List Char :=
  '\n' :: List.replicate (2 * level) ' '

mutual

/-
  The text of a value with one item or member on a line.
  Empty arrays and objects stay on one line.
-/
def pretty (level : Nat) : Json → List Char
  | .null => Token.null.chars
  | .bool b => (Token.bool b).chars
  | .number n => (Token.number n).chars
  | .string t => t.chars
  | .array [] => ['[', ']']
  | .array (item :: items) =>
      '[' :: lineBreak (level + 1) ++
        item.pretty (level + 1) ++
        prettyItems level items
  | .object [] => ['\x7b', '\x7d']
  | .object (member :: members) =>
      '\x7b' :: lineBreak (level + 1) ++
        prettyMember level member ++
        prettyMembers level members

/- The lines after the first item of an array. -/
def prettyItems (level : Nat) : List Json → List Char
  | [] => lineBreak level ++ [']']
  | item :: items =>
      ',' :: lineBreak (level + 1) ++
        item.pretty (level + 1) ++
        prettyItems level items

/- The lines after the first member of an object. -/
def prettyMembers
    (level : Nat) : List (Text × Json) → List Char
  | [] => lineBreak level ++ ['\x7d']
  | member :: members =>
      ',' :: lineBreak (level + 1) ++
        prettyMember level member ++
        prettyMembers level members

/- The line of one member. -/
def prettyMember
    (level : Nat) : Text × Json → List Char
  | (key, value) =>
      key.chars ++ ':' :: ' ' ::
        value.pretty (level + 1)

end

end Json

end FractalShader
