import FractalShader.Decimal.Numeral

/-
  This file defines JSON values as they are spelled.

  A string keeps halves of surrogate pairs that stand alone,
  a number keeps its numeral, and an object keeps all its
  members in order, repeated keys included.  What a value
  means is decided where it is read.

  Key definitions include:
    * `Json.Symbol`
    * `Json.Text`
    * `Json.Text.string?`
    * `Json`
    * `Json.sound`
    * `Json.depth`
    * `Json.lastWins`
-/

namespace FractalShader

------------------------------------------------------------
-- Texts
------------------------------------------------------------

namespace Json

/-
  One symbol of a JSON string: a character, or half of a
  surrogate pair.
-/
inductive Symbol where
  | char (c : Char)
  | half (code : Nat)
deriving DecidableEq, Repr

/- The content of a JSON string. -/
abbrev Text := List Symbol

namespace Symbol

/- The character of a symbol that is one. -/
def char? : Symbol → Option Char
  | .char c => some c
  | .half _ => none

end Symbol

namespace Text

/- The content that spells a string. -/
def ofString (s : String) : Text :=
  s.toList.map .char

/- The string of a content without lone halves. -/
def string? (t : Text) : Option String :=
  (t.mapM Symbol.char?).map String.ofList

/- The content of a string is read back as that string. -/
@[simp] theorem string?_ofString (s : String) :
    (ofString s).string? = some s := by
  have hChars (cs : List Char) :
      (cs.map Symbol.char).mapM Symbol.char? = some cs := by
    induction cs with
    | nil => rfl
    | cons c cs ih => simp [Symbol.char?, ih]
  simp [string?, ofString, hChars]

end Text

end Json

------------------------------------------------------------
-- Values
------------------------------------------------------------

/- A JSON value as it is spelled. -/
inductive Json where
  | null
  | bool (value : Bool)
  | number (numeral : Numeral)
  | string (text : Json.Text)
  | array (items : List Json)
  | object (members : List (Json.Text × Json))

namespace Json

instance : Inhabited Json := ⟨.null⟩

/- The value that spells a string. -/
def ofString (s : String) : Json :=
  .string (.ofString s)

/- An object with string keys. -/
def record (members : List (String × Json)) : Json :=
  .object (members.map fun m => (.ofString m.1, m.2))

end Json

------------------------------------------------------------
-- Whole-Value Checks
------------------------------------------------------------

namespace Json

mutual

/-
  All strings and keys are strings, and all numbers satisfy
  a condition, at every level.
-/
def sound (number : Numeral → Bool) : Json → Bool
  | .null => true
  | .bool _ => true
  | .number n => number n
  | .string t => t.string?.isSome
  | .array items => soundItems number items
  | .object members => soundMembers number members

/- `sound` for the items of an array. -/
def soundItems
    (number : Numeral → Bool) : List Json → Bool
  | [] => true
  | item :: items =>
      item.sound number && soundItems number items

/- `sound` for the members of an object. -/
def soundMembers
    (number : Numeral → Bool) :
    List (Text × Json) → Bool
  | [] => true
  | member :: members =>
      soundMember number member &&
        soundMembers number members

/- `sound` for one member. -/
def soundMember
    (number : Numeral → Bool) : Text × Json → Bool
  | (key, value) =>
      key.string?.isSome && value.sound number

end

mutual

/- How many arrays and objects are open at the deepest place. -/
def depth : Json → Nat
  | .null => 0
  | .bool _ => 0
  | .number _ => 0
  | .string _ => 0
  | .array items => depthItems items + 1
  | .object members => depthMembers members + 1

/- `depth` for the items of an array. -/
def depthItems : List Json → Nat
  | [] => 0
  | item :: items => max item.depth (depthItems items)

/- `depth` for the members of an object. -/
def depthMembers : List (Text × Json) → Nat
  | [] => 0
  | member :: members =>
      max (depthMember member) (depthMembers members)

/- `depth` for one member. -/
def depthMember : Text × Json → Nat
  | (_, value) => value.depth

end

mutual

/- Keep only the last of the members that share a key. -/
def lastWins : Json → Json
  | .null => .null
  | .bool b => .bool b
  | .number n => .number n
  | .string t => .string t
  | .array items => .array (lastWinsItems items)
  | .object members => .object (lastWinsMembers members)

/- `lastWins` for the items of an array. -/
def lastWinsItems : List Json → List Json
  | [] => []
  | item :: items => item.lastWins :: lastWinsItems items

/- `lastWins` for the members of an object. -/
def lastWinsMembers :
    List (Text × Json) → List (Text × Json)
  | [] => []
  | member :: members =>
      let kept := lastWinsMembers members
      let current := lastWinsMember member
      if kept.any (fun m => m.1 == current.1) then
        kept
      else
        current :: kept

/- `lastWins` for one member. -/
def lastWinsMember : Text × Json → Text × Json
  | (key, value) => (key, value.lastWins)

end

end Json

end FractalShader
