import FractalShader.Decimal.Layout
import FractalShader.Decimal.Reading
import FractalShader.Dict
import FractalShader.Json.Basic

/-
  This file defines how values are exchanged as JSON, for
  simple values, enumerations, lists, maps and records.

  A record is written as an object.  It is read from an
  object, whose unknown members are ignored, or from an
  array of its fields in order.

  Key definitions include:
    * `JsonForm`
    * `Enumerated`
    * `Record`
    * `Record.ofJson?`
    * `Record.required`
    * `Record.nullable`
    * `Record.defaulted`
-/

namespace FractalShader

/- A type with a JSON form. -/
class JsonForm (α : Type) where
  toJson : α → Json
  ofJson? : Json → Option α

export JsonForm (toJson ofJson?)

------------------------------------------------------------
-- Simple Values
------------------------------------------------------------

instance : JsonForm Bool where
  toJson b := .bool b
  ofJson?
    | .bool b => some b
    | _ => none

instance : JsonForm String where
  toJson s := .ofString s
  ofJson?
    | .string t => t.string?
    | _ => none

/- The number that a value spells. -/
def Json.reading? : Json → Option Reading
  | .number n => n.reading?
  | _ => none

/- A number, or null when it is not finite. -/
def Binary.toJsonAs
    {f : Format}
    (layout : Decimal.Layout)
    (x : Binary f) : Json :=
  match x.numeral? layout with
  | some n => .number n
  | none => .null

instance : JsonForm F32 where
  toJson x := x.toJsonAs .jsonSingle
  ofJson? json := json.reading?.map Reading.toBinary

instance : JsonForm F64 where
  toJson x := x.toJsonAs .jsonDouble
  ofJson? json := json.reading?.map Reading.toBinary

/- Only integer numerals in range are read. -/
instance : JsonForm UInt32 where
  toJson n := .number (.ofInt n.toNat)
  ofJson? json :=
    match json.reading? with
    | some (.integer (.ofNat n)) =>
        if n < UInt32.size then
          some (UInt32.ofNat n)
        else
          none
    | _ => none

------------------------------------------------------------
-- Collections
------------------------------------------------------------

/- An absent value is null. -/
instance {α : Type} [JsonForm α] :
    JsonForm (Option α) where
  toJson
    | none => .null
    | some x => toJson x
  ofJson?
    | .null => some none
    | json => (ofJson? json).map some

instance {α : Type} [JsonForm α] :
    JsonForm (List α) where
  toJson xs := .array (xs.map toJson)
  ofJson?
    | .array items => items.mapM ofJson?
    | _ => none

/- A pair is an array of two. -/
instance {α β : Type} [JsonForm α] [JsonForm β] :
    JsonForm (α × β) where
  toJson x := .array [toJson x.1, toJson x.2]
  ofJson?
    | .array [x, y] => do
        some (← ofJson? x, ← ofJson? y)
    | _ => none

/- A map is an object; the last member with a key counts. -/
instance {α : Type} [JsonForm α] :
    JsonForm (Dict α) where
  toJson d :=
    .record (d.entries.map fun e => (e.1, toJson e.2))
  ofJson?
    | .object members => do
        let entries ← members.mapM fun m => do
          some (← m.1.string?, ← ofJson? m.2)
        some (.ofList entries)
    | _ => none

------------------------------------------------------------
-- Enumerations
------------------------------------------------------------

/- A type with finitely many named values. -/
class Enumerated (α : Type) where
  all : List α
  name : α → String

namespace Enumerated

/- The value with a name. -/
def ofName?
    {α : Type}
    [Enumerated α]
    (s : String) : Option α :=
  (all : List α).find? (fun x => name x == s)

end Enumerated

namespace Json

/-
  The name that a value stands for: a string, or an object
  with that key alone and no payload.
-/
def choice?
    (noPayload : Json → Bool) : Json → Option String
  | .string t => t.string?
  | .object [(key, payload)] =>
      if noPayload payload then key.string? else none
  | _ => none

/- Null is no payload. -/
def isNull : Json → Bool
  | .null => true
  | _ => false

/- Null and the empty object are no payload. -/
def isVacant : Json → Bool
  | .null => true
  | .object [] => true
  | _ => false

end Json

instance {α : Type} [Enumerated α] : JsonForm α where
  toJson x := .ofString (Enumerated.name x)
  ofJson? json :=
    (json.choice? Json.isNull).bind Enumerated.ofName?

------------------------------------------------------------
-- Records
------------------------------------------------------------

/-
  The fields of a record that were found, and whether they
  came by position.
-/
structure Record where
  fields : List (String × Json)
  positional : Bool

namespace Record

/- No name occurs twice. -/
def distinct : List String → Bool
  | [] => true
  | name :: names =>
      !names.contains name && distinct names

/-
  Find the named fields in a value.  A repeated field is an
  error, and so is an item beyond the last field.
-/
def ofJson?
    (names : List String) : Json → Option Record
  | .object members => do
      let keyed ← members.mapM fun m => do
        some (← m.1.string?, m.2)
      let known := keyed.filter fun m => names.contains m.1
      if distinct (known.map (·.1)) then
        some ⟨known, false⟩
      else
        none
  | .array items =>
      if items.length ≤ names.length then
        some ⟨names.zip items, true⟩
      else
        none
  | _ => none

variable {α : Type}

/- A field that must be present. -/
def required
    [JsonForm α]
    (record : Record)
    (name : String) : Option α :=
  (record.fields.lookup name).bind JsonForm.ofJson?

/-
  A field that may be null, and may be missing from an
  object, but not from an array.
-/
def nullableBy
    (read : Json → Option α)
    (record : Record)
    (name : String) : Option (Option α) :=
  match record.fields.lookup name with
  | none => if record.positional then none else some none
  | some .null => some none
  | some json => (read json).map some

/- `nullableBy` for a type with a JSON form. -/
def nullable
    [JsonForm α]
    (record : Record)
    (name : String) : Option (Option α) :=
  record.nullableBy JsonForm.ofJson? name

/- A field that has a default value when it is missing. -/
def defaulted
    [JsonForm α]
    (record : Record)
    (name : String)
    (initial : α) : Option α :=
  match record.fields.lookup name with
  | none => some initial
  | some json => JsonForm.ofJson? json

end Record

end FractalShader
