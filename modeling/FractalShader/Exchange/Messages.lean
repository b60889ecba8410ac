import FractalShader.Exchange.Model
import FractalShader.Json.Syntax
import FractalShader.Session.Basic

/-
  This file gives the JSON forms of edits and of their
  outcomes, and reads values from text.

  An edit is an object with its kind among its members, or
  an array whose first item is the kind.  Because the kind
  may come last, the whole of an edit is checked before it
  is read: strings and numbers in every member count, and
  nesting has a limit.

  Key definitions include:
    * `Edit.form`
    * `Edit.ofParts?`
    * `ofText?`
    * `compactText`
    * `prettyText`
-/

namespace FractalShader

------------------------------------------------------------
-- Outcomes
------------------------------------------------------------

instance : JsonForm Outcome where
  toJson o :=
    .record
      [ ("requiresRecompile", toJson o.requiresCompile)
      , ("fragment", toJson o.fragment)
      , ("paramValues", toJson o.values)
      , ("createdId", toJson o.created)
      , ("compileError", toJson o.compileError) ]
  ofJson? json := do
    let r ← Record.ofJson?
      ["requiresRecompile", "fragment", "paramValues",
        "createdId", "compileError"] json
    some
      { requiresCompile := ← r.required "requiresRecompile"
        fragment := ← r.nullable "fragment"
        values := ← r.nullable "paramValues"
        created := ← r.nullable "createdId"
        compileError := ← r.nullable "compileError" }

------------------------------------------------------------
-- Edits
------------------------------------------------------------

namespace Edit

/- The kind and the members of an edit. -/
def form : Edit → String × List (String × Json)
  | .addNode id kind =>
      ("addNode",
        [("id", toJson id), ("type_id", toJson kind)])
  | .removeNode node =>
      ("removeNode", [("node_id", toJson node)])
  | .connect source target port =>
      ("connect",
        [ ("source", toJson source)
        , ("target", toJson target)
        , ("handle", toJson port) ])
  | .disconnect edge =>
      ("disconnect", [("edge_id", toJson edge)])
  | .setParam node input value =>
      ("setParam",
        [ ("node_id", toJson node)
        , ("input_id", toJson input)
        , ("value", toJson value) ])
  | .toggleBinding node input =>
      ("toggleBinding",
        [ ("node_id", toJson node)
        , ("input_id", toJson input) ])
  | .setBinding node input slot =>
      ("setBinding",
        [ ("node_id", toJson node)
        , ("input_id", toJson input)
        , ("slot", toJson slot) ])
  | .setGuard node guard =>
      ("setCondition",
        [ ("node_id", toJson node)
        , ("condition", toJson guard) ])
  | .setEnabled node enabled =>
      ("setEnabled",
        [ ("node_id", toJson node)
        , ("enabled", toJson enabled) ])
  | .moveNode node position =>
      ("moveNode",
        [ ("node_id", toJson node)
        , ("position", toJson position) ])

/- A name inside an edit; an empty object is no payload. -/
def choice?
    {α : Type}
    [Enumerated α]
    (json : Json) : Option α :=
  (json.choice? Json.isVacant).bind Enumerated.ofName?

/- Read an edit of a kind from its other parts. -/
def ofParts?
    (kind : String)
    (parts : Json) : Option Edit :=
  match kind with
  | "addNode" => do
      let r ← Record.ofJson? ["id", "type_id"] parts
      some
        (.addNode
          (← r.nullable "id")
          (← r.required "type_id"))
  | "removeNode" => do
      let r ← Record.ofJson? ["node_id"] parts
      some (.removeNode (← r.required "node_id"))
  | "connect" => do
      let r ← Record.ofJson?
        ["source", "target", "handle"] parts
      some
        (.connect
          (← r.required "source")
          (← r.required "target")
          (← r.nullableBy choice? "handle"))
  | "disconnect" => do
      let r ← Record.ofJson? ["edge_id"] parts
      some (.disconnect (← r.required "edge_id"))
  | "setParam" => do
      let r ← Record.ofJson?
        ["node_id", "input_id", "value"] parts
      some
        (.setParam
          (← r.required "node_id")
          (← r.required "input_id")
          (← r.required "value"))
  | "toggleBinding" => do
      let r ← Record.ofJson? ["node_id", "input_id"] parts
      some
        (.toggleBinding
          (← r.required "node_id")
          (← r.required "input_id"))
  | "setBinding" => do
      let r ← Record.ofJson?
        ["node_id", "input_id", "slot"] parts
      some
        (.setBinding
          (← r.required "node_id")
          (← r.required "input_id")
          (← r.nullableBy choice? "slot"))
  | "setCondition" => do
      let r ← Record.ofJson? ["node_id", "condition"] parts
      some
        (.setGuard
          (← r.required "node_id")
          (← r.nullable "condition"))
  | "setEnabled" => do
      let r ← Record.ofJson? ["node_id", "enabled"] parts
      some
        (.setEnabled
          (← r.required "node_id")
          (← r.required "enabled"))
  | "moveNode" => do
      let r ← Record.ofJson? ["node_id", "position"] parts
      some
        (.moveNode
          (← r.required "node_id")
          (← r.required "position"))
  | _ => none

/- A member that tells the kind of an edit. -/
def isKind (member : Json.Text × Json) : Bool :=
  member.1.string? == some "kind"

/- Take the kind of an edit from its parts. -/
def ofTagged? : Json → Option Edit
  | .object members => do
      let [kind] := members.filter isKind | none
      ofParts?
        (← JsonForm.ofJson? kind.2)
        (.object (members.filter fun m => !isKind m))
  | .array (kind :: parts) => do
      ofParts? (← JsonForm.ofJson? kind) (.array parts)
  | _ => none

/- How deep an edit may nest arrays and objects. -/
def depthLimit : Nat := 127

end Edit

instance : JsonForm Edit where
  toJson e :=
    .record (("kind", toJson e.form.1) :: e.form.2)
  ofJson? json :=
    if json.sound (fun n => n.reading?.isSome) &&
        json.depth ≤ Edit.depthLimit then
      Edit.ofTagged? json
    else
      none

------------------------------------------------------------
-- Text
------------------------------------------------------------

variable {α : Type} [JsonForm α]

/- Read a value from the text of one JSON value. -/
def ofText? (text : String) : Option α :=
  (Json.parse? text.toList).bind ofJson?

/- The text of a value without blanks. -/
def compactText (x : α) : String :=
  String.ofList (toJson x).compact

/- The text of a value with one member on a line. -/
def prettyText (x : α) : String :=
  String.ofList ((toJson x).pretty 0)

end FractalShader
