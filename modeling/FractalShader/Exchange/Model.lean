import FractalShader.Catalog.Kind
import FractalShader.Exchange.Form
import FractalShader.Pipeline.Basic
import FractalShader.Settings
import FractalShader.Shader.Fragment

/-
  This file gives the JSON forms of catalogs, graphs,
  pipelines, fragments and settings.

  Key definitions include:
    * the `JsonForm` instances of these types
-/

namespace FractalShader

------------------------------------------------------------
-- Enumerations
------------------------------------------------------------

instance : Enumerated Slot where
  all := Slot.all
  name s := s.letter.toString

instance : Enumerated Port where
  all := [.a, .b]
  name
    | .a => "a"
    | .b => "b"

instance : Enumerated Arity where
  all := [.single, .dual]
  name
    | .single => "Single"
    | .dual => "Dual"

instance : Enumerated Mode where
  all := [.auto, .manual]
  name
    | .auto => "Auto"
    | .manual => "Manual"

------------------------------------------------------------
-- Catalog
------------------------------------------------------------

instance : JsonForm Interval where
  toJson i :=
    .record
      [ ("min", toJson i.least)
      , ("max", toJson i.greatest) ]
  ofJson? json := do
    let r ← Record.ofJson? ["min", "max"] json
    some
      { least := ← r.required "min"
        greatest := ← r.required "max" }

instance : JsonForm Input where
  toJson i :=
    .record
      [ ("id", toJson i.id)
      , ("label", toJson i.label)
      , ("range", toJson i.range)
      , ("step", toJson i.step)
      , ("defaultValue", toJson i.initial)
      , ("clamp", toJson i.limits) ]
  ofJson? json := do
    let r ← Record.ofJson?
      ["id", "label", "range", "step", "defaultValue",
        "clamp"] json
    some
      { id := ← r.required "id"
        label := ← r.required "label"
        range := ← r.required "range"
        step := ← r.required "step"
        initial := ← r.required "defaultValue"
        limits := ← r.nullable "clamp" }

instance : JsonForm KindCard where
  toJson k :=
    .record
      [ ("id", toJson k.id)
      , ("name", toJson k.name)
      , ("description", toJson k.description)
      , ("category", toJson k.category)
      , ("arity", toJson k.arity)
      , ("inputs", toJson k.inputs)
      , ("placeholder", toJson k.placeholder) ]
  ofJson? json := do
    let r ← Record.ofJson?
      ["id", "name", "description", "category", "arity",
        "inputs", "placeholder"] json
    some
      { id := ← r.required "id"
        name := ← r.required "name"
        description := ← r.nullable "description"
        category := ← r.required "category"
        arity := ← r.required "arity"
        inputs := ← r.required "inputs"
        placeholder := ← r.defaulted "placeholder" false }

------------------------------------------------------------
-- Operations
------------------------------------------------------------

instance : JsonForm Guard where
  toJson g :=
    .record
      [ ("active", toJson g.active)
      , ("modulus", toJson g.modulus)
      , ("remainder", toJson g.remainder) ]
  ofJson? json := do
    let r ← Record.ofJson?
      ["active", "modulus", "remainder"] json
    some
      { active := ← r.required "active"
        modulus := ← r.required "modulus"
        remainder := ← r.required "remainder" }

namespace Operation

/- The fields of an operation, for nodes and for stages. -/
def names : List String :=
  ["id", "typeId", "enabled", "params", "bindings",
    "condition"]

/- The members of an operation. -/
def members (o : Operation) : List (String × Json) :=
  [ ("id", toJson o.id)
  , ("typeId", toJson o.kind)
  , ("enabled", toJson o.enabled)
  , ("params", toJson o.params)
  , ("bindings", toJson o.bindings)
  , ("condition", toJson o.guard) ]

/- Read the fields of an operation. -/
def ofRecord? (r : Record) : Option Operation := do
  some
    { id := ← r.required "id"
      kind := ← r.required "typeId"
      enabled := ← r.defaulted "enabled" true
      params := ← r.defaulted "params" .empty
      bindings := ← r.defaulted "bindings" Dict.empty
      guard := ← r.defaulted "condition" none }

end Operation

------------------------------------------------------------
-- Graphs
------------------------------------------------------------

instance : JsonForm Position where
  toJson p :=
    .record [("x", toJson p.x), ("y", toJson p.y)]
  ofJson? json := do
    let r ← Record.ofJson? ["x", "y"] json
    some
      { x := ← r.required "x"
        y := ← r.required "y" }

instance : JsonForm Node where
  toJson n :=
    .record
      (n.toOperation.members ++
        [("position", toJson n.position)])
  ofJson? json := do
    let r ← Record.ofJson?
      (Operation.names ++ ["position"]) json
    some
      { toOperation := ← Operation.ofRecord? r
        position := ← r.defaulted "position" none }

instance : JsonForm Edge where
  toJson e :=
    .record
      [ ("id", toJson e.id)
      , ("source", toJson e.source)
      , ("target", toJson e.target)
      , ("targetHandle", toJson e.port) ]
  ofJson? json := do
    let r ← Record.ofJson?
      ["id", "source", "target", "targetHandle"] json
    some
      { id := ← r.required "id"
        source := ← r.required "source"
        target := ← r.required "target"
        port := ← r.defaulted "targetHandle" none }

instance : JsonForm Graph where
  toJson g :=
    .record
      [ ("nodes", toJson g.nodes)
      , ("edges", toJson g.edges) ]
  ofJson? json := do
    let r ← Record.ofJson? ["nodes", "edges"] json
    some
      { nodes := ← r.required "nodes"
        edges := ← r.required "edges" }

------------------------------------------------------------
-- Pipelines
------------------------------------------------------------

namespace Sources

/- A present source as a member. -/
def member
    (name : String) :
    Option String → List (String × Json)
  | none => []
  | some source => [(name, toJson source)]

/- The members of the present sources. -/
def members (s : Sources) : List (String × Json) :=
  member "a" s.a ++ member "b" s.b

end Sources

instance : JsonForm Sources where
  toJson s := .record s.members
  ofJson? json := do
    let r ← Record.ofJson? ["a", "b"] json
    some
      { a := ← r.defaulted "a" none
        b := ← r.defaulted "b" none }

/- Sources are left out when there are none. -/
instance : JsonForm Stage where
  toJson s :=
    .record
      (s.toOperation.members ++
        (if s.sources = {} then
          []
        else
          [("sources", toJson s.sources)]))
  ofJson? json := do
    let r ← Record.ofJson?
      (Operation.names ++ ["sources"]) json
    some
      { toOperation := ← Operation.ofRecord? r
        sources := ← r.defaulted "sources" {} }

------------------------------------------------------------
-- Fragments
------------------------------------------------------------

instance : JsonForm Cell where
  toJson c :=
    .record
      [ ("nodeId", toJson c.node)
      , ("inputId", toJson c.input) ]
  ofJson? json := do
    let r ← Record.ofJson? ["nodeId", "inputId"] json
    some
      { node := ← r.required "nodeId"
        input := ← r.required "inputId" }

instance : JsonForm Fragment where
  toJson f :=
    .record
      [ ("source", toJson f.source)
      , ("declarations", toJson f.declarations)
      , ("paramLayout", toJson f.layout)
      , ("paramValues", toJson f.values)
      , ("hash", toJson f.hash) ]
  ofJson? json := do
    let r ← Record.ofJson?
      ["source", "declarations", "paramLayout",
        "paramValues", "hash"] json
    some
      { source := ← r.required "source"
        declarations := ← r.required "declarations"
        layout := ← r.required "paramLayout"
        values := ← r.required "paramValues"
        hash := ← r.required "hash" }

------------------------------------------------------------
-- Settings
------------------------------------------------------------

/- Every missing setting has its default. -/
instance : JsonForm Settings where
  toJson s :=
    .record
      [ ("compileMode", toJson s.mode)
      , ("stateVar", toJson s.stateVar)
      , ("iterationVar", toJson s.iterationVar)
      , ("paramArray", toJson s.paramArray)
      , ("slotUniformPrefix", toJson s.slotStem)
      , ("inlineLiterals", toJson s.inlineLiterals) ]
  ofJson? json := do
    let r ← Record.ofJson?
      ["compileMode", "stateVar", "iterationVar",
        "paramArray", "slotUniformPrefix",
        "inlineLiterals"] json
    let d : Settings := {}
    some
      { mode := ← r.defaulted "compileMode" d.mode
        stateVar := ← r.defaulted "stateVar" d.stateVar
        iterationVar :=
          ← r.defaulted "iterationVar" d.iterationVar
        paramArray :=
          ← r.defaulted "paramArray" d.paramArray
        slotStem :=
          ← r.defaulted "slotUniformPrefix" d.slotStem
        inlineLiterals :=
          ← r.defaulted "inlineLiterals" d.inlineLiterals }

end FractalShader
