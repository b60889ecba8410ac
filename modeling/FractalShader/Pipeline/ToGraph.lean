import FractalShader.Binary.Rounding
import FractalShader.Catalog.Kind
import FractalShader.Pipeline.Basic

/-
  This file rebuilds a graph from a pipeline.

  Every stage becomes a node below the one before.  It is
  wired from its recorded sources, or from the stage before
  when none is recorded, and the last stage feeds the final
  sentinel.

  Key definitions include:
    * `Edge.chain`
    * `Stage.edges`
    * `Pipeline.toGraph`
-/

namespace FractalShader

------------------------------------------------------------
-- Edges
------------------------------------------------------------

/- An edge whose id tells its ends and its second port. -/
def Edge.chain
    (source target : String)
    (port : Option Port) : Edge where
  id :=
    source ++ "->" ++ target ++
      (if port = some .b then ":b" else "")
  source := source
  target := target
  port := port

/-
  The edges into a stage.  The first one names its port when
  the kind has two inputs or a second source is recorded.
-/
def Stage.edges
    (catalog : Catalog)
    (previous : String)
    (stage : Stage) : List Edge :=
  let two :=
    catalog.arity stage.kind == .dual ||
      stage.sources.b.isSome
  let first :=
    Edge.chain (stage.sources.a.getD previous) stage.id
      (if two then some .a else none)
  match stage.sources.b with
  | none => [first]
  | some source =>
      [first, .chain source stage.id (some .b)]

------------------------------------------------------------
-- Nodes
------------------------------------------------------------

/- The place of the row with a number. -/
def Position.row (n : Nat) : Position where
  x := .zero false
  y := .ofInt (n * 120 : Nat)

/- The node of a stage in a row. -/
def Stage.node
    (row : Nat)
    (stage : Stage) : Node where
  toOperation := stage.toOperation
  position := some (.row row)

------------------------------------------------------------
-- Graphs
------------------------------------------------------------

namespace Pipeline

/- The nodes of the stages from a row on. -/
def nodesFrom : Nat → Pipeline → List Node
  | _, [] => []
  | row, stage :: rest =>
      stage.node row :: nodesFrom (row + 1) rest

/- The edges of the stages after a previous one. -/
def edgesFrom
    (catalog : Catalog) :
    String → Pipeline → List Edge
  | previous, [] => [.chain previous endId none]
  | previous, stage :: rest =>
      stage.edges catalog previous ++
        edgesFrom catalog stage.id rest

/- The graph of a pipeline. -/
def toGraph
    (catalog : Catalog)
    (pipeline : Pipeline) : Graph where
  nodes :=
    { Node.sentinel startId with
      position := some (.row 0) } ::
    { Node.sentinel endId with
      position := some (.row (pipeline.length + 1)) } ::
    nodesFrom 1 pipeline
  edges := edgesFrom catalog startId pipeline

end Pipeline

end FractalShader
