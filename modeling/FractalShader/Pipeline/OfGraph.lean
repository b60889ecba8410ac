import FractalShader.Failure
import FractalShader.Graph.Editing
import FractalShader.Pipeline.Basic
import FractalShader.Pipeline.Order

/-
  This file turns a graph into a pipeline.

  Sentinels have no stage.  An edge counts when it enters a
  stage from another one or from the start of the iteration;
  other edges are ignored.

  Key definitions include:
    * `Graph.operations`
    * `Graph.wires`
    * `Sources.ofWires`
    * `Pipeline.ofGraph`
-/

namespace FractalShader

------------------------------------------------------------
-- What Counts
------------------------------------------------------------

namespace Graph

/-
  The nodes with a stage under their ids; of nodes that
  share an id the last one counts.
-/
def operations (g : Graph) : Dict Node :=
  .ofList (g.realNodes.map fun node => (node.id, node))

/- The edges that count. -/
def wires (g : Graph) : List Edge :=
  let operations := g.operations
  g.edges.filter fun edge =>
    operations.contains edge.target &&
      (edge.source == startId ||
        operations.contains edge.source)

/- The arrows between stages. -/
def dependencies (g : Graph) : List Arrow :=
  (g.wires.filter (fun edge => edge.source != startId)).map
    Edge.arrow

end Graph

------------------------------------------------------------
-- Sources
------------------------------------------------------------

namespace Sources

/- The smaller of two ids. -/
def smaller (x y : String) : String :=
  if y < x then y else x

/- The smallest source of the wires into a port. -/
def smallest?
    (wires : List Edge)
    (port : Option Port) : Option String :=
  match (wires.filter (·.port == port)).map Edge.source with
  | [] => none
  | first :: rest => some (rest.foldl smaller first)

/-
  The sources of a stage, given the wires into it.  Wires
  that name no port come before those that name the first
  one.  The first source is left out when it is the one
  expected.
-/
def ofWires
    (wires : List Edge)
    (expected : String) : Sources where
  a :=
    ((smallest? wires none).or
      (smallest? wires (some .a))).filter
        (fun source => source != expected)
  b := smallest? wires (some .b)

end Sources

------------------------------------------------------------
-- Stages
------------------------------------------------------------

namespace Pipeline

/- The stages of some ids, after a previous one. -/
def stages
    (operations : Dict Node)
    (wires : List Edge) :
    String → List String → Pipeline
  | _, [] => []
  | previous, id :: rest =>
      match operations.get? id with
      | none => stages operations wires id rest
      | some node =>
          { toOperation := node.toOperation
            sources :=
              .ofWires
                (wires.filter (fun edge => edge.target == id))
                previous } ::
            stages operations wires id rest

/- The pipeline of a graph, unless nodes wait in a cycle. -/
def ofGraph (g : Graph) : Except Failure Pipeline :=
  let operations := g.operations
  let arrows := g.dependencies
  match (Tally.start operations.keys arrows).order arrows with
  | .error why => .error why
  | .ok (order, last) =>
      if order.length < operations.keys.length then
        .error (.cycle last.waiting)
      else
        .ok (stages operations g.wires startId order)

end Pipeline

end FractalShader
