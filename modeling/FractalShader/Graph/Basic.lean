import FractalShader.Binding
import FractalShader.Binary.Basic

/-
  This file defines the graphs that the editor works on.

  Two fixed nodes, the sentinels, stand for the state at the
  start and at the end of one iteration; all other nodes
  carry an operation.

  Key definitions include:
    * `Guard`
    * `Operation`
    * `Node`
    * `Port`
    * `Edge`
    * `Graph`
    * `Graph.normalize`
-/

namespace FractalShader

------------------------------------------------------------
-- Operations
------------------------------------------------------------

/-
  Run an operation only on the iterations whose number
  leaves a remainder.
-/
structure Guard where
  active : Bool
  modulus : UInt32
  remainder : UInt32
deriving DecidableEq, Repr

/- Some iteration satisfies the guard. -/
def Guard.valid (g : Guard) : Bool :=
  1 ≤ g.modulus && g.remainder < g.modulus

/- What a node does, without its place and its wires. -/
structure Operation where
  id : String
  kind : String
  enabled : Bool := true
  params : Dict F32 := .empty
  bindings : Bindings := Dict.empty
  guard : Option Guard := none
deriving DecidableEq

------------------------------------------------------------
-- Graphs
------------------------------------------------------------

/- A place in the editor. -/
structure Position where
  x : F64
  y : F64
deriving DecidableEq, Repr

/- An operation in the editor. -/
structure Node extends Operation where
  position : Option Position := none
deriving DecidableEq

/- An input of a node that has two. -/
inductive Port where
  | a
  | b
deriving DecidableEq, Repr

/- A wire between two nodes. -/
structure Edge where
  id : String
  source : String
  target : String
  port : Option Port
deriving DecidableEq, Repr

/- Nodes and edges in the order in which they were added. -/
structure Graph where
  nodes : List Node
  edges : List Edge
deriving DecidableEq

------------------------------------------------------------
-- Sentinels
------------------------------------------------------------

/- The node that feeds the state of the iteration. -/
def startId : String := "root-start"

/- The node that takes the final state. -/
def endId : String := "root-end"

/- An id of a sentinel. -/
def isSentinel (id : String) : Bool :=
  id == startId || id == endId

/- A sentinel carries no operation of its own. -/
def Node.sentinel (id : String) : Node :=
  { id := id, kind := id }

namespace Graph

/- The graph that holds the sentinels only. -/
def initial : Graph where
  nodes := [.sentinel startId, .sentinel endId]
  edges := []

instance : Inhabited Graph := ⟨initial⟩

------------------------------------------------------------
-- Queries
------------------------------------------------------------

/- The first node with an id. -/
def node?
    (g : Graph)
    (id : String) : Option Node :=
  g.nodes.find? (fun node => node.id == id)

/- A node with this id exists. -/
def hasNode
    (g : Graph)
    (id : String) : Bool :=
  g.nodes.any (fun node => node.id == id)

/- The nodes that are not sentinels. -/
def realNodes (g : Graph) : List Node :=
  g.nodes.filter (fun node => !isSentinel node.id)

/- The edges into a node. -/
def incoming
    (g : Graph)
    (id : String) : List Edge :=
  g.edges.filter (fun edge => edge.target == id)

------------------------------------------------------------
-- Normalization
------------------------------------------------------------

/- Add a sentinel at the end unless it is present. -/
def withSentinel
    (g : Graph)
    (id : String) : Graph :=
  if g.hasNode id then
    g
  else
    { g with nodes := g.nodes ++ [.sentinel id] }

/- Drop the edges that miss an end. -/
def withoutDangling (g : Graph) : Graph :=
  { g with
    edges := g.edges.filter fun edge =>
      g.hasNode edge.source && g.hasNode edge.target }

/- Restore missing sentinels, then drop dangling edges. -/
def normalize (g : Graph) : Graph :=
  ((g.withSentinel startId).withSentinel endId).withoutDangling

end Graph

end FractalShader
