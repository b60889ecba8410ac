import FractalShader.Catalog.BuiltIn
import FractalShader.Graph.Arrow
import FractalShader.Graph.Basic
import FractalShader.Graph.Supply

/-
  This file defines the edits of a graph and the reasons for
  which an edit is refused.

  Every operation returns an answer and the graph that it
  leaves behind, also when the answer is a refusal.

  Key definitions include:
    * `Refusal`
    * `Graph.addNode`
    * `Graph.removeNode`
    * `Graph.connect`
    * `Graph.disconnect`
    * `Graph.setParam`
    * `Graph.toggleBinding`
    * `Graph.setBinding`
    * `Graph.setGuard`
    * `Graph.setEnabled`
    * `Graph.setPosition`
    * `Edit`
    * `Change`
    * `Graph.apply`
-/

namespace FractalShader

------------------------------------------------------------
-- Refusals
------------------------------------------------------------

/- Why an edit is refused. -/
inductive Refusal where
  | unknownNode (node : String)
  | duplicateNode (node : String)
  | sentinelLocked (node : String)
  | againstSentinel (source target : String)
  | selfLoop (node : String)
  | duplicateEdge (source target : String)
  | closesCycle (source target : String)
  | inputOccupied (node : String)
  | unknownEdge (edge : String)
  | unknownInput (node input : String)
  | invalidGuard (modulus remainder : UInt32)
  | notFinite (node input : String)
deriving DecidableEq, Repr

namespace Refusal

/- The arrow between two ids in a message. -/
private def arrow (source target : String) : String :=
  "Edge " ++ source ++ " -> " ++ target

/- The text of a refusal. -/
def message : Refusal → String
  | .unknownNode node =>
      "Unknown node '" ++ node ++ "'"
  | .duplicateNode node =>
      "Node '" ++ node ++ "' already exists"
  | .sentinelLocked node =>
      "Sentinel node '" ++ node ++ "' cannot be modified"
  | .againstSentinel source target =>
      arrow source target ++ " runs against a sentinel node"
  | .selfLoop node =>
      "Node '" ++ node ++ "' cannot connect to itself"
  | .duplicateEdge source target =>
      arrow source target ++ " already exists"
  | .closesCycle source target =>
      arrow source target ++ " would create a cycle"
  | .inputOccupied node =>
      "Node '" ++ node ++ "' has no free input"
  | .unknownEdge edge =>
      "Unknown edge '" ++ edge ++ "'"
  | .unknownInput node input =>
      "Node '" ++ node ++ "' has no input '" ++ input ++ "'"
  | .invalidGuard modulus remainder =>
      "Condition remainder " ++ toString remainder.toNat ++
        " is outside [0, " ++ toString modulus.toNat ++ ")"
  | .notFinite node input =>
      "Value for " ++ node ++ "." ++ input ++
        " is not finite"

end Refusal

------------------------------------------------------------
-- Adding and Removing Nodes
------------------------------------------------------------

namespace Graph

/-
  A new node.  A known kind gives it the initial values of
  its inputs; an unknown kind is accepted without any.
-/
def freshNode (id kind : String) : Node where
  id := id
  kind := kind
  params :=
    match Catalog.builtIn.find? kind with
    | some known => known.initialParams
    | none => .empty

/- Add a node. -/
def addNode
    (g : Graph)
    (id kind : String) : Except Refusal Unit × Graph :=
  if isSentinel id then
    (.error (.sentinelLocked id), g)
  else if g.hasNode id then
    (.error (.duplicateNode id), g)
  else
    (.ok (),
      { g with nodes := g.nodes ++ [freshNode id kind] })

/- Remove a node together with the edges at it. -/
def removeNode
    (g : Graph)
    (id : String) : Except Refusal Node × Graph :=
  if isSentinel id then
    (.error (.sentinelLocked id), g)
  else
    match g.node? id with
    | none => (.error (.unknownNode id), g)
    | some node =>
        (.ok node,
          { nodes := g.nodes.eraseP (fun n => n.id == id)
            edges := g.edges.filter fun edge =>
              edge.source != id && edge.target != id })

end Graph

------------------------------------------------------------
-- Adding and Removing Edges
------------------------------------------------------------

/- The arrow of an edge. -/
def Edge.arrow (edge : Edge) : Arrow :=
  ⟨edge.source, edge.target⟩

namespace Graph

/- The ids of all nodes. -/
def ids (g : Graph) : List String :=
  g.nodes.map (·.id)

/- The arrows of all edges. -/
def arrows (g : Graph) : List Arrow :=
  g.edges.map Edge.arrow

/- A new arrow would close a cycle in the graph. -/
def wouldCycle
    (g : Graph)
    (source target : String) : Bool :=
  Arrow.closesCycle g.ids g.arrows ⟨source, target⟩

/-
  A port of a node is taken.  An edge that names no port
  takes the first one.
-/
def portTaken
    (g : Graph)
    (id : String)
    (port : Port) : Bool :=
  (g.incoming id).any fun edge => edge.port.getD .a == port

/-
  The port that a new edge takes: none at a node with one
  input, which must be free; the requested or else the first
  free one at a node with two.  The final sentinel takes any
  number of edges.
-/
def freePort
    (g : Graph)
    (catalog : Catalog)
    (target : Node)
    (requested : Option Port) :
    Except Refusal (Option Port) :=
  if target.id = endId then
    .ok none
  else
    match catalog.arity target.kind with
    | .single =>
        if (g.incoming target.id).isEmpty then
          .ok none
        else
          .error (.inputOccupied target.id)
    | .dual =>
        let candidates :=
          match requested with
          | some port => [port]
          | none => [.a, .b]
        let free :=
          candidates.find? fun port =>
            !g.portTaken target.id port
        match free with
        | some port => .ok (some port)
        | none => .error (.inputOccupied target.id)

/-
  The checks that a new edge passes, in order, and the port
  that it takes.
-/
def acceptedPort
    (g : Graph)
    (catalog : Catalog)
    (source target : String)
    (requested : Option Port) :
    Except Refusal (Option Port) :=
  if !g.hasNode source then
    .error (.unknownNode source)
  else
    match g.node? target with
    | none => .error (.unknownNode target)
    | some node =>
        if source = endId ∨ target = startId then
          .error (.againstSentinel source target)
        else if source = target then
          .error (.selfLoop source)
        else if g.arrows.contains ⟨source, target⟩ then
          .error (.duplicateEdge source target)
        else
          match g.freePort catalog node requested with
          | .error why => .error why
          | .ok port =>
              if g.wouldCycle source target then
                .error (.closesCycle source target)
              else
                .ok port

/- Add an edge under a given id. -/
def connect
    (g : Graph)
    (catalog : Catalog)
    (id source target : String)
    (requested : Option Port) :
    Except Refusal Unit × Graph :=
  match g.acceptedPort catalog source target requested with
  | .error why => (.error why, g)
  | .ok port =>
      (.ok (),
        { g with
          edges := g.edges ++ [⟨id, source, target, port⟩] })

/- Remove the first edge with an id. -/
def disconnect
    (g : Graph)
    (id : String) : Except Refusal Edge × Graph :=
  match g.edges.find? (fun edge => edge.id == id) with
  | none => (.error (.unknownEdge id), g)
  | some edge =>
      (.ok edge,
        { g with
          edges := g.edges.eraseP (fun e => e.id == id) })

end Graph

------------------------------------------------------------
-- Changing a Node
------------------------------------------------------------

namespace Graph

/- Change the first node with an id. -/
def modifyFirst
    (id : String)
    (change : Node → Node) : List Node → List Node
  | [] => []
  | node :: nodes =>
      if node.id = id then
        change node :: nodes
      else
        node :: modifyFirst id change nodes

/- Change the node with an id. -/
def modify
    (g : Graph)
    (id : String)
    (change : Node → Node) : Graph :=
  { g with nodes := modifyFirst id change g.nodes }

/- The node with an id, unless it is a sentinel. -/
def editable
    (g : Graph)
    (id : String) : Except Refusal Node :=
  if isSentinel id then
    .error (.sentinelLocked id)
  else
    match g.node? id with
    | some node => .ok node
    | none => .error (.unknownNode id)

/-
  The value that is stored under an input of a node: within
  the limits of the input, which a known kind must declare.
-/
def storable
    (node : Node)
    (input : String)
    (value : F32) : Except Refusal F32 :=
  match Catalog.builtIn.find? node.kind with
  | none => .ok value
  | some kind =>
      match kind.input? input with
      | some declared => .ok (declared.confine value)
      | none => .error (.unknownInput node.id input)

/- Store a value under an input. -/
def setParam
    (g : Graph)
    (id input : String)
    (value : F32) : Except Refusal F32 × Graph :=
  if !value.isFinite then
    (.error (.notFinite id input), g)
  else
    match g.editable id with
    | .error why => (.error why, g)
    | .ok node =>
        match storable node input value with
        | .error why => (.error why, g)
        | .ok stored =>
            (.ok stored,
              g.modify id fun n =>
                { n with
                  params := n.params.insert input stored })

/- Move the slot of an input one step. -/
def toggleBinding
    (g : Graph)
    (id input : String) :
    Except Refusal (Option Slot) × Graph :=
  match g.editable id with
  | .error why => (.error why, g)
  | .ok node =>
      let bindings := Bindings.toggle node.bindings input
      (.ok (Bindings.slot? bindings input),
        g.modify id fun n =>
          { n with bindings := bindings })

/- Change a node that is not a sentinel. -/
def adjust
    (g : Graph)
    (id : String)
    (change : Node → Node) :
    Except Refusal Unit × Graph :=
  match g.editable id with
  | .error why => (.error why, g)
  | .ok _ => (.ok (), g.modify id change)

/- Bind an input to a slot, or clear its binding. -/
def setBinding
    (g : Graph)
    (id input : String)
    (slot : Option Slot) : Except Refusal Unit × Graph :=
  g.adjust id fun n =>
    { n with
      bindings := Bindings.assign n.bindings input slot }

/- Set or clear the guard of a node. -/
def setGuard
    (g : Graph)
    (id : String)
    (guard : Option Guard) : Except Refusal Unit × Graph :=
  match guard.filter (fun c => !c.valid) with
  | some c => (.error (.invalidGuard c.modulus c.remainder), g)
  | none => g.adjust id fun n => { n with guard := guard }

/- Enable or disable a node. -/
def setEnabled
    (g : Graph)
    (id : String)
    (enabled : Bool) : Except Refusal Unit × Graph :=
  g.adjust id fun n => { n with enabled := enabled }

/- Move a node in the editor; sentinels may be moved too. -/
def setPosition
    (g : Graph)
    (id : String)
    (position : Position) : Except Refusal Unit × Graph :=
  if g.hasNode id then
    (.ok (),
      g.modify id fun n =>
        { n with position := some position })
  else
    (.error (.unknownNode id), g)

end Graph

------------------------------------------------------------
-- Edits as Values
------------------------------------------------------------

/- An edit that the editor asks for. -/
inductive Edit where
  | addNode (id : Option String) (kind : String)
  | removeNode (node : String)
  | connect
      (source target : String)
      (port : Option Port)
  | disconnect (edge : String)
  | setParam (node input : String) (value : F32)
  | toggleBinding (node input : String)
  | setBinding (node input : String) (slot : Option Slot)
  | setGuard (node : String) (guard : Option Guard)
  | setEnabled (node : String) (enabled : Bool)
  | moveNode (node : String) (position : Position)
deriving DecidableEq

/-
  The answer to an edit, which names the id it created, and
  what the edit leaves behind.
-/
structure Change where
  answer : Except Refusal (Option String)
  graph : Graph
  supply : Supply

namespace Change

/- A change that creates no id. -/
def plain
    {α : Type}
    (supply : Supply)
    (result : Except Refusal α × Graph) : Change where
  answer := result.1.map fun _ => none
  graph := result.2
  supply := supply

/- A change that creates a given id. -/
def creating
    (id : String)
    (supply : Supply)
    (result : Except Refusal Unit × Graph) : Change where
  answer := result.1.map fun _ => some id
  graph := result.2
  supply := supply

/-
  A change that creates the next id of a supply, which is
  used up only when the change succeeds.
-/
def drawing
    (id : String)
    (supply : Supply)
    (result : Except Refusal Unit × Graph) : Change :=
  creating id
    (if result.1.isOk then supply.advance else supply)
    result

end Change

namespace Graph

/- Apply an edit with the built-in catalog. -/
def apply
    (g : Graph)
    (supply : Supply) : Edit → Change
  | .addNode (some id) kind =>
      .creating id supply (g.addNode id kind)
  | .addNode none kind =>
      .drawing supply.nodeId supply
        (g.addNode supply.nodeId kind)
  | .removeNode node => .plain supply (g.removeNode node)
  | .connect source target port =>
      .drawing supply.edgeId supply
        (g.connect .builtIn supply.edgeId source target port)
  | .disconnect edge => .plain supply (g.disconnect edge)
  | .setParam node input value =>
      .plain supply (g.setParam node input value)
  | .toggleBinding node input =>
      .plain supply (g.toggleBinding node input)
  | .setBinding node input slot =>
      .plain supply (g.setBinding node input slot)
  | .setGuard node guard =>
      .plain supply (g.setGuard node guard)
  | .setEnabled node enabled =>
      .plain supply (g.setEnabled node enabled)
  | .moveNode node position =>
      .plain supply (g.setPosition node position)

end Graph

end FractalShader
