/-
  This file defines the reasons for which a graph has no
  shader.

  Key definitions include:
    * `Failure`
    * `Failure.message`
-/

namespace FractalShader

/- Why a graph has no shader. -/
inductive Failure where
  /- Nodes that wait for each other. -/
  | cycle (waiting : List String)
  /- A node of a kind that the catalog does not know. -/
  | unknownKind (node kind : String)
  /- An input whose limits admit no value. -/
  | emptyRange (node input : String)
  /- A node with fewer edges than were taken from it. -/
  | miscounted (node : String)
deriving DecidableEq, Repr

namespace Failure

/- The text of a failure. -/
def message : Failure → String
  | .cycle waiting =>
      "Internal error: graph has a cycle through [" ++
        ", ".intercalate waiting ++ "]. Compile aborted."
  | .unknownKind node kind =>
      "Node '" ++ node ++ "' has unknown type '" ++
        kind ++ "'"
  | .emptyRange node input =>
      "Input '" ++ input ++ "' of node '" ++ node ++
        "' has limits that admit no value"
  | .miscounted node =>
      "Node '" ++ node ++ "' waits for no other node"

end Failure

end FractalShader
