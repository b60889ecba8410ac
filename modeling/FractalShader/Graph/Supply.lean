import FractalShader.Hex

/-
  This file defines the supply of fresh ids.

  Nodes and edges draw from one counter; the number of an id
  is written as twelve hexadecimal digits, so ids of
  different numbers differ.

  Key definitions include:
    * `Supply`
    * `Supply.nodeId`
    * `Supply.edgeId`
    * `Supply.advance`
-/

namespace FractalShader

/- How many fresh ids have been handed out. -/
structure Supply where
  issued : Nat := 0
deriving DecidableEq, Repr

namespace Supply

/- The unique part of the next id. -/
def tag (supply : Supply) : String :=
  "00000000-0000-4000-8000-" ++
    String.ofList (Hex.lowest 12 (supply.issued + 1))

/- The next id, for a node. -/
def nodeId (supply : Supply) : String :=
  "node-" ++ supply.tag

/- The next id, for an edge. -/
def edgeId (supply : Supply) : String :=
  "edge-" ++ supply.tag

/- The supply after its next id was handed out. -/
def advance (supply : Supply) : Supply :=
  ⟨supply.issued + 1⟩

end Supply

end FractalShader
