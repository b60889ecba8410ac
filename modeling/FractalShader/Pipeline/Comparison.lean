import FractalShader.Pipeline.Basic

/-
  This file compares pipelines.

  Two pipelines of one structure differ at most in what has
  no effect on shader text with values in uniforms.  Two
  pipelines that are the same agree in everything, numbers
  compared numerically.

  Key definitions include:
    * `Pipeline.sameStructure`
    * `Pipeline.same`
-/

namespace FractalShader

------------------------------------------------------------
-- Structure
------------------------------------------------------------

/- The test of an active guard. -/
def Guard.test? (guard : Option Guard) :
    Option (UInt32 × UInt32) :=
  (guard.filter Guard.active).map fun g =>
    (g.modulus, g.remainder)

namespace Stage

/- Stages of one structure. -/
def sameStructure (s t : Stage) : Bool :=
  s.id == t.id &&
    s.kind == t.kind &&
    s.enabled == t.enabled &&
    s.sources == t.sources &&
    Bindings.defined s.bindings ==
      Bindings.defined t.bindings &&
    Guard.test? s.guard == Guard.test? t.guard

end Stage

------------------------------------------------------------
-- Equality
------------------------------------------------------------

/- Equal names and numerically equal values. -/
def Params.same : List (String × F32) → List (String × F32) → Bool
  | [], [] => true
  | (k, v) :: xs, (l, w) :: ys =>
      k == l && v.equal w && Params.same xs ys
  | _, _ => false

namespace Stage

/- Stages that agree in everything. -/
def same (s t : Stage) : Bool :=
  s.id == t.id &&
    s.kind == t.kind &&
    s.enabled == t.enabled &&
    Params.same s.params.entries t.params.entries &&
    s.bindings == t.bindings &&
    s.guard == t.guard &&
    s.sources == t.sources

end Stage

------------------------------------------------------------
-- Pipelines
------------------------------------------------------------

namespace Pipeline

/- Compare stage by stage. -/
def compareBy
    (related : Stage → Stage → Bool) :
    Pipeline → Pipeline → Bool
  | [], [] => true
  | s :: p, t :: q => related s t && compareBy related p q
  | _, _ => false

/- Pipelines of one structure. -/
def sameStructure : Pipeline → Pipeline → Bool :=
  compareBy Stage.sameStructure

/- Pipelines that agree in everything. -/
def same : Pipeline → Pipeline → Bool :=
  compareBy Stage.same

end Pipeline

end FractalShader
