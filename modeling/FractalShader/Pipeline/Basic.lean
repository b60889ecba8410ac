import FractalShader.Graph.Basic

/-
  This file defines pipelines: the operations of a graph in
  the order in which they run.

  Key definitions include:
    * `Sources`
    * `Stage`
    * `Pipeline`
-/

namespace FractalShader

/-
  The ids that feed a stage.  The first one is left out when
  it is the stage before, or the start of the iteration for
  the first stage.
-/
structure Sources where
  a : Option String := none
  b : Option String := none
deriving DecidableEq, Repr

/- An operation with its sources. -/
structure Stage extends Operation where
  sources : Sources := {}
deriving DecidableEq

/- The stages in the order in which they run. -/
abbrev Pipeline := List Stage

end FractalShader
