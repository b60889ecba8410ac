import FractalShader.Catalog.Input
import FractalShader.Catalog.Template

/-
  This file defines the kinds of nodes and the catalog that
  finds a kind by its id.

  Key definitions include:
    * `Arity`
    * `Kind`
    * `Kind.input?`
    * `KindCard`
    * `Catalog`
    * `Catalog.find?`
    * `Catalog.arity`
    * `Catalog.describe`
-/

namespace FractalShader

------------------------------------------------------------
-- Kinds
------------------------------------------------------------

/- How many nodes feed a node. -/
inductive Arity where
  | single
  | dual
deriving DecidableEq, Repr

/- A kind of node and the statements it contributes. -/
structure Kind where
  id : String
  name : String
  description : String
  category : String
  arity : Arity
  inputs : List Input
  body : Scope → String

namespace Kind

/- The declared input with an id. -/
def input?
    (kind : Kind)
    (id : String) : Option Input :=
  kind.inputs.find? (fun input => input.id == id)

/- The initial values of all declared inputs. -/
def initialParams (kind : Kind) : Dict F32 :=
  .ofList (kind.inputs.map fun i => (i.id, i.initial))

end Kind

------------------------------------------------------------
-- Cards
------------------------------------------------------------

/- What the editor shows of a kind. -/
structure KindCard where
  id : String
  name : String
  description : Option String
  category : String
  arity : Arity
  inputs : List Input
  placeholder : Bool
deriving DecidableEq, Repr

/- The card of a kind. -/
def Kind.card (kind : Kind) : KindCard where
  id := kind.id
  name := kind.name
  description := some kind.description
  category := kind.category
  arity := kind.arity
  inputs := kind.inputs
  placeholder := false

/- The card that stands in for an unknown kind. -/
def KindCard.unknown (id : String) : KindCard where
  id := id
  name := "Unknown (" ++ id ++ ")"
  description := none
  category := "Unknown"
  arity := .single
  inputs := []
  placeholder := true

------------------------------------------------------------
-- Catalogs
------------------------------------------------------------

/- The known kinds under their ids. -/
structure Catalog where
  kinds : Dict Kind

namespace Catalog

/- Collect kinds; the last kind with an id counts. -/
def ofKinds (kinds : List Kind) : Catalog where
  kinds := .ofList (kinds.map fun kind => (kind.id, kind))

/- The kind with an id. -/
def find?
    (catalog : Catalog)
    (id : String) : Option Kind :=
  catalog.kinds.get? id

/- A kind with this id is known. -/
def contains
    (catalog : Catalog)
    (id : String) : Bool :=
  (catalog.find? id).isSome

/- The arity of a kind; unknown kinds have one input. -/
def arity
    (catalog : Catalog)
    (id : String) : Arity :=
  ((catalog.find? id).map Kind.arity).getD .single

/- A declared input of a kind. -/
def input?
    (catalog : Catalog)
    (kind input : String) : Option Input :=
  (catalog.find? kind).bind (·.input? input)

/- The cards of all kinds in the order of their ids. -/
def cards (catalog : Catalog) : List KindCard :=
  catalog.kinds.values.map Kind.card

/- The card of a kind, known or not. -/
def describe
    (catalog : Catalog)
    (id : String) : KindCard :=
  match catalog.find? id with
  | some kind => kind.card
  | none => .unknown id

end Catalog

end FractalShader
