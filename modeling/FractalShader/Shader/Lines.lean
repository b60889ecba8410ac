/-
  This file splits text into lines and makes text safe for a
  comment that ends with its line.

  Key definitions include:
    * `Lines.split`
    * `Lines.ofText`
    * `Lines.commentSafe`
-/

namespace FractalShader

namespace Lines

------------------------------------------------------------
-- Splitting
------------------------------------------------------------

/-
  The lines of a text without their ends.  A carriage return
  right before a line feed belongs to the end of the line,
  and a text does not end with an empty line.
-/
def split : List Char → List (List Char)
  | [] => []
  | '\n' :: rest => [] :: split rest
  | '\r' :: '\n' :: rest => [] :: split rest
  | c :: rest =>
      match split rest with
      | [] => [[c]]
      | line :: lines => (c :: line) :: lines

/- The lines of a string. -/
def ofText (text : String) : List String :=
  (split text.toList).map String.ofList

------------------------------------------------------------
-- Comments
------------------------------------------------------------

/- A character that controls a device. -/
def isControl (c : Char) : Bool :=
  c.toNat < 0x20 || (0x7f ≤ c.toNat && c.toNat ≤ 0x9f)

/- Replace control characters by blanks. -/
def commentSafe (text : String) : String :=
  text.map fun c => if isControl c then ' ' else c

end Lines

end FractalShader
