/-
  This file writes numbers in hexadecimal digits of a fixed
  width.

  Key definitions include:
    * `Hex.lowest`
-/

namespace FractalShader

namespace Hex

/-
  The lowest hexadecimal digits of a number, the highest of
  them first, in lower case.
-/
def lowest : Nat → Nat → List Char
  | 0, _ => []
  | k + 1, n =>
      lowest k (n / 16) ++ [Nat.digitChar (n % 16)]

/- As many digits are written as are asked for. -/
@[simp] theorem length_lowest (k n : Nat) :
    (lowest k n).length = k := by
  induction k generalizing n with
  | zero => rfl
  | succ k ih => simp [lowest, ih]

end Hex

end FractalShader
