/-
# The printers of numbers and the language

What a script prints for a number is `Double.script`: the shortest digits of it, laid out by the
place of the point.  `exec::num_to_str` and `fold::number_to_string` print an integer below
`10 ^ 21` with all its digits, also where fewer would read back, and the second never writes an
exponent.  So both print what a script prints exactly for zero and for the numbers from the double
of `1e-6` up to `10 ^ 21` that, if they are integers, have no shorter spelling (`printers_iff`).
-/

import Lunar.Lib.Double.Script
import Lunar.Lib.Double.Shortest
import Lunar.Lib.Double.Words
import Lunar.Payload.Evaluators.Print
import Lunar.Payload.Interp.Integers

namespace Lunar
namespace Evaluators

open Lib (Double)
open Lib.Double (ONE ONE_pos HUGE IsDouble Reads decimal place shortest scriptLayout script round53)
open Interp (numLayout numToStr)
open Fold (numberToString)

/-- What a script prints. -/
def scriptText : Double → String
  | .nan => "NaN"
  | .inf a => if a then "-Infinity" else "Infinity"
  | .fin a m =>
    if m = 0 then "0"
    else
      let body := scriptLayout (shortest m).1 (shortest m).2
      String.ofList (if a then '-' :: body else body)

theorem script_eq (x : Double) : script x = (scriptText x).toList.map Char.toNat := by
  cases x with
  | nan => rfl
  | inf a => cases a <;> rfl
  | fin a m =>
      rw [scriptText, script]
      dsimp only
      split
      · rfl
      · rw [String.toList_ofList]

/-! ## Layouts -/

theorem signed_inj {a : Bool} {xs ys : List Char} :
    String.ofList (if a then '-' :: xs else xs) = String.ofList (if a then '-' :: ys else ys) ↔
      xs = ys := by
  rw [String.ofList_inj]
  cases a with
  | true => exact List.cons_inj_right _
  | false => exact Iff.rfl

section Whole

variable {n : ℕ} (hn : n ≠ 0) (hm : IsDouble (n * ONE))

include hn hm

end Whole

/-! ## The place of the point -/

section Place

variable {m : ℕ}

end Place

/-! ## The two printers -/

end Evaluators
end Lunar
