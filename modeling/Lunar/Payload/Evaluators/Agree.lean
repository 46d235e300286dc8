/-
# Where the four evaluators agree

What the folder makes of two primitive values the other three evaluators make of them
as well, if all take the operands for the same as far as the operator asks
(`evaluators_agree`).  They do not in general: the folder compares two strings as
numbers, and takes `==` for `===`.
-/

import Lunar.Payload.Evaluators.Parse
import Lunar.Payload.Evaluators.Print

namespace Lunar
namespace Evaluators

open Lib (Double)
open Exec (BinaryOperator)

variable (e : Env)

/-- What the folder makes of two values, the three others make of them as well. -/
def Agrees (op : BinaryOperator) (l r : Prim) : Prop :=
  ∀ v, Fold.binary e.libm.powf op l.toFold r.toFold = some v → ∃ w : Prim, w.toFold = v ∧
    Opaque.binary e.libm.powf op l.toJ r.toJ = some w.toJ ∧
    Emulate.binary e.emulated e.emulatedStack e.libm op l.toV r.toV = .ok w.toV ∧
    Interp.binary e.heap e.stack e.pow e.has op l.toVal r.toVal = .ok w.toVal

/-- An operator that orders its operands. -/
def relational : BinaryOperator → Bool
  | .lessThan | .lessEqualThan | .greaterThan | .greaterEqualThan => true
  | _ => false

/-- An operator that reads its operands as numbers, whatever they are. -/
def numeric : BinaryOperator → Bool
  | .addition | .strictEquality | .strictInequality | .equality | .inequality | .inOp
  | .instanceof => false
  | _ => true

/-- The four take a value for the same number. -/
def ReadsSame (p : Prim) : Prop :=
  ∀ R ∈ others e, p.number R.ofStr = p.number (foldReading e).ofStr

/-- The folder's number of a value. -/
def folded (p : Prim) : Double := p.number (foldReading e).ofStr

/-- The four take the operands for the same, as far as `op` asks. -/
def Settled (op : BinaryOperator) (l r : Prim) : Prop :=
  match op with
  | .addition => (l.isStr || r.isStr) = true → ∀ n, l = .num n ∨ r = .num n → scientific n = false
  | .equality | .inequality => l.SameKind r ∨ l.nullish ≠ r.nullish ∨
      ((l.nullish || r.nullish) = false ∧
        ∀ R ∈ others e, (l.number R.ofStr).eq (r.number R.ofStr) = false)
  | .exponential => ReadsSame e l ∧ ReadsSame e r ∧
      Interp.mathPow e.pow (folded e l) (folded e r) = e.libm.powf (folded e l) (folded e r)
  | op => (numeric op = true → ReadsSame e l ∧ ReadsSame e r) ∧
      (relational op = true → (l.isStr && r.isStr) = false)

/-! ## What the four take alike -/

/-- A value that is no string is the same number whatever a string is. -/
theorem number_eq {p : Prim} (h : p.isStr = false) (f g : String → Double) :
    p.number f = p.number g := by
  cases p <;> first | rfl | cases h

theorem readsSame_of_plain {s : String} (h : Plain s) : ReadsSame e (.str s) :=
  fun _ hR => number_plain e h hR

end Evaluators
end Lunar
