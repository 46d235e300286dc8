/-
# The operators of the constant folder

`payload/fold.rs`: `to_int32`, `to_uint32`, `number_to_string`, and `binary` with
the readings of a value that it rests on.  The values that are not primitive
(`Code`, `Arr`, `Obj` and `Func`) are one here: nothing in `binary` tells them
apart.
-/

import Lunar.Lib.Double
import Lunar.Lib.Text
import Lunar.Payload.Exec.Op
import Mathlib.Algebra.Ring.Int.Defs
import Mathlib.Algebra.Ring.Nat

namespace Lunar
namespace Fold

open Lib (Double)
open Exec (BinaryOperator)

/-- `TWO_32`. -/
def TWO_32 : Double := .ofInt (2 ^ 32)

/-- `f64::rem_euclid`. -/
def remEuclid (x y : Double) : Double :=
  let r := x.rem y
  if r.lt .zero then r.add y.abs else r

def toInt32 (x : Double) : BitVec 32 :=
  if x.isFinite && x.abs.lt (.ofInt (2 ^ 63)) then .ofInt 32 (x.toI 64)
  else if !x.isFinite then 0
  else .ofNat 32 ((remEuclid x.trunc TWO_32).toU 32)

def toUint32 (x : Double) : BitVec 32 := toInt32 x

/-- `f64::from` of an `i32`. -/
def ofI32 (b : BitVec 32) : Double := .ofInt b.toInt

/-- `f64::from` of a `u32`. -/
def ofU32 (b : BitVec 32) : Double := .ofInt b.toNat

def ofBool (b : Bool) : Double := if b then .one else .zero

/-- `n & 31` of a shift. -/
def shiftCount (b : BitVec 32) : ℕ := (b &&& 31).toNat

def numberToString (n : Double) : String :=
  if n.isNan then "NaN"
  else if n.isInfinite then if n.gt .zero then "Infinity" else "-Infinity"
  else if n.eq n.trunc && n.abs.lt (.ofNat (10 ^ 21)) then toString (n.toI 128)
  else n.display

inductive Val
  | undef
  | null
  | bool (b : Bool)
  | num (n : Double)
  | str (s : String)
  | obj
  deriving DecidableEq, Repr

namespace Val

/-- `Val::num`. -/
def toNum : Val → Double
  | .undef | .obj => .nan
  | .null => .zero
  | .bool b => ofBool b
  | .num n => n
  | .str s =>
    let t := Lib.Text.trim s
    if t = "" then .zero else (Double.parse t).getD .nan

/-- `Val::text`. -/
def text : Val → Option String
  | .undef => some "undefined"
  | .null => some "null"
  | .bool b => some (if b then "true" else "false")
  | .num n => some (numberToString n)
  | .str s => some s
  | .obj => none

def isStr : Val → Bool
  | .str _ => true
  | _ => false

end Val

def primEq : Val → Val → Option Bool
  | .undef, .undef | .null, .null => some true
  | .num a, .num b => some (a.eq b)
  | .str a, .str b => some (a = b)
  | .bool a, .bool b => some (a = b)
  | .obj, _ => none
  | _, _ => some false

/-- `binary`.  `powf` is the runtime's power of two doubles. -/
def binary (powf : Double → Double → Double) (op : BinaryOperator) (l r : Val) : Option Val :=
  let a := l.toNum
  let b := r.toNum
  let i := toInt32 a
  let j := toInt32 b
  match op with
  | .addition =>
    if l.isStr || r.isStr then do return .str ((← l.text) ++ (← r.text))
    else some (.num (a.add b))
  | .subtraction => some (.num (a.sub b))
  | .multiplication => some (.num (a.mul b))
  | .division => some (.num (a.div b))
  | .remainder => some (.num (a.rem b))
  | .exponential => some (.num (powf a b))
  | .bitwiseAnd => some (.num (ofI32 (i &&& j)))
  | .bitwiseOR => some (.num (ofI32 (i ||| j)))
  | .bitwiseXOR => some (.num (ofI32 (i ^^^ j)))
  | .shiftLeft => some (.num (ofI32 (i <<< shiftCount j)))
  | .shiftRight => some (.num (ofI32 (i.sshiftRight (shiftCount j))))
  | .shiftRightZeroFill => some (.num (ofU32 (i >>> shiftCount j)))
  | .lessThan => some (.bool (a.lt b))
  | .lessEqualThan => some (.bool (a.le b))
  | .greaterThan => some (.bool (a.gt b))
  | .greaterEqualThan => some (.bool (a.ge b))
  | .strictEquality | .equality => (primEq l r).map .bool
  | .strictInequality | .inequality => (primEq l r).map fun b => .bool !b
  | .inOp | .instanceof => none

end Fold
end Lunar
