/-
# The four evaluators on primitive values

`fold::binary`, `opaque::binary`, `emulate::binary` and `exec::binary` on two values
that are `undefined`, `null`, booleans, numbers or strings.  Each is the one function
`Reading.binary` of what it takes a value for: the number of a string, the text of a
number, the power of two doubles, `==`, and whether two strings have an order of their
own.
-/

import Lunar.Payload.Emulate.Value
import Lunar.Payload.Opaque

namespace Lunar
namespace Evaluators

open Lib (Double)
open Exec (BinaryOperator)
open Fold (toInt32 toUint32 ofI32 ofU32 ofBool shiftCount)

/-- A primitive value. -/
inductive Prim
  | undef
  | null
  | bool (b : Bool)
  | num (n : Double)
  | str (s : String)
  deriving DecidableEq, Repr

namespace Prim

def toFold : Prim → Fold.Val
  | undef => .undef
  | null => .null
  | bool b => .bool b
  | num n => .num n
  | str s => .str s

def toJ : Prim → Opaque.J
  | undef => .undef
  | null => .null
  | bool b => .bool b
  | num n => .num n
  | str s => .str s

def toV : Prim → Emulate.V
  | undef => .undef
  | null => .null
  | bool b => .bool b
  | num n => .num n
  | str s => .str s

def toVal : Prim → Interp.Val
  | undef => .undef
  | null => .null
  | bool b => .bool b
  | num n => .num n
  | str s => .str s

def isStr : Prim → Bool
  | str _ => true
  | _ => false

def nullish : Prim → Bool
  | undef | null => true
  | _ => false

/-- Two values of one kind. -/
def SameKind : Prim → Prim → Prop
  | undef, undef | null, null | bool _, bool _ | num _, num _ | str _, str _ => True
  | _, _ => False

/-- `===` -/
def strictEq : Prim → Prim → Bool
  | undef, undef | null, null => true
  | bool a, bool b => a = b
  | num a, num b => a.eq b
  | str a, str b => a = b
  | _, _ => false

/-- The value as a number, if a string is one by `ofStr`. -/
def number (ofStr : String → Double) : Prim → Double
  | undef => .nan
  | null => .zero
  | bool b => ofBool b
  | num n => n
  | str s => ofStr s

/-- The value as text, if a number has the text `ofNum`. -/
def text (ofNum : Double → String) : Prim → String
  | undef => "undefined"
  | null => "null"
  | bool b => if b then "true" else "false"
  | num n => ofNum n
  | str s => s

end Prim

/-- What an evaluator takes a primitive value for. -/
structure Reading where
  ofStr : String → Double
  ofNum : Double → String
  pow : Double → Double → Double
  /-- Values of different kinds are compared by `==` as numbers. -/
  loose : Bool
  /-- Two strings are ordered by their units. -/
  byText : Bool

namespace Reading

variable (R : Reading)

/-- `==`. -/
def eq (l r : Prim) : Bool :=
  if R.loose then
    if l.nullish && r.nullish then true
    else if l.nullish || r.nullish then false
    else if l.isStr && r.isStr then l.strictEq r
    else (l.number R.ofStr).eq (r.number R.ofStr)
  else l.strictEq r

/-- A comparison, of two strings by `ord` and of other values by `nums`. -/
def compare (ord : Ordering → Bool) (nums : Double → Double → Bool) (l r : Prim) : Bool :=
  match R.byText, l, r with
  | true, .str a, .str b => ord (Ord.compare (Lib.Text.encodeUtf16 a) (Lib.Text.encodeUtf16 b))
  | _, l, r => nums (l.number R.ofStr) (r.number R.ofStr)

/-- `+`. -/
def addition (l r : Prim) : Prim :=
  if l.isStr || r.isStr then .str (l.text R.ofNum ++ r.text R.ofNum)
  else .num ((l.number R.ofStr).add (r.number R.ofStr))

/-- An operator on two primitive values. -/
def binary (op : BinaryOperator) (l r : Prim) : Option Prim :=
  let arith (f : Double → Double → Double) : Option Prim :=
    some (.num (f (l.number R.ofStr) (r.number R.ofStr)))
  match op with
  | .addition => some (R.addition l r)
  | .subtraction => arith Double.sub
  | .multiplication => arith Double.mul
  | .division => arith Double.div
  | .remainder => arith Double.rem
  | .exponential => arith R.pow
  | .bitwiseAnd => arith fun a b => ofI32 (toInt32 a &&& toInt32 b)
  | .bitwiseOR => arith fun a b => ofI32 (toInt32 a ||| toInt32 b)
  | .bitwiseXOR => arith fun a b => ofI32 (toInt32 a ^^^ toInt32 b)
  | .shiftLeft => arith fun a b => ofI32 (toInt32 a <<< shiftCount (toUint32 b))
  | .shiftRight => arith fun a b => ofI32 ((toInt32 a).sshiftRight (shiftCount (toUint32 b)))
  | .shiftRightZeroFill => arith fun a b => ofU32 (toUint32 a >>> shiftCount (toUint32 b))
  | .lessThan => some (.bool (R.compare Ordering.isLT Double.lt l r))
  | .lessEqualThan => some (.bool (R.compare Ordering.isLE Double.le l r))
  | .greaterThan => some (.bool (R.compare Ordering.isGT Double.gt l r))
  | .greaterEqualThan => some (.bool (R.compare Ordering.isGE Double.ge l r))
  | .strictEquality => some (.bool (l.strictEq r))
  | .strictInequality => some (.bool !l.strictEq r)
  | .equality => some (.bool (R.eq l r))
  | .inequality => some (.bool !R.eq l r)
  | .inOp | .instanceof => none

end Reading

/-! ## The readings of the four -/

/-- The functions and the heaps that the evaluators are given. -/
structure Env where
  libm : Emulate.Libm
  emulated : List Emulate.Heap
  emulatedStack : ℕ
  heap : List Interp.Obj
  stack : ℕ
  /-- The power of the interpreter's library. -/
  pow : Double → Double → Double
  has : Interp.Val → String → Interp.Res Bool

variable (e : Env)

/-- `Val::num`, `number_to_string` and `prim_eq`. -/
def foldReading : Reading where
  ofStr := Emulate.strNum
  ofNum := Fold.numberToString
  pow := e.libm.powf
  loose := false
  byText := false

def opaqueReading : Reading where
  ofStr := Opaque.strNum
  ofNum := Interp.numToStr
  pow := e.libm.powf
  loose := true
  byText := true

def emulateReading : Reading where
  ofStr := Emulate.strNum
  ofNum := Fold.numberToString
  pow := e.libm.powf
  loose := true
  byText := true

def execReading : Reading where
  ofStr := Interp.strToNum
  ofNum := Interp.numToStr
  pow := Interp.mathPow e.pow
  loose := true
  byText := true

/-- The readings of the other three. -/
def others : List Reading := [opaqueReading e, emulateReading e, execReading e]

theorem mem_others {R : Reading} (h : R ∈ others e) :
    R = opaqueReading e ∨ R = emulateReading e ∨ R = execReading e := by
  simpa [others] using h

/-! ## The fold -/

theorem textOrder_eq (a b : String) : Interp.textOrder a b =
    compare (Lib.Text.encodeUtf16 a) (Lib.Text.encodeUtf16 b) := by
  rw [Interp.textOrder]
  split
  · next h =>
      obtain ⟨ha, hb⟩ := Bool.and_eq_true_iff.1 h
      have hunits {s : String} (hs : Interp.isAscii s = true) :
          Lib.Text.encodeUtf16 s = s.toList.map Char.toNat := by
        refine Lib.Text.encodeUtf16_of_lt fun c hc => ?_
        have hlt := of_decide_eq_true (List.all_eq_true.1 hs c hc)
        omega
      rw [hunits ha, hunits hb]
  · rfl

end Evaluators
end Lunar
