/-
# The operators of the evaluator of opaque predicates

`payload/opaque.rs`: `J`, and `binary` with the readings of a value that it rests on.
-/

import Lunar.Payload.Interp.Value

namespace Lunar
namespace Opaque

open Lib (Double)
open Exec (BinaryOperator)
open Fold (toInt32 toUint32 ofI32 ofU32 ofBool shiftCount)
open Interp (numToStr decimalNum prefixed)

/-- `RegExpFlags`. -/
structure RegExpFlags where
  d : Bool
  g : Bool
  i : Bool
  m : Bool
  s : Bool
  u : Bool
  v : Bool
  y : Bool
  deriving DecidableEq, Repr

inductive J
  | undef
  | null
  | bool (b : Bool)
  | num (n : Double)
  | str (s : String)
  | arr (items : List J)
  | obj
  | proto
  | re (pattern : String) (flags : RegExpFlags)
  deriving Repr

/-- `flag_str`. -/
def flagStr (f : RegExpFlags) : String :=
  String.ofList <| [(f.d, 'd'), (f.g, 'g'), (f.i, 'i'), (f.m, 'm'), (f.s, 's'), (f.u, 'u'),
    (f.v, 'v'), (f.y, 'y')].filterMap fun p => if p.1 then some p.2 else none

def J.nullish : J → Bool
  | .undef | .null => true
  | _ => false

/-- An object of any kind. -/
def J.isObject : J → Bool
  | .arr _ | .obj | .proto | .re _ _ => true
  | _ => false

mutual

/-- `to_str`. -/
def toStr : J → String
  | .undef => "undefined"
  | .null => "null"
  | .bool b => if b then "true" else "false"
  | .num n => numToStr n
  | .str s => s
  | .arr a => ",".intercalate (texts a)
  | .obj | .proto => "[object Object]"
  | .re p f => "/" ++ p ++ "/" ++ flagStr f

/-- The texts that `join` puts together. -/
def texts : List J → List String
  | [] => []
  | x :: xs => (if x.nullish then "" else toStr x) :: texts xs

end

/-- `str_num`. -/
def strNum (s : String) : Double :=
  let t := Lib.Text.trim s
  if t = "" then .zero
  else
    match prefixed 'x' 'X' t.toList with
    | some body => ((Lib.Text.fromRadix 16 body).map Double.ofNat).getD .nan
    | none => decimalNum t

/-- `to_num`. -/
def toNum : J → Double
  | .undef => .nan
  | .null => .zero
  | .bool b => ofBool b
  | .num n => n
  | .str s => strNum s
  | v => strNum (toStr v)

/-- `prim`. -/
def prim (v : J) : J := if v.isObject then .str (toStr v) else v

def strictEq : J → J → Bool
  | .undef, .undef | .null, .null | .proto, .proto => true
  | .bool a, .bool b => a = b
  | .num a, .num b => a.eq b
  | .str a, .str b => a = b
  | _, _ => false

/-- `loose_eq` of two values of which none is an object next to a primitive one. -/
def looseEqPrim : J → J → Bool
  | .undef, .undef | .undef, .null | .null, .undef | .null, .null => true
  | .undef, _ | .null, _ | _, .undef | _, .null => false
  | .proto, .proto => true
  | .str a, .str b => a = b
  | a, b => if a.isObject && b.isObject then false else (toNum a).eq (toNum b)

/-- `loose_eq`.  `prim` gives no object, so one call suffices. -/
def looseEq (a b : J) : Bool :=
  if a.nullish || b.nullish || a.isObject == b.isObject then looseEqPrim a b
  else looseEqPrim (prim a) (prim b)

def isStr : J → Bool
  | .str _ => true
  | _ => false

/-- The order of two primitive values; none next to a NaN. -/
def order : J → J → Option Ordering
  | .str a, .str b => some (compare (Lib.Text.encodeUtf16 a) (Lib.Text.encodeUtf16 b))
  | l, r => (toNum l).cmp (toNum r)

/-- `binary`.  `powf` is the runtime's power of two doubles. -/
def binary (powf : Double → Double → Double) (op : BinaryOperator) (l r : J) : Option J :=
  let a := toNum l
  let b := toNum r
  let i := toInt32 a
  let j := toInt32 b
  match op with
  | .strictEquality => some (.bool (strictEq l r))
  | .strictInequality => some (.bool !strictEq l r)
  | .equality => some (.bool (looseEq l r))
  | .inequality => some (.bool !looseEq l r)
  | .addition =>
    let l := prim l
    let r := prim r
    if isStr l || isStr r then some (.str (toStr l ++ toStr r))
    else some (.num ((toNum l).add (toNum r)))
  | .subtraction => some (.num (a.sub b))
  | .multiplication => some (.num (a.mul b))
  | .division => some (.num (a.div b))
  | .remainder => some (.num (a.rem b))
  | .exponential => some (.num (powf a b))
  | .bitwiseAnd => some (.num (ofI32 (i &&& j)))
  | .bitwiseOR => some (.num (ofI32 (i ||| j)))
  | .bitwiseXOR => some (.num (ofI32 (i ^^^ j)))
  | .shiftLeft => some (.num (ofI32 (i <<< shiftCount (toUint32 b))))
  | .shiftRight => some (.num (ofI32 (i.sshiftRight (shiftCount (toUint32 b)))))
  | .shiftRightZeroFill => some (.num (ofU32 (toUint32 a >>> shiftCount (toUint32 b))))
  | .lessThan => some (.bool ((order (prim l) (prim r)).any Ordering.isLT))
  | .greaterThan => some (.bool ((order (prim l) (prim r)).any Ordering.isGT))
  | .lessEqualThan => some (.bool ((order (prim l) (prim r)).any Ordering.isLE))
  | .greaterEqualThan => some (.bool ((order (prim l) (prim r)).any Ordering.isGE))
  | .inOp | .instanceof => none

end Opaque
end Lunar
