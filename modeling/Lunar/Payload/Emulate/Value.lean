/-
# The values and the heap of the boot emulator

`payload/emulate.rs`: `V`, `Heap`, and the functions that read a value in a heap:
`truthy`, `num`, `text`, `get`, `binary`, `loose_eq` and `type_of`.

A call that goes on forever, as the text of an array in itself does, overflows the
stack: `stack` is the depth to which such calls go.  An overflow, and an id
outside the heap, end the emulator for good (`Stop.panic`).
-/

import Lunar.Payload.Disasm
import Lunar.Payload.Fold
import Mathlib.Algebra.Ring.Nat

namespace Lunar
namespace Emulate

open Lib (Double)
open Ir (StrId)
open Exec (BinaryOperator)
open Fold (toInt32 toUint32 ofI32 ofU32 ofBool shiftCount numberToString)

def MAX_STEPS : ℕ := 400000

def MAX_ARRAY : ℕ := 2 ^ 20

inductive MathFn
  | abs | ceil | floor | round | trunc | sign | sqrt | cbrt | pow | max | min | imul | clz32
  | fround | hypot | exp | log | log2 | log10 | sin | cos | tan | atan | atan2
  deriving DecidableEq, Repr

/-- The functions on doubles of the runtime's library. -/
structure Libm where
  sqrt : Double → Double
  cbrt : Double → Double
  powf : Double → Double → Double
  fround : Double → Double
  exp : Double → Double
  ln : Double → Double
  log2 : Double → Double
  log10 : Double → Double
  sin : Double → Double
  cos : Double → Double
  tan : Double → Double
  atan : Double → Double
  atan2 : Double → Double → Double

namespace MathFn

/-- `MathFn::named`. -/
def named : String → Option MathFn
  | "abs" => some .abs
  | "ceil" => some .ceil
  | "floor" => some .floor
  | "round" => some .round
  | "trunc" => some .trunc
  | "sign" => some .sign
  | "sqrt" => some .sqrt
  | "cbrt" => some .cbrt
  | "pow" => some .pow
  | "max" => some .max
  | "min" => some .min
  | "imul" => some .imul
  | "clz32" => some .clz32
  | "fround" => some .fround
  | "hypot" => some .hypot
  | "exp" => some .exp
  | "log" => some .log
  | "log2" => some .log2
  | "log10" => some .log10
  | "sin" => some .sin
  | "cos" => some .cos
  | "tan" => some .tan
  | "atan" => some .atan
  | "atan2" => some .atan2
  | _ => none

/-- `MathFn::constant`. -/
def constant : String → Option Double
  | "PI" => some (.ofBits 0x400921FB54442D18)
  | "E" => some (.ofBits 0x4005BF0A8B145769)
  | "LN2" => some (.ofBits 0x3FE62E42FEFA39EF)
  | "LN10" => some (.ofBits 0x40026BB1BBB55516)
  | "LOG2E" => some (.ofBits 0x3FF71547652B82FE)
  | "LOG10E" => some (.ofBits 0x3FDBCB7B1526E50E)
  | "SQRT2" => some (.ofBits 0x3FF6A09E667F3BCD)
  | "SQRT1_2" => some (.ofBits 0x3FE6A09E667F3BCD)
  | _ => none

/-- `x + 0.5`, rounded down; what rounds to zero from below is a negative zero. -/
def roundHalf (x : Double) : Double :=
  if !x.isFinite || x.isInt then x
  else
    let r := (x.add (.fin false (Double.ONE / 2))).floor
    if r.eq .zero && x.lt .zero then .fin true 0 else r

/-- A turn of the loop of `max`. -/
def maxTurn (m v : Double) : Option Double :=
  if v.isNan then none
  else if v.gt m || (v.eq .zero && m.eq .zero && m.isSignNegative) then some v else some m

/-- A turn of the loop of `min`. -/
def minTurn (m v : Double) : Option Double :=
  if v.isNan then none
  else if v.lt m || (v.eq .zero && m.eq .zero && v.isSignNegative) then some v else some m

/-- `u32::leading_zeros`. -/
def leadingZeros (b : BitVec 32) : ℕ := if b = 0 then 32 else 31 - b.toNat.log2

/-- `MathFn::apply`. -/
def apply (libm : Libm) (f : MathFn) (a : List Double) : Double :=
  let x := a[0]?.getD .nan
  let y := a[1]?.getD .nan
  match f with
  | .abs => x.abs
  | .ceil => x.ceil
  | .floor => x.floor
  | .round => roundHalf x
  | .trunc => x.trunc
  | .sign => if x.isNan || x.eq .zero then x else if x.isSignNegative then Double.one.neg else .one
  | .sqrt => libm.sqrt x
  | .cbrt => libm.cbrt x
  | .pow => if y.isNan || (x.abs.eq .one && y.isInfinite) then .nan else libm.powf x y
  | .max => (a.foldlM maxTurn (.inf true)).getD .nan
  | .min => (a.foldlM minTurn (.inf false)).getD .nan
  | .imul => ofI32 (toInt32 x * toInt32 y)
  | .clz32 => .ofInt (leadingZeros (toUint32 x))
  | .fround => libm.fround x
  | .hypot =>
    if a.any Double.isInfinite then .inf false
    else libm.sqrt (a.foldl (fun s v => s.add (v.mul v)) .zero)
  | .exp => libm.exp x
  | .log => libm.ln x
  | .log2 => libm.log2 x
  | .log10 => libm.log10 x
  | .sin => libm.sin x
  | .cos => libm.cos x
  | .tan => libm.tan x
  | .atan => libm.atan x
  | .atan2 => libm.atan2 x y

end MathFn

inductive Nat
  | slice | concat | splice | push | pop | shift | unshift | reverse | indexOf | join | apply | call
  | math (f : MathFn)
  deriving DecidableEq, Repr

inductive V
  | undef
  | null
  | bool (b : Bool)
  | num (n : Double)
  | str (s : String)
  | obj (id : ℕ)
  | global
  | math
  | dispatch
  | setter
  | name (s : StrId)
  | native (f : Nat)
  | handler (h : ℕ)
  | code
  | frame
  deriving DecidableEq, Repr

structure ScopeObj where
  vars : String → Option V
  parent : Option ℕ
  this : V
  callee : V
  fields : StrId → Option V
  catchV : V
  finallyV : V

inductive Heap
  | arr (items : List V)
  | obj (m : String → Option V)
  | scope (s : ScopeObj)
  | closure (entry scope : ℕ)

structure FrameState where
  regs : List V
  fields : StrId → Option V

/-- Why the emulator stopped. -/
inductive Stop
  | msg (reason : String)
  | panic
  deriving DecidableEq, Repr

abbrev Res := Except Stop

def err {α : Type} (reason : String) : Res α := .error (.msg reason)

/-- `perm_id`. -/
def PERM_ID : ℕ := 0

def truthy : V → Bool
  | .undef | .null => false
  | .bool b => b
  | .num n => !n.eq .zero && !n.isNan
  | .str s => s ≠ ""
  | _ => true

def V.nullish : V → Bool
  | .undef | .null => true
  | _ => false

/-- `strict_eq`. -/
def strictEq : V → V → Bool
  | .undef, .undef | .null, .null => true
  | .bool a, .bool b => a = b
  | .num a, .num b => a.eq b
  | .str a, .str b => a = b
  | .obj a, .obj b => a = b
  | .global, .global | .math, .math | .dispatch, .dispatch | .code, .code | .frame, .frame => true
  | .native a, .native b => a = b
  | .handler a, .handler b => a = b
  | .name a, .name b => a = b
  | _, _ => false

/-- `key_text`. -/
def keyText : V → Res String
  | .str s => pure s
  | .num n => pure (numberToString n)
  | .bool b => pure (if b then "true" else "false")
  | .undef => pure "undefined"
  | .null => pure "null"
  | _ => err "object used as property key"

/-- A string as a number. -/
def strNum (s : String) : Double :=
  let t := Lib.Text.trim s
  if t = "" then .zero else (Double.parse t).getD .nan

section Heap

variable (heap : List Heap)

/-- `self.heap[id]`. -/
def cell (id : ℕ) : Res Heap :=
  match heap[id]? with
  | some h => pure h
  | none => .error .panic

/-- `num`. -/
def num : ℕ → V → Res Double
  | _, .undef => pure .nan
  | _, .null => pure .zero
  | _, .bool b => pure (ofBool b)
  | _, .num n => pure n
  | _, .str s => pure (strNum s)
  | 0, .obj _ => .error .panic
  | stack + 1, .obj id => do
    match ← cell heap id with
    | .arr [] => pure .zero
    | .arr [v] => num stack v
    | _ => pure .nan
  | _, _ => pure .nan

/-- `Array.prototype.join`: the texts of the items, of which `undefined` and `null`
have none. -/
def joinTexts (text : V → Res String) (sep : String) (items : List V) : Res String := do
  let texts ← items.mapM fun x => if x.nullish then pure "" else text x
  return sep.intercalate texts

/-- `text`. -/
def text : ℕ → V → Res String
  | 0, .obj _ => .error .panic
  | stack + 1, .obj id => do
    match ← cell heap id with
    | .arr a => joinTexts (text stack) "," a
    | _ => pure "[object Object]"
  | _, v => keyText v

/-- The property of an array. -/
def getArr (a : List V) (k : V) : Res V := do
  let name : Res V := do
    let key ← keyText k
    match Lib.Text.parseUsize key with
    | some i => pure (a[i]?.getD .undef)
    | none =>
      match key with
      | "length" => pure (.num (.ofInt a.length))
      | "slice" => pure (.native .slice)
      | "concat" => pure (.native .concat)
      | "splice" => pure (.native .splice)
      | "push" => pure (.native .push)
      | "pop" => pure (.native .pop)
      | "shift" => pure (.native .shift)
      | "unshift" => pure (.native .unshift)
      | "reverse" => pure (.native .reverse)
      | "indexOf" => pure (.native .indexOf)
      | "join" => pure (.native .join)
      | _ => err "unmodelled array property"
  match k with
  | .num n => if n.ge .zero && n.isInt then pure (a[n.toU 64]?.getD .undef) else name
  | _ => name

/-- The property of a function. -/
def getFn (why : String) (k : V) : Res V := do
  match ← keyText k with
  | "apply" => pure (.native .apply)
  | "call" => pure (.native .call)
  | _ => err why

def getStr (s : String) (k : V) : Res V := do
  let key ← keyText k
  let units := Lib.Text.encodeUtf16 s
  if key = "length" then pure (.num (.ofInt units.length))
  else
    match Lib.Text.parseUsize key with
    | some i =>
      match units[i]? with
      | some u => pure (.str (Lib.Text.fromUtf16Lossy [u]))
      | none => pure .undef
    | none => err "unmodelled string property"

def getMath (k : V) : Res V := do
  let key ← keyText k
  match MathFn.named key, MathFn.constant key with
  | some f, _ => pure (.native (.math f))
  | none, some c => pure (.num c)
  | none, none => err "unmodelled Math property"

/-- The index of the dispatch table that a key stands for. -/
def dispatchKey : V → Res Double
  | .num n => pure n
  | .str s =>
    let t := Lib.Text.trim s
    pure (if t = "" then .zero
      else if t = "Infinity" ∨ t = "+Infinity" then .inf false
      else if t = "-Infinity" then .inf true
      else (Double.parse t).getD .nan)
  | .undef => pure .nan
  | .null => pure .zero
  | .bool b => pure (ofBool b)
  | _ => err "dispatch table keyed by object"

/-- The handler that the dispatch table holds for an index. -/
def handlerAt (c : Double) : Res V := do
  match ← cell heap PERM_ID with
  | .arr perm =>
    match perm[c.toU 64]? with
    | some (.num h) =>
      if h.ge .zero && h.isInt then pure (.handler (h.toU 16))
      else err "dispatch index outside permutation"
    | _ => err "dispatch index outside permutation"
  | _ => err "permutation replaced"

def getDispatch (k : V) : Res V := do
  let c ← dispatchKey k
  if c.isNan && k ≠ .undef && k ≠ .str "undefined" then pure .setter
  else if !c.isFinite then pure (.obj PERM_ID)
  else handlerAt heap c

/-- `get`. -/
def getProp (o k : V) : Res V := do
  match o with
  | .obj id =>
    match ← cell heap id with
    | .arr a => getArr a k
    | .obj m => do return (m (← keyText k)).getD .undef
    | .closure _ _ => getFn "unmodelled closure property" k
    | .scope _ => err "scope read as object"
  | .str s => getStr s k
  | .math => getMath k
  | .native _ | .setter => getFn "unmodelled function property" k
  | .dispatch => getDispatch heap k
  | _ => err "unmodelled property read"

/-- `array`: the list of arguments that a value stands for. -/
def array (v : V) : Res (List V) := do
  match v with
  | .obj id =>
    match ← cell heap id with
    | .arr a => pure a
    | _ => err "argument list is not an array"
  | .undef | .null => pure []
  | _ => err "argument list is not an array"

/-- `rel`: an index that counts from the end when it is negative. -/
def rel (n : Double) (len : ℕ) : ℕ :=
  let n := if n.isNan then .zero else n.trunc
  if n.lt .zero then ((Double.ofInt len).add n).toU 64 else min (n.toU 64) len

/-- `type_of`. -/
def typeOf (v : V) : Res String := do
  match v with
  | .undef => pure "undefined"
  | .bool _ => pure "boolean"
  | .num _ => pure "number"
  | .str _ => pure "string"
  | .native _ | .setter | .handler _ | .name _ => pure "function"
  | .obj id =>
    match ← cell heap id with
    | .closure _ _ => pure "function"
    | _ => pure "object"
  | _ => pure "object"

/-- A value that `+` takes for text. -/
def V.isText : V → Bool
  | .str _ | .obj _ => true
  | _ => false

/-- A number, a string or a boolean. -/
def V.isPlain : V → Bool
  | .num _ | .str _ | .bool _ => true
  | _ => false

variable (stack : ℕ) (libm : Libm)

/-- `loose_eq`. -/
def looseEq (l r : V) : Res Bool := do
  if l.nullish && r.nullish then pure true
  else if l.nullish || r.nullish then pure false
  else if l.isPlain && r.isPlain then
    match l, r with
    | .str a, .str b => pure (a = b)
    | _, _ => return (← num heap stack l).eq (← num heap stack r)
  else pure (strictEq l r)

/-- The order of two strings is that of their units. -/
def strLess (a b : String) : Bool := Lib.Text.encodeUtf16 a < Lib.Text.encodeUtf16 b

/-- `<`, `<=`, `>` and `>=`, on strings by `strs` and on numbers by `nums`. -/
def compareBy (strs : String → String → Bool) (nums : Double → Double → Bool) (l r : V) : Res V := do
  match l, r with
  | .str a, .str b => pure (.bool (strs a b))
  | _, _ => return .bool (nums (← num heap stack l) (← num heap stack r))

/-- `binary`. -/
def binary (op : BinaryOperator) (l r : V) : Res V := do
  let arith (f : Double → Double → Double) : Res V := do
    return .num (f (← num heap stack l) (← num heap stack r))
  match op with
  | .addition =>
    if l.isText || r.isText then return .str ((← text heap stack l) ++ (← text heap stack r))
    else arith Double.add
  | .subtraction => arith Double.sub
  | .multiplication => arith Double.mul
  | .division => arith Double.div
  | .remainder => arith Double.rem
  | .exponential => arith libm.powf
  | .bitwiseAnd => arith fun a b => ofI32 (toInt32 a &&& toInt32 b)
  | .bitwiseOR => arith fun a b => ofI32 (toInt32 a ||| toInt32 b)
  | .bitwiseXOR => arith fun a b => ofI32 (toInt32 a ^^^ toInt32 b)
  | .shiftLeft => arith fun a b => ofI32 (toInt32 a <<< shiftCount (toUint32 b))
  | .shiftRight => arith fun a b => ofI32 ((toInt32 a).sshiftRight (shiftCount (toUint32 b)))
  | .shiftRightZeroFill => arith fun a b => ofU32 (toUint32 a >>> shiftCount (toUint32 b))
  | .lessThan => compareBy heap stack (fun a b => strLess a b) Double.lt l r
  | .lessEqualThan => compareBy heap stack (fun a b => !strLess b a) Double.le l r
  | .greaterThan => compareBy heap stack (fun a b => strLess b a) Double.gt l r
  | .greaterEqualThan => compareBy heap stack (fun a b => !strLess a b) Double.ge l r
  | .strictEquality => pure (.bool (strictEq l r))
  | .strictInequality => pure (.bool !strictEq l r)
  | .equality => return .bool (← looseEq heap stack l r)
  | .inequality => return .bool !(← looseEq heap stack l r)
  | .inOp | .instanceof => err "relational object operator"

end Heap

end Emulate
end Lunar
