/-
# The values and the heap of the interpreter

`payload/exec.rs`: `Val`, `Obj`, `str_to_num`, `num_to_str`, and the functions of
`Interp` that read a value in a heap: `to_num`, `to_prim`, `to_str`, `strict_eq`,
`loose_eq` and `binary`.

The digits of a double are the shortest that read back, as `ryu` has them.  A call
that goes on forever, as the text of an array in itself does, overflows the stack:
`stack` is the depth to which such calls go, and an overflow, or an id outside the
heap, is `Err.panic`.
-/

import Lunar.Lib.Double
import Lunar.Lib.Text
import Lunar.Payload.Exec.Op
import Lunar.Payload.Fold

namespace Lunar
namespace Interp

open Lib (Double)
open Exec (BinaryOperator)
open Fold (toInt32 toUint32 ofI32 ofU32 ofBool shiftCount)

/-! ## Strings and numbers -/

def isWs (c : Char) : Bool :=
  let n := c.toNat
  (9 ≤ n && n ≤ 13) || n = 0x20 || n = 0xA0 || n = 0x1680 || (0x2000 ≤ n && n ≤ 0x200A) ||
    n = 0x2028 || n = 0x2029 || n = 0x202F || n = 0x205F || n = 0x3000 || n = 0xFEFF

/-- The number that a body with a prefix denotes: its digits, one after the other. -/
def radixNum (radix : ℕ) (body : List Char) : Double :=
  let digit (acc : Double) (c : Char) : Option Double :=
    (Lib.Text.digit radix c).map fun d => (acc.mul (.ofNat radix)).add (.ofNat d)
  if body = [] then .nan else (body.foldlM digit .zero).getD .nan

/-- A body after a prefix in lower or upper case. -/
def prefixed (lower upper : Char) (t : List Char) : Option (List Char) :=
  (Lib.Text.stripPrefix ['0', lower] t).orElse fun _ => Lib.Text.stripPrefix ['0', upper] t

/-- The characters of a number without a prefix. -/
def isDecimal (c : Char) : Bool :=
  Double.isDigit c || c = '.' || c = 'e' || c = 'E' || c = '+' || c = '-'

/-- The end of `str_to_num`, which `opaque::str_num` has as well. -/
def decimalNum (t : String) : Double :=
  if t = "Infinity" ∨ t = "+Infinity" then .inf false
  else if t = "-Infinity" then .inf true
  else if !t.toList.all isDecimal then .nan
  else (Double.parse t).getD .nan

/-- `str_to_num`. -/
def strToNum (s : String) : Double :=
  let t := Lib.Text.trimMatches isWs s
  if t = "" then .zero
  else
    match prefixed 'x' 'X' t.toList with
    | some body => radixNum 16 body
    | none =>
      match prefixed 'o' 'O' t.toList with
      | some body => radixNum 8 body
      | none =>
        match prefixed 'b' 'B' t.toList with
        | some body => radixNum 2 body
        | none => decimalNum t

/-- Digits with their point at `e10`, as a script prints them. -/
def numLayout (ds : List Char) (e10 : ℤ) : List Char :=
  if ds.length ≤ e10 ∧ e10 ≤ 21 then ds ++ List.replicate (e10 - ds.length).toNat '0'
  else if 0 < e10 ∧ e10 ≤ 21 then ds.take e10.toNat ++ ['.'] ++ ds.drop e10.toNat
  else if -6 < e10 ∧ e10 ≤ 0 then ['0', '.'] ++ List.replicate (-e10).toNat '0' ++ ds
  else
    let e := e10 - 1
    let frac := if 1 < ds.length then '.' :: ds.drop 1 else []
    ds.take 1 ++ frac ++ ['e', if e < 0 then '-' else '+'] ++ (toString e.natAbs).toList

/-- The digits of a double and the place of its point. -/
def digitsOf : Double → List Char × ℤ
  | .fin _ m => Double.shortest m
  | _ => ([], 0)

/-- `num_to_str`. -/
def numToStr (n : Double) : String :=
  if n.isNan then "NaN"
  else if n.eq .zero then "0"
  else if n.isInfinite then if n.gt .zero then "Infinity" else "-Infinity"
  else if n.isInt && n.abs.lt (.ofNat (10 ^ 21)) then toString (n.toI 128)
  else
    let body := numLayout (digitsOf n).1 (digitsOf n).2
    String.ofList (if n.lt .zero then '-' :: body else body)

/-- `math` on `Pow`; `pow` is the power of the library. -/
def mathPow (pow : Double → Double → Double) (x y : Double) : Double :=
  if y.isNan || (x.abs.eq .one && y.isInfinite) then .nan else pow x y

/-! ## Values -/

inductive MathFn
  | floor | ceil | round | trunc | abs | sign | min | max | pow | sqrt | cbrt | sin | cos | tan
  | asin | acos | atan | atan2 | sinh | cosh | tanh | exp | expm1 | log | log2 | log10 | log1p
  | hypot | imul | fround | clz32
  deriving DecidableEq, Repr

inductive Nat
  | arrayFrom | arrayOf | objEntries | objValues | objAssign | objCreate | objFromEntries
  | objOwnNames | objDefine | objDefineProps | objGetProto | isInteger | isSafeInteger | numIsNaN
  | numIsFinite | fromCodePoint | sort | toSorted | toReversed | with_ | reduceRight | findLast
  | findLastIndex | at_ | flat | flatMap | copyWithin | arrKeys | arrValues | arrEntries
  | iterNext | trimStart | trimEnd | normalize | regExp | regexTest | regexExec | search | match_
  | replace | replaceAll | apply | call | bind | slice | concat | push | pop | shift | unshift
  | splice | reverse | indexOf | lastIndexOf | includes | join | fill | forEach | map | filter
  | reduce | some | every | find | findIndex | charCodeAt | charAt | codePointAt | split
  | substring | substr | toUpper | toLower | trim | startsWith | endsWith | repeat_ | padStart
  | padEnd | toString | valueOf | toFixed | hasOwn | math (f : MathFn) | mathNs | array | isArray
  | object | keys | freeze | boolean | number | string | fromCharCode | parseInt | parseFloat
  | isNaN | isFinite | date | dateNow | promise | promiseAll | promiseResolve | promiseReject
  | promiseRace | then_ | catch_ | settle (id : ℕ) (ok : Bool) | error | typeError | arrayProto
  | stringProto | objectProto | functionProto | numberProto | functionCtor | reflectNs
  | reflectApply | reflectConstruct | reflectGet | reflectSet | reflectHas | reflectOwnKeys
  | regenNs | regenMark | regenWrap | genNext | genIter | symbolCtor | ctxStop | ctxAbrupt
  | genContinue
  deriving DecidableEq, Repr

inductive Val
  | undef
  | null
  | bool (b : Bool)
  | num (n : Double)
  | str (s : String)
  | obj (id : ℕ)
  | nat (n : Nat)
  | global
  | scope (id : ℕ)
  deriving DecidableEq, Repr

inductive IterKind
  | keys | values | entries
  deriving DecidableEq, Repr

/-- `Obj`; the compiled expression of a `Regex` is given by its source and its flags. -/
inductive Obj
  | iter (src : ℕ) (kind : IterKind) (pos : ℕ)
  | arr (items : List Val)
  | plain (props : List (String × Val))
  | closure (entry scope : ℕ) (name arity : Val) (code : Option ℕ)
  | bound (target this : Val) (args : List Val)
  | error (name message : String)
  | promise (state : ℕ) (value : Val) (reactions : List (Val × Val × Option ℕ))
  | generator (inner this ctx : Val) (done : Bool)
  | opaque_ (props : List (String × Val))
  | regex (source flags : String) (lastIndex : Double)
  | accessor (get set : Val)
  deriving DecidableEq, Repr

inductive Fault
  | throw (text : String)
  | unsupported (what : String)
  | global (name : String)
  | method (name : String)
  | unbound (key : ℕ)
  | noFunction (entry : ℕ)
  | badJump (pc : ℕ)
  | pruned (pc : ℕ)
  | budget
  | depth
  deriving DecidableEq, Repr

inductive Err
  | throw (v : Val)
  | fault (f : Fault)
  | panic
  deriving DecidableEq, Repr

abbrev Res := Except Err

def unsupported {α : Type} (what : String) : Res α := .error (.fault (.unsupported what))

def truthy : Val → Bool
  | .undef | .null => false
  | .bool b => b
  | .num n => !n.eq .zero && !n.isNan
  | .str s => s ≠ ""
  | _ => true

namespace Val

def nullish : Val → Bool
  | .undef | .null => true
  | _ => false

/-- A number, a string or a boolean. -/
def isPlain : Val → Bool
  | .num _ | .str _ | .bool _ => true
  | _ => false

def isStr : Val → Bool
  | .str _ => true
  | _ => false

def isObj : Val → Bool
  | .obj _ => true
  | _ => false

end Val

/-! ## Coercions -/

/-- `to_num` of a value that is no object. -/
def primNum : Val → Double
  | .null => .zero
  | .bool b => ofBool b
  | .num n => n
  | .str s => strToNum s
  | _ => .nan

section Heap

variable (heap : List Obj)

/-- `self.heap[id]`. -/
def cell (id : ℕ) : Res Obj :=
  match heap[id]? with
  | some o => pure o
  | none => .error .panic

/-- `to_str`. -/
def toStr : ℕ → Val → Res String
  | _, .undef => pure "undefined"
  | _, .null => pure "null"
  | _, .bool b => pure (if b then "true" else "false")
  | _, .num n => pure (numToStr n)
  | _, .str s => pure s
  | 0, .obj _ => .error .panic
  | stack + 1, .obj id => do
    match ← cell heap id with
    | .arr items => do
      let texts ← items.mapM fun x => if x.nullish then pure "" else toStr stack x
      return ",".intercalate texts
    | .plain _ | .promise .. => return "[object Object]"
    | .generator .. => return "[object Generator]"
    | .iter .. => return "[object Array Iterator]"
    | .regex source flags _ => return "/" ++ source ++ "/" ++ flags
    | .error name message => return if message = "" then name else name ++ ": " ++ message
    | .opaque_ _ => unsupported "opaque value stringified"
    | .accessor .. => unsupported "accessor stringified"
    | .closure .. | .bound .. => unsupported "function stringified"
  | _, .global => pure "[object Window]"
  | _, .nat _ => unsupported "native stringified"
  | _, .scope _ => unsupported "scope stringified"

variable (stack : ℕ)

/-- `to_prim`. -/
def toPrim (v : Val) : Res Val :=
  match v with
  | .obj id => do
    match ← cell heap id with
    | .accessor .. => unsupported "accessor coerced"
    | .opaque_ _ => unsupported "opaque value coerced"
    | .closure .. | .bound .. => unsupported "function coerced to primitive"
    | _ => return .str (← toStr heap stack v)
  | .nat _ => unsupported "native coerced to primitive"
  | .global => pure (.str "[object Window]")
  | .scope _ => unsupported "scope coerced"
  | other => pure other

/-- `to_num`. -/
def toNum (v : Val) : Res Double :=
  if v.isObj then do
    let p ← toPrim heap stack v
    if p.isObj then unsupported "object to number" else return primNum p
  else pure (primNum v)

/-- `key_str`. -/
def keyStr (k : Val) : Res String := toStr heap stack k

def strictEq : Val → Val → Bool
  | .undef, .undef | .null, .null | .global, .global => true
  | .bool a, .bool b => a = b
  | .num a, .num b => a.eq b
  | .str a, .str b => a = b
  | .obj a, .obj b | .scope a, .scope b => a = b
  | .nat a, .nat b => a = b
  | _, _ => false

/-- `loose_eq` of two values of which none is an object next to a plain one. -/
def looseEqPrim (l r : Val) : Res Bool :=
  if l.nullish && r.nullish then pure true
  else if l.nullish || r.nullish then pure false
  else if l.isStr && r.isStr then pure (strictEq l r)
  else if l.isPlain && r.isPlain then do
    return (← toNum heap stack l).eq (← toNum heap stack r)
  else pure (strictEq l r)

/-- `loose_eq`.  The primitive value of an object is no object, so one call suffices. -/
def looseEq (l r : Val) : Res Bool :=
  if l.isObj && r.isPlain then do looseEqPrim heap stack (← toPrim heap stack l) r
  else if l.isPlain && r.isObj then do looseEqPrim heap stack l (← toPrim heap stack r)
  else looseEqPrim heap stack l r

/-- `str::is_ascii`. -/
def isAscii (s : String) : Bool := s.toList.all fun c => c.toNat < 128

/-- The bytes of an ASCII string, and the units of any other. -/
def textOrder (a b : String) : Ordering :=
  if isAscii a && isAscii b then compare (a.toList.map Char.toNat) (b.toList.map Char.toNat)
  else compare (Lib.Text.encodeUtf16 a) (Lib.Text.encodeUtf16 b)

/-- `<`, `<=`, `>` and `>=`, on an order by `ord` and on numbers by `nums`. -/
def compareBy (ord : Ordering → Bool) (nums : Double → Double → Bool) (l r : Val) : Res Val := do
  let a ← toPrim heap stack l
  let b ← toPrim heap stack r
  match a, b with
  | .str x, .str y => return .bool (ord (textOrder x y))
  | _, _ => return .bool (nums (← toNum heap stack a) (← toNum heap stack b))

/-- `+`. -/
def addition (l r : Val) : Res Val := do
  let a ← toPrim heap stack l
  let b ← toPrim heap stack r
  if a.isStr || b.isStr then return .str ((← toStr heap stack a) ++ (← toStr heap stack b))
  else return .num ((← toNum heap stack a).add (← toNum heap stack b))

/-- `%`. -/
def remainder (a b : Double) : Double := if b.isInfinite && a.isFinite then a else a.rem b

/-- `instanceof`. -/
def instanceOf (l r : Val) : Res Bool := do
  match l, r with
  | .obj id, .nat n => do
    match ← cell heap id, n with
    | .arr _, .array | .arr _, .object | .error .., .error | .error .., .object
    | .promise .., .promise | .promise .., .object | .plain _, .object | .closure .., .object
    | .bound .., .object => return true
    | .error name _, .typeError => return name = "TypeError"
    | _, _ => return false
  | _, .nat _ => return false
  | _, _ => unsupported "instanceof operand"

/-- `binary`.  `pow` is the power of the library, and `has` says whether a value has a
property. -/
def binary (pow : Double → Double → Double) (has : Val → String → Res Bool) (op : BinaryOperator)
    (l r : Val) : Res Val := do
  let arith (f : Double → Double → Double) : Res Val := do
    return .num (f (← toNum heap stack l) (← toNum heap stack r))
  match op with
  | .addition =>
    match l, r with
    | .num a, .num b => pure (.num (a.add b))
    | _, _ => addition heap stack l r
  | .subtraction => arith Double.sub
  | .multiplication => arith Double.mul
  | .division => arith Double.div
  | .remainder => arith remainder
  | .exponential => arith (mathPow pow)
  | .bitwiseAnd => arith fun a b => ofI32 (toInt32 a &&& toInt32 b)
  | .bitwiseOR => arith fun a b => ofI32 (toInt32 a ||| toInt32 b)
  | .bitwiseXOR => arith fun a b => ofI32 (toInt32 a ^^^ toInt32 b)
  | .shiftLeft => arith fun a b => ofI32 (toInt32 a <<< shiftCount (toUint32 b))
  | .shiftRight => arith fun a b => ofI32 ((toInt32 a).sshiftRight (shiftCount (toUint32 b)))
  | .shiftRightZeroFill => arith fun a b => ofU32 (toUint32 a >>> shiftCount (toUint32 b))
  | .lessThan => compareBy heap stack Ordering.isLT Double.lt l r
  | .lessEqualThan => compareBy heap stack Ordering.isLE Double.le l r
  | .greaterThan => compareBy heap stack Ordering.isGT Double.gt l r
  | .greaterEqualThan => compareBy heap stack Ordering.isGE Double.ge l r
  | .strictEquality => pure (.bool (strictEq l r))
  | .strictInequality => pure (.bool !strictEq l r)
  | .equality => return .bool (← looseEq heap stack l r)
  | .inequality => return .bool !(← looseEq heap stack l r)
  | .inOp => do return .bool (← has r (← keyStr heap stack l))
  | .instanceof => return .bool (← instanceOf heap l r)

end Heap
end Interp
end Lunar
