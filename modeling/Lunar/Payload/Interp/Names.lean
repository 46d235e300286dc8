/-
# The names that the interpreter knows

`payload/exec.rs`: `math_fn`, `math_const`, `method`, `global` and `native_prop`: the
built-in values that a name of a script stands for.
-/

import Lunar.Payload.Interp.Value

namespace Lunar
namespace Interp

open Lib (Double)

def ITER_KEY : String := "@@iterator"

def mathFn : String → Option MathFn
  | "floor" => some .floor
  | "ceil" => some .ceil
  | "round" => some .round
  | "trunc" => some .trunc
  | "abs" => some .abs
  | "sign" => some .sign
  | "min" => some .min
  | "max" => some .max
  | "pow" => some .pow
  | "sqrt" => some .sqrt
  | "cbrt" => some .cbrt
  | "sin" => some .sin
  | "cos" => some .cos
  | "tan" => some .tan
  | "asin" => some .asin
  | "acos" => some .acos
  | "atan" => some .atan
  | "atan2" => some .atan2
  | "sinh" => some .sinh
  | "cosh" => some .cosh
  | "tanh" => some .tanh
  | "exp" => some .exp
  | "expm1" => some .expm1
  | "log" => some .log
  | "log2" => some .log2
  | "log10" => some .log10
  | "log1p" => some .log1p
  | "hypot" => some .hypot
  | "imul" => some .imul
  | "fround" => some .fround
  | "clz32" => some .clz32
  | _ => none

/-- `math_const`; a constant of the library is given by its bits. -/
def mathConst : String → Option Double
  | "PI" => some (.ofBits 0x400921FB54442D18)
  | "E" => some (.ofBits 0x4005BF0A8B145769)
  | "LN2" => some (.ofBits 0x3FE62E42FEFA39EF)
  | "LN10" => some (.ofBits 0x40026BB1BBB55516)
  | "LOG2E" => some (.ofBits 0x3FF71547652B82FE)
  | "LOG10E" => some (.ofBits 0x3FDBCB7B1526E50E)
  | "SQRT2" => some (.ofBits 0x3FF6A09E667F3BCD)
  | "SQRT1_2" => some (.ofBits 0x3FE6A09E667F3BCD)
  | _ => none

def method : String → Option Nat
  | "apply" => some .apply
  | "call" => some .call
  | "bind" => some .bind
  | "slice" => some .slice
  | "concat" => some .concat
  | "push" => some .push
  | "pop" => some .pop
  | "shift" => some .shift
  | "unshift" => some .unshift
  | "splice" => some .splice
  | "reverse" => some .reverse
  | "indexOf" => some .indexOf
  | "lastIndexOf" => some .lastIndexOf
  | "includes" => some .includes
  | "join" => some .join
  | "fill" => some .fill
  | "forEach" => some .forEach
  | "map" => some .map
  | "filter" => some .filter
  | "reduce" => some .reduce
  | "some" => some .some
  | "every" => some .every
  | "find" => some .find
  | "findIndex" => some .findIndex
  | "charCodeAt" => some .charCodeAt
  | "charAt" => some .charAt
  | "codePointAt" => some .codePointAt
  | "split" => some .split
  | "substring" => some .substring
  | "substr" => some .substr
  | "toUpperCase" => some .toUpper
  | "toLowerCase" => some .toLower
  | "trim" => some .trim
  | "startsWith" => some .startsWith
  | "endsWith" => some .endsWith
  | "repeat" => some .repeat_
  | "padStart" => some .padStart
  | "padEnd" => some .padEnd
  | "toString" => some .toString
  | "valueOf" => some .valueOf
  | "toFixed" => some .toFixed
  | "hasOwnProperty" => some .hasOwn
  | "sort" => some .sort
  | "toSorted" => some .toSorted
  | "toReversed" => some .toReversed
  | "with" => some .with_
  | "reduceRight" => some .reduceRight
  | "findLast" => some .findLast
  | "findLastIndex" => some .findLastIndex
  | "at" => some .at_
  | "flat" => some .flat
  | "flatMap" => some .flatMap
  | "copyWithin" => some .copyWithin
  | "keys" => some .arrKeys
  | "values" => some .arrValues
  | "entries" => some .arrEntries
  | "trimStart" | "trimLeft" => some .trimStart
  | "trimEnd" | "trimRight" => some .trimEnd
  | "normalize" => some .normalize
  | _ => none

/-- A method as a value, `undefined` when there is none. -/
def methodVal (k : String) : Val := (method k).elim .undef .nat

/-- `global`. -/
def global : String → Res Val
  | "window" | "self" | "globalThis" | "top" | "parent" | "frames" => pure .global
  | "undefined" => pure .undef
  | "NaN" => pure (.num .nan)
  | "Infinity" => pure (.num (.inf false))
  | "Math" => pure (.nat .mathNs)
  | "Array" => pure (.nat .array)
  | "Object" => pure (.nat .object)
  | "Function" => pure (.nat .functionCtor)
  | "Reflect" => pure (.nat .reflectNs)
  | "Boolean" => pure (.nat .boolean)
  | "Number" => pure (.nat .number)
  | "String" => pure (.nat .string)
  | "parseInt" => pure (.nat .parseInt)
  | "parseFloat" => pure (.nat .parseFloat)
  | "isNaN" => pure (.nat .isNaN)
  | "isFinite" => pure (.nat .isFinite)
  | "Date" => pure (.nat .date)
  | "Promise" => pure (.nat .promise)
  | "Error" => pure (.nat .error)
  | "TypeError" => pure (.nat .typeError)
  | "RegExp" => pure (.nat .regExp)
  | "Symbol" => pure (.nat .symbolCtor)
  | name => .error (.fault (.global name))

/-- A property of `Math`. -/
def mathProp (k : String) : Res Val :=
  match mathFn k, mathConst k with
  | some f, _ => pure (.nat (.math f))
  | none, some c => pure (.num c)
  | none, none => if k = "random" then unsupported "Math.random" else pure Val.undef

/-- `native_prop`. -/
def nativeProp (n : Nat) (k : String) : Res Val :=
  match n, k with
  | .mathNs, _ => mathProp k
  | .reflectNs, "apply" => pure (.nat .reflectApply)
  | .reflectNs, "construct" => pure (.nat .reflectConstruct)
  | .reflectNs, "get" => pure (.nat .reflectGet)
  | .reflectNs, "set" => pure (.nat .reflectSet)
  | .reflectNs, "has" => pure (.nat .reflectHas)
  | .reflectNs, "ownKeys" => pure (.nat .reflectOwnKeys)
  | .array, "prototype" => pure (.nat .arrayProto)
  | .string, "prototype" => pure (.nat .stringProto)
  | .object, "prototype" => pure (.nat .objectProto)
  | .number, "prototype" => pure (.nat .numberProto)
  | .functionProto, "apply" | .functionProto, "call" | .functionProto, "bind"
  | .functionProto, "toString" => pure (methodVal k)
  | .arrayProto, _ | .stringProto, _ => pure (methodVal k)
  | .objectProto, "hasOwnProperty" | .objectProto, "toString" | .objectProto, "valueOf" =>
      pure (methodVal k)
  | .numberProto, "toString" | .numberProto, "toFixed" | .numberProto, "valueOf" =>
      pure (methodVal k)
  | .functionCtor, "prototype" => pure (.nat .functionProto)
  | _, "apply" => pure (.nat .apply)
  | _, "call" => pure (.nat .call)
  | _, "bind" => pure (.nat .bind)
  | .array, "isArray" => pure (.nat .isArray)
  | .array, "from" => pure (.nat .arrayFrom)
  | .array, "of" => pure (.nat .arrayOf)
  | .object, "keys" => pure (.nat .keys)
  | .object, "freeze" | .object, "seal" | .object, "preventExtensions" => pure (.nat .freeze)
  | .object, "entries" => pure (.nat .objEntries)
  | .object, "values" => pure (.nat .objValues)
  | .object, "assign" => pure (.nat .objAssign)
  | .object, "create" => pure (.nat .objCreate)
  | .object, "fromEntries" => pure (.nat .objFromEntries)
  | .object, "getOwnPropertyNames" => pure (.nat .objOwnNames)
  | .object, "defineProperty" => pure (.nat .objDefine)
  | .object, "defineProperties" => pure (.nat .objDefineProps)
  | .object, "getPrototypeOf" => pure (.nat .objGetProto)
  | .string, "fromCharCode" => pure (.nat .fromCharCode)
  | .string, "fromCodePoint" => pure (.nat .fromCodePoint)
  | .number, "isNaN" => pure (.nat .numIsNaN)
  | .number, "isFinite" => pure (.nat .numIsFinite)
  | .number, "isInteger" => pure (.nat .isInteger)
  | .number, "isSafeInteger" => pure (.nat .isSafeInteger)
  | .number, "parseInt" => pure (.nat .parseInt)
  | .number, "parseFloat" => pure (.nat .parseFloat)
  | .number, "MAX_SAFE_INTEGER" => pure (.num (.ofInt 9007199254740991))
  | .number, "MIN_SAFE_INTEGER" => pure (.num (.ofInt (-9007199254740991)))
  | .number, "EPSILON" => pure (.num (.ofBits 0x3CB0000000000000))
  | .number, "MAX_VALUE" => pure (.num (.ofBits 0x7FEFFFFFFFFFFFFF))
  | .number, "MIN_VALUE" => pure (.num (.ofBits 1))
  | .date, "now" => pure (.nat .dateNow)
  | .regenNs, "mark" => pure (.nat .regenMark)
  | .regenNs, "wrap" => pure (.nat .regenWrap)
  | .regenNs, _ => pure .undef
  | .symbolCtor, "iterator" => pure (.str ITER_KEY)
  | .promise, "all" => pure (.nat .promiseAll)
  | .promise, "resolve" => pure (.nat .promiseResolve)
  | .promise, "reject" => pure (.nat .promiseReject)
  | .promise, "race" => pure (.nat .promiseRace)
  | _, "length" => pure (.num .one)
  | _, _ => .error (.fault (.method k))

end Interp
end Lunar
