/-
# Compiled functions

`payload/exec.rs`: `CFunc` and `Summary`, the arithmetic on two numbers that compiled
code has for itself (`num_cmp`, `num_binary`), and `resolve_static`, which turns the
key of a variable into the number of scopes to go out and a slot there.

The parent of a function is the function whose scopes its own scopes lie in, so the
functions around it are a chain (`outer`).  `hops` is a `u16` that wraps.
-/

import Lunar.Payload.Interp.Value

namespace Lunar
namespace Interp

open Lib (Double)
open Exec (F64 Op BinaryOperator)
open Fold (toInt32 toUint32 ofI32 ofU32 shiftCount)

/-- The size of a `u16`. -/
def U16 : ℕ := 65536

def MAX_ARRAY : ℕ := 2 ^ 24

/-! ## Numbers -/

/-- `num_cmp`. -/
def numCmp (op : BinaryOperator) (x y : Double) : Bool :=
  match op with
  | .strictEquality | .equality => x.eq y
  | .strictInequality | .inequality => !x.eq y
  | .lessThan => x.lt y
  | .lessEqualThan => x.le y
  | .greaterThan => x.gt y
  | _ => x.ge y

/-- `num_binary`. -/
def numBinary (op : BinaryOperator) (x y : Double) : Option Val :=
  match op with
  | .addition => some (.num (x.add y))
  | .subtraction => some (.num (x.sub y))
  | .multiplication => some (.num (x.mul y))
  | .division => some (.num (x.div y))
  | .remainder => some (.num (remainder x y))
  | .lessThan => some (.bool (x.lt y))
  | .lessEqualThan => some (.bool (x.le y))
  | .greaterThan => some (.bool (x.gt y))
  | .greaterEqualThan => some (.bool (x.ge y))
  | .strictEquality | .equality => some (.bool (x.eq y))
  | .strictInequality | .inequality => some (.bool !x.eq y)
  | .bitwiseAnd => some (.num (ofI32 (toInt32 x &&& toInt32 y)))
  | .bitwiseOR => some (.num (ofI32 (toInt32 x ||| toInt32 y)))
  | .bitwiseXOR => some (.num (ofI32 (toInt32 x ^^^ toInt32 y)))
  | .shiftLeft => some (.num (ofI32 (toInt32 x <<< shiftCount (toUint32 y))))
  | .shiftRight => some (.num (ofI32 ((toInt32 x).sshiftRight (shiftCount (toUint32 y)))))
  | .shiftRightZeroFill => some (.num (ofU32 (toUint32 x >>> shiftCount (toUint32 y))))
  | _ => none

/-- A whole number from zero on. -/
def isIndex (n : Double) : Bool := n.ge .zero && n.isInt

/-! ## Functions -/

/-- `Summary`: what a call comes to when its body need not be run. -/
inductive Summary
  | const (v : Val)
  | arg
  | not
  | notNot
  deriving DecidableEq, Repr

/-- `CFunc`.  `sorted` is in the order of the declarations: a search in it finds the
one entry of a key in any order, and so with `pcs`. -/
structure CFunc where
  init : List (Option Val)
  sorted : List (ℕ × ℕ)
  parent : Option ℕ
  nregs : ℕ
  nslots : ℕ
  usesArgs : Bool
  ops : List Op
  consts : List Val
  lists : List ℕ
  pcs : List (ℕ × ℕ)
  entryIp : ℕ
  leaf : Bool
  summary : Option Summary
  deriving DecidableEq, Repr

/-- The entry of a key in a table. -/
def entryOf (table : List (ℕ × ℕ)) (key : ℕ) : Option ℕ := (table.find? (·.1 = key)).map (·.2)

/-- The slot of the variable `key` that the function declares. -/
def CFunc.slotOf (f : CFunc) (key : ℕ) : Option ℕ := entryOf f.sorted key

/-- `ip_of`. -/
def CFunc.ipOf (f : CFunc) (pc : ℕ) : Res ℕ :=
  match entryOf f.pcs pc with
  | some ip => pure ip
  | none => .error (.fault (.badJump pc))

/-- The functions from `p` outwards.  A parent is older than its child, so `fuel` is the
number of functions. -/
def outer (cfuncs : List CFunc) : ℕ → Option ℕ → List CFunc
  | 0, _ | _, none => []
  | fuel + 1, some p =>
      match cfuncs[p]? with
      | none => []
      | some f => f :: outer cfuncs fuel f.parent

/-- The first function of a chain that declares `key`: how many stand before it, and
the slot. -/
def declarer (key : ℕ) : List CFunc → Option (ℕ × ℕ)
  | [] => none
  | f :: fs =>
      match f.slotOf key with
      | some slot => some (0, slot)
      | none => (declarer key fs).map fun r => (r.1 + 1, r.2)

/-- `resolve_static`, with the function's own slots and the functions around it. -/
def resolveStatic (own : List (ℕ × ℕ)) (around : List CFunc) (key : ℕ) : Option (ℕ × ℕ) :=
  match entryOf own key with
  | some slot => some (0, slot)
  | none => (declarer key around).map fun r => ((r.1 + 1) % U16, r.2)

/-- `Op::Closure` and `Op::ScopeRef`: the ops that let a scope outlive its call. -/
def captures : Op → Bool
  | .closure .. | .scopeRef _ => true
  | _ => false

end Interp
end Lunar
