/-
# The register code of a compiled function

`payload/exec.rs`: `Op` and the functions that read one op: `op_def`, `op_uses`,
`op_pure`, `op_safe` and `retarget`.  A double is its 64 bits; a set of registers
is a mask of 128 bits, as in the source.
-/

import Mathlib.Data.Nat.Notation

namespace Lunar
namespace Exec

inductive UnaryOperator
  | unaryNegation | unaryPlus | logicalNot | bitwiseNot | typeof | void | delete
  deriving DecidableEq, Repr

inductive BinaryOperator
  | equality | inequality | strictEquality | strictInequality | lessThan | lessEqualThan
  | greaterThan | greaterEqualThan | addition | subtraction | multiplication | division
  | remainder | exponential | shiftLeft | shiftRight | shiftRightZeroFill | bitwiseOR
  | bitwiseXOR | bitwiseAnd | inOp | instanceof
  deriving DecidableEq, Repr

/-- `ir::Runtime`. -/
inductive Runtime
  | global | code | dispatch | metaKey | regenerator
  | ctx (a b : ℕ)
  deriving DecidableEq, Repr

abbrev F64 := BitVec 64

/-- A set of registers: bit `r` stands for register `r`. -/
abbrev Mask := BitVec 128

def NOSLOT : ℕ := 65535

/-- `Op`. -/
inductive Op
  | num (d : ℕ) (n : F64)
  | const (d c : ℕ)
  | move (d s : ℕ)
  | varS (d hops slot key : ℕ)
  | varD (d key : ℕ)
  | localS (d slot : ℕ)
  | localD (d key : ℕ)
  | this (d : ℕ)
  | callee (d : ℕ)
  | scopeRef (d : ℕ)
  | excRec (d : ℕ)
  | exc (d : ℕ)
  | global (d : ℕ)
  | runtime (d : ℕ) (r : Runtime)
  | name (d c : ℕ)
  | frameField (d id : ℕ)
  | scopeField (d id : ℕ)
  | member (d o k : ℕ)
  | memberK (d o c : ℕ)
  | call (d f this a n : ℕ)
  | new (d f a n : ℕ)
  | apply (d f t a : ℕ)
  | applyL (d f t th a n : ℕ)
  | construct (d f a : ℕ)
  | unary (d : ℕ) (op : UnaryOperator) (a : ℕ)
  | binary (d : ℕ) (op : BinaryOperator) (a b : ℕ)
  | binK (d : ℕ) (op : BinaryOperator) (a : ℕ) (n : F64)
  | kBin (d : ℕ) (op : BinaryOperator) (n : F64) (b : ℕ)
  | array (d a n : ℕ)
  | object (d a n : ℕ)
  | closure (d entry name arity : ℕ)
  | keys (d a : ℕ)
  | jf (c tgt : ℕ)
  | jt (c tgt : ℕ)
  | jn (c tgt : ℕ)
  | j (tgt : ℕ)
  | setProp (o k v : ℕ)
  | setVarS (hops slot key v : ℕ)
  | setVarD (key v : ℕ)
  | decl (slot v : ℕ)
  | setFrameField (id v : ℕ)
  | setScopeField (id v : ℕ)
  | setCatch (v : ℕ)
  | setFinally (v : ℕ)
  | jump (v : ℕ)
  | ret (v : ℕ)
  | throw (v : ℕ)
  | br (c : ℕ) (when : Bool) (thn els : ℕ)
  | brK (a : ℕ) (op : BinaryOperator) (n : F64) (when : Bool) (thn els : ℕ)
  | brVarK (hops slot key : ℕ) (op : BinaryOperator) (n : F64) (when : Bool) (thn els : ℕ)
  | setVarK (hops slot key : ℕ) (n : F64)
  | fail (why pc : ℕ)
  deriving DecidableEq, Repr

/-- `op_def`: the register that an op writes. -/
def opDef : Op → Option ℕ
  | .num d _ | .const d _ | .move d _ | .varS d _ _ _ | .varD d _ | .localS d _ | .localD d _
  | .this d | .callee d | .scopeRef d | .excRec d | .exc d | .global d | .runtime d _
  | .name d _ | .frameField d _ | .scopeField d _ | .member d _ _ | .memberK d _ _
  | .call d _ _ _ _ | .new d _ _ _ | .apply d _ _ _ | .applyL d _ _ _ _ _ | .construct d _ _
  | .unary d _ _ | .binary d _ _ _ | .binK d _ _ _ | .kBin d _ _ _ | .array d _ _
  | .object d _ _ | .closure d _ _ _ | .keys d _ => some d
  | _ => none

/-- The mask of one register; a register from 128 on has none. -/
def bit (r : ℕ) : Mask := if r < 128 then 1#128 <<< r else 0

/-- `lists[a..a + n]`. -/
def slice (lists : List ℕ) (a n : ℕ) : List ℕ := (lists.drop a).take n

def maskOf (rs : List ℕ) : Mask := rs.foldl (fun m r => m ||| bit r) 0

/-- `op_uses`: the registers that an op reads. -/
def opUses (lists : List ℕ) : Op → Mask
  | .move _ s => bit s
  | .member _ o k => bit o ||| bit k
  | .memberK _ o _ => bit o
  | .call _ f this a n => bit f ||| (if this = NOSLOT then 0 else bit this) |||
      maskOf (slice lists a n)
  | .new _ f a n => bit f ||| maskOf (slice lists a n)
  | .apply _ f t a => bit f ||| bit t ||| bit a
  | .applyL _ f t th a n => bit f ||| bit t ||| bit th ||| maskOf (slice lists a n)
  | .construct _ f a => bit f ||| bit a
  | .unary _ _ a | .binK _ _ a _ | .keys _ a | .brK a _ _ _ _ _ => bit a
  | .binary _ _ a b => bit a ||| bit b
  | .kBin _ _ _ b => bit b
  | .array _ a n | .object _ a n => maskOf (slice lists a n)
  | .closure _ _ name arity => bit name ||| bit arity
  | .jf c _ | .jt c _ | .jn c _ | .br c _ _ _ => bit c
  | .setProp o k v => bit o ||| bit k ||| bit v
  | .setVarS _ _ _ v | .setVarD _ v | .decl _ v | .setFrameField _ v | .setScopeField _ v
  | .setCatch v | .setFinally v | .jump v | .ret v | .throw v => bit v
  | _ => 0

/-- `op_pure`: the op only writes its register. -/
def opPure : Op → Bool
  | .num _ _ | .const _ _ | .move _ _ | .this _ | .callee _ | .localS _ _ | .scopeRef _
  | .excRec _ | .frameField _ _ | .global _ | .array _ _ _ => true
  | _ => false

/-- `op_safe`: the op does not throw. -/
def opSafe (op : Op) : Bool :=
  opPure op || match op with
    | .localD _ _ | .scopeField _ _ | .closure _ _ _ _ | .j _ | .jf _ _ | .jt _ _ | .jn _ _
    | .br _ _ _ _ | .decl _ _ | .setFrameField _ _ | .setScopeField _ _ | .setCatch _
    | .setFinally _ | .fail _ _ => true
    | _ => false

/-- `retarget`: the targets of a jump or a branch mapped. -/
def retarget (f : ℕ → ℕ) : Op → Op
  | .j tgt => .j (f tgt)
  | .jf c tgt => .jf c (f tgt)
  | .jt c tgt => .jt c (f tgt)
  | .jn c tgt => .jn c (f tgt)
  | .br c w thn els => .br c w (f thn) (f els)
  | .brK a op n w thn els => .brK a op n w (f thn) (f els)
  | .brVarK hops slot key op n w thn els => .brVarK hops slot key op n w (f thn) (f els)
  | other => other

end Exec
end Lunar
