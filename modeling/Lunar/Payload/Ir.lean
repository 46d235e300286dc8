/-
# Templates of handlers

`payload/ir.rs`: the expressions and statements that a handler of the virtual
machine is lifted to, its template, and the operands of an instruction.
-/

import Lunar.Lib.Double
import Lunar.Payload.Exec.Op

namespace Lunar
namespace Ir

open Lib (Double)
open Exec (UnaryOperator BinaryOperator Runtime)

abbrev ExprId := ℕ

abbrev StrId := ℕ

/-- `Span32`. -/
structure Span where
  start : ℕ
  len : ℕ
  deriving DecidableEq, Repr

/-- `Span32::range`. -/
def Span.range (sp : Span) : List ℕ := List.range' sp.start sp.len

structure PoolRef where
  off : ℕ
  len : ℕ
  deriving DecidableEq, Repr

/-- `PoolRef::units`. -/
def PoolRef.units (r : PoolRef) (pool : List ℕ) : List ℕ :=
  if r.off + r.len ≤ pool.length then (pool.drop r.off).take r.len else []

inductive LogicalOperator
  | or | and | coalesce
  deriving DecidableEq, Repr

inductive Expr
  | undef
  | null
  | bool (b : Bool)
  | num (n : Double)
  | lit (s : StrId)
  | slot (k : ℕ)
  | reg (r : ℕ)
  | frame
  | scope
  | this
  | callee
  | exception
  | excRecord
  | runtime (r : Runtime)
  | name (s : StrId)
  | var (k : ExprId)
  | scopeVar (k : ExprId)
  | frameField (f : StrId)
  | scopeField (f : StrId)
  | member (o k : ExprId)
  | call (callee : ExprId) (sp : Span)
  | new (callee : ExprId) (sp : Span)
  | apply (callee this args : ExprId)
  | construct (callee args : ExprId)
  | unary (op : UnaryOperator) (a : ExprId)
  | binary (op : BinaryOperator) (a b : ExprId)
  | logical (op : LogicalOperator) (a b : ExprId)
  | cond (c a b : ExprId)
  | array (sp : Span)
  | object (sp : Span)
  | closure (entry name arity : ExprId)
  | keys (a : ExprId)
  deriving DecidableEq, Repr

inductive Stmt
  | setDest (slot : ℕ) (val : ExprId)
  | setReg (reg : ℕ) (val : ExprId)
  | setProp (obj key val : ExprId)
  | setVar (key val : ExprId)
  | declVar (key val : ExprId)
  | setFrameField (field : StrId) (val : ExprId)
  | setScopeField (field : StrId) (val : ExprId)
  | setCatch (v : ExprId)
  | setFinally (v : ExprId)
  | eval (e : ExprId)
  | cond (c : ExprId) (thn els : Span)
  | jump (e : ExprId)
  | ret (e : ExprId)
  | throw (e : ExprId)
  | halt
  deriving DecidableEq, Repr

inductive ReadKind
  | value | reg | dest | pc
  deriving DecidableEq, Repr

/-- `Seek`: before read `place` the cursor moves to the address in a slot. -/
structure Seek where
  place : ℕ
  slot : ℕ
  deriving DecidableEq, Repr

structure Branch where
  cond : ExprId
  when : Bool
  slot : ℕ
  deriving DecidableEq, Repr

structure Template where
  reads : List ReadKind
  seeks : List Seek
  branch : Option Branch
  falls : Bool
  dynamic : Bool := false
  closures : List ℕ := []
  targets : List ℕ := []
  exprs : List Expr
  args : List ExprId
  stmts : List Stmt
  body : Span
  deriving DecidableEq, Repr

inductive Operand
  | int (i : ℤ)
  | dbl (d : Double)
  | str (r : PoolRef)
  | true
  | false
  | null
  | undef
  | reg (r : ℤ)
  | dest (d : ℤ)
  | pc (p : ℕ)
  deriving DecidableEq, Repr

end Ir
end Lunar
