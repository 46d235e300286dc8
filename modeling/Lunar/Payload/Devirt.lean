/-
# The devirtualised program

`payload/devirt.rs` and `payload/ir.rs`: the expressions, statements, blocks and
functions that `exec.rs` compiles.  The source keeps them in tables and refers to
them by number; here an expression holds its parts, a body is the list of its
statements, and a string stands for its id.  Only blocks are still referred to by
number, since a function may jump to any of them.
-/

import Mathlib.Data.Nat.Notation
import Lunar.Payload.Ir

namespace Lunar
namespace Devirt

open Exec (F64 UnaryOperator BinaryOperator Runtime)
open Ir (LogicalOperator)

/-- `ir::Expr`. -/
inductive Expr
  | undef
  | null
  | bool (b : Bool)
  | num (n : F64)
  | lit (s : String)
  | slot (k : ℕ)
  | reg (r : ℕ)
  | frame
  | scope
  | this
  | callee
  | exception
  | excRecord
  | runtime (r : Runtime)
  | name (s : String)
  | var (k : Expr)
  | scopeVar (k : Expr)
  | frameField (f : String)
  | scopeField (f : String)
  | member (o k : Expr)
  | call (c : Expr) (args : List Expr)
  | new (c : Expr) (args : List Expr)
  | apply (callee this args : Expr)
  | construct (callee args : Expr)
  | unary (op : UnaryOperator) (a : Expr)
  | binary (op : BinaryOperator) (a b : Expr)
  | logical (op : LogicalOperator) (a b : Expr)
  | cond (c a b : Expr)
  | array (items : List Expr)
  | object (items : List Expr)
  | closure (entry name arity : Expr)
  | keys (a : Expr)
  deriving Repr

/-- `Expr::for_each_child`. -/
def Expr.children : Expr → List Expr
  | .var a | .scopeVar a | .unary _ a | .keys a => [a]
  | .member a b | .binary _ a b | .logical _ a b => [a, b]
  | .cond c a b => [c, a, b]
  | .call c args | .new c args => c :: args
  | .apply callee this args => [callee, this, args]
  | .construct callee args => [callee, args]
  | .array items | .object items => items
  | .closure e n r => [e, n, r]
  | _ => []

/-- `ir::Stmt`; `If` is `cond`. -/
inductive Stmt
  | setDest (slot : ℕ) (val : Expr)
  | setReg (reg : ℕ) (val : Expr)
  | setProp (obj key val : Expr)
  | setVar (key val : Expr)
  | declVar (key val : Expr)
  | setFrameField (field : String) (val : Expr)
  | setScopeField (field : String) (val : Expr)
  | setCatch (x : Expr)
  | setFinally (x : Expr)
  | eval (x : Expr)
  | cond (c : Expr) (thn els : List Stmt)
  | jump (x : Expr)
  | ret (x : Expr)
  | throw (x : Expr)
  | halt
  deriving Repr

/-- `Stmt::for_each_expr`. -/
def Stmt.exprs : Stmt → List Expr
  | .setDest _ val | .setReg _ val | .setFrameField _ val | .setScopeField _ val => [val]
  | .setProp obj key val => [obj, key, val]
  | .setVar key val | .declVar key val => [key, val]
  | .setCatch x | .setFinally x | .eval x | .cond x _ _ | .jump x | .ret x | .throw x => [x]
  | .halt => []

/-- `DTerm`. -/
inductive Term
  | goto (t : ℕ)
  | branch (cond : Expr) (when : Bool) (thn els : ℕ)
  | exit
  | dynamic (fall : Option ℕ)
  | invalid
  deriving Repr

/-- `DBlock`. -/
structure Block where
  pc : ℕ
  body : List Stmt
  term : Term
  live : Bool
  deriving Repr

/-- `DFunc`: its blocks are those from number `start` on. -/
structure Func where
  entry : ℕ
  start : ℕ
  blocks : List Block
  deriving Repr

/-- Block number `t`, when it is one of the function's own. -/
def Func.block? (f : Func) (t : ℕ) : Option Block :=
  if f.start ≤ t then f.blocks[t - f.start]? else none

end Devirt
end Lunar
