/-
# Compaction of a lifted handler

`payload/lift.rs` (`push`, `span`, `flatten`, `compact`) and `payload/ir.rs` (`for_each_child`,
`remap`, `for_each_expr`, `map_exprs`).  The expressions of a handler are pushed one by one, so the
parts of an expression are there before it (`Arena`).  When it is lifted its nested statements are
laid out in one list, and the expressions that no statement leads to are dropped; the rest move to
new ids.

`none` is a panic, or a loop that has not ended.  The ids that `remap` and `map_exprs` look up have
been marked before, so these never look beyond the map.
-/

import Lunar.Lib.Sweep
import Lunar.Payload.Ir

namespace Lunar
namespace Ir

def ExprId.MAX : ExprId := 2 ^ 32 - 1

/-- `src[sp.range()]`. -/
def Span.slice {α : Type} (sp : Span) (src : List α) : Option (List α) :=
  if sp.start + sp.len ≤ src.length then some ((src.drop sp.start).take sp.len) else none

theorem Span.slice_append {α : Type} {sp : Span} {src ids : List α} (h : sp.slice src = some ids)
    (more : List α) : sp.slice (src ++ more) = some ids := by
  rw [slice] at h ⊢
  split at h
  · next hle =>
      have hdrop : sp.start ≤ src.length := by omega
      have htake : sp.len ≤ (src.drop sp.start).length := by
        rw [List.length_drop]
        omega
      rw [if_pos (by rw [List.length_append]; omega), List.drop_append_of_le_length hdrop,
        List.take_append_of_le_length htake, h]
  · cases h

/-- What has just been appended. -/
theorem Span.slice_last {α : Type} (src ids : List α) :
    Span.slice ⟨src.length, ids.length⟩ (src ++ ids) = some ids := by
  rw [slice, if_pos (by rw [List.length_append]), List.drop_left, List.take_length]

namespace Expr

/-- `Expr::for_each_child`. -/
def forEachChild (args : List ExprId) : Expr → Option (List ExprId)
  | .var a | .scopeVar a | .unary _ a | .keys a => some [a]
  | .member a b | .binary _ a b | .logical _ a b => some [a, b]
  | .cond c a b => some [c, a, b]
  | .call c sp | .new c sp => (sp.slice args).map (c :: ·)
  | .apply c t a => some [c, t, a]
  | .construct c a => some [c, a]
  | .array sp | .object sp => sp.slice args
  | .closure e n a => some [e, n, a]
  | _ => some []

/-- Args that are appended change no children. -/
theorem forEachChild_append {e : Expr} {args children : List ExprId}
    (h : e.forEachChild args = some children) (more : List ExprId) :
    e.forEachChild (args ++ more) = some children := by
  cases e with
  | call c sp | new c sp =>
      obtain ⟨ids, hids, rfl⟩ := Option.map_eq_some_iff.1 h
      exact congrArg (Option.map (c :: ·)) (Span.slice_append hids more)
  | array sp | object sp => exact Span.slice_append h more
  | _ => exact h

/-- The closure `span` of `remap`. -/
def remapSpan (src dst : List ExprId) (f : ExprId → ExprId) (sp : Span) :
    Option (Span × List ExprId) :=
  (sp.slice src).map fun ids => (⟨dst.length, sp.len⟩, dst ++ ids.map f)

/-- `Expr::remap`. -/
def remap (src dst : List ExprId) (f : ExprId → ExprId) : Expr → Option (Expr × List ExprId)
  | .var a => some (.var (f a), dst)
  | .scopeVar a => some (.scopeVar (f a), dst)
  | .unary op a => some (.unary op (f a), dst)
  | .keys a => some (.keys (f a), dst)
  | .member a b => some (.member (f a) (f b), dst)
  | .binary op a b => some (.binary op (f a) (f b), dst)
  | .logical op a b => some (.logical op (f a) (f b), dst)
  | .cond c a b => some (.cond (f c) (f a) (f b), dst)
  | .call c sp => (remapSpan src dst f sp).map fun (sp, dst) => (.call (f c) sp, dst)
  | .new c sp => (remapSpan src dst f sp).map fun (sp, dst) => (.new (f c) sp, dst)
  | .apply c t a => some (.apply (f c) (f t) (f a), dst)
  | .construct c a => some (.construct (f c) (f a), dst)
  | .array sp => (remapSpan src dst f sp).map fun (sp, dst) => (.array sp, dst)
  | .object sp => (remapSpan src dst f sp).map fun (sp, dst) => (.object sp, dst)
  | .closure e n a => some (.closure (f e) (f n) (f a), dst)
  | leaf => some (leaf, dst)

/-- An expression without the ids of its children. -/
def kind : Expr → Expr
  | .var _ => .var 0
  | .scopeVar _ => .scopeVar 0
  | .unary op _ => .unary op 0
  | .keys _ => .keys 0
  | .member _ _ => .member 0 0
  | .binary op _ _ => .binary op 0 0
  | .logical op _ _ => .logical op 0 0
  | .cond _ _ _ => .cond 0 0 0
  | .call _ sp => .call 0 ⟨0, sp.len⟩
  | .new _ sp => .new 0 ⟨0, sp.len⟩
  | .apply _ _ _ => .apply 0 0 0
  | .construct _ _ => .construct 0 0
  | .array sp => .array ⟨0, sp.len⟩
  | .object sp => .object ⟨0, sp.len⟩
  | .closure _ _ _ => .closure 0 0 0
  | leaf => leaf

end Expr

namespace Stmt

/-- `Stmt::for_each_expr`. -/
def forEachExpr : Stmt → List ExprId
  | .setDest _ val | .setReg _ val | .setFrameField _ val | .setScopeField _ val => [val]
  | .setProp obj key val => [obj, key, val]
  | .setVar key val | .declVar key val => [key, val]
  | .setCatch v | .setFinally v | .eval v | .jump v | .ret v | .throw v | .cond v _ _ => [v]
  | .halt => []

/-- `Stmt::map_exprs`. -/
def mapExprs (f : ExprId → ExprId) : Stmt → Stmt
  | .setDest slot val => .setDest slot (f val)
  | .setReg reg val => .setReg reg (f val)
  | .setFrameField field val => .setFrameField field (f val)
  | .setScopeField field val => .setScopeField field (f val)
  | .setProp obj key val => .setProp (f obj) (f key) (f val)
  | .setVar key val => .setVar (f key) (f val)
  | .declVar key val => .declVar (f key) (f val)
  | .setCatch v => .setCatch (f v)
  | .setFinally v => .setFinally (f v)
  | .eval v => .eval (f v)
  | .jump v => .jump (f v)
  | .ret v => .ret (f v)
  | .throw v => .throw (f v)
  | .cond c thn els => .cond (f c) thn els
  | .halt => .halt

end Stmt
end Ir

namespace Lift

open Ir (Expr Stmt Span Branch ExprId)

/-- `LStmt`; `If` is `cond`. -/
inductive LStmt
  | s (st : Stmt)
  | cond (c : ExprId) (thn els : List LStmt)

/-! ## Nested statements in one list -/

/-- The end of `flatten`: its own statements go behind those that are there. -/
def place (r : List Stmt × List Stmt) : Span × List Stmt :=
  (⟨r.2.length, r.1.length⟩, r.2 ++ r.1)

mutual

/-- A turn of the loop of `flatten`: the statement, and the list with those nested in it. -/
def LStmt.lower : LStmt → List Stmt → Stmt × List Stmt
  | .s st, stmts => (st, stmts)
  | .cond c thn els, stmts =>
    let (thn, stmts) := place (lowerAll thn stmts)
    let (els, stmts) := place (lowerAll els stmts)
    (.cond c thn els, stmts)

/-- The loop of `flatten`: its own statements, and the list with those nested in them. -/
def lowerAll : List LStmt → List Stmt → List Stmt × List Stmt
  | [], stmts => ([], stmts)
  | s :: list, stmts =>
    let (st, stmts) := s.lower stmts
    let (own, stmts) := lowerAll list stmts
    (st :: own, stmts)

end

/-- `flatten`. -/
def flatten (list : List LStmt) (stmts : List Stmt) : Span × List Stmt :=
  place (lowerAll list stmts)

/-! ## Compaction -/

/-- The first loop of `compact`, for at most `fuel` ids taken.  The stack has its top in front. -/
def mark (exprs : List Expr) (args : List ExprId) :
    ℕ → List ExprId → (ExprId → Bool) → Option (ExprId → Bool)
  | _, [], live => some live
  | 0, _ :: _, _ => none
  | fuel + 1, x :: stack, live =>
    if live x then mark exprs args fuel stack live
    else do
      let e ← exprs[x]?
      let children ← e.forEachChild args
      mark exprs args fuel (children.reverse ++ stack) (Function.update live x true)

/-- What the second loop of `compact` has built: the new ids, the expressions and their args. -/
structure Moved where
  map : ExprId → ExprId
  out : List Expr
  outArgs : List ExprId

/-- A turn of the second loop of `compact`. -/
def move (args : List ExprId) (live : ExprId → Bool) (m : Moved) (e : Expr × ℕ) : Option Moved :=
  if live e.2 then do
    let (ne, outArgs) ← e.1.remap args m.outArgs m.map
    return ⟨Function.update m.map e.2 m.out.length, m.out ++ [ne], outArgs⟩
  else some m

/-- The ids on the stack of `compact` at first. -/
def roots (stmts : List Stmt) (branch : Option Branch) : List ExprId :=
  stmts.flatMap Stmt.forEachExpr ++ branch.toList.map Branch.cond

/-- The children of an expression of the arena. -/
def parts (exprs : List Expr) (args : List ExprId) (x : ExprId) : List ExprId :=
  ((exprs[x]?).bind (Expr.forEachChild args)).getD []

/-- The ids that are taken from the stack, at most. -/
def visits (exprs : List Expr) (args stack : List ExprId) : ℕ :=
  stack.length + Lib.ahead (parts exprs args) true exprs.length fun _ => false

/-- `compact`. -/
def compact (exprs : List Expr) (args : List ExprId) (stmts : List Stmt) (branch : Option Branch) :
    Option (List Expr × List ExprId × List Stmt × Option Branch) := do
  let stack := roots stmts branch
  let live ← mark exprs args (visits exprs args stack) stack.reverse fun _ => false
  let m ← exprs.zipIdx.foldlM (move args live) ⟨fun _ => .MAX, [], []⟩
  return (m.out, m.outArgs, stmts.map (·.mapExprs m.map),
    branch.map fun b => { b with cond := m.map b.cond })

/-! ## The arena -/

/-- The expressions and the args of a lifter. -/
structure Arena where
  exprs : List Expr
  args : List ExprId
  /-- The children of an expression have been pushed before it. -/
  older : ∀ x (e : Expr), exprs[x]? = some e → ∃ children, e.forEachChild args = some children ∧
    ∀ c ∈ children, c < x

namespace Arena

def empty : Arena := ⟨[], [], nofun⟩

/-- `Lifter::push`, of an expression whose children have been pushed. -/
def push (a : Arena) (e : Expr) (h : ∃ children, e.forEachChild a.args = some children ∧
    ∀ c ∈ children, c < a.exprs.length) : Arena where
  exprs := a.exprs ++ [e]
  args := a.args
  older x e' hx := by
    rcases Nat.lt_or_ge x a.exprs.length with hlt | hge
    · exact a.older x e' (List.getElem?_append_left hlt ▸ hx)
    · have hlen := (List.getElem?_eq_some_iff.1 hx).1
      rw [List.length_append, List.length_singleton] at hlen
      obtain rfl := Nat.le_antisymm (Nat.le_of_lt_succ hlen) hge
      rw [List.getElem?_concat_length, Option.some.injEq] at hx
      exact hx ▸ h

/-- `Lifter::span`. -/
def span (a : Arena) (ids : List ExprId) : Span × Arena :=
  (⟨a.args.length, ids.length⟩, ⟨a.exprs, a.args ++ ids, fun x e hx => by
    obtain ⟨children, hchildren, hlt⟩ := a.older x e hx
    exact ⟨children, Expr.forEachChild_append hchildren ids, hlt⟩⟩)

end Arena
end Lift
end Lunar
