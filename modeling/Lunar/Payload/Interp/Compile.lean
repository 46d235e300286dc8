/-
# Compilation

`payload/exec.rs`: `thread` and `follow`, `lower_block`, and `compile` but for its cache:
the blocks of a function lowered one after the other, the declarations at its entry
hoisted, the targets of the jumps patched in, and the code optimised.
-/

import Lunar.Payload.Exec.Optimize
import Lunar.Payload.Interp.Lower
import Lunar.Payload.Interp.Summary

namespace Lunar
namespace Interp

open Lib (Double)
open Exec (F64 Op BinaryOperator NOSLOT)
open Devirt (Expr Stmt Term Block Func)
open LowerM

/-! ## Blocks -/

def cmpOp : BinaryOperator → Bool
  | .strictEquality | .strictInequality | .equality | .inequality | .lessThan | .lessEqualThan
  | .greaterThan | .greaterEqualThan => true
  | _ => false

/-- `thread`: where a jump to block `t` leads through empty blocks, in at most so many
hops. -/
def threadHops (f : Func) : ℕ → ℕ → ℕ
  | 0, t => t
  | hops + 1, t =>
      match f.block? t with
      | none => t
      | some b =>
          if !b.live || !b.body.isEmpty then t
          else
            match b.term with
            | .goto n | .dynamic (some n) => if n ≠ t then threadHops f hops n else t
            | _ => t

def thread (f : Func) (t : ℕ) : ℕ := threadHops f 32 t

/-- A condition without the negations around it. -/
def stripNot : Expr → Bool → Expr × Bool
  | .unary .logicalNot x, when => stripNot x !when
  | e, when => (e, when)

/-- The branch of block `b` when variable `key` is known to be `c` and the block only
compares it. -/
def knownBranch (b : Block) (key : ℕ) (c : F64) : Option ℕ :=
  match b.term with
  | .branch cond when thn els =>
      match stripNot cond when with
      | (.binary op (.var k) (.num n), when) =>
          if cmpOp op && numKey k = some key then
            some (if numCmp op (.ofBits c) (.ofBits n) = when then thn else els)
          else none
      | _ => none
  | _ => none

def followHops (f : Func) (key : ℕ) (c : F64) : ℕ → ℕ → ℕ
  | 0, t => t
  | hops + 1, t =>
      match f.block? t with
      | none => t
      | some b =>
          if !b.live || !b.body.isEmpty then t
          else
            match knownBranch b key c with
            | some next => followHops f key c hops (thread f next)
            | none => t

/-- `follow`. -/
def follow (f : Func) (t : ℕ) : Option (ℕ × F64) → ℕ
  | none => thread f t
  | some (key, c) => followHops f key c 64 (thread f t)

/-- The place of block `t` among the function's blocks. -/
def localBlock (f : Func) (t : ℕ) : Option ℕ :=
  if f.start ≤ t ∧ t < f.start + f.blocks.length then some (t - f.start) else none

/-- What the last statement of a body leaves known of a variable. -/
def knownAfter (st : Site) (body : List Stmt) : Option (ℕ × F64) :=
  match body.getLast? with
  | some (.setVar key (.num c)) =>
      match numKey key with
      | some k => if k ∈ st.keys then some (k, c) else none
      | none => none
  | _ => none

/-- An op whose targets are patched in when all blocks have their place. -/
def patched (op : Op) (targets : List (ℕ × Bool)) : LowerM Unit := do
  let at_ ← here
  modify fun lw => { lw with patches := lw.patches ++ targets.map fun t => (at_, t.1, t.2) }
  emit op

/-- The key of an expression that is a variable with a slot, and its hops and slot. -/
def varOf (st : Site) : Expr → Option (ℕ × ℕ × ℕ)
  | .var k => (numKey k).bind fun key => (st.resolve key).map fun r => (key, r)
  | _ => none

/-- The op that branches on a condition. -/
def lowerBranch (st : Site) (cond : Expr) (when : Bool) (targets : List (ℕ × Bool)) :
    LowerM Unit :=
  match cond with
  | .binary op x (.num n) =>
      if cmpOp op then
        match varOf st x with
        | some (key, hops, slot) => patched (.brVarK hops slot key op n when 0 0) targets
        | none => do
          let a ← lowerExpr st x none
          patched (.brK a op n when 0 0) targets
      else do
        let c ← lowerExpr st cond none
        patched (.br c when 0 0) targets
  | _ => do
    let c ← lowerExpr st cond none
    patched (.br c when 0 0) targets

/-- The terminator of `lower_block`. -/
def lowerTerm (st : Site) (f : Func) (pc : ℕ) (known : Option (ℕ × F64)) : Term → LowerM Unit
  | .goto t | .dynamic (some t) =>
      match localBlock f (follow f t known) with
      | some l => patched (.j 0) [(l, true)]
      | none => emit (.fail FAIL_INVALID pc)
  | .branch cond when thn els =>
      match localBlock f (thread f thn), localBlock f (thread f els) with
      | some a, some z =>
          lowerBranch st (stripNot cond when).1 (stripNot cond when).2 [(a, true), (z, false)]
      | _, _ => emit (.fail FAIL_INVALID pc)
  | .exit | .dynamic none => emit (.fail FAIL_FELL pc)
  | .invalid => emit (.fail FAIL_INVALID pc)

/-- `lower_block` on a part of the block's body. -/
def lowerBlock (st : Site) (f : Func) (b : Block) (body : List Stmt) : LowerM Unit := do
  lowerStmts st body 0
  reset st
  lowerTerm st f b.pc (knownAfter st body) b.term

/-- The blocks of a function one after the other, and where each of them starts. -/
def lowerBlocks (st : Site) (f : Func) : List Block → LowerM (List ℕ)
  | [] => pure []
  | b :: bs => do
    let ip ← here
    if b.live then lowerBlock st f b b.body else emit (.fail FAIL_PRUNED b.pc)
    return ip :: (← lowerBlocks st f bs)

/-! ## Functions -/

mutual

/-- `scan_stmts`: the variables declared so far and the largest register. -/
def scanStmt : Stmt → List ℕ × ℕ → List ℕ × ℕ
  | .cond c thn els, s => scanStmts els (scanStmts thn (s.1, (exprRegs c).foldl Nat.max s.2))
  | .declVar key val, s =>
      let keys :=
        match numKey key with
        | some k => if k ∈ s.1 then s.1 else s.1 ++ [k]
        | none => s.1
      (keys, (exprRegs key ++ exprRegs val).foldl Nat.max s.2)
  | .setReg reg val, s => (s.1, (exprRegs val).foldl Nat.max (Nat.max s.2 reg))
  | stmt, s => (s.1, (stmt.exprs.flatMap exprRegs).foldl Nat.max s.2)

def scanStmts : List Stmt → List ℕ × ℕ → List ℕ × ℕ
  | [], s => s
  | stmt :: rest, s => scanStmts rest (scanStmt stmt s)

end

def scanBlock (s : List ℕ × ℕ) (b : Block) : List ℕ × ℕ :=
  if !b.live then s
  else
    let s := scanStmts b.body s
    match b.term with
    | .branch cond _ _ _ => (s.1, (exprRegs cond).foldl Nat.max s.2)
    | _ => s

/-- The variables that a function declares and its largest register. -/
def scanFunc (f : Func) : List ℕ × ℕ := f.blocks.foldl scanBlock ([], 3)

/-- The state of the loop of `compile` over the declarations at an entry. -/
structure Hoist where
  init : List (Option Val)
  seen : List ℕ
  kept : List Stmt
  taken : ℕ
  hoisted : ℕ
  deriving Repr

/-- What the loop does with a declaration of `slot`: it has the value from the start, or
its statement is kept before the rest; anything else ends the loop. -/
def Hoist.take (h : Hoist) (slot : ℕ) (stmt : Stmt) (val : Expr) : Option Hoist :=
  match val with
  | .undef =>
      some { h with init := h.init.set slot (some .undef), seen := slot :: h.seen
                    taken := h.taken + 1, hoisted := h.hoisted + 1 }
  | .reg _ | .callee | .num _ | .null | .bool _ =>
      some { h with kept := h.kept ++ [stmt], seen := slot :: h.seen, taken := h.taken + 1 }
  | _ => none

/-- The loop over the declarations at an entry. -/
def hoist (keys : List ℕ) : List Stmt → Hoist → Hoist
  | .declVar key val :: rest, h =>
      match (numKey key).bind keys.idxOf? with
      | some slot =>
          if slot ∈ h.seen then h
          else
            match h.take slot (.declVar key val) val with
            | some h => hoist keys rest h
            | none => h
      | none => h
  | _, h => h

/-- The statements that `hoist` keeps, each lowered on its own. -/
def lowerKept (st : Site) : List Stmt → LowerM Unit
  | [] => pure ()
  | s :: rest => do
    lowerStmts st [s] 0
    lowerKept st rest

/-- The entry of a function with its declarations hoisted: where its code starts, when
there is any, and the variables that are declared from the start. -/
def lowerEntry (st : Site) (f : Func) (init : List (Option Val)) :
    LowerM (Option ℕ × List (Option Val)) := do
  match f.blocks.find? fun b => b.pc = f.entry && b.live with
  | none => return (none, init)
  | some b => do
    let h := hoist st.keys b.body ⟨init, [], [], 0, 0⟩
    if h.hoisted = 0 then return (none, h.init)
    else do
      let ip ← here
      lowerKept st h.kept
      lowerBlock st f b (b.body.drop h.taken)
      return (some ip, h.init)

/-- The loop over `patches`. -/
def patchOp (tgt : ℕ) (first : Bool) : Op → Op
  | .j _ => .j tgt
  | .br c w thn els => if first then .br c w tgt els else .br c w thn tgt
  | .brK a op n w thn els => if first then .brK a op n w tgt els else .brK a op n w thn tgt
  | .brVarK h s k op n w thn els =>
      if first then .brVarK h s k op n w tgt els else .brVarK h s k op n w thn tgt
  | op => op

def patchOps (starts : List ℕ) (ops : List Op) (patches : List (ℕ × ℕ × Bool)) : List Op :=
  patches.foldl (fun ops p => ops.modify p.1 (patchOp (starts.getD p.2.1 0) p.2.2)) ops

/-- Where a function is entered: at its hoisted entry, at the block of the entry's pc, or
at its first block. -/
def entryPlace (entry : ℕ) (hoisted : Option ℕ) (pcs : List (ℕ × ℕ)) (starts : List ℕ) : Res ℕ :=
  match hoisted, entryOf pcs entry, starts with
  | some ip, _, _ => pure ip
  | none, some ip, _ => pure ip
  | none, none, ip :: _ => pure ip
  | none, none, [] => .error (.fault (.badJump entry))

/-- The function that the optimised code of a function makes, with its summary. -/
def finishFunc (f : CFunc) : CFunc :=
  let code := Exec.optimize
    { ops := f.ops, lists := f.lists, nslots := f.nslots, pcs := f.pcs, entryIp := f.entryIp }
  let g := { f with
    ops := code.ops, pcs := code.pcs, entryIp := code.entryIp, leaf := !code.ops.any captures }
  { g with summary := summarize g }

/-- `compile` on a function that is not compiled yet, with the functions compiled so far
and the field ids: the compiled function and the field ids after it. -/
def compileFunc (f : Func) (cfuncs : List CFunc) (parent : Option ℕ) (fieldIds : List String) :
    Res (CFunc × List String) := do
  let (keys, maxreg) := scanFunc f
  if NOSLOT / 2 ≤ maxreg then unsupported "register index beyond frame limit"
  else do
    let st : Site := ⟨keys, outer cfuncs cfuncs.length parent, maxreg + 1⟩
    let lower : LowerM (List ℕ × Option ℕ × List (Option Val)) := do
      let starts ← lowerBlocks st f f.blocks
      return (starts, ← lowerEntry st f (keys.map fun _ => none))
    let ((starts, hoisted, init), lw) ← lower ⟨st.nregs, st.nregs, [], [], [], false, [], fieldIds⟩
    let pcs := (f.blocks.map (·.pc)).zip starts
    let entryIp ← entryPlace f.entry hoisted pcs starts
    return (finishFunc
      { init := init, sorted := slots keys, parent := parent, nregs := st.nregs, nslots := lw.max
        usesArgs := lw.usesArgs, ops := patchOps starts lw.ops lw.patches, consts := lw.consts
        lists := lw.lists, pcs := pcs, entryIp := entryIp, leaf := false, summary := none },
      lw.fieldIds)

end Interp
end Lunar
