/-
# Lowering to register code

`payload/exec.rs`: `lower_expr` and `lower_list`, `array_run` and `lower_run`, and
`lower_stmts`.

`Site` holds what `Lower` is given, and `Lower` what it collects.  A loop over
statements that takes several of them at once skips the rest of them as it comes to
them.  `fuel` bounds how deep runs of arrays nest; every nested run is shorter than the
one around it, so the length of the list suffices.
-/

import Lunar.Payload.Devirt
import Lunar.Payload.Interp.Code
import Lunar.Payload.Interp.Names

namespace Lunar
namespace Interp

open Lib (Double)
open Exec (F64 Op NOSLOT)
open Ir (LogicalOperator)
open Devirt (Expr Stmt)

def ARRAY_RUN_SPAN : ℕ := 48
def FAIL_HALT : ℕ := 0
def FAIL_PRUNED : ℕ := 1
def FAIL_FELL : ℕ := 2
def FAIL_INVALID : ℕ := 3
def FAIL_OPERAND : ℕ := 4
def FAIL_FRAME : ℕ := 5
def FAIL_KEY : ℕ := 6

/-- What the function that is lowered declares and what lies around it. -/
structure Site where
  keys : List ℕ
  around : List CFunc
  nregs : ℕ
  deriving DecidableEq, Repr

/-- `sorted`: the keys with their slots. -/
def slots (keys : List ℕ) : List (ℕ × ℕ) := keys.zipIdx.map fun k => (k.1, k.2 % U16)

def Site.slotOf (st : Site) (key : ℕ) : Option ℕ := entryOf (slots st.keys) key

/-- `resolve_static`. -/
def Site.resolve (st : Site) (key : ℕ) : Option (ℕ × ℕ) :=
  resolveStatic (slots st.keys) st.around key

/-- `Lower`, with the field ids of the interpreter. -/
structure Lower where
  next : ℕ
  max : ℕ
  ops : List Op
  consts : List Val
  lists : List ℕ
  usesArgs : Bool
  patches : List (ℕ × ℕ × Bool)
  fieldIds : List String
  deriving DecidableEq, Repr

abbrev LowerM := StateT Lower (Except Err)

namespace LowerM

def emit (op : Op) : LowerM Unit := modify fun lw => { lw with ops := lw.ops ++ [op] }

/-- `lw.ops.len()`. -/
def here : LowerM ℕ := return (← get).ops.length

def failOp (why : ℕ) : Op := .fail why 0

/-- `lw.next` and the count after it. -/
def nextReg (lw : Lower) : ℕ × Lower :=
  (lw.next, { lw with next := lw.next + 1, max := Nat.max lw.max (lw.next + 1) })

def temp : LowerM ℕ := do
  if NOSLOT - 1 ≤ (← get).next then throw (.fault (.unsupported "expression too large"))
  else modifyGet nextReg

def dest : Option ℕ → LowerM ℕ
  | some d => pure d
  | none => temp

def konst (v : Val) : LowerM ℕ :=
  modifyGet fun lw => (lw.consts.length, { lw with consts := lw.consts ++ [v] })

/-- `lw.lists` extended, and where the new part starts. -/
def list (regs : List ℕ) : LowerM ℕ :=
  modifyGet fun lw => (lw.lists.length, { lw with lists := lw.lists ++ regs })

/-- The `set_target` of one op. -/
def retargeted (tgt : ℕ) : Op → Op
  | .jf c _ => .jf c tgt
  | .jt c _ => .jt c tgt
  | .jn c _ => .jn c tgt
  | .j _ => .j tgt
  | op => op

def setTarget (at_ tgt : ℕ) : LowerM Unit :=
  modify fun lw => { lw with ops := lw.ops.modify at_ (retargeted tgt) }

/-- `self.field`, on the list of the field ids. -/
def fieldOf (ids : List String) (name : String) : ℕ × List String :=
  if name ∈ ids then (ids.idxOf name % U16, ids) else (ids.length % U16, ids ++ [name])

def field (name : String) : LowerM ℕ :=
  modifyGet fun lw =>
    ((fieldOf lw.fieldIds name).1, { lw with fieldIds := (fieldOf lw.fieldIds name).2 })

/-- The op `mk` of a destination, which is `dst` or a new register. -/
def place (dst : Option ℕ) (mk : ℕ → Op) : LowerM ℕ := do
  let d ← dest dst
  emit (mk d)
  return d

/-- `lw.next = lw.nregs`. -/
def reset (st : Site) : LowerM Unit := modify fun lw => { lw with next := st.nregs }

end LowerM

open LowerM

/-! ## Expressions -/

def isZeroUp (limit : Double) (n : F64) : Bool :=
  (Double.ofBits n).ge .zero && (Double.ofBits n).isInt && (Double.ofBits n).lt limit

/-- `num_key`. -/
def numKey : Expr → Option ℕ
  | .num n => if isZeroUp (.ofNat 4294967295) n then some ((Double.ofBits n).toU 32) else none
  | _ => none

/-- The entry of a closure: a number that a `u32` holds. -/
def entryKey : Expr → Option ℕ
  | .num n => if isZeroUp (.ofNat 4294967296) n then some ((Double.ofBits n).toU 32) else none
  | _ => none

/-- `fold_const`. -/
def foldConst : Expr → Option Val
  | .runtime .global => some .global
  | .name s => (global s).toOption
  | .member o (.lit key) =>
      match foldConst o with
      | some .global => (global key).toOption
      | some (.nat n) =>
          if n ∈ [.mathNs, .array, .object, .string, .number, .date, .promise] then
            (nativeProp n key).toOption
          else none
      | _ => none
  | _ => none

/-- The expressions that `lower_expr` tries `fold_const` on. -/
def folded : Expr → Option Val
  | .name s => foldConst (.name s)
  | .member o k => foldConst (.member o k)
  | .runtime .global => foldConst (.runtime .global)
  | _ => none

/-- A constant of the table in a register. -/
def lowerConst (dst : Option ℕ) (v : Val) : LowerM ℕ := do
  let c ← konst v
  place dst fun d => .const d c

/-- A folded constant in a register: a number stands in the op. -/
def lowerFolded (dst : Option ℕ) (v : Val) : LowerM ℕ := do
  let d ← dest dst
  match v with
  | .num n => emit (.num d n.toBits)
  | other => do
    let c ← konst other
    emit (.const d c)
  return d

/-- A register as an operand: read in place, or moved to `dst`. -/
def lowerReg (dst : Option ℕ) (r : ℕ) : LowerM ℕ := do
  if r = 3 then modify fun lw => { lw with usesArgs := true }
  match dst with
  | some d => do
    if d ≠ r then emit (.move d r)
    return d
  | none => return r

/-- The result of a conditional in `dst`, or in its own register. -/
def deliver (dst : Option ℕ) (t : ℕ) : LowerM ℕ := do
  match dst with
  | some d => do
    emit (.move d t)
    return d
  | none => return t

def logicalJump (op : LogicalOperator) (c : ℕ) : Op :=
  match op with
  | .and => .jf c 0
  | .or => .jt c 0
  | .coalesce => .jn c 0

/-- `Expr::Var`. -/
def lowerVar (st : Site) (k : Expr) (d : ℕ) : Op :=
  match numKey k with
  | some key =>
      match st.resolve key with
      | some (hops, slot) => .varS d hops slot key
      | none => .varD d key
  | none => failOp FAIL_KEY

/-- `Expr::ScopeVar`. -/
def lowerScopeVar (st : Site) (k : Expr) (d : ℕ) : Op :=
  match numKey k with
  | some key =>
      match st.slotOf key with
      | some slot => .localS d slot
      | none => .localD d key
  | none => failOp FAIL_KEY

mutual

/-- `lower_expr`. -/
def lowerExpr (st : Site) : Expr → Option ℕ → LowerM ℕ
  | .reg r, dst => lowerReg dst r
  | .logical op a b, dst => do
    let t ← temp
    let _ ← lowerExpr st a (some t)
    let at_ ← here
    emit (logicalJump op t)
    let _ ← lowerExpr st b (some t)
    setTarget at_ (← here)
    deliver dst t
  | .cond c a b, dst => do
    let t ← temp
    let cs ← lowerExpr st c none
    let at_ ← here
    emit (.jf cs 0)
    let _ ← lowerExpr st a (some t)
    let jend ← here
    emit (.j 0)
    setTarget at_ (← here)
    let _ ← lowerExpr st b (some t)
    setTarget jend (← here)
    deliver dst t
  | .undef, dst => lowerConst dst .undef
  | .null, dst => lowerConst dst .null
  | .bool b, dst => lowerConst dst (.bool b)
  | .num n, dst => place dst fun d => .num d n
  | .lit s, dst => lowerConst dst (.str s)
  | .slot _, dst => place dst fun _ => failOp FAIL_OPERAND
  | .frame, dst => place dst fun _ => failOp FAIL_FRAME
  | .scope, dst => place dst .scopeRef
  | .this, dst => place dst .this
  | .callee, dst => place dst .callee
  | .excRecord, dst => place dst .excRec
  | .exception, dst => place dst .exc
  | .runtime r, dst =>
      match folded (.runtime r) with
      | some v => lowerFolded dst v
      | none => place dst fun d => if r = .global then .global d else .runtime d r
  | .name s, dst =>
      match folded (.name s) with
      | some v => lowerFolded dst v
      | none => do
        let c ← konst (.str s)
        place dst fun d => .name d c
  | .var k, dst => place dst (lowerVar st k)
  | .scopeVar k, dst => place dst (lowerScopeVar st k)
  | .frameField f, dst => do
    let id ← field f
    place dst fun d => .frameField d id
  | .scopeField f, dst => do
    let id ← field f
    place dst fun d => .scopeField d id
  | .member o k, dst =>
      match folded (.member o k) with
      | some v => lowerFolded dst v
      | none => do
        let os ← lowerExpr st o none
        lowerKey st os k dst
  | .call (.member o k) args, dst => do
    let os ← lowerExpr st o none
    let fs ← temp
    let _ ← lowerKey st os k (some fs)
    let (a, n) ← lowerList st args
    place dst fun d => .call d fs os a n
  | .call c args, dst => do
    let fs ← lowerExpr st c none
    let (a, n) ← lowerList st args
    place dst fun d => .call d fs NOSLOT a n
  | .new c args, dst => do
    let fs ← lowerExpr st c none
    let (a, n) ← lowerList st args
    place dst fun d => .new d fs a n
  | .apply f t a, dst => do
    let f ← lowerExpr st f none
    let t ← lowerExpr st t none
    let a ← lowerExpr st a none
    place dst fun d => .apply d f t a
  | .construct f a, dst => do
    let f ← lowerExpr st f none
    let a ← lowerExpr st a none
    place dst fun d => .construct d f a
  | .unary op a, dst => do
    let a ← lowerExpr st a none
    place dst fun d => .unary d op a
  | .binary op a (.num n), dst => do
    let a ← lowerExpr st a none
    place dst fun d => .binK d op a n
  | .binary op (.num n) b, dst => do
    let b ← lowerExpr st b none
    place dst fun d => .kBin d op n b
  | .binary op a b, dst => do
    let a ← lowerExpr st a none
    let b ← lowerExpr st b none
    place dst fun d => .binary d op a b
  | .array items, dst => do
    let (a, n) ← lowerList st items
    place dst fun d => .array d a n
  | .object items, dst => do
    let (a, n) ← lowerList st items
    place dst fun d => .object d a n
  | .closure entry name arity, dst =>
      match entryKey entry with
      | some entry => do
        let name ← lowerExpr st name none
        let arity ← lowerExpr st arity none
        place dst fun d => .closure d entry name arity
      | none => place dst fun _ => failOp FAIL_KEY
  | .keys o, dst => do
    let a ← lowerExpr st o none
    place dst fun d => .keys d a

/-- A member of the value in `os`: a literal key stands in the table of constants. -/
def lowerKey (st : Site) (os : ℕ) : Expr → Option ℕ → LowerM ℕ
  | .lit s, dst => do
    let c ← konst (.str s)
    place dst fun d => .memberK d os c
  | k, dst => do
    let ks ← lowerExpr st k none
    place dst fun d => .member d os ks

/-- `lower_list`. -/
def lowerList (st : Site) (es : List Expr) : LowerM (ℕ × ℕ) := do
  let regs ← lowerExprs st es
  let start ← list regs
  return (start, regs.length % U16)

def lowerExprs (st : Site) : List Expr → LowerM (List ℕ)
  | [] => pure []
  | e :: es => do
    let s ← lowerExpr st e none
    return s :: (← lowerExprs st es)

end

/-! ## Runs of statements that fill a new array -/

mutual

/-- The registers in an expression. -/
def exprRegs : Expr → List ℕ
  | .reg r => [r]
  | .var a | .scopeVar a | .unary _ a | .keys a => exprRegs a
  | .member a b | .binary _ a b | .logical _ a b | .construct a b => exprRegs a ++ exprRegs b
  | .cond c a b | .apply c a b | .closure c a b => exprRegs c ++ exprRegs a ++ exprRegs b
  | .call c args | .new c args => exprRegs c ++ listRegs args
  | .array items | .object items => listRegs items
  | _ => []

def listRegs : List Expr → List ℕ
  | [] => []
  | e :: es => exprRegs e ++ listRegs es

end

/-- `uses_reg`. -/
def usesReg (e : Expr) (r : ℕ) : Bool := (exprRegs e).contains r

def isReg (r : ℕ) : Expr → Bool
  | .reg q => q = r
  | _ => false

def isNum (i : ℕ) : Expr → Bool
  | .num k => (Double.ofBits k).eq (.ofNat i)
  | _ => false

/-- The length of an array run that `new c [len]` starts: a constant from 1 to 16. -/
def runLength (c : Expr) (args : List Expr) : Option ℕ :=
  match args, foldConst c with
  | [.num n], some (.nat .array) =>
      let n := Double.ofBits n
      if n.ge .one && n.le (.ofNat 16) && n.isInt then some (n.toU 64) else none
  | _, _ => none

/-- A statement among those of a run that neither reads nor writes the array, nor writes
a register that an item reads. -/
def quietIn (reg : ℕ) (vals : List Expr) : Stmt → Bool
  | .setReg w val => !usesReg val reg && w ≠ reg && !vals.any (usesReg · w)
  | .setProp obj key val => !usesReg obj reg && !usesReg key reg && !usesReg val reg
  | _ => false

/-- How many statements at the head of the list go together: a nested run that ends in
register `q`, or one. -/
def spanOf (q : ℕ) : Option (ℕ × ℕ × ℕ) → ℕ
  | some (q', _, used) => if q' = q then used else 1
  | none => 1

/-- The loop of `array_run`, with `i` items found in the first `used` statements; `nested`
is `array_run` on shorter lists. -/
def runLoop (nested : List Stmt → Option (ℕ × ℕ × ℕ)) (reg n : ℕ) (stmts : List Stmt) :
    ℕ → ℕ → ℕ → List Expr → Option ℕ
  | 0, _, _, _ => none
  | fuel + 1, i, used, vals =>
      if n ≤ i then some used
      else if ARRAY_RUN_SPAN < used then none
      else
        match stmts[used]? with
        | some (.setProp obj key val) =>
            if isReg reg obj && isNum i key && !usesReg val reg then
              runLoop nested reg n stmts fuel (i + 1) (used + 1) (vals ++ [val])
            else none
        | some (.setReg q _) =>
            let span := spanOf q (nested (stmts.drop used))
            if ((stmts.drop used).take span).all (quietIn reg vals) then
              runLoop nested reg n stmts fuel i (used + span) vals
            else none
        | _ => none

/-- `array_run`: the register of the array, its length and how many statements build it. -/
def arrayRun : ℕ → List Stmt → Option (ℕ × ℕ × ℕ)
  | fuel + 1, .setReg reg (.new c args) :: rest => do
      let n ← runLength c args
      let stmts := .setReg reg (.new c args) :: rest
      let used ← runLoop (arrayRun fuel) reg n stmts (stmts.length + 1) 0 1 []
      some (reg, n, used)
  | _, _ => none

/-- The run at the head of a list. -/
def runAt (stmts : List Stmt) : Option (ℕ × ℕ × ℕ) := arrayRun stmts.length stmts

/-- The items of a run, one register for each; `nested` lowers a run inside of it.  The
first `skip` statements have been dealt with. -/
def lowerItems (st : Site) (nested : List Stmt → ℕ → ℕ → LowerM Unit) :
    List Stmt → ℕ → LowerM (List ℕ)
  | [], _ => pure []
  | _ :: rest, skip + 1 => lowerItems st nested rest skip
  | .setProp _ _ val :: rest, 0 => do
    let s ← lowerExpr st val none
    return s :: (← lowerItems st nested rest 0)
  | .setReg q val :: rest, 0 =>
      let stmts := .setReg q val :: rest
      match runAt stmts with
      | some (q', n, used) =>
          if q' = q then do
            nested (stmts.take used) q' n
            lowerItems st nested rest (used - 1)
          else do
            let _ ← lowerExpr st val (some q)
            lowerItems st nested rest 0
      | none => do
          let _ ← lowerExpr st val (some q)
          lowerItems st nested rest 0
  | _ :: _, 0 => throw (.fault (.unsupported "array run shape"))

/-- `lower_run`. -/
def lowerRun (st : Site) : ℕ → List Stmt → ℕ → ℕ → LowerM Unit
  | 0, _, _, _ => throw .panic
  | fuel + 1, stmts, reg, n => do
    let regs ← lowerItems st (lowerRun st fuel) stmts.tail 0
    let a ← list (regs.take n)
    emit (.array reg a n)

/-! ## Statements -/

/-- `Stmt::SetVar`. -/
def lowerSetVar (st : Site) (key : Expr) (v : ℕ) : Op :=
  match numKey key with
  | some k =>
      match st.resolve k with
      | some (hops, slot) => .setVarS hops slot k v
      | none => .setVarD k v
  | none => failOp FAIL_KEY

/-- The op for a number in a variable with a slot. -/
def setVarK (st : Site) (key val : Expr) : Option Op :=
  match val with
  | .num n => do
      let k ← numKey key
      let (hops, slot) ← st.resolve k
      some (.setVarK hops slot k n)
  | _ => none

/-- `Stmt::DeclVar`. -/
def lowerDecl (st : Site) (key : Expr) (v : ℕ) : Op :=
  match (numKey key).bind st.slotOf with
  | some slot => .decl slot v
  | none => failOp FAIL_KEY

mutual

def lowerStmt (st : Site) : Stmt → LowerM Unit
  | .setDest _ _ => emit (failOp FAIL_OPERAND)
  | .setReg reg val => do
    let _ ← lowerExpr st val (some reg)
  | .setProp obj key val => do
    let o ← lowerExpr st obj none
    let k ← lowerExpr st key none
    let v ← lowerExpr st val none
    emit (.setProp o k v)
  | .setVar key val =>
      match setVarK st key val with
      | some op => emit op
      | none => do
        let v ← lowerExpr st val none
        emit (lowerSetVar st key v)
  | .declVar key val => do
    let v ← lowerExpr st val none
    emit (lowerDecl st key v)
  | .setFrameField f val => do
    let v ← lowerExpr st val none
    let id ← field f
    emit (.setFrameField id v)
  | .setScopeField f val => do
    let v ← lowerExpr st val none
    let id ← field f
    emit (.setScopeField id v)
  | .setCatch x => do
    let v ← lowerExpr st x none
    emit (.setCatch v)
  | .setFinally x => do
    let v ← lowerExpr st x none
    emit (.setFinally v)
  | .eval x => do
    let _ ← lowerExpr st x none
  | .cond c thn els => do
    let c ← lowerExpr st c none
    let at_ ← here
    emit (.jf c 0)
    lowerStmts st thn 0
    let jend ← here
    emit (.j 0)
    setTarget at_ (← here)
    lowerStmts st els 0
    setTarget jend (← here)
  | .jump x => do
    let v ← lowerExpr st x none
    emit (.jump v)
  | .ret x => do
    let v ← lowerExpr st x none
    emit (.ret v)
  | .throw x => do
    let v ← lowerExpr st x none
    emit (.throw v)
  | .halt => emit (failOp FAIL_HALT)

/-- `lower_stmts`, when the first `skip` statements have been dealt with. -/
def lowerStmts (st : Site) : List Stmt → ℕ → LowerM Unit
  | [], _ => pure ()
  | _ :: rest, skip + 1 => lowerStmts st rest skip
  | s :: rest, 0 => do
    reset st
    match runAt (s :: rest) with
    | some (reg, n, used) => do
      lowerRun st used ((s :: rest).take used) reg n
      lowerStmts st rest (used - 1)
    | none => do
      lowerStmt st s
      lowerStmts st rest 0

end

end Interp
end Lunar
