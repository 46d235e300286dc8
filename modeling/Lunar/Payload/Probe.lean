/-
# The reaching definitions of the probe

`payload/probe.rs`: `flat_build` with `prune` and all that it calls, `summaries`,
`entry_reach`, `analyze` and `chase`.  The statements of the blocks of a function are laid
out one after the other, those of a conditional behind it, and the condition of a branch
behind its block; such a list is `Flat`.  A branch whose condition is known on every edge
into its block loses the edge that is never taken.  The definitions of a register that reach
an item are found twice: `chase` goes back from the item, and `analyze` goes through all
items with a summary for each block and a memo for each entry of a block.

Expressions are trees, so `walk` is the list of the nodes in the order in which it visits
them.  A hash map is a function, and `var_stmts`, which is copied from the flat list before
all this, is left out.
-/

import Mathlib.Data.List.Dedup
import Lunar.Lib.Sweep
import Lunar.Payload.Devirt
import Lunar.Payload.Fold
import Mathlib.Algebra.Ring.Nat

namespace Lunar
namespace Probe

open Lib (Double sweep)
open Devirt (Expr Stmt Term Block Func)
open Exec (BinaryOperator)
open Fold (Val)

/-! ## Items -/

def PURE : List String :=
  ["Math", "Boolean", "Number", "String", "parseInt", "parseFloat", "isNaN", "isFinite", "RegExp",
    "Date", "Array", "Object", "JSON", "undefined", "NaN", "Infinity"]

def MAX_EVAL_DEPTH : ℕ := 16

inductive Item
  | s (st : Stmt)
  | c (e : Expr)

def numKey : Expr → Option ℕ
  | .num n =>
    let n := Double.ofBits n
    if n.ge .zero ∧ n.isInt ∧ n.lt (.ofNat 4294967295) then some (n.toU 32) else none
  | _ => none

def itemExprs : Item → List Expr
  | .c e => [e]
  | .s (.cond cond _ _) => [cond]
  | .s (.setVar _ val) | .s (.declVar _ val) => [val]
  | .s st => st.exprs

mutual

/-- The nodes that `walk` visits, in their order: the children of a node are put on the stack
one after the other, so the last one comes first. -/
def walk : Expr → List Expr
  | .unary op a => .unary op a :: walk a
  | .keys a => .keys a :: walk a
  | .member a b => .member a b :: (walk b ++ walk a)
  | .binary op a b => .binary op a b :: (walk b ++ walk a)
  | .logical op a b => .logical op a b :: (walk b ++ walk a)
  | .cond c a b => .cond c a b :: (walk b ++ walk a ++ walk c)
  | .call c args => .call c args :: (walkBack args ++ walk c)
  | .new c args => .new c args :: (walkBack args ++ walk c)
  | .apply c t args => .apply c t args :: (walk args ++ walk t ++ walk c)
  | .construct c args => .construct c args :: (walk args ++ walk c)
  | .array items => .array items :: walkBack items
  | .object items => .object items :: walkBack items
  | e => [e]

def walkBack : List Expr → List Expr
  | [] => []
  | e :: es => walkBack es ++ walk e

end

/-- The register that an item assigns, and the one through which it writes a property. -/
def defReg : Item → Option ℕ × Option ℕ
  | .s (.setReg reg _) => (some reg, none)
  | .s (.setProp (.reg r) _ _) => (none, some r)
  | _ => (none, none)

/-! ## The flat list -/

structure Flat where
  items : List Item
  blockOf : List ℕ
  ranges : List (ℕ × ℕ)
  preds : List (List ℕ)
  /-- The items that define a variable. -/
  varDefs : ℕ → List ℕ
  dead : List Bool

mutual

/-- A statement with those of a conditional behind it. -/
def flat : Stmt → List Stmt
  | .cond c thn els => .cond c thn els :: (flats thn ++ flats els)
  | st => [st]

def flats : List Stmt → List Stmt
  | [] => []
  | st :: sts => flat st ++ flats sts

end

/-- The condition of a branch. -/
def condition : Term → List Item
  | .branch cond _ _ _ => [.c cond]
  | _ => []

/-- The items of a block. -/
def blockItems (b : Block) : List Item :=
  if b.live then (flats b.body).map .s ++ condition b.term else []

/-- The variable that an item defines. -/
def varOf : Item → Option ℕ
  | .s (.setVar key _) | .s (.declVar key _) => numKey key
  | .s (.setProp (.var v) _ _) => numKey v
  | _ => none

section Function

variable (f : Func)

/-- `local`: the place of a block of the function. -/
def local_ (t : ℕ) : Option ℕ :=
  if f.start ≤ t ∧ t < f.start + f.blocks.length then some (t - f.start) else none

def succ : Term → Option ℕ × Option ℕ
  | .goto t | .dynamic (some t) => (local_ f t, none)
  | .branch _ _ thn els => (local_ f thn, local_ f els)
  | _ => (none, none)

/-- The edges, in the order in which they are found. -/
def edges : List (ℕ × ℕ) :=
  f.blocks.zipIdx.flatMap fun e =>
    if e.1.live then
      ((succ f e.1.term).1.toList ++ (succ f e.1.term).2.toList).map fun s => (e.2, s)
    else []

/-- The ranges of blocks that are laid out from `start` on. -/
def layout : ℕ → List Block → List (ℕ × ℕ)
  | _, [] => []
  | start, b :: bs =>
    (start, start + (blockItems b).length) :: layout (start + (blockItems b).length) bs

/-- The flat list before `prune`. -/
def flatten : Flat :=
  let items := f.blocks.flatMap blockItems
  { items
    blockOf := f.blocks.zipIdx.flatMap fun e => (blockItems e.1).map fun _ => e.2
    ranges := layout 0 f.blocks
    preds := (List.range f.blocks.length).map fun s =>
      (edges f).filterMap fun e => if e.2 = s then some e.1 else none
    varDefs := fun k => (List.range items.length).filter fun i => (items[i]?).bind varOf = some k
    dead := f.blocks.map fun _ => false }

/-! ## Known conditions -/

/-- `branch_reg`: a branch on a register. -/
def branchReg : Term → Option (ℕ × Bool × ℕ × ℕ)
  | .branch (.reg r) when_ thn els => if thn ≠ els then some (r, when_, thn, els) else none
  | _ => none

def constVal : Expr → Option Val
  | .undef => some .undef
  | .null => some .null
  | .bool b => some (.bool b)
  | .num n => some (.num (Double.ofBits n))
  | .lit s => some (.str s)
  | _ => none

/-- `Val::truthy`. -/
def truthy : Val → Bool
  | .undef | .null => false
  | .bool b => b
  | .num n => !n.eq .zero && !n.isNan
  | .str s => s ≠ ""
  | .obj => true

/-- What the left side of a logical operator passes to the right one. -/
def passes (op : Ir.LogicalOperator) (x : Val) : Bool :=
  match op with
  | .and => truthy x
  | .or => !truthy x
  | .coalesce => x = .undef ∨ x = .null

variable (powf : Double → Double → Double)

/-- `eval_with`: an expression where register `r` holds `v`. -/
def evalWith (r : ℕ) (v : Val) (e : Expr) (depth : ℕ) : Option Val :=
  if MAX_EVAL_DEPTH < depth then none
  else
    match e with
    | .reg x => if x = r then some v else constVal e
    | .binary op a b => do
      let x ← evalWith r v a (depth + 1)
      let y ← evalWith r v b (depth + 1)
      Fold.binary powf op x y
    | .unary .logicalNot a => do return .bool !truthy (← evalWith r v a (depth + 1))
    | .unary .unaryNegation a => do return .num (← evalWith r v a (depth + 1)).toNum.neg
    | .unary .unaryPlus a => do return .num (← evalWith r v a (depth + 1)).toNum
    | .logical op a b => do
      let x ← evalWith r v a (depth + 1)
      if passes op x then evalWith r v b (depth + 1) else return x
    | .cond c a b => do
      let x ← evalWith r v c (depth + 1)
      if truthy x then evalWith r v a (depth + 1) else evalWith r v b (depth + 1)
    | e => constVal e

/-- The nodes that `single_reg` passes over. -/
def plain : Expr → Bool
  | .binary .. | .logical .. | .cond .. | .undef | .null | .bool _ | .num _ | .lit _ => true
  | .unary .logicalNot _ | .unary .unaryNegation _ | .unary .unaryPlus _ => true
  | _ => false

/-- `single_reg`: the one register of a condition that nothing else decides. -/
def singleReg (cond : Expr) : Option ℕ :=
  let step (st : Option ℕ × Bool) (e : Expr) : Option ℕ × Bool :=
    match e with
    | .reg x => (some x, st.2 && !st.1.any (· ≠ x))
    | e => (st.1, st.2 && plain e)
  let (reg, ok) := (walk cond).foldl step (none, true)
  if ok then reg else none

/-- The last item in `is`, which are in descending order, that assigns `r`. -/
def lastSet (items : List Item) (r : ℕ) : List ℕ → Option Expr
  | [] => none
  | i :: is =>
    match items[i]? with
    | some (.s (.setReg reg val)) => if reg = r then some val else lastSet items r is
    | _ => lastSet items r is

/-- The places of a range. -/
def places (range : ℕ × ℕ) : List ℕ := List.range' range.1 (range.2 - range.1)

def Flat.range (fl : Flat) (b : ℕ) : List ℕ := places (fl.ranges.getD b (0, 0))

def Flat.pred (fl : Flat) (b : ℕ) : List ℕ := fl.preds.getD b []

/-- `edge_truth`: what `cond`, of which `r` is the register, is on the edge from `p` to `to_`. -/
def edgeTruth (fl : Flat) (p to_ r : ℕ) (cond : Expr) : Option Bool :=
  let sets : Option Bool := do
    let val ← lastSet fl.items r (fl.range p).reverse
    let v ← constVal val
    return truthy (← evalWith powf r v cond 0)
  match (f.blocks[p]?).bind fun b => branchReg b.term with
  | some (pr, pwhen, pthen, pels) =>
    if pr = r then
      match cond with
      | .reg _ =>
        if pthen = f.start + to_ then some pwhen
        else if pels = f.start + to_ then some !pwhen
        else none
      | _ => none
    else sets
  | none => sets

/-- What all edges agree on. -/
def agreed : Option Bool → List (Option Bool) → Option Bool
  | known, [] => known
  | _, none :: _ => none
  | none, some t :: ts => agreed (some t) ts
  | some k, some t :: ts => if t ≠ k then none else agreed (some k) ts

/-- Whether an item of a block assigns `r`. -/
def assigns (fl : Flat) (r b : ℕ) : Bool :=
  (fl.range b).any fun i =>
    match fl.items[i]? with
    | some (.s (.setReg reg _)) => reg = r
    | _ => false

/-- The edge that `prune` cuts behind a block. -/
def cutOf (fl : Flat) (li : ℕ) : Option (ℕ × ℕ) := do
  let b ← f.blocks[li]?
  if !b.live || (fl.pred li).isEmpty then none
  else
    match b.term with
    | .branch cond when_ thn els =>
      if thn = els then none
      else do
        let r ← singleReg cond
        if assigns fl r li then none
        else do
          let truth ← agreed none ((fl.pred li).map fun p => edgeTruth f powf fl p li r cond)
          let never := if truth = when_ then els else thn
          return (li, ← local_ f never)
    | _ => none

/-- The blocks that block 0 leads to. -/
def reach (preds : List (List ℕ)) : Option (ℕ → Bool) :=
  let n := preds.length
  let succs (b : ℕ) : List ℕ :=
    (List.range n).flatMap fun to_ => ((preds.getD to_ []).filter (· = b)).map fun _ => to_
  (sweep succs (fun u _ => u) true (1 + (preds.map List.length).sum) [0] (fun _ => false) ()).map
    Prod.fst

/-- `swap_remove`. -/
def swapRemove (xs : List ℕ) (i : ℕ) : List ℕ := (xs.set i (xs.getLastD 0)).dropLast

/-- The edge leaves the list. -/
def cutEdge (preds : List (List ℕ)) (cut : ℕ × ℕ) : List (List ℕ) :=
  preds.modify cut.2 fun ps =>
    match ps.findIdx? (· = cut.1) with
    | some i => swapRemove ps i
    | none => ps

def prune (fl : Flat) : Option Flat :=
  let cut := (List.range f.blocks.length).filterMap (cutOf f powf fl)
  if cut = [] then some fl
  else do
    let before ← reach fl.preds
    let preds := cut.foldl cutEdge fl.preds
    let after ← reach preds
    let gone (b : ℕ) : Bool := before b && !after b
    return { fl with
      dead := (List.range f.blocks.length).map gone
      preds := preds.map fun ps => ps.filter fun p => !gone p
      varDefs := fun k => (fl.varDefs k).filter fun d => !gone (fl.blockOf.getD d 0) }

def flatBuild : Option Flat := prune f powf (flatten f)

end Function

/-! ## Definitions by summaries -/

/-- The last assignment of a register and the property writes through it since. -/
abbrev Sums := ℕ → Option (Option ℕ × List ℕ)

/-- An item, added to the summary of those before it. -/
def record (m : Sums) (i : ℕ) (it : Item) : Sums :=
  match defReg it with
  | (some d, _) => Function.update m d (some (some i, []))
  | (none, some w) =>
    let e := (m w).getD (none, [])
    Function.update m w (some (e.1, e.2 ++ [i]))
  | (none, none) => m

/-- The item at a place, added to the summary. -/
def recordAt (fl : Flat) (m : Sums) (i : ℕ) : Sums :=
  match fl.items[i]? with
  | some it => record m i it
  | none => m

def summaries (fl : Flat) : List Sums :=
  fl.ranges.map fun r => (places r).foldl (recordAt fl) fun _ => none

/-- The stamps of the blocks, and the last stamp: a `u32`. -/
abbrev Seen := (ℕ → ℕ) × ℕ

def nextStamp (seen : Seen) : Seen :=
  let stamp := (seen.2 + 1) % 2 ^ 32
  if stamp = 0 then (fun _ => 0, 1) else (seen.1, stamp)

abbrev Memo := ℕ → ℕ → Option (List ℕ × Bool)

/-- `sort_unstable` and `dedup`. -/
def sortDedup (xs : List ℕ) : List ℕ := (xs.mergeSort (· ≤ ·)).dedup

/-- As many turns as a search takes at most: the blocks it starts with, and one for each edge. -/
def fuel (fl : Flat) (b : ℕ) : ℕ := (fl.pred b).length + (fl.preds.map List.length).sum

/-- The blocks at which `entry_reach` goes on behind `pb`. -/
def entryNext (fl : Flat) (sums : List Sums) (r pb : ℕ) : List ℕ :=
  match (sums[pb]?).bind (· r) with
  | some (some _, _) => []
  | _ => fl.pred pb

/-- What `entry_reach` finds in `pb`. -/
def entryCollect (fl : Flat) (sums : List Sums) (r : ℕ) (acc : List ℕ × Bool) (pb : ℕ) :
    List ℕ × Bool :=
  match (sums[pb]?).bind (· r) with
  | some (some d, w) => (acc.1 ++ d :: w, acc.2)
  | other => (acc.1 ++ (other.map Prod.snd).getD [], acc.2 || (fl.pred pb).isEmpty)

/-- `entry_reach`: the definitions of `r` that reach the entry of block `b`, and whether the
entry is reached without one. -/
def entryReach (fl : Flat) (sums : List Sums) (memo : Memo) (seen : Seen) (b r : ℕ) :
    Option ((List ℕ × Bool) × Memo × Seen) :=
  match memo b r with
  | some v => some (v, memo, seen)
  | none => do
    let seen := nextStamp seen
    let (stamps, acc) ← sweep (entryNext fl sums r) (entryCollect fl sums r) seen.2 (fuel fl b)
      (fl.pred b).reverse seen.1 ([], (fl.pred b).isEmpty)
    let v := (sortDedup acc.1, acc.2)
    return (v, fun b' r' => if b' = b ∧ r' = r then some v else memo b' r', stamps, seen.2)

/-! ## The analysis -/

def constant : Expr → Bool
  | .undef | .null | .bool _ | .num _ | .lit _ => true
  | _ => false

/-- `const_vars`: the variable is declared, and all its definitions give it constants. -/
def constVar (fl : Flat) (k : ℕ) : Bool :=
  let defs := (fl.varDefs k).filterMap fun d => fl.items[d]?
  defs.any (fun it => match it with | .s (.declVar _ _) => true | _ => false)
    && defs.all fun it =>
      match it with
      | .s (.declVar _ val) | .s (.setVar _ val) => constant val
      | _ => false

/-- The registers that an item reads. -/
def regs (it : Item) : List ℕ :=
  sortDedup (((itemExprs it).flatMap walk).filterMap fun e =>
    match e with
    | .reg r => some r
    | _ => none)

/-- The variables that an item reads. -/
def varsOf (it : Item) : List ℕ :=
  ((itemExprs it).flatMap walk).filterMap fun e =>
    match e with
    | .var k | .scopeVar k => numKey k
    | _ => none

/-- A node that is not the same in every run. -/
def realNode (consts : ℕ → Bool) : Expr → Bool
  | .var k =>
    match numKey k with
    | some key => !consts key
    | none => true
  | .scopeVar _ | .this | .callee | .exception | .excRecord | .closure .. => true
  | .runtime (.ctx ..) => true
  | .name s => s ∉ PURE
  | .member (.runtime .global) (.lit s) => s ∉ PURE
  | _ => false

/-- A node that has an effect. -/
def effectNode : Expr → Bool
  | .call .. | .new .. | .apply .. | .construct .. => true
  | _ => false

def effectItem : Item → Bool
  | .s (.setProp ..) | .s (.setVar ..) | .s (.declVar ..) => true
  | _ => false

structure Analysis where
  regDefs : List (List ℕ)
  vars : List (List ℕ)
  roots : List ℕ

/-- The variables of the pass over the items. -/
structure Pass where
  memo : Memo
  seen : Seen
  cur : Option ℕ
  local_ : Sums
  regDefs : List (List ℕ)
  direct : List Bool

def Pass.start (seen : Seen) : Pass where
  memo := fun _ _ => none
  seen := seen
  cur := none
  local_ := fun _ => none
  regDefs := []
  direct := []

/-- The definitions of one register that an item reads, and whether it may be a parameter. -/
def defsOf (fl : Flat) (sums : List Sums) (b r : ℕ) (p : Pass) :
    Option ((List ℕ × Bool) × Pass) :=
  match p.local_ r with
  | some (some d, wr) => some ((d :: wr, false), p)
  | other => do
    let (v, memo, seen) ← entryReach fl sums p.memo p.seen b r
    return (((other.map Prod.snd).getD [] ++ v.1, v.2 && decide (3 ≤ r)), { p with memo, seen })

/-- The definitions of the registers `rs`, one after the other. -/
def defsOfAll (fl : Flat) (sums : List Sums) (b : ℕ) :
    List ℕ → Pass → Option ((List ℕ × Bool) × Pass)
  | [], p => some (([], false), p)
  | r :: rs, p => do
    let (v, p) ← defsOf fl sums b r p
    let (vs, p) ← defsOfAll fl sums b rs p
    return ((v.1 ++ vs.1, v.2 || vs.2), p)

/-- The body of the pass, for item `i`. -/
def passItem (fl : Flat) (sums : List Sums) (consts : ℕ → Bool) (p : Pass) (i : ℕ) :
    Option Pass := do
  let it ← fl.items[i]?
  let b ← fl.blockOf[i]?
  let p := if p.cur ≠ some b then { p with cur := some b, local_ := fun _ => none } else p
  let nodes := (itemExprs it).flatMap walk
  let (out, p) ← defsOfAll fl sums b (regs it) p
  return { p with
    local_ := record p.local_ i it
    regDefs := p.regDefs ++ [out.1]
    direct := p.direct ++ [nodes.any (realNode consts) || out.2] }

/-- An item that reads what a real item defines is real. -/
def spreadStep (regDefs : List (List ℕ)) (st : List Bool × Bool) (i : ℕ) : List Bool × Bool :=
  if !st.1.getD i false && (regDefs.getD i []).any fun d => st.1.getD d false then
    (st.1.set i true, true)
  else st

/-- One round over the items, and whether it changed anything. -/
def spreadOnce (regDefs : List (List ℕ)) (n : ℕ) (real : List Bool) : List Bool × Bool :=
  (List.range n).foldl (spreadStep regDefs) (real, false)

/-- The rounds, until one changes nothing.  Each of the others makes an item real. -/
def spread (regDefs : List (List ℕ)) (n : ℕ) : ℕ → List Bool → Option (List Bool)
  | 0, _ => none
  | fuel + 1, real =>
    let (real, changed) := spreadOnce regDefs n real
    if changed then spread regDefs n fuel real else some real

/-- Whether an item is a root. -/
def isRoot (fl : Flat) (real : List Bool) (i : ℕ) : Bool :=
  if fl.dead.getD (fl.blockOf.getD i 0) false then false
  else
    match fl.items[i]? with
    | some (.s (.ret _)) => true
    | some (.c _) | some (.s (.cond ..)) => real.getD i false
    | some it =>
      (effectItem it || ((itemExprs it).flatMap walk).any effectNode) && real.getD i false
    | none => false

/-- `analyze`, with the stamps as they are after it. -/
def analyze (fl : Flat) (closures : Bool) (seen : Seen) : Option (Analysis × Seen) := do
  let n := fl.items.length
  let consts (k : ℕ) : Bool := !closures && constVar fl k
  let sums := summaries fl
  let p ← (List.range n).foldlM (passItem fl sums consts) (.start seen)
  let real ← spread p.regDefs n (n + 1) p.direct
  return ({
    regDefs := p.regDefs
    vars := fl.items.map varsOf
    roots := (List.range n).filter (isRoot fl real) }, p.seen)

/-! ## Definitions by the direct search -/

/-- The definitions of `r` in `is`, which are in descending order, up to an assignment, and
whether there was one. -/
def scan (fl : Flat) (r : ℕ) : List ℕ → List ℕ × Bool
  | [] => ([], false)
  | i :: is =>
    match (fl.items[i]?).map defReg with
    | some (some d, _) => if d = r then ([i], true) else scan fl r is
    | some (none, some w) =>
      if w = r then (i :: (scan fl r is).1, (scan fl r is).2) else scan fl r is
    | _ => scan fl r is

/-- The blocks at which `chase` goes on behind `pb`. -/
def chaseNext (fl : Flat) (r pb : ℕ) : List ℕ :=
  if (scan fl r (fl.range pb).reverse).2 then [] else fl.pred pb

/-- What `chase` finds in `pb`. -/
def chaseCollect (fl : Flat) (r : ℕ) (out : List ℕ) (pb : ℕ) : List ℕ :=
  out ++ (scan fl r (fl.range pb).reverse).1

/-- `chase`: the definitions of `r` that item `p` reads, and the stamps after it. -/
def chase (fl : Flat) (p r : ℕ) (seen : Seen) : Option (List ℕ × Seen) := do
  let b ← fl.blockOf[p]?
  let start := (fl.ranges.getD b (0, 0)).1
  let (out, hit) := scan fl r (List.range' start (p - start)).reverse
  if hit then return (out, seen)
  else do
    let seen := nextStamp seen
    let (stamps, out) ← sweep (chaseNext fl r) (chaseCollect fl r) seen.2 (fuel fl b)
      (fl.pred b).reverse seen.1 out
    return (out, stamps, seen.2)

end Probe
end Lunar
