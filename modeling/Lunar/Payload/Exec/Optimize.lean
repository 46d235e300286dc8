/-
# The optimiser of the register code

`payload/exec.rs`: `nodes_of`, `dead_stores`, `targets_of`, `def_before`,
`fuse_apply` and `optimize`.  A vector is a list, written with `set` and read with
`getD`; a loop is a recursion over its counter.  The absent successor (`NONE`) is
`none`.
-/

import Lunar.Payload.Exec.Op

namespace Lunar
namespace Exec

def THREAD_HOPS : ℕ := 8

def DSE_ROUNDS : ℕ := 64

/-- `Node`: what the liveness analysis reads of an op. -/
structure Node where
  uses : Mask
  def_ : Mask
  s1 : Option ℕ
  s2 : Option ℕ
  pure : Bool
  throws : Bool
  fall : Bool
  handler : Bool
  deriving DecidableEq, Repr

/-- The targets of an op, whether it falls through, and whether it leaves for a
handler. -/
def exits : Op → Option ℕ × Option ℕ × Bool × Bool
  | .j tgt => (some tgt, none, false, false)
  | .jf _ tgt | .jt _ tgt | .jn _ tgt => (some tgt, none, true, false)
  | .br _ _ thn els | .brK _ _ _ _ thn els | .brVarK _ _ _ _ _ _ thn els =>
      (some thn, some els, false, false)
  | .jump _ | .ret _ | .throw _ => (none, none, false, true)
  | .fail _ _ => (none, none, false, false)
  | _ => (none, none, true, false)

def nodeOf (lists : List ℕ) (op : Op) : Node :=
  let (s1, s2, fall, handler) := exits op
  { uses := opUses lists op
    def_ := ((opDef op).map bit).getD 0
    s1 := s1
    s2 := s2
    pure := opPure op && (opDef op).any (· < 128)
    throws := !opSafe op || handler
    fall := fall
    handler := handler }

def nodesOf (ops : List Op) (lists : List ℕ) : List Node := ops.map (nodeOf lists)

/-- The state of the loops of `dead_stores`. -/
structure Sweep where
  live : List Mask
  keep : List Bool
  changed : Bool
  deriving DecidableEq, Repr

/-- What is live at a target. -/
def liveAt (n : ℕ) (live : List Mask) : Option ℕ → Mask
  | some t => if t < n then live.getD t 0 else 0
  | none => 0

/-- What is live after node `i`. -/
def liveOut (n : ℕ) (live : List Mask) (hl : Mask) (nd : Node) (i : ℕ) : Mask :=
  liveAt n live nd.s1 ||| liveAt n live nd.s2 |||
    (if nd.fall then live.getD (i + 1) 0 else 0) ||| (if nd.throws then hl else 0)

/-- A store that nothing reads. -/
def deadNode (nd : Node) (out : Mask) : Bool := nd.pure && (out &&& nd.def_) == 0

/-- What is live before a node, from what is live after it. -/
def liveIn (nd : Node) (out : Mask) : Mask :=
  if deadNode nd out then out else (out &&& ~~~nd.def_) ||| nd.uses

def visit (nodes : List Node) (hl : Mask) (i : ℕ) (s : Sweep) : Sweep :=
  match nodes[i]? with
  | none => s
  | some nd =>
      let out := liveOut nodes.length s.live hl nd i
      let keep := s.keep.set i (!deadNode nd out)
      let li := liveIn nd out
      if li = s.live.getD i 0 then { s with keep := keep }
      else { live := s.live.set i li, keep := keep, changed := true }

/-- The nodes below `i`, the last one first. -/
def sweep (nodes : List Node) (hl : Mask) : ℕ → Sweep → Sweep
  | 0, s => s
  | i + 1, s => sweep nodes hl i (visit nodes hl i s)

def handlersOf (n : ℕ) (pcs : List (ℕ × ℕ)) : List ℕ := (pcs.map (·.2)).filter (· < n)

/-- What is live at some handler. -/
def handlerLive (n : ℕ) (pcs : List (ℕ × ℕ)) (live : List Mask) : Mask :=
  (handlersOf n pcs).foldl (fun m h => m ||| live.getD h 0) 0

def deadRounds (nodes : List Node) (pcs : List (ℕ × ℕ)) :
    ℕ → List Mask → List Bool → Option (List Mask × Mask) × List Bool
  | 0, _, keep => (none, keep.map fun _ => true)
  | rounds + 1, live, keep =>
      let hl := handlerLive nodes.length pcs live
      let s := sweep nodes hl nodes.length { live := live, keep := keep, changed := false }
      if s.changed then deadRounds nodes pcs rounds s.live s.keep else (some (s.live, hl), s.keep)

/-- `dead_stores`: the live registers before each op and at the handlers, when the
rounds suffice, and the ops to keep. -/
def deadStores (nodes : List Node) (pcs : List (ℕ × ℕ)) (keep : List Bool) :
    Option (List Mask × Mask) × List Bool :=
  deadRounds nodes pcs DSE_ROUNDS (List.replicate (nodes.length + 2) 0) keep

def opTargets (op : Op) : List ℕ := (exits op).1.toList ++ (exits op).2.1.toList

/-- `targets_of`: the places that a jump, a branch, a handler or the entry names. -/
def targetsOf (ops : List Op) (pcs : List (ℕ × ℕ)) (entryIp : ℕ) : List Bool :=
  (ops.flatMap opTargets ++ pcs.map (·.2) ++ [entryIp]).foldl (fun t x => t.set x true)
    (List.replicate (ops.length + 1) false)

/-- `def_before`: the kept op that last writes `reg` before `j`, up to a target. -/
def defBefore (ops : List Op) (keep target : List Bool) (reg : ℕ) : ℕ → Option ℕ
  | 0 => none
  | j + 1 =>
      if target.getD (j + 1) false then none
      else if !keep.getD j false then defBefore ops keep target reg j
      else if (ops[j]?.bind opDef) = some reg then some j
      else defBefore ops keep target reg j

/-- An `Apply` whose arguments come from two array ops. -/
structure Fusion where
  i1 : ℕ
  i2 : ℕ
  i3 : ℕ
  d : ℕ
  f : ℕ
  t : ℕ
  th : ℕ
  ra : ℕ
  rb : ℕ
  lb : ℕ
  nb : ℕ
  deriving DecidableEq, Repr

def Fusion.elems (u : Fusion) (lists : List ℕ) : List ℕ := slice lists u.lb u.nb

/-- The array ops that the `Apply` at `i3` takes its arguments from. -/
def arraysOf (ops : List Op) (lists : List ℕ) (keep target : List Bool) (i3 : ℕ) :
    Option Fusion := do
  let .apply d f t ra ← ops[i3]? | none
  let i2 ← defBefore ops keep target ra i3
  let .array _ la 2 ← ops[i2]? | none
  let th ← lists[la]?
  let rb ← lists[la + 1]?
  let i1 ← defBefore ops keep target rb i2
  let .array _ lb nb ← ops[i1]? | none
  some { i1 := i1, i2 := i2, i3 := i3, d := d, f := f, t := t, th := th, ra := ra, rb := rb,
         lb := lb, nb := nb }

/-- The registers are told apart, and the two arrays are dead after the call. -/
def Fusion.apart (u : Fusion) (lists : List ℕ) (out : Mask) : Bool :=
  u.ra < 128 && u.rb < 128 && u.ra != u.rb && u.th != u.ra && u.th != u.rb
    && u.f != u.ra && u.t != u.ra && u.f != u.rb && u.t != u.rb
    && (out &&& (bit u.ra ||| bit u.rb)) == 0
    && (u.elems lists).all (fun r => r < 128 && r != u.ra && r != u.rb) && u.th < 128

/-- Op `j` between the first array and the call does not read the arrays and does
not write what the call will read. -/
def Fusion.quiet (u : Fusion) (ops : List Op) (lists : List ℕ) (keep : List Bool) (j : ℕ) : Bool :=
  !keep.getD j false || j == u.i2 ||
    match ops[j]? with
    | none => true
    | some op =>
        let w := ((opDef op).map bit).getD 0
        let bad := bit u.ra ||| bit u.rb ||| maskOf (u.elems lists)
        let bad := if u.i2 < j then bad ||| bit u.th else bad
        (opUses lists op &&& (bit u.ra ||| bit u.rb)) == 0 && (w &&& bad) == 0

/-- The fusion that the turn of `fuse_apply` at `i3` makes. -/
def fusionAt (lists : List ℕ) (live : List Mask) (hl : Mask) (target : List Bool)
    (ops : List Op) (keep : List Bool) (i3 : ℕ) : Option Fusion := do
  if !keep.getD i3 false then none else
  let u ← arraysOf ops lists keep target i3
  if u.apart lists (live.getD (i3 + 1) 0 ||| hl) &&
      (List.range' (u.i1 + 1) (i3 - (u.i1 + 1))).all (u.quiet ops lists keep) then some u else none

def Fusion.fuse (u : Fusion) (s : List Op × List Bool) : List Op × List Bool :=
  (s.1.set u.i3 (.applyL u.d u.f u.t u.th u.lb u.nb), (s.2.set u.i1 false).set u.i2 false)

def fuseTurn (lists : List ℕ) (live : List Mask) (hl : Mask) (target : List Bool)
    (s : List Op × List Bool) (i3 : ℕ) : List Op × List Bool :=
  match fusionAt lists live hl target s.1 s.2 i3 with
  | some u => u.fuse s
  | none => s

/-- `fuse_apply`. -/
def fuseApply (ops : List Op) (lists : List ℕ) (keep : List Bool) (live : List Mask) (hl : Mask)
    (target : List Bool) : List Op × List Bool :=
  (List.range ops.length).foldl (fuseTurn lists live hl target) (ops, keep)

/-- `nk`: the first kept op from each place on, built from the end; `i` is the
place of the first element. -/
def nextKept (n : ℕ) : List Bool → ℕ → List ℕ
  | [], _ => [n]
  | k :: ks, i =>
      let r := nextKept n ks (i + 1)
      (if k then i else r.headD n) :: r

/-- `eff`: the place that a target leads to through dropped ops and jumps. -/
def effHops (ops : List Op) (nk : List ℕ) : ℕ → ℕ → ℕ
  | 0, t => t
  | hops + 1, t =>
      match ops[t]? with
      | some (.j tgt) =>
          let nt := nk.getD tgt ops.length
          if nt = t then t else effHops ops nk hops nt
      | _ => t

def eff (ops : List Op) (nk : List ℕ) (t : ℕ) : ℕ :=
  effHops ops nk THREAD_HOPS (nk.getD t ops.length)

/-- The ops with the targets of the kept ones threaded. -/
def thread (ops : List Op) (keep : List Bool) : List Op :=
  let nk := nextKept ops.length keep 0
  ops.zipWith (fun o k => if k then retarget (eff ops nk) o else o) keep

/-- The jump at `i` leads to where the code goes on without it. -/
def skips (ops : List Op) (fin : List ℕ) (i : ℕ) : Bool :=
  match ops[i]? with
  | some (.j tgt) => decide (i < tgt) && fin.getD tgt ops.length == fin.getD (i + 1) ops.length
  | _ => false

/-- One turn of the loop that fills `fin` and drops such jumps. -/
def finishTurn (ops : List Op) (i : ℕ) (s : List ℕ × List Bool) : List ℕ × List Bool :=
  let keep := if s.2.getD i false && skips ops s.1 i then s.2.set i false else s.2
  (s.1.set i (if keep.getD i false then i else s.1.getD (i + 1) ops.length), keep)

/-- The turns below `i`, the last place first. -/
def finish (ops : List Op) : ℕ → List ℕ × List Bool → List ℕ × List Bool
  | 0, s => s
  | i + 1, s => finish ops i (finishTurn ops i s)

/-- `remap`: the number of kept ops before each place; `c` is the first. -/
def remap : List Bool → ℕ → List ℕ
  | [], c => [c]
  | k :: ks, c => c :: remap ks (if k then c + 1 else c)

/-- A compiled function as far as the optimiser sees it. -/
structure Code where
  ops : List Op
  lists : List ℕ
  nslots : ℕ
  pcs : List (ℕ × ℕ)
  entryIp : ℕ
  deriving DecidableEq, Repr

/-- The ops and the marks after `dead_stores` and `fuse_apply`. -/
def prune (c : Code) : List Op × List Bool :=
  let keep := List.replicate c.ops.length true
  if c.nslots ≤ 128 then
    match deadStores (nodesOf c.ops c.lists) c.pcs keep with
    | (some (live, hl), keep) =>
        fuseApply c.ops c.lists keep live hl (targetsOf c.ops c.pcs c.entryIp)
    | (none, keep) => (c.ops, keep)
  else (c.ops, keep)

/-- The new place of a place `t`. -/
def place (fin rm : List ℕ) (n t : ℕ) : ℕ :=
  match fin[t]? with
  | some k => rm.getD k 0
  | none => rm.getD n 0

/-- The second half of `optimize`: threading and compaction of the pruned ops. -/
def compact (c : Code) (ops : List Op) (keep : List Bool) : Code :=
  let n := ops.length
  let ops := thread ops keep
  let (fin, keep) := finish ops n (List.replicate (n + 1) n, keep)
  let m := place fin (remap keep 0) n
  { c with
    ops := ((ops.zip keep).filter (·.2)).map fun o => retarget m o.1
    pcs := c.pcs.map fun x => (x.1, m x.2)
    entryIp := m c.entryIp }

/-- `optimize`. -/
def optimize (c : Code) : Code := compact c (prune c).1 (prune c).2

end Exec
end Lunar
