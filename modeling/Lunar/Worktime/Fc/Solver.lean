/-
# The solver of the field analysis

`worktime/fc.rs`: `Solver` with `child`, `ext`, `from_any`, `rd`, `wr`,
`notify`, `call` and its parts, `transfer`, `run` and `step`.

A location is named by what it holds instead of by its number in `vals`.  The
readers of a location, which the source links through `rhead` and `redge`, are a
list, and its hash maps and sets are functions.

What a function does in a run is a program over the locations (`Lib.Prog`): it
reads and writes them, and it asks the path table for nodes, fires instructions
and adds to the query.  An index out of range gives up, and so does a run that
is out of fuel; the solver steps only by runs that end.
-/

import Lunar.Lib.Prog
import Lunar.Lib.System
import Lunar.Worktime.Fc.Program
import Mathlib.Data.Fintype.Pi

namespace Lunar
namespace Fc

open Lib (Prog)
open Worktime (Instr Op Operand)

/-- The locations of `vals`. -/
inductive Loc
  | var (id : ℕ)
  | field (key : ℕ)
  | any
  | ret (f : ℕ)
  | this (f : ℕ)
  | exc
  | sum (site : ℕ)
  | elem (site i : ℕ)
  deriving DecidableEq, Repr

/-! ## Paths, events and the query -/

def ROOT : ℕ := 0

def NONE : ℕ := 2 ^ 32 - 1

def MAX_PATHS : ℕ := 2 ^ 30

/-- What runs learn besides the values: the table of access paths, the
instructions that have fired, and the query for each of the four keys. -/
structure Facts where
  paths : List (ℕ × ℕ)
  pathIds : ℕ → ℕ → Option ℕ
  fired : ℕ → Bool
  query : ℕ → Taint

namespace Facts

/-- `Solver::child`. -/
def child (s : Facts) (parent key : ℕ) (derived : Bool) : Taint × Facts :=
  match s.pathIds parent key with
  | some id => (.path id derived, s)
  | none =>
    if MAX_PATHS ≤ s.paths.length then (.lost, s)
    else
      let id := s.paths.length
      (.path id derived, { s with
        paths := s.paths ++ [(parent, key)]
        pathIds := fun a b => if a = parent ∧ b = key then some id else s.pathIds a b })

/-- The facts of a new solver, with `dyn_path` and `ff_path`. -/
def new (p : Program) : Taint × Taint × Facts :=
  let s : Facts := ⟨[(NONE, NONE)], fun _ _ => none, fun _ => false, fun _ => .clean⟩
  let (dynPath, s) := match p.dynKey with
    | some key => s.child ROOT key false
    | none => (.clean, s)
  let (ffPath, s) := match p.ffKey with
    | some key => s.child ROOT key false
    | none => (.clean, s)
  (dynPath, ffPath, s)

end Facts

/-- What a program asks of the facts. -/
inductive Query
  /-- The parent and the key of a path, `paths[id]`. -/
  | node (id : ℕ)
  | child (parent key : ℕ) (derived : Bool)
  /-- `fired[i] = true`. -/
  | fire (i : ℕ)
  /-- `query[j] = query[j].join(t)`. -/
  | query (j : ℕ) (t : Taint)

@[reducible] def Answer : Query → Type
  | .node _ => ℕ × ℕ
  | .child _ _ _ => Taint
  | .fire _ => Unit
  | .query _ _ => Unit

def answer : (q : Query) → Facts → Option (Answer q × Facts)
  | .node id, s => (s.paths[id]?).map fun node => (node, s)
  | .child parent key derived, s => some (s.child parent key derived)
  | .fire i, s => some ((), { s with fired := fun k => if k = i then true else s.fired k })
  | .query j t, s =>
    some ((), { s with query := fun k => if k = j then s.query j ⊔ t else s.query k })

/-- Programs over the locations. -/
abbrev M := Prog Loc Val Answer

def rd (l : Loc) : M Val := Prog.read l

/-- A read of which the source keeps the taint. -/
def rdTaint (l : Loc) : M Taint := Val.t <$> rd l

def wr (l : Loc) (v : Val) : M Unit := Prog.write l v

def ask (q : Query) : M (Answer q) := Prog.query q

def fire (i : ℕ) : M Unit := ask (.fire i)

/-- `xs[i]`. -/
def index {α : Type} (xs : List α) (i : ℕ) : M α :=
  match xs[i]? with
  | some a => pure a
  | none => .fail

section Transfer

variable (p : Program)

def dynPath : Taint := (Facts.new p).1

def ffPath : Taint := (Facts.new p).2.1

def child (parent key : ℕ) (derived : Bool) : M Taint :=
  ask (.child parent key derived)

/-- `Solver::ext`: the path `t`, one step further. -/
def ext (t : Taint) (key : ℕ) : M Taint :=
  match t.split with
  | some (parent, derived) => child parent key (derived && parent != ROOT)
  | none => pure t

/-- `Solver::from_any`: an unknown last step of `any` becomes `key`. -/
def fromAny (any : Taint) (key : ℕ) : M Taint :=
  match any.split with
  | some (id, derived) =>
    if id = ROOT then pure any
    else do
      let (parent, k) ← ask (.node id)
      if k = p.wild then child parent key derived else pure any
  | none => pure any

/-- `Solver::find`. -/
def find (site : ℕ) (idx : Int) : Loc :=
  if 0 ≤ idx ∧ idx < p.elemLen site then .elem site idx.toNat else .elem site (p.elemLen site)

def rdElem (site : ℕ) (idx : Int) : M Val := rd (find p site idx)

def wrElem (site : ℕ) (idx : Int) (v : Val) : M Unit := do
  wr (find p site idx) v
  wr (.sum site) v

/-! ## Calls -/

/-- What the elements of an array hold together. -/
def sumOf (v : Val) : M Taint :=
  match v.a.get with
  | some s => rdTaint (.sum s)
  | none => pure .clean

/-- `Solver::spread`. -/
def spread (v : Val) : M Taint := do return v.t ⊔ (← sumOf v)

/-- `Solver::invoke`: the functions that `c` may be are called with `input`. -/
def invoke (c : Tag Callee) (input : Taint) : M Taint :=
  (p.targets c).foldlM (fun out g => do
    wrElem p (p.nallocs + g) ANY (.taint input)
    return out ⊔ (← rd (.ret g)).t.derive) .clean

/-- `Solver::callback`: a native calls `v`, or the elements of the array `v`. -/
def callback (v : Val) (input : Taint) : M Taint := do
  let out ← invoke p v.c input
  match v.a.get with
  | some s =>
    (List.range (p.elemLen s + 1)).foldlM (fun out i => do
      let e ← rd (.elem s i)
      return out ⊔ (← invoke p e.c input)) out
  | none => pure out

/-- `call` hands the rest of an argument array to a target. -/
def passRest (site : ℕ) (rest : Val) : M Unit :=
  if rest ≠ BOTTOM then wrElem p site ANY rest else pure ()

/-- `call` hands the receiver to target `g`. -/
def passThis (g : ℕ) : Option Val → M Unit
  | some th => wr (.this g) (.field th.t)
  | none => pure ()

/-- The body of the loop of `call` over the targets: `g` is called. -/
def activate (g : ℕ) (thisv : Option Val) (args : List Val) (rest : Val) : M Val := do
  args.zipIdx.forM fun a => wrElem p (p.nallocs + g) a.2 a.1
  passRest p (p.nallocs + g) rest
  passThis g thisv
  rd (.ret g)

/-- What a native sees of its receiver and of itself. -/
def nativeThis (fnv : Val) : Option Val → M Taint
  | some th => do return (if fnv.c.isMethod then .clean else fnv.t) ⊔ (← spread th)
  | none => pure fnv.t

/-- A native that saw `t` may write it to the array that is its receiver. -/
def writeBack (th : Val) (t : Taint) : M Unit :=
  match th.a.get with
  | some s => wrElem p s ANY (.taint t)
  | none => pure ()

/-- A native that saw `t` may call its receiver back. -/
def callbackThis (t : Taint) : Option Val → M Taint
  | some th => do
    let r := t ⊔ (← callback p th t)
    writeBack p th t
    return r
  | none => pure t

/-- What `call` does when the callee is not known: a native is called, which
may call its arguments back and write to its receiver. -/
def native (fnv : Val) (thisv : Option Val) (args : List Val) (rest : Val) : M Taint := do
  let t ← nativeThis fnv thisv
  let t ← args.foldlM (fun t a => do return t ⊔ (← spread a)) t
  let t := (t ⊔ (← spread rest)).derive
  let r ← callbackThis p t thisv
  let r ← args.foldlM (fun r a => do return r ⊔ (← callback p a t)) r
  return r ⊔ (← callback p rest t)

/-- The result of a call whose targets returned `out`. -/
def result (fnv : Val) (thisv : Option Val) (args : List Val) (rest out : Val) : M Val :=
  if (p.targets fnv.c).isEmpty || fnv.c.isMethod then do
    let r ← native p fnv thisv args rest
    return if (p.targets fnv.c).isEmpty then .taint r else { out with t := out.t ⊔ r }
  else pure out

/-- A call fires when the name of the header is among its arguments. -/
def header (i : ℕ) (args : List Val) (rest out : Val) : M Val :=
  if args.any (fun a => a.h == .yes) || rest.h == .yes then do
    fire i
    return { out with t := out.t ⊔ .path ROOT false }
  else pure out

/-- `Solver::call`. -/
def call (i : ℕ) (fnv : Val) (thisv : Option Val) (args : List Val) (rest : Val) : M Val := do
  let out ← (p.targets fnv.c).foldlM (fun out g => do
    return out ⊔ (← activate p g thisv args rest)) BOTTOM
  let out ← result p fnv thisv args rest out.live
  header i args rest out

/-- `Solver::expand`: the elements of an argument array, and the rest. -/
def expand (arr : Val) : M (List Val × Val) :=
  match arr.a.get with
  | some s => do
    let len := p.elemLen s
    let buf ← (List.range len).mapM fun i => rd (.elem s i)
    return (buf, ← rd (.elem s len))
  | none => pure ([], .taint arr.t)

/-! ## Instructions -/

variable {n : ℕ}

/-- A register that holds the name of the header. -/
def isHeader (regs : Regs n) : Operand → Bool
  | .reg k => (regs.get k).h == .yes
  | _ => false

/-- `get_prop` at a key that is not known. -/
def getAny (i : ℕ) (ins : Instr) (regs : Regs n) (o : Val) (any : Taint) : M Val := do
  let t := (← ext o.t p.wild) ⊔ any
  let t := t ⊔ (← sumOf o)
  if isHeader regs (ins.arg 1) then do
    fire i
    return .taint (t ⊔ .path ROOT false)
  else return .taint t

/-- `get_prop` of the name `name`, number `kid`; `base` is the path of the
property. -/
def getNamed (o : Val) (base : Taint) (kid : ℕ) : KeyName → M Val
  | .index ix =>
    match o.a.get with
    | some s =>
      if 0 ≤ ix ∧ ix < MAX_INDEX then do
        let e ← rdElem p s ix
        let e := (e ⊔ (← rdElem p s ANY)).live
        return { e with t := base ⊔ e.t }
      else do return .taint (base ⊔ (← rdTaint (.field kid)))
    | none => do return .taint (base ⊔ (← rdTaint (.field kid)))
  | _ => do
    return ⟨base ⊔ (← rdTaint (.field kid)), .of (.method kid), .conflict, .conflict⟩

/-- The keys at which `get_prop` reads the document. -/
def seed (i kid : ℕ) (v : Val) : M Val :=
  if p.dynKey = some kid then do
    fire i
    return { v with t := v.t ⊔ dynPath p }
  else if p.ffKey = some kid then do
    fire i
    return { v with t := v.t ⊔ ffPath p }
  else if p.hdrKey = some kid then do
    fire i
    return { v with t := v.t ⊔ .path ROOT false }
  else pure v

/-- `get_prop` adds a read of one of the four keys to the query. -/
def observe (kid : ℕ) (t : Taint) : M Unit :=
  (List.range 4).forM fun j => if p.pow j = some kid then ask (.query j t) else pure ()

/-- `Solver::get_prop`. -/
def getProp (i : ℕ) (ins : Instr) (aux : Aux) (regs : Regs n) : M Val := do
  let o := regs.opv (ins.arg 0) false
  let any ← rdTaint .any
  match aux.key with
  | none => getAny p i ins regs o any
  | some kid => do
    let base ← if o.t = .clean then fromAny p any kid else ext o.t kid
    let v ← getNamed p o base kid (← index p.names kid)
    let v ← seed p i kid v
    observe p kid v.t
    return v

/-- `set_prop` of the name `name`, number `kid`. -/
def setNamed (o v : Val) (kid : ℕ) : KeyName → M Unit
  | .index ix =>
    match o.a.get with
    | some s => if 0 ≤ ix ∧ ix < MAX_INDEX then wrElem p s ix v else wr (.field kid) (.field v.t)
    | none => wr (.field kid) (.field v.t)
  | _ => wr (.field kid) (.field v.t)

/-- `Solver::set_prop`. -/
def setProp (ins : Instr) (aux : Aux) (regs : Regs n) : M Unit :=
  let o := regs.opv (ins.arg 0) false
  let v := regs.opv (ins.arg 2) (bit aux.hdr 2)
  match aux.key with
  | none =>
    match o.a.get with
    | some s => wrElem p s ANY v
    | none => wr .any (.field v.t)
  | some kid => do setNamed p o v kid (← index p.names kid)

/-- `if let Some(d) = ins.dest { regs[d] = out }`. -/
def setDest (ins : Instr) (regs : Regs n) (out : Val) : Regs n :=
  match ins.dest with
  | some d => regs.set d out
  | none => regs

/-- `Solver::transfer`: instruction `i` of function `f`. -/
def transfer (f i : ℕ) (regs : Regs n) : M (Regs n) := do
  let ins ← index p.instrs i
  let aux ← index p.aux i
  let dest := setDest ins regs
  match ins.op with
  | .mov => return dest (regs.opv (ins.arg 0) (bit aux.hdr 0))
  | .getVar =>
    match p.var (ins.arg 0) with
    | some id => do
      let s ← Val.live <$> rd (.var id)
      let c := if p.varOff.getD id 0 = p.varOff.getD (id + 1) 0 then s.c else .of (.var id)
      return dest { s with c }
    | none => return dest PLAIN
  | .assignVar | .setVar =>
    match p.var (ins.arg 0) with
    | some id => do
      wr (.var id) (regs.opv (ins.arg 1) (bit aux.hdr 1))
      return regs
    | none => return regs
  | .setVarExc =>
    match p.var (ins.arg 0) with
    | some id => do
      wr (.var id) (.taint (← rdTaint .exc))
      return regs
    | none => return regs
  | .getExc => return dest (.taint (← rdTaint .exc))
  | .throw => do
    wr .exc (.field (regs.opv (ins.arg 0) false).t)
    return regs
  | .ret => do
    wr (.ret f) (regs.opv (ins.arg 0) (bit aux.hdr 0))
    return regs
  | .this => return dest (.taint (← rdTaint (.this f)))
  | .closure => return dest { PLAIN with c := .of (.entry aux.site) }
  | .newArr | .newArrN => return dest { PLAIN with a := .of aux.site }
  | .newObj | .global | .regenRt | .promiseCtor => return dest PLAIN
  | .getProp => return dest (← getProp p i ins aux regs)
  | .setProp => do
    setProp p ins aux regs
    return regs
  | .call0 | .call1 | .call2 | .call3 => do
    let args := ((ins.args.zipIdx).drop 1).map fun a => regs.opv a.1 (bit aux.hdr a.2)
    return dest (← call p i (regs.opv (ins.arg 0) false) none args BOTTOM)
  | .callM => do
    let (buf, rest) ← expand p (regs.opv (ins.arg 2) false)
    let thisv := regs.opv (ins.arg 0) false
    return regs.set 2 (← call p i (regs.opv (ins.arg 1) false) (some thisv) buf rest)
  | .new => do
    let (buf, rest) ← expand p (regs.opv (ins.arg 1) false)
    return dest (← call p i (regs.opv (ins.arg 0) false) none buf rest)
  | _ =>
    if ins.dest.isNone then return regs
    else
      let t := ins.args.foldl (fun t op => t ⊔ (regs.opv op false).t) .clean
      return dest (.taint t.derive)

/-! ## Runs of a function -/

/-- The blocks of a function in a run: the registers at each, whether it has
been reached, and whether it is to be visited. -/
structure Blocks (n : ℕ) where
  states : ℕ → Regs n
  reached : ℕ → Bool
  dirty : ℕ → Bool

/-- The registers flow into a successor. -/
def Blocks.flow (st : Blocks n) (regs : Regs n) : Option ℕ → Blocks n
  | none => st
  | some s =>
    if st.reached s then
      let j := st.states s ⊔ regs
      if j = st.states s then st
      else { st with
        states := Function.update st.states s j
        dirty := Function.update st.dirty s true }
    else
      { states := Function.update st.states s regs
        reached := Function.update st.reached s true
        dirty := Function.update st.dirty s true }

/-- The instructions of block `b` of a function. -/
def block (f : ℕ) (func : Func) (b : ℕ) (regs : Regs n) : M (Regs n) := do
  let blk ← index p.blocks (← index p.fblocks (func.first + b))
  (List.range' blk.start (blk.stop - blk.start)).foldlM (fun regs i => transfer p f i regs) regs

/-- The loop body of `run`: a block is visited if it is dirty. -/
def visit (f : ℕ) (func : Func) (st : Blocks n × Bool) (b : ℕ) : M (Blocks n × Bool) :=
  if st.1.dirty b then do
    let regs ← block p f func b (st.1.states b)
    let succ ← index p.fsucc (func.first + b)
    let st := { st.1 with dirty := Function.update st.1.dirty b false }
    return ((st.flow regs succ.1).flow regs succ.2, true)
  else return st

/-- The loop of `run`, for at most `fuel` sweeps over the blocks. -/
def sweeps (f : ℕ) (func : Func) : ℕ → Blocks n → M (Blocks n)
  | 0, _ => .fail
  | fuel + 1, st => do
    let (st, progress) ← (List.range func.count).foldlM (visit p f func) (st, false)
    if progress then sweeps f func fuel st else return st

/-- The registers at the entry of a function. -/
def entry (f : ℕ) (func : Func) : M (Regs func.nregs) := do
  let site := p.nallocs + f
  let len := p.elemLen site
  let rest ← rd (.elem site len)
  let params ← (List.range len).mapM fun j => rd (.elem site j)
  return fun r =>
    if r.val < 3 then PLAIN
    else if r.val = 3 then { PLAIN with a := .of site }
    else
      let v := params.getD (r.val - 4) BOTTOM
      if rest ≠ BOTTOM then v ⊔ rest else v

/-- `Solver::run`: function `f` from scratch. -/
def run (f : ℕ) (func : Func) (fuel : ℕ) : M (Blocks func.nregs) := do
  let regs ← entry p f func
  sweeps p f func fuel
    { states := Function.update (fun _ _ => BOTTOM) func.entry regs
      reached := Function.update (fun _ => false) func.entry true
      dirty := Function.update (fun _ => false) func.entry true }

end Transfer

/-! ## The work list -/

/-- `Solver`, less the scratch space of a run. -/
structure Solver where
  vals : Loc → Val
  marks : Loc → ℕ
  readers : Loc → List ℕ
  seen : Loc → ℕ → Bool
  facts : Facts
  queue : List ℕ
  queued : ℕ → Bool
  cur : ℕ
  runId : ℕ

namespace Solver

/-- `Solver::new`. -/
def new (p : Program) : Solver where
  vals _ := BOTTOM
  marks _ := 0
  readers _ := []
  seen _ _ := false
  facts := (Facts.new p).2.2
  queue := List.range p.funcs.length
  queued f := decide (f < p.funcs.length)
  cur := 0
  runId := 0

/-- `Solver::rd`: the running function becomes a reader of `l`. -/
def rd (l : Loc) (s : Solver) : Val × Solver :=
  (s.vals l,
    if s.marks l ≠ s.runId then
      let marks := Function.update s.marks l s.runId
      if (s.readers l).head? ≠ some s.cur ∧ s.seen l s.cur = false then
        { s with
          marks
          seen := Function.update s.seen l (Function.update (s.seen l) s.cur true)
          readers := Function.update s.readers l (s.cur :: s.readers l) }
      else { s with marks }
    else s)

/-- The body of the loop of `notify`. -/
def enqueue (s : Solver) (f : ℕ) : Solver :=
  if s.queued f then s
  else { s with queued := Function.update s.queued f true, queue := s.queue ++ [f] }

/-- `Solver::notify`. -/
def notify (l : Loc) (s : Solver) : Solver := (s.readers l).foldl enqueue s

/-- The changes of a location that `wr` takes for observable. -/
def observable (l : Loc) (old new : Val) : Bool :=
  match l with
  | .var _ => new.live != old.live
  | .ret _ | .elem _ _ => true
  | .field _ | .any | .this _ | .exc | .sum _ => new.t != old.t

/-- `Solver::wr`. -/
def wr (l : Loc) (v : Val) (s : Solver) : Solver :=
  let old := s.vals l
  let new := old ⊔ v
  if new = old then s
  else
    let s := { s with vals := Function.update s.vals l new }
    if observable l old new then s.notify l else s

/-- The operations of a run. -/
def handler : Lib.Handler Solver Loc Val Answer where
  rd := rd
  wr := wr
  ask q s := (answer q s.facts).map fun r => (r.1, { s with facts := r.2 })

/-- The state in which `step` runs the function at the head of the queue. -/
def pop (s : Solver) (f : ℕ) (rest : List ℕ) : Solver :=
  { s with queue := rest, queued := Function.update s.queued f false, runId := s.runId + 1, cur := f }

/-- `Solver::step`. -/
def step (p : Program) (s : Solver) (fuel : ℕ) : Option Solver :=
  match s.queue with
  | [] => none
  | f :: rest =>
    (p.funcs[f]?).bind fun func =>
      ((run p f func fuel).exec handler (s.pop f rest)).map Prod.snd

/-- The solver on its way through the work list. -/
def system (p : Program) : Lib.System Solver ℕ := ⟨new p, step p⟩

end Solver
end Fc
end Lunar
