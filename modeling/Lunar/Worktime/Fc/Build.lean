/-
# How the program of the field analysis is built

`worktime/fc.rs`: `Program::build` with all that it calls.  One pass over the instructions
finds the edges, the leaders, the names of the keys and the entries of the functions; the
next cuts the instructions into blocks at the leaders; then each function gathers the
blocks that its entry reaches and numbers them anew; and last the registers that closures
are put into are followed to the variables and keys that hold them.

An index that is absent (`NONE`) is `none`, except where the analysis keeps it as a number.
The hash maps `by_name` and `entry_of` are places in the lists `names` and `entries`, and
`by_ref` is a list of pairs.  The tables `lead`, `block_at`, `stamp` and `local` are
functions.  `Built` holds with the program what only its build uses.
-/

import Lunar.Lib.Csr
import Lunar.Lib.Loop
import Lunar.Worktime.Config
import Lunar.Worktime.Fc.Solver

namespace Lunar
namespace Fc

open Lib (Double)
open Worktime (Instr Op Operand PoolRef PowKeys instrIndex)

def FC_HEADER : String := "x-kpsdk-fc"

def DYNAMIC_CONFIG : String := "dynamicConfig"

def FEATURE_FLAGS : String := "featureFlags"

def MAX_INSTRS : ℕ := 2 ^ 28

def MAX_REGISTER : ℕ := 4096

def MAX_VARIABLE : ℤ := 2 ^ 20

def BIND_SCAN : ℕ := 256

inductive FcError
  | empty
  | tooLarge (instrs : ℕ)
  | target (pc : ℕ) (target : ℤ)
  | entry (pc : ℕ) (entry : ℤ)
  | register (pc reg : ℕ)
  | variable (pc : ℕ) (id : ℤ)
  | untrackable (param : String)
  deriving DecidableEq, Repr

/-! ## Names of keys -/

def eqAscii (units : List UInt16) (ascii : String) : Bool :=
  Worktime.eqAscii (units.map UInt16.toNat) ascii

/-- The digits of `canonical_index`, after the sign. -/
def indexDigits : List UInt16 → ℤ → Option ℤ
  | [], v => some v
  | d :: digits, v =>
    if 0x30 ≤ d ∧ d ≤ 0x39 then indexDigits digits (v * 10 + (d.toNat - 0x30)) else none

def canonicalIndex (u : List UInt16) : Option ℤ :=
  let (neg, digits) := if u.head? = some 0x2d then (true, u.tail) else (false, u)
  if digits = [] ∨ 15 < digits.length then none
  else if digits.head? = some 0x30 ∧ (1 < digits.length ∨ neg) then none
  else (indexDigits digits 0).map fun v => if neg then -v else v

def keyName (op : Operand) (pool : List UInt16) : Option KeyName :=
  match op with
  | .str r =>
    let u := r.units pool
    some (match canonicalIndex u with
      | some i => .index i
      | none => .units u)
  | .int i => some (.index i)
  | .dbl bits =>
    let d := Double.ofBits bits
    if d.isFinite ∧ d.isInt ∧ d.abs.lt (.ofNat (2 ^ 53)) then some (.index (d.toI 64)) else none
  | .true => some (.lit 0)
  | .false => some (.lit 1)
  | .null => some (.lit 2)
  | .undef => some (.lit 3)
  | .reg _ => none

/-! ## Edges -/

abbrev Edge := Option ℕ × Option ℕ

def branchTarget (instrs : List Instr) (ins : Instr) : Except FcError ℕ :=
  let raw :=
    match ins.op.flow with
    | .jump => ins.arg 0
    | _ => ins.arg 1
  let target :=
    match raw with
    | .int t => t
    | _ => -1
  match ins.target.bind (instrIndex instrs) with
  | some i => .ok i
  | none => .error (.target ins.pc target)

def handlerTarget (instrs : List Instr) (ins : Instr) : Except FcError (Option ℕ) :=
  match ins.arg 0 with
  | .int t =>
    if 0 ≤ t then
      match instrIndex instrs t.toNat with
      | some i => .ok (some i)
      | none => .error (.target ins.pc t)
    else .error (.target ins.pc t)
  | _ => .ok none

/-- The instruction after the `i`-th. -/
def after (instrs : List Instr) (i : ℕ) : Option ℕ :=
  if i + 1 < instrs.length then some (i + 1) else none

/-- The instructions that follow the `i`-th. -/
def edge (instrs : List Instr) (i : ℕ) (ins : Instr) : Except FcError Edge :=
  let next := after instrs i
  match ins.op.flow with
  | .next =>
    match ins.op with
    | .setCatch | .setFinally => do return (next, ← handlerTarget instrs ins)
    | _ => .ok (next, none)
  | .jump => do return (some (← branchTarget instrs ins), none)
  | .branchIfTrue | .branchIfFalse => do return (next, some (← branchTarget instrs ins))
  | .exit => .ok (none, none)

/-! ## The pass over the instructions -/

/-- The variables of the pass. -/
structure Scan where
  aux : List Aux
  succ : List Edge
  lead : ℕ → Bool
  byRef : List (PoolRef × ℕ)
  names : List KeyName
  entries : List ℕ
  nvars : ℕ
  nallocs : ℕ
  siteLen : List ℕ
  dynKey : Option ℕ
  ffKey : Option ℕ
  hdrKey : Option ℕ
  seeded : Bool

/-- A leader, if there is one. -/
def mark (lead : ℕ → Bool) : Option ℕ → ℕ → Bool
  | some t => Function.update lead t true
  | none => lead

/-- The operands that are the name of the header. -/
def headerBits (pool : List UInt16) (ins : Instr) : ℕ :=
  ins.args.zipIdx.foldl (fun hdr e =>
    match e.1 with
    | .str r => if eqAscii (r.units pool) FC_HEADER then hdr ||| 1 <<< e.2 else hdr
    | _ => hdr) 0

/-- The edge of the `i`-th instruction is noted, and the leaders that it makes. -/
def Scan.flow (s : Scan) (instrs : List Instr) (i : ℕ) (e : Edge) : Scan :=
  let next := after instrs i
  { s with
    lead :=
      if e.1 ≠ next ∨ e.2 ≠ none then mark (mark (mark s.lead e.1) e.2) next else s.lead
    succ := s.succ ++ [e] }

/-- A name that is new. -/
def Scan.addName (s : Scan) (name : KeyName) : Scan :=
  let id := s.names.length
  let s := { s with names := s.names ++ [name] }
  match name with
  | .units u =>
    if eqAscii u DYNAMIC_CONFIG then { s with dynKey := some id }
    else if eqAscii u FEATURE_FLAGS then { s with ffKey := some id }
    else if eqAscii u FC_HEADER then { s with hdrKey := some id }
    else s
  | .index _ | .lit _ => s

/-- The number of a name, which is added if it is new. -/
def Scan.idOf (s : Scan) (name : KeyName) : ℕ × Scan :=
  match s.names.idxOf? name with
  | some id => (id, s)
  | none => (s.names.length, s.addName name)

/-- The number of a string's name, if the string has been met. -/
def Scan.cached (s : Scan) : Operand → Option ℕ
  | .str r => s.byRef.lookup r
  | _ => none

def Scan.cache (s : Scan) (key : Operand) (id : ℕ) : Scan :=
  match key with
  | .str r => { s with byRef := (r, id) :: s.byRef }
  | _ => s

/-- The number of the name of a key. -/
def Scan.nameOf (s : Scan) (pool : List UInt16) (key : Operand) : Option ℕ × Scan :=
  match s.cached key with
  | some id => (some id, s)
  | none =>
    match keyName key pool with
    | some name =>
      let (id, s) := s.idOf name
      (some id, s.cache key id)
    | none => (none, s)

/-- A property access: its key. -/
def Scan.keyed (s : Scan) (pool : List UInt16) (ins : Instr) (a : Aux) : Aux × Scan :=
  match s.nameOf pool (ins.arg 1) with
  | (some id, s) =>
    let seeds := ins.op = .getProp ∧ (some id = s.dynKey ∨ some id = s.ffKey)
    ({ a with key := some id }, if seeds then { s with seeded := true } else s)
  | (none, s) => (a, s)

/-- An array: its site. -/
def Scan.allocated (s : Scan) (ins : Instr) (a : Aux) : Aux × Scan :=
  let len :=
    match ins.op, ins.arg 0 with
    | .newArrN, .int k => (max 0 (min k MAX_INDEX)).toNat
    | _, _ => 0
  ({ a with site := s.nallocs },
    { s with nallocs := s.nallocs + 1, siteLen := s.siteLen ++ [len] })

/-- A closure: the function at its entry, which becomes a leader. -/
def Scan.entered (s : Scan) (instrs : List Instr) (ins : Instr) (a : Aux) :
    Except FcError (Aux × Scan) :=
  let entry :=
    match ins.arg 0 with
    | .int e => e
    | _ => -1
  match if 0 ≤ entry then instrIndex instrs entry.toNat else none with
  | none => .error (.entry ins.pc entry)
  | some idx =>
    let lead := Function.update s.lead idx true
    match s.entries.idxOf? idx with
    | some f => .ok ({ a with site := f }, { s with lead })
    | none =>
      .ok ({ a with site := s.entries.length }, { s with lead, entries := s.entries ++ [idx] })

/-- A variable, which is counted. -/
def Scan.counted (s : Scan) (ins : Instr) : Except FcError Scan :=
  match ins.arg 0 with
  | .int id =>
    if MAX_VARIABLE ≤ id then .error (.variable ins.pc id)
    else .ok (if 0 ≤ id then { s with nvars := max s.nvars (id.toNat + 1) } else s)
  | _ => .ok s

/-- What an instruction adds to the tables. -/
def Scan.tables (s : Scan) (instrs : List Instr) (pool : List UInt16) (ins : Instr) (a : Aux) :
    Except FcError (Aux × Scan) :=
  match ins.op with
  | .getProp | .setProp => .ok (s.keyed pool ins a)
  | .newArr | .newArrN => .ok (s.allocated ins a)
  | .closure => s.entered instrs ins a
  | .getVar | .assignVar | .setVar | .clearVar | .setVarSelf | .setVarExc => do
    return (a, ← s.counted ins)
  | _ => .ok (a, s)

/-- A turn of the pass, with the `i`-th instruction. -/
def Scan.step (instrs : List Instr) (pool : List UInt16) (s : Scan) (e : Instr × ℕ) :
    Except FcError Scan := do
  let (ins, i) := e
  let hdr := headerBits pool ins
  let s := { s with seeded := s.seeded || hdr ≠ 0 }
  let s := s.flow instrs i (← edge instrs i ins)
  let (a, s) ← s.tables instrs pool ins ⟨none, hdr, NONE⟩
  return { s with aux := s.aux ++ [a] }

/-- The variables before the pass. -/
def Scan.start : Scan where
  aux := []
  succ := []
  lead := Function.update (fun _ => false) 0 true
  byRef := []
  names := []
  entries := [0]
  nvars := 0
  nallocs := 0
  siteLen := []
  dynKey := none
  ffKey := none
  hdrKey := none
  seeded := false

def scan (instrs : List Instr) (pool : List UInt16) : Except FcError Scan :=
  instrs.zipIdx.foldlM (Scan.step instrs pool) .start

/-! ## Blocks -/

/-- `Block`, with the fields that only the build uses. -/
structure BasicBlock extends Block where
  succ : Edge
  maxReg : ℕ
  regPc : ℕ
  hasSelf : Bool

/-- The registers of an instruction. -/
def regsOf (ins : Instr) : List ℕ :=
  (ins.args.filterMap fun
    | .reg r => some r
    | _ => none) ++ ins.dest.toList

def BasicBlock.noteReg (pc : ℕ) (b : BasicBlock) (r : ℕ) : BasicBlock :=
  if b.maxReg < r then { b with maxReg := r, regPc := pc } else b

/-- The `i`-th instruction is added to the block. -/
def BasicBlock.add (i : ℕ) (ins : Instr) (b : BasicBlock) : BasicBlock :=
  let b := (regsOf ins).foldl (noteReg ins.pc) { b with stop := i + 1 }
  if ins.op = .setVarSelf then { b with hasSelf := true } else b

def BasicBlock.new (i : ℕ) (ins : Instr) : BasicBlock := ⟨⟨i, i⟩, (none, none), 3, ins.pc, false⟩

/-- A block that is not there. -/
def BasicBlock.empty : BasicBlock := ⟨⟨0, 0⟩, (none, none), 3, 0, false⟩

/-- The variables of the pass that makes the blocks. -/
structure Cutting where
  blocks : List BasicBlock
  blockAt : ℕ → ℕ

def Cutting.step (lead : ℕ → Bool) (s : Cutting) (e : Instr × ℕ) : Cutting :=
  let (ins, i) := e
  let blocks := if lead i then s.blocks ++ [.new i ins] else s.blocks
  let b := blocks.length - 1
  { blocks := blocks.modify b (.add i ins), blockAt := Function.update s.blockAt i b }

/-- The successors of a block, from those of its last instruction. -/
def BasicBlock.link (succ : List Edge) (blockAt : ℕ → ℕ) (b : BasicBlock) : BasicBlock :=
  let last := succ.getD (b.stop - 1) (none, none)
  { b with succ := (last.1.map blockAt, last.2.map blockAt) }

/-! ## Functions -/

/-- The variables of the search for the blocks of a function. -/
structure Walk where
  stamp : ℕ → ℕ
  stack : List ℕ
  fblocks : List ℕ

def Walk.push (s : ℕ) (w : Walk) : Option ℕ → Walk
  | some t =>
    if w.stamp t ≠ s then
      { w with stamp := Function.update w.stamp t s, stack := t :: w.stack }
    else w
  | none => w

def Walk.turn (blocks : List BasicBlock) (s : ℕ) (w : Walk) : Option Walk :=
  match w.stack with
  | [] => none
  | b :: stack =>
    let succ := (blocks.getD b .empty).succ
    some ((({ w with stack, fblocks := w.fblocks ++ [b] } : Walk).push s succ.1).push s succ.2)

/-- The search from the block `eb`, with a turn for every block. -/
def gather (blocks : List BasicBlock) (stamp : ℕ → ℕ) (s eb : ℕ) : Walk :=
  let w : Walk := ⟨Function.update stamp eb s, [eb], []⟩
  (Lib.loop (Walk.turn blocks s) (blocks.length + 1) w).getD w

/-- What is found so far of the functions: the closures that variables and keys may hold are
pairs of the variable or the key and of the function. -/
structure Functions where
  stamp : ℕ → ℕ
  local_ : ℕ → ℕ
  fblocks : List ℕ
  fsucc : List Edge
  funcs : List Func
  varPairs : List (ℕ × ℕ)

/-- The variables that a block of the function `f` stores the function itself in. -/
def selfPairs (instrs : List Instr) (f : ℕ) (b : BasicBlock) : List (ℕ × ℕ) :=
  if b.hasSelf then
    ((instrs.take b.stop).drop b.start).filterMap fun ins =>
      match ins.op, ins.arg 0 with
      | .setVarSelf, .int id => if 0 ≤ id then some (id.toNat, f) else none
      | _, _ => none
  else []

/-- The variables of the loop over the blocks of a function. -/
structure Members where
  local_ : ℕ → ℕ
  maxReg : ℕ
  varPairs : List (ℕ × ℕ)

/-- The `k`-th block of the function `f`. -/
def Members.step (instrs : List Instr) (blocks : List BasicBlock) (f : ℕ) (s : Members)
    (e : ℕ × ℕ) : Except FcError Members :=
  let (b, k) := e
  let blk := blocks.getD b .empty
  if MAX_REGISTER ≤ blk.maxReg then .error (.register blk.regPc blk.maxReg)
  else .ok {
    local_ := Function.update s.local_ b k
    maxReg := max s.maxReg blk.maxReg
    varPairs := s.varPairs ++ selfPairs instrs f blk }

/-- The function `f` at an entry. -/
def Functions.step (instrs : List Instr) (blocks : List BasicBlock) (blockAt : ℕ → ℕ)
    (s : Functions) (e : ℕ × ℕ) : Except FcError Functions := do
  let (entry, f) := e
  let eb := blockAt entry
  let w := gather blocks s.stamp (f + 1) eb
  let own := w.fblocks.insertionSort (· ≤ ·)
  let m ← own.zipIdx.foldlM (Members.step instrs blocks f) ⟨s.local_, 3, s.varPairs⟩
  return {
    stamp := w.stamp
    local_ := m.local_
    fblocks := s.fblocks ++ own
    fsucc := s.fsucc ++ own.map fun b =>
      let sc := (blocks.getD b .empty).succ
      (sc.1.map m.local_, sc.2.map m.local_)
    funcs := s.funcs ++ [⟨s.fblocks.length, own.length, m.local_ eb, m.maxReg + 1⟩]
    varPairs := m.varPairs }

def functions (instrs : List Instr) (blocks : List BasicBlock) (blockAt : ℕ → ℕ)
    (entries : List ℕ) : Except FcError Functions :=
  entries.zipIdx.foldlM (Functions.step instrs blocks blockAt)
    ⟨fun _ => 0, fun _ => 0, [], [], [], []⟩

/-! ## Where closures are put -/

/-- The variables and the keys that hold a function. -/
structure Holders where
  vars : List (ℕ × ℕ)
  methods : List (ℕ × ℕ)

/-- What an instruction with the register `reg` among its operands does with the function. -/
def Holders.add (p : Holders) (s : Scan) (j : ℕ) (cur : Instr) (reg : Operand) (f : ℕ) : Holders :=
  match cur.op with
  | .assignVar | .setVar =>
    match cur.arg 0 with
    | .int id =>
      if cur.arg 1 = reg ∧ 0 ≤ id then { p with vars := p.vars ++ [(id.toNat, f)] } else p
    | _ => p
  | .setProp =>
    if cur.arg 2 = reg ∧ cur.arg 0 ≠ reg then
      match (s.aux[j]?).bind Aux.key with
      | some k =>
        match s.names[k]? with
        | some (.index _) | none => p
        | some _ => { p with methods := p.methods ++ [(k, f)] }
      | none => p
    else p
  | _ => p

/-- The instructions from `j` on, as far as one with the register. -/
def follow (instrs : List Instr) (s : Scan) (r f : ℕ) : ℕ → Option ℕ → Holders → Holders
  | 0, _, p => p
  | _, none, p => p
  | steps + 1, some j, p =>
    match instrs[j]? with
    | none => p
    | some cur =>
      if cur.args.contains (.reg r) then p.add s j cur (.reg r) f
      else if cur.dest = some r ∨ (cur.op = .callM ∧ r = 2) then p
      else
        match cur.op.flow with
        | .next | .jump => follow instrs s r f steps ((s.succ[j]?).bind Prod.fst) p
        | _ => p

/-- The `i`-th instruction, if it makes a closure. -/
def Holders.step (instrs : List Instr) (s : Scan) (p : Holders) (e : Instr × ℕ) : Holders :=
  let (ins, i) := e
  match ins.op, ins.dest, s.aux[i]? with
  | .closure, some r, some a =>
    follow instrs s r a.site BIND_SCAN ((s.succ[i]?).bind Prod.fst) p
  | _, _, _ => p

/-! ## `Program::build` -/

/-- `Program`, with what only its build uses: the successors of the blocks among them. -/
structure Built where
  program : Program
  basic : List BasicBlock
  seeded : Bool

/-- The key that a parameter is read at. -/
def Scan.lookup (s : Scan) (pool : List UInt16) (r : PoolRef) : Option ℕ :=
  (keyName (.str r) pool).bind s.names.idxOf?

def build (instrs : List Instr) (pool : List UInt16) (keys : PowKeys) : Except FcError Built := do
  if instrs = [] then throw .empty
  if MAX_INSTRS ≤ instrs.length then throw (.tooLarge instrs.length)
  let s ← scan instrs pool
  let cut := instrs.zipIdx.foldl (Cutting.step s.lead) ⟨[], fun _ => 0⟩
  let blocks := cut.blocks.map (.link s.succ cut.blockAt)
  let fs ← functions instrs blocks cut.blockAt s.entries
  let held := instrs.zipIdx.foldl (Holders.step instrs s) ⟨fs.varPairs, []⟩
  let (varOff, varItems) := Lib.Csr.csr 0 held.vars s.nvars
  let (methodOff, methodItems) := Lib.Csr.csr 0 held.methods s.names.length
  return {
    program := {
      instrs
      aux := s.aux
      names := s.names
      blocks := blocks.map BasicBlock.toBlock
      fblocks := fs.fblocks
      fsucc := fs.fsucc
      funcs := fs.funcs
      nvars := s.nvars
      varOff, varItems, methodOff, methodItems
      siteLen := s.siteLen
      nallocs := s.nallocs
      pow := fun
        | 0 => s.lookup pool keys.difficulty
        | 1 => s.lookup pool keys.subCount
        | 2 => s.lookup pool keys.seedSuffix
        | 3 => s.lookup pool keys.seedPhrase
        | _ => none
      dynKey := s.dynKey
      ffKey := s.ffKey
      hdrKey := s.hdrKey }
    basic := blocks
    seeded := s.seeded }

end Fc
end Lunar
