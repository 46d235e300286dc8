/-
# The proof of work's configuration

`worktime/config.rs`: `extract` with all that it calls, and what it uses of
`worktime/model.rs`.  A block of the bytecode that freezes an object literal is evaluated
into nodes of an arena; one literal holds a version string and a node with the parameters
of the proof of work; divisions and reads elsewhere in the bytecode tell which parameter
is which.

The strings of the pool are lists of UTF-16 units.  The hash map `vars` is a function,
`visited` the list of the nodes visited, and the bit set of the leaders the list of its
members.  `scanTree` takes as many turns as there are nodes, and one more.
-/

import Lunar.Lib.Double.Exact
import Lunar.Lib.Text
import Lunar.Worktime.Model
import Mathlib.Algebra.Ring.Nat

namespace Lunar
namespace Worktime

open Lib (Double)

/-- `PoolRef::units`, of units as numbers or as machine words. -/
def PoolRef.units {α : Type} (r : PoolRef) (pool : List α) : List α :=
  if r.off + r.len ≤ pool.length then (pool.drop r.off).take r.len else []

/-- `eq_ascii`. -/
def eqAscii (units : List ℕ) (ascii : String) : Bool := units == ascii.toList.map Char.toNat

/-- `units_to_string`. -/
def unitsToString (units : List ℕ) : String := Lib.Text.fromUtf16Lossy units

/-- `Instr::target`. -/
def Instr.target (ins : Instr) : Option ℕ :=
  let at_ (slot : ℕ) : Option ℕ :=
    match ins.arg slot with
    | .int t => if 0 ≤ t then some t.toNat else none
    | _ => none
  match ins.op.flow with
  | .jump => at_ 0
  | .branchIfTrue | .branchIfFalse => at_ 1
  | .next | .exit => none

structure PowKeys where
  difficulty : PoolRef
  subCount : PoolRef
  seedSuffix : PoolRef
  seedPhrase : PoolRef
  deriving DecidableEq, Repr

structure PowConfig where
  difficulty : Double
  subCount : UInt32
  seedSuffix : String
  seedPhrase : String
  keys : PowKeys
  deriving DecidableEq

namespace Config

def HEX_LEN : ℕ := 64

def CALL_RESULT_REG : ℕ := 2

def OBJECT : String := "Object"

def FREEZE : String := "freeze"

def UNDEFINED : String := "undefined"

/-- `u32::MAX as f64`. -/
def U32_MAX : Double := .ofNat (2 ^ 32 - 1)

inductive ConfigError
  | noConfig
  | configCount (n : ℕ)
  | versionCount (n : ℕ)
  | powNodeCount (n : ℕ)
  | noDivision (a b : String)
  | divisionConflict (a b : String)
  | difficulty (x : Double)
  | subCount (x : Double)
  | suffixUnread (key : String)
  | seedReadCount (n : ℕ)
  | seedNotPow (read pow : String)
  deriving DecidableEq

inductive Kind
  | obj
  | arr
  deriving DecidableEq, Repr

inductive Key
  | str (r : PoolRef)
  | idx (i : ℤ)
  deriving DecidableEq, Repr

inductive Val
  | int (i : ℤ)
  | dbl (x : Double)
  | str (r : PoolRef)
  | bool
  | null
  | undef
  | node (id : ℕ)
  deriving DecidableEq, Repr

inductive Bound
  | lit (v : Val)
  | object
  | freeze
  deriving DecidableEq, Repr

inductive Class
  | a
  | b
  | other
  | dropped
  deriving DecidableEq, Repr

structure Node where
  kind : Kind
  fields : List (Key × Val)
  deriving DecidableEq

structure Block where
  start : ℕ
  stop : ℕ
  root : ℕ
  deriving DecidableEq

/-- `Params`: the two numbers in the order of the literal. -/
structure Params where
  num0 : PoolRef × Double
  num1 : PoolRef × Double
  suffixKey : PoolRef
  suffix : PoolRef

structure Pow where
  seedKey : PoolRef
  seed : PoolRef
  params : Params

structure Hex where
  key : PoolRef
  value : PoolRef
  parent : Option PoolRef
  read : Bool

structure Scan where
  versions : ℕ
  pows : ℕ
  pow : Option Pow
  hexes : List Hex

/-! ## Leaders -/

/-- `Leaders`: the number of words of the bit set, and its members. -/
structure Leaders where
  words : ℕ
  pcs : List ℕ

namespace Leaders

def new (maxPc : ℕ) : Leaders := ⟨maxPc / 64 + 1, []⟩

def set (l : Leaders) (pc : ℕ) : Leaders :=
  if pc / 64 < l.words then { l with pcs := pc :: l.pcs } else l

def has (l : Leaders) (pc : ℕ) : Bool := pc / 64 < l.words && l.pcs.contains pc

end Leaders

/-! ## Literals -/

abbrev Regs := List (Option Bound)

def bind (regs : Regs) (reg : ℕ) (b : Bound) : Regs :=
  (regs ++ List.replicate (reg + 1 - regs.length) none).set reg (some b)

def get (regs : Regs) (reg : ℕ) : Option Bound := regs[reg]?.join

def literal : Operand → Option Val
  | .int v => some (.int v)
  | .dbl v => some (.dbl (.ofBits v))
  | .str s => some (.str s)
  | .true | .false => some .bool
  | .null => some .null
  | .undef => some .undef
  | .reg _ => none

def keyEq (pool : List ℕ) : Key → Key → Bool
  | .str a, .str b => a = b || a.units pool = b.units pool
  | .idx a, .idx b => a = b
  | _, _ => false

def setField (pool : List ℕ) (key : Key) (val : Val) : List (Key × Val) → List (Key × Val)
  | [] => [(key, val)]
  | (k, v) :: fields =>
    if keyEq pool k key then (k, val) :: fields else (k, v) :: setField pool key val fields

/-- What the turns of `run_block` change. -/
structure Run where
  arena : List Node
  regs : Regs

/-- What refuses a block leaves the arena as it is then. -/
def Run.need {α : Type} (s : Run) : Option α → Except (List Node) α
  | some a => .ok a
  | none => .error s.arena

/-- `alloc` and the binding of the node to the register `dest`. -/
def Run.alloc (s : Run) (kind : Kind) (dest : Option ℕ) : Except (List Node) Run :=
  let arena := s.arena ++ [⟨kind, []⟩]
  match dest with
  | some reg => .ok ⟨arena, bind s.regs reg (.lit (.node s.arena.length))⟩
  | none => .error arena

/-- A `CallM` that ends the block: the root of the literal. -/
def frozen (s : Run) (argsNode : ℕ) (ins : Instr) : Option ℕ := do
  let .reg o := ins.arg 0 | none
  let .reg f := ins.arg 1 | none
  let .reg a := ins.arg 2 | none
  if get s.regs o = some .object ∧ get s.regs f = some .freeze ∧
      get s.regs a = some (.lit (.node argsNode)) then
    let args ← s.arena[argsNode]?
    let root ← args.fields.findSome? fun
      | (.idx 0, .node r) => some r
      | _ => none
    let node ← s.arena[root]?
    if node.kind = .obj then some root else none
  else none

def keyOf : Operand → Option Key
  | .str k => some (.str k)
  | .int k => some (.idx k)
  | _ => none

def valueOf (regs : Regs) : Operand → Option Val
  | .reg v =>
    match get regs v with
    | some (.lit v) => some v
    | _ => none
  | o => literal o

/-- A `SetProp`: the node, the key and the value. -/
def propSet (regs : Regs) (ins : Instr) : Option (ℕ × Key × Val) := do
  let .reg r := ins.arg 0 | none
  let some (.lit (.node id)) := get regs r | none
  let key ← keyOf (ins.arg 1)
  let val ← valueOf regs (ins.arg 2)
  return (id, key, val)

/-- `set_field` on a node. -/
def Node.set (pool : List ℕ) (key : Key) (val : Val) (node : Node) : Node :=
  { node with fields := setField pool key val node.fields }

/-- An instruction of the block that does not end it. -/
def turn (pool : List ℕ) (s : Run) (ins : Instr) : Except (List Node) Run :=
  match ins.op with
  | .newObj => s.alloc .obj ins.dest
  | .newArr => s.alloc .arr ins.dest
  | .newArrN =>
    match ins.arg 0 with
    | .int len => if len < 0 then .error s.arena else s.alloc .arr ins.dest
    | _ => .error s.arena
  | .global => s.need do
    let .str r := ins.arg 0 | none
    if eqAscii (r.units pool) UNDEFINED then
      return { s with regs := bind s.regs (← ins.dest) (.lit .undef) }
    else none
  | .mov => s.need do
    let dest ← ins.dest
    let v ← literal (ins.arg 0)
    return { s with regs := bind s.regs dest (.lit v) }
  | .setProp => s.need do
    let (id, key, val) ← propSet s.regs ins
    return { s with arena := s.arena.modify id (Node.set pool key val) }
  | _ => .error s.arena

/-- The loop of `run_block` over the instructions left, the first at `j`: the place of the
call, the root and the arena. -/
def runBlock (pool : List ℕ) (argsNode : ℕ) :
    ℕ → Run → List Instr → Except (List Node) (ℕ × ℕ × List Node)
  | _, s, [] => .error s.arena
  | j, s, ins :: rest =>
    if ins.op = .callM then do
      let root ← s.need (frozen s argsNode ins)
      return (j, root, s.arena)
    else do
      let s ← turn pool s ins
      runBlock pool argsNode (j + 1) s rest

/-- The start of a block: the registers of `Object`, of its method and of the array. -/
def opening (pool : List ℕ) (g f n : Instr) : Option (ℕ × ℕ × ℕ) :=
  if g.op = .global ∧ f.op = .getProp ∧ n.op = .newArrN then do
    let .str obj := g.arg 0 | none
    let rObj ← g.dest
    let .str frz := f.arg 1 | none
    let rFrz ← f.dest
    let rArr ← n.dest
    if eqAscii (obj.units pool) OBJECT ∧ eqAscii (frz.units pool) FREEZE ∧
        f.arg 0 = .reg rObj ∧ n.arg 0 = .int 1 then
      return (rObj, rFrz, rArr)
    else none
  else none

/-- `eval_block`: a block, if there is one, and the arena after it. -/
def evalBlock (instrs : List Instr) (pool : List ℕ) (at_ : ℕ) (arena : List Node) :
    Option Block × List Node :=
  match instrs.drop at_ with
  | g :: f :: n :: rest =>
    match opening pool g f n with
    | some (rObj, rFrz, rArr) =>
      let mark := arena.length
      let regs := bind (bind [] rObj .object) rFrz .freeze
      let s : Run := ⟨arena ++ [⟨.arr, []⟩], bind regs rArr (.lit (.node mark))⟩
      match runBlock pool mark (at_ + 3) s rest with
      | .ok (stop, root, arena) => (some ⟨at_, stop, root⟩, arena)
      | .error arena => (none, arena.take mark)
    | none => (none, arena)
  | _ => (none, arena)

/-! ## The parameters in a literal -/

def numeric : Val → Option Double
  | .int i => some (.ofInt i)
  | .dbl d => if d.isFinite && d.isInt then some d else none
  | _ => none

def isDigit (c : ℕ) : Bool := '0'.toNat ≤ c && c ≤ '9'.toNat

/-- The loop of `is_version` after the two first units. -/
def versionLoop : List ℕ → ℕ → ℕ → Bool
  | [], dots, digits => dots = 2 && 0 < digits
  | c :: rest, dots, digits =>
    if isDigit c then versionLoop rest dots (digits + 1)
    else if c = '.'.toNat && 0 < digits && dots < 2 then versionLoop rest (dots + 1) 0
    else false

def isVersion : List ℕ → Bool
  | j :: dash :: rest => j = 'j'.toNat && dash = '-'.toNat && versionLoop rest 0 0
  | _ => false

def isHex64 (u : List ℕ) : Bool :=
  u.length = HEX_LEN && u.all fun c => isDigit c || ('a'.toNat ≤ c && c ≤ 'f'.toNat)

/-- The numbers and the suffix that `params_of` has found. -/
structure Found where
  nums : List (PoolRef × Double)
  suffix : Option (PoolRef × PoolRef)

/-- A field of the node that `params_of` reads. -/
def Found.field (s : Found) (field : Key × Val) : Option Found :=
  match field with
  | (.idx _, _) => none
  | (.str k, .str r) => if s.suffix.isSome then none else some { s with suffix := some (k, r) }
  | (.str k, v) => do
    let x ← numeric v
    if s.nums.length = 2 then none else some { s with nums := s.nums ++ [(k, x)] }

def paramsOf (node : Node) : Option Params :=
  if node.kind ≠ .obj ∨ node.fields.length ≠ 3 then none
  else do
    let s ← node.fields.foldlM Found.field ⟨[], none⟩
    let [n0, n1] := s.nums | none
    let (suffixKey, suffix) ← s.suffix
    return ⟨n0, n1, suffixKey, suffix⟩

/-- What `scan_tree` gathers of one node. -/
structure Gathered where
  scan : Scan
  visited : List ℕ
  stack : List (ℕ × Option PoolRef)
  hexFields : ℕ
  hex : Option (PoolRef × PoolRef)
  objects : ℕ
  child : Option ℕ

/-- A field of a node, whose own key in its parent is `parent`. -/
def Gathered.field (arena : List Node) (pool : List ℕ) (parent : Option PoolRef) (g : Gathered)
    (field : Key × Val) : Gathered :=
  match field with
  | (key, .str s) =>
    let units := s.units pool
    if isVersion units then { g with scan := { g.scan with versions := g.scan.versions + 1 } }
    else
      match key with
      | .str k =>
        if isHex64 units then
          { g with
            hexFields := g.hexFields + 1
            hex := some (k, s)
            scan := { g.scan with hexes := g.scan.hexes ++ [⟨k, s, parent, false⟩] } }
        else g
      | .idx _ => g
  | (key, .node c) =>
    let g :=
      if (arena[c]?.map Node.kind) = some .obj then
        { g with objects := g.objects + 1, child := some c }
      else g
    if g.visited.contains c then g
    else
      let edge :=
        match key with
        | .str k => some k
        | .idx _ => none
      { g with visited := c :: g.visited, stack := (c, edge) :: g.stack }
  | _ => g

/-- The node is that of the proof of work. -/
def powOf (arena : List Node) (node : Node) (g : Gathered) : Option Pow :=
  if node.kind = .obj ∧ g.hexFields = 1 ∧ g.objects = 1 then do
    let (seedKey, seed) ← g.hex
    let c ← g.child
    let params ← paramsOf (← arena[c]?)
    return ⟨seedKey, seed, params⟩
  else none

/-- The loop of `scan_tree`: the scan and the nodes visited. -/
def scanLoop (arena : List Node) (pool : List ℕ) :
    ℕ → Scan → List ℕ → List (ℕ × Option PoolRef) → Scan × List ℕ
  | 0, scan, visited, _ => (scan, visited)
  | _, scan, visited, [] => (scan, visited)
  | turns + 1, scan, visited, (id, parent) :: stack =>
    match arena[id]? with
    | none => (scan, visited)
    | some node =>
      let g := node.fields.foldl (Gathered.field arena pool parent)
        ⟨scan, visited, stack, 0, none, 0, none⟩
      let scan :=
        match powOf arena node g with
        | some pow => { g.scan with pows := g.scan.pows + 1, pow := some pow }
        | none => g.scan
      scanLoop arena pool turns scan g.visited g.stack

def scanTree (arena : List Node) (pool : List ℕ) (root : ℕ) (visited : List ℕ) : Scan × List ℕ :=
  scanLoop arena pool (arena.length + 1) ⟨0, 0, none, []⟩ (root :: visited) [(root, none)]

/-! ## Uses in the bytecode -/

def classify (key a b : List ℕ) : Class := if key = a then .a else if key = b then .b else .other

/-- `resolve`, from the instruction at a place on backwards. -/
def resolve (instrs : List Instr) (leaders : Leaders) (reg : ℕ) : ℕ → Option Instr
  | 0 => none
  | j + 1 => do
    let here ← instrs[j + 1]?
    if leaders.has here.pc then none
    else
      let ins ← instrs[j]?
      if ins.op.flow ≠ .next then none
      else if ins.dest = some reg ∨ (ins.op = .callM ∧ reg = CALL_RESULT_REG) then some ins
      else resolve instrs leaders reg j

def readsKey (instrs : List Instr) (leaders : Leaders) (pool : List ℕ) (at_ reg : ℕ)
    (parent : List ℕ) : Bool :=
  match resolve instrs leaders reg at_ with
  | some d =>
    match d.op, d.arg 1 with
    | .getProp, .str k => k.units pool = parent
    | _, _ => false
  | none => false

def operandClass (instrs : List Instr) (leaders : Leaders) (pool : List ℕ)
    (vars : ℤ → Option Class) (at_ : ℕ) (op : Operand) (a b : List ℕ) : Option Class :=
  match op with
  | .reg r => do
    let d ← resolve instrs leaders r at_
    match d.op, d.arg 0, d.arg 1 with
    | .getProp, _, .str k => some (classify (k.units pool) a b)
    | .getVar, .int id, _ => vars id
    | _, _, _ => none
  | _ => none

/-- The variables of the loop of `extract` over the instructions. -/
structure Uses where
  vars : ℤ → Option Class
  divs : List (ℕ × Instr)
  suffixRead : Bool
  hexes : List Hex

/-- The class of what an assignment to a variable stores. -/
def assignedClass (instrs : List Instr) (leaders : Leaders) (pool : List ℕ) (i : ℕ) (ins : Instr)
    (a b : List ℕ) : Class :=
  match ins.arg 1 with
  | .reg r =>
    match resolve instrs leaders r i with
    | some d =>
      match d.op, d.arg 1 with
      | .getProp, .str k => classify (k.units pool) a b
      | _, _ => .dropped
    | none => .dropped
  | _ => .dropped

/-- `vars.entry(id).and_modify(..).or_insert(class)`. -/
def enterVar (vars : ℤ → Option Class) (id : ℤ) (c : Class) : ℤ → Option Class :=
  Function.update vars id <|
    match vars id with
    | some old => some (if old ≠ c then .dropped else old)
    | none => some c

/-- The hex strings that a read of `key` from the register `r` reads. -/
def markRead (instrs : List Instr) (leaders : Leaders) (pool : List ℕ) (i : ℕ) (key : List ℕ)
    (r : ℕ) (h : Hex) : Hex :=
  if h.read then h
  else
    match h.parent with
    | some parent =>
      if h.key.units pool = key ∧ readsKey instrs leaders pool i r (parent.units pool) then
        { h with read := true }
      else h
    | none => h

/-- An instruction of the bytecode. -/
def Uses.step (instrs : List Instr) (leaders : Leaders) (pool : List ℕ) (block : Block)
    (suffixKey a b : List ℕ) (s : Uses) (e : Instr × ℕ) : Uses :=
  let (ins, i) := e
  match ins.op with
  | .assignVar | .setVar =>
    match ins.arg 0 with
    | .int id =>
      { s with vars := enterVar s.vars id (assignedClass instrs leaders pool i ins a b) }
    | _ => s
  | .getProp =>
    if i < block.start ∨ block.stop < i then
      match ins.arg 1 with
      | .str k =>
        let key := k.units pool
        let s := if key = suffixKey then { s with suffixRead := true } else s
        match ins.arg 0 with
        | .reg r => { s with hexes := s.hexes.map (markRead instrs leaders pool i key r) }
        | _ => s
      | _ => s
    else s
  | .divRR | .divOR | .divRO => { s with divs := s.divs ++ [(i, ins)] }
  | _ => s

/-- A division: whether it has the first number above the second, if it divides one by the
other. -/
def divisionOrder (instrs : List Instr) (leaders : Leaders) (pool : List ℕ)
    (vars : ℤ → Option Class) (a b : List ℕ) (div : ℕ × Instr) : Option Bool :=
  let (i, ins) := div
  let n := operandClass instrs leaders pool vars i (ins.arg 0) a b
  let d := operandClass instrs leaders pool vars i (ins.arg 1) a b
  match n, d with
  | some .a, some .b => some true
  | some .b, some .a => some false
  | _, _ => none

/-- The order that all divisions agree on. -/
def agreedOrder (conflict : ConfigError) : List Bool → Option Bool → Except ConfigError (Option Bool)
  | [], first => .ok first
  | order :: orders, none => agreedOrder conflict orders (some order)
  | order :: orders, some o =>
    if o ≠ order then .error conflict else agreedOrder conflict orders (some o)

/-! ## `extract` -/

/-- The variables of the first loop of `extract`. -/
structure Blocks where
  leaders : Leaders
  arena : List Node
  blocks : List Block

def Blocks.step (instrs : List Instr) (pool : List ℕ) (s : Blocks) (e : Instr × ℕ) : Blocks :=
  let (ins, i) := e
  let leaders :=
    match ins.target with
    | some t => s.leaders.set t
    | none => s.leaders
  let s := { s with leaders }
  match ins.op with
  | .closure | .setCatch | .setFinally =>
    match ins.arg 0 with
    | .int t => if 0 ≤ t then { s with leaders := s.leaders.set t.toNat } else s
    | _ => s
  | .global =>
    match evalBlock instrs pool i s.arena with
    | (some b, arena) => { s with arena, blocks := s.blocks ++ [b] }
    | (none, arena) => { s with arena }
  | _ => s

/-- The variables of the loop of `extract` over the blocks. -/
structure Configs where
  visited : List ℕ
  configs : ℕ
  found : Option (Block × Scan)

def Configs.step (arena : List Node) (pool : List ℕ) (s : Configs) (b : Block) : Configs :=
  let (scan, visited) := scanTree arena pool b.root s.visited
  if 0 < scan.versions ∧ 0 < scan.pows then
    { visited, configs := s.configs + 1, found := s.found.or (some (b, scan)) }
  else { s with visited }

/-- The one literal that is a configuration. -/
def onlyConfig (s : Configs) : Except ConfigError (Block × Scan) :=
  match s.configs, s.found with
  | 1, some f => .ok f
  | 0, _ | _, none => .error .noConfig
  | n, _ => .error (.configCount n)

/-- The one node of the proof of work in it. -/
def onlyPow (scan : Scan) : Except ConfigError Pow :=
  if scan.versions ≠ 1 then .error (.versionCount scan.versions)
  else if scan.pows ≠ 1 then .error (.powNodeCount scan.pows)
  else
    match scan.pow with
    | some pow => .ok pow
    | none => .error (.powNodeCount 0)

/-- Whether the first of the two numbers is the numerator. -/
def numeratorFirst (a b : String) (orders : List Bool) : Except ConfigError Bool :=
  match agreedOrder (.divisionConflict a b) orders none with
  | .ok (some order) => .ok order
  | .ok none => .error (.noDivision a b)
  | .error e => .error e

/-- The bounds of the difficulty and of the count. -/
def checkBounds (num den : Double) : Except ConfigError Unit :=
  if !num.gt .zero then .error (.difficulty num)
  else if !(den.ge .one && den.le U32_MAX) then .error (.subCount den)
  else .ok ()

/-- The reads of the suffix and of the seed. -/
def checkReads (pool : List ℕ) (pow : Pow) (uses : Uses) : Except ConfigError Unit :=
  if !uses.suffixRead then
    .error (.suffixUnread (unitsToString (pow.params.suffixKey.units pool)))
  else
    match uses.hexes.filter Hex.read with
    | [read] =>
      if read.key ≠ pow.seedKey ∨ read.value ≠ pow.seed then
        .error (.seedNotPow (unitsToString (read.key.units pool))
          (unitsToString (pow.seedKey.units pool)))
      else .ok ()
    | reads => .error (.seedReadCount reads.length)

/-- What `extract` has chosen when it returns: the numerator and the denominator of the
divisions, and the node of the proof of work. -/
structure Choice where
  num : PoolRef × Double
  den : PoolRef × Double
  pow : Pow

/-- `extract` up to its last expression. -/
def choose (instrs : List Instr) (pool : List ℕ) : Except ConfigError Choice := do
  let first := instrs.zipIdx.foldl (Blocks.step instrs pool)
    ⟨.new ((instrs.getLast?.map Instr.pc).getD 0), [], []⟩
  let (block, scan) ←
    onlyConfig (first.blocks.foldl (Configs.step first.arena pool) ⟨[], 0, none⟩)
  let pow ← onlyPow scan
  let params := pow.params
  let a := params.num0.1.units pool
  let b := params.num1.1.units pool
  let uses := instrs.zipIdx.foldl
    (Uses.step instrs first.leaders pool block (params.suffixKey.units pool) a b)
    ⟨fun _ => none, [], false, scan.hexes⟩
  let orders := uses.divs.filterMap (divisionOrder instrs first.leaders pool uses.vars a b)
  let first ← numeratorFirst (unitsToString a) (unitsToString b) orders
  let (num, den) := if first then (params.num0, params.num1) else (params.num1, params.num0)
  checkBounds num.2 den.2
  checkReads pool pow uses
  return ⟨num, den, pow⟩

def extract (instrs : List Instr) (pool : List ℕ) : Except ConfigError PowConfig := do
  let c ← choose instrs pool
  let params := c.pow.params
  return {
    difficulty := c.num.2
    subCount := .ofNat (c.den.2.toU 32)
    seedSuffix := unitsToString (params.suffix.units pool)
    seedPhrase := unitsToString (c.pow.seed.units pool)
    keys := {
      difficulty := c.num.1
      subCount := c.den.1
      seedSuffix := params.suffixKey
      seedPhrase := c.pow.seedKey } }

end Config
end Worktime
end Lunar
