/-
# The boot emulator

`payload/emulate.rs`: `Emulator` with `set`, `invoke`, `ev`, `exec` and `run`.  The
innermost frame is the first of `frames`; the cache of literals is left out, as it
only holds what `strings` says.

`Running.ran` is no field of the source: it lists the instructions that were
executed, each with its handler.
-/

import Lunar.Payload.Emulate.Value
import Mathlib.Algebra.Ring.Int.Defs

namespace Lunar
namespace Emulate

open Lib (Double)
open Ir
open Exec (UnaryOperator Runtime)
open Fold (toInt32 ofI32)

/-- The fields of `Emulator` that a run does not change, with the stack and the
functions on doubles of the runtime. -/
structure Program where
  decoder : Disasm.Decoder
  templates : List (Except String Template)
  strings : List String
  pool : List ℕ
  scopeReg : ℕ
  entry : ℕ
  handlerCount : ℕ
  stack : ℕ
  libm : Libm

/-- A call of a closure that waits for the end of the instruction. -/
structure Pending where
  entry : ℕ
  scope : ℕ
  this : V
  args : List V
  callee : V

structure State where
  heap : List Heap
  frames : List FrameState
  permDirty : Bool
  pending : Option Pending
  jump : Option ℕ

abbrev M := StateT State Res

def fail {α : Type} (reason : String) : M α := throw (.msg reason)

def panic {α : Type} : M α := throw .panic

/-- What is read off the state. -/
def reads {α : Type} (f : State → Res α) : M α := fun s => (f s).map (·, s)

/-- `self.frame()`. -/
def frame : M FrameState := do
  match (← get).frames with
  | f :: _ => pure f
  | [] => panic

def setFrame (f : FrameState) : M Unit := modify fun s => { s with frames := f :: s.frames.tail }

def reg (r : ℤ) : M V := do
  if r < 0 then return .undef
  return ((← frame).regs[r.toNat]?).getD V.undef

/-- `xs` with `v` at `i`, filled up with `undefined`. -/
def put (xs : List V) (i : ℕ) (v : V) : List V :=
  (xs ++ List.replicate (i + 1 - xs.length) V.undef).set i v

def setReg (r : ℕ) (v : V) : M Unit := do
  if MAX_ARRAY ≤ r then fail "register index out of range"
  else
    let f ← frame
    setFrame { f with regs := put f.regs r v }

def alloc (h : Heap) : M V := do
  let s ← get
  set { s with heap := s.heap ++ [h] }
  return .obj s.heap.length

/-- `self.heap[id] = h`. -/
def setHeap (id : ℕ) (h : Heap) : M Unit := modify fun s => { s with heap := s.heap.set id h }

def markDirty (id : ℕ) : M Unit :=
  if id = PERM_ID then modify fun s => { s with permDirty := true } else pure ()

section Machine

variable (p : Program)

def scopeId : M ℕ := do
  match ← reg p.scopeReg with
  | .obj id =>
    match ← reads fun s => cell s.heap id with
    | .scope _ => return id
    | _ => fail "scope register is not a scope"
  | _ => fail "scope register is not a scope"

def scope (id : ℕ) : M ScopeObj := do
  match ← reads fun s => cell s.heap id with
  | .scope s => return s
  | _ => fail "scope id does not reference a scope"

/-- A scope, changed. -/
def changeScope (id : ℕ) (f : ScopeObj → ScopeObj) : M Unit := do
  setHeap id (.scope (f (← scope id)))

/-- The scope of the running function. -/
def here : M ScopeObj := do scope (← scopeId p)

def lit (s : StrId) : M String :=
  match p.strings[s]? with
  | some t => pure t
  | none => panic

def operand : Operand → M V
  | .int i => pure (.num (.ofInt i))
  | .dbl d => pure (.num d)
  | .str r => pure (.str (Lib.Text.fromUtf16Lossy (r.units p.pool)))
  | .true => pure (.bool true)
  | .false => pure (.bool false)
  | .null => pure .null
  | .undef => pure .undef
  | .reg r => reg r
  | .pc pc => pure (.num (.ofInt pc))
  | .dest _ => fail "destination operand read as value"

def numM (v : V) : M Double := reads fun s => num s.heap p.stack v

def keyM (v : V) : M String := reads fun _ => keyText v

/-- `a.resize(n, V::Undef)`. -/
def resize (a : List V) (n : ℕ) : List V :=
  (a ++ List.replicate (n - a.length) V.undef).take n

/-- The array `a` after a write to its property `key`. -/
def setArr (a : List V) (key : String) (v : V) : Res (List V) :=
  match Lib.Text.parseUsize key with
  | some i => if MAX_ARRAY ≤ i then err "array index out of range" else pure (put a i v)
  | none =>
    if key = "length" then
      match v with
      | .num n =>
        if n.ge .zero && n.isInt && n.toU 64 < MAX_ARRAY then pure (resize a (n.toU 64))
        else err "invalid array length"
      | _ => err "invalid array length"
    else err "unmodelled array write"

/-- The object after a write to its property `key`. -/
def setCell (h : Heap) (key : String) (v : V) : Res Heap :=
  match h with
  | .arr a => .arr <$> setArr a key v
  | .obj m => pure (.obj (Function.update m key (some v)))
  | _ => err "unmodelled object write"

/-- `set`. -/
def setProp (o k v : V) : M Unit := do
  match o with
  | .obj id => do
    let key ← keyM k
    markDirty id
    setHeap id (← reads fun s => do setCell (← cell s.heap id) key v)
  | _ => fail "unmodelled property write"

/-- The natives that change the array they are called on. -/
def Nat.mutates : Nat → Bool
  | .splice | .push | .pop | .shift | .unshift | .reverse => true
  | _ => false

/-- What a native makes of the array `a`: the array after it, and its result, or
the items of a new array. -/
def arrayOp (f : Nat) (id : ℕ) (a args : List V) (a0 a1 : Double) :
    Res (List V × (V ⊕ List V)) :=
  match f with
  | .slice =>
    let start := if args.isEmpty then 0 else rel a0 a.length
    let stop := if args.length < 2 ∨ args[1]? = some V.undef then a.length else rel a1 a.length
    pure (a, .inr ((a.take stop).drop start))
  | .splice =>
    let start := rel a0 a.length
    let del := if args.length < 2 then a.length - start
      else
        let d := if a1.isNan then .zero else a1.trunc
        min (d.toU 64) (a.length - start)
    pure (a.take start ++ args.drop 2 ++ a.drop (start + del), .inr ((a.drop start).take del))
  | .push => pure (a ++ args, .inl (.num (.ofInt (a ++ args).length)))
  | .pop => pure (a.dropLast, .inl (a.getLast?.getD .undef))
  | .shift => pure (a.tail, .inl (a.head?.getD .undef))
  | .unshift => pure (args ++ a, .inl (.num (.ofInt (args ++ a).length)))
  | .reverse => pure (a.reverse, .inl (.obj id))
  | .indexOf =>
    let needle := (args[0]?).getD .undef
    pure (a, .inl (.num (match a.findIdx? (strictEq · needle) with
      | some i => .ofInt i
      | none => .ofInt (-1))))
  | _ => err "unreachable native"

/-- The items that `concat` adds for an argument. -/
def concatItem (x : V) : M (List V) := do
  match x with
  | .obj i =>
    match ← reads fun s => cell s.heap i with
    | .arr _ => reads fun s => array s.heap x
    | _ => return [x]
  | _ => return [x]

/-- An argument that a native reads as a number. -/
def numArg (args : List V) (i : ℕ) : M Double :=
  match args[i]? with
  | some v => numM p v
  | none => pure .nan

/-- The array that a native is called on. -/
def arrayAt (heap : List Heap) (id : ℕ) : Res (List V) := do
  match ← cell heap id with
  | .arr a => pure a
  | _ => err "array method on non-array"

/-- A native that changes the array `id` or reads it. -/
def arrayNative (f : Nat) (id : ℕ) (args : List V) (a0 a1 : Double) : M V := do
  let (after, result) ← reads fun s => do arrayOp f id (← arrayAt s.heap id) args a0 a1
  setHeap id (.arr after)
  match result with
  | .inl v => return v
  | .inr fresh => alloc (.arr fresh)

/-- The separator of `join`. -/
def separator (args : List V) : M String :=
  match args[0]? with
  | some V.undef | none => pure ","
  | some x => reads fun s => text s.heap p.stack x

/-- `Array.prototype.join`. -/
def joinNative (id : ℕ) (args : List V) : M V := do
  let sep ← separator p args
  let items ← reads fun s => array s.heap (.obj id)
  return .str (← reads fun s => joinTexts (text s.heap p.stack) sep items)

/-- `Array.prototype.concat`. -/
def concatNative (id : ℕ) (args : List V) : M V := do
  let out ← reads fun s => array s.heap (.obj id)
  alloc (.arr (out ++ (← args.mapM concatItem).flatten))

/-- A native called on the array `id`, which is marked if the native changes it. -/
def nativeOn (f : Nat) (id : ℕ) (args : List V) : M V := do
  let a0 ← numArg p args 0
  let a1 ← numArg p args 1
  match f with
  | .join => joinNative p id args
  | .concat => concatNative id args
  | _ => arrayNative f id args a0 a1

def native (f : Nat) (id : ℕ) (args : List V) : M V :=
  if f.mutates then do
    markDirty id
    nativeOn p f id args
  else nativeOn p f id args

/-- A call of a closure, which is made at the end of the instruction. -/
def callClosure (id : ℕ) (this : V) (args : List V) : M V := do
  match ← reads fun s => cell s.heap id with
  | .closure entry scope => do
    if (← get).pending.isSome then fail "nested vm call in one instruction"
    else
      modify fun s => { s with pending := some ⟨entry, scope, this, args, .obj id⟩ }
      return .undef
  | _ => fail "call of non-function object"

/-- A call of the setter of the dispatch table. -/
def callSetter (args : List V) : M V :=
  match args[0]? with
  | some v => do
    let _ ← numM p v
    return .undef
  | none => return V.undef

/-- `invoke`. -/
def invoke : ℕ → V → V → List V → M V
  | 0, .native .apply, _, _ | 0, .native .call, _, _ => panic
  | stack + 1, .native .apply, this, args => do
    let list ← reads fun s => array s.heap ((args[1]?).getD .undef)
    invoke stack this ((args[0]?).getD .undef) list
  | stack + 1, .native .call, this, args => invoke stack this ((args[0]?).getD .undef) args.tail
  | _, .native (.math m), _, args => return .num (m.apply p.libm (← args.mapM (numM p)))
  | _, .native n, .obj id, args => native p n id args
  | _, .native _, _, _ => fail "array method on non-array"
  | _, .setter, _, args => callSetter p args
  | _, .obj id, this, args => callClosure id this args
  | _, _, _, _ => fail "call of unmodelled callee"

/-- `lookup_var`, which would not come back from a chain of scopes without an end. -/
def lookupVar (heap : List Heap) : ℕ → ℕ → String → Res (Option (ℕ × V))
  | 0, _, _ => .error .panic
  | fuel + 1, scope, key => do
    match ← cell heap scope with
    | .scope s =>
      match s.vars key with
      | some v => return some (scope, v)
      | none =>
        match s.parent with
        | some up => lookupVar heap fuel up key
        | none => return none
    | _ => return none

/-- The scope that holds a variable, and its value. -/
def variable_ (key : String) : M (ℕ × V) := do
  let id ← scopeId p
  match ← reads fun s => lookupVar s.heap (s.heap.length + 1) id key with
  | some r => return r
  | none => fail "unbound variable"

def unary (op : UnaryOperator) (v : V) : M V :=
  match op with
  | .logicalNot => return .bool !truthy v
  | .unaryNegation => return .num (← numM p v).neg
  | .unaryPlus => return .num (← numM p v)
  | .bitwiseNot => return .num (ofI32 (~~~toInt32 (← numM p v)))
  | .void => return .undef
  | .typeof => return .str (← reads fun s => typeOf s.heap v)
  | .delete => fail "delete"

/-- The value of `a || b`, `a && b` and `a ?? b` is that of `a`. -/
def takesLeft (op : LogicalOperator) (l : V) : Bool :=
  match op with
  | .and => !truthy l
  | .or => truthy l
  | .coalesce => !l.nullish

/-- The properties of an object literal. -/
def objectOf : (String → Option V) → List V → M (String → Option V)
  | m, k :: v :: items => do objectOf (Function.update m (← keyM k) (some v)) items
  | m, _ => pure m

def isArrayName (v : V) : M Bool :=
  match v with
  | .name s => return (← lit p s) = "Array"
  | _ => return false

/-- `new Array(args)`. -/
def newArray (args : List V) : M V := do
  match args with
  | [.num n] =>
    if n.lt .zero || !n.isInt || MAX_ARRAY < n.toU 64 then fail "invalid array length"
    else alloc (.arr (List.replicate (n.toU 64) V.undef))
  | _ => alloc (.arr args)

section Template

variable (t : Template) (ops : List Operand)

/-- `t.exprs[id]`. -/
def exprAt (id : ExprId) : M Expr :=
  match t.exprs[id]? with
  | some e => pure e
  | none => panic

/-- `eval_args`. -/
def evalArgs (ev : ExprId → M V) (sp : Span) : M (List V) :=
  sp.range.mapM fun i =>
    match t.args[i]? with
    | some e => ev e
    | none => panic

/-- The callee of a call and its receiver. -/
def callee (ev : ExprId → M V) (e : ExprId) : M (V × V) := do
  match ← exprAt t e with
  | .member o k => do
    let this ← ev o
    let kv ← ev k
    if this = .global then fail "global access"
    else return (← reads fun s => Emulate.getProp s.heap this kv, this)
  | _ => return (← ev e, .undef)

/-- `ev`. -/
def ev : ℕ → ExprId → M V
  | 0, _ => panic
  | stack + 1, id => do
    let ev := ev stack
    match ← exprAt t id with
    | .undef => return .undef
    | .null => return .null
    | .bool b => return .bool b
    | .num n => return .num n
    | .lit s => return .str (← lit p s)
    | .slot k =>
      match ops[k]? with
      | some op => operand p op
      | none => fail "slot outside operands"
    | .reg r => reg r
    | .frame => return .frame
    | .scope => return .obj (← scopeId p)
    | .this => return (← here p).this
    | .callee => return (← here p).callee
    | .exception | .excRecord => fail "exception state"
    | .runtime .global => return .global
    | .runtime .code => return .code
    | .runtime .dispatch => return .dispatch
    | .runtime _ => fail "unmodelled runtime value"
    | .name s => if (← lit p s) = "Array" then return .name s else fail "global access"
    | .var k => return (← variable_ p (← keyM (← ev k))).2
    | .scopeVar k => do
      let key ← keyM (← ev k)
      return ((← here p).vars key).getD .undef
    | .frameField f => return ((← frame).fields f).getD .undef
    | .scopeField f => return ((← here p).fields f).getD .undef
    | .member o k => do
      let ov ← ev o
      let kv ← ev k
      if ov = .global then
        if kv = .str "Math" then return .math else fail "global access"
      else reads fun s => Emulate.getProp s.heap ov kv
    | .call c sp => do
      let (f, this) ← callee t ev c
      invoke p p.stack f this (← evalArgs t ev sp)
    | .new c sp => do
      let f ← ev c
      let args ← evalArgs t ev sp
      if ← isArrayName p f then newArray args else fail "unmodelled constructor"
    | .apply c this args => do
      let f ← ev c
      let th ← ev this
      let a ← ev args
      invoke p p.stack f th (← reads fun s => array s.heap a)
    | .construct _ _ => fail "reflective construct"
    | .unary op a => unary p op (← ev a)
    | .binary op a b => do
      let l ← ev a
      let r ← ev b
      reads fun s => binary s.heap p.stack p.libm op l r
    | .logical op a b => do
      let l ← ev a
      if takesLeft op l then return l else ev b
    | .cond c a b => do
      if truthy (← ev c) then ev a else ev b
    | .array sp => alloc (.arr (← evalArgs t ev sp))
    | .object sp => alloc (.obj (← objectOf (fun _ => none) (← evalArgs t ev sp)))
    | .closure entry _ _ => do
      let n ← numM p (← ev entry)
      if n.lt .zero || !n.isInt then fail "closure entry"
      else alloc (.closure (n.toU 32) (← scopeId p))
    | .keys _ => fail "key enumeration"

/-- A value, evaluated on the whole stack. -/
def eval (e : ExprId) : M V := ev p t ops p.stack e

/-- The scope of the running function, changed. -/
def changeHere (f : ScopeObj → ScopeObj) : M Unit := do
  changeScope (← scopeId p) f

/-- `return`. -/
def ret (v : V) : M Unit := do
  if truthy (← here p).finallyV then fail "return through finally"
  else if (← get).frames.length < 2 then fail "top-level return"
  else
    modify fun s => { s with frames := s.frames.tail }
    setReg 2 v
    modify fun s => { s with jump := none }

/-- `exec_list`. -/
def execList (exec : Stmt → M Unit) (sp : Span) : M Unit :=
  sp.range.forM fun i =>
    match t.stmts[i]? with
    | some s => exec s
    | none => panic

/-- The body of `exec`: `nested` runs the statements of a conditional. -/
def stmt (nested : Span → M Unit) : Stmt → M Unit
  | .setDest slot val => do
    let v ← eval p t ops val
    match ops[slot]? with
    | some (.dest d) => setReg d.toNat v
    | _ => fail "destination slot"
  | .setReg r val => do setReg r (← eval p t ops val)
  | .setProp obj key val => do
    let o ← eval p t ops obj
    let k ← eval p t ops key
    setProp o k (← eval p t ops val)
  | .setVar key val => do
    let k ← keyM (← eval p t ops key)
    let v ← eval p t ops val
    let (owner, _) ← variable_ p k
    changeScope owner fun sc => { sc with vars := Function.update sc.vars k (some v) }
  | .declVar key val => do
    let k ← keyM (← eval p t ops key)
    let v ← eval p t ops val
    changeHere p fun sc => { sc with vars := Function.update sc.vars k (some v) }
  | .setFrameField field val => do
    let v ← eval p t ops val
    let f ← frame
    setFrame { f with fields := Function.update f.fields field (some v) }
  | .setScopeField field val => do
    let v ← eval p t ops val
    changeHere p fun sc => { sc with fields := Function.update sc.fields field (some v) }
  | .setCatch v => do
    let v ← eval p t ops v
    changeHere p fun sc => { sc with catchV := v }
  | .setFinally v => do
    let v ← eval p t ops v
    changeHere p fun sc => { sc with finallyV := v }
  | .eval e => do
    let _ ← eval p t ops e
    return ()
  | .cond c thn els => do
    let cv ← eval p t ops c
    nested (if truthy cv then thn else els)
  | .jump e => do
    let n ← numM p (← eval p t ops e)
    if n.lt .zero || !n.isInt || n.gt (.ofInt (2 ^ 32 - 1)) then fail "jump to non-address"
    else modify fun s => { s with jump := some (n.toU 32) }
  | .ret e => do ret p (← eval p t ops e)
  | .throw _ => fail "throw"
  | .halt => fail "halt"

/-- `exec`. -/
def exec : ℕ → Stmt → M Unit
  | 0 => stmt p t ops fun _ => panic
  | stack + 1 => stmt p t ops (execList t (exec stack))

end Template

/-! ## The run loop -/

/-- `snapshot`: the dispatch table as a permutation. -/
def snapshot (heap : List Heap) : Option (List ℕ) :=
  match heap[PERM_ID]? with
  | some (.arr a) => a.mapM fun v =>
    match v with
    | .num n => if n.ge .zero && n.isInt && n.lt (.ofInt 65535) then some (n.toU 16) else none
    | _ => none
  | _ => none

/-- The variables of `run`. -/
structure Running where
  emu : State
  genOf : ℕ → ℕ
  perms : List (List ℕ)
  ran : List (ℕ × ℕ)

/-- `Emulator::new`. -/
def State.new : State where
  heap := [.arr ((List.range p.handlerCount).map fun (i : ℕ) => .num (.ofInt i)),
    .scope ⟨fun _ => none, none, .global, .null, fun _ => none, .undef, .undef⟩]
  frames := [⟨((List.replicate 8 V.undef).set 0 (.num (.ofInt p.entry))).set p.scopeReg (.obj 1),
    fun _ => none⟩]
  permDirty := false
  pending := none
  jump := none

/-- The variables of `run` before its loop. -/
def Running.new : Running where
  emu := .new p
  genOf _ := Disasm.NO_GEN
  perms := [(snapshot (State.new p).heap).getD []]
  ran := []

/-- The address of the next instruction. -/
def pcOf (v : V) : Option ℕ :=
  match v with
  | .num n =>
    if n.ge .zero && n.isInt && n.toU 64 < p.decoder.code.length then some (n.toU 32) else none
  | _ => none

/-- The next instruction and the handler that the dispatch table has for it. -/
def fetch (s : State) : Res (ℕ × ℤ × ℕ) := do
  let v ← (reg 0).run' s
  match pcOf p v with
  | some pc =>
    match p.decoder.word pc with
    | some raw =>
      match Emulate.getProp s.heap .dispatch (.num (.ofInt raw)) with
      | .ok (.handler h) => return (pc, raw, h)
      | .error .panic => .error .panic
      | _ => err "opcode outside permutation"
    | none => .error .panic
  | none => err "pc out of range"

/-- `raw as usize`: no index when it is negative. -/
def rawIndex (raw : ℤ) : ℕ := (raw % 2 ^ 64).toNat

/-- The generation of an instruction is noted, or it is checked; `none` is a
conflict. -/
def note (r : Running) (pc : ℕ) (raw : ℤ) (handler : ℕ) : Option Running :=
  let generation := (r.perms.length - 1) % 2 ^ 16
  let g := r.genOf pc
  let r := { r with ran := (pc, handler) :: r.ran }
  if g = Disasm.NO_GEN then some { r with genOf := Function.update r.genOf pc generation }
  else if g ≠ generation then
    if ((r.perms[g]?.getD [])[rawIndex raw]?) = some handler then some r else none
  else some r

/-- A branch is taken. -/
def branch (tpl : Template) (d : Disasm.Decoder.Decoded) (ops : List Operand) : M Unit :=
  match tpl.branch with
  | some b => do
    let c ← eval p tpl ops b.cond
    match d.target with
    | some target =>
      if truthy c = b.when then modify fun s => { s with jump := some target } else pure ()
    | none => pure ()
  | none => pure ()

/-- A jump is made and forgotten. -/
def takeJump : M Unit := do
  match (← get).jump with
  | some j => do
    modify fun s => { s with jump := none }
    setReg 0 (.num (.ofInt j))
  | none => pure ()

/-- An instruction that does not fall through and does not branch is the last. -/
def leave (tpl : Template) : M Unit := do
  if !tpl.falls && tpl.branch.isNone && (← get).jump.isNone then fail "exit" else pure ()

/-- The frame of a call. -/
def enter (c : Pending) : M Unit := do
  let s ← alloc (.scope ⟨fun _ => none, some c.scope, c.this, c.callee, fun _ => none, .undef, .undef⟩)
  let arguments ← alloc (.arr c.args)
  let regs := ((List.replicate (4 + c.args.length) V.undef).set 0 (.num (.ofInt c.entry))).set
    p.scopeReg s
  modify fun st => { st with frames := ⟨(regs.set 3 arguments).take 4 ++ c.args, fun _ => none⟩ ::
    st.frames }

/-- The call that waits is made. -/
def takeCall : M Unit := do
  match (← get).pending with
  | some c => do
    modify fun s => { s with pending := none }
    if 4 + c.args.length ≤ p.scopeReg then panic else enter p c
  | none => pure ()

/-- What follows the statements of an instruction that has not returned: its branch
and its jump. -/
def goOn (tpl : Template) (d : Disasm.Decoder.Decoded) (ops : List Operand) (depth : ℕ) : M Unit := do
  if (← get).frames.length = depth then do
    branch p tpl d ops
    takeJump
    leave tpl
  else pure ()

/-- An instruction: its statements, its branch and the call that it makes. -/
def instr (pc : ℕ) (handler : ℕ) : M Unit :=
  match p.templates[handler]? with
  | some (.ok tpl) =>
    match p.decoder.decode pc tpl with
    | some (d, ops) => do
      setReg 0 (.num (.ofInt d.next))
      modify fun s => { s with jump := none }
      let depth := (← get).frames.length
      execList tpl (exec p tpl ops p.stack) tpl.body
      goOn p tpl d ops depth
      takeCall p
    | none => fail "operand decode"
  | some (.error why) => fail why
  | none => fail "handler outside table"

/-- How a turn of the loop ends. -/
inductive Turn
  | next (r : Running)
  | stop (reason : String) (r : Running)
  | conflict (pc : ℕ)
  | crash

/-- The dispatch table is recorded again when it may have changed. -/
def record (r : Running) (s : State) : Turn :=
  if s.permDirty then
    match snapshot s.heap with
    | some perm => .next { r with emu := { s with permDirty := false }, perms := r.perms ++ [perm] }
    | none => .stop "permutation corrupted" r
  else .next { r with emu := s }

/-- A turn of the loop of `run`. -/
def turn (r : Running) : Turn :=
  match fetch p r.emu with
  | .error (.msg reason) => .stop reason r
  | .error .panic => .crash
  | .ok (pc, raw, handler) =>
    match note r pc raw handler with
    | none => .conflict pc
    | some r =>
      match (instr p pc handler).run r.emu with
      | .ok ((), s) => record r s
      | .error (.msg reason) => .stop reason r
      | .error .panic => .crash

/-- The loop of `run`, for a number of turns. -/
def loop : ℕ → Running → Turn
  | 0, r => .stop "step budget" r
  | steps + 1, r =>
    match turn p r with
    | .next r => loop steps r
    | t => t

structure Boot where
  perms : List (List ℕ)
  genOf : ℕ → ℕ

inductive BootError
  | noPermutation (reason : String)
  | conflict (pc : ℕ)

/-- `run`; `none` when the emulator does not come back. -/
def run : Option (Except BootError Boot) :=
  if 8 ≤ p.scopeReg then none
  else match loop p MAX_STEPS (.new p) with
  | .stop reason r =>
    if r.perms.length < 2 then some (.error (.noPermutation reason))
    else some (.ok ⟨r.perms, r.genOf⟩)
  | .conflict pc => some (.error (.conflict pc))
  | .next _ | .crash => none

end Machine
end Emulate
end Lunar
