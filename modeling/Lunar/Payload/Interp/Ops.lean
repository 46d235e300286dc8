/-
# Ops

`payload/exec.rs`: `dyn_loc`, the fast paths of the ops and `ops`.  An op is a computation
that may call (`execOp`); it ends at a place of the code or with the value of the
function.
-/

import Lunar.Payload.Interp.State

namespace Lunar
namespace Interp

open Lib (Double)
open Exec (F64 Op BinaryOperator NOSLOT slice)

/-! ## Computations of an op -/

abbrev OpM := Lib.CallM State Request (Res Val) Err

/-- How an op ends: at a place of the code, or with the value of the function. -/
inductive Next
  | go (ip : ℕ)
  | ret (v : Val)
  deriving DecidableEq, Repr

/-- An activation of `exec`, at `ip`. -/
structure Act where
  cf : ℕ
  fb : ℕ
  scope : ℕ
  base : ℕ
  ip : ℕ
  deriving DecidableEq, Repr

def onMem {α : Type} (x : MemM α) : OpM α := x.zoom State.mem fun s m => { s with mem := m }

def ask {α : Type} (g : State → Res α) : OpM α := Lib.CallM.reading g

/-- `tick`. -/
def tick : OpM Unit := do
  modify fun s => { s with steps := s.steps + 1 }
  ask fun s => if MAX_STEPS < s.steps then .error (.fault .budget) else pure ()

/-- `pc_of`. -/
def pcOf : Val → Res ℕ
  | .num n =>
      if isIndex n && n.lt (.ofNat 4294967296) then pure (n.toU 32)
      else unsupported "jump to non-address"
  | _ => unsupported "jump to non-address"

section Program

variable (p : Program)

/-- `dyn_loc`. -/
def dynLoc (scope key : ℕ) : OpM Loc := do
  match ← ask fun s => s.dynFind key s.scopes.length (some scope) with
  | some l => return l
  | none => do
    let v ← match p.statics key with
      | some entry => onMem (alloc (.closure entry GHOST .undef .undef none))
      | none =>
          if p.host.lenient then onMem opaqueObj else throw (.fault (.unbound key))
    modify fun s => s.modScope GHOST fun sc => { sc with extra := sc.extra ++ [(key, v)] }
    ask fun s => do return .extra GHOST ((← index s.scopes GHOST).extra.length - 1)

/-- The value of a variable found by name. -/
def getDyn (scope key : ℕ) : OpM Val := do
  let l ← dynLoc p scope key
  ask fun s => s.locGet l

/-- A variable found by name written. -/
def setDyn (scope key : ℕ) (v : Val) : OpM Unit := do
  let l ← dynLoc p scope key
  modify fun s => s.locSet l v

/-- The location of a variable: at its static slot, or by name while it is not declared
there. -/
def varLoc (scope hops slot key : ℕ) : OpM Loc := do
  match ← ask fun s => s.staticLoc scope hops slot with
  | some l => return l
  | none => dynLoc p scope key

/-- The value of a variable with a static slot. -/
def getStatic (scope hops slot key : ℕ) : OpM Val := do
  let l ← varLoc p scope hops slot key
  ask fun s => s.locGet l

/-- A variable with a static slot written. -/
def setStatic (scope hops slot key : ℕ) (v : Val) : OpM Unit := do
  let l ← varLoc p scope hops slot key
  modify fun s => s.locSet l v

/-- `set_scope_field`. -/
def setScopeField (scope id : ℕ) (v : Val) : OpM Unit :=
  modify fun s => s.modScope scope fun sc =>
    { sc with
      ret := if id = p.retF then none else sc.ret
      fields := put id v sc.fields }

/-- `read_scope_field`: the pending result becomes a record when it is read. -/
def readScopeField (scope id : ℕ) : OpM Val := do
  let sc ← ask fun s => index s.scopes scope
  match sc.ret with
  | some v =>
      if id = p.retF then do
        let rec ← onMem (alloc (.plain [(p.names.retVal, v)]))
        modify fun s => s.modScope scope fun sc =>
          { sc with ret := none, fields := put id rec sc.fields }
        return rec
      else return sc.field id
  | none => return sc.field id

/-! ## Fast paths -/

/-- `plain_ic`: the value of a key of a plain object that is no accessor, and what the
inline cache holds afterwards. -/
def plainIc (heap : List Obj) (o : Obj) (ks : String) (slot : ℕ) : Res (Option Val × ℕ) := do
  let plainVal (v : Val) : Res (Option Val) := do
    match v with
    | .obj id => do
      match ← cell heap id with
      | .accessor .. => return none
      | _ => return some v
    | _ => return some v
  match o with
  | .plain props =>
      match props[slot]? with
      | some (n, v) => if n = ks then return (← plainVal v, slot) else search props plainVal
      | none => search props plainVal
  | _ => return (none, slot)
where
  search (props : List (String × Val)) (plainVal : Val → Res (Option Val)) :
      Res (Option Val × ℕ) := do
    match props.findIdx? (·.1 = ks) with
    | some i => return (← plainVal ((lookup ks props).getD .undef), i)
    | none => return (none, slot)

/-- `Op::MemberK`; `at_` is the place of the op, which has an inline cache. -/
def memberK (cf at_ : ℕ) (o k : Val) : OpM Val := do
  match o, k with
  | .obj id, .str ks => do
    let obj ← onMem (cellM id)
    match obj, ks with
    | .closure .., "apply" => return .nat .apply
    | _, _ => do
      let (found, slot) ← ask fun s => plainIc s.mem.heap obj ks (s.ic cf at_)
      modify fun s => { s with ic := Function.update s.ic cf (Function.update (s.ic cf) at_ slot) }
      match found with
      | some v => return v
      | none => onMem (getProp p.host o k)
  | _, _ => onMem (getProp p.host o k)

variable (h : Host)

/-- `Op::Member`. -/
def memberM (o k : Val) : MemM Val := do
  match o, k with
  | .obj id, .num n => do
    match ← cellM id with
    | .arr items => if isIndex n then return items.getD (n.toU 64) .undef else getProp h o k
    | _ => getProp h o k
  | _, _ => getProp h o k

/-- `Op::New`. -/
def newM (f : Val) (args : List Val) : MemM Val :=
  match f, args with
  | .nat .array, [.num len] =>
      if isIndex len && len.toU 64 ≤ MAX_ARRAY then
        alloc (.arr (List.replicate (len.toU 64) .undef))
      else construct h f args
  | _, _ => construct h f args

def orGlobal (this : Val) : Val := if this.nullish then .global else this

/-- `apply_fast`: `f.apply.apply(this, ..)` of a closure, with an array of arguments. -/
def applyFast (heap : List Obj) (f t a : Val) : Res (Option Request) :=
  match f, t, a with
  | .nat .apply, .obj fid, .obj aid => do
    match ← cell heap fid with
    | .closure .. => do
      match ← cell heap aid with
      | .arr (this :: .obj inner :: _) => do
        match ← cell heap inner with
        | .arr items => return some ⟨fid, orGlobal this, items⟩
        | _ => return none
      | _ => return none
    | _ => return none
  | _, _, _ => pure none

/-- `Op::Apply`. -/
def applyM (f t a : Val) : MemM Val := do
  match ← onHeap fun heap => applyFast heap f t a with
  | some q => Lib.CallM.request q
  | none => do call h f t (← listOf h a)

/-- `Op::ApplyL`. -/
def applyLM (f t th : Val) (items : List Val) : MemM Val := do
  let closure ← onHeap fun heap =>
    match f, t with
    | .nat .apply, .obj fid => do
      match ← cell heap fid with
      | .closure .. => return some fid
      | _ => return none
    | _, _ => pure none
  match closure with
  | some fid => Lib.CallM.request ⟨fid, orGlobal th, items⟩
  | none => do
    let inner ← alloc (.arr items)
    let _ ← alloc (.arr [th, inner])
    call h f t [th, inner]

/-- `Op::Binary`, `Op::BinK` and `Op::KBin`. -/
def arithM (op : BinaryOperator) (l r : Val) : MemM Val :=
  match l, r with
  | .num x, .num y =>
      match numBinary op x y with
      | some v => return v
      | none => binaryM h op l r
  | _, _ => binaryM h op l r

/-- A value compared with a number by `binary`. -/
def compareM (op : BinaryOperator) (l : Val) (n : F64) : MemM Bool := do
  return truthy (← binaryM h op l (.num (.ofBits n)))

/-- The test of `Op::BrK`, and of `Op::BrVarK` on a variable in its slot. -/
def testM (op : BinaryOperator) (l : Val) (n : F64) : MemM Bool :=
  match l with
  | .num x => return numCmp op x (.ofBits n)
  | _ => compareM h op l n

/-- `Op::SetProp`. -/
def setPropM (o k v : Val) : MemM Unit := do
  match o, k with
  | .obj id, .num n => do
    match ← cellM id with
    | .arr items =>
        if isIndex n && n.toU 64 < items.length then setCell id (.arr (items.set (n.toU 64) v))
        else setProp h o k v
    | _ => setProp h o k v
  | _, _ => setProp h o k v

/-- The test of `Op::BrVarK`. -/
def testVar (scope hops slot key : ℕ) (op : BinaryOperator) (n : F64) : OpM Bool := do
  match ← ask fun s => s.staticLoc scope hops slot with
  | some l => do
    let v ← ask fun s => s.locGet l
    onMem (testM p.host op v n)
  | none => do
    let v ← getDyn p scope key
    onMem (compareM p.host op v n)

/-- `fail`. -/
def failure (why pc : ℕ) : Fault :=
  if why = FAIL_HALT then .unsupported "halt"
  else if why = FAIL_PRUNED then .pruned pc
  else if why = FAIL_FELL then .unsupported "control fell off function"
  else if why = FAIL_INVALID then .unsupported "invalid block"
  else if why = FAIL_OPERAND then .unsupported "operand slot after devirtualization"
  else if why = FAIL_FRAME then .unsupported "frame as value"
  else .unsupported "non-index variable key"

/-! ## Ops -/

variable (f : CFunc) (a : Act)

/-- The ops that put into a register what the state holds already. -/
def reads (s : State) : Op → Option (ℕ × Res Val)
  | .num d n => some (d, pure (.num (.ofBits n)))
  | .const d c => some (d, index f.consts c)
  | .move d r => some (d, pure (s.stack (a.fb + r)))
  | .localS d slot => some (d, do
      let sc ← index s.scopes a.scope
      return (← index s.vals (sc.base + slot)).getD .undef)
  | .localD d key => some (d, do
      return (lookup key (← index s.scopes a.scope).extra).getD .undef)
  | .this d => some (d, do return (← index s.scopes a.scope).this)
  | .callee d => some (d, do return (← index s.scopes a.scope).callee)
  | .scopeRef d => some (d, pure (.scope a.scope))
  | .excRec d => some (d, pure (s.frameField p.excF))
  | .global d => some (d, pure .global)
  | .frameField d id => some (d, pure (s.frameField id))
  | _ => none

/-- The ops that put into a register what they compute on the heap; `r` reads the
registers. -/
def computes (s : State) (r : ℕ → Val) : Op → Option (ℕ × MemM Val)
  | .exc d => some (d, getProp p.host (s.frameField p.excF) (.str p.names.excVal))
  | .runtime d rt => some (d, runtimeValue p.host rt)
  | .name d c => some (d,
      match f.consts[c]? with
      | some (.str n) => nameM p.host n
      | some _ => failWith "name constant"
      | none => throw .panic)
  | .member d o k => some (d, memberM p.host (r o) (r k))
  | .call d fn this at_ n => some (d,
      call p.host (r fn) (if this = NOSLOT then .undef else r this) ((slice f.lists at_ n).map r))
  | .new d fn at_ n => some (d, newM p.host (r fn) ((slice f.lists at_ n).map r))
  | .apply d fn t args => some (d, applyM p.host (r fn) (r t) (r args))
  | .applyL d fn t th at_ n => some (d,
      applyLM p.host (r fn) (r t) (r th) ((slice f.lists at_ n).map r))
  | .construct d fn args => some (d, do construct p.host (r fn) (← listOf p.host (r args)))
  | .unary d op x => some (d, unaryM p.host op (r x))
  | .binary d op x y => some (d, arithM p.host op (r x) (r y))
  | .binK d op x n => some (d, arithM p.host op (r x) (.num (.ofBits n)))
  | .kBin d op n y => some (d, arithM p.host op (.num (.ofBits n)) (r y))
  | .array d at_ n => some (d, alloc (.arr ((slice f.lists at_ n).map r)))
  | .object d at_ n => some (d, do
      alloc (.plain (← objectProps p.host ((slice f.lists at_ n).map r) [])))
  | .keys d x => some (d, do
      let keys ← onHeap fun heap => keysOf heap (r x)
      alloc (.arr keys))
  | _ => none

/-- A value in a register, and the next op. -/
def write (d : ℕ) (v : Val) : OpM Next := do
  modify fun s => s.setReg (a.fb + d) v
  return .go (a.ip + 1)

/-- The next op. -/
def skip : OpM Next := return .go (a.ip + 1)

def reg (r : ℕ) : OpM Val := ask fun s => pure (s.stack (a.fb + r))

/-- The targets of `Jf`, `Jt` and `Jn`, which do not tick. -/
def jumpIf (c : Bool) (tgt : ℕ) : OpM Next := return .go (if c then tgt else a.ip + 1)

def branch (t when : Bool) (thn els : ℕ) : OpM Next := return .go (if t = when then thn else els)

/-- The place of a pc in the code. -/
def placeOf (v : Val) : Res ℕ := do f.ipOf (← pcOf v)

/-- `sc.fields` when the function returns: the pending result and what `clears` names
are `undefined`. -/
def clearFields (fields : List (ℕ × Val)) : List (ℕ × Val) :=
  fields.map fun x => if x.1 = p.retF ∨ x.1 ∈ p.clears then (x.1, .undef) else x

/-- `Op::Ret`. -/
def retOp (v : ℕ) : OpM Next := do
  let sc ← ask fun s => index s.scopes a.scope
  let x ← reg a v
  if sc.fields = [] then
    modify fun s => s.setReg (a.fb + v) .undef
    return .ret x
  else do
    modify fun s => s.modScope a.scope fun sc =>
      { sc with ret := some x, fields := clearFields p sc.fields }
    let fin ← ask fun s => do return (← index s.scopes a.scope).field p.finallyF
    if truthy fin then do
      let ip ← ask fun _ => placeOf f fin
      return .go ip
    else return .ret x

/-- `Op::Closure`. -/
def closureOp (d entry name arity : ℕ) : OpM Next := do
  let n ← reg a name
  let k ← reg a arity
  let sc ← ask fun s => index s.scopes a.scope
  modify fun s => { s with born := Function.update s.born s.mem.heap.length sc.birth }
  let v ← onMem (alloc (.closure entry a.scope n k none))
  write a d v

/-- The ops that are neither `reads` nor `computes`. -/
def acts : Op → OpM Next
  | .varS d hops slot key => do write a d (← getStatic p a.scope hops slot key)
  | .varD d key => do write a d (← getDyn p a.scope key)
  | .scopeField d id => do write a d (← readScopeField p a.scope id)
  | .memberK d o c => do
    let k ← ask fun _ => index f.consts c
    write a d (← memberK p a.cf a.ip (← reg a o) k)
  | .closure d entry name arity => closureOp a d entry name arity
  | .brK x op n when thn els => do
    tick
    branch (← onMem (testM p.host op (← reg a x) n)) when thn els
  | .brVarK hops slot key op n when thn els => do
    tick
    branch (← testVar p a.scope hops slot key op n) when thn els
  | .setVarK hops slot key n => do
    setStatic p a.scope hops slot key (.num (.ofBits n))
    skip a
  | .jf c tgt => do jumpIf a (!truthy (← reg a c)) tgt
  | .jt c tgt => do jumpIf a (truthy (← reg a c)) tgt
  | .jn c tgt => do jumpIf a (!(← reg a c).nullish) tgt
  | .j tgt => do
    tick
    return .go tgt
  | .setProp o k v => do
    onMem (setPropM p.host (← reg a o) (← reg a k) (← reg a v))
    skip a
  | .setVarS hops slot key v => do
    setStatic p a.scope hops slot key (← reg a v)
    skip a
  | .setVarD key v => do
    setDyn p a.scope key (← reg a v)
    skip a
  | .decl slot v => do
    let x ← reg a v
    let sc ← ask fun s => index s.scopes a.scope
    let _ ← ask fun s => index s.vals (sc.base + slot)
    modify fun s => s.setVal (sc.base + slot) x
    skip a
  | .setFrameField id v => do
    let x ← reg a v
    modify fun s => s.setFrameField id x
    skip a
  | .setScopeField id v => do
    setScopeField p a.scope id (← reg a v)
    skip a
  | .setCatch v => do
    setScopeField p a.scope p.catchF (← reg a v)
    skip a
  | .setFinally v => do
    setScopeField p a.scope p.finallyF (← reg a v)
    skip a
  | .jump v => do
    let x ← reg a v
    let pc ← ask fun _ => pcOf x
    tick
    let ip ← ask fun _ => f.ipOf pc
    return .go ip
  | .ret v => retOp p f a v
  | .throw v => do throw (.throw (← reg a v))
  | .br c when thn els => do
    tick
    branch (truthy (← reg a c)) when thn els
  | .fail why pc => throw (.fault (failure why pc))
  | _ => throw .panic

/-- An op, from the state in which it starts. -/
def execOp (op : Op) : OpM Next := do
  let s ← get
  match reads p f a s op with
  | some (d, v) => write a d (← ask fun _ => v)
  | none =>
    match computes p f s (fun r => s.stack (a.fb + r)) op with
    | some (d, x) => write a d (← onMem x)
    | none => acts p f a op

end Program

end Interp
end Lunar
