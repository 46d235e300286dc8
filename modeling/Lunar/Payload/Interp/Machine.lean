/-
# The interpreter

`payload/exec.rs`: `run` and `exec` with the cache of `compile`.

`run` calls itself through the ops of a function, through getters and through built-ins,
so a state of the machine is a control (`Ctl`) and the tasks that wait for it, the
innermost first: an activation of `exec` that has called something, or the host that has.
One step starts an op, makes a call, hands a result back or ends an op.  Nothing follows a
panic.
-/

import Lunar.Lib.System
import Lunar.Payload.Interp.Compile
import Lunar.Payload.Interp.Ops

namespace Lunar
namespace Interp

/-! ## Calls -/

/-- What waits for a call: an activation, or the host, and how it goes on. -/
abbrev Tree := Lib.Calls State Request (Res Val) (Res Next)

structure Task where
  who : Option Act
  k : State → Res Val → Tree

/-- `idle`: nothing runs, and the last run of the host ended so.  `ops`: an activation
stands at an op.  `eval`: an op, or the host, is at work.  `back`: a call has come back. -/
inductive Ctl
  | idle (s : State) (r : Res Next)
  | ops (s : State) (a : Act)
  | eval (who : Option Act) (t : Tree)
  | back (s : State) (r : Res Val)
  | crash

structure Config where
  ctl : Ctl
  tasks : List Task

/-- The value of a call by its summary. -/
def Summary.apply (sm : Summary) (first : Val) : Val :=
  match sm with
  | .const v => v
  | .arg => first
  | .not => .bool !truthy first
  | .notNot => .bool (truthy first)

section Program

variable (p : Program)

/-- `compile`. -/
def compile (s : State) (entry : ℕ) (parent : Option ℕ) : Res (ℕ × State) :=
  match s.compiled (entry, parent) with
  | some id => pure (id, s)
  | none =>
      match p.funcs.reverse.find? (·.entry = entry) with
      | none => .error (.fault (.noFunction entry))
      | some f => do
        let (cf, fieldIds) ← compileFunc f s.cfuncs parent s.fieldIds
        let id := s.cfuncs.length
        return (id, { s with
          cfuncs := s.cfuncs ++ [cf]
          compiled := Function.update s.compiled (entry, parent) (some id)
          fieldIds := fieldIds })

/-- The code of a closure noted in its cell. -/
def noteCode (id : ℕ) (s : State) (fn : ℕ) : State :=
  match s.mem.heap[fn]? with
  | some (.closure entry scope name arity _) =>
      { s with mem := { s.mem with heap := s.mem.heap.set fn (.closure entry scope name arity id) } }
  | _ => s

/-- The compiled function that `run` takes for a closure. -/
def codeOf (s : State) (fn entry scope : ℕ) (code : Option ℕ) : Res (ℕ × State) :=
  match code with
  | some id => pure (id, s)
  | none => do
    let (id, s) ← compile p s entry (← index s.scopes scope).cf
    return (id, noteCode id s fn)

/-- The scope that `run` pushes. -/
def newScope (s : State) (id parent : ℕ) (q : Request) : Scope :=
  ⟨some id, s.vals.length, none, [], some parent, q.this, .obj q.fn, [], s.clock⟩

/-- The registers of a call: its arguments from register 4 on, as far as there is room. -/
def argRegs (f : CFunc) (fb : ℕ) (args : List Val) (stack : ℕ → Val) : ℕ → Val := fun i =>
  if fb ≤ i ∧ i < fb + f.nregs then
    if fb + 4 ≤ i then args.getD (i - (fb + 4)) .undef else .undef
  else stack i

/-- The array of all arguments, for a function that reads it. -/
def argArray (f : CFunc) (fb : ℕ) (args : List Val) (s : State) : State :=
  if f.usesArgs then
    { s.setReg (fb + 3) (.obj s.mem.heap.length) with
      mem := { s.mem with heap := s.mem.heap ++ [Obj.arr args] } }
  else s

/-- The state in which the body of a call starts. -/
def pushed (s : State) (f : CFunc) (id parent : ℕ) (q : Request) : State :=
  argArray f s.sp q.args
    { s with
      scopes := s.scopes ++ [newScope s id parent q]
      vals := s.vals ++ f.init
      frames := [] :: s.frames
      stack := argRegs f s.sp q.args s.stack
      sp := s.sp + f.nslots
      clock := s.clock + 1 }

/-- The activation of a call. -/
def newAct (s : State) (f : CFunc) (id : ℕ) : Act :=
  ⟨id, s.sp, s.scopes.length, s.vals.length, f.entryIp⟩

/-- The body of a call, run by its ops. -/
def enterBody (s : State) (f : CFunc) (id parent : ℕ) (q : Request) : Ctl :=
  .ops (pushed s f id parent q) (newAct s f id)

/-- A failure on the way, which a panic does not survive. -/
def backWith (s : State) : Err → Ctl
  | .panic => .crash
  | e => .back s (.error e)

/-- `run` of a closure up to its body. -/
def enter (s : State) (q : Request) : Ctl :=
  match closureAt s.mem.heap q.fn with
  | none => .crash
  | some (entry, scope, code) =>
      if MAX_DEPTH ≤ s.frames.length then .back s (.error (.fault .depth))
      else
        match codeOf p s q.fn entry scope code with
        | .error e => backWith s e
        | .ok (id, s) =>
            match s.cfuncs[id]? with
            | none => .crash
            | some f =>
                match f.summary with
                | some sm => .back s (.ok (sm.apply (q.args.head?.getD .undef)))
                | none => enterBody s f id scope q

/-- The end of `run`: the frame and the registers are dropped, and the scope of a leaf
function when it is the last. -/
def leave (s : State) (f : CFunc) (a : Act) : State :=
  if f.leaf ∧ s.scopes.length = a.scope + 1 then
    { s with
      frames := s.frames.tail, sp := a.fb
      scopes := s.scopes.dropLast, vals := s.vals.take a.base }
  else { s with frames := s.frames.tail, sp := a.fb }

/-- The record of an exception in the frame. -/
def noteExc (s : State) (v : Val) : State :=
  { s with mem := { s.mem with heap := s.mem.heap ++ [Obj.plain [(p.names.excVal, v)]] } }.setFrameField
    p.excF (.obj s.mem.heap.length)

/-- The handler that `exec` finds for a throw, when there is one. -/
def handlerOf (s : State) (f : CFunc) (a : Act) : Res (Option ℕ) := do
  let c := (← index s.scopes a.scope).field p.catchF
  if truthy c then return some (← placeOf f c) else return none

/-- `exec` after a throw. -/
def caught (s : State) (f : CFunc) (a : Act) (v : Val) : Ctl :=
  match handlerOf p s f a with
  | .error .panic => .crash
  | .error e => .back (leave s f a) (.error e)
  | .ok none => .back (leave s f a) (.error (.throw v))
  | .ok (some ip) => .ops (noteExc p s v) { a with ip := ip }

/-- An op of an activation has ended. -/
def finished (s : State) (f : CFunc) (a : Act) : Res Next → Ctl
  | .ok (.go ip) => .ops s { a with ip := ip }
  | .ok (.ret v) => .back (leave s f a) (.ok v)
  | .error (.throw v) => caught p s f a v
  | .error .panic => .crash
  | .error (.fault e) => .back (leave s f a) (.error (.fault e))

/-- One step of the machine. -/
def Config.next (c : Config) : Option Config :=
  match c.ctl, c.tasks with
  | .ops s a, k =>
      match s.cfuncs[a.cf]? with
      | none => some ⟨.crash, k⟩
      | some f =>
          match f.ops[a.ip]? with
          | none => some ⟨.crash, k⟩
          | some op => some ⟨.eval (some a) (execOp p f a op s), k⟩
  | .eval who (.call s q k), ts => some ⟨enter p s q, ⟨who, k⟩ :: ts⟩
  | .eval none (.done s r), ts => some ⟨.idle s r, ts⟩
  | .eval (some a) (.done s r), ts =>
      match s.cfuncs[a.cf]? with
      | none => some ⟨.crash, ts⟩
      | some f => some ⟨finished p s f a r, ts⟩
  | .back s r, t :: ts => some ⟨.eval t.who (t.k s r), ts⟩
  | _, _ => none

/-- What happens next: a step, or, when nothing runs, something that the host does with
values and built-ins. -/
inductive Action
  | step
  | host (x : MemM Val) (tame : x.Follows Tame)

/-- The host at work. -/
def hostTree (x : MemM Val) (s : State) : Tree := (Next.ret <$> onMem x) s

/-- `Interp::new`. -/
def State.init : State where
  mem := ⟨[], [], [], []⟩
  scopes := [emptyScope, { emptyScope with birth := 1 }]
  vals := []
  frames := []
  stack _ := .undef
  sp := 0
  cfuncs := []
  compiled _ := none
  fieldIds := p.fieldIds
  ic _ _ := 0
  steps := 0
  clock := 2
  born _ := 0

/-- The interpreter and its host. -/
def interp : Lib.System Config Action where
  init := ⟨.idle (State.init p) (.ok (.ret .undef)), []⟩
  step c act :=
    match act, c.ctl with
    | .step, _ => c.next p
    | .host x _, .idle s _ => some ⟨.eval none (hostTree x s), []⟩
    | .host _ _, _ => none

end Program
end Interp
end Lunar
