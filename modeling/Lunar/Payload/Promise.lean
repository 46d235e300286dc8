/-
# Promises

`payload/exec.rs`: `new_promise`, `settle`, `react`, `then`, `promise_of`, the promises of
`construct` and `native`, and the look at them in `call`.

Everything else of the interpreter, the functions of the script among it, is the
surroundings of these functions.  They run what is no built-in of promises by asking the
surroundings for it, and the surroundings may do anything before they answer: they make
objects, they use the built-ins of promises again, and they return, throw or fail
(`machine`).  No other code looks into a promise, so the heap tells for an object only
whether it is a promise, and which.

A call that goes on forever overflows the stack: `stack` is the depth to which calls go,
and an overflow, or an id outside the heap, is `Err.panic`.

`ticket`, `owner`, `settled` and `ran` are no part of the source: a reaction gets a ticket
when it is registered, and the world notes the promise it was registered at, which promise
was settled how, and which reaction has run with which outcome.
-/

import Lunar.Lib.Rely
import Lunar.Lib.System
import Lunar.Payload.Interp.Value

namespace Lunar
namespace Promises

open Interp (Val Err Res)
open Lib.CallM (attempt)

/-! ## The heap -/

/-- An entry of `reactions`. -/
structure Reaction where
  onOk : Val
  onErr : Val
  derived : Option ℕ
  ticket : ℕ
  deriving DecidableEq, Repr

/-- `Obj::Promise`: pending in state 0, fulfilled in state 1, rejected in state 2. -/
structure Promise where
  state : ℕ
  value : Val
  reactions : List Reaction
  deriving DecidableEq, Repr

/-- What the promise with a number, or the reaction with a ticket, has come to. -/
abbrev Outcome := ℕ × Bool × Val

structure World where
  heap : List (Option Promise)
  owner : List ℕ
  settled : List Outcome
  ran : List Outcome
  deriving DecidableEq, Repr

/-- What the surroundings are asked to call. -/
structure Request where
  f : Val
  this : Val
  args : List Val
  deriving DecidableEq, Repr

abbrev PromiseM := Lib.CallM World Request (Res Val) Err

/-- `self.heap[id]`. -/
def cellM (id : ℕ) : PromiseM (Option Promise) :=
  Lib.CallM.reading fun w =>
    match w.heap[id]? with
    | some c => .ok c
    | none => .error .panic

/-- An object is made. -/
def World.add (w : World) (c : Option Promise) : World := { w with heap := w.heap ++ [c] }

def alloc (c : Option Promise) : PromiseM ℕ := modifyGet fun w => (w.heap.length, w.add c)

/-- `type_error`. -/
def typeError {α : Type} : PromiseM α := do
  let e ← alloc none
  throw (.throw (.obj e))

def failWith {α : Type} (what : String) : PromiseM α := throw (.fault (.unsupported what))

/-- `new_promise`. -/
def newPromise : PromiseM ℕ := alloc (some ⟨0, .undef, []⟩)

/-- The promise that a value is. -/
def asPromise : Val → PromiseM (Option (ℕ × Promise))
  | .obj id => do return (← cellM id).map fun pr => (id, pr)
  | _ => return none

/-- The promise that a value is, when a promise is fulfilled with it. -/
def adopted (ok : Bool) (v : Val) : PromiseM (Option (ℕ × Promise)) :=
  if ok then asPromise v else return none

/-! ## Reactions and outcomes -/

/-- A reaction is registered at a pending promise. -/
def World.push (w : World) (p : ℕ) (pr : Promise) (onOk onErr : Val) (derived : Option ℕ) : World :=
  { w with
    heap := w.heap.set p
      (some { pr with reactions := pr.reactions ++ [⟨onOk, onErr, derived, w.owner.length⟩] })
    owner := w.owner ++ [p] }

/-- A pending promise leaves its state, and its reactions are taken. -/
def World.settle (w : World) (p : ℕ) (ok : Bool) (v : Val) : World :=
  { w with
    heap := w.heap.set p (some ⟨if ok then 1 else 2, v, []⟩)
    settled := w.settled ++ [(p, ok, v)] }

/-- A reaction is registered at a settled promise, to run at once. -/
def register (p : ℕ) : PromiseM ℕ :=
  modifyGet fun w => (w.owner.length, { w with owner := w.owner ++ [p] })

/-- A reaction begins to run. -/
def noteRun (o : Outcome) : PromiseM Unit := modify fun w => { w with ran := w.ran ++ [o] }

mutual

/-- `settle`. -/
def settle : ℕ → ℕ → Bool → Val → PromiseM Unit
  | 0, _, _, _ => throw .panic
  | stack + 1, p, ok, v => do
    match ← adopted ok v with
    | some (src, pr) =>
      if pr.state = 0 then
        modify fun w => w.push src pr (.nat (.settle p true)) (.nat (.settle p false)) none
      else settle stack p (pr.state = 1) pr.value
    | none =>
      match ← cellM p with
      | some pr =>
        if pr.state ≠ 0 then return ()
        else do
          modify fun w => w.settle p ok v
          pr.reactions.forM (react stack ok v)
      | none => return ()

/-- `react`. -/
def react : ℕ → Bool → Val → Reaction → PromiseM Unit
  | 0, _, _, _ => throw .panic
  | stack + 1, ok, v, r => do
    noteRun (r.ticket, ok, v)
    let handler := if ok then r.onOk else r.onErr
    let settleDerived (ok : Bool) (v : Val) : PromiseM Unit :=
      match r.derived with
      | some derived => settle stack derived ok v
      | none => return ()
    if handler.nullish then settleDerived ok v
    else
      match ← attempt (call stack handler .undef [v]) with
      | .ok x => settleDerived true x
      | .error (.throw e) => settleDerived false e
      | .error e => throw e

/-- `call`. -/
def call : ℕ → Val → Val → List Val → PromiseM Val
  | 0, _, _, _ => throw .panic
  | stack + 1, .nat n, this, args => native stack n this args
  | _ + 1, f, this, args => Lib.CallM.request ⟨f, this, args⟩

/-- `native` on the built-ins of promises. -/
def native : ℕ → Interp.Nat → Val → List Val → PromiseM Val
  | 0, _, _, _ => throw .panic
  | stack + 1, n, this, args =>
    let arg (i : ℕ) : Val := args.getD i .undef
    match n with
    | .promise => typeError
    | .promiseResolve => do return .obj (← promiseOf stack (arg 0))
    | .promiseReject => do
      let p ← newPromise
      settle stack p false (arg 0)
      return .obj p
    | .then_ =>
      match this with
      | .obj p => thenOn stack p (arg 0) (arg 1)
      | _ => failWith "then on non-promise"
    | .catch_ =>
      match this with
      | .obj p => thenOn stack p .undef (arg 0)
      | _ => failWith "then on non-promise"
    | .settle p ok => do
      settle stack p ok (arg 0)
      return .undef
    | n => Lib.CallM.request ⟨.nat n, this, args⟩

/-- `then`. -/
def thenOn : ℕ → ℕ → Val → Val → PromiseM Val
  | 0, _, _, _ => throw .panic
  | stack + 1, p, onOk, onErr => do
    let derived ← newPromise
    match ← cellM p with
    | some pr =>
      if pr.state = 0 then modify fun w => w.push p pr onOk onErr (some derived)
      else do
        let ticket ← register p
        react stack (pr.state = 1) pr.value ⟨onOk, onErr, some derived, ticket⟩
      return .obj derived
    | none => failWith "then on non-promise"

/-- `promise_of`. -/
def promiseOf : ℕ → Val → PromiseM ℕ
  | 0, _ => throw .panic
  | stack + 1, v => do
    match ← asPromise v with
    | some (id, _) => return id
    | none => do
      let p ← newPromise
      settle stack p true v
      return p

end

/-- `construct` of a promise. -/
def construct (stack : ℕ) (args : List Val) : PromiseM Val := do
  let p ← newPromise
  let exec := args.getD 0 .undef
  match ← attempt (call stack exec .undef [.nat (.settle p true), .nat (.settle p false)]) with
  | .ok _ => return .obj p
  | .error (.throw e) => do
    settle stack p false e
    return .obj p
  | .error e => throw e

/-- The loop of `Promise.all` and `Promise.race` over the items left.  The array of the values
is an object like any other. -/
def allFrom (stack : ℕ) (race : Bool) (out : ℕ) : List Val → Bool → PromiseM Val
  | [], pending => do
    if !pending && !race then
      let arr ← alloc none
      settle stack out true (.obj arr)
    return .obj out
  | item :: rest, pending => do
    let p ← promiseOf stack item
    match ← cellM p with
    | some ⟨1, value, _⟩ =>
      if race then do
        settle stack out true value
        return .obj out
      else allFrom stack race out rest pending
    | some ⟨2, value, _⟩ => do
      settle stack out false value
      return .obj out
    | _ => allFrom stack race out rest true

/-- `Promise.all` and `Promise.race` of the items of their argument. -/
def all (stack : ℕ) (race : Bool) (list : List Val) : PromiseM Val := do
  let out ← newPromise
  allFrom stack race out list false

/-! ## The surroundings -/

/-- A use of a built-in of promises. -/
inductive Use
  | native (n : Interp.Nat) (this : Val) (args : List Val)
  | construct (args : List Val)
  | all (race : Bool) (list : List Val)

def Use.run (stack : ℕ) : Use → PromiseM Val
  | .native n this args => Promises.native stack n this args
  | .construct args => Promises.construct stack args
  | .all race list => Promises.all stack race list

abbrev Tree := Lib.Calls World Request (Res Val) (Res Val)

/-- The surroundings have control: `frames` are the built-ins that wait for them, the
innermost first.  After a fault nothing runs. -/
structure Config where
  world : World
  frames : List (World → Res Val → Tree)
  aborted : Bool

/-- What the surroundings do: they make an object that is no promise, they use a built-in, or
they answer the innermost one that waits. -/
inductive Action
  | alloc
  | use (stack : ℕ) (u : Use)
  | answer (r : Res Val)

/-- A built-in has run up to its end or its next call. -/
def resume (frames : List (World → Res Val → Tree)) : Tree → Config
  | .done w (.ok _) | .done w (.error (.throw _)) => ⟨w, frames, false⟩
  | .done w (.error _) => ⟨w, frames, true⟩
  | .call w _ k => ⟨w, k :: frames, false⟩

/-- The promises in their surroundings. -/
def machine : Lib.System Config Action where
  init := ⟨⟨[], [], [], []⟩, [], false⟩
  step c a :=
    if c.aborted then none
    else
      match a, c.frames with
      | .alloc, frames => some ⟨c.world.add none, frames, false⟩
      | .use stack u, frames => some (resume frames (u.run stack c.world))
      | .answer r, k :: frames => some (resume frames (k c.world r))
      | .answer _, [] => none

end Promises
end Lunar
