/-
# The callers and the tasks of the cache

`worktime/cache.rs`: `resolve`, `launch`, `run`, `Abandon::drop` and `wait` as a
system whose steps are taken in any order.  A step is what one party does
without another being able to come between: a reading of the clock, a visit to
the table under its lock, the start of a task, a send, or the end of a fetch.

A caller goes through `resolve`: it reads the clock, plans under the read lock,
claims under the write lock if it must, launches the task of a flight it opened,
and waits for a flight it did not.  A task goes through `run`; once it has
started it may panic or be dropped wherever its code can stop, and it then runs
`Abandon::drop` and drops its sender, in that order.  A caller may be dropped
where it waits.

A watch channel hands a receiver a value already sent even when the sender has
since been dropped, and an error when it was dropped without a value.
-/

import Lunar.Lib.System
import Lunar.Worktime.Cache.Table

namespace Lunar
namespace Cache

open Fetch (FetchError Lifetime)

variable {V : Type}

/-- `Outcome`: what a request is answered with. -/
abbrev Outcome (V : Type) := Except FetchError V

/-- What `fetch::fetch` returns: `Fetched`, or an error. -/
inductive Fetched (V : Type)
  | ok (extracted : V) (lifetime : Option Lifetime)
  | error (e : FetchError)
  deriving DecidableEq

/-- The value of type `Outcome` that `run` makes of a fetch. -/
def Fetched.outcome : Fetched V → Outcome V
  | .ok value _ => .ok value
  | .error e => .error e

/-- The settlement that `run` makes of a fetch. -/
def Fetched.settled : Fetched V → Settled V
  | .ok value (some lifetime) => .cached value lifetime
  | .ok _ none => .uncached
  | .error _ => .failed

/-- A watch channel: the value sent, and whether its sender is gone. -/
structure Channel (V : Type) where
  value : Option (Outcome V)
  closed : Bool

/-- Where a call of `resolve` stands. -/
inductive CallerAt (V : Type)
  /-- The clock is read; the plan under the read lock is next. -/
  | planning
  /-- The plan asked for the write lock. -/
  | claiming
  /-- `Claim::Refresh`: the task is launched next, then the value answered. -/
  | refreshing (value : V) (generation : ℕ) (tx : Chan)
  /-- `Claim::Fetch`: the task is launched next, then the channel waited on. -/
  | fetching (rx : Chan) (generation : ℕ) (tx : Chan)
  | waiting (rx : Chan)
  /-- Answered from the stored entry, without waiting. -/
  | served (value : V)
  /-- Answered after waiting on `rx`. -/
  | answered (rx : Chan) (outcome : Outcome V)
  /-- Dropped while it waited on `rx`. -/
  | dropped (rx : Chan)

/-- A call of `resolve`: its key, its reading of the clock and where it stands. -/
structure Caller (V : Type) where
  key : String
  now : ℕ
  pos : CallerAt V

/-- Where the task of `run` stands. -/
inductive TaskAt
  /-- Spawned and never polled. -/
  | spawned
  /-- The guard is armed and the fetch is awaited. -/
  | fetching
  /-- The fetch has returned; `settle` is next. -/
  | fetched
  /-- `settle` has run; the guard is still armed. -/
  | settled
  /-- The guard is disarmed and dropped; the send is next. -/
  | disarmed
  /-- Panicked or dropped with the guard armed; `done` if `settle` had run. -/
  | unwinding (done : Bool)
  /-- The guard is gone without a send; the sender is dropped next. -/
  | leaving
  /-- The outcome is sent; the sender is dropped next. -/
  | sent
  | ended
  deriving DecidableEq, Repr

/-- A task of `run`.  `result` is what its fetch returned, if it did. -/
structure Task (V : Type) where
  key : String
  generation : ℕ
  tx : Chan
  pos : TaskAt
  result : Option (Fetched V)

/-- The cache, the clock, the channels made so far, and all callers and tasks
there ever were.  `handed` is the history of the generations handed out. -/
structure State (V : Type) where
  clock : ℕ
  table : Table V
  channels : List (Channel V)
  callers : List (Caller V)
  tasks : List (Task V)
  handed : List ℕ

/-- The steps.  `i` numbers a caller and `j` a task. -/
inductive Action (V : Type)
  /-- Time passes. -/
  | tick (d : ℕ)
  /-- A call of `resolve` starts and reads the clock. -/
  | resolve (domain : String)
  /-- Caller `i` plans under the read lock. -/
  | plan (i : ℕ)
  /-- Caller `i` claims under the write lock. -/
  | claim (i : ℕ)
  /-- Caller `i` launches the task of its flight. -/
  | launch (i : ℕ)
  /-- Caller `i` receives from the channel it waits on. -/
  | receive (i : ℕ)
  /-- Caller `i` is dropped where it waits. -/
  | cancel (i : ℕ)
  /-- Task `j` is polled for the first time and arms its guard. -/
  | start (j : ℕ)
  /-- The fetch of task `j` returns. -/
  | fetch (j : ℕ) (result : Fetched V)
  /-- Task `j` settles its fetch. -/
  | settle (j : ℕ)
  /-- Task `j` disarms its guard and drops it. -/
  | disarm (j : ℕ)
  /-- Task `j` sends its outcome. -/
  | send (j : ℕ)
  /-- Task `j`, which has started, panics or is dropped. -/
  | stop (j : ℕ)
  /-- The guard of the stopped task `j` is dropped. -/
  | abandon (j : ℕ)
  /-- The sender of task `j` is dropped. -/
  | close (j : ℕ)

namespace State

def init : State V := ⟨0, .empty, [], [], [], []⟩

def setCaller (s : State V) (i : ℕ) (c : Caller V) : State V :=
  { s with callers := s.callers.set i c }

def setTask (s : State V) (j : ℕ) (t : Task V) : State V := { s with tasks := s.tasks.set j t }

/-- The plan of `resolve` under the read lock; a missing slot is fetched. -/
def plan (s : State V) (c : Caller V) : CallerAt V :=
  match s.table.slots c.key with
  | none => .claiming
  | some slot =>
    match Cache.plan slot c.now with
    | .serve value => .served value
    | .join rx => .waiting rx
    | .refresh _ => .claiming
    | .fetch => .claiming

/-- The claim of `resolve` under the write lock.  A flight that is opened takes
the next channel and the next generation. -/
def claim (s : State V) (i : ℕ) (c : Caller V) : State V :=
  let (claimed, table) := s.table.claim c.key c.now s.channels.length
  let s := { s with table }
  match claimed with
  | .serve value => s.setCaller i { c with pos := .served value }
  | .join rx => s.setCaller i { c with pos := .waiting rx }
  | .refresh value generation tx =>
    { s.setCaller i { c with pos := .refreshing value generation tx } with
      channels := s.channels ++ [⟨none, false⟩], handed := s.handed ++ [generation] }
  | .fetch rx generation tx =>
    { s.setCaller i { c with pos := .fetching rx generation tx } with
      channels := s.channels ++ [⟨none, false⟩], handed := s.handed ++ [generation] }

/-- `launch`: the task of caller `i` is spawned, and the caller goes on to `pos`. -/
def launch (s : State V) (i : ℕ) (c : Caller V) (generation : ℕ) (tx : Chan) (pos : CallerAt V) :
    State V :=
  { s.setCaller i { c with pos } with
    tasks := s.tasks ++ [⟨c.key, generation, tx, .spawned, none⟩] }

/-- `settle` for a task, at the present clock. -/
def settle (s : State V) (t : Task V) (settled : Settled V) : State V :=
  { s with table := s.table.settle t.key t.generation settled s.clock }

/-- `wait` on a channel: the outcome sent, or the error of a closed channel. -/
def wait (s : State V) (rx : Chan) : Option (Outcome V) :=
  match s.channels[rx]? with
  | some ⟨some outcome, _⟩ => some outcome
  | some ⟨none, true⟩ => some (.error aborted)
  | _ => none

def setChannel (s : State V) (tx : Chan) (f : Channel V → Channel V) : State V :=
  { s with channels := s.channels.modify tx f }

end State

/-- Where a stopped task goes on: `Abandon::drop` if its guard is armed, else
the drop of its sender.  A task that was never polled has no guard, and one that
has sent or stopped cannot stop again. -/
def TaskAt.stop : TaskAt → Option TaskAt
  | .fetching => some (.unwinding false)
  | .fetched => some (.unwinding false)
  | .settled => some (.unwinding true)
  | .disarmed => some .leaving
  | .spawned | .unwinding _ | .leaving | .sent | .ended => none

/-- One step of caller `i`. -/
def stepCaller (s : State V) (i : ℕ) (c : Caller V) : Action V → Option (State V)
  | .plan _ =>
    match c.pos with
    | .planning => some (s.setCaller i { c with pos := s.plan c })
    | _ => none
  | .claim _ =>
    match c.pos with
    | .claiming => some (s.claim i c)
    | _ => none
  | .launch _ =>
    match c.pos with
    | .refreshing value generation tx => some (s.launch i c generation tx (.served value))
    | .fetching rx generation tx => some (s.launch i c generation tx (.waiting rx))
    | _ => none
  | .receive _ =>
    match c.pos with
    | .waiting rx =>
      (s.wait rx).map fun outcome => s.setCaller i { c with pos := .answered rx outcome }
    | _ => none
  | .cancel _ =>
    match c.pos with
    | .waiting rx => some (s.setCaller i { c with pos := .dropped rx })
    | _ => none
  | _ => none

/-- One step of task `j`. -/
def stepTask (s : State V) (j : ℕ) (t : Task V) : Action V → Option (State V)
  | .start _ =>
    match t.pos with
    | .spawned => some (s.setTask j { t with pos := .fetching })
    | _ => none
  | .fetch _ result =>
    match t.pos with
    | .fetching => some (s.setTask j { t with pos := .fetched, result := some result })
    | _ => none
  | .settle _ =>
    match t.pos, t.result with
    | .fetched, some result => some ((s.settle t result.settled).setTask j { t with pos := .settled })
    | _, _ => none
  | .disarm _ =>
    match t.pos with
    | .settled => some (s.setTask j { t with pos := .disarmed })
    | _ => none
  | .send _ =>
    match t.pos, t.result with
    | .disarmed, some result =>
      some ((s.setChannel t.tx fun ch => { ch with value := some result.outcome }).setTask j
        { t with pos := .sent })
    | _, _ => none
  | .stop _ => t.pos.stop.map fun pos => s.setTask j { t with pos }
  | .abandon _ =>
    match t.pos with
    | .unwinding _ => some ((s.settle t .failed).setTask j { t with pos := .leaving })
    | _ => none
  | .close _ =>
    match t.pos with
    | .leaving | .sent =>
      some ((s.setChannel t.tx fun ch => { ch with closed := true }).setTask j
        { t with pos := .ended })
    | _ => none
  | _ => none

/-- One step of the whole. -/
def step (s : State V) (a : Action V) : Option (State V) :=
  match a with
  | .tick d => some { s with clock := s.clock + d }
  | .resolve domain =>
    some { s with callers := s.callers ++ [⟨lower domain, s.clock, .planning⟩] }
  | .plan i | .claim i | .launch i | .receive i | .cancel i =>
    s.callers[i]?.bind fun c => stepCaller s i c a
  | .start j | .fetch j _ | .settle j | .disarm j | .send j | .stop j | .abandon j | .close j =>
    s.tasks[j]?.bind fun t => stepTask s j t a

/-- The cache under any interleaving of its callers and tasks. -/
def system (V : Type) : Lib.System (State V) (Action V) := ⟨.init, step⟩

end Cache
end Lunar
