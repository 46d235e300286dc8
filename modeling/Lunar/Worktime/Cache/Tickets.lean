/-
# Who holds a generation

A generation of `worktime/cache.rs` is handed out by a claim that opens a flight
and is held by one party at a time: by the caller until it launches the task, by
the task from then on.  The ticket of a party is what it holds: the key, the
generation and the sender, and whether the generation is still outstanding, that
is, neither settled nor abandoned.

`Step` says once what each step does, and `Effect` what it does to the table and
to the tickets: nothing, open a flight, move a ticket from a caller to its task,
or settle.
-/

import Lunar.Worktime.Cache.System

namespace Lunar
namespace Cache

open Fetch (FetchError Lifetime)

variable {V : Type} {s s' : State V}

/-- The steps as a relation: one constructor per action and outcome, with the
state it leads to. -/
inductive Step (s : State V) : Action V → State V → Prop
  | tick (d : ℕ) : Step s (.tick d) { s with clock := s.clock + d }
  | resolve (domain : String) : Step s (.resolve domain)
      { s with callers := s.callers ++ [⟨lower domain, s.clock, .planning⟩] }
  | plan {i : ℕ} {c : Caller V} (hc : s.callers[i]? = some c) (hp : c.pos = .planning) :
      Step s (.plan i) (s.setCaller i { c with pos := s.plan c })
  | claim {i : ℕ} {c : Caller V} (hc : s.callers[i]? = some c) (hp : c.pos = .claiming) :
      Step s (.claim i) (s.claim i c)
  | refreshing {i : ℕ} {c : Caller V} {value : V} {generation tx : ℕ}
      (hc : s.callers[i]? = some c) (hp : c.pos = .refreshing value generation tx) :
      Step s (.launch i) (s.launch i c generation tx (.served value))
  | fetching {i : ℕ} {c : Caller V} {rx generation tx : ℕ}
      (hc : s.callers[i]? = some c) (hp : c.pos = .fetching rx generation tx) :
      Step s (.launch i) (s.launch i c generation tx (.waiting rx))
  | receive {i : ℕ} {c : Caller V} {rx : ℕ} {outcome : Outcome V}
      (hc : s.callers[i]? = some c) (hp : c.pos = .waiting rx) (hw : s.wait rx = some outcome) :
      Step s (.receive i) (s.setCaller i { c with pos := .answered rx outcome })
  | cancel {i : ℕ} {c : Caller V} {rx : ℕ}
      (hc : s.callers[i]? = some c) (hp : c.pos = .waiting rx) :
      Step s (.cancel i) (s.setCaller i { c with pos := .dropped rx })
  | start {j : ℕ} {t : Task V} (ht : s.tasks[j]? = some t) (hp : t.pos = .spawned) :
      Step s (.start j) (s.setTask j { t with pos := .fetching })
  | fetch {j : ℕ} {t : Task V} (ht : s.tasks[j]? = some t) (hp : t.pos = .fetching)
      (result : Fetched V) :
      Step s (.fetch j result) (s.setTask j { t with pos := .fetched, result := some result })
  | settle {j : ℕ} {t : Task V} {result : Fetched V} (ht : s.tasks[j]? = some t)
      (hp : t.pos = .fetched) (hr : t.result = some result) :
      Step s (.settle j) ((s.settle t result.settled).setTask j { t with pos := .settled })
  | disarm {j : ℕ} {t : Task V} (ht : s.tasks[j]? = some t) (hp : t.pos = .settled) :
      Step s (.disarm j) (s.setTask j { t with pos := .disarmed })
  | send {j : ℕ} {t : Task V} {result : Fetched V} (ht : s.tasks[j]? = some t)
      (hp : t.pos = .disarmed) (hr : t.result = some result) :
      Step s (.send j) ((s.setChannel t.tx fun ch => { ch with value := some result.outcome }).setTask j
        { t with pos := .sent })
  | stop {j : ℕ} {t : Task V} {pos : TaskAt} (ht : s.tasks[j]? = some t)
      (hp : t.pos.stop = some pos) : Step s (.stop j) (s.setTask j { t with pos })
  | abandon {j : ℕ} {t : Task V} {done : Bool} (ht : s.tasks[j]? = some t)
      (hp : t.pos = .unwinding done) :
      Step s (.abandon j) ((s.settle t .failed).setTask j { t with pos := .leaving })
  | close {j : ℕ} {t : Task V} (ht : s.tasks[j]? = some t)
      (hp : t.pos = .leaving ∨ t.pos = .sent) :
      Step s (.close j) ((s.setChannel t.tx fun ch => { ch with closed := true }).setTask j
        { t with pos := .ended })

/-- **Every step is one of `Step`.** -/
theorem step_cases {a : Action V} (h : step s a = some s') : Step s a s' := by
  cases a with
  | tick d => obtain rfl := Option.some.inj h; exact .tick d
  | resolve domain => obtain rfl := Option.some.inj h; exact .resolve domain
  | plan i =>
      obtain ⟨c, hc, h⟩ := Option.bind_eq_some_iff.1 h
      simp only [stepCaller] at h
      split at h
      · obtain rfl := Option.some.inj h; exact .plan hc ‹_›
      · cases h
  | claim i =>
      obtain ⟨c, hc, h⟩ := Option.bind_eq_some_iff.1 h
      simp only [stepCaller] at h
      split at h
      · obtain rfl := Option.some.inj h; exact .claim hc ‹_›
      · cases h
  | launch i =>
      obtain ⟨c, hc, h⟩ := Option.bind_eq_some_iff.1 h
      simp only [stepCaller] at h
      split at h
      · obtain rfl := Option.some.inj h; exact .refreshing hc ‹_›
      · obtain rfl := Option.some.inj h; exact .fetching hc ‹_›
      · cases h
  | receive i =>
      obtain ⟨c, hc, h⟩ := Option.bind_eq_some_iff.1 h
      simp only [stepCaller] at h
      split at h
      · obtain ⟨outcome, hw, rfl⟩ := Option.map_eq_some_iff.1 h
        exact .receive hc ‹_› hw
      · cases h
  | cancel i =>
      obtain ⟨c, hc, h⟩ := Option.bind_eq_some_iff.1 h
      simp only [stepCaller] at h
      split at h
      · obtain rfl := Option.some.inj h; exact .cancel hc ‹_›
      · cases h
  | start j =>
      obtain ⟨t, ht, h⟩ := Option.bind_eq_some_iff.1 h
      simp only [stepTask] at h
      split at h
      · obtain rfl := Option.some.inj h; exact .start ht ‹_›
      · cases h
  | fetch j result =>
      obtain ⟨t, ht, h⟩ := Option.bind_eq_some_iff.1 h
      simp only [stepTask] at h
      split at h
      · obtain rfl := Option.some.inj h; exact .fetch ht ‹_› result
      · cases h
  | settle j =>
      obtain ⟨t, ht, h⟩ := Option.bind_eq_some_iff.1 h
      simp only [stepTask] at h
      split at h
      · obtain rfl := Option.some.inj h; exact .settle ht ‹_› ‹_›
      · cases h
  | disarm j =>
      obtain ⟨t, ht, h⟩ := Option.bind_eq_some_iff.1 h
      simp only [stepTask] at h
      split at h
      · obtain rfl := Option.some.inj h; exact .disarm ht ‹_›
      · cases h
  | send j =>
      obtain ⟨t, ht, h⟩ := Option.bind_eq_some_iff.1 h
      simp only [stepTask] at h
      split at h
      · obtain rfl := Option.some.inj h; exact .send ht ‹_› ‹_›
      · cases h
  | stop j =>
      obtain ⟨t, ht, h⟩ := Option.bind_eq_some_iff.1 h
      obtain ⟨pos, hp, rfl⟩ := Option.map_eq_some_iff.1 h
      exact .stop ht hp
  | abandon j =>
      obtain ⟨t, ht, h⟩ := Option.bind_eq_some_iff.1 h
      simp only [stepTask] at h
      split at h
      · obtain rfl := Option.some.inj h; exact .abandon ht ‹_›
      · cases h
  | close j =>
      obtain ⟨t, ht, h⟩ := Option.bind_eq_some_iff.1 h
      simp only [stepTask] at h
      split at h
      · obtain rfl := Option.some.inj h; exact .close ht (.inl ‹_›)
      · obtain rfl := Option.some.inj h; exact .close ht (.inr ‹_›)
      · cases h

/-! ## What a step does to one party -/

/-- Where a caller can go in one step, and what that says of the table. -/
inductive CallerStep (s : State V) (c : Caller V) : CallerAt V → Prop
  | claiming (hp : c.pos = .planning) : CallerStep s c .claiming
  | served {v : V} (hp : c.pos = .planning ∨ c.pos = .claiming)
      (h : s.table.Servable c.key c.now v) : CallerStep s c (.served v)
  | join {f : Flight} (hp : c.pos = .planning ∨ c.pos = .claiming)
      (h : s.table.flight c.key = some f) : CallerStep s c (.waiting f.rx)
  | refresh {v : V} (hp : c.pos = .claiming) (h : s.table.Servable c.key c.now v) :
      CallerStep s c (.refreshing v s.table.nextGeneration s.channels.length)
  | fetch (hp : c.pos = .claiming) :
      CallerStep s c (.fetching s.channels.length s.table.nextGeneration s.channels.length)
  | refreshed {v : V} {generation tx : ℕ} (hp : c.pos = .refreshing v generation tx) :
      CallerStep s c (.served v)
  | fetched {rx generation tx : ℕ} (hp : c.pos = .fetching rx generation tx) :
      CallerStep s c (.waiting rx)
  | answered {rx : ℕ} {o : Outcome V} (hp : c.pos = .waiting rx) (hw : s.wait rx = some o) :
      CallerStep s c (.answered rx o)
  | dropped {rx : ℕ} (hp : c.pos = .waiting rx) : CallerStep s c (.dropped rx)

theorem getElem?_set_of_some {α : Type} {l : List α} {i k : ℕ} {a b : α} (h : l[i]? = some a) :
    (l.set i b)[k]? = if i = k then some b else l[k]? := by
  rw [List.getElem?_set]
  split
  · rename_i hik
    rw [if_pos (hik ▸ (List.getElem?_eq_some_iff.1 h).1)]
  · rfl

theorem getElem?_concat {α : Type} {l : List α} {k : ℕ} {a b : α} (h : (l ++ [a])[k]? = some b) :
    l[k]? = some b ∨ (k = l.length ∧ b = a) := by
  rw [List.getElem?_append] at h
  split at h
  · exact .inl h
  · obtain ⟨hk, hb⟩ := List.getElem?_eq_some_iff.1 h
    simp only [List.length_singleton] at hk
    exact .inr ⟨by omega, by simpa using hb.symm⟩

/-- **Under the read lock** a caller is served from the entry, joins the flight,
or goes on to claim. -/
theorem CallerStep.plan {c : Caller V} (hp : c.pos = .planning) : CallerStep s c (s.plan c) := by
  unfold State.plan
  cases hs : s.table.slots c.key with
  | none => exact .claiming hp
  | some slot =>
      rcases Table.plan_cases hs c.now with ⟨v, h, hv⟩ | ⟨f, h, hf, -⟩ | ⟨v, h, -⟩ | ⟨h, -⟩ <;>
        simp only [h]
      · exact .served (.inl hp) hv
      · exact .join (.inl hp) hf
      · exact .claiming hp
      · exact .claiming hp

/-- **Under the write lock** a caller is served, joins, or opens a flight. -/
theorem CallerStep.claim {i : ℕ} {c : Caller V} (hp : c.pos = .claiming) :
    ∃ pos, CallerStep s c pos ∧
      (s.claim i c).callers = s.callers.set i { c with pos } := by
  rcases s.table.claim_cases c.key c.now s.channels.length with
    ⟨v, hcl, h⟩ | ⟨f, hcl, h, -⟩ | ⟨v, t', hcl, h, -⟩ | ⟨t', hcl, -⟩ <;>
    simp only [State.claim, hcl]
  · exact ⟨_, .served (.inr hp) h, rfl⟩
  · exact ⟨_, .join (.inr hp) h, rfl⟩
  · exact ⟨_, .refresh hp h, rfl⟩
  · exact ⟨_, .fetch hp, rfl⟩

/-- **A caller after a step** is as before, has just read the clock, or has
made a step of its own. -/
theorem Step.caller {a : Action V} (h : Step s a s') {i : ℕ} {c' : Caller V}
    (hc' : s'.callers[i]? = some c') :
    s.callers[i]? = some c' ∨ (c'.pos = .planning ∧ c'.now = s.clock) ∨
    ∃ c, s.callers[i]? = some c ∧ c'.key = c.key ∧ c'.now = c.now ∧ CallerStep s c c'.pos := by
  -- A caller `k` that goes on to `pos` and leaves the other callers alone.
  have moved : ∀ {k : ℕ} {c : Caller V} {pos : CallerAt V}, s.callers[k]? = some c →
      CallerStep s c pos → s'.callers = s.callers.set k { c with pos } →
      s.callers[i]? = some c' ∨ (c'.pos = .planning ∧ c'.now = s.clock) ∨
      ∃ c, s.callers[i]? = some c ∧ c'.key = c.key ∧ c'.now = c.now ∧ CallerStep s c c'.pos := by
    intro k c pos hc hstep hcallers
    rw [hcallers, getElem?_set_of_some hc] at hc'
    split at hc'
    · rename_i hk
      obtain rfl := Option.some.inj hc'
      exact .inr (.inr ⟨c, hk ▸ hc, rfl, rfl, hstep⟩)
    · exact .inl hc'
  cases h with
  | tick d => exact .inl hc'
  | resolve domain =>
      rcases getElem?_concat hc' with h | ⟨-, rfl⟩
      · exact .inl h
      · exact .inr (.inl ⟨rfl, rfl⟩)
  | plan hc hp => exact moved hc (.plan hp) rfl
  | claim hc hp =>
      obtain ⟨pos, hstep, hcallers⟩ := CallerStep.claim hp
      exact moved hc hstep hcallers
  | refreshing hc hp => exact moved hc (.refreshed hp) rfl
  | fetching hc hp => exact moved hc (.fetched hp) rfl
  | receive hc hp hw => exact moved hc (.answered hp hw) rfl
  | cancel hc hp => exact moved hc (.dropped hp) rfl
  | start ht hp => exact .inl hc'
  | fetch ht hp result => exact .inl hc'
  | settle ht hp hr => exact .inl hc'
  | disarm ht hp => exact .inl hc'
  | send ht hp hr => exact .inl hc'
  | stop ht hp => exact .inl hc'
  | abandon ht hp => exact .inl hc'
  | close ht hp => exact .inl hc'

theorem State.claim_tasks (i : ℕ) (c : Caller V) : (s.claim i c).tasks = s.tasks := by
  unfold State.claim
  dsimp only
  split <;> rfl

/-- **A task after a step**: it keeps its key, generation and sender, and what
its fetch returned. -/
theorem Step.task {a : Action V} (h : Step s a s') {j : ℕ} {t : Task V}
    (ht : s.tasks[j]? = some t) :
    ∃ t', s'.tasks[j]? = some t' ∧ t'.key = t.key ∧ t'.generation = t.generation ∧
      t'.tx = t.tx ∧ (t'.result = t.result ∨ t.pos = .fetching) := by
  have same : ∃ t', s.tasks[j]? = some t' ∧ t'.key = t.key ∧ t'.generation = t.generation ∧
      t'.tx = t.tx ∧ (t'.result = t.result ∨ t.pos = .fetching) :=
    ⟨t, ht, rfl, rfl, rfl, .inl rfl⟩
  -- A task `k` that goes on to `u'` and leaves the other tasks alone.
  have moved : ∀ {k : ℕ} {u u' : Task V}, s.tasks[k]? = some u → u'.key = u.key →
      u'.generation = u.generation → u'.tx = u.tx → (u'.result = u.result ∨ u.pos = .fetching) →
      ∃ t', (s.tasks.set k u')[j]? = some t' ∧ t'.key = t.key ∧ t'.generation = t.generation ∧
        t'.tx = t.tx ∧ (t'.result = t.result ∨ t.pos = .fetching) := by
    intro k u u' hu hkey hgen htx hres
    rw [getElem?_set_of_some hu]
    split
    · rename_i hk
      obtain rfl := Option.some.inj ((hk ▸ hu).symm.trans ht)
      exact ⟨u', rfl, hkey, hgen, htx, hres⟩
    · exact same
  have launched : ∀ {new : Task V}, ∃ t', (s.tasks ++ [new])[j]? = some t' ∧ t'.key = t.key ∧
      t'.generation = t.generation ∧ t'.tx = t.tx ∧
      (t'.result = t.result ∨ t.pos = .fetching) := by
    intro new
    refine ⟨t, ?_, rfl, rfl, rfl, .inl rfl⟩
    rw [List.getElem?_append_left (List.getElem?_eq_some_iff.1 ht).1, ht]
  cases h with
  | tick d => exact same
  | resolve domain => exact same
  | plan hc hp => exact same
  | claim hc hp => rw [State.claim_tasks]; exact same
  | refreshing hc hp => exact launched
  | fetching hc hp => exact launched
  | receive hc hp hw => exact same
  | cancel hc hp => exact same
  | start hu hp => exact moved hu rfl rfl rfl (.inl rfl)
  | fetch hu hp result => exact moved hu rfl rfl rfl (.inr hp)
  | settle hu hp hr => exact moved hu rfl rfl rfl (.inl rfl)
  | disarm hu hp => exact moved hu rfl rfl rfl (.inl rfl)
  | send hu hp hr => exact moved hu rfl rfl rfl (.inl rfl)
  | stop hu hp => exact moved hu rfl rfl rfl (.inl rfl)
  | abandon hu hp => exact moved hu rfl rfl rfl (.inl rfl)
  | close hu hp => exact moved hu rfl rfl rfl (.inl rfl)

/-! ## Tickets -/

/-- A generation handed out, as its holder knows it. -/
structure Ticket where
  key : String
  generation : ℕ
  tx : Chan
  outstanding : Bool
  deriving DecidableEq, Repr

/-- The generation of a task is neither settled nor abandoned. -/
def TaskAt.outstanding : TaskAt → Bool
  | .spawned | .fetching | .fetched | .unwinding false => true
  | .settled | .disarmed | .unwinding true | .leaving | .sent | .ended => false

theorem TaskAt.outstanding_stop {pos pos' : TaskAt} (h : pos.stop = some pos') :
    pos'.outstanding = pos.outstanding := by
  cases pos <;> cases h <;> rfl

/-- The ticket of a caller between its claim and its launch. -/
def Caller.ticket (c : Caller V) : Option Ticket :=
  match c.pos with
  | .refreshing _ generation tx => some ⟨c.key, generation, tx, true⟩
  | .fetching _ generation tx => some ⟨c.key, generation, tx, true⟩
  | _ => none

def Task.ticket (t : Task V) : Ticket := ⟨t.key, t.generation, t.tx, t.pos.outstanding⟩

inductive Holder
  | caller (i : ℕ)
  | task (j : ℕ)
  deriving DecidableEq

namespace State

/-- The ticket of a party, if it holds one. -/
def ticket (s : State V) : Holder → Option Ticket
  | .caller i => s.callers[i]?.bind Caller.ticket
  | .task j => s.tasks[j]?.map Task.ticket

/-- The generation `generation` of `key` is launched and not yet settled or
abandoned. -/
def Outstanding (s : State V) (key : String) (generation : ℕ) : Prop :=
  ∃ h t, s.ticket h = some t ∧ t.outstanding = true ∧ t.key = key ∧ t.generation = generation

theorem ticket_setCaller {i : ℕ} {c c' : Caller V} (hc : s.callers[i]? = some c) (h : Holder) :
    (s.setCaller i c').ticket h = if h = .caller i then c'.ticket else s.ticket h := by
  cases h with
  | caller k =>
      simp only [ticket, setCaller, getElem?_set_of_some hc, Holder.caller.injEq, eq_comm (a := k)]
      split <;> rfl
  | task k => simp [ticket, setCaller]

theorem ticket_setTask {j : ℕ} {t t' : Task V} (ht : s.tasks[j]? = some t) (h : Holder) :
    (s.setTask j t').ticket h = if h = .task j then some t'.ticket else s.ticket h := by
  cases h with
  | caller k => simp [ticket, setTask]
  | task k =>
      simp only [ticket, setTask, getElem?_set_of_some ht, Holder.task.injEq, eq_comm (a := k)]
      split <;> rfl

theorem ticket_caller {i : ℕ} {c : Caller V} (hc : s.callers[i]? = some c) :
    s.ticket (.caller i) = c.ticket := by simp [ticket, hc]

theorem ticket_task {j : ℕ} {t : Task V} (ht : s.tasks[j]? = some t) :
    s.ticket (.task j) = some t.ticket := by simp [ticket, ht]

end State

/-! ## The effect of a step on the table and the tickets -/

/-- What a step does to the table, the channels and the tickets. -/
inductive Effect (s s' : State V) : Prop
  /-- Nothing. -/
  | quiet (table : s'.table = s.table) (channels : s'.channels.length = s.channels.length)
      (handed : s'.handed = s.handed) (ticket : ∀ h, s'.ticket h = s.ticket h)
  /-- Caller `i` opens a flight for `key`, which had none. -/
  | opened (i : ℕ) (key : String) (vacant : s.table.flight key = none)
      (table : s.table.Opened s'.table key s.channels.length)
      (channels : s'.channels.length = s.channels.length + 1)
      (handed : s'.handed = s.handed ++ [s.table.nextGeneration])
      (free : s.ticket (.caller i) = none)
      (ticket : ∀ h, s'.ticket h = if h = .caller i then
        some ⟨key, s.table.nextGeneration, s.channels.length, true⟩ else s.ticket h)
  /-- The ticket of caller `i` goes to the new task `j`. -/
  | launched (i j : ℕ) (table : s'.table = s.table) (channels : s'.channels = s.channels)
      (handed : s'.handed = s.handed) (free : s.ticket (.task j) = none)
      (ticket : ∀ h, s'.ticket h = if h = .task j then s.ticket (.caller i) else
        if h = .caller i then none else s.ticket h)
  /-- Task `j` settles: its generation is no longer outstanding. -/
  | settled (j : ℕ) (t : Ticket) (settled : Settled V) (held : s.ticket (.task j) = some t)
      (late : t.outstanding = false → settled = .failed)
      (table : s'.table = s.table.settle t.key t.generation settled s.clock)
      (channels : s'.channels = s.channels) (handed : s'.handed = s.handed)
      (ticket : ∀ h, s'.ticket h = if h = .task j then
        some { t with outstanding := false } else s.ticket h)

/-- A caller that changes without a ticket before or after changes nothing else. -/
theorem Effect.quiet_caller {i : ℕ} {c c' : Caller V} (hc : s.callers[i]? = some c)
    (h : c.ticket = none) (h' : c'.ticket = none) : Effect s (s.setCaller i c') := by
  refine .quiet rfl rfl rfl fun k => ?_
  rw [State.ticket_setCaller hc]
  split
  · rename_i hk; rw [hk, State.ticket_caller hc, h, h']
  · rfl

theorem State.ticket_setTask_same {j : ℕ} {t t' : Task V} (ht : s.tasks[j]? = some t)
    (h : t'.ticket = t.ticket) (k : Holder) : (s.setTask j t').ticket k = s.ticket k := by
  rw [State.ticket_setTask ht]
  split
  · rename_i hk; rw [hk, State.ticket_task ht, h]
  · rfl

/-- A task that keeps its ticket changes nothing else. -/
theorem Effect.quiet_task {j : ℕ} {t t' : Task V} (ht : s.tasks[j]? = some t)
    (h : t'.ticket = t.ticket) : Effect s (s.setTask j t') :=
  .quiet rfl rfl rfl (State.ticket_setTask_same ht h)

/-- Nor does one that sends on a channel or drops its sender. -/
theorem Effect.quiet_channel {j : ℕ} {t t' : Task V} (ht : s.tasks[j]? = some t)
    (h : t'.ticket = t.ticket) (f : Channel V → Channel V) :
    Effect s ((s.setChannel t.tx f).setTask j t') :=
  .quiet rfl (by simp [State.setTask, State.setChannel]) rfl
    (State.ticket_setTask_same (s := s.setChannel t.tx f) ht h)

theorem State.plan_ticket (c : Caller V) :
    ({ c with pos := s.plan c } : Caller V).ticket = none := by
  unfold State.plan
  cases s.table.slots c.key with
  | none => rfl
  | some slot => cases h : Cache.plan slot c.now <;> simp only [h] <;> rfl

theorem Effect.claim {i : ℕ} {c : Caller V} (hc : s.callers[i]? = some c) (hp : c.pos = .claiming) :
    Effect s (s.claim i c) := by
  have hfree : c.ticket = none := by simp [Caller.ticket, hp]
  rcases s.table.claim_cases c.key c.now s.channels.length with
    ⟨v, hcl, -⟩ | ⟨f, hcl, -⟩ | ⟨v, t', hcl, -, hf, ho⟩ | ⟨t', hcl, -, hf, ho⟩ <;>
    simp only [State.claim, hcl]
  · exact .quiet_caller hc hfree rfl
  · exact .quiet_caller hc hfree rfl
  · exact .opened i c.key hf ho (by simp) rfl (by rw [State.ticket_caller hc, hfree])
      (State.ticket_setCaller (s := { s with table := t' }) hc)
  · exact .opened i c.key hf ho (by simp) rfl (by rw [State.ticket_caller hc, hfree])
      (State.ticket_setCaller (s := { s with table := t' }) hc)

theorem Effect.launch {i : ℕ} {c : Caller V} {generation tx : ℕ} {pos : CallerAt V}
    (hc : s.callers[i]? = some c) (ht : c.ticket = some ⟨c.key, generation, tx, true⟩)
    (hpos : ({ c with pos } : Caller V).ticket = none) :
    Effect s (s.launch i c generation tx pos) := by
  refine .launched i s.tasks.length rfl rfl rfl (by simp [State.ticket]) fun h => ?_
  rw [State.ticket_caller hc, ht]
  cases h with
  | caller k =>
      have hset : (s.setCaller i { c with pos }).ticket (.caller k) = _ :=
        State.ticket_setCaller hc (.caller k)
      rw [hpos] at hset
      simpa [State.launch, State.ticket] using hset
  | task k =>
      simp only [State.ticket, State.launch, State.setCaller, List.getElem?_append,
        Holder.task.injEq, reduceCtorEq, if_false]
      split
      · rename_i hk; rw [if_neg (by omega)]
      · rename_i hk
        split
        · rename_i hk'; simp [hk', Task.ticket, TaskAt.outstanding]
        · have : s.tasks[k]? = none := List.getElem?_eq_none (by omega)
          rw [this, List.getElem?_eq_none (by simp; omega)]

theorem Effect.settle {j : ℕ} {t : Task V} {settled : Settled V} {pos : TaskAt}
    (ht : s.tasks[j]? = some t) (hpos : pos.outstanding = false)
    (late : t.pos.outstanding = false → settled = .failed) :
    Effect s ((s.settle t settled).setTask j { t with pos }) := by
  refine .settled j t.ticket settled (State.ticket_task ht) late rfl rfl rfl fun h => ?_
  rw [State.ticket_setTask (s := s.settle t settled) (t := t) ht]
  simp only [Task.ticket, hpos]
  rfl

/-- **Every step has one of the four effects.** -/
theorem Step.effect {a : Action V} (h : Step s a s') : Effect s s' := by
  cases h with
  | tick d => exact .quiet rfl rfl rfl fun _ => rfl
  | resolve domain =>
      refine .quiet rfl rfl rfl fun h => ?_
      cases h with
      | caller i =>
          simp only [State.ticket, List.getElem?_append]
          split
          · rfl
          · rename_i hi
            rw [List.getElem?_eq_none (by omega : s.callers.length ≤ i)]
            cases hk : i - s.callers.length <;> rfl
      | task j => rfl
  | plan hc hp => exact .quiet_caller hc (by simp [Caller.ticket, hp]) (State.plan_ticket _)
  | claim hc hp => exact .claim hc hp
  | refreshing hc hp => exact .launch hc (by simp [Caller.ticket, hp]) rfl
  | fetching hc hp => exact .launch hc (by simp [Caller.ticket, hp]) rfl
  | receive hc hp hw => exact .quiet_caller hc (by simp [Caller.ticket, hp]) rfl
  | cancel hc hp => exact .quiet_caller hc (by simp [Caller.ticket, hp]) rfl
  | start ht hp => exact .quiet_task ht (by simp [Task.ticket, hp, TaskAt.outstanding])
  | fetch ht hp result => exact .quiet_task ht (by simp [Task.ticket, hp, TaskAt.outstanding])
  | settle ht hp hr => exact .settle ht rfl (by simp [hp, TaskAt.outstanding])
  | disarm ht hp => exact .quiet_task ht (by simp [Task.ticket, hp, TaskAt.outstanding])
  | send ht hp hr => exact .quiet_channel ht (by simp [Task.ticket, hp, TaskAt.outstanding]) _
  | stop ht hp => exact .quiet_task ht (by simp [Task.ticket, TaskAt.outstanding_stop hp])
  | abandon ht hp => exact .settle ht rfl fun _ => rfl
  | close ht hp =>
      refine .quiet_channel ht ?_ _
      rcases hp with hp | hp <;> simp [Task.ticket, hp, TaskAt.outstanding]

end Cache
end Lunar
