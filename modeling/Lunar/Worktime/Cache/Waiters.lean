/-
# Waiters are answered, and by their own flight

`worktime/cache.rs`: a caller that joined a flight waits on its channel.  The
channel of a flight is empty and open until its task sends, it carries what the
fetch of that task produced, and it is closed once the task is gone
(`Channels`).  So a waiter is answered by its flight or finds it aborted, and it
is never left with an open channel that nobody will fill or close.  A flight
that is settled has left the table, so nobody joins it any more.
-/

import Lunar.Worktime.Cache.SingleFlight

namespace Lunar
namespace Cache

variable {V : Type} {s s' : State V}

/-- The channel a caller has joined, whether or not it has been answered. -/
def Caller.joined (c : Caller V) : Option Chan :=
  match c.pos with
  | .fetching rx _ _ | .waiting rx | .answered rx _ | .dropped rx => some rx
  | .planning | .claiming | .refreshing _ _ _ | .served _ => none

/-- What the channel of a task may hold, by where the task stands. -/
def TaskAt.Sends (pos : TaskAt) (result : Option (Fetched V)) (ch : Channel V) : Prop :=
  match pos with
  | .sent => ch.closed = false ∧ ∃ r, result = some r ∧ ch.value = some r.outcome
  | .ended => ch.closed = true ∧ ∀ o, ch.value = some o → ∃ r, result = some r ∧ o = r.outcome
  | _ => ch = ⟨none, false⟩

/-- The channels in a reachable state. -/
structure Channels (s : State V) : Prop where
  /-- The channel of a flight that is not launched yet is empty and open. -/
  caller : ∀ {i : ℕ} {c : Caller V} {t : Ticket}, s.callers[i]? = some c → c.ticket = some t →
    s.channels[t.tx]? = some ⟨none, false⟩
  task : ∀ {j : ℕ} {t : Task V}, s.tasks[j]? = some t →
    ∃ ch, s.channels[t.tx]? = some ch ∧ t.pos.Sends t.result ch
  /-- A task has no result before its fetch returns. -/
  result : ∀ {j : ℕ} {t : Task V}, s.tasks[j]? = some t →
    t.pos = .spawned ∨ t.pos = .fetching → t.result = none

theorem channels_init : Channels (State.init : State V) where
  caller := by intro i c t h; cases h
  task := by intro j t h; cases h
  result := by intro j t h; cases h

/-- Two holders of one channel are one. -/
theorem Inv.holder_tx (hs : Inv s) {h h' : Holder} {t t' : Ticket} (ht : s.ticket h = some t)
    (ht' : s.ticket h' = some t') (htx : t.tx = t'.tx) : h = h' :=
  hs.holder ht ht' (by rw [← hs.ticket_tx ht, ← hs.ticket_tx ht', htx])

/-- A caller that gives up no ticket and takes none leaves the channels right. -/
theorem Channels.setCaller (hs : Channels s) {i : ℕ} {c c' : Caller V}
    (hc : s.callers[i]? = some c) (hc' : c'.ticket = none) : Channels (s.setCaller i c') where
  caller := by
    intro k d t hd ht
    rw [State.setCaller, getElem?_set_of_some hc] at hd
    split at hd
    · obtain rfl := Option.some.inj hd
      rw [hc'] at ht
      cases ht
    · exact hs.caller hd ht
  task := hs.task
  result := hs.result

/-- A task that moves on without touching its channel. -/
theorem Channels.setTask (hs : Channels s) {j : ℕ} {t t' : Task V} (ht : s.tasks[j]? = some t)
    (htx : t'.tx = t.tx)
    (hsends : ∀ ch, t.pos.Sends t.result ch → t'.pos.Sends t'.result ch)
    (hres : t'.pos = .spawned ∨ t'.pos = .fetching → t'.result = none) :
    Channels (s.setTask j t') where
  caller := hs.caller
  task := by
    intro k u hu
    rw [State.setTask, getElem?_set_of_some ht] at hu
    split at hu
    · obtain rfl := Option.some.inj hu
      obtain ⟨ch, hch, h⟩ := hs.task ht
      exact ⟨ch, by rw [htx]; exact hch, hsends ch h⟩
    · exact hs.task hu
  result := by
    intro k u hu
    rw [State.setTask, getElem?_set_of_some ht] at hu
    split at hu
    · obtain rfl := Option.some.inj hu; exact hres
    · exact hs.result hu

/-- A task that changes its own channel: no other party holds that channel. -/
theorem Channels.setChannel (inv : Inv s) (hs : Channels s) {j : ℕ} {t t' : Task V}
    {f : Channel V → Channel V} (ht : s.tasks[j]? = some t) (htx : t'.tx = t.tx)
    (hsends : ∀ ch, t.pos.Sends t.result ch → t'.pos.Sends t'.result (f ch))
    (hres : t'.pos = .spawned ∨ t'.pos = .fetching → t'.result = none) :
    Channels ((s.setChannel t.tx f).setTask j t') where
  caller := by
    intro i c u hc hu
    change s.callers[i]? = some c at hc
    have hne : t.tx ≠ u.tx := fun h => by
      cases inv.holder_tx (State.ticket_task ht) ((State.ticket_caller hc).trans hu) h
    change (s.channels.modify t.tx f)[u.tx]? = _
    rw [List.getElem?_modify_ne _ _ hne]
    exact hs.caller hc hu
  task := by
    intro k u hu
    change (s.tasks.set j t')[k]? = _ at hu
    change ∃ ch, (s.channels.modify t.tx f)[u.tx]? = _ ∧ _
    rw [getElem?_set_of_some ht] at hu
    split at hu
    · obtain rfl := Option.some.inj hu
      obtain ⟨ch, hch, h⟩ := hs.task ht
      exact ⟨f ch, by rw [htx, List.getElem?_modify_eq, hch]; rfl, hsends ch h⟩
    · rename_i hk
      have hne : t.tx ≠ u.tx := fun h => by
        cases inv.holder_tx (State.ticket_task ht) (State.ticket_task hu) h
        exact hk rfl
      rw [List.getElem?_modify_ne _ _ hne]
      exact hs.task hu
  result := by
    intro k u hu
    change (s.tasks.set j t')[k]? = _ at hu
    rw [getElem?_set_of_some ht] at hu
    split at hu
    · obtain rfl := Option.some.inj hu; exact hres
    · exact hs.result hu

/-- A caller that opens a flight makes a new channel for it. -/
theorem Channels.opened (hs : Channels s) {i : ℕ} {c c' : Caller V}
    {handed : List ℕ} {table : Table V} (hc : s.callers[i]? = some c)
    (hc' : ∀ t, c'.ticket = some t → t.tx = s.channels.length) :
    Channels { s.setCaller i c' with
      table, handed, channels := s.channels ++ [⟨none, false⟩] } where
  caller := by
    intro k d t hd ht
    change (s.callers.set i c')[k]? = _ at hd
    rw [getElem?_set_of_some hc] at hd
    change (s.channels ++ [_])[t.tx]? = _
    split at hd
    · obtain rfl := Option.some.inj hd
      rw [hc' t ht, List.getElem?_concat_length]
    · have hch := hs.caller hd ht
      rw [List.getElem?_append_left (List.getElem?_eq_some_iff.1 hch).1, hch]
  task := by
    intro j t ht
    obtain ⟨ch, hch, h⟩ := hs.task ht
    exact ⟨ch, by
      change (s.channels ++ [_])[t.tx]? = _
      rw [List.getElem?_append_left (List.getElem?_eq_some_iff.1 hch).1, hch], h⟩
  result := hs.result

/-- The task of a launched flight takes over its channel. -/
theorem Channels.launch (hs : Channels s) {i : ℕ} {c : Caller V} {generation tx : ℕ}
    {pos : CallerAt V} (hc : s.callers[i]? = some c)
    (ht : c.ticket = some ⟨c.key, generation, tx, true⟩)
    (hpos : ({ c with pos } : Caller V).ticket = none) :
    Channels (s.launch i c generation tx pos) where
  caller := (hs.setCaller hc hpos).caller
  task := by
    intro j u hu
    rcases getElem?_concat hu with hu | ⟨-, rfl⟩
    · exact hs.task hu
    · exact ⟨_, hs.caller hc ht, rfl⟩
  result := by
    intro j u hu
    rcases getElem?_concat hu with hu | ⟨-, rfl⟩
    · exact hs.result hu
    · exact fun _ => rfl

/-- A stopped task has sent nothing. -/
theorem TaskAt.Sends.stop {pos pos' : TaskAt} {result : Option (Fetched V)} {ch : Channel V}
    (h : pos.stop = some pos') (hs : pos.Sends result ch) : pos'.Sends result ch := by
  cases pos <;> cases h <;> exact hs

/-- **Every step keeps the channels right.** -/
theorem Channels.step (inv : Inv s) (hs : Channels s) {a : Action V} (h : Step s a s') :
    Channels s' := by
  cases h with
  | tick d => exact ⟨hs.caller, hs.task, hs.result⟩
  | resolve domain =>
      refine ⟨fun hc ht => ?_, hs.task, hs.result⟩
      rcases getElem?_concat hc with hc | ⟨-, rfl⟩
      · exact hs.caller hc ht
      · cases ht
  | plan hc hp => exact hs.setCaller hc (State.plan_ticket _)
  | @claim i c hc hp =>
      rcases s.table.claim_cases c.key c.now s.channels.length with
        ⟨v, hcl, -⟩ | ⟨f, hcl, -⟩ | ⟨v, t', hcl, -⟩ | ⟨t', hcl, -⟩ <;>
        simp only [State.claim, hcl]
      · exact hs.setCaller hc rfl
      · exact hs.setCaller hc rfl
      · exact hs.opened hc fun t ht => by cases ht; rfl
      · exact hs.opened hc fun t ht => by cases ht; rfl
  | refreshing hc hp => exact hs.launch hc (by simp [Caller.ticket, hp]) rfl
  | fetching hc hp => exact hs.launch hc (by simp [Caller.ticket, hp]) rfl
  | receive hc hp hw => exact hs.setCaller hc rfl
  | cancel hc hp => exact hs.setCaller hc rfl
  | start ht hp =>
      have hr := hs.result ht (.inl hp)
      exact hs.setTask ht rfl (fun ch h => by rw [hp] at h; exact h) fun _ => hr
  | fetch ht hp result =>
      exact hs.setTask ht rfl (fun ch h => by rw [hp] at h; exact h)
        fun h => by rcases h with h | h <;> cases h
  | settle ht hp hr =>
      exact Channels.setTask (s := s.settle _ _) ⟨hs.caller, hs.task, hs.result⟩ ht rfl
        (fun ch h => by rw [hp] at h; exact h) fun h => by rcases h with h | h <;> cases h
  | disarm ht hp =>
      exact hs.setTask ht rfl (fun ch h => by rw [hp] at h; exact h)
        fun h => by rcases h with h | h <;> cases h
  | send ht hp hr =>
      refine hs.setChannel inv ht rfl (fun ch h => ?_) fun h => by rcases h with h | h <;> cases h
      rw [hp] at h
      obtain rfl : ch = ⟨none, false⟩ := h
      exact ⟨rfl, _, hr, rfl⟩
  | @stop j t pos ht hp =>
      refine hs.setTask ht rfl (fun ch h => h.stop hp) fun h => ?_
      revert hp
      rcases h with h | h <;> cases h <;> cases t.pos <;> intro hp <;> cases hp
  | abandon ht hp =>
      exact Channels.setTask (s := s.settle _ _) ⟨hs.caller, hs.task, hs.result⟩ ht rfl
        (fun ch h => by rw [hp] at h; exact h) fun h => by rcases h with h | h <;> cases h
  | close ht hp =>
      refine hs.setChannel inv ht rfl (fun ch h => ?_) fun h => by rcases h with h | h <;> cases h
      rcases hp with hp | hp <;> rw [hp] at h
      · obtain rfl : ch = ⟨none, false⟩ := h
        exact ⟨rfl, fun o ho => by cases ho⟩
      · obtain ⟨-, r, hr, hv⟩ := h
        exact ⟨rfl, fun o ho => ⟨r, hr, Option.some.inj (ho.symm.trans hv)⟩⟩

theorem reachable_channels (hs : (system V).Reachable s) : Channels s :=
  hs.invariant channels_init fun _ _ _ hs h hstep => h.step (reachable_inv hs) (step_cases hstep)

/-! ## The flight a caller has joined -/

/-- **A ticket is never lost**: a step may hand it on or settle it, and a
settled one stays settled. -/
theorem Effect.ticket_stays (he : Effect s s') {h : Holder} {t : Ticket}
    (ht : s.ticket h = some t) : ∃ h' b, s'.ticket h' = some { t with outstanding := b } ∧
      (b = true → t.outstanding = true) := by
  cases he with
  | quiet table channels handed ticket =>
      exact ⟨h, t.outstanding, by rw [ticket, ht], id⟩
  | opened i key vacant table channels handed free ticket =>
      refine ⟨h, t.outstanding, ?_, id⟩
      rw [ticket, if_neg, ht]
      rintro rfl
      rw [free] at ht
      cases ht
  | launched i j table channels handed free ticket =>
      by_cases hi : h = .caller i
      · exact ⟨.task j, t.outstanding, by rw [ticket, if_pos rfl, ← hi, ht], id⟩
      · refine ⟨h, t.outstanding, ?_, id⟩
        rw [ticket, if_neg, if_neg hi, ht]
        rintro rfl
        rw [free] at ht
        cases ht
  | settled j u settled held late table channels handed ticket =>
      by_cases hj : h = .task j
      · subst hj
        obtain rfl := Option.some.inj (held.symm.trans ht)
        exact ⟨.task j, false, by rw [ticket, if_pos rfl], by intro h; cases h⟩
      · exact ⟨h, t.outstanding, by rw [ticket, if_neg hj, ht], id⟩

/-- **A caller joins the flight of its key**, or the one it opens. -/
theorem Step.joins {a : Action V} (h : Step s a s') {i : ℕ} {c' : Caller V} {rx : Chan}
    (hc' : s'.callers[i]? = some c') (hj : c'.joined = some rx) :
    (∃ c, s.callers[i]? = some c ∧ c.key = c'.key ∧ c.joined = some rx) ∨
    (∃ f, s.table.flight c'.key = some f ∧ f.rx = rx) ∨
    (rx = s.channels.length ∧ ∃ generation, c'.pos = .fetching rx generation rx) := by
  rcases h.caller hc' with hc | ⟨hp, -⟩ | ⟨c, hc, hkey, -, hstep⟩
  · exact .inl ⟨c', hc, rfl, hj⟩
  · simp [Caller.joined, hp] at hj
  · -- A caller that waits, is answered or is dropped had joined before.
    have before (hb : c.joined = some rx) :
        ∃ c, s.callers[i]? = some c ∧ c.key = c'.key ∧ c.joined = some rx :=
      ⟨c, hc, hkey.symm, hb⟩
    obtain ⟨key, now, pos⟩ := c'
    dsimp only at hstep hkey
    cases hstep with
    | claiming hp => cases hj
    | served hp h => cases hj
    | refresh hp h => cases hj
    | refreshed hp => cases hj
    | join hp h => exact .inr (.inl ⟨_, hkey ▸ h, Option.some.inj hj⟩)
    | fetch hp =>
        obtain rfl := Option.some.inj hj
        exact .inr (.inr ⟨rfl, _, rfl⟩)
    | fetched hp => exact .inl (before (by simpa [Caller.joined, hp] using hj))
    | answered hp hw => exact .inl (before (by simpa [Caller.joined, hp] using hj))
    | dropped hp => exact .inl (before (by simpa [Caller.joined, hp] using hj))

namespace State

/-- Whoever holds the ticket still has steps to take before it drops the sender:
a caller is about to launch the task, or the task has neither sent nor ended. -/
def Running (s : State V) : Holder → Prop
  | .caller i => ∃ c t, s.callers[i]? = some c ∧ c.ticket = some t
  | .task j => ∃ t, s.tasks[j]? = some t ∧ t.pos ≠ .sent ∧ t.pos ≠ .ended

/-- The task of the flight on `rx`, one of `key`, has fetched `outcome`. -/
def Produced (s : State V) (key : String) (rx : Chan) (outcome : Outcome V) : Prop :=
  ∃ (j : ℕ) (t : Task V) (result : Fetched V), s.tasks[j]? = some t ∧ t.key = key ∧ t.tx = rx ∧
    t.result = some result ∧ result.outcome = outcome

end State

/-- What a fetch has returned stays with its task. -/
theorem Channels.produced_stays (hs : Channels s) {a : Action V} (h : Step s a s') {key : String}
    {rx : Chan} {o : Outcome V} (hp : s.Produced key rx o) : s'.Produced key rx o := by
  obtain ⟨j, t, r, ht, hkey, htx, hr, ho⟩ := hp
  obtain ⟨t', ht', hkey', -, htx', hr'⟩ := h.task ht
  refine ⟨j, t', r, ht', by rw [hkey', hkey], by rw [htx', htx], ?_, ho⟩
  rcases hr' with hr' | hpos
  · rw [hr', hr]
  · rw [hs.result ht (.inr hpos)] at hr
    cases hr

/-- The callers in a reachable state: each has joined a flight of its key, and
is answered by it or finds it aborted. -/
structure Joined (s : State V) : Prop where
  flight : ∀ {i : ℕ} {c : Caller V} {rx : Chan}, s.callers[i]? = some c → c.joined = some rx →
    ∃ h t, s.ticket h = some t ∧ t.key = c.key ∧ t.tx = rx
  answered : ∀ {i : ℕ} {c : Caller V} {rx : Chan} {o : Outcome V}, s.callers[i]? = some c →
    c.pos = .answered rx o → o = .error aborted ∨ s.Produced c.key rx o

theorem joined_init : Joined (State.init : State V) where
  flight := by intro i c rx h; cases h
  answered := by intro i c rx o h; cases h

/-- **What `wait` hands over** is the outcome of the flight, or the error of an
aborted one. -/
theorem Channels.wait (hs : Channels s) {h : Holder} {t : Ticket} {o : Outcome V}
    (ht : s.ticket h = some t) (hw : s.wait t.tx = some o) :
    o = .error aborted ∨ s.Produced t.key t.tx o := by
  cases h with
  | caller i =>
      obtain ⟨c, hc, ht⟩ := Option.bind_eq_some_iff.1 ht
      simp [State.wait, hs.caller hc ht] at hw
  | task j =>
      obtain ⟨u, hu, rfl⟩ := Option.map_eq_some_iff.1 ht
      obtain ⟨⟨value, closed⟩, hch, hsends⟩ := hs.task hu
      have produced (hv : ∃ r, u.result = some r ∧ r.outcome = o) :
          s.Produced u.key u.tx o := by
        obtain ⟨r, hr, ho⟩ := hv
        exact ⟨j, u, r, hu, rfl, rfl, hr, ho⟩
      simp only [State.wait, Task.ticket, hch] at hw
      split at hw
      · rename_i heq
        cases heq
        obtain rfl := Option.some.inj hw
        cases hp : u.pos <;> simp only [hp, TaskAt.Sends, reduceCtorEq, Channel.mk.injEq,
          false_and] at hsends
        · obtain ⟨-, r, hr, ho⟩ := hsends
          exact .inr (produced ⟨r, hr, (Option.some.inj ho).symm⟩)
        · obtain ⟨r, hr, ho⟩ := hsends.2 _ rfl
          exact .inr (produced ⟨r, hr, ho.symm⟩)
      · exact .inl (Option.some.inj hw).symm
      · cases hw

/-- **Every step keeps it.** -/
theorem Joined.step (inv : Inv s) (hch : Channels s) (hs : Joined s) {a : Action V}
    (h : Step s a s') : Joined s' where
  flight := by
    intro i c' rx hc' hj
    have stays {k : Holder} {t : Ticket} (ht : s.ticket k = some t) (hkey : t.key = c'.key)
        (htx : t.tx = rx) : ∃ h t, s'.ticket h = some t ∧ t.key = c'.key ∧ t.tx = rx := by
      obtain ⟨h', b, ht', -⟩ := h.effect.ticket_stays ht
      exact ⟨h', _, ht', hkey, htx⟩
    rcases h.joins hc' hj with ⟨c, hc, hkey, hj⟩ | ⟨f, hf, hrx⟩ | ⟨-, g, hp⟩
    · obtain ⟨k, t, ht, hk, htx⟩ := hs.flight hc hj
      exact stays ht (hk.trans hkey) htx
    · obtain ⟨k, ht⟩ := inv.flight_held hf
      exact stays ht rfl hrx
    · exact ⟨.caller i, _, (State.ticket_caller hc').trans (by rw [Caller.ticket, hp]), rfl, rfl⟩
  answered := by
    intro i c' rx o hc' hp
    rcases h.caller hc' with hc | ⟨hp', -⟩ | ⟨c, hc, hkey, -, hstep⟩
    · exact (hs.answered hc hp).imp_right (hch.produced_stays h)
    · rw [hp'] at hp
      cases hp
    · rw [hp] at hstep
      cases hstep with
      | answered hpos hw =>
          obtain ⟨k, t, ht, hk, rfl⟩ := hs.flight hc (by rw [Caller.joined, hpos])
          refine (hch.wait ht hw).imp_right fun hprod => ?_
          rw [hkey, ← hk]
          exact hch.produced_stays h hprod

theorem reachable_joined (hs : (system V).Reachable s) : Joined s :=
  hs.invariant joined_init fun _ _ _ hs h hstep =>
    h.step (reachable_inv hs) (reachable_channels hs) (step_cases hstep)

/-- The channel of a flight is filled, closed, or still in the hands of a
running holder. -/
theorem Channels.filled (hs : Channels s) {h : Holder} {t : Ticket} (ht : s.ticket h = some t) :
    (∃ o, s.wait t.tx = some o) ∨ s.Running h := by
  cases h with
  | caller i =>
      obtain ⟨c, hc, ht⟩ := Option.bind_eq_some_iff.1 ht
      exact .inr ⟨c, t, hc, ht⟩
  | task j =>
      obtain ⟨u, hu, rfl⟩ := Option.map_eq_some_iff.1 ht
      obtain ⟨⟨value, closed⟩, hch, hsends⟩ := hs.task hu
      by_cases hsent : u.pos = .sent
      · rw [hsent] at hsends
        obtain ⟨-, r, -, rfl⟩ := hsends
        exact .inl ⟨_, by simp only [State.wait, Task.ticket, hch]; rfl⟩
      · by_cases hended : u.pos = .ended
        · rw [hended] at hsends
          obtain ⟨rfl, -⟩ := hsends
          cases value with
          | none => exact .inl ⟨_, by simp only [State.wait, Task.ticket, hch]; rfl⟩
          | some o => exact .inl ⟨_, by simp only [State.wait, Task.ticket, hch]; rfl⟩
        · exact .inr ⟨u, hu, hsent, hended⟩

/-- **A settled flight is not joined any more.**  Whoever is joined to it later
was joined to it when it was settled. -/
theorem settled_not_joined (hs : (system V).Reachable s) (hrun : (system V).Steps s s')
    {h : Holder} {t : Ticket} (ht : s.ticket h = some t) (hset : t.outstanding = false) {i : ℕ}
    {c' : Caller V} (hc' : s'.callers[i]? = some c') (hj : c'.joined = some t.tx) :
    ∃ c, s.callers[i]? = some c ∧ c.joined = some t.tx := by
  induction hrun generalizing c' with
  | refl => exact ⟨c', hc', hj⟩
  | @tail u u' a hrun hstep ih =>
      have inv := reachable_inv (hs.steps hrun)
      -- The ticket is still held in `u`, and still settled.
      have held : ∃ k, u.ticket k = some t := by
        refine hrun.preserves (P := fun v => ∃ k, v.ticket k = some t) hs ⟨h, ht⟩
          fun v b w _ ⟨k, hk⟩ hvw => ?_
        obtain ⟨k', b, hk', hb⟩ := (step_cases hvw).effect.ticket_stays hk
        have hb : b = t.outstanding := by
          rw [hset] at hb ⊢
          cases b
          · rfl
          · cases hb rfl
        exact ⟨k', by rw [hk', hb]⟩
      obtain ⟨k, hk⟩ := held
      rcases (step_cases hstep).joins hc' hj with ⟨c, hc, -, hj⟩ | ⟨f, hf, hrx⟩ | ⟨hrx, -⟩
      · exact ih hc hj
      · -- The flight in the table is outstanding, so it is another one.
        obtain ⟨k', hk'⟩ := inv.flight_held hf
        obtain rfl := inv.holder_tx hk hk' hrx.symm
        obtain rfl := Option.some.inj (hk.symm.trans hk')
        cases hset
      · have hlt := inv.ticket_lt hk
        rw [← inv.ticket_tx hk, hrx, inv.channels] at hlt
        exact absurd hlt (Nat.lt_irrefl _)

/-- **No waiter is stranded, or answered by another flight.**  Under every
interleaving: a caller joins the flight that its key has, or the one it opens,
and no other; the outcome it is given is the one that the fetch of that flight
produced, or the error of an aborted fetch, and a flight has one task; its
channel is filled or closed, or the party that will fill or close it is still
running; and a flight that is settled is not joined afterwards. -/
theorem no_stranded_waiter (hs : (system V).Reachable s) :
    (∀ a s' (i : ℕ) (c' : Caller V) rx, step s a = some s' → s'.callers[i]? = some c' →
      c'.joined = some rx →
      (∃ c : Caller V, s.callers[i]? = some c ∧ c.key = c'.key ∧ c.joined = some rx) ∨
      ∃ f, (s.table.flight c'.key = some f ∨ s'.table.flight c'.key = some f) ∧ f.rx = rx) ∧
    (∀ (i : ℕ) (c : Caller V) rx o, s.callers[i]? = some c → c.pos = .answered rx o →
      o = .error aborted ∨ s.Produced c.key rx o) ∧
    (∀ (j j' : ℕ) (t t' : Task V), s.tasks[j]? = some t → s.tasks[j']? = some t' → t.tx = t'.tx → j = j') ∧
    (∀ (i : ℕ) (c : Caller V) rx, s.callers[i]? = some c → c.joined = some rx →
      (∃ o, s.wait rx = some o ∧ (o = .error aborted ∨ s.Produced c.key rx o)) ∨
      ∃ h t, s.ticket h = some t ∧ t.key = c.key ∧ t.tx = rx ∧ s.Running h) ∧
    (∀ (j : ℕ) (t : Task V) s' (i : ℕ) (c' : Caller V), s.tasks[j]? = some t → t.pos.outstanding = false →
      (system V).Steps s s' → s'.callers[i]? = some c' → c'.joined = some t.tx →
      ∃ c : Caller V, s.callers[i]? = some c ∧ c.joined = some t.tx) := by
  have inv := reachable_inv hs
  have hch := reachable_channels hs
  refine ⟨?_, fun i c rx o => (reachable_joined hs).answered, ?_, ?_, ?_⟩
  · intro a s' i c' rx h hc' hj
    rcases (step_cases h).joins hc' hj with hb | ⟨f, hf, hrx⟩ | ⟨-, g, hp⟩
    · exact .inl hb
    · exact .inr ⟨f, .inl hf, hrx⟩
    · have ht : s'.ticket (.caller i) = some ⟨c'.key, g, rx, true⟩ :=
        (State.ticket_caller hc').trans (by rw [Caller.ticket, hp])
      exact .inr ⟨_, .inr ((reachable_inv (hs.step h)).held_flight ht rfl), rfl⟩
  · intro j j' t t' ht ht' htx
    cases inv.holder_tx (State.ticket_task ht) (State.ticket_task ht') htx
    rfl
  · intro i c rx hc hj
    obtain ⟨h, t, ht, hkey, rfl⟩ := (reachable_joined hs).flight hc hj
    rcases hch.filled ht with ⟨o, ho⟩ | hrun
    · exact .inl ⟨o, ho, hkey ▸ hch.wait ht ho⟩
    · exact .inr ⟨h, t, ht, hkey, rfl, hrun⟩
  · intro j t s' i c' ht hset hrun hc' hj
    exact settled_not_joined hs hrun (State.ticket_task ht) hset hc' hj

/-- One caller opens a flight and another joins it; the task panics in its
fetch, and a third caller comes after its guard has settled it. -/
def twoWaiters : List (Action Unit) :=
  [.resolve "nike.com", .plan 0, .claim 0, .launch 0, .resolve "nike.com", .plan 1, .start 0,
    .stop 0, .abandon 0, .resolve "nike.com", .plan 2, .claim 2]

theorem no_stranded_waiter_twoWaiters : ∃ s, (system Unit).Reachable s ∧
    s.callers.map Caller.joined = [some 0, some 0, some 1] ∧
    s.tasks.map (fun t => (t.tx, t.pos)) = [(0, .leaving)] ∧
    ∀ s' (i : ℕ) (c' : Caller Unit), (system Unit).Steps s s' → s'.callers[i]? = some c' →
      c'.joined = some 0 →
      ∃ c : Caller Unit, s.callers[i]? = some c ∧ c.joined = some 0 := by
  obtain ⟨s, hs, hj, ht⟩ := Lib.System.exists_reachable (m := system Unit) twoWaiters
    (P := fun s => s.callers.map Caller.joined = [some 0, some 0, some 1] ∧
      s.tasks.map (fun t => (t.tx, t.pos)) = [(0, .leaving)]) (by decide +kernel)
  refine ⟨s, hs, hj, ht, fun s' i c' hrun hc' hj' => ?_⟩
  obtain ⟨t, hts, hpos⟩ := List.map_eq_singleton_iff.1 ht
  obtain ⟨htx, hpos⟩ := Prod.mk.inj hpos
  have h0 : s.tasks[0]? = some t := by rw [hts]; rfl
  have := (no_stranded_waiter hs).2.2.2.2 0 t s' i c' h0 (by rw [hpos]; rfl) hrun hc'
    (by rw [htx]; exact hj')
  rwa [htx] at this

end Cache
end Lunar
