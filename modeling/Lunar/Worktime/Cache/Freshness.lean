/-
# What is served from the store

`worktime/cache.rs`: a caller is answered from a stored entry only before the
stale limit of the entry, and every entry comes from a fetch of its key that
returned a value with a lifetime.  A failed refresh keeps an entry until its
stale limit, and a fetch whose value must not be cached removes it.
-/

import Lunar.Worktime.Cache.Waiters

namespace Lunar
namespace Cache

open Fetch (FetchError Lifetime)

variable {V : Type} {s s' : State V}

/-- The value a caller answers, or is about to answer, from the store. -/
def CallerAt.stored : CallerAt V → Option V
  | .refreshing v _ _ | .served v => some v
  | _ => none

namespace State

/-- Task `j`, a task of `key`, has fetched `v` with lifetime `l`. -/
def Cacheable (s : State V) (j : ℕ) (key : String) (v : V) (l : Lifetime) : Prop :=
  ∃ t, s.tasks[j]? = some t ∧ t.key = key ∧ t.result = some (.ok v (some l))

end State

theorem Channels.cacheable_stays (hs : Channels s) {a : Action V} (h : Step s a s') {j : ℕ}
    {key : String} {v : V} {l : Lifetime} (hc : s.Cacheable j key v l) :
    s'.Cacheable j key v l := by
  obtain ⟨t, ht, hkey, hr⟩ := hc
  obtain ⟨t', ht', hkey', -, -, hr'⟩ := h.task ht
  refine ⟨t', ht', by rw [hkey', hkey], ?_⟩
  rcases hr' with hr' | hpos
  · rw [hr', hr]
  · rw [hs.result ht (.inr hpos)] at hr
    cases hr

theorem Step.clock_le {a : Action V} (h : Step s a s') : s.clock ≤ s'.clock := by
  cases h with
  | tick d => exact Nat.le_add_right _ _
  | @claim i c hc hp =>
      rcases s.table.claim_cases c.key c.now s.channels.length with
        ⟨v, hcl, -⟩ | ⟨f, hcl, -⟩ | ⟨v, t', hcl, -⟩ | ⟨t', hcl, -⟩ <;>
        simp only [State.claim, hcl] <;> exact Nat.le_refl _
  | _ => exact Nat.le_refl _

/-- The entry that a fetch with a lifetime leaves. -/
def Entry.of (v : V) (l : Lifetime) (generation : ℕ) : Entry V :=
  ⟨v, l.freshUntil, l.staleUntil, generation⟩

/-- **An entry after a step** was there before, or a task of its key that
fetched its value with its limits has just settled. -/
theorem Step.entry {a : Action V} (h : Step s a s') {key : String} {e : Entry V}
    (he : s'.table.entry key = some e) :
    s.table.entry key = some e ∨
    ∃ j v l generation, a = .settle j ∧ s.Cacheable j key v l ∧ e = Entry.of v l generation := by
  have same (ht : s'.table = s.table) : s.table.entry key = some e := by rw [← ht, he]
  cases h with
  | @claim i c hc hp =>
      rcases s.table.claim_cases c.key c.now s.channels.length with
        ⟨v, hcl, -⟩ | ⟨f, hcl, -⟩ | ⟨v, t', hcl, -, -, ho⟩ | ⟨t', hcl, -, -, ho⟩ <;>
        simp only [State.claim, hcl] at he
      · exact .inl he
      · exact .inl he
      · exact .inl ((ho.entry key).symm.trans he)
      · exact .inl ((ho.entry key).symm.trans he)
  | @settle j t result ht hp hr =>
      rcases entry_settle_cases he with he | ⟨rfl, -, v, l, hc, rfl⟩
      · exact .inl he
      · refine .inr ⟨j, v, l, t.generation, rfl, ⟨t, ht, rfl, ?_⟩, rfl⟩
        cases result with
        | error err => cases hc
        | ok w lifetime =>
            cases lifetime with
            | none => cases hc
            | some l' => cases hc; exact hr
  | abandon ht hp =>
      rcases entry_settle_cases he with he | ⟨-, -, v, l, hc, -⟩
      · exact .inl he
      · cases hc
  | _ => exact .inl (same rfl)

/-- What is stored and what is served in a reachable state. -/
structure Stored (s : State V) : Prop where
  entry : ∀ {key : String} {e : Entry V}, s.table.entry key = some e →
    ∃ j l generation, s.Cacheable j key e.value l ∧ e = Entry.of e.value l generation
  served : ∀ {i : ℕ} {c : Caller V} {v : V}, s.callers[i]? = some c → c.pos.stored = some v →
    ∃ j l, s.Cacheable j c.key v l ∧ c.now < l.staleUntil
  now_le : ∀ {i : ℕ} {c : Caller V}, s.callers[i]? = some c → c.now ≤ s.clock

theorem stored_init : Stored (State.init : State V) where
  entry := by intro key e h; cases h
  served := by intro i c v h; cases h
  now_le := by intro i c h; cases h

/-- An entry that may be served has not reached its stale limit: an entry is
never fresh for longer. -/
theorem Stored.lt_stale_until (hs : Stored s) {key : String} {now : ℕ} {v : V}
    (h : s.table.Servable key now v) :
    ∃ e, s.table.entry key = some e ∧ e.value = v ∧ now < e.staleUntil := by
  obtain ⟨e, he, hv, hnow⟩ := h
  refine ⟨e, he, hv, ?_⟩
  obtain ⟨j, l, g, -, hof⟩ := hs.entry he
  have hle := l.fresh_le_stale
  rw [hof] at hnow ⊢
  simp only [Entry.of] at hnow ⊢
  omega

/-- **A caller answers from the store** what it answered before, or the value of
the entry, read before the stale limit. -/
theorem Stored.serves (hs : Stored s) {a : Action V} (h : Step s a s') {i : ℕ} {c' : Caller V}
    {v : V} (hc' : s'.callers[i]? = some c') (hv : c'.pos.stored = some v) :
    (∃ c : Caller V, s.callers[i]? = some c ∧ c.key = c'.key ∧ c.now = c'.now ∧
      c.pos.stored = some v) ∨
    ∃ e, s.table.entry c'.key = some e ∧ e.value = v ∧ c'.now < e.staleUntil := by
  rcases h.caller hc' with hc | ⟨hp, -⟩ | ⟨c, hc, hkey, hnow, hstep⟩
  · exact .inl ⟨c', hc, rfl, rfl, hv⟩
  · rw [hp] at hv
    cases hv
  · obtain ⟨key, now, pos⟩ := c'
    dsimp only at hstep hkey hnow hv
    subst hkey hnow
    cases hstep with
    | served hp h => cases hv; exact .inr (hs.lt_stale_until h)
    | refresh hp h => cases hv; exact .inr (hs.lt_stale_until h)
    | refreshed hp => exact .inl ⟨c, hc, rfl, rfl, by rw [hp]; exact hv⟩
    | _ => cases hv

/-- **Every step keeps it.** -/
theorem Stored.step (hch : Channels s) (hs : Stored s) {a : Action V} (h : Step s a s') :
    Stored s' where
  entry := by
    intro key e he
    rcases h.entry he with he | ⟨j, v, l, g, -, hc, rfl⟩
    · obtain ⟨j, l, g, hc, hof⟩ := hs.entry he
      exact ⟨j, l, g, hch.cacheable_stays h hc, hof⟩
    · exact ⟨j, l, g, hch.cacheable_stays h hc, rfl⟩
  served := by
    intro i c' v hc' hv
    rcases hs.serves h hc' hv with ⟨c, hc, hkey, hnow, hv⟩ | ⟨e, he, rfl, hlt⟩
    · obtain ⟨j, l, hcache, hlt⟩ := hs.served hc hv
      exact ⟨j, l, hkey ▸ hch.cacheable_stays h hcache, hnow ▸ hlt⟩
    · obtain ⟨j, l, g, hcache, hof⟩ := hs.entry he
      refine ⟨j, l, hch.cacheable_stays h hcache, ?_⟩
      rw [hof] at hlt
      exact hlt
  now_le := by
    intro i c' hc'
    rcases h.caller hc' with hc | ⟨-, hnow⟩ | ⟨c, hc, -, hnow, -⟩
    · exact (hs.now_le hc).trans h.clock_le
    · exact hnow ▸ h.clock_le
    · exact hnow ▸ (hs.now_le hc).trans h.clock_le

theorem reachable_stored (hs : (system V).Reachable s) : Stored s :=
  hs.invariant stored_init fun _ _ _ hs h hstep =>
    h.step (reachable_channels hs) (step_cases hstep)

/-- A task that settles a failure leaves an entry before its stale limit. -/
theorem failed_keeps {t : Task V} {pos : TaskAt} {j : ℕ} {key : String} {e : Entry V}
    (he : s.table.entry key = some e) (hlive : s.clock < e.staleUntil) :
    ((s.settle t .failed).setTask j { t with pos }).table.entry key = some e := by
  change (s.table.settle _ _ _ _).entry key = _
  rw [Table.entry_settle, he]
  split
  · simp only [Table.settleEntry, Option.any_some, decide_eq_true_eq]
    rw [if_neg (by omega)]
  · rfl

/-- A fetch that must not be cached leaves no entry: any entry of the key is
older. -/
theorem uncached_removes (inv : Inv s) {t : Task V} {pos : TaskAt} {j : ℕ}
    (ht : s.tasks[j]? = some t) (hp : t.pos = .fetched) :
    ((s.settle t .uncached).setTask j { t with pos }).table.entry t.key = none := by
  have hf := inv.held_flight (State.ticket_task ht) (by rw [Task.ticket, hp]; rfl)
  have hslot : (s.table.slots t.key).isSome := by
    cases hs : s.table.slots t.key with
    | some slot => rfl
    | none => simp [Table.flight, Task.ticket, hs] at hf
  change (s.table.settle _ _ _ _).entry t.key = _
  rw [Table.entry_settle, if_pos ⟨rfl, hslot⟩, Table.settleEntry]
  cases he : s.table.entry t.key with
  | none => rfl
  | some e =>
      have hlt : e.generation < t.generation := inv.entry_lt_flight he hf
      simp only [Option.any_some, decide_eq_true_eq]
      rw [if_neg (by omega)]

/-- **Freshness.**  Under every interleaving and every passage of time: what a
caller answers from the store without waiting was fetched for its key with a
lifetime, and the caller read the clock before its stale limit; at the step
where it is answered, that is the entry of its key; a failed or abandoned
refresh leaves an entry that has not expired as it is; a fetch that must not be
cached leaves no entry; and every entry is one that a fetch of its key returned
with a lifetime. -/
theorem freshness (hs : (system V).Reachable s) :
    (∀ (i : ℕ) (c : Caller V) v, s.callers[i]? = some c → c.pos.stored = some v →
      c.now ≤ s.clock ∧ ∃ j l, s.Cacheable j c.key v l ∧ c.now < l.staleUntil) ∧
    (∀ a s' (i : ℕ) (c' : Caller V) v, step s a = some s' → s'.callers[i]? = some c' →
      c'.pos.stored = some v →
      (∃ c : Caller V, s.callers[i]? = some c ∧ c.key = c'.key ∧ c.now = c'.now ∧
        c.pos.stored = some v) ∨
      ∃ e, s.table.entry c'.key = some e ∧ e.value = v ∧ c'.now < e.staleUntil) ∧
    (∀ (j : ℕ) (t : Task V) s' key e, s.tasks[j]? = some t →
      step s (.abandon j) = some s' ∨
        (step s (.settle j) = some s' ∧ ∃ err, t.result = some (.error err)) →
      s.table.entry key = some e → s.clock < e.staleUntil → s'.table.entry key = some e) ∧
    (∀ (j : ℕ) (t : Task V) s' v, s.tasks[j]? = some t → t.result = some (.ok v none) →
      step s (.settle j) = some s' → s'.table.entry t.key = none) ∧
    (∀ key e, s.table.entry key = some e →
      ∃ j l generation, s.Cacheable j key e.value l ∧ e = Entry.of e.value l generation) := by
  have inv := reachable_inv hs
  have hst := reachable_stored hs
  refine ⟨?_, ?_, ?_, ?_, fun key e => hst.entry⟩
  · exact fun i c v hc hv => ⟨hst.now_le hc, hst.served hc hv⟩
  · exact fun a s' i c' v h hc' hv => hst.serves (step_cases h) hc' hv
  · rintro j t s' key e ht (h | ⟨h, err, hr⟩) he hlive
    · cases step_cases h with
      | abandon ht' hp => exact failed_keeps he hlive
    · cases step_cases h with
      | settle ht' hp hr' =>
          obtain rfl := Option.some.inj (ht.symm.trans ht')
          obtain rfl := Option.some.inj (hr.symm.trans hr')
          exact failed_keeps he hlive
  · intro j t s' v ht hr h
    cases step_cases h with
    | settle ht' hp hr' =>
        obtain rfl := Option.some.inj (ht.symm.trans ht')
        obtain rfl := Option.some.inj (hr.symm.trans hr')
        exact uncached_removes inv ht hp

/-- A value fresh up to 1 and stale up to 5 is stored at 0.  At 2 a caller is
answered from it and its refresh fails; a third caller is answered at 3. -/
def failedRefresh : List (Action Unit) :=
  [.resolve "nike.com", .plan 0, .claim 0, .launch 0, .start 0,
    .fetch 0 (.ok () (some ⟨1, 5, by decide⟩)), .settle 0, .disarm 0, .send 0, .receive 0, .close 0,
    .tick 2, .resolve "nike.com", .plan 1, .claim 1, .launch 1, .start 1,
    .fetch 1 (.error aborted), .settle 1, .tick 1, .resolve "nike.com", .plan 2, .claim 2]

theorem freshness_failedRefresh : ∃ s, (system Unit).Reachable s ∧
    s.callers.map (fun c => (c.now, c.pos.stored)) = [(0, none), (2, some ()), (3, some ())] ∧
    ∀ c, s.callers[2]? = some c → ∃ j l, s.Cacheable j c.key () l ∧ c.now < l.staleUntil := by
  obtain ⟨s, hs, hc⟩ := Lib.System.exists_reachable (m := system Unit) failedRefresh
    (P := fun s => s.callers.map (fun c => (c.now, c.pos.stored)) =
      [(0, none), (2, some ()), (3, some ())]) (by decide +kernel)
  refine ⟨s, hs, hc, fun c h => ((freshness hs).1 2 c () h ?_).2⟩
  have := congrArg (fun l => l[2]?) hc
  simp only [List.getElem?_map, h] at this
  exact (Prod.mk.inj (Option.some.inj this)).2

end Cache
end Lunar
