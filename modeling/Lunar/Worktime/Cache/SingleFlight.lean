/-
# At most one fetch of a key is outstanding

The invariant of `worktime/cache.rs`.  A generation is outstanding for a key
exactly when it is the generation of the key's flight, and a stored entry is
older than the flight next to it.  Each of the four effects of a step keeps
this, so it holds under every interleaving of the callers and the tasks
(`reachable_inv`).
-/

import Lunar.Worktime.Cache.Tickets

namespace Lunar
namespace Cache

variable {V : Type} {s s' : State V}

/-- The invariant of the cache. -/
structure Inv (s : State V) : Prop where
  noEmptySlot : s.table.NoEmptySlot
  /-- A channel is made with each generation, so they are numbered alike. -/
  channels : s.channels.length = s.table.nextGeneration
  handed : s.handed = List.range s.table.nextGeneration
  ticket_lt : ∀ {h t}, s.ticket h = some t → t.generation < s.table.nextGeneration
  ticket_tx : ∀ {h t}, s.ticket h = some t → t.tx = t.generation
  /-- A generation has one holder. -/
  holder : ∀ {h h' t t'}, s.ticket h = some t → s.ticket h' = some t' →
    t.generation = t'.generation → h = h'
  /-- The flight of a key is held by somebody who has not settled it. -/
  flight_held : ∀ {key f}, s.table.flight key = some f →
    ∃ h, s.ticket h = some ⟨key, f.generation, f.rx, true⟩
  /-- An outstanding generation is the flight of its key. -/
  held_flight : ∀ {h t}, s.ticket h = some t → t.outstanding = true →
    s.table.flight t.key = some ⟨t.generation, t.tx⟩
  entry_lt_next : ∀ {key e}, s.table.entry key = some e → e.generation < s.table.nextGeneration
  entry_lt_flight : ∀ {key e f}, s.table.entry key = some e → s.table.flight key = some f →
    e.generation < f.generation

theorem inv_init : Inv (State.init : State V) where
  noEmptySlot := by intro key slot h; cases h
  channels := rfl
  handed := rfl
  ticket_lt := by intro h t ht; cases h <;> cases ht
  ticket_tx := by intro h t ht; cases h <;> cases ht
  holder := by intro h h' t t' ht; cases h <;> cases ht
  flight_held := by intro key f h; cases h
  held_flight := by intro h t ht; cases h <;> cases ht
  entry_lt_next := by intro key e h; cases h
  entry_lt_flight := by intro key e f h; cases h

/-- A step that touches neither the table nor a ticket keeps the invariant. -/
theorem Inv.quiet (hs : Inv s) (table : s'.table = s.table)
    (channels : s'.channels.length = s.channels.length) (handed : s'.handed = s.handed)
    (ticket : ∀ h, s'.ticket h = s.ticket h) : Inv s' := by
  constructor <;> simp only [table, channels, handed, ticket]
  exacts [hs.noEmptySlot, hs.channels, hs.handed, hs.ticket_lt, hs.ticket_tx, hs.holder,
    hs.flight_held, hs.held_flight, hs.entry_lt_next, hs.entry_lt_flight]

/-- Opening a flight: the new generation is above all others, so its holder is
the only one, and it is above the entry it may stand next to. -/
theorem Inv.opened (hs : Inv s) {i : ℕ} {key : String} (vacant : s.table.flight key = none)
    (table : s.table.Opened s'.table key s.channels.length)
    (channels : s'.channels.length = s.channels.length + 1)
    (handed : s'.handed = s.handed ++ [s.table.nextGeneration])
    (free : s.ticket (.caller i) = none)
    (ticket : ∀ h, s'.ticket h = if h = .caller i then
      some ⟨key, s.table.nextGeneration, s.channels.length, true⟩ else s.ticket h) : Inv s' where
  noEmptySlot := table.noEmptySlot hs.noEmptySlot
  channels := by rw [channels, table.nextGeneration, hs.channels]
  handed := by rw [handed, table.nextGeneration, hs.handed, List.range_succ]
  ticket_lt := by
    intro h t ht
    rw [table.nextGeneration]
    rw [ticket] at ht
    split at ht
    · obtain rfl := Option.some.inj ht; exact Nat.lt_succ_self _
    · exact Nat.lt_succ_of_lt (hs.ticket_lt ht)
  ticket_tx := by
    intro h t ht
    rw [ticket] at ht
    split at ht
    · obtain rfl := Option.some.inj ht; exact hs.channels
    · exact hs.ticket_tx ht
  holder := by
    intro h h' t t' ht ht' hg
    rw [ticket] at ht ht'
    split at ht <;> split at ht'
    · simp_all
    · obtain rfl := Option.some.inj ht
      exact absurd hg (Nat.ne_of_gt (hs.ticket_lt ht'))
    · obtain rfl := Option.some.inj ht'
      exact absurd hg (Nat.ne_of_lt (hs.ticket_lt ht))
    · exact hs.holder ht ht' hg
  flight_held := by
    intro k f hf
    rw [table.flight] at hf
    split at hf
    · rename_i hk
      obtain rfl := Option.some.inj hf
      exact ⟨.caller i, by rw [ticket, if_pos rfl, hk]⟩
    · obtain ⟨h, hh⟩ := hs.flight_held hf
      refine ⟨h, ?_⟩
      rw [ticket, if_neg, hh]
      rintro rfl
      rw [free] at hh
      cases hh
  held_flight := by
    intro h t ht hout
    rw [table.flight]
    rw [ticket] at ht
    split at ht
    · obtain rfl := Option.some.inj ht; exact if_pos rfl
    · -- The key of an older outstanding generation has a flight, so it is another key.
      have hf := hs.held_flight ht hout
      rw [if_neg, hf]
      intro hk
      rw [hk, vacant] at hf
      cases hf
  entry_lt_next := by
    intro k e he
    rw [table.entry] at he
    rw [table.nextGeneration]
    exact Nat.lt_succ_of_lt (hs.entry_lt_next he)
  entry_lt_flight := by
    intro k e f he hf
    rw [table.entry] at he
    rw [table.flight] at hf
    split at hf
    · obtain rfl := Option.some.inj hf; exact hs.entry_lt_next he
    · exact hs.entry_lt_flight he hf

/-- Launching moves a ticket from one holder to another. -/
theorem Inv.launched (hs : Inv s) {i j : ℕ} (table : s'.table = s.table)
    (channels : s'.channels = s.channels) (handed : s'.handed = s.handed)
    (free : s.ticket (.task j) = none)
    (ticket : ∀ h, s'.ticket h = if h = .task j then s.ticket (.caller i) else
      if h = .caller i then none else s.ticket h) : Inv s' := by
  -- Where a ticket of `s'` was in `s`, and where one of `s` is in `s'`.
  have back : ∀ {h t}, s'.ticket h = some t →
      ∃ k, s.ticket k = some t ∧ h = if k = .caller i then .task j else k := by
    intro h t ht
    rw [ticket] at ht
    split at ht
    · exact ⟨.caller i, ht, by rw [if_pos rfl]; assumption⟩
    · split at ht
      · cases ht
      · exact ⟨h, ht, by rw [if_neg]; assumption⟩
  have forth : ∀ {h t}, s.ticket h = some t → ∃ k, s'.ticket k = some t := by
    intro h t ht
    by_cases hi : h = .caller i
    · exact ⟨.task j, by rw [ticket, if_pos rfl, ← hi, ht]⟩
    · refine ⟨h, ?_⟩
      rw [ticket, if_neg, if_neg hi, ht]
      rintro rfl
      rw [free] at ht
      cases ht
  refine ⟨?_, ?_, ?_, ?_, ?_, ?_, ?_, ?_, ?_, ?_⟩
  · rw [table]; exact hs.noEmptySlot
  · rw [table, channels]; exact hs.channels
  · rw [table, handed]; exact hs.handed
  · intro h t ht
    obtain ⟨k, hk, -⟩ := back ht
    rw [table]; exact hs.ticket_lt hk
  · intro h t ht
    obtain ⟨k, hk, -⟩ := back ht
    exact hs.ticket_tx hk
  · intro h h' t t' ht ht' hg
    obtain ⟨k, hk, rfl⟩ := back ht
    obtain ⟨k', hk', rfl⟩ := back ht'
    rw [hs.holder hk hk' hg]
  · intro key f hf
    rw [table] at hf
    obtain ⟨h, hh⟩ := hs.flight_held hf
    exact forth hh
  · intro h t ht hout
    obtain ⟨k, hk, -⟩ := back ht
    rw [table]; exact hs.held_flight hk hout
  · rw [table]; exact hs.entry_lt_next
  · rw [table]; exact hs.entry_lt_flight

/-- The entry of a key after a settlement is one it had, or has the settled
generation. -/
theorem entry_settle_cases {t : Table V} {key k : String} {generation now : ℕ}
    {settled : Settled V} {e : Entry V}
    (h : (t.settle key generation settled now).entry k = some e) :
    t.entry k = some e ∨ (k = key ∧ e.generation = generation ∧
      ∃ v l, settled = .cached v l ∧
        e = ⟨v, l.freshUntil, l.staleUntil, generation⟩) := by
  rw [Table.entry_settle] at h
  split at h
  · rename_i hk
    unfold Table.settleEntry at h
    cases settled with
    | cached v l =>
        dsimp only at h
        split at h
        · exact .inl h
        · obtain rfl := Option.some.inj h
          exact .inr ⟨hk.1, rfl, v, l, rfl, rfl⟩
    | uncached =>
        dsimp only at h
        split at h
        · exact .inl h
        · cases h
    | failed =>
        dsimp only at h
        split at h
        · cases h
        · exact .inl h
  · exact .inl h

/-- A settlement takes its generation out of the flight, if it is still there;
a value is stored only by a generation that was in flight. -/
theorem Inv.settled (hs : Inv s) {j : ℕ} {t : Ticket} {settled : Settled V}
    (held : s.ticket (.task j) = some t) (late : t.outstanding = false → settled = .failed)
    (table : s'.table = s.table.settle t.key t.generation settled s.clock)
    (channels : s'.channels = s.channels) (handed : s'.handed = s.handed)
    (ticket : ∀ h, s'.ticket h = if h = .task j then
      some { t with outstanding := false } else s.ticket h) : Inv s' := by
  have flight : ∀ {k f}, s'.table.flight k = some f →
      s.table.flight k = some f ∧ (k = t.key → f.generation ≠ t.generation) := by
    intro k f hf
    rw [table, Table.flight_settle] at hf
    split at hf
    · obtain ⟨hf, hne⟩ := Table.settleFlight_eq_some.1 hf
      exact ⟨hf, fun _ => hne⟩
    · exact ⟨hf, fun hk => absurd hk ‹_›⟩
  -- A ticket of `s'` is one of `s`, up to the flag of the settled task.
  have back : ∀ {h t'}, s'.ticket h = some t' → ∃ t₀, s.ticket h = some t₀ ∧
      t'.key = t₀.key ∧ t'.generation = t₀.generation ∧ t'.tx = t₀.tx ∧
      (t'.outstanding = true → h ≠ .task j ∧ t₀ = t') := by
    intro h t' ht'
    rw [ticket] at ht'
    split at ht'
    · rename_i hj
      obtain rfl := Option.some.inj ht'
      exact ⟨t, hj ▸ held, rfl, rfl, rfl, by intro h; cases h⟩
    · exact ⟨t', ht', rfl, rfl, rfl, fun _ => ⟨‹_›, rfl⟩⟩
  have next : s'.table.nextGeneration = s.table.nextGeneration := by rw [table]; simp
  refine ⟨?_, ?_, ?_, ?_, ?_, ?_, ?_, ?_, ?_, ?_⟩
  · rw [table]; exact hs.noEmptySlot.settle _ _ _
  · rw [channels, next]; exact hs.channels
  · rw [handed, next]; exact hs.handed
  · intro h t' ht'
    obtain ⟨t₀, ht₀, -, hg, -⟩ := back ht'
    rw [next, hg]; exact hs.ticket_lt ht₀
  · intro h t' ht'
    obtain ⟨t₀, ht₀, -, hg, htx, -⟩ := back ht'
    rw [htx, hg]; exact hs.ticket_tx ht₀
  · intro h h' t₁ t₂ h₁ h₂ hg
    obtain ⟨a, ha, -, hga, -⟩ := back h₁
    obtain ⟨b, hb, -, hgb, -⟩ := back h₂
    exact hs.holder ha hb (by rw [← hga, ← hgb, hg])
  · intro k f hf
    obtain ⟨hf, hne⟩ := flight hf
    obtain ⟨h, hh⟩ := hs.flight_held hf
    refine ⟨h, ?_⟩
    rw [ticket, if_neg, hh]
    rintro rfl
    obtain rfl := Option.some.inj (held.symm.trans hh)
    exact hne rfl rfl
  · intro h t' ht' hout
    obtain ⟨t₀, ht₀, -, -, -, hlive⟩ := back ht'
    obtain ⟨hj, rfl⟩ := hlive hout
    have hf := hs.held_flight ht₀ hout
    rw [table, Table.flight_settle]
    split
    · rw [hf, Table.settleFlight_eq_some]
      -- Another party holds this flight, so it is of another generation.
      exact ⟨rfl, fun hg => hj (hs.holder ht₀ held hg)⟩
    · exact hf
  · intro k e he
    rw [table] at he
    rw [next]
    rcases entry_settle_cases he with he | ⟨-, hg, -⟩
    · exact hs.entry_lt_next he
    · rw [hg]; exact hs.ticket_lt held
  · intro k e f he hf
    rw [table] at he
    obtain ⟨hf, hne⟩ := flight hf
    rcases entry_settle_cases he with he | ⟨rfl, hg, v, l, hc, -⟩
    · exact hs.entry_lt_flight he hf
    · -- The settled generation was in flight, and the flight is gone.
      have hout : t.outstanding = true := by
        by_contra hout
        rw [late (by simpa using hout)] at hc
        cases hc
      have := hs.held_flight held hout
      obtain rfl := Option.some.inj (this.symm.trans hf)
      exact absurd rfl (hne rfl)

/-- **Every step keeps the invariant.** -/
theorem Inv.step (hs : Inv s) {a : Action V} (h : Step s a s') : Inv s' := by
  cases h.effect with
  | quiet table channels handed ticket => exact hs.quiet table channels handed ticket
  | opened i key vacant table channels handed free ticket =>
      exact hs.opened vacant table channels handed free ticket
  | launched i j table channels handed free ticket =>
      exact hs.launched table channels handed free ticket
  | settled j t settled held late table channels handed ticket =>
      exact hs.settled held late table channels handed ticket

/-- **The invariant holds under every interleaving.** -/
theorem reachable_inv (hs : (system V).Reachable s) : Inv s :=
  hs.invariant inv_init fun _ _ _ _ hs h => hs.step (step_cases h)

/-! ## What becomes of an entry -/

/-- **An entry in one step.**  It stays, it gives way to the settlement of a
later generation of its key, or it is dropped past its stale limit. -/
theorem Inv.entry_step (hs : Inv s) {a : Action V} (h : Step s a s') {key : String} {e : Entry V}
    (he : s.table.entry key = some e) :
    s'.table.entry key = some e ∨
    (∃ j t, s.ticket (.task j) = some t ∧ t.key = key ∧ t.outstanding = true ∧
      e.generation < t.generation ∧
      ∀ e', s'.table.entry key = some e' → e'.generation = t.generation) ∨
    (s'.table.entry key = none ∧ e.staleUntil ≤ s.clock) := by
  cases h.effect with
  | quiet table => exact .inl (by rw [table, he])
  | opened i k vacant table => exact .inl (by rw [table.entry, he])
  | launched i j table => exact .inl (by rw [table, he])
  | settled j t settled held late table =>
      rw [table, Table.entry_settle]
      split
      · rename_i hk
        rw [he]
        by_cases hfail : settled = .failed
        · subst hfail
          simp only [Table.settleEntry, Option.any_some, decide_eq_true_eq]
          split
          · exact .inr (.inr ⟨rfl, ‹_›⟩)
          · exact .inl rfl
        · have hout : t.outstanding = true := by
            by_contra hout
            exact hfail (late (by simpa using hout))
          have hlt : e.generation < t.generation :=
            hs.entry_lt_flight he (hk.1 ▸ hs.held_flight held hout)
          refine .inr (.inl ⟨j, t, held, hk.1.symm, hout, hlt, fun e' he' => ?_⟩)
          have hold : ¬ t.generation < e.generation := Nat.not_lt_of_lt hlt
          cases settled with
          | cached v l =>
              simp only [Table.settleEntry, Option.any_some, decide_eq_true_eq, if_neg hold] at he'
              obtain rfl := Option.some.inj he'
              rfl
          | uncached =>
              simp only [Table.settleEntry, Option.any_some, decide_eq_true_eq, if_neg hold] at he'
              cases he'
          | failed => exact absurd rfl hfail
      · exact .inl he

/-- **Single flight.**  Under every interleaving of callers and tasks, panics
and drops of started tasks included: every slot of the map has an entry or a
flight; the outstanding generations of a key are the generation of its flight,
and one party holds it; the generations handed out are distinct and below the
counter; an entry is older than the flight of its slot; and a step leaves an
entry as it is, replaces it by one of a later generation, or drops it for the
settlement of a later generation or past its stale limit. -/
theorem single_flight (hs : (system V).Reachable s) :
    s.table.NoEmptySlot ∧
    (∀ key generation, s.Outstanding key generation ↔
      ∃ f, s.table.flight key = some f ∧ f.generation = generation) ∧
    (∀ h h' t t', s.ticket h = some t → s.ticket h' = some t' → t.outstanding = true →
      t'.outstanding = true → t.key = t'.key → h = h') ∧
    s.handed.Nodup ∧ (∀ g ∈ s.handed, g < s.table.nextGeneration) ∧
    (∀ h t, s.ticket h = some t → t.generation ∈ s.handed) ∧
    (∀ key e f, s.table.entry key = some e → s.table.flight key = some f →
      e.generation < f.generation) ∧
    (∀ a s' key e, step s a = some s' → s.table.entry key = some e →
      s'.table.entry key = some e ∨
      (∃ e', s'.table.entry key = some e' ∧ e.generation < e'.generation) ∨
      (s'.table.entry key = none ∧ (e.staleUntil ≤ s.clock ∨
        ∃ generation, s.Outstanding key generation ∧ e.generation < generation))) := by
  have inv := reachable_inv hs
  refine ⟨inv.noEmptySlot, fun key generation => ⟨?_, ?_⟩, ?_, ?_, ?_, ?_, ?_, ?_⟩
  · rintro ⟨h, t, ht, hout, rfl, rfl⟩
    exact ⟨_, inv.held_flight ht hout, rfl⟩
  · rintro ⟨f, hf, rfl⟩
    obtain ⟨h, hh⟩ := inv.flight_held hf
    exact ⟨h, _, hh, rfl, rfl, rfl⟩
  · intro h h' t t' ht ht' hout hout' hkey
    have hf := inv.held_flight ht hout
    rw [hkey, inv.held_flight ht' hout'] at hf
    exact inv.holder ht ht' (congrArg Flight.generation (Option.some.inj hf)).symm
  · rw [inv.handed]; exact List.nodup_range
  · intro g hg
    rw [inv.handed] at hg
    exact List.mem_range.1 hg
  · intro h t ht
    rw [inv.handed]
    exact List.mem_range.2 (inv.ticket_lt ht)
  · exact fun key e f => inv.entry_lt_flight
  · intro a s' key e h he
    rcases inv.entry_step (step_cases h) he with h | ⟨j, t, ht, hk, hout, hlt, h⟩ | ⟨h, hexp⟩
    · exact .inl h
    · cases he' : s'.table.entry key with
      | some e' => exact .inr (.inl ⟨e', rfl, by rw [h e' he']; exact hlt⟩)
      | none => exact .inr (.inr ⟨rfl, .inr ⟨t.generation, ⟨_, t, ht, hout, hk, rfl⟩, hlt⟩⟩)
    · exact .inr (.inr ⟨h, .inl hexp⟩)

/-- A caller fetches a key, its task caches the value past the stale limit, and
a second caller starts the next fetch while the guard of the first task is
still armed. -/
def twoFlights : List (Action Unit) :=
  [.resolve "Nike.com", .plan 0, .claim 0, .launch 0, .start 0,
    .fetch 0 (.ok () (some ⟨1, 2, by decide⟩)), .settle 0, .tick 2, .resolve "nike.com", .plan 1,
    .claim 1, .stop 0, .abandon 0]

theorem single_flight_twoFlights : ∃ s, (system Unit).Reachable s ∧
    s.table.flight "nike.com" = some ⟨1, 1⟩ ∧ s.handed = [0, 1] ∧
    s.handed.Nodup ∧ s.Outstanding "nike.com" 1 := by
  obtain ⟨s, hs, hf, hh⟩ := Lib.System.exists_reachable (m := system Unit) twoFlights
    (P := fun s => s.table.flight "nike.com" = some ⟨1, 1⟩ ∧ s.handed = [0, 1]) (by decide +kernel)
  exact ⟨s, hs, hf, hh, (single_flight hs).2.2.2.1, ((single_flight hs).2.1 _ _).2 ⟨_, hf, rfl⟩⟩

end Cache
end Lunar
