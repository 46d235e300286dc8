/-
# The table of the single-flight cache

`worktime/cache.rs`: `Table`, `Slot`, `Entry`, `Flight`, `plan`, `open`,
`claim`, `settle` and `lower`.  Every function here runs under the lock of the
table, so it is a pure function of the table.

A `Receiver` or a `Sender` is the number of its watch channel.  An `Instant` is
a natural number, and the `u64` counter of generations is one too: it grows by
one per fetch, so it does not reach `2^64`.
-/

import Lunar.Worktime.Fetch
import Mathlib.Logic.Function.Basic

namespace Lunar
namespace Cache

open Fetch (FetchError Lifetime)

/-- `ABORTED`. -/
def ABORTED : String := "p.js fetch aborted"

/-- What a receiver whose sender vanished is answered. -/
def aborted : FetchError := .badGateway ABORTED

/-- The number of a watch channel: all that a `Receiver` or a `Sender` is here. -/
abbrev Chan := ℕ

structure Flight where
  generation : ℕ
  rx : Chan
  deriving DecidableEq, Repr

variable {V : Type}

structure Entry (V : Type) where
  value : V
  freshUntil : ℕ
  staleUntil : ℕ
  generation : ℕ
  deriving DecidableEq, Repr

structure Slot (V : Type) where
  entry : Option (Entry V)
  flight : Option Flight
  deriving DecidableEq, Repr

/-- `Table`.  The hash map is the function it represents. -/
structure Table (V : Type) where
  slots : String → Option (Slot V)
  nextGeneration : ℕ

inductive Plan (V : Type)
  | serve (value : V)
  | join (rx : Chan)
  | refresh (value : V)
  | fetch
  deriving DecidableEq, Repr

inductive Claim (V : Type)
  | serve (value : V)
  | join (rx : Chan)
  | refresh (value : V) (generation : ℕ) (tx : Chan)
  | fetch (rx : Chan) (generation : ℕ) (tx : Chan)
  deriving DecidableEq, Repr

inductive Settled (V : Type)
  | cached (value : V) (lifetime : Lifetime)
  | uncached
  | failed
  deriving DecidableEq, Repr

/-- `lower`: the key of a domain.  Both of its branches lower-case ASCII. -/
def lower (domain : String) : String := String.ofList (domain.toList.map Char.toLower)

/-- The end of `plan`, when no entry can be served. -/
def joinOrFetch (slot : Slot V) : Plan V :=
  match slot.flight with
  | some flight => .join flight.rx
  | none => .fetch

/-- `plan`: what a caller that read the clock at `now` does with a slot. -/
def plan (slot : Slot V) (now : ℕ) : Plan V :=
  match slot.entry with
  | some entry =>
    if now < entry.freshUntil then .serve entry.value
    else if now < entry.staleUntil then
      match slot.flight with
      | some _ => .serve entry.value
      | none => .refresh entry.value
    else joinOrFetch slot
  | none => joinOrFetch slot

namespace Table

/-- `Cache::new`. -/
def empty : Table V := ⟨fun _ => none, 0⟩

def set (t : Table V) (key : String) (slot : Option (Slot V)) : Table V :=
  { t with slots := Function.update t.slots key slot }

/-- `open` on the slot of a key: a flight of this generation, received on `chan`. -/
def «open» (t : Table V) (key : String) (slot : Slot V) (generation : ℕ) (chan : Chan) : Table V :=
  { t.set key (some { slot with flight := some ⟨generation, chan⟩ }) with
    nextGeneration := generation + 1 }

/-- `Cache::claim`.  `chan` is the channel that `watch::channel` makes if a
flight is opened. -/
def claim (t : Table V) (key : String) (now : ℕ) (chan : Chan) : Claim V × Table V :=
  let generation := t.nextGeneration
  let slot := (t.slots key).getD ⟨none, none⟩
  match plan slot now with
  | .serve value => (.serve value, t.set key (some slot))
  | .join rx => (.join rx, t.set key (some slot))
  | .refresh value => (.refresh value generation chan, t.open key slot generation chan)
  | .fetch => (.fetch chan generation chan, t.open key slot generation chan)

/-- The entry `settle` leaves in a slot. -/
def settleEntry (entry : Option (Entry V)) (generation : ℕ) (settled : Settled V) (now : ℕ) :
    Option (Entry V) :=
  let newer := entry.any fun e => decide (generation < e.generation)
  match settled with
  | .cached value lifetime =>
    if newer then entry
    else some ⟨value, lifetime.freshUntil, lifetime.staleUntil, generation⟩
  | .uncached => if newer then entry else none
  | .failed => if entry.any fun e => decide (e.staleUntil ≤ now) then none else entry

/-- The flight `settle` leaves in a slot. -/
def settleFlight (flight : Option Flight) (generation : ℕ) : Option Flight :=
  if flight.any fun f => decide (f.generation = generation) then none else flight

/-- `Cache::settle`.  `now` is the clock, which only a failure reads. -/
def settle (t : Table V) (key : String) (generation : ℕ) (settled : Settled V) (now : ℕ) :
    Table V :=
  match t.slots key with
  | none => t
  | some slot =>
    let flight := settleFlight slot.flight generation
    let entry := settleEntry slot.entry generation settled now
    if entry.isNone && flight.isNone then t.set key none else t.set key (some ⟨entry, flight⟩)

/-- The stored entry of a key, if any. -/
def entry (t : Table V) (key : String) : Option (Entry V) := (t.slots key).bind Slot.entry

/-- The flight of a key, if any. -/
def flight (t : Table V) (key : String) : Option Flight := (t.slots key).bind Slot.flight

/-- Every slot of the map holds an entry or a flight. -/
def NoEmptySlot (t : Table V) : Prop :=
  ∀ key slot, t.slots key = some slot → slot.entry.isSome ∨ slot.flight.isSome

/-! ## What the functions do to the entry and the flight of a key -/

variable {t : Table V} {key k : String}

@[simp] theorem entry_set (slot : Option (Slot V)) :
    (t.set key slot).entry k = if k = key then slot.bind Slot.entry else t.entry k := by
  by_cases hk : k = key <;> simp [set, entry, hk]

@[simp] theorem flight_set (slot : Option (Slot V)) :
    (t.set key slot).flight k = if k = key then slot.bind Slot.flight else t.flight k := by
  by_cases hk : k = key <;> simp [set, flight, hk]

@[simp] theorem next_generation_set (slot : Option (Slot V)) :
    (t.set key slot).nextGeneration = t.nextGeneration := rfl

theorem NoEmptySlot.set {slot : Option (Slot V)} (h : t.NoEmptySlot)
    (hs : ∀ s, slot = some s → s.entry.isSome ∨ s.flight.isSome) :
    (t.set key slot).NoEmptySlot := by
  intro k s hk
  by_cases hkey : k = key
  · exact hs s (by simpa [Table.set, hkey] using hk)
  · exact h k s (by simpa [Table.set, hkey] using hk)

/-- The entry of a key can be served to a caller that read the clock at `now`. -/
def Servable (t : Table V) (key : String) (now : ℕ) (value : V) : Prop :=
  ∃ e, t.entry key = some e ∧ e.value = value ∧ (now < e.freshUntil ∨ now < e.staleUntil)

/-- The entry of a key, if it has one, is past its limits for a caller that
read the clock at `now`. -/
def Expired (t : Table V) (key : String) (now : ℕ) : Prop :=
  ∀ e, t.entry key = some e → e.freshUntil ≤ now ∧ e.staleUntil ≤ now

/-- **What a plan says of the slot it was made for.**  One case per answer; an
answer from the entry needs the entry, a join needs a flight, and a new flight
is asked for only where there is none. -/
theorem plan_cases {slot : Slot V} (hs : t.slots key = some slot) (now : ℕ) :
    (∃ v, plan slot now = .serve v ∧ t.Servable key now v) ∨
    (∃ f, plan slot now = .join f.rx ∧ t.flight key = some f ∧ t.Expired key now) ∨
    (∃ v, plan slot now = .refresh v ∧ t.Servable key now v ∧ t.flight key = none) ∨
    (plan slot now = .fetch ∧ t.Expired key now ∧ t.flight key = none) := by
  obtain ⟨entry, flight⟩ := slot
  have he : t.entry key = entry := by simp [Table.entry, hs]
  have hf : t.flight key = flight := by simp [Table.flight, hs]
  have join (h : t.Expired key now) :
      (∃ f, joinOrFetch ⟨entry, flight⟩ = .join f.rx ∧ t.flight key = some f ∧
        t.Expired key now) ∨
      (joinOrFetch ⟨entry, flight⟩ = .fetch ∧ t.Expired key now ∧ t.flight key = none) := by
    cases flight with
    | none => exact .inr ⟨rfl, h, hf⟩
    | some f => exact .inl ⟨f, rfl, hf, h⟩
  cases entry with
  | none =>
      have hexp : t.Expired key now := by intro e h; rw [he] at h; cases h
      rcases join hexp with h | h
      · exact .inr (.inl h)
      · exact .inr (.inr (.inr h))
  | some e =>
      simp only [plan]
      split
      · rename_i hfresh
        exact .inl ⟨_, rfl, e, he, rfl, .inl hfresh⟩
      · rename_i hfresh
        split
        · rename_i hstale
          have hserve : t.Servable key now e.value := ⟨e, he, rfl, .inr hstale⟩
          cases flight with
          | none => exact .inr (.inr (.inl ⟨_, rfl, hserve, hf⟩))
          | some f => exact .inl ⟨_, rfl, hserve⟩
        · rename_i hstale
          have hexp : t.Expired key now := by
            intro e' h
            obtain rfl : e = e' := by rw [he] at h; exact Option.some.inj h
            omega
          rcases join hexp with h | h
          · exact .inr (.inl h)
          · exact .inr (.inr (.inr h))

/-- Opening a flight: the slot keeps its entry, and the counter moves on. -/
structure Opened (t t' : Table V) (key : String) (chan : Chan) : Prop where
  entry : ∀ k, t'.entry k = t.entry k
  flight : ∀ k, t'.flight k = if k = key then some ⟨t.nextGeneration, chan⟩ else t.flight k
  nextGeneration : t'.nextGeneration = t.nextGeneration + 1
  noEmptySlot : t.NoEmptySlot → t'.NoEmptySlot

theorem open_opened {slot : Slot V} (hs : slot.entry = t.entry key) (chan : Chan) :
    Opened t (t.open key slot t.nextGeneration chan) key chan where
  entry k := by
    change (t.set key _).entry k = _
    rw [entry_set]
    split
    · rename_i hk; simpa [hk] using hs
    · rfl
  flight k := by
    change (t.set key _).flight k = _
    rw [flight_set]
    rfl
  nextGeneration := rfl
  noEmptySlot h := h.set fun s hs => .inr (by obtain rfl := Option.some.inj hs; rfl)

/-- **What `claim` does.**  Only a claim that opens a flight changes the table,
and it opens one only where the key has none. -/
theorem claim_cases (t : Table V) (key : String) (now : ℕ) (chan : Chan) :
    (∃ v, t.claim key now chan = (.serve v, t) ∧ t.Servable key now v) ∨
    (∃ f, t.claim key now chan = (.join f.rx, t) ∧ t.flight key = some f ∧ t.Expired key now) ∨
    (∃ v t', t.claim key now chan = (.refresh v t.nextGeneration chan, t') ∧
      t.Servable key now v ∧ t.flight key = none ∧ Opened t t' key chan) ∨
    (∃ t', t.claim key now chan = (.fetch chan t.nextGeneration chan, t') ∧
      t.Expired key now ∧ t.flight key = none ∧ Opened t t' key chan) := by
  cases hs : t.slots key with
  | none =>
      have he : t.entry key = none := by simp [Table.entry, hs]
      refine .inr (.inr (.inr ⟨t.open key ⟨none, none⟩ t.nextGeneration chan,
        by simp [claim, hs, plan, joinOrFetch], ?_, by simp [Table.flight, hs],
        open_opened he.symm _⟩))
      intro e h
      rw [he] at h
      cases h
  | some slot =>
      have he : slot.entry = t.entry key := by simp [Table.entry, hs]
      have hset : t.set key (some slot) = t := by simp [Table.set, ← hs]
      rcases plan_cases hs now with ⟨v, hp, h⟩ | ⟨f, hp, hf, h⟩ | ⟨v, hp, h, hf⟩ | ⟨hp, h, hf⟩
      · exact .inl ⟨v, by simp [claim, hs, hp, hset], h⟩
      · exact .inr (.inl ⟨f, by simp [claim, hs, hp, hset], hf, h⟩)
      · exact .inr (.inr (.inl ⟨v, t.open key slot t.nextGeneration chan,
          by simp [claim, hs, hp], h, hf, open_opened he _⟩))
      · exact .inr (.inr (.inr ⟨t.open key slot t.nextGeneration chan,
          by simp [claim, hs, hp], h, hf, open_opened he _⟩))

@[simp] theorem next_generation_settle (generation : ℕ) (settled : Settled V) (now : ℕ) :
    (t.settle key generation settled now).nextGeneration = t.nextGeneration := by
  unfold settle
  split
  · rfl
  · dsimp only; split <;> rfl

/-- The entry of every key after a `settle` on a map without empty slots. -/
theorem entry_settle (generation : ℕ) (settled : Settled V) (now : ℕ) :
    (t.settle key generation settled now).entry k =
      if k = key ∧ (t.slots key).isSome then settleEntry (t.entry k) generation settled now
      else t.entry k := by
  unfold settle
  cases hs : t.slots key with
  | none => simp
  | some slot =>
      by_cases hk : k = key
      · subst hk
        have he : t.entry k = slot.entry := by simp [Table.entry, hs]
        dsimp only
        split <;> simp_all
      · dsimp only
        split <;> simp [hk]

/-- The flight of every key after a `settle`: only a flight of the settled
generation leaves its slot. -/
theorem flight_settle (generation : ℕ) (settled : Settled V) (now : ℕ) :
    (t.settle key generation settled now).flight k =
      if k = key then settleFlight (t.flight k) generation else t.flight k := by
  unfold settle
  cases hs : t.slots key with
  | none =>
      by_cases hk : k = key
      · have hf : t.flight k = none := by simp [Table.flight, hk, hs]
        simp [hf, settleFlight]
      · simp [hk]
  | some slot =>
      by_cases hk : k = key
      · subst hk
        have hf : t.flight k = slot.flight := by simp [Table.flight, hs]
        dsimp only
        split <;> simp_all
      · dsimp only
        split <;> simp [hk]

theorem NoEmptySlot.settle (h : t.NoEmptySlot) (generation : ℕ) (settled : Settled V) (now : ℕ) :
    (t.settle key generation settled now).NoEmptySlot := by
  unfold Table.settle
  cases hs : t.slots key with
  | none => exact h
  | some slot =>
      dsimp only
      split
      · exact h.set (by intro s hs; cases hs)
      · rename_i hne
        refine h.set fun s hs => ?_
        obtain rfl := Option.some.inj hs
        simp only [Bool.and_eq_true, Option.isNone_iff_eq_none, not_and_or] at hne
        exact hne.imp Option.isSome_iff_ne_none.2 Option.isSome_iff_ne_none.2

@[simp] theorem settleFlight_none (generation : ℕ) : settleFlight none generation = none := rfl

theorem settleFlight_eq_some {flight : Option Flight} {generation : ℕ} {f : Flight} :
    settleFlight flight generation = some f ↔ flight = some f ∧ f.generation ≠ generation := by
  cases flight with
  | none => simp
  | some g =>
      simp only [settleFlight, Option.any_some, decide_eq_true_eq]
      by_cases hg : g.generation = generation
      · simp [hg]
        rintro rfl
        exact hg
      · simp [hg]
        rintro rfl
        exact hg

end Table
end Cache
end Lunar
