/-
# Promises settle once and notify once

What a world of promises keeps is `Inv`: a reaction that has been registered waits at its
pending promise, or is in flight (taken from a settled promise, and not yet run), or has
run with the outcome of its promise, and is only one of these.  A world grows (`Grows`): a
promise that has left the pending state keeps its state and its value.

A built-in meets its triple for whatever else is in flight (`settle_spec` and its like), so
it may call out while a list of reactions is being drained, and in every state of every
run the invariant holds for what the waiting built-ins have in flight (`machine_safe`).
-/

import Lunar.Payload.Promise

namespace Lunar
namespace Promises

open Interp (Val Err Res)
open Lib (CallM)

/-! ## Worlds -/

/-- The state of an outcome. -/
def code (ok : Bool) : ℕ := if ok then 1 else 2

theorem code_ne_zero (ok : Bool) : code ok ≠ 0 := by
  cases ok
  · exact nofun
  · exact nofun

namespace World

variable (w : World)

/-- The promise with a number. -/
def At (p : ℕ) (pr : Promise) : Prop := w.heap[p]? = some (some pr)

/-- A promise has come to an outcome. -/
def Settled (p : ℕ) (ok : Bool) (v : Val) : Prop :=
  ∃ pr, w.At p pr ∧ pr.state = code ok ∧ pr.value = v

/-- A ticket's promise has come to an outcome. -/
def Outcome (e : Promises.Outcome) : Prop :=
  ∃ p, w.owner[e.1]? = some p ∧ w.Settled p e.2.1 e.2.2

/-- A value is no promise. -/
def Plain (v : Val) : Prop := ∀ id : ℕ, v = .obj id → w.heap[id]? = some none

end World

/-- Promises stay, and keep what they have come to. -/
structure Grows (w w' : World) : Prop where
  others : ∀ id : ℕ, w.heap[id]? = some none → w'.heap[id]? = some none
  promises : ∀ p pr, w.At p pr →
    ∃ pr', w'.At p pr' ∧ (pr.state ≠ 0 → pr'.state = pr.state ∧ pr'.value = pr.value)
  owner : w.owner <+: w'.owner
  settled : w.settled <+: w'.settled
  ran : w.ran <+: w'.ran

instance : IsPreorder World Grows where
  refl w := ⟨fun _ h => h, fun _ pr h => ⟨pr, h, fun _ => ⟨rfl, rfl⟩⟩, List.prefix_rfl,
    List.prefix_rfl, List.prefix_rfl⟩
  trans w₁ w₂ w₃ h₁ h₂ := by
    refine ⟨fun id h => h₂.others id (h₁.others id h), fun p pr h => ?_, h₁.owner.trans h₂.owner,
      h₁.settled.trans h₂.settled, h₁.ran.trans h₂.ran⟩
    obtain ⟨pr', hpr', hkeep⟩ := h₁.promises p pr h
    obtain ⟨pr'', hpr'', hkeep'⟩ := h₂.promises p pr' hpr'
    refine ⟨pr'', hpr'', fun hne => ?_⟩
    obtain ⟨hstate, hvalue⟩ := hkeep hne
    obtain ⟨hstate', hvalue'⟩ := hkeep' (hstate ▸ hne)
    exact ⟨hstate'.trans hstate, hvalue'.trans hvalue⟩

theorem Grows.settled_at {w w' : World} (h : Grows w w') {p : ℕ} {ok : Bool} {v : Val}
    (hs : w.Settled p ok v) : w'.Settled p ok v := by
  obtain ⟨pr, hat, hstate, hvalue⟩ := hs
  obtain ⟨pr', hat', hkeep⟩ := h.promises p pr hat
  obtain ⟨hstate', hvalue'⟩ := hkeep (hstate ▸ code_ne_zero ok)
  exact ⟨pr', hat', hstate'.trans hstate, hvalue'.trans hvalue⟩

theorem get_prefix {α : Type} {xs ys : List α} (h : xs <+: ys) {i : ℕ} {x : α}
    (hx : xs[i]? = some x) : ys[i]? = some x := by
  obtain ⟨zs, rfl⟩ := h
  rw [List.getElem?_append_left (List.getElem?_eq_some_iff.1 hx).1, hx]

theorem Grows.outcome {w w' : World} (h : Grows w w') {e : Outcome} (he : w.Outcome e) :
    w'.Outcome e := by
  obtain ⟨p, howner, hs⟩ := he
  exact ⟨p, get_prefix h.owner howner, h.settled_at hs⟩

theorem Grows.plain {w w' : World} (h : Grows w w') {v : Val} (hv : w.Plain v) : w'.Plain v :=
  fun id hid => h.others id (hv id hid)

/-- The tickets of reactions. -/
def tickets (rs : List Reaction) : List ℕ := rs.map Reaction.ticket

/-- The tickets, or the promises, of outcomes. -/
def keys (es : List Outcome) : List ℕ := es.map Prod.fst

/-- What a world keeps while `F` is in flight. -/
structure Inv (F : List Outcome) (w : World) : Prop where
  plain : ∀ p pr, w.At p pr → pr.state = 1 → w.Plain pr.value
  idle : ∀ p pr, w.At p pr → pr.state ≠ 0 → pr.reactions = []
  waiting : ∀ p pr r, w.At p pr → r ∈ pr.reactions → w.owner[r.ticket]? = some p
  owned : ∀ t p, w.owner[t]? = some p → ∃ pr, w.At p pr ∧
    (tickets pr.reactions).count t + (keys F).count t + (keys w.ran).count t = 1
  flight : ∀ e ∈ F, w.Outcome e
  ran : ∀ e ∈ w.ran, w.Outcome e
  once : ∀ p pr, w.At p pr → (keys w.settled).count p = if pr.state = 0 then 0 else 1
  settled : ∀ e ∈ w.settled, w.Settled e.1 e.2.1 e.2.2

/-! ## Single steps -/

section Add

variable {w : World} {c : Option Promise}

theorem add_get {i : ℕ} {x : Option Promise} :
    (w.add c).heap[i]? = some x ↔ w.heap[i]? = some x ∨ i = w.heap.length ∧ c = x := by
  rw [World.add]
  rcases Nat.lt_trichotomy i w.heap.length with h | rfl | h
  · rw [List.getElem?_append_left h]
    exact ⟨.inl, fun h' => h'.resolve_right fun h' => absurd h'.1 (Nat.ne_of_lt h)⟩
  · rw [List.getElem?_concat_length, List.getElem?_eq_none (Nat.le_refl _)]
    exact ⟨fun h => .inr ⟨rfl, Option.some_inj.1 h⟩, fun h => h.elim nofun fun h => congrArg some h.2⟩
  · have hlen : (w.heap ++ [c]).length ≤ i := by
      rw [List.length_append, List.length_singleton]
      exact h
    rw [List.getElem?_eq_none hlen, List.getElem?_eq_none (Nat.le_of_lt h)]
    exact ⟨nofun, fun h' => h'.elim nofun fun h' => absurd h'.1 (Nat.ne_of_gt h)⟩

theorem add_grows (w : World) (c : Option Promise) : Grows w (w.add c) where
  others _ h := add_get.2 (.inl h)
  promises _ pr h := ⟨pr, add_get.2 (.inl h), fun _ => ⟨rfl, rfl⟩⟩
  owner := List.prefix_rfl
  settled := List.prefix_rfl
  ran := List.prefix_rfl

/-- A new object is no promise, or one that waits without reactions. -/
theorem Inv.add {F : List Outcome} (h : Inv F w) (hc : ∀ pr, c = some pr → pr = ⟨0, .undef, []⟩) :
    Inv F (w.add c) := by
  have hgrows := add_grows w c
  have hnew {p : ℕ} {pr : Promise} (hat : (w.add c).At p pr) :
      w.At p pr ∨ p = w.heap.length ∧ pr = ⟨0, .undef, []⟩ :=
    (add_get.1 hat).imp_right fun h => ⟨h.1, hc pr h.2⟩
  refine ⟨fun p pr hat hone => ?_, fun p pr hat hne => ?_, fun p pr r hat hr => ?_,
    fun t p ht => ?_, fun e he => hgrows.outcome (h.flight e he),
    fun e he => hgrows.outcome (h.ran e he), fun p pr hat => ?_,
    fun e he => hgrows.settled_at (h.settled e he)⟩
  · rcases hnew hat with hat | ⟨-, rfl⟩
    · exact hgrows.plain (h.plain p pr hat hone)
    · cases hone
  · rcases hnew hat with hat | ⟨-, rfl⟩
    · exact h.idle p pr hat hne
    · exact absurd rfl hne
  · rcases hnew hat with hat | ⟨-, rfl⟩
    · exact h.waiting p pr r hat hr
    · exact absurd hr List.not_mem_nil
  · obtain ⟨pr, hat, hcount⟩ := h.owned t p ht
    exact ⟨pr, add_get.2 (.inl hat), hcount⟩
  · rcases hnew hat with hat | ⟨rfl, rfl⟩
    · exact h.once p pr hat
    · -- the number is new, so nothing has been settled under it
      refine List.count_eq_zero.2 fun hmem => ?_
      obtain ⟨e, he, heq⟩ := List.mem_map.1 hmem
      obtain ⟨pr, hat, -⟩ := h.settled e he
      have hlt := (List.getElem?_eq_some_iff.1 hat).1
      omega

end Add

section Set

variable {w w' : World} {p : ℕ} {pr pr' : Promise}

theorem set_get (hat : w.At p pr) {i : ℕ} {x : Option Promise} :
    (w.heap.set p (some pr'))[i]? = some x ↔
      i = p ∧ some pr' = x ∨ i ≠ p ∧ w.heap[i]? = some x := by
  by_cases hi : i = p
  · subst hi
    rw [List.getElem?_set_self (List.getElem?_eq_some_iff.1 hat).1]
    simp
  · rw [List.getElem?_set_ne (Ne.symm hi)]
    simp [hi]

/-- A promise is replaced by one that keeps what it has come to. -/
theorem set_grows (hat : w.At p pr) (hheap : w'.heap = w.heap.set p (some pr'))
    (hkeep : pr.state ≠ 0 → pr'.state = pr.state ∧ pr'.value = pr.value)
    (howner : w.owner <+: w'.owner) (hsettled : w.settled <+: w'.settled)
    (hran : w.ran <+: w'.ran) : Grows w w' where
  others id h := by
    rw [hheap, set_get hat]
    refine .inr ⟨?_, h⟩
    rintro rfl
    cases hat.symm.trans h
  promises q qr h := by
    by_cases hq : q = p
    · subst hq
      obtain rfl : pr = qr := Option.some_inj.1 (Option.some_inj.1 (hat.symm.trans h))
      refine ⟨pr', ?_, hkeep⟩
      rw [World.At, hheap]
      exact (set_get hat).2 (.inl ⟨rfl, rfl⟩)
    · refine ⟨qr, ?_, fun _ => ⟨rfl, rfl⟩⟩
      rw [World.At, hheap]
      exact (set_get hat).2 (.inr ⟨hq, h⟩)
  owner := howner
  settled := hsettled
  ran := hran

theorem World.At.unique (hat : w.At p pr) (hat' : w.At p pr') : pr = pr' :=
  Option.some_inj.1 (Option.some_inj.1 (hat.symm.trans hat'))

/-- The promises after one has been replaced. -/
theorem set_at {q : ℕ} {qr : Promise} (hat : w.At p pr)
    (hheap : w'.heap = w.heap.set p (some pr')) (hq : w'.At q qr) :
    q = p ∧ qr = pr' ∨ q ≠ p ∧ w.At q qr := by
  have hget : (w.heap.set p (some pr'))[q]? = some (some qr) := hheap ▸ hq
  exact ((set_get hat).1 hget).imp_left fun h => ⟨h.1, (Option.some_inj.1 h.2).symm⟩

end Set

/-! ## The next ticket -/

section Fresh

variable {F : List Outcome} {w : World}

theorem count_fresh {es : List Outcome} (h : ∀ e ∈ es, w.Outcome e) :
    (keys es).count w.owner.length = 0 := by
  refine List.count_eq_zero.2 fun hmem => ?_
  obtain ⟨e, he, heq⟩ := List.mem_map.1 hmem
  obtain ⟨p, howner, -⟩ := h e he
  have hlt := (List.getElem?_eq_some_iff.1 howner).1
  omega

theorem Inv.tickets_count (h : Inv F w) {p t : ℕ} {pr : Promise} (hat : w.At p pr)
    (ht : w.owner[t]? ≠ some p) : (tickets pr.reactions).count t = 0 := by
  refine List.count_eq_zero.2 fun hmem => ?_
  obtain ⟨r, hr, rfl⟩ := List.mem_map.1 hmem
  exact ht (h.waiting p pr r hat hr)

theorem owner_concat {t p q : ℕ} (h : (w.owner ++ [p])[t]? = some q) :
    w.owner[t]? = some q ∨ t = w.owner.length ∧ q = p := by
  rcases Nat.lt_trichotomy t w.owner.length with hlt | rfl | hgt
  · exact .inl (List.getElem?_append_left hlt ▸ h)
  · rw [List.getElem?_concat_length] at h
    exact .inr ⟨rfl, (Option.some_inj.1 h).symm⟩
  · have hlen : (w.owner ++ [p]).length ≤ t := by
      rw [List.length_append, List.length_singleton]
      exact hgt
    rw [List.getElem?_eq_none hlen] at h
    cases h

end Fresh

/-! ## Registering, settling and running -/

section Moves

variable {F : List Outcome} {w : World} {p : ℕ} {pr : Promise}

theorem push_grows (hat : w.At p pr) (hpending : pr.state = 0) (onOk onErr : Val)
    (derived : Option ℕ) : Grows w (w.push p pr onOk onErr derived) :=
  set_grows hat rfl (fun h => absurd hpending h) (List.prefix_append _ _) List.prefix_rfl
    List.prefix_rfl

/-- **A reaction registered at a pending promise waits there.** -/
theorem Inv.push (h : Inv F w) (hat : w.At p pr) (hpending : pr.state = 0) (onOk onErr : Val)
    (derived : Option ℕ) : Inv F (w.push p pr onOk onErr derived) := by
  have hgrows := push_grows hat hpending onOk onErr derived
  refine ⟨fun q qr hq hone => ?_, fun q qr hq hne => ?_, fun q qr r hq hr => ?_,
    fun t q ht => ?_, fun e he => hgrows.outcome (h.flight e he),
    fun e he => hgrows.outcome (h.ran e he), fun q qr hq => ?_,
    fun e he => hgrows.settled_at (h.settled e he)⟩
  · rcases set_at hat rfl hq with ⟨-, rfl⟩ | ⟨-, hq⟩
    · exact absurd (hpending.symm.trans hone) (Nat.zero_ne_one)
    · exact hgrows.plain (h.plain q qr hq hone)
  · rcases set_at hat rfl hq with ⟨-, rfl⟩ | ⟨-, hq⟩
    · exact absurd hpending hne
    · exact h.idle q qr hq hne
  · rcases set_at hat rfl hq with ⟨rfl, rfl⟩ | ⟨-, hq⟩
    · rcases List.mem_append.1 hr with hr | hr
      · exact get_prefix hgrows.owner (h.waiting q pr r hat hr)
      · rw [List.mem_singleton.1 hr]
        exact List.getElem?_concat_length
    · exact get_prefix hgrows.owner (h.waiting q qr r hq hr)
  · rcases owner_concat ht with ht' | ⟨rfl, rfl⟩
    · obtain ⟨qr, hq, hcount⟩ := h.owned t q ht'
      by_cases hqp : q = p
      · subst hqp
        obtain rfl := hat.unique hq
        refine ⟨_, (set_get hat).2 (.inl ⟨rfl, rfl⟩), ?_⟩
        have hne : w.owner.length ≠ t := by
          have hlt := (List.getElem?_eq_some_iff.1 ht').1
          omega
        simpa [tickets, World.push, List.count_singleton, hne] using hcount
      · exact ⟨qr, (set_get hat).2 (.inr ⟨hqp, hq⟩), hcount⟩
    · refine ⟨_, (set_get hat).2 (.inl ⟨rfl, rfl⟩), ?_⟩
      have hwait : (tickets pr.reactions).count w.owner.length = 0 := by
        refine h.tickets_count hat ?_
        rw [List.getElem?_eq_none (Nat.le_refl _)]
        exact nofun
      have hflight := count_fresh h.flight
      have hran := count_fresh h.ran
      simp only [tickets, List.map_append, List.count_append] at hwait ⊢
      simp [World.push, hwait, hflight, hran]
  · rcases set_at hat rfl hq with ⟨rfl, rfl⟩ | ⟨-, hq⟩
    · exact h.once q pr hat
    · exact h.once q qr hq

theorem settle_grows (hat : w.At p pr) (hpending : pr.state = 0) (ok : Bool) (v : Val) :
    Grows w (w.settle p ok v) :=
  set_grows hat rfl (fun h => absurd hpending h) List.prefix_rfl (List.prefix_append _ _)
    List.prefix_rfl

/-- The reactions that are taken from a promise. -/
def taken (ok : Bool) (v : Val) (rs : List Reaction) : List Outcome :=
  rs.map fun r => (r.ticket, ok, v)

theorem keys_taken (ok : Bool) (v : Val) (rs : List Reaction) :
    keys (taken ok v rs) = tickets rs := by
  simp [keys, taken, tickets, Function.comp_def]

/-- **The reactions of a promise that settles are in flight.** -/
theorem Inv.settle (h : Inv F w) (hat : w.At p pr) (hpending : pr.state = 0) {ok : Bool} {v : Val}
    (hv : ok = true → w.Plain v) : Inv (taken ok v pr.reactions ++ F) (w.settle p ok v) := by
  have hgrows := settle_grows hat hpending ok v
  have hnew : (w.settle p ok v).Settled p ok v :=
    ⟨_, (set_get hat).2 (.inl ⟨rfl, rfl⟩), rfl, rfl⟩
  refine ⟨fun q qr hq hone => ?_, fun q qr hq hne => ?_, fun q qr r hq hr => ?_,
    fun t q ht => ?_, fun e he => ?_, fun e he => hgrows.outcome (h.ran e he),
    fun q qr hq => ?_, fun e he => ?_⟩
  · rcases set_at hat rfl hq with ⟨-, rfl⟩ | ⟨-, hq⟩
    · refine hgrows.plain (hv ?_)
      by_contra hok
      rw [Bool.not_eq_true] at hok
      subst hok
      cases hone
    · exact hgrows.plain (h.plain q qr hq hone)
  · rcases set_at hat rfl hq with ⟨-, rfl⟩ | ⟨-, hq⟩
    · rfl
    · exact h.idle q qr hq hne
  · rcases set_at hat rfl hq with ⟨-, rfl⟩ | ⟨-, hq⟩
    · exact absurd hr List.not_mem_nil
    · exact h.waiting q qr r hq hr
  · obtain ⟨qr, hq, hcount⟩ := h.owned t q ht
    rw [keys, List.map_append, ← keys, ← keys, keys_taken, List.count_append]
    by_cases hqp : q = p
    · subst hqp
      obtain rfl := hat.unique hq
      refine ⟨_, (set_get hat).2 (.inl ⟨rfl, rfl⟩), ?_⟩
      simp only [tickets, World.settle, List.map_nil, List.count_nil] at hcount ⊢
      omega
    · refine ⟨qr, (set_get hat).2 (.inr ⟨hqp, hq⟩), ?_⟩
      have hzero := h.tickets_count (t := t) hat fun ht' =>
        hqp (Option.some_inj.1 (Eq.trans (Eq.symm ht) ht'))
      simp only [World.settle]
      omega
  · rcases List.mem_append.1 he with he | he
    · obtain ⟨r, hr, rfl⟩ := List.mem_map.1 he
      exact ⟨p, h.waiting p pr r hat hr, hnew⟩
    · exact hgrows.outcome (h.flight e he)
  · rcases set_at hat rfl hq with ⟨rfl, rfl⟩ | ⟨hqp, hq⟩
    · have hzero := h.once q pr hat
      rw [if_pos hpending] at hzero
      have hstate : (if ok then 1 else 2) ≠ 0 := code_ne_zero ok
      simp only [World.settle, keys, List.map_append, List.count_append] at hzero ⊢
      simp [hzero, hstate]
    · have hone := h.once q qr hq
      simpa [World.settle, keys, List.count_singleton, Ne.symm hqp] using hone
  · rcases List.mem_append.1 he with he | he
    · exact hgrows.settled_at (h.settled e he)
    · rw [List.mem_singleton.1 he]
      exact hnew

/-- A promise that is not pending has come to an outcome. -/
theorem Inv.settled_at (h : Inv F w) (hat : w.At p pr) (hne : pr.state ≠ 0) :
    w.Settled p (pr.state = 1) pr.value := by
  have hone := h.once p pr hat
  rw [if_neg hne] at hone
  have hmem : p ∈ keys w.settled := List.count_pos_iff.1 (by omega)
  obtain ⟨⟨q, ok, v⟩, he, rfl⟩ := List.mem_map.1 hmem
  obtain ⟨qr, hat', hstate, -⟩ := h.settled _ he
  obtain rfl := hat.unique hat'
  refine ⟨pr, hat, ?_, rfl⟩
  rw [hstate]
  cases ok
  · rfl
  · rfl

/-- A reaction is registered at a settled promise. -/
def World.register (w : World) (p : ℕ) : World := { w with owner := w.owner ++ [p] }

theorem register_grows (w : World) (p : ℕ) : Grows w (w.register p) where
  others _ h := h
  promises _ pr h := ⟨pr, h, fun _ => ⟨rfl, rfl⟩⟩
  owner := List.prefix_append _ _
  settled := List.prefix_rfl
  ran := List.prefix_rfl

/-- **A reaction registered at a settled promise is in flight.** -/
theorem Inv.register (h : Inv F w) (hat : w.At p pr) (hne : pr.state ≠ 0) :
    Inv ((w.owner.length, decide (pr.state = 1), pr.value) :: F) (w.register p) := by
  have hgrows := register_grows w p
  refine ⟨fun q qr hq hone => hgrows.plain (h.plain q qr hq hone), h.idle,
    fun q qr r hq hr => get_prefix hgrows.owner (h.waiting q qr r hq hr), fun t q ht => ?_,
    fun e he => ?_, fun e he => hgrows.outcome (h.ran e he), h.once,
    fun e he => hgrows.settled_at (h.settled e he)⟩
  · rcases owner_concat ht with ht' | ⟨rfl, rfl⟩
    · obtain ⟨qr, hq, hcount⟩ := h.owned t q ht'
      have hne : w.owner.length ≠ t := by
        have hlt := (List.getElem?_eq_some_iff.1 ht').1
        omega
      refine ⟨qr, hq, ?_⟩
      simpa [keys, World.register, List.count_cons, hne] using hcount
    · refine ⟨pr, hat, ?_⟩
      have hflight := count_fresh h.flight
      have hran := count_fresh h.ran
      simp only [keys] at hflight hran
      simp [h.idle q pr hat hne, tickets, keys, World.register, hflight, hran]
  · rcases List.mem_cons.1 he with rfl | he
    · exact ⟨p, List.getElem?_concat_length, h.settled_at hat hne⟩
    · exact hgrows.outcome (h.flight e he)

/-- A reaction begins to run. -/
def World.run (w : World) (e : Promises.Outcome) : World := { w with ran := w.ran ++ [e] }

theorem run_grows (w : World) (e : Outcome) : Grows w (w.run e) where
  others _ h := h
  promises _ pr h := ⟨pr, h, fun _ => ⟨rfl, rfl⟩⟩
  owner := List.prefix_rfl
  settled := List.prefix_rfl
  ran := List.prefix_append _ _

/-- **A reaction that runs is no longer in flight.** -/
theorem Inv.run {e : Outcome} (h : Inv (e :: F) w) : Inv F (w.run e) := by
  have hgrows := run_grows w e
  refine ⟨fun q qr hq hone => hgrows.plain (h.plain q qr hq hone), h.idle, h.waiting,
    fun t q ht => ?_, fun e' he => hgrows.outcome (h.flight e' (List.mem_cons_of_mem _ he)),
    fun e' he => ?_, h.once, fun e' he => hgrows.settled_at (h.settled e' he)⟩
  · obtain ⟨qr, hq, hcount⟩ := h.owned t q ht
    refine ⟨qr, hq, ?_⟩
    simp only [keys, World.run, List.map_cons, List.map_append, List.map_nil, List.count_append,
      List.count_cons, List.count_nil] at hcount ⊢
    omega
  · rcases List.mem_append.1 he with he | he
    · exact hgrows.outcome (h.ran e' he)
    · rw [List.mem_singleton.1 he]
      exact hgrows.outcome (h.flight e List.mem_cons_self)

end Moves

/-! ## What the built-ins meet -/

/-- At its end a built-in has left `F` in flight; it may have thrown only if `throws`, and
after a fault anything may be in flight. -/
def Ends {α : Type} (F : List Outcome) (throws : Prop) (Q : α → World → Prop) :
    World → Except Err α → Prop
  | w, .ok a => Inv F w ∧ Q a w
  | w, .error (.throw _) => Inv F w ∧ throws
  | w, .error _ => ∃ G, Inv G w

/-- From a state with `Pre` a built-in comes to such an end, and its calls rely on `Inv`. -/
abbrev Spec {α : Type} (Pre : World → Prop) (x : PromiseM α) (F : List Outcome) (throws : Prop)
    (Q : α → World → Prop) : Prop :=
  CallM.Triple Grows Inv Pre x (Ends F throws Q)

/-- Nothing more is known of a result. -/
abbrev Any {α : Type} (_ : α) (_ : World) : Prop := True

namespace Spec

variable {α β : Type} {Pre : World → Prop} {F G : List Outcome} {throws throws' : Prop}
  {x : PromiseM α} {Q : α → World → Prop}

theorem bind {f : α → PromiseM β} {Q' : β → World → Prop} (hx : Spec Pre x G throws' Q)
    (hf : ∀ a, Spec (fun w => Inv G w ∧ Q a w) (f a) F throws Q')
    (hthrow : throws' → throws ∧ F = G) : Spec Pre (x >>= f) F throws Q' := by
  refine CallM.Triple.bind hx hf fun w e he => ?_
  match e with
  | .throw _ =>
      obtain ⟨hthrows, rfl⟩ := hthrow he.2
      exact ⟨he.1, hthrows⟩
  | .fault _ | .panic => exact he

/-- More may be known at the start. -/
theorem weaken {P : World → Prop} (hx : Spec (Inv G) x F throws Q) :
    Spec (fun w => Inv G w ∧ P w) x F throws Q :=
  CallM.Triple.imp hx (fun _ h => h.1) fun _ _ h => h

/-- A sequence in which nothing more is known of the first result. -/
theorem seq {f : α → PromiseM β} {Q' : β → World → Prop} (hx : Spec Pre x G throws' Q)
    (hf : ∀ a, Spec (Inv G) (f a) F throws Q') (hthrow : throws' → throws ∧ F = G) :
    Spec Pre (x >>= f) F throws Q' :=
  hx.bind (fun a => (hf a).weaken) hthrow

theorem quietly {Q' : α → World → Prop} (hx : Spec Pre x F False Q)
    (hQ : ∀ a w, Inv F w → Q a w → Q' a w) : Spec Pre x F throws Q' := by
  refine hx.imp (fun _ h => h) fun w r hr => ?_
  match r with
  | .ok a => exact ⟨hr.1, hQ a w hr.1 hr.2⟩
  | .error (.throw _) => exact hr.2.elim
  | .error (.fault _) | .error .panic => exact hr

theorem ret {a : α} (h : ∀ w, Pre w → Inv F w ∧ Q a w) : Spec Pre (pure a) F throws Q :=
  CallM.Triple.pure h

theorem fail {e : Err} (he : ∀ v, e ≠ .throw v) (h : ∀ w, Pre w → ∃ G, Inv G w) :
    Spec Pre (throw e) F throws Q := by
  refine CallM.Triple.throw fun w hw => ?_
  match e with
  | .throw v => exact absurd rfl (he v)
  | .fault _ | .panic => exact h w hw

/-- What a call has thrown is looked at, and every other failure is passed on. -/
theorem attempt {f : Res α → PromiseM β} {Q' : β → World → Prop} (hx : Spec Pre x G throws' Q)
    (hok : ∀ a, Spec (Inv G) (f (.ok a)) F throws Q')
    (hthrow : ∀ v, Spec (Inv G) (f (.error (.throw v))) F throws Q')
    (hfault : ∀ e, (∀ v, e ≠ .throw v) → f (.error e) = throw e) :
    Spec Pre (CallM.attempt x >>= f) F throws Q' := by
  have hends : CallM.Triple Grows Inv Pre (CallM.attempt x) fun w res =>
      ∃ r, res = .ok r ∧ Ends G throws' Q w r :=
    CallM.Triple.attempt (hx.imp (fun _ h => h) fun _ r hr => ⟨r, rfl, hr⟩)
  refine CallM.Triple.bind hends (fun res => ?_) ?_
  · match res with
    | .ok a =>
        refine (hok a).imp ?_ fun _ _ hr => hr
        rintro w ⟨_, ⟨⟩, hr⟩
        exact hr.1
    | .error (.throw v) =>
        refine (hthrow v).imp ?_ fun _ _ hr => hr
        rintro w ⟨_, ⟨⟩, hr⟩
        exact hr.1
    | .error (.fault e) =>
        rw [hfault (.fault e) nofun]
        refine fail nofun ?_
        rintro w ⟨_, ⟨⟩, hr⟩
        exact hr
    | .error .panic =>
        rw [hfault .panic nofun]
        refine fail nofun ?_
        rintro w ⟨_, ⟨⟩, hr⟩
        exact hr
  · rintro w e ⟨_, ⟨⟩, -⟩

end Spec

theorem cellM_spec (F : List Outcome) (id : ℕ) :
    Spec (Inv F) (cellM id) F False fun c w => w.heap[id]? = some c := by
  refine CallM.Triple.reading fun w hw => ?_
  cases hcell : w.heap[id]? with
  | some c => exact ⟨hw, hcell⟩
  | none => exact ⟨F, hw⟩

/-- A promise, or a value that is none. -/
def IsPromise (v : Val) : Option (ℕ × Promise) → World → Prop
  | some (id, pr), w => w.At id pr
  | none, w => w.Plain v

theorem asPromise_spec (F : List Outcome) (v : Val) :
    Spec (Inv F) (asPromise v) F False (IsPromise v) := by
  have hother (hv : ∀ id, v ≠ .obj id) :
      Spec (Inv F) (pure none : PromiseM (Option (ℕ × Promise))) F False (IsPromise v) :=
    .ret fun w hw => ⟨hw, fun id hid => absurd hid (hv id)⟩
  match v with
  | .obj id =>
      refine Spec.bind (cellM_spec F id) (fun c => .ret fun w hw => ⟨hw.1, ?_⟩) nofun
      obtain ⟨-, hget⟩ := hw
      cases c with
      | some pr => exact hget
      | none =>
          rintro _ ⟨⟩
          exact hget
  | .undef | .null | .bool _ | .num _ | .str _ | .nat _ | .global | .scope _ =>
      exact hother nofun

/-- A promise, or a value that the promise may be fulfilled with. -/
def IsAdopted (ok : Bool) (v : Val) : Option (ℕ × Promise) → World → Prop
  | some (id, pr), w => w.At id pr
  | none, w => ok = true → w.Plain v

theorem adopted_spec (F : List Outcome) (ok : Bool) (v : Val) :
    Spec (Inv F) (adopted ok v) F False (IsAdopted ok v) := by
  rw [adopted]
  split
  case isTrue hok =>
    refine (asPromise_spec F v).quietly fun c w _ hc => ?_
    cases c with
    | some _ => exact hc
    | none => exact fun _ => hc
  case isFalse hok => exact .ret fun w hw => ⟨hw, fun h => absurd h hok⟩

theorem alloc_spec (F : List Outcome) {c : Option Promise}
    (hc : ∀ pr, c = some pr → pr = ⟨0, .undef, []⟩) : Spec (Inv F) (alloc c) F False Any :=
  CallM.Triple.modifyGet (fun w _ => add_grows w c) fun _ hw => ⟨hw.add hc, trivial⟩

theorem newPromise_spec (F : List Outcome) : Spec (Inv F) newPromise F False Any :=
  alloc_spec F fun _ h => (Option.some_inj.1 h).symm

/-- **What each built-in meets**, whatever else is in flight, at a depth of the stack. -/
structure Good (n : ℕ) : Prop where
  settle : ∀ F p ok v, Spec (Inv F) (settle n p ok v) F False Any
  react : ∀ F ok v r, Spec (Inv ((r.ticket, ok, v) :: F)) (react n ok v r) F False Any
  call : ∀ F f this args, Spec (Inv F) (call n f this args) F True Any
  native : ∀ F f this args, Spec (Inv F) (native n f this args) F True Any
  thenOn : ∀ F p onOk onErr, Spec (Inv F) (thenOn n p onOk onErr) F True Any
  promiseOf : ∀ F v, Spec (Inv F) (promiseOf n v) F False Any

theorem overflow {α : Type} {F G : List Outcome} {throws : Prop} {Q : α → World → Prop} :
    Spec (Inv F) (throw .panic) G throws Q :=
  Spec.fail nofun fun _ hw => ⟨F, hw⟩

theorem good_zero : Good 0 := by
  refine ⟨fun F p ok v => ?_, fun F ok v r => ?_, fun F f this args => ?_,
    fun F f this args => ?_, fun F p onOk onErr => ?_, fun F v => ?_⟩
  · exact overflow
  · exact overflow
  · exact overflow
  · exact overflow
  · exact overflow
  · exact overflow

section Step

variable {n : ℕ}

/-- The reactions that were taken run one after the other. -/
theorem drain (h : Good n) (F : List Outcome) (ok : Bool) (v : Val) (rs : List Reaction) :
    Spec (Inv (taken ok v rs ++ F)) (rs.forM (react n ok v)) F False Any := by
  induction rs with
  | nil => exact .ret fun w hw => ⟨hw, trivial⟩
  | cons r rs ih =>
      exact Spec.seq (h.react (taken ok v rs ++ F) ok v r) (fun _ => ih) nofun

theorem settle_step (h : Good n) (F : List Outcome) (p : ℕ) (ok : Bool) (v : Val) :
    Spec (Inv F) (settle (n + 1) p ok v) F False Any := by
  rw [settle]
  refine Spec.bind (adopted_spec F ok v) (fun c => ?_) nofun
  match c with
  | some (src, pr) =>
      dsimp only
      split
      case isTrue hpending =>
        exact CallM.Triple.modify (fun w hw => push_grows hw.2 hpending _ _ _)
          fun w hw => ⟨hw.1.push hw.2 hpending _ _ _, trivial⟩
      case isFalse =>
        exact Spec.weaken (h.settle F p _ _)
  | none =>
      dsimp only
      have hcell : Spec (fun w => Inv F w ∧ (ok = true → w.Plain v)) (cellM p) F False
          fun c w => w.heap[p]? = some c ∧ (ok = true → w.Plain v) := by
        refine CallM.Triple.reading fun w hw => ?_
        cases hcell : w.heap[p]? with
        | some c => exact ⟨hw.1, hcell, hw.2⟩
        | none => exact ⟨F, hw.1⟩
      refine Spec.bind hcell (fun c => ?_) nofun
      cases c with
      | none => exact .ret fun w hw => ⟨hw.1, trivial⟩
      | some pr =>
          dsimp only
          split
          case isTrue => exact .ret fun w hw => ⟨hw.1, trivial⟩
          case isFalse hpending =>
            rw [ne_eq, not_not] at hpending
            have hleave : Spec (fun w => Inv F w ∧ w.At p pr ∧ (ok = true → w.Plain v))
                (modify fun w => w.settle p ok v) (taken ok v pr.reactions ++ F) False Any :=
              CallM.Triple.modify (fun w hw => settle_grows hw.2.1 hpending ok v)
                fun w hw => ⟨hw.1.settle hw.2.1 hpending hw.2.2, trivial⟩
            exact Spec.seq hleave (fun _ => drain h F ok v pr.reactions) nofun

theorem react_step (h : Good n) (F : List Outcome) (ok : Bool) (v : Val) (r : Reaction) :
    Spec (Inv ((r.ticket, ok, v) :: F)) (react (n + 1) ok v r) F False Any := by
  have hnone : Spec (Inv F) (return () : PromiseM Unit) F False Any :=
    .ret fun w hw => ⟨hw, trivial⟩
  rw [react]
  have hrun : Spec (Inv ((r.ticket, ok, v) :: F)) (noteRun (r.ticket, ok, v)) F False Any :=
    CallM.Triple.modify (fun w _ => run_grows w _) fun w hw => ⟨hw.run, trivial⟩
  refine Spec.seq hrun (fun _ => ?_) nofun
  by_cases hnullish : (if ok then r.onOk else r.onErr).nullish
  · rw [if_pos hnullish]
    cases r.derived with
    | some derived => exact h.settle F derived ok v
    | none => exact hnone
  · rw [if_neg hnullish]
    refine Spec.attempt (h.call F _ .undef [v]) (fun x => ?_) (fun e => ?_) fun e he => ?_
    · cases r.derived with
      | some derived => exact h.settle F derived true x
      | none => exact hnone
    · cases r.derived with
      | some derived => exact h.settle F derived false e
      | none => exact hnone
    · cases e with
      | throw v => exact absurd rfl (he v)
      | _ => rfl

theorem request_spec (F : List Outcome) (i : Request) :
    Spec (Inv F) (CallM.request i : PromiseM Val) F True Any := by
  refine CallM.Triple.request fun w hw => ⟨F, hw, fun w' r hw' => ?_⟩
  match r with
  | .ok _ | .error (.throw _) => exact ⟨hw', trivial⟩
  | .error (.fault _) | .error .panic => exact ⟨F, hw'⟩

theorem call_step (h : Good n) (F : List Outcome) (f this : Val) (args : List Val) :
    Spec (Inv F) (call (n + 1) f this args) F True Any := by
  match f with
  | .nat f =>
      rw [call]
      exact h.native F f this args
  | .undef | .null | .bool _ | .num _ | .str _ | .obj _ | .global | .scope _ =>
      rw [call]
      · exact request_spec F _
      · exact nofun

theorem promiseOf_step (h : Good n) (F : List Outcome) (v : Val) :
    Spec (Inv F) (promiseOf (n + 1) v) F False Any := by
  rw [promiseOf]
  refine Spec.seq (asPromise_spec F v) (fun c => ?_) nofun
  match c with
  | some (id, pr) => exact .ret fun w hw => ⟨hw, trivial⟩
  | none =>
      refine Spec.seq (newPromise_spec F) (fun p => ?_) nofun
      refine Spec.seq (h.settle F p true v) (fun _ => ?_) nofun
      exact .ret fun w hw => ⟨hw, trivial⟩

theorem thenOn_step (h : Good n) (F : List Outcome) (p : ℕ) (onOk onErr : Val) :
    Spec (Inv F) (thenOn (n + 1) p onOk onErr) F True Any := by
  have hret (derived : ℕ) : Spec (Inv F) (pure (.obj derived) : PromiseM Val) F True Any :=
    .ret fun w hw => ⟨hw, trivial⟩
  rw [thenOn]
  refine Spec.seq (newPromise_spec F) (fun derived => ?_) nofun
  refine Spec.bind (cellM_spec F p) (fun c => ?_) nofun
  cases c with
  | none => exact Spec.fail nofun fun w hw => ⟨F, hw.1⟩
  | some pr =>
      dsimp only
      split
      case isTrue hpending =>
        have hpush : Spec (fun w => Inv F w ∧ w.At p pr)
            (modify fun w => w.push p pr onOk onErr (some derived)) F False Any :=
          CallM.Triple.modify (fun w hw => push_grows hw.2 hpending _ _ _)
            fun w hw => ⟨hw.1.push hw.2 hpending _ _ _, trivial⟩
        exact Spec.seq hpush (fun _ => hret derived) nofun
      case isFalse hne =>
        -- the ticket is in flight from its registration on
        have hregister : CallM.Triple Grows Inv (fun w => Inv F w ∧ w.At p pr) (register p)
            fun w r => ∃ t, r = .ok t ∧ Inv ((t, decide (pr.state = 1), pr.value) :: F) w :=
          CallM.Triple.modifyGet (fun w _ => register_grows w p)
            fun w hw => ⟨_, rfl, hw.1.register hw.2 hne⟩
        refine CallM.Triple.bind hregister (fun ticket => ?_) ?_
        · have hreact := h.react F (pr.state = 1) pr.value ⟨onOk, onErr, some derived, ticket⟩
          refine CallM.Triple.imp (Spec.seq hreact (fun _ => hret derived) nofun) ?_
            fun _ _ hr => hr
          rintro w ⟨_, ⟨⟩, hw⟩
          exact hw
        · rintro w e ⟨_, ⟨⟩, -⟩

theorem native_step (h : Good n) (F : List Outcome) (f : Interp.Nat) (this : Val)
    (args : List Val) : Spec (Inv F) (native (n + 1) f this args) F True Any := by
  have hunsupported (what : String) : Spec (Inv F) (failWith what : PromiseM Val) F True Any :=
    Spec.fail nofun fun w hw => ⟨F, hw⟩
  rw [native.eq_def]
  split
  case h_1 heq => cases heq
  case h_2 this _ _ _ _ _ _ heq =>
    obtain rfl := Nat.succ.inj heq
    dsimp only
    split
    case h_1 =>
      refine Spec.seq (alloc_spec F nofun) (fun e => ?_) nofun
      exact CallM.Triple.throw fun w hw => ⟨hw, trivial⟩
    case h_2 =>
      refine Spec.seq (h.promiseOf F _) (fun p => ?_) nofun
      exact .ret fun w hw => ⟨hw, trivial⟩
    case h_3 =>
      refine Spec.seq (newPromise_spec F) (fun p => ?_) nofun
      refine Spec.seq (h.settle F p false _) (fun _ => ?_) nofun
      exact .ret fun w hw => ⟨hw, trivial⟩
    case h_4 =>
      cases this with
      | obj p => exact h.thenOn F p _ _
      | _ => exact hunsupported _
    case h_5 =>
      cases this with
      | obj p => exact h.thenOn F p _ _
      | _ => exact hunsupported _
    case h_6 p ok =>
      refine Spec.seq (h.settle F p ok _) (fun _ => ?_) nofun
      exact .ret fun w hw => ⟨hw, trivial⟩
    case h_7 => exact request_spec F _

end Step

/-- **At every depth of the stack** the built-ins meet their specifications. -/
theorem good (n : ℕ) : Good n := by
  induction n with
  | zero => exact good_zero
  | succ n ih =>
      exact ⟨settle_step ih, react_step ih, call_step ih, native_step ih, thenOn_step ih,
        promiseOf_step ih⟩

theorem construct_spec (stack : ℕ) (F : List Outcome) (args : List Val) :
    Spec (Inv F) (construct stack args) F True Any := by
  rw [construct]
  refine Spec.seq (newPromise_spec F) (fun p => ?_) nofun
  refine Spec.attempt ((good stack).call F _ .undef _) (fun _ => ?_) (fun e => ?_) fun e he => ?_
  · exact .ret fun w hw => ⟨hw, trivial⟩
  · refine Spec.seq ((good stack).settle F p false e) (fun _ => ?_) nofun
    exact .ret fun w hw => ⟨hw, trivial⟩
  · match e with
    | .throw v => exact absurd rfl (he v)
    | .fault _ | .panic => rfl

/-- The loop of `Promise.all` and `Promise.race`, by induction on the items left. -/
theorem allFrom_spec (stack : ℕ) (F : List Outcome) (race : Bool) (out : ℕ) (list : List Val)
    (pending : Bool) : Spec (Inv F) (allFrom stack race out list pending) F True Any := by
  have hsettle (ok : Bool) (v : Val) :
      Spec (Inv F) (settle stack out ok v >>= fun _ => pure (Val.obj out)) F True Any := by
    refine Spec.seq ((good stack).settle F out ok v) (fun _ => ?_) nofun
    exact .ret fun w hw => ⟨hw, trivial⟩
  induction list generalizing pending with
  | nil =>
      rw [allFrom]
      split
      · exact Spec.seq (alloc_spec F nofun) (fun arr => hsettle true (.obj arr)) nofun
      · exact .ret fun w hw => ⟨hw, trivial⟩
  | cons item rest ih =>
      rw [allFrom]
      refine Spec.seq ((good stack).promiseOf F item) (fun p => ?_) nofun
      refine Spec.seq (cellM_spec F p) (fun c => ?_) nofun
      split
      · split
        · exact hsettle true _
        · exact ih pending
      · exact hsettle false _
      · exact ih true

theorem use_spec (stack : ℕ) (F : List Outcome) (u : Use) :
    Spec (Inv F) (u.run stack) F True Any := by
  cases u with
  | native n this args => exact (good stack).native F n this args
  | construct args => exact construct_spec stack F args
  | all race list =>
      refine Spec.seq (newPromise_spec F) (fun out => ?_) nofun
      exact allFrom_spec stack F race out list false

/-! ## Runs -/

/-- The built-ins that wait for the surroundings will leave what is in flight as the next one
outwards expects it, and the outermost one nothing. -/
def Waits : List Outcome → List (World → Res Val → Tree) → Prop
  | F, [] => F = []
  | F, k :: frames => ∃ G, Waits G frames ∧
      ∀ w r, Inv F w → (k w r).Meets Grows Inv (Ends G True Any) w

/-- What every reachable configuration satisfies. -/
def Safe (c : Config) : Prop := ∃ F, Inv F c.world ∧ (c.aborted = false → Waits F c.frames)

/-- A built-in that runs for a while leaves a safe configuration. -/
theorem resume_safe {w : World} {frames : List (World → Res Val → Tree)} {F : List Outcome}
    {t : Tree} (ht : t.Meets Grows Inv (Ends F True Any) w) (hwaits : Waits F frames) :
    Grows w (resume frames t).world ∧ Safe (resume frames t) := by
  match t with
  | .done w' (.ok _) => exact ⟨ht.1, F, ht.2.1, fun _ => hwaits⟩
  | .done w' (.error (.throw _)) => exact ⟨ht.1, F, ht.2.1, fun _ => hwaits⟩
  | .done w' (.error (.fault _)) | .done w' (.error .panic) =>
      obtain ⟨hgrows, G, hG⟩ := ht
      exact ⟨hgrows, G, hG, nofun⟩
  | .call w' i k =>
      obtain ⟨hgrows, G, hG, hk⟩ := ht
      exact ⟨hgrows, G, hG, fun _ => ⟨F, hwaits, hk⟩⟩

theorem init_inv : Inv [] machine.init.world where
  plain _ _ h := by cases h
  idle _ _ h := by cases h
  waiting _ _ _ h := by cases h
  owned _ _ h := by cases h
  flight _ h := by cases h
  ran _ h := by cases h
  once _ _ h := by cases h
  settled _ h := by cases h

/-- **One step** of the surroundings, with all that a built-in then does. -/
theorem step_safe {c c' : Config} {a : Action} (h : machine.step c a = some c') (hc : Safe c) :
    Grows c.world c'.world ∧ Safe c' := by
  obtain ⟨F, hF, hwaits⟩ := hc
  rw [machine] at h
  dsimp only at h
  split at h
  case isTrue => cases h
  case isFalse hrunning =>
    rw [Bool.not_eq_true] at hrunning
    specialize hwaits hrunning
    split at h
    · cases h
      exact ⟨add_grows _ _, F, hF.add nofun, fun _ => hwaits⟩
    · cases h
      exact resume_safe (use_spec _ F _ c.world hF) hwaits
    case h_3 r k frames hframes =>
      cases h
      rw [hframes] at hwaits
      obtain ⟨G, hG, hk⟩ := hwaits
      exact resume_safe (hk c.world r hF) hG
    · cases h

theorem steps_safe {c c' : Config} (h : machine.Steps c c') (hc : Safe c) :
    Grows c.world c'.world ∧ Safe c' := by
  induction h with
  | refl => exact ⟨refl_of Grows _, hc⟩
  | tail _ hstep ih =>
      obtain ⟨hgrows, hsafe⟩ := step_safe hstep ih.2
      exact ⟨IsTrans.trans _ _ _ ih.1 hgrows, hsafe⟩

theorem reachable_safe {c : Config} (h : machine.Reachable c) : Safe c :=
  (steps_safe h ⟨[], init_inv, fun _ => rfl⟩).2

end Promises
end Lunar
