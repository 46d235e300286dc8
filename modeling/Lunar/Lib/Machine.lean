/-
# Deterministic machines and their simulations

A machine takes a state to the events it emits and to the next state or to an
end.  Two ways of relating machines are used: in lockstep, where one step is
answered by one step, and with a lead, where the first machine may take silent
steps that the second one has lost.  Both are about runs whose steps meet a
guard, and both go in the two directions.
-/

import Mathlib.Logic.Relation
import Mathlib.Data.List.Forall2
import Mathlib.Data.Sum.Basic

namespace Lunar
namespace Lib

/-- A step emits events and goes to a state or to an end. -/
abbrev Machine (σ ε ω : Type*) := σ → List ε × (σ ⊕ ω)

namespace Machine

variable {σ σ' σ'' ε ω : Type*}

/-- `Runs m G s es x`: from `s` the machine comes to `x`, every step of it taken
from a state that meets the guard, and emits `es`. -/
inductive Runs (m : Machine σ ε ω) (G : σ → Prop) : σ → List ε → σ ⊕ ω → Prop
  | refl (s : σ) : Runs m G s [] (.inl s)
  | stop {s : σ} {es : List ε} {o : ω} : G s → m s = (es, .inr o) → Runs m G s es (.inr o)
  | head {s t : σ} {es es' : List ε} {x : σ ⊕ ω} :
      G s → m s = (es, .inl t) → Runs m G t es' x → Runs m G s (es ++ es') x

/-- Every step of every run from `s` meets the guard. -/
def Safe (m : Machine σ ε ω) (G : σ → Prop) (s : σ) : Prop :=
  ∀ es t, Runs m (fun _ => True) s es (.inl t) → G t

variable {m : Machine σ ε ω} {m' : Machine σ' ε ω} {m'' : Machine σ'' ε ω}
variable {G : σ → Prop} {G' : σ' → Prop} {G'' : σ'' → Prop}
variable {er : ε → ε → Prop} {fin : ω → ω → Prop}

theorem Safe.here {s : σ} (h : Safe m G s) : G s := h [] s (.refl s)

theorem Safe.step {s t : σ} {es : List ε} (h : Safe m G s) (hm : m s = (es, .inl t)) :
    Safe m G t :=
  fun es' u hu => h (es ++ es') u (.head trivial hm hu)

/-- The events and the end of a run whose steps all pass a test, if it ends within
some number of steps. -/
def run (m : Machine σ ε ω) (g : σ → Bool) : ℕ → σ → Option (List ε × ω)
  | 0, _ => none
  | n + 1, s =>
      if g s then
        match m s with
        | (es, .inr o) => some (es, o)
        | (es, .inl t) => (run m g n t).map fun r => (es ++ r.1, r.2)
      else none

theorem Runs.of_run {g : σ → Bool} (hg : ∀ s, g s = true → G s) {n : ℕ} {s : σ}
    {r : List ε × ω} (h : run m g n s = some r) : Runs m G s r.1 (.inr r.2) := by
  induction n generalizing s r with
  | zero => cases h
  | succ n ih =>
      rw [run] at h
      split at h
      · next hs =>
          rcases hm : m s with ⟨es, t | o⟩
          · simp only [hm, Option.map_eq_some_iff] at h
            obtain ⟨r', hr', rfl⟩ := h
            exact .head (hg s hs) hm (ih hr')
          · simp only [hm, Option.some.injEq] at h
            subst h
            exact .stop (hg s hs) hm
      · cases h

/-- A step with no event that does not end the run. -/
def Silent (m : Machine σ ε ω) (s t : σ) : Prop := m s = ([], .inl t)

/-- Silent steps lead from `s` to `t`. -/
abbrev Leads (m : Machine σ ε ω) : σ → σ → Prop := Relation.ReflTransGen (Silent m)

/-- From related states of which the first meets its guard, the second meets its
own, both emit related events and both come to related states or ends. -/
def Lockstep (m : Machine σ ε ω) (G : σ → Prop) (m' : Machine σ' ε ω) (G' : σ' → Prop)
    (er : ε → ε → Prop) (fin : ω → ω → Prop) (rel : σ → σ' → Prop) : Prop :=
  ∀ s s', rel s s' → G s →
    G' s' ∧ List.Forall₂ er (m s).1 (m' s').1 ∧ Sum.LiftRel rel fin (m s).2 (m' s').2

theorem forall₂_trans (her : ∀ a b c, er a b → er b c → er a c) {as bs cs : List ε}
    (h : List.Forall₂ er as bs) (h' : List.Forall₂ er bs cs) : List.Forall₂ er as cs := by
  induction h generalizing cs with
  | nil => exact h'
  | cons hd _ ih =>
      rcases h' with _ | ⟨hd', tl'⟩
      exact .cons (her _ _ _ hd hd') (ih tl')

/-- **A guarded run is answered by a run.** -/
theorem Lockstep.runs {rel : σ → σ' → Prop} (h : Lockstep m G m' G' er fin rel) {s : σ} {s' : σ'}
    {es : List ε} {x : σ ⊕ ω} (hr : Runs m G s es x) (hs : rel s s') :
    ∃ es' x', Runs m' G' s' es' x' ∧ List.Forall₂ er es es' ∧ Sum.LiftRel rel fin x x' := by
  induction hr generalizing s' with
  | refl s => exact ⟨[], .inl s', .refl s', .nil, .inl hs⟩
  | @stop s es o hG hm =>
      obtain ⟨hG', hes, hx⟩ := h s s' hs hG
      rw [hm] at hes hx
      rcases hm' : m' s' with ⟨es', x'⟩
      rw [hm'] at hes hx
      cases hx with
      | inr ho => exact ⟨es', _, .stop hG' hm', hes, .inr ho⟩
  | @head s t es es₁ x hG hm hrest ih =>
      obtain ⟨hG', hes, hx⟩ := h s s' hs hG
      rw [hm] at hes hx
      rcases hm' : m' s' with ⟨es', x'⟩
      rw [hm'] at hes hx
      cases hx with
      | inl ht =>
          obtain ⟨es₁', x₁, hr', he', hx'⟩ := ih ht
          exact ⟨es' ++ es₁', x₁, .head hG' hm' hr', List.rel_append hes he', hx'⟩

/-- Simulations in lockstep compose. -/
theorem Lockstep.comp {r : σ → σ' → Prop} {r' : σ' → σ'' → Prop}
    (h : Lockstep m G m' G' er fin r) (h' : Lockstep m' G' m'' G'' er fin r')
    (her : ∀ a b c, er a b → er b c → er a c) (hfin : ∀ a b c, fin a b → fin b c → fin a c) :
    Lockstep m G m'' G'' er fin (Relation.Comp r r') := by
  rintro s u ⟨t, hst, htu⟩ hG
  obtain ⟨hG', hes, hx⟩ := h s t hst hG
  obtain ⟨hG'', hes', hx'⟩ := h' t u htu hG'
  refine ⟨hG'', forall₂_trans her hes hes', ?_⟩
  generalize (m s).2 = x at hx
  generalize (m' t).2 = y at hx hx'
  generalize (m'' u).2 = z at hx'
  cases hx with
  | inl ha =>
      rcases hx' with ⟨hc⟩ | _
      exact .inl ⟨_, ha, hc⟩
  | inr hb =>
      rcases hx' with _ | ⟨hc⟩
      exact .inr (hfin _ _ _ hb hc)

/-! ### With a lead -/

/-- The first machine takes silent steps of a kind until it stands where the second
one does. -/
def Behind (lead : σ → σ → Prop) (al : σ → σ' → Prop) (s : σ) (t : σ') : Prop :=
  ∃ k, Relation.ReflTransGen lead s k ∧ al k t

/-- Aligned states take the same step, and then the first machine is behind
again. -/
structure Trails (m : Machine σ ε ω) (m' : Machine σ' ε ω) (lead : σ → σ → Prop)
    (al : σ → σ' → Prop) : Prop where
  silent : ∀ s t, lead s t → Silent m s t
  step : ∀ k t, al k t →
    (m k).1 = (m' t).1 ∧ Sum.LiftRel (Behind lead al) Eq (m k).2 (m' t).2

theorem Trails.runs {lead : σ → σ → Prop} {al : σ → σ' → Prop}
    (h : Trails m m' lead al) {s : σ} {t : σ'} {es : List ε}
    {x : σ ⊕ ω} (hr : Runs m G s es x) (hs : Behind lead al s t) :
    ∃ x', Runs m' (fun _ => True) t es x' ∧ Sum.LiftRel (Behind lead al) Eq x x' := by
  induction hr generalizing t with
  | refl s => exact ⟨.inl t, .refl t, .inl hs⟩
  | @stop s es o _ hm =>
      obtain ⟨k, hk, hal⟩ := hs
      rcases hk.cases_head with rfl | ⟨u, hu, -⟩
      · obtain ⟨hes, hx⟩ := h.step s t hal
        rw [hm] at hes hx
        rcases hm' : m' t with ⟨es', x'⟩
        rw [hm'] at hes hx
        obtain rfl : es = es' := hes
        cases hx with
        | inr ho => exact ⟨_, .stop trivial hm', .inr ho⟩
      · have hu := h.silent _ _ hu
        rw [Silent, hm] at hu
        simp at hu
  | @head s s₁ es es₁ x _ hm hrest ih =>
      obtain ⟨k, hk, hal⟩ := hs
      rcases hk.cases_head with rfl | ⟨u, hu, huk⟩
      · obtain ⟨hes, hx⟩ := h.step s t hal
        rw [hm] at hes hx
        rcases hm' : m' t with ⟨es', x'⟩
        rw [hm'] at hes hx
        obtain rfl : es = es' := hes
        cases hx with
        | inl ht =>
            obtain ⟨x₁, hr', hx'⟩ := ih ht
            exact ⟨x₁, .head trivial hm' hr', hx'⟩
      · have hu := h.silent _ _ hu
        rw [Silent, hm] at hu
        obtain ⟨rfl, rfl⟩ : es = [] ∧ s₁ = u := by simpa using hu
        obtain ⟨x₁, hr', hx'⟩ := ih ⟨k, huk, hal⟩
        exact ⟨x₁, by simpa using hr', hx'⟩

end Machine
end Lib
end Lunar
