/-
# Deterministic systems driven by a schedule

A system is an initial state and a partial step function: an action either
takes the state to one successor or is not enabled.  An interleaving of several
parties is a list of actions, so a statement about every interleaving is a
statement about every reachable state, and an invariant is proved once from the
initial state and from one step.
-/

import Mathlib.Logic.Relation

namespace Lunar
namespace Lib

/-- A state machine whose actions are chosen by a scheduler. -/
structure System (σ α : Type*) where
  init : σ
  step : σ → α → Option σ

namespace System

variable {σ α : Type*} (m : System σ α)

/-- `m.Steps s t`: some schedule leads from `s` to `t`. -/
inductive Steps (s : σ) : σ → Prop
  | refl : Steps s s
  | tail {t u : σ} {a : α} : Steps s t → m.step t a = some u → Steps s u

/-- The states some schedule reaches from the initial one. -/
def Reachable (s : σ) : Prop := m.Steps m.init s

variable {m}

theorem Steps.trans {s t u : σ} (h₁ : m.Steps s t) (h₂ : m.Steps t u) : m.Steps s u := by
  induction h₂ with
  | refl => exact h₁
  | tail _ hstep ih => exact ih.tail hstep

theorem Reachable.init : m.Reachable m.init := .refl

theorem Reachable.step {s t : σ} {a : α} (hs : m.Reachable s) (h : m.step s a = some t) :
    m.Reachable t :=
  Steps.tail hs h

theorem Reachable.steps {s t : σ} (hs : m.Reachable s) (h : m.Steps s t) : m.Reachable t :=
  Steps.trans hs h

/-- **Invariants hold along runs.**  A property kept by every step of a
reachable state holds at the end of a run if it holds at its start. -/
theorem Steps.preserves {P : σ → Prop} {s t : σ} (h : m.Steps s t) (hs : m.Reachable s) (hP : P s)
    (hstep : ∀ s a t, m.Reachable s → P s → m.step s a = some t → P t) : P t := by
  induction h with
  | refl => exact hP
  | tail h₁ h₂ ih => exact hstep _ _ _ (hs.steps h₁) ih h₂

/-- **The invariant rule.**  What holds initially and is kept by every step of
a reachable state holds in every reachable state. -/
theorem Reachable.invariant {P : σ → Prop} {s : σ} (hs : m.Reachable s) (h₀ : P m.init)
    (hstep : ∀ s a t, m.Reachable s → P s → m.step s a = some t → P t) : P s :=
  Steps.preserves hs .init h₀ hstep

/-- The state a schedule reaches, if every action of it is enabled. -/
def run (m : System σ α) (s : σ) : List α → Option σ
  | [] => some s
  | a :: as => (m.step s a).bind fun t => run m t as

theorem Steps.of_run {s t : σ} {as : List α} (h : m.run s as = some t) : m.Steps s t := by
  induction as generalizing s with
  | nil => cases h; exact .refl
  | cons a as ih =>
      obtain ⟨u, hu, ht⟩ := Option.bind_eq_some_iff.1 h
      exact Steps.trans (.tail .refl hu) (ih ht)

/-- A schedule found by running it reaches a state with a decidable property. -/
theorem exists_reachable (as : List α) {P : σ → Prop} [DecidablePred P]
    (h : (m.run m.init as).any (fun s => decide (P s)) = true) : ∃ s, m.Reachable s ∧ P s := by
  obtain ⟨s, hs, hP⟩ := (Option.any_eq_true _ _).1 h
  exact ⟨s, .of_run hs, of_decide_eq_true hP⟩

end System

/-! ## Runs that come to an end -/

/-- `Chain R s k t`: `k` steps of `R` lead from `s` to `t`. -/
inductive Chain {σ : Type*} (R : σ → σ → Prop) (s : σ) : Nat → σ → Prop
  | refl : Chain R s 0 s
  | step {k : Nat} {t u : σ} : Chain R s k t → R t u → Chain R s (k + 1) u

theorem Chain.trans {σ : Type*} {R : σ → σ → Prop} {s t u : σ} {k m : Nat} (h : Chain R s k t)
    (h' : Chain R t m u) : Chain R s (k + m) u := by
  induction h' with
  | refl => exact h
  | step _ hr ih => exact ih.step hr

/-- Every step keeps `Inv` and makes `todo` smaller, and a state that is not at
its end has a step. -/
structure Ends {σ : Type*} (R : σ → σ → Prop) (Inv End : σ → Prop) (todo : σ → Nat) : Prop where
  step : ∀ {s t}, Inv s → R s t → Inv t ∧ todo t < todo s
  live : ∀ {s}, Inv s → ¬ End s → ∃ t, R s t

namespace Ends

variable {σ : Type*} {R : σ → σ → Prop} {Inv End : σ → Prop} {todo : σ → Nat}

/-- A run is no longer than what there was to do. -/
theorem length_le (h : Ends R Inv End todo) {s t : σ} {k : Nat} (hs : Inv s)
    (hr : Chain R s k t) : Inv t ∧ k + todo t ≤ todo s := by
  induction hr with
  | refl => exact ⟨hs, by simp⟩
  | step _ hstep ih =>
      obtain ⟨hi, hle⟩ := ih
      obtain ⟨hi', hlt⟩ := h.step hi hstep
      exact ⟨hi', by omega⟩

/-- **Every run can be led to the end.** -/
theorem exists_end (h : Ends R Inv End todo) {s : σ} (hs : Inv s) :
    ∃ k t, Chain R s k t ∧ End t := by
  induction hn : todo s using Nat.strongRecOn generalizing s with
  | ind n ih =>
      by_cases he : End s
      · exact ⟨0, s, .refl, he⟩
      · obtain ⟨u, hu⟩ := h.live hs he
        obtain ⟨hi, hlt⟩ := h.step hs hu
        obtain ⟨k, t, ht, hend⟩ := ih _ (hn ▸ hlt) hi rfl
        exact ⟨_, t, (Chain.refl.step hu).trans ht, hend⟩

end Ends
end Lib
end Lunar
