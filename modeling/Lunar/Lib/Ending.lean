/-
# Runs that come to an end

A machine takes one state to the next, or stops.  `Finishes`: a run whose states are all in order
comes to its end, which a proof follows step by step (`Finishes.step`).  That the states of a run
that stops are in order can be computed (`inOrder_comes`).
-/

import Mathlib.Data.Nat.Notation
import Mathlib.Logic.Relation

namespace Lunar
namespace Lib

section Ending

variable {σ : Type*} (next : σ → Option σ)

/-- Where the machine comes to. -/
def Comes : σ → σ → Prop := Relation.ReflTransGen fun s t => next s = some t

/-- A run whose states are all in order comes to a state that is an end. -/
def Finishes (ok fin : σ → Prop) (s : σ) : Prop :=
  (∀ t, Comes next s t → ok t) → ∃ t, Comes next s t ∧ fin t

/-- All states of the next `n` steps are in order, and then the machine has stopped. -/
def inOrder (ok : σ → Bool) : ℕ → σ → Bool
  | 0, _ => false
  | n + 1, s =>
    ok s &&
      match next s with
      | some t => inOrder ok n t
      | none => true

variable {next} {ok fin : σ → Prop} {s t : σ}

/-- **One step** on the way to the end. -/
theorem Finishes.step (h : next s = some t) (ht : ok s → Finishes next ok fin t) :
    Finishes next ok fin s := by
  intro hrun
  obtain ⟨u, hu, hfin⟩ := ht (hrun s .refl) fun u hu => hrun u (.head h hu)
  exact ⟨u, .head h hu, hfin⟩

theorem Finishes.here (h : ok s → fin s) : Finishes next ok fin s :=
  fun hrun => ⟨s, .refl, h (hrun s .refl)⟩

/-- A state that is not in order is in no run of those that have to end. -/
theorem Finishes.of_not (h : ¬ok s) : Finishes next ok fin s := fun hrun => absurd (hrun s .refl) h

theorem inOrder_comes {ok : σ → Bool} {n : ℕ} (h : inOrder next ok n s = true)
    (hst : Comes next s t) : ok t = true := by
  induction n generalizing s with
  | zero => cases h
  | succ n ih =>
      obtain ⟨hok, hnext⟩ := Bool.and_eq_true_iff.1 h
      rcases hst.cases_head with rfl | ⟨u, hu, hut⟩
      · exact hok
      · rw [hu] at hnext
        exact ih hnext hut

end Ending

end Lib
end Lunar
