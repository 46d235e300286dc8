/-
# What computations end with

A computation calls out, and what it calls changes the state as `A` allows.  `Ends A P c`: wherever
the computation `c` ends, whatever its calls answer, `P` holds there.  `Gives A P E x`: from every
state, `x` ends with a value of `P` or with an error of `E`.
-/

import Lunar.Lib.Calls

namespace Lunar
namespace Lib

variable {σ τ ι ρ ε α β : Type} {A : σ → σ → Prop}

namespace Calls

/-- `P` holds at every end, as long as the calls do what `A` allows. -/
inductive Ends (A : σ → σ → Prop) (P : σ → α → Prop) : Calls σ ι ρ α → Prop
  | done {s : σ} {a : α} (h : P s a) : Ends A P (.done s a)
  | call {s : σ} {i : ι} {k : σ → ρ → Calls σ ι ρ α} (h : ∀ u r, A s u → Ends A P (k u r)) :
      Ends A P (.call s i k)

namespace Ends

variable {P Q : σ → α → Prop} {P' : σ → β → Prop} {c : Calls σ ι ρ α}

theorem mono (h : c.Ends A P) (hPQ : ∀ s a, P s a → Q s a) : c.Ends A Q := by
  induction h with
  | done h => exact .done (hPQ _ _ h)
  | call h ih => exact .call ih

theorem and (h : c.Ends A P) (h' : c.Ends A Q) : c.Ends A fun s a => P s a ∧ Q s a := by
  induction h with
  | done h =>
      cases h' with
      | done h' => exact .done ⟨h, h'⟩
  | call h ih =>
      cases h' with
      | call h' => exact .call fun u r hu => ih u r hu (h' u r hu)

/-- **Sequences.** -/
theorem bind {f : σ → α → Calls σ ι ρ β} (h : c.Ends A P)
    (hf : ∀ s a, P s a → (f s a).Ends A P') : (c.bind f).Ends A P' := by
  induction h with
  | done h => exact hf _ _ h
  | call h ih => exact .call ih

/-- A computation that itself only does what `A` allows ends where `A` leads to. -/
theorem of_follows [IsPreorder σ A] {s t : σ} (h : c.Follows A t) (hst : A s t) :
    c.Ends A fun u _ => A s u := by
  induction c generalizing t with
  | done u a => exact .done (trans_of A hst h)
  | call u i k ih =>
      exact .call fun v r hv => ih v r (h.2 v r) (trans_of A (trans_of A hst h.1) hv)

end Ends
end Calls

namespace CallM

/-- An end with a value of `P`, or with an error of `E`. -/
def Outcome (P : σ → α → Prop) (E : ε → Prop) (s : σ) (r : Except ε α) : Prop :=
  (∀ a, r = .ok a → P s a) ∧ ∀ e, r = .error e → E e

/-- From every state the computation ends with a value of `P` or with an error of `E`. -/
def Gives (A : σ → σ → Prop) (P : α → Prop) (E : ε → Prop) (x : CallM σ ι ρ ε α) : Prop :=
  ∀ s, (x s).Ends A (Outcome (fun _ => P) E)

variable {P : α → Prop} {P' : β → Prop} {E : ε → Prop} {x : CallM σ ι ρ ε α}
  {f : α → CallM σ ι ρ ε β}

theorem outcome_ok {P : σ → α → Prop} {s : σ} {a : α} (h : P s a) : Outcome P E s (.ok a) :=
  ⟨fun _ ha => Except.ok.inj ha ▸ h, fun _ he => by cases he⟩

theorem outcome_error {P : σ → α → Prop} {s : σ} {e : ε} (h : E e) : Outcome P E s (.error e) :=
  ⟨fun _ ha => (by cases ha), fun _ he => Except.error.inj he ▸ h⟩

/-- What follows a computation starts where it has ended. -/
theorem ends_bind {Q : σ → Except ε α → Prop} {Q' : σ → Except ε β → Prop} {s : σ}
    (h : (x s).Ends A Q) (hf : ∀ t a, Q t (.ok a) → (f a t).Ends A Q')
    (hE : ∀ t e, Q t (.error e) → Q' t (.error e)) : ((x >>= f) s).Ends A Q' := by
  refine h.bind fun t r hr => ?_
  cases r with
  | ok a => exact hf t a hr
  | error e => exact .done (hE t e hr)

namespace Gives

theorem pure {a : α} (h : P a) : (pure a : CallM σ ι ρ ε α).Gives A P E :=
  fun _ => .done (outcome_ok h)

theorem mono {Q : α → Prop} (h : x.Gives A P E) (hPQ : ∀ a, P a → Q a) : x.Gives A Q E :=
  fun s => (h s).mono fun _ _ hr => ⟨fun a ha => hPQ a (hr.1 a ha), hr.2⟩

theorem bind (h : x.Gives A P E) (hf : ∀ a, P a → (f a).Gives A P' E) :
    (x >>= f).Gives A P' E :=
  fun s => ends_bind (h s) (fun t a ha => hf a (ha.1 a rfl) t)
    fun _ e he => outcome_error (he.2 e rfl)

end Gives
end CallM
end Lib
end Lunar
