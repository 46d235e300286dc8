/-
# What a computation promises and relies on

A computation that calls out (`Calls`) acts on its own between its calls, and whatever it
calls acts meanwhile.  `Meets R Inv Post s c`: what `c` does by itself from `s` on is
described by `R`; when it calls out, some invariant holds, which it relies on when the
call has come back; and at its end `Post` holds.  The invariant may be another one at each
call, so it can tell what the computation still has to do.

`Triple` is the same for a computation that may fail, with rules for sequences, loops and
the single steps.
-/

import Lunar.Lib.Calls

namespace Lunar
namespace Lib

variable {σ ι ρ ε α β φ : Type}

namespace Calls

/-- What the computation does by itself is described by `R`, an invariant holds at its
calls, and `Post` at its end. -/
def Meets (R : σ → σ → Prop) (Inv : φ → σ → Prop) (Post : σ → α → Prop) :
    σ → Calls σ ι ρ α → Prop
  | s, .done t a => R s t ∧ Post t a
  | s, .call t _ k => R s t ∧ ∃ f, Inv f t ∧ ∀ u r, Inv f u → Meets R Inv Post u (k u r)

namespace Meets

variable {R : σ → σ → Prop} {Inv : φ → σ → Prop} {Post : σ → α → Prop} {s : σ}
  {c : Calls σ ι ρ α}

theorem mono {Post' : σ → α → Prop} (h : c.Meets R Inv Post s)
    (hpost : ∀ t a, Post t a → Post' t a) : c.Meets R Inv Post' s := by
  induction c generalizing s with
  | done t a => exact ⟨h.1, hpost t a h.2⟩
  | call t i k ih =>
      obtain ⟨hR, f, hf, hk⟩ := h
      exact ⟨hR, f, hf, fun u r hu => ih u r (hk u r hu)⟩

/-- What comes before a computation counts with its first part. -/
theorem after [IsTrans σ R] {s' : σ} (hs : R s' s) (h : c.Meets R Inv Post s) :
    c.Meets R Inv Post s' := by
  cases c with
  | done t a => exact ⟨IsTrans.trans _ _ _ hs h.1, h.2⟩
  | call t i k => exact ⟨IsTrans.trans _ _ _ hs h.1, h.2⟩

/-- **Sequences.** -/
theorem bind [IsTrans σ R] {Mid : σ → α → Prop} {Post : σ → β → Prop}
    {f : σ → α → Calls σ ι ρ β} (h : c.Meets R Inv Mid s)
    (hf : ∀ t a, Mid t a → (f t a).Meets R Inv Post t) : (c.bind f).Meets R Inv Post s := by
  induction c generalizing s with
  | done t a => exact (hf t a h.2).after h.1
  | call t i k ih =>
      obtain ⟨hR, g, hg, hk⟩ := h
      exact ⟨hR, g, hg, fun u r hu => ih u r (hk u r hu)⟩

end Meets
end Calls

namespace CallM

/-- The result of a computation, also one that has failed. -/
def attempt (x : CallM σ ι ρ ε α) : CallM σ ι ρ ε (Except ε α) :=
  fun s => (x s).bind fun t r => .done t (.ok r)

/-- From a state with `Pre` the computation meets `Post`. -/
def Triple (R : σ → σ → Prop) (Inv : φ → σ → Prop) (Pre : σ → Prop) (x : CallM σ ι ρ ε α)
    (Post : σ → Except ε α → Prop) : Prop :=
  ∀ s, Pre s → (x s).Meets R Inv Post s

namespace Triple

variable {R : σ → σ → Prop} {Inv : φ → σ → Prop} {Pre : σ → Prop} {x : CallM σ ι ρ ε α}
  {Post : σ → Except ε α → Prop}

theorem imp {Pre' : σ → Prop} {Post' : σ → Except ε α → Prop} (h : Triple R Inv Pre x Post)
    (hpre : ∀ s, Pre' s → Pre s) (hpost : ∀ s r, Post s r → Post' s r) :
    Triple R Inv Pre' x Post' :=
  fun s hs => (h s (hpre s hs)).mono hpost

section Preorder

variable [IsPreorder σ R]

theorem pure {a : α} (h : ∀ s, Pre s → Post s (.ok a)) :
    Triple R Inv Pre (pure a : CallM σ ι ρ ε α) Post :=
  fun s hs => ⟨refl_of R s, h s hs⟩

theorem throw {e : ε} (h : ∀ s, Pre s → Post s (.error e)) :
    Triple R Inv Pre (throw e : CallM σ ι ρ ε α) Post :=
  fun s hs => ⟨refl_of R s, h s hs⟩

theorem reading {g : σ → Except ε α} (h : ∀ s, Pre s → Post s (g s)) :
    Triple R Inv Pre (reading g : CallM σ ι ρ ε α) Post :=
  fun s hs => ⟨refl_of R s, h s hs⟩

/-- A call is made under an invariant, which holds again when it has come back. -/
theorem request {i : ι} {Post : σ → Except ε α → Prop}
    (h : ∀ s, Pre s → ∃ f, Inv f s ∧ ∀ t r, Inv f t → Post t r) :
    Triple R Inv Pre (request i : CallM σ ι (Except ε α) ε α) Post := by
  intro s hs
  obtain ⟨f, hf, hpost⟩ := h s hs
  exact ⟨refl_of R s, f, hf, fun t r ht => ⟨refl_of R t, hpost t r ht⟩⟩

/-- **Sequences**: an error ends them. -/
theorem bind {M : σ → Except ε α → Prop} {f : α → CallM σ ι ρ ε β}
    {Post : σ → Except ε β → Prop} (hx : Triple R Inv Pre x M)
    (hf : ∀ a, Triple R Inv (fun s => M s (.ok a)) (f a) Post)
    (he : ∀ s e, M s (.error e) → Post s (.error e)) : Triple R Inv Pre (x >>= f) Post := by
  intro s hs
  refine (hx s hs).bind fun t r ht => ?_
  cases r with
  | ok a => exact hf a t ht
  | error e => exact ⟨refl_of R t, he t e ht⟩

theorem attempt {Post : σ → Except ε (Except ε α) → Prop}
    (hx : Triple R Inv Pre x fun s r => Post s (.ok r)) :
    Triple R Inv Pre (CallM.attempt x) Post := by
  intro s hs
  exact (hx s hs).bind fun t r ht => ⟨refl_of R t, ht⟩

end Preorder

theorem modifyGet {g : σ → α × σ} (hR : ∀ s, Pre s → R s (g s).2)
    (h : ∀ s, Pre s → Post (g s).2 (.ok (g s).1)) :
    Triple R Inv Pre (modifyGet g : CallM σ ι ρ ε α) Post :=
  fun s hs => ⟨hR s hs, h s hs⟩

theorem modify {g : σ → σ} {Post : σ → Except ε PUnit → Prop} (hR : ∀ s, Pre s → R s (g s))
    (h : ∀ s, Pre s → Post (g s) (.ok ⟨⟩)) :
    Triple R Inv Pre (modify g : CallM σ ι ρ ε PUnit) Post :=
  fun s hs => ⟨hR s hs, h s hs⟩

end Triple
end CallM
end Lib
end Lunar
