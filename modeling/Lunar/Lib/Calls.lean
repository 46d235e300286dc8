/-
# Computations that call out

A computation of an interpreter acts on a state, and now and then it has to run
something else, of which it only sees the answer and the state after it.  `Calls` is the
tree of what it does: it ends, or it asks for a call and goes on with any answer.

`Follows R s c`: from `s` on, whatever the computation does itself is described by `R`,
between its start and its first call and between the return of a call and the next.  An
invariant of the states is the case where `R` says that it is kept, so a proof about
a long computation is a proof about its parts (`Follows.bind`), and a computation on
a part of a state follows what it follows there (`Follows.zoom`).
-/

import Mathlib.Order.Defs.Unbundled

namespace Lunar
namespace Lib

/-- The computation has ended in a state, or asks for the call `i`. -/
inductive Calls (σ ι ρ α : Type)
  | done (s : σ) (a : α)
  | call (s : σ) (i : ι) (k : σ → ρ → Calls σ ι ρ α)

namespace Calls

variable {σ τ ι ρ α β : Type}

def bind : Calls σ ι ρ α → (σ → α → Calls σ ι ρ β) → Calls σ ι ρ β
  | .done s a, f => f s a
  | .call s i k, f => .call s i fun t r => (k t r).bind f

/-- A computation on a part of a state. -/
def zoom (part : τ → σ) (put : τ → σ → τ) : Calls σ ι ρ α → τ → Calls τ ι ρ α
  | .done s a, t => .done (put t s) a
  | .call s i k, t => .call (put t s) i fun u r => (k (part u) r).zoom part put u

/-- What the computation does by itself from `s` on is described by `R`. -/
def Follows (R : σ → σ → Prop) : σ → Calls σ ι ρ α → Prop
  | s, .done t _ => R s t
  | s, .call t _ k => R s t ∧ ∀ u r, Follows R u (k u r)

namespace Follows

variable {R Q : σ → σ → Prop} {s : σ} {c : Calls σ ι ρ α}

theorem mono (h : c.Follows R s) (hRQ : ∀ s t, R s t → Q s t) : c.Follows Q s := by
  induction c generalizing s with
  | done t a => exact hRQ _ _ h
  | call t i k ih => exact ⟨hRQ _ _ h.1, fun u r => ih u r (h.2 u r)⟩

/-- What comes before a computation counts with its first part. -/
theorem after [IsTrans σ R] {s' : σ} (hs : R s' s) (h : c.Follows R s) : c.Follows R s' := by
  cases c with
  | done t a => exact IsTrans.trans _ _ _ hs h
  | call t i k => exact ⟨IsTrans.trans _ _ _ hs h.1, h.2⟩

/-- **Sequences.** -/
theorem bind [IsTrans σ R] {f : σ → α → Calls σ ι ρ β} (h : c.Follows R s)
    (hf : ∀ t a, (f t a).Follows R t) : (c.bind f).Follows R s := by
  induction c generalizing s with
  | done t a => exact (hf t a).after h
  | call t i k ih => exact ⟨h.1, fun u r => ih u r (h.2 u r)⟩

/-- **Parts of a state.**  A part that follows `R` makes the whole follow `Q`, where `Q`
allows to replace the part by one that `R` leads to. -/
theorem zoom {Q : τ → τ → Prop} {part : τ → σ} {put : τ → σ → τ} {t : τ}
    (h : c.Follows R (part t)) (hput : ∀ t s, R (part t) s → Q t (put t s)) :
    (c.zoom part put t).Follows Q t := by
  induction c generalizing t with
  | done s a => exact hput _ _ h
  | call s i k ih => exact ⟨hput _ _ h.1, fun u r => ih (part u) r (h.2 _ r)⟩

end Follows
end Calls

/-! ## The monad of such computations -/

/-- A computation that may also fail. -/
def CallM (σ ι ρ ε α : Type) : Type := σ → Calls σ ι ρ (Except ε α)

namespace CallM

variable {σ τ ι ρ ε α β : Type}

protected def pure (a : α) : CallM σ ι ρ ε α := fun s => .done s (.ok a)

protected def bind (x : CallM σ ι ρ ε α) (f : α → CallM σ ι ρ ε β) : CallM σ ι ρ ε β :=
  fun s => (x s).bind fun t r =>
    match r with
    | .ok a => f a t
    | .error e => .done t (.error e)

instance : Monad (CallM σ ι ρ ε) where
  pure := CallM.pure
  bind := CallM.bind

instance : MonadStateOf σ (CallM σ ι ρ ε) where
  get s := .done s (.ok s)
  set t _ := .done t (.ok ⟨⟩)
  modifyGet f s := .done (f s).2 (.ok (f s).1)

/-- A failure is met with the state it happened in. -/
instance : MonadExceptOf ε (CallM σ ι ρ ε) where
  throw e s := .done s (.error e)
  tryCatch x f s := (x s).bind fun t r =>
    match r with
    | .ok a => .done t (.ok a)
    | .error e => f e t

theorem id_map' (x : CallM σ ι ρ ε α) : id <$> x = x := by
  funext s
  change (x s).bind _ = x s
  generalize x s = c
  induction c with
  | done t r => cases r <;> rfl
  | call t i k ih => exact congrArg (Calls.call t i) (funext fun u => funext fun r => ih u r)

theorem bind_assoc' {γ : Type} (x : CallM σ ι ρ ε α) (f : α → CallM σ ι ρ ε β)
    (g : β → CallM σ ι ρ ε γ) : x >>= f >>= g = x >>= fun a => f a >>= g := by
  funext s
  change ((x s).bind _).bind _ = (x s).bind _
  generalize x s = c
  induction c with
  | done t r => cases r <;> rfl
  | call t i k ih => exact congrArg (Calls.call t i) (funext fun u => funext fun r => ih u r)

instance : LawfulMonad (CallM σ ι ρ ε) :=
  LawfulMonad.mk' _ id_map' (fun _ _ => rfl) bind_assoc'

/-- A call whose failure is the computation's own. -/
def request (i : ι) : CallM σ ι (Except ε α) ε α := fun s => .call s i fun t r => .done t r

/-- What a state gives, or fails to give. -/
def reading (f : σ → Except ε α) : CallM σ ι ρ ε α := fun s => .done s (f s)

/-- A computation on a part of a state. -/
def zoom (part : τ → σ) (put : τ → σ → τ) (x : CallM σ ι ρ ε α) : CallM τ ι ρ ε α :=
  fun t => (x (part t)).zoom part put t

theorem bind_done {x : CallM σ ι ρ ε α} {f : α → CallM σ ι ρ ε β} {s t : σ} {a : α}
    (hx : x s = .done t (.ok a)) : (x >>= f) s = f a t := by
  show (x s).bind _ = _
  rw [hx]
  rfl

theorem bind_error {x : CallM σ ι ρ ε α} {f : α → CallM σ ι ρ ε β} {s t : σ} {e : ε}
    (hx : x s = .done t (.error e)) : (x >>= f) s = .done t (.error e) := by
  show (x s).bind _ = _
  rw [hx]
  rfl

/-- The computation follows `R` from every state. -/
def Follows (R : σ → σ → Prop) (x : CallM σ ι ρ ε α) : Prop := ∀ s, (x s).Follows R s

namespace Follows

variable {R Q : σ → σ → Prop} {x : CallM σ ι ρ ε α} {f : α → CallM σ ι ρ ε β}

theorem mono (h : x.Follows R) (hRQ : ∀ s t, R s t → Q s t) : x.Follows Q :=
  fun s => (h s).mono hRQ

theorem modify {g : σ → σ} (h : ∀ s, R s (g s)) : (modify g : CallM σ ι ρ ε PUnit).Follows R := h

theorem modifyGet {g : σ → α × σ} (h : ∀ s, R s (g s).2) :
    (modifyGet g : CallM σ ι ρ ε α).Follows R :=
  h

section Preorder

variable [IsPreorder σ R]

theorem pure (a : α) : (pure a : CallM σ ι ρ ε α).Follows R := fun s => refl_of R s

theorem throw (e : ε) : (throw e : CallM σ ι ρ ε α).Follows R := fun s => refl_of R s

theorem reading (g : σ → Except ε α) : (reading g : CallM σ ι ρ ε α).Follows R :=
  fun s => refl_of R s

theorem get : (get : CallM σ ι ρ ε σ).Follows R := fun s => refl_of R s

theorem request (i : ι) : (request i : CallM σ ι (Except ε α) ε α).Follows R :=
  fun s => ⟨refl_of R s, fun u _ => refl_of R u⟩

/-- **Sequences.** -/
theorem bind (hx : x.Follows R) (hf : ∀ a, (f a).Follows R) : (x >>= f).Follows R := by
  intro s
  refine (hx s).bind fun t r => ?_
  cases r with
  | ok a => exact hf a t
  | error e => exact refl_of R t

theorem map (hx : x.Follows R) (g : α → β) : (g <$> x).Follows R :=
  bind hx fun _ => pure _

theorem tryCatch {h : ε → CallM σ ι ρ ε α} (hx : x.Follows R) (hh : ∀ e, (h e).Follows R) :
    (tryCatch x h).Follows R := by
  intro s
  refine (hx s).bind fun t r => ?_
  cases r with
  | ok a => exact refl_of R t
  | error e => exact hh e t

theorem mapM {γ : Type} {g : γ → CallM σ ι ρ ε α} (hg : ∀ c, (g c).Follows R) (xs : List γ) :
    (xs.mapM g).Follows R := by
  induction xs with
  | nil => exact pure _
  | cons c xs ih =>
      rw [List.mapM_cons]
      exact bind (hg c) fun _ => bind ih fun _ => pure _

end Preorder

/-- **Parts of a state.** -/
theorem zoom {Q : τ → τ → Prop} {part : τ → σ} {put : τ → σ → τ} (h : x.Follows R)
    (hput : ∀ t s, R (part t) s → Q t (put t s)) : (x.zoom part put).Follows Q :=
  fun t => (h (part t)).zoom hput

end Follows
end CallM
end Lib
end Lunar
