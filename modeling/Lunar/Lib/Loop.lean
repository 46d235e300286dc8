/-
# Loops

A loop takes turns until a turn has nothing to do.  What every turn keeps holds at the
end, and a measure that every turn makes smaller bounds the number of turns
(`loop_spec`).  A result without error comes from steps without error (`bind_ok`), and what
every turn over a numbered list keeps holds at its end (`foldlM_zipIdx`, `foldl_zipIdx`).
-/

import Mathlib.Data.Nat.Notation

namespace Lunar
namespace Lib

/-- The state after the last turn, if it comes within `n` turns. -/
def loop {σ : Type*} (turn : σ → Option σ) : ℕ → σ → Option σ
  | 0, _ => none
  | n + 1, s =>
    match turn s with
    | none => some s
    | some s' => loop turn n s'

variable {σ : Type*} {turn : σ → Option σ}

theorem loop_done {s : σ} (h : turn s = none) (n : ℕ) : loop turn (n + 1) s = some s := by
  rw [loop, h]

theorem loop_turn {s s' : σ} (h : turn s = some s') (n : ℕ) :
    loop turn (n + 1) s = loop turn n s' := by
  rw [loop, h]

theorem loop_succ {n : ℕ} {s t : σ} (h : loop turn n s = some t) :
    loop turn (n + 1) s = some t := by
  induction n generalizing s with
  | zero => cases h
  | succ n ih =>
      cases hs : turn s with
      | none => rwa [loop_done hs] at h ⊢
      | some s' =>
          rw [loop_turn hs] at h ⊢
          exact ih h

/-- More turns than needed change nothing. -/
theorem loop_mono {n m : ℕ} {s t : σ} (h : loop turn n s = some t) (hm : n ≤ m) :
    loop turn m s = some t := by
  induction hm with
  | refl => exact h
  | step _ ih => exact loop_succ ih

/-- **What the turns keep holds at the end**, which comes when the measure is used up. -/
theorem loop_spec {Inv : σ → Prop} {todo : σ → ℕ}
    (hturn : ∀ s s', Inv s → turn s = some s' → Inv s' ∧ todo s' < todo s) {s : σ} (hs : Inv s) :
    ∃ t, Inv t ∧ turn t = none ∧ ∀ n, todo s < n → loop turn n s = some t := by
  induction hk : todo s using Nat.strongRecOn generalizing s with
  | ind k ih =>
      cases h : turn s with
      | none =>
          refine ⟨s, hs, h, fun n hn => ?_⟩
          obtain ⟨m, rfl⟩ := Nat.exists_eq_succ_of_ne_zero (Nat.ne_of_gt (Nat.zero_lt_of_lt hn))
          exact loop_done h m
      | some s' =>
          obtain ⟨hinv, hlt⟩ := hturn s s' hs h
          obtain ⟨t, ht, hend, hloop⟩ := ih (todo s') (hk ▸ hlt) hinv rfl
          refine ⟨t, ht, hend, fun n hn => ?_⟩
          obtain ⟨m, rfl⟩ := Nat.exists_eq_succ_of_ne_zero (Nat.ne_of_gt (Nat.zero_lt_of_lt hn))
          have hm : todo s' < m := by omega
          rw [loop_turn h]
          exact hloop m hm

/-! ## Results -/

theorem bind_ok {ε α β : Type} {x : Except ε α} {f : α → Except ε β} {b : β}
    (h : x >>= f = .ok b) : ∃ a, x = .ok a ∧ f a = .ok b := by
  cases x with
  | error e => cases h
  | ok a => exact ⟨a, rfl, h⟩

theorem bind_error {ε α β : Type} {x : Except ε α} {f : α → Except ε β} {e : ε}
    (h : x >>= f = .error e) : x = .error e ∨ ∃ a, x = .ok a ∧ f a = .error e := by
  cases x with
  | error e' => exact .inl (congrArg Except.error (Except.error.inj h))
  | ok a => exact .inr ⟨a, rfl, h⟩

/-! ## Turns over a numbered list -/

theorem foldlM_zipIdx_from {ε α σ : Type} {P : ℕ → σ → Prop} {f : σ → α × ℕ → Except ε σ} (k : ℕ)
    {xs : List α}
    (step : ∀ i x s s', xs[i]? = some x → P (k + i) s → f s (x, k + i) = .ok s' → P (k + i + 1) s')
    {s t : σ} (hs : P k s) (h : (xs.zipIdx k).foldlM f s = .ok t) : P (k + xs.length) t := by
  induction xs generalizing k s with
  | nil => exact Except.ok.inj h ▸ hs
  | cons x xs ih =>
      rw [List.zipIdx_cons, List.foldlM_cons] at h
      obtain ⟨u, hu, h⟩ := bind_ok h
      have hnext := ih (k + 1) (fun i y v w hy hv hw => by
        have hi : k + 1 + i = k + (i + 1) := by omega
        rw [hi] at hv hw ⊢
        exact step (i + 1) y v w hy hv hw) (step 0 x s u rfl hs hu) h
      rw [List.length_cons, Nat.add_comm xs.length 1, ← Nat.add_assoc]
      exact hnext

theorem foldlM_zipIdx {ε α σ : Type} {P : ℕ → σ → Prop} {f : σ → α × ℕ → Except ε σ}
    {xs : List α}
    (step : ∀ i x s s', xs[i]? = some x → P i s → f s (x, i) = .ok s' → P (i + 1) s')
    {s t : σ} (hs : P 0 s) (h : xs.zipIdx.foldlM f s = .ok t) : P xs.length t := by
  have hrun := foldlM_zipIdx_from (P := P) 0 (fun i x u v hx hu hv => by
    rw [Nat.zero_add] at hu hv ⊢
    exact step i x u v hx hu hv) hs h
  rwa [Nat.zero_add] at hrun

theorem foldl_zipIdx {α σ : Type} {P : ℕ → σ → Prop} {f : σ → α × ℕ → σ} {xs : List α}
    (step : ∀ i x s, xs[i]? = some x → P i s → P (i + 1) (f s (x, i))) {s : σ} (hs : P 0 s) :
    P xs.length (xs.zipIdx.foldl f s) := by
  refine foldlM_zipIdx (ε := Unit) (f := fun s e => .ok (f s e)) (fun i x u v hx hu hv => ?_) hs ?_
  · rw [← Except.ok.inj hv]
    exact step i x u hx hu
  · clear hs step
    generalize xs.zipIdx = es
    induction es generalizing s with
    | nil => rfl
    | cons e es ih => exact ih

/-- **A loop whose turns all come to a result** comes to one. -/
theorem exists_foldlM_zipIdx {α σ : Type} {P : ℕ → σ → Prop} {f : σ → α × ℕ → Option σ} (k : ℕ)
    {xs : List α}
    (step : ∀ i x s, xs[i]? = some x → P (k + i) s → ∃ s', f s (x, k + i) = some s' ∧
      P (k + i + 1) s') {s : σ} (hs : P k s) :
    ∃ t, (xs.zipIdx k).foldlM f s = some t ∧ P (k + xs.length) t := by
  induction xs generalizing k s with
  | nil => exact ⟨s, rfl, hs⟩
  | cons x xs ih =>
      obtain ⟨u, hu, hP⟩ := step 0 x s rfl hs
      obtain ⟨t, ht, hPt⟩ := ih (k + 1) (fun i y v hy hv => by
        have hi : k + 1 + i = k + (i + 1) := by omega
        rw [hi] at hv ⊢
        exact step (i + 1) y v hy hv) hP
      refine ⟨t, ?_, ?_⟩
      · rw [List.zipIdx_cons, List.foldlM_cons]
        exact Option.bind_eq_some_iff.2 ⟨u, hu, ht⟩
      · rwa [List.length_cons, Nat.add_comm xs.length 1, ← Nat.add_assoc]

theorem elim_ok {ε α : Type} {x : Option α} {e : ε} {a : α}
    (h : x.elim (.error e) .ok = Except.ok (α := α) a) : x = some a := by
  cases x with
  | none => cases h
  | some b =>
      cases h
      rfl

end Lib
end Lunar
