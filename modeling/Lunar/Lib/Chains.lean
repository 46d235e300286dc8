/-
# Chains of a partial injection

A partial function that is injective links its points to chains.  From points that nothing
is linked to, different chains never meet and none meets itself (`after_unique`), so among
finitely many points every chain comes to an end (`exists_chain`).
-/

import Mathlib.Data.List.FinRange
import Mathlib.Data.List.Nodup
import Mathlib.Data.List.Perm.Subperm

namespace Lunar
namespace Lib

/-- The point `k` links after a point. -/
def after {α : Type*} (next : α → Option α) : ℕ → α → Option α
  | 0, a => some a
  | k + 1, a => (after next k a).bind next

/-- The chain from a point, if it ends within `n` points. -/
def chain {α : Type*} (next : α → Option α) : ℕ → α → Option (List α)
  | 0, _ => none
  | n + 1, a =>
    match next a with
    | none => some [a]
    | some b => (chain next n b).map (a :: ·)

section Chains

variable {α : Type*} {next : α → Option α}

theorem after_succ (k : ℕ) (a : α) : after next (k + 1) a = (next a).bind (after next k) := by
  induction k generalizing a with
  | zero =>
      show (some a).bind next = (next a).bind some
      rw [Option.bind_some, Option.bind_fun_some]
  | succ k ih =>
      show (after next (k + 1) a).bind next = _
      rw [ih, Option.bind_assoc]
      rfl

/-- The links of an injection, and points where chains start. -/
structure Links (next : α → Option α) (starts : α → Prop) : Prop where
  inj : ∀ {a b c}, next a = some c → next b = some c → a = b
  fresh : ∀ {a b}, next a = some b → ¬ starts b

/-- **Chains never meet**: a point is on one chain at most, and there once. -/
theorem Links.after_unique {starts : α → Prop} (h : Links next starts) {s s' x : α}
    (hs : starts s) (hs' : starts s') {k k' : ℕ} (hx : after next k s = some x)
    (hx' : after next k' s' = some x) : s = s' ∧ k = k' := by
  induction k generalizing k' x with
  | zero =>
      cases hx
      cases k' with
      | zero =>
          cases hx'
          exact ⟨rfl, rfl⟩
      | succ k' =>
          obtain ⟨y, -, hy⟩ := Option.bind_eq_some_iff.1 hx'
          exact absurd hs (h.fresh hy)
  | succ k ih =>
      obtain ⟨y, hy, hyx⟩ := Option.bind_eq_some_iff.1 hx
      cases k' with
      | zero =>
          cases hx'
          exact absurd hs' (h.fresh hyx)
      | succ k' =>
          obtain ⟨y', hy', hyx'⟩ := Option.bind_eq_some_iff.1 hx'
          rw [h.inj hyx hyx'] at hy
          obtain ⟨heq, hk⟩ := ih hy hy'
          exact ⟨heq, congrArg (· + 1) hk⟩

/-- The points of a chain are those after its start. -/
theorem chain_getElem? {n : ℕ} {a : α} {xs : List α} (h : chain next n a = some xs) (k : ℕ) :
    xs[k]? = after next k a := by
  induction n generalizing a xs k with
  | zero => cases h
  | succ n ih =>
      rw [chain] at h
      cases hn : next a with
      | none =>
          rw [hn] at h
          cases h
          cases k with
          | zero => rfl
          | succ k =>
              rw [after_succ, hn]
              rfl
      | some b =>
          rw [hn] at h
          obtain ⟨ys, hys, rfl⟩ := Option.map_eq_some_iff.1 h
          cases k with
          | zero => rfl
          | succ k =>
              rw [after_succ, hn, Option.bind_some, List.getElem?_cons_succ]
              exact ih hys k

theorem chain_mem {n : ℕ} {a x : α} {xs : List α} (h : chain next n a = some xs) :
    x ∈ xs ↔ ∃ k, after next k a = some x := by
  rw [List.mem_iff_getElem?]
  simp only [chain_getElem? h]

/-- A chain that is long enough has no end yet. -/
theorem after_of_chain_none {n : ℕ} {a : α} (h : chain next n a = none) :
    ∀ k < n, ∃ x, after next k a = some x := by
  induction n generalizing a with
  | zero => exact fun k hk => absurd hk (Nat.not_lt_zero k)
  | succ n ih =>
      intro k hk
      rw [chain] at h
      cases hn : next a with
      | none =>
          rw [hn] at h
          cases h
      | some b =>
          rw [hn] at h
          cases k with
          | zero => exact ⟨a, rfl⟩
          | succ k =>
              rw [after_succ, hn, Option.bind_some]
              exact ih (Option.map_eq_none_iff.1 h) k (by omega)

theorem chain_succ {n : ℕ} {a : α} {xs : List α} (h : chain next n a = some xs) :
    chain next (n + 1) a = some xs := by
  induction n generalizing a xs with
  | zero => cases h
  | succ n ih =>
      rw [chain] at h ⊢
      cases hn : next a with
      | none =>
          rw [hn] at h
          exact h
      | some b =>
          rw [hn] at h
          obtain ⟨ys, hys, rfl⟩ := Option.map_eq_some_iff.1 h
          show (chain next (n + 1) b).map _ = _
          rw [ih hys]
          rfl

theorem chain_mono {n m : ℕ} {a : α} {xs : List α} (h : chain next n a = some xs) (hm : n ≤ m) :
    chain next m a = some xs := by
  induction hm with
  | refl => exact h
  | step _ ih => exact chain_succ ih

/-- **Among finitely many points a chain ends**, and meets no point twice. -/
theorem Links.exists_chain {starts : α → Prop} (h : Links next starts) {s : α} (hs : starts s)
    (points : List α) (hp : ∀ k x, after next k s = some x → x ∈ points) :
    ∃ xs, xs.Nodup ∧ ∀ m, points.length < m → chain next m s = some xs := by
  have hend : ∃ xs, chain next (points.length + 1) s = some xs := by
    rw [← Option.isSome_iff_exists, ← Option.ne_none_iff_isSome]
    intro hnone
    have hafter := after_of_chain_none hnone
    choose f hf using hafter
    have hnodup : (List.ofFn fun i : Fin (points.length + 1) => f i i.2).Nodup := by
      rw [List.nodup_ofFn]
      intro i j hij
      have hj := hf j j.2
      dsimp only at hij
      rw [← hij] at hj
      exact Fin.ext (h.after_unique hs hs (hf i i.2) hj).2
    have hsub : (List.ofFn fun i : Fin (points.length + 1) => f i i.2) ⊆ points := by
      intro x hx
      obtain ⟨i, rfl⟩ := List.mem_ofFn.1 hx
      exact hp i _ (hf i i.2)
    have hle := (List.Nodup.subperm hnodup hsub).length_le
    rw [List.length_ofFn] at hle
    omega
  obtain ⟨xs, hxs⟩ := hend
  refine ⟨xs, ?_, fun m hm => chain_mono hxs hm⟩
  rw [List.nodup_iff_getElem?_ne_getElem?]
  intro i j hij hj heq
  obtain ⟨x, hx⟩ : ∃ x, xs[j]? = some x := ⟨_, List.getElem?_eq_some_iff.2 ⟨hj, rfl⟩⟩
  rw [hx, chain_getElem? hxs] at heq
  rw [chain_getElem? hxs] at hx
  exact absurd (h.after_unique hs hs heq hx).2 (Nat.ne_of_lt hij)

end Chains
end Lib
end Lunar
