/-
# Tables of shared nodes

A table holds nodes that refer to each other by number: a node has a kind and parts.  A number
stands for the tree that it unfolds to, in which nothing is shared.  Two tables unfold alike along
a renaming that keeps kinds and parts (`unfold_rename`), and when the parts of a node have smaller
numbers than it has, its tree is finite (`unfold_isSome`).

Numbers that are left after others are dropped are renamed to their rank (`Nat.count`), which is
one to one onto the numbers of the new table (`exists_count`).
-/

import Mathlib.Data.Nat.Count

namespace Lunar
namespace Lib

/-- A node and the trees of its parts. -/
inductive Rose (κ : Type)
  | node (kind : κ) (parts : List (Rose κ))

variable {κ : Type}

/-- The tree of a number, if it is at most `fuel` deep. -/
def unfold (nodes : ℕ → Option (κ × List ℕ)) : ℕ → ℕ → Option (Rose κ)
  | 0, _ => none
  | fuel + 1, a => do
    let (kind, parts) ← nodes a
    let trees ← parts.mapM (unfold nodes fuel)
    return .node kind trees

theorem unfold_succ (nodes : ℕ → Option (κ × List ℕ)) (fuel a : ℕ) :
    unfold nodes (fuel + 1) a = (nodes a).bind fun node =>
      (node.2.mapM (unfold nodes fuel)).map (.node node.1) := by
  rw [unfold]
  cases nodes a with
  | none => rfl
  | some node => cases hparts : node.2.mapM (unfold nodes fuel) <;> simp [hparts]

theorem mapM_congr {α β : Type} {f g : α → Option β} {xs : List α} (h : ∀ x ∈ xs, f x = g x) :
    xs.mapM f = xs.mapM g := by
  induction xs with
  | nil => rfl
  | cons x xs ih =>
      obtain ⟨hx, hxs⟩ := List.forall_mem_cons.1 h
      rw [List.mapM_cons, List.mapM_cons, hx, ih hxs]

theorem mapM_isSome {α β : Type} {f : α → Option β} {xs : List α} (h : ∀ x ∈ xs, (f x).isSome) :
    (xs.mapM f).isSome := by
  induction xs with
  | nil => rfl
  | cons x xs ih =>
      obtain ⟨hx, hxs⟩ := List.forall_mem_cons.1 h
      obtain ⟨y, hy⟩ := Option.isSome_iff_exists.1 hx
      obtain ⟨ys, hys⟩ := Option.isSome_iff_exists.1 (ih hxs)
      rw [List.mapM_cons, hy, hys]
      rfl

/-- Results that agree one by one agree as lists. -/
theorem map_mapM {α β α' β' γ : Type} {f : α → Option β} {f' : α' → Option β'} {g : α → α'}
    {k : β → γ} {k' : β' → γ} {xs : List α} (h : ∀ x ∈ xs, (f' (g x)).map k' = (f x).map k) :
    ((xs.map g).mapM f').map (List.map k') = (xs.mapM f).map (List.map k) := by
  induction xs with
  | nil => rfl
  | cons x xs ih =>
      obtain ⟨hx, hxs⟩ := List.forall_mem_cons.1 h
      have htail := ih hxs
      rw [List.map_cons, List.mapM_cons, List.mapM_cons]
      cases hf : f x with
      | none =>
          rw [hf, Option.map_none, Option.map_eq_none_iff] at hx
          rw [hx]
          rfl
      | some y =>
          rw [hf, Option.map_some] at hx
          obtain ⟨y', hy', hk⟩ := Option.map_eq_some_iff.1 hx
          rw [hy']
          cases hfs : xs.mapM f with
          | none =>
              rw [hfs, Option.map_none, Option.map_eq_none_iff] at htail
              rw [htail]
              rfl
          | some ys =>
              rw [hfs, Option.map_some] at htail
              obtain ⟨ys', hys', hks⟩ := Option.map_eq_some_iff.1 htail
              rw [hys']
              show some (k' y' :: ys'.map k') = some (k y :: ys.map k)
              rw [hk, hks]

/-- What a renaming keeps of a node: it is there, under its new number and with its parts renamed,
and its parts are among the nodes that are kept. -/
structure Renames (nodes nodes' : ℕ → Option (κ × List ℕ)) (f : ℕ → ℕ) (live : ℕ → Prop)
    (a : ℕ) : Prop where
  node : ∃ kind parts, nodes a = some (kind, parts) ∧ nodes' (f a) = some (kind, parts.map f)
  closed : ∀ kind parts, nodes a = some (kind, parts) → ∀ b ∈ parts, live b

/-- **A renaming keeps trees.** -/
theorem unfold_rename {nodes nodes' : ℕ → Option (κ × List ℕ)} {f : ℕ → ℕ} {live : ℕ → Prop}
    (h : ∀ a, live a → Renames nodes nodes' f live a) (fuel : ℕ) {a : ℕ} (ha : live a) :
    unfold nodes' fuel (f a) = unfold nodes fuel a := by
  induction fuel generalizing a with
  | zero => rfl
  | succ fuel ih =>
      obtain ⟨kind, parts, hnode, hnode'⟩ := (h a ha).node
      have hparts : (parts.map f).mapM (unfold nodes' fuel) = parts.mapM (unfold nodes fuel) := by
        rw [List.mapM_map]
        exact mapM_congr fun b hb => ih ((h a ha).closed kind parts hnode b hb)
      rw [unfold_succ, unfold_succ, hnode, hnode', Option.bind_some, Option.bind_some, hparts]

/-- **Nodes whose parts come before them have trees.** -/
theorem unfold_isSome {nodes : ℕ → Option (κ × List ℕ)} {n : ℕ}
    (h : ∀ a, a < n → ∃ kind parts, nodes a = some (kind, parts) ∧ ∀ b ∈ parts, b < a) (fuel : ℕ)
    {a : ℕ} (ha : a < n) (hfuel : a < fuel) : (unfold nodes fuel a).isSome := by
  induction fuel generalizing a with
  | zero => exact absurd hfuel (Nat.not_lt_zero a)
  | succ fuel ih =>
      obtain ⟨kind, parts, hnode, hparts⟩ := h a ha
      have htrees := mapM_isSome fun b hb =>
        ih ((hparts b hb).trans ha) (Nat.lt_of_lt_of_le (hparts b hb) (Nat.le_of_lt_succ hfuel))
      rw [unfold_succ, hnode, Option.bind_some, Option.isSome_map]
      exact htrees

/-- Every number below the count is a rank. -/
theorem exists_count (p : ℕ → Prop) [DecidablePred p] {n k : ℕ} (h : k < Nat.count p n) :
    ∃ a, a < n ∧ p a ∧ Nat.count p a = k := by
  induction n with
  | zero => exact absurd h (Nat.not_lt_zero k)
  | succ n ih =>
      rw [Nat.count_succ] at h
      by_cases hk : k < Nat.count p n
      · obtain ⟨a, ha, hp, hcount⟩ := ih hk
        exact ⟨a, Nat.lt_succ_of_lt ha, hp, hcount⟩
      · by_cases hp : p n
        · rw [if_pos hp] at h
          exact ⟨n, Nat.lt_succ_self n, hp, by omega⟩
        · rw [if_neg hp] at h
          exact absurd h hk

end Lib
end Lunar
