/-
# Numbers by first use

A list of names numbers them in the order of their first use (`number`).  An injective
renaming changes the names but not the numbers (`number_map`).
-/

import Mathlib.Data.Set.Function

namespace Lunar
namespace Lib

variable {α β : Type*} [DecidableEq α] [DecidableEq β]

/-- The number of a name, and the names with it. -/
def number (names : List α) (a : α) : ℕ × List α :=
  if a ∈ names then (names.idxOf a, names) else (names.length, names ++ [a])

theorem mem_number {names : List α} {a b : α} (h : b ∈ (number names a).2) : b ∈ names ∨ b = a := by
  unfold number at h
  split at h
  · exact .inl h
  · exact (List.mem_append.1 h).imp_right List.mem_singleton.1

theorem idxOf_map {f : α → β} {a : α} {names : List α} (h : ∀ b ∈ names, f b = f a → b = a) :
    (names.map f).idxOf (f a) = names.idxOf a := by
  induction names with
  | nil => rfl
  | cons b names ih =>
      rw [List.map_cons, List.idxOf_cons, List.idxOf_cons, ih fun c hc => h c (List.mem_cons_of_mem b hc)]
      by_cases hb : b = a
      · rw [hb, beq_self_eq_true, beq_self_eq_true]
      · have hfb : f b ≠ f a := fun heq => hb (h b List.mem_cons_self heq)
        rw [beq_false_of_ne hb, beq_false_of_ne hfb]

/-- **An injective renaming keeps the numbers.** -/
theorem number_map {s : Set α} {f : α → β} (hf : Set.InjOn f s) {names : List α}
    (hnames : ∀ b ∈ names, b ∈ s) {a : α} (ha : a ∈ s) :
    number (names.map f) (f a) = ((number names a).1, (number names a).2.map f) := by
  have hinj : ∀ b ∈ names, f b = f a → b = a := fun b hb heq => hf (hnames b hb) ha heq
  have hmem : f a ∈ names.map f ↔ a ∈ names := by
    constructor
    · intro h
      obtain ⟨b, hb, heq⟩ := List.mem_map.1 h
      exact hinj b hb heq ▸ hb
    · exact List.mem_map_of_mem
  unfold number
  by_cases h : a ∈ names
  · rw [if_pos h, if_pos (hmem.2 h), idxOf_map hinj]
  · rw [if_neg h, if_neg fun h' => h (hmem.1 h'), List.length_map, List.map_append]
    rfl

end Lib
end Lunar
