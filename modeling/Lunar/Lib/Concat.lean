/-
# Lists that grow at their end

A table that hands out places is a list that grows at its end: what has a place keeps it, and the
new entry stands at the old length.
-/

import Mathlib.Data.List.Basic

namespace Lunar
namespace Lib

variable {α : Type} {xs ys : List α} {a b : α} {i : ℕ}

theorem getElem?_concat : (xs ++ [a])[i]? = some b ↔ xs[i]? = some b ∨ i = xs.length ∧ a = b := by
  rcases Nat.lt_trichotomy i xs.length with hlt | rfl | hlt
  · rw [List.getElem?_append_left hlt, or_iff_left fun h => Nat.ne_of_lt hlt h.1]
  · simp
  · have hlen : (xs ++ [a]).length ≤ i := by
      rw [List.length_append]
      exact hlt
    rw [List.getElem?_eq_none hlen, List.getElem?_eq_none (Nat.le_of_lt hlt)]
    exact iff_of_false nofun fun h => h.elim nofun fun h => Nat.ne_of_gt hlt h.1

theorem lt_of_getElem? (h : xs[i]? = some a) : i < xs.length := (List.getElem?_eq_some_iff.1 h).1

theorem getElem?_of_prefix (h : xs <+: ys) (ha : xs[i]? = some a) : ys[i]? = some a := by
  obtain ⟨zs, rfl⟩ := h
  rw [List.getElem?_append_left (lt_of_getElem? ha), ha]

end Lib
end Lunar
