/-
# Merges

Two sorted lists are merged from their fronts.  `Merging r q whole m c d` is the state in between:
`m` has been taken, `c` and `d` are left, and elements of `c` may be compared with elements of `d`
(`q`).  What is taken next comes before all that is left of the other list, whether it is one
element or many.  The last element of `c` comes after all of `d`, so that `d` can be taken as a
whole once nothing else is left of `c`.
-/

import Mathlib.Data.List.Basic

namespace Lunar
namespace Lib

variable {α : Type} {r q : α → α → Prop}

structure Merging (r q : α → α → Prop) (whole m c d : List α) : Prop where
  perm : (m ++ c ++ d).Perm whole
  taken : m.Pairwise r
  left : c.Pairwise r
  right : d.Pairwise r
  onLeft : ∀ x ∈ m, ∀ y ∈ c, r x y
  onRight : ∀ x ∈ m, ∀ y ∈ d, r x y
  cross : ∀ x ∈ c, ∀ y ∈ d, q x y
  last : ∀ x ∈ c.getLast?, ∀ y ∈ d, r y x

namespace Merging

variable {whole m f c d : List α} {x y : α}

theorem takeLeft (h : Merging r q whole m (f ++ c) d) (hc : ∀ x ∈ f, ∀ y ∈ d, r x y) :
    Merging r q whole (m ++ f) c d where
  perm := by simpa only [List.append_assoc] using h.perm
  taken := List.pairwise_append.2 ⟨h.taken, (List.pairwise_append.1 h.left).1,
    fun x hx y hy => h.onLeft x hx y (List.mem_append_left c hy)⟩
  left := (List.pairwise_append.1 h.left).2.1
  right := h.right
  onLeft x hx y hy := by
    rcases List.mem_append.1 hx with hx | hx
    · exact h.onLeft x hx y (List.mem_append_right f hy)
    · exact (List.pairwise_append.1 h.left).2.2 x hx y hy
  onRight x hx y hy := by
    rcases List.mem_append.1 hx with hx | hx
    · exact h.onRight x hx y hy
    · exact hc x hx y hy
  cross x hx := h.cross x (List.mem_append_right f hx)
  last x hx := h.last x (by simp [List.getLast?_append, Option.mem_def.1 hx])

theorem takeRight (h : Merging r q whole m c (f ++ d)) (hd : ∀ y ∈ f, ∀ x ∈ c, r y x) :
    Merging r q whole (m ++ f) c d where
  perm := by
    have hswap : (m ++ f ++ c ++ d).Perm (m ++ c ++ (f ++ d)) := by
      simp only [List.append_assoc]
      refine .append_left m ?_
      rw [← List.append_assoc, ← List.append_assoc]
      exact .append_right d List.perm_append_comm
    exact hswap.trans h.perm
  taken := List.pairwise_append.2 ⟨h.taken, (List.pairwise_append.1 h.right).1,
    fun x hx y hy => h.onRight x hx y (List.mem_append_left d hy)⟩
  left := h.left
  right := (List.pairwise_append.1 h.right).2.1
  onLeft x hx y hy := by
    rcases List.mem_append.1 hx with hx | hx
    · exact h.onLeft x hx y hy
    · exact hd x hx y hy
  onRight x hx y hy := by
    rcases List.mem_append.1 hx with hx | hx
    · exact h.onRight x hx y (List.mem_append_right f hy)
    · exact (List.pairwise_append.1 h.right).2.2 x hx y hy
  cross x hx y hy := h.cross x hx y (List.mem_append_right f hy)
  last x hx y hy := h.last x hx y (List.mem_append_right f hy)

/-- What comes before the first element that is left comes before all of them. -/
theorem before_left (hr : ∀ {x y z}, r x y → r y z → r x z)
    (h : Merging r q whole m (x :: c) d) (hy : r y x) : ∀ z ∈ x :: c, r y z := by
  intro z hz
  rcases List.mem_cons.1 hz with rfl | hz
  · exact hy
  · exact hr hy ((List.pairwise_cons.1 h.left).1 z hz)

theorem before_right (hr : ∀ {x y z}, r x y → r y z → r x z)
    (h : Merging r q whole m c (y :: d)) (hx : r x y) : ∀ z ∈ y :: d, r x z := by
  intro z hz
  rcases List.mem_cons.1 hz with rfl | hz
  · exact hx
  · exact hr hx ((List.pairwise_cons.1 h.right).1 z hz)

/-- **The end of a merge**, when the second list is used up, -/
theorem sorted_left (h : Merging r q whole m c []) :
    (m ++ c).Perm whole ∧ (m ++ c).Pairwise r :=
  ⟨by simpa using h.perm, List.pairwise_append.2 ⟨h.taken, h.left, h.onLeft⟩⟩

/-- when the first one is used up, -/
theorem sorted_right (h : Merging r q whole m [] d) :
    (m ++ d).Perm whole ∧ (m ++ d).Pairwise r :=
  ⟨by simpa using h.perm, List.pairwise_append.2 ⟨h.taken, h.right, h.onRight⟩⟩

/-- or when one element of the first one is left. -/
theorem sorted_last (h : Merging r q whole m [x] d) :
    (m ++ d ++ [x]).Perm whole ∧ (m ++ d ++ [x]).Pairwise r :=
  sorted_left (takeRight (d := []) (by simpa using h) fun y hy z hz =>
    h.last z (by simp [List.mem_singleton.1 hz]) y hy)

end Merging
end Lib
end Lunar
