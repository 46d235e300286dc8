/-
# Graph search with a stack of work

A search keeps the nodes that it has seen and those that it still has to visit.  What it
keeps is `Searched`; at the end, without work, the nodes seen are those that the root
reaches (`Searched.done`), whether a node is marked when it is taken from the work or when
it is put there.
-/

import Mathlib.Data.Set.Insert
import Mathlib.Logic.Relation

namespace Lunar
namespace Lib

/-- What the root leads to. -/
abbrev Reach {α : Type*} (next : α → α → Prop) (root a : α) : Prop :=
  Relation.ReflTransGen next root a

/-- The nodes seen and those of the work are reachable, the root is among them, and what
follows a node seen is. -/
structure Searched {α : Type*} (next : α → α → Prop) (root : α) (seen : Set α) (work : List α) :
    Prop where
  sound : ∀ a, a ∈ seen ∨ a ∈ work → Reach next root a
  root : root ∈ seen ∨ root ∈ work
  closed : ∀ a b, a ∈ seen → next a b → b ∈ seen ∨ b ∈ work

namespace Searched

variable {α : Type*} {next : α → α → Prop} {root : α} {seen : Set α} {work : List α}

theorem start : Searched next root ∅ [root] where
  sound a h := by
    rcases h with h | h
    · exact absurd h (Set.notMem_empty a)
    · rw [List.mem_singleton.1 h]
  root := .inr (List.mem_singleton.2 rfl)
  closed a _ h := absurd h (Set.notMem_empty a)

/-- A node seen before is dropped from the work. -/
theorem skip {a : α} (h : Searched next root seen (a :: work)) (ha : a ∈ seen) :
    Searched next root seen work where
  sound b hb := h.sound b (hb.imp_right (List.mem_cons_of_mem a))
  root := by
    rcases h.root with hr | hr
    · exact .inl hr
    · rcases List.mem_cons.1 hr with rfl | hr
      · exact .inl ha
      · exact .inr hr
  closed b c hb hc := by
    rcases h.closed b c hb hc with hc | hc
    · exact .inl hc
    · rcases List.mem_cons.1 hc with rfl | hc
      · exact .inl ha
      · exact .inr hc

/-- A node is seen when what follows it is seen or put to the work. -/
theorem visit {a : α} (h : Searched next root seen (a :: work)) {work' : List α}
    (hsound : ∀ b ∈ work', next a b ∨ b ∈ work) (hkeep : work ⊆ work')
    (hnext : ∀ b, next a b → b ∈ insert a seen ∨ b ∈ work') :
    Searched next root (insert a seen) work' where
  sound b hb := by
    have hroot : Reach next root a := h.sound a (.inr List.mem_cons_self)
    rcases hb with (rfl | hb) | hb
    · exact hroot
    · exact h.sound b (.inl hb)
    · rcases hsound b hb with hb | hb
      · exact hroot.tail hb
      · exact h.sound b (.inr (List.mem_cons_of_mem a hb))
  root := by
    rcases h.root with hr | hr
    · exact .inl (Set.mem_insert_of_mem a hr)
    · rcases List.mem_cons.1 hr with rfl | hr
      · exact .inl (Set.mem_insert _ _)
      · exact .inr (hkeep hr)
  closed b c hb hc := by
    rcases hb with rfl | hb
    · exact hnext c hc
    · rcases h.closed b c hb hc with hc | hc
      · exact .inl (Set.mem_insert_of_mem a hc)
      · rcases List.mem_cons.1 hc with rfl | hc
        · exact .inl (Set.mem_insert _ _)
        · exact .inr (hkeep hc)

/-- **Without work left, exactly the reachable nodes have been seen.** -/
theorem done (h : Searched next root seen []) (a : α) : a ∈ seen ↔ Reach next root a := by
  constructor
  · exact fun ha => h.sound a (.inl ha)
  · intro ha
    induction ha with
    | refl =>
        rcases h.root with hr | hr
        · exact hr
        · cases hr
    | tail _ hstep ih =>
        rcases h.closed _ _ ih hstep with hb | hb
        · exact hb
        · cases hb

end Searched
end Lib
end Lunar
