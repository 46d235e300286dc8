/-
# A graph cut into blocks

The nodes below a number are cut into blocks, each a range of numbers.  Inside a block the
only edge goes to the next node; an edge from the last node goes to the first node of a
block.  A node then leads to another exactly when it stands before it in one block, or its
block leads to the other's in the graph of the blocks (`Cut.reach_iff`).

A part of the graph of the blocks that its edges do not leave can be numbered anew
(`transGen_local`).
-/

import Mathlib.Data.List.Nodup
import Lunar.Lib.Search

namespace Lunar
namespace Lib

open Relation (TransGen ReflTransGen)

/-- The nodes below `n` are cut into blocks: `blockOf` gives the block of a node, `start`
and `stop` the range of a block, and `next` the edges between blocks. -/
structure Cut (n : ℕ) (edge : ℕ → ℕ → Prop) (blockOf start stop : ℕ → ℕ) (next : ℕ → ℕ → Prop) :
    Prop where
  mem : ∀ i < n, start (blockOf i) ≤ i ∧ i < stop (blockOf i)
  same : ∀ i < n, ∀ j, start (blockOf i) ≤ j → j < stop (blockOf i) → j < n ∧ blockOf j = blockOf i
  range : ∀ i j, edge i j → i < n ∧ j < n
  inside : ∀ i j, i < n → i + 1 < stop (blockOf i) → (edge i j ↔ j = i + 1)
  first : ∀ i j, edge i j → i + 1 = stop (blockOf i) → start (blockOf j) = j
  next : ∀ i l, i < n → i + 1 = stop (blockOf i) → (next (blockOf i) l ↔ ∃ j, edge i j ∧ blockOf j = l)

namespace Cut

variable {n : ℕ} {edge next : ℕ → ℕ → Prop} {blockOf start stop : ℕ → ℕ}

/-- A node leads to those after it in its block. -/
theorem forward (h : Cut n edge blockOf start stop next) {a b : ℕ} (ha : a < n) (hab : a ≤ b)
    (hb : b < stop (blockOf a)) : Reach edge a b := by
  induction hab with
  | refl => exact .refl
  | @step b hab ih =>
      have hlt : b < stop (blockOf a) := Nat.lt_of_succ_lt hb
      obtain ⟨hbn, hblock⟩ := h.same a ha b ((h.mem a ha).1.trans hab) hlt
      exact (ih hlt).tail ((h.inside b (b + 1) hbn (by rw [hblock]; exact hb)).2 rfl)

/-- The last node of a block. -/
theorem last (h : Cut n edge blockOf start stop next) {a : ℕ} (ha : a < n) :
    ∃ e < n, e + 1 = stop (blockOf a) ∧ blockOf e = blockOf a ∧ Reach edge a e := by
  obtain ⟨hstart, hstop⟩ := h.mem a ha
  have hlt : stop (blockOf a) - 1 < stop (blockOf a) := by omega
  obtain ⟨hn, hblock⟩ := h.same a ha (stop (blockOf a) - 1) (by omega) hlt
  exact ⟨_, hn, by omega, hblock, h.forward ha (by omega) hlt⟩

/-- An edge of the blocks, taken from a node to the first node of the next block. -/
theorem cross (h : Cut n edge blockOf start stop next) {a l : ℕ} (ha : a < n)
    (hnext : next (blockOf a) l) : ∃ j < n, blockOf j = l ∧ start l = j ∧ Reach edge a j := by
  obtain ⟨e, he, hstop, hblock, hreach⟩ := h.last ha
  rw [← hblock] at hstop hnext
  obtain ⟨j, hedge, rfl⟩ := (h.next e l he hstop).1 hnext
  exact ⟨j, (h.range e j hedge).2, rfl, h.first e j hedge hstop, hreach.tail hedge⟩

theorem cross_all (h : Cut n edge blockOf start stop next) {a l : ℕ} (ha : a < n)
    (hnext : TransGen next (blockOf a) l) :
    ∃ j < n, blockOf j = l ∧ start l = j ∧ Reach edge a j := by
  induction hnext with
  | single hnext => exact h.cross ha hnext
  | tail _ hnext ih =>
      obtain ⟨j, hj, rfl, -, hreach⟩ := ih
      obtain ⟨m, hm, hblock, hstart, hreach'⟩ := h.cross hj hnext
      exact ⟨m, hm, hblock, hstart, hreach.trans hreach'⟩

/-- An edge goes to the next node of its block, or along an edge of the blocks. -/
theorem edge_cases (h : Cut n edge blockOf start stop next) {i j : ℕ} (hedge : edge i j) :
    (j = i + 1 ∧ blockOf j = blockOf i) ∨
      (i + 1 = stop (blockOf i) ∧ start (blockOf j) = j ∧ next (blockOf i) (blockOf j)) := by
  obtain ⟨hi, -⟩ := h.range i j hedge
  obtain ⟨hstart, hstop⟩ := h.mem i hi
  rcases Nat.lt_or_eq_of_le hstop with hlt | heq
  · have hj := (h.inside i j hi hlt).1 hedge
    exact .inl ⟨hj, hj ▸ (h.same i hi (i + 1) (by omega) hlt).2⟩
  · exact .inr ⟨heq, h.first i j hedge heq, (h.next i _ hi heq).2 ⟨j, hedge, rfl⟩⟩

/-- **Paths of the nodes are paths of the blocks.** -/
theorem reach_iff (h : Cut n edge blockOf start stop next) {a b : ℕ} (ha : a < n) (hb : b < n) :
    Reach edge a b ↔
      (blockOf a = blockOf b ∧ a ≤ b) ∨ TransGen next (blockOf a) (blockOf b) := by
  constructor
  · intro hreach
    induction hreach with
    | refl => exact .inl ⟨rfl, Nat.le_refl a⟩
    | @tail c b _ hedge ih =>
        have hc := (h.range c b hedge).1
        rcases h.edge_cases hedge with ⟨hnext, hblock⟩ | ⟨-, -, hnext⟩
        · rw [hblock]
          exact (ih hc).imp_left fun ⟨hsame, hle⟩ => ⟨hsame, by omega⟩
        · rcases ih hc with ⟨hsame, -⟩ | hpath
          · rw [hsame]
            exact .inr (.single hnext)
          · exact .inr (hpath.tail hnext)
  · rintro (⟨hsame, hle⟩ | hpath)
    · exact h.forward ha hle (hsame ▸ (h.mem b hb).2)
    · obtain ⟨j, hj, hblock, hstart, hreach⟩ := h.cross_all ha hpath
      obtain ⟨hle, hlt⟩ := h.mem b hb
      exact hreach.trans (h.forward hj (hstart ▸ hle) (hblock ▸ hlt))

end Cut

/-- **A closed part of a graph numbered anew** has the same paths. -/
theorem transGen_local {next lnext : ℕ → ℕ → Prop} {own : List ℕ} (hnodup : own.Nodup)
    (hclosed : ∀ k l, k ∈ own → next k l → l ∈ own)
    (hrange : ∀ k l, k < own.length → lnext k l → l < own.length)
    (hlocal : ∀ k l (hk : k < own.length) (hl : l < own.length),
      lnext k l ↔ next own[k] own[l])
    {k l : ℕ} (hk : k < own.length) (hl : l < own.length) :
    TransGen lnext k l ↔ TransGen next own[k] own[l] := by
  constructor
  · intro hpath
    -- every place on the way is in range
    have hall : ∀ m, TransGen lnext k m → ∃ hm : m < own.length, TransGen next own[k] own[m] := by
      intro m hm
      induction hm with
      | single h => exact ⟨hrange k _ hk h, .single ((hlocal k _ hk _).1 h)⟩
      | @tail m m' _ h ih =>
          obtain ⟨hm, hpath⟩ := ih
          exact ⟨hrange m m' hm h, hpath.tail ((hlocal m m' hm _).1 h)⟩
    exact (hall l hpath).2
  · intro hpath
    have hall : ∀ x, TransGen next own[k] x →
        ∃ m, ∃ hm : m < own.length, own[m] = x ∧ TransGen lnext k m := by
      intro x hx
      induction hx with
      | single h =>
          obtain ⟨m, hm, rfl⟩ := List.mem_iff_getElem.1 (hclosed _ _ (List.getElem_mem hk) h)
          exact ⟨m, hm, rfl, .single ((hlocal k m hk hm).2 h)⟩
      | tail _ h ih =>
          obtain ⟨m, hm, rfl, hpath⟩ := ih
          obtain ⟨m', hm', rfl⟩ := List.mem_iff_getElem.1 (hclosed _ _ (List.getElem_mem hm) h)
          exact ⟨m', hm', rfl, hpath.tail ((hlocal m m' hm hm').2 h)⟩
    obtain ⟨m, hm, hsame, hpath⟩ := hall _ hpath
    exact (hnodup.getElem_inj_iff.1 hsame) ▸ hpath

end Lib
end Lunar
