/-
# The layout of the flat list

The items of a block lie together, in the range of the block, and `blockOf` gives each item
its block.  `prune` leaves the items where they are; it only takes blocks out of the lists of
predecessors (`flatBuild_spec`).
-/

import Mathlib.Algebra.BigOperators.Group.Finset.Piecewise
import Mathlib.Algebra.Order.BigOperators.Group.Finset
import Mathlib.Data.List.GetD
import Lunar.Payload.Probe

namespace Lunar
namespace Probe

open Lib (sweep sweep_fresh ahead Leads)
open Devirt (Expr Stmt Term Block Func)

/-! ## Ranges -/

@[simp] theorem mem_places (range : ℕ × ℕ) (i : ℕ) :
    i ∈ places range ↔ range.1 ≤ i ∧ i < range.2 := by
  rw [places, List.mem_range'_1]
  omega

theorem layout_length (start : ℕ) (bs : List Block) : (layout start bs).length = bs.length := by
  induction bs generalizing start with
  | nil => rfl
  | cons b bs ih =>
      rw [layout, List.length_cons, List.length_cons, ih]

/-- The ranges that are laid out from `start` on begin there or behind it. -/
theorem le_of_mem_layout {start : ℕ} {bs : List Block} {j i : ℕ}
    (h : i ∈ places ((layout start bs).getD j (0, 0))) : start ≤ i := by
  induction bs generalizing start j with
  | nil => simp [layout] at h
  | cons b bs ih =>
      rw [layout] at h
      rcases j with _ | j
      · exact ((mem_places _ _).1 h).1
      · exact le_trans (Nat.le_add_right _ _) (ih (by simpa using h))

/-- A range is as wide as its block has items. -/
theorem layout_width (start : ℕ) {bs : List Block} {j : ℕ} {b : Block} (h : bs[j]? = some b) :
    ((layout start bs).getD j (0, 0)).2
      = ((layout start bs).getD j (0, 0)).1 + (blockItems b).length := by
  induction bs generalizing start j with
  | nil => simp at h
  | cons b' bs ih =>
      rcases j with _ | j
      · obtain rfl : b' = b := by simpa using h
        simp [layout]
      · simpa [layout] using ih (start + (blockItems b').length) (j := j) (by simpa using h)

/-- The block of a place is the one whose range holds it. -/
theorem blockOf_layout (bs : List Block) (start k i b : ℕ) :
    ((bs.zipIdx k).flatMap fun e => (blockItems e.1).map fun _ => e.2)[i]? = some b
      ↔ k ≤ b ∧ start + i ∈ places ((layout start bs).getD (b - k) (0, 0)) := by
  induction bs generalizing start k i with
  | nil => simp [layout]
  | cons b0 bs ih =>
      have hlen : ((blockItems b0).map fun _ => k).length = (blockItems b0).length :=
        List.length_map ..
      rw [List.zipIdx_cons, List.flatMap_cons, layout]
      change (((blockItems b0).map fun _ => k) ++ _)[i]? = some b ↔ _
      by_cases hi : i < (blockItems b0).length
      · rw [List.getElem?_append_left (hlen ▸ hi), List.getElem?_map,
          List.getElem?_eq_getElem hi, Option.map_some, Option.some_inj]
        constructor
        · rintro rfl
          simp only [Nat.sub_self, List.getD_cons_zero, mem_places]
          omega
        · rintro ⟨hk, hmem⟩
          rcases hj : b - k with _ | j
          · omega
          · rw [hj, List.getD_cons_succ] at hmem
            have := le_of_mem_layout hmem
            omega
      · rw [List.getElem?_append_right (by omega), hlen,
          ih (start + (blockItems b0).length) (k + 1) (i - (blockItems b0).length),
          show start + (blockItems b0).length + (i - (blockItems b0).length) = start + i by omega]
        constructor
        · rintro ⟨hk, hmem⟩
          rw [show b - k = b - (k + 1) + 1 by omega, List.getD_cons_succ]
          exact ⟨by omega, hmem⟩
        · rintro ⟨hk, hmem⟩
          rcases hj : b - k with _ | j
          · rw [hj, List.getD_cons_zero, mem_places] at hmem
            omega
          · rw [hj, List.getD_cons_succ] at hmem
            rw [show b - (k + 1) = j by omega]
            exact ⟨by omega, hmem⟩

/-- A flat list whose blocks lie one after the other and whose edges stay in it. -/
structure Laid (fl : Flat) : Prop where
  owners : fl.blockOf.length = fl.items.length
  rows : fl.preds.length = fl.ranges.length
  preds : ∀ b, ∀ p ∈ fl.pred b, p < fl.ranges.length
  block : ∀ i b, fl.blockOf[i]? = some b ↔ i ∈ fl.range b

theorem mem_edges {f : Func} {p s : ℕ} :
    (p, s) ∈ edges f ↔ ∃ b, f.blocks[p]? = some b ∧ b.live = true ∧
      ((succ f b.term).1 = some s ∨ (succ f b.term).2 = some s) := by
  rw [edges, List.mem_flatMap]
  constructor
  · rintro ⟨⟨b, q⟩, hb, he⟩
    split at he
    · rename_i hlive
      obtain ⟨s', hs, heq⟩ := List.mem_map.1 he
      cases heq
      exact ⟨b, List.mem_zipIdx_iff_getElem?.1 hb, hlive, by simpa using hs⟩
    · cases he
  · rintro ⟨b, hb, hlive, hs⟩
    refine ⟨(b, p), List.mem_zipIdx_iff_getElem?.2 hb, ?_⟩
    rw [if_pos hlive]
    exact List.mem_map.2 ⟨s, by simpa using hs, rfl⟩

theorem local_lt {f : Func} {t s : ℕ} (h : local_ f t = some s) : s < f.blocks.length := by
  rw [local_] at h
  split at h
  · cases h
    omega
  · cases h

theorem succ_lt {f : Func} {t : Term} {s : ℕ}
    (h : (succ f t).1 = some s ∨ (succ f t).2 = some s) : s < f.blocks.length := by
  have hnone : ¬ ((none : Option ℕ) = some s) := by simp
  unfold succ at h
  split at h
  · exact local_lt (h.resolve_right hnone)
  · exact local_lt (h.resolve_right hnone)
  · exact h.elim local_lt local_lt
  · exact absurd (h.elim id id) hnone

/-- The listed predecessors of a block are those with an edge to it. -/
theorem mem_pred_flatten {f : Func} {p s : ℕ} :
    p ∈ (flatten f).pred s ↔ (p, s) ∈ edges f := by
  rw [Flat.pred, flatten]
  simp only [List.getD_eq_getElem?_getD, List.getElem?_map]
  by_cases hs : s < f.blocks.length
  · rw [List.getElem?_range hs, Option.map_some, Option.getD_some, List.mem_filterMap]
    constructor
    · rintro ⟨⟨q, t⟩, he, h⟩
      split at h
      · rename_i ht
        cases h
        exact ht ▸ he
      · cases h
    · intro he
      exact ⟨(p, s), he, if_pos rfl⟩
  · rw [List.getElem?_eq_none (by simpa using hs), Option.map_none, Option.getD_none]
    simp only [List.not_mem_nil, false_iff]
    intro he
    obtain ⟨b, -, -, hb⟩ := mem_edges.1 he
    exact hs (succ_lt hb)

theorem flatten_laid (f : Func) : Laid (flatten f) where
  owners := by
    simp only [flatten, List.length_flatMap, List.length_map]
    have hmap : f.blocks.zipIdx.map (fun e => (blockItems e.1).length)
        = (f.blocks.zipIdx.map Prod.fst).map fun b => (blockItems b).length := by
      rw [List.map_map]
      rfl
    rw [hmap, List.zipIdx_map_fst]
  rows := by simp [flatten, layout_length]
  preds b p hp := by
    obtain ⟨blk, hblk, -⟩ := mem_edges.1 (mem_pred_flatten.1 hp)
    rw [flatten, layout_length]
    exact (List.getElem?_eq_some_iff.1 hblk).1
  block i b := by
    have := blockOf_layout f.blocks 0 0 i b
    simpa [flatten, Flat.range] using this

/-! ## The blocks that are reached -/

/-- Each element of a list is counted for one number at most. -/
theorem sum_filter_length_le (n : ℕ) (ps : List ℕ) :
    ∑ a ∈ Finset.range n, (ps.filter (· = a)).length ≤ ps.length := by
  induction ps with
  | nil => simp
  | cons p ps ih =>
      have hcons (a : ℕ) : ((p :: ps).filter (· = a)).length
          = (if p = a then 1 else 0) + (ps.filter (· = a)).length := by
        rw [List.filter_cons]
        by_cases ha : p = a <;> simp [ha, Nat.add_comm]
      have hone : ∑ a ∈ Finset.range n, (if p = a then 1 else 0) ≤ 1 := by
        rw [Finset.sum_ite_eq]
        split <;> omega
      simp only [hcons, Finset.sum_add_distrib, List.length_cons]
      omega

/-- A list of lists is as long as the lists that it holds at its places. -/
theorem sum_range_length (xss : List (List ℕ)) :
    ∑ b ∈ Finset.range xss.length, (xss.getD b []).length = (xss.map List.length).sum := by
  induction xss with
  | nil => rfl
  | cons xs xss ih =>
      rw [List.length_cons, Finset.sum_range_succ', List.map_cons, List.sum_cons, ← ih,
        Nat.add_comm]
      simp

/-- What `ahead` counts is at most what follows all nodes. -/
theorem ahead_le {κ : Type} [DecidableEq κ] (next : ℕ → List ℕ) (stamp : κ) (n : ℕ)
    (seen : ℕ → κ) : ahead next stamp n seen ≤ ∑ a ∈ Finset.range n, (next a).length := by
  refine Finset.sum_le_sum fun a _ => ?_
  split
  · exact Nat.zero_le _
  · exact le_refl _

/-- The edges of the lists of predecessors. -/
def Edge (preds : List (List ℕ)) (p b : ℕ) : Prop := p ∈ preds.getD b []

/-- `reach` finds the blocks to which edges lead from block 0. -/
theorem reach_spec (preds : List (List ℕ)) (hn : 0 < preds.length) :
    ∃ s, reach preds = some s ∧
      ∀ a, s a = true ↔ Relation.ReflTransGen (Edge preds) 0 a := by
  set succs : ℕ → List ℕ := fun b => (List.range preds.length).flatMap fun t =>
    ((preds.getD t []).filter (· = b)).map fun _ => t with hsuccs
  have hmem (a b : ℕ) : b ∈ succs a ↔ Edge preds a b := by
    simp only [hsuccs, List.mem_flatMap, List.mem_range, List.mem_map, List.mem_filter,
      decide_eq_true_eq]
    constructor
    · rintro ⟨t, -, c, ⟨hc, rfl⟩, rfl⟩
      exact hc
    · intro hab
      refine ⟨b, ?_, a, ⟨hab, rfl⟩, rfl⟩
      by_contra hb
      rw [Edge, List.getD_eq_default _ _ (by omega)] at hab
      cases hab
  have hlt (a b : ℕ) (hb : b ∈ succs a) : b < preds.length := by
    obtain ⟨t, ht, hb⟩ := List.mem_flatMap.1 hb
    obtain ⟨-, -, rfl⟩ := List.mem_map.1 hb
    exact List.mem_range.1 ht
  have hsum : ∑ a ∈ Finset.range preds.length, (succs a).length ≤ (preds.map List.length).sum := by
    have hlen (a : ℕ) : (succs a).length
        = ∑ t ∈ Finset.range preds.length, ((preds.getD t []).filter (· = a)).length := by
      simp only [hsuccs, List.length_flatMap, List.length_map]
      rfl
    calc ∑ a ∈ Finset.range preds.length, (succs a).length
        = ∑ t ∈ Finset.range preds.length, ∑ a ∈ Finset.range preds.length,
            ((preds.getD t []).filter (· = a)).length := by
          simp only [hlen]
          exact Finset.sum_comm
      _ ≤ ∑ t ∈ Finset.range preds.length, (preds.getD t []).length :=
          Finset.sum_le_sum fun t _ => sum_filter_length_le _ _
      _ = (preds.map List.length).sum := sum_range_length preds
  obtain ⟨seen', visited, hrun, -, hvisited, hmarks⟩ := sweep_fresh succs (fun u _ => u)
    true (fun a b hb => hlt a b hb) (1 + (preds.map List.length).sum) [0] (fun _ => false) ()
    (by simpa using hn)
    (by
      have := ahead_le succs true preds.length fun _ => false
      simp only [List.length_singleton]
      omega)
    (by simp)
  refine ⟨seen', by rw [reach, ← hsuccs, hrun]; rfl, fun a => ?_⟩
  have hleads : Leads succs 0 a ↔ Relation.ReflTransGen (Edge preds) 0 a := by
    have : (fun p b => b ∈ succs p) = Edge preds := by
      funext p b
      exact propext (hmem p b)
    rw [Leads, this]
  rw [hmarks, ← hleads]
  have := hvisited a
  simp only [List.mem_singleton, exists_eq_left] at this
  rw [← this]
  by_cases ha : a ∈ visited <;> simp [ha]

/-! ## Cut edges -/

theorem mem_of_mem_swapRemove {xs : List ℕ} {i x : ℕ} (hi : i < xs.length)
    (hx : x ∈ swapRemove xs i) : x ∈ xs := by
  have hne : xs ≠ [] := List.ne_nil_of_length_pos (by omega)
  rcases List.mem_or_eq_of_mem_set (List.dropLast_subset _ hx) with h | h
  · exact h
  · rw [h, List.getLastD_eq_getLast?, List.getLast?_eq_some_getLast hne]
    exact List.getLast_mem hne

/-- `swap_remove` takes out one element; the last one comes in its place. -/
theorem mem_swapRemove {xs : List ℕ} {i x : ℕ} (hi : i < xs.length) (hx : x ∈ xs)
    (hne : x ≠ xs[i]) : x ∈ swapRemove xs i := by
  obtain ⟨j, hj, rfl⟩ := List.mem_iff_getElem.1 hx
  have hij : i ≠ j := fun h => hne (by simp [h])
  have hnil : xs ≠ [] := List.ne_nil_of_length_pos (by omega)
  rw [swapRemove, List.mem_iff_getElem]
  have hlen : ((xs.set i (xs.getLastD 0)).dropLast).length = xs.length - 1 := by simp
  by_cases hlast : j = xs.length - 1
  · refine ⟨i, by omega, ?_⟩
    rw [List.getElem_dropLast, List.getElem_set_self, List.getLastD_eq_getLast?,
      List.getLast?_eq_some_getLast hnil, Option.getD_some, List.getLast_eq_getElem]
    simp only [hlast]
  · exact ⟨j, by omega, by rw [List.getElem_dropLast, List.getElem_set_ne hij]⟩

theorem getD_modify (preds : List (List ℕ)) (t b : ℕ) (g : List ℕ → List ℕ) (hg : g [] = []) :
    (preds.modify t g).getD b [] = if t = b then g (preds.getD b []) else preds.getD b [] := by
  rw [List.getD_eq_getElem?_getD, List.getElem?_modify, List.getD_eq_getElem?_getD]
  by_cases htb : t = b
  · rcases h : preds[b]? with _ | ps <;> simp [htb, hg]
  · simp [htb]

theorem edge_of_edge_cutEdge {preds : List (List ℕ)} {cut : ℕ × ℕ} {p b : ℕ}
    (h : Edge (cutEdge preds cut) p b) : Edge preds p b := by
  rw [Edge, cutEdge, getD_modify _ _ _ _ (by rfl)] at h
  split at h
  · split at h
    · rename_i hi
      exact mem_of_mem_swapRemove (List.findIdx?_eq_some_iff_findIdx_eq.1 hi).1 h
    · exact h
  · exact h

theorem edge_cutEdge {preds : List (List ℕ)} {cut : ℕ × ℕ} {p b : ℕ} (h : Edge preds p b)
    (hne : (p, b) ≠ cut) : Edge (cutEdge preds cut) p b := by
  rw [Edge, cutEdge, getD_modify _ _ _ _ (by rfl)]
  split
  · rename_i htb
    split
    · rename_i i hi
      obtain ⟨hlt, hget, -⟩ := List.findIdx?_eq_some_iff_getElem.1 hi
      refine mem_swapRemove hlt h fun hp => hne ?_
      rw [← htb, hp, of_decide_eq_true hget]
    · exact h
  · exact h

theorem edge_of_edge_foldl (cuts : List (ℕ × ℕ)) {preds : List (List ℕ)} {p b : ℕ}
    (h : Edge (cuts.foldl cutEdge preds) p b) : Edge preds p b := by
  induction cuts generalizing preds with
  | nil => exact h
  | cons cut cuts ih => exact edge_of_edge_cutEdge (ih h)

theorem edge_foldl {cuts : List (ℕ × ℕ)} {preds : List (List ℕ)} {p b : ℕ} (h : Edge preds p b)
    (hne : (p, b) ∉ cuts) : Edge (cuts.foldl cutEdge preds) p b := by
  induction cuts generalizing preds with
  | nil => exact h
  | cons cut cuts ih =>
      rw [List.mem_cons, not_or] at hne
      exact ih (edge_cutEdge h hne.1) hne.2

theorem foldl_cutEdge_length (cuts : List (ℕ × ℕ)) (preds : List (List ℕ)) :
    (cuts.foldl cutEdge preds).length = preds.length := by
  induction cuts generalizing preds with
  | nil => rfl
  | cons cut cuts ih => rw [List.foldl_cons, ih, cutEdge, List.length_modify]

/-- What `prune` makes of a flat list. -/
structure Pruned (fl fl' : Flat) : Prop where
  items : fl'.items = fl.items
  blockOf : fl'.blockOf = fl.blockOf
  ranges : fl'.ranges = fl.ranges
  rows : fl'.preds.length = fl.preds.length
  preds : ∀ b, ∀ p ∈ fl'.pred b, p ∈ fl.pred b

/-- The edges that `prune` cuts. -/
def cuts (f : Func) (powf : Lib.Double → Lib.Double → Lib.Double) (fl : Flat) : List (ℕ × ℕ) :=
  (List.range f.blocks.length).filterMap (cutOf f powf fl)

theorem prune_spec (f : Func) (powf : Lib.Double → Lib.Double → Lib.Double) (fl : Flat)
    (hrows : fl.preds.length = f.blocks.length) :
    ∃ fl', prune f powf fl = some fl' ∧ Pruned fl fl' := by
  rw [prune]
  split
  · exact ⟨fl, rfl, rfl, rfl, rfl, rfl, fun _ _ h => h⟩
  · rename_i hcut
    have hpos : 0 < f.blocks.length := by
      rcases Nat.eq_zero_or_pos f.blocks.length with h | h
      · rw [h] at hcut
        exact absurd rfl hcut
      · exact h
    obtain ⟨before, hbefore, -⟩ := reach_spec fl.preds (by omega)
    obtain ⟨after, hafter, -⟩ := reach_spec ((cuts f powf fl).foldl cutEdge fl.preds)
      (by rw [foldl_cutEdge_length]; omega)
    rw [cuts] at hafter
    simp only [hbefore, hafter, Option.bind_eq_bind, Option.bind_some]
    refine ⟨_, rfl, rfl, rfl, rfl, ?_, fun b p hp => ?_⟩
    · rw [List.length_map, foldl_cutEdge_length]
    · rw [Flat.pred, List.getD_eq_getElem?_getD, List.getElem?_map] at hp
      rcases hb : ((cuts f powf fl).foldl cutEdge fl.preds)[b]? with _ | ps
      · rw [cuts] at hb
        simp [hb] at hp
      · have hps : p ∈ ps := by
          rw [cuts] at hb
          rw [hb] at hp
          exact (List.mem_filter.1 hp).1
        refine edge_of_edge_foldl (cuts f powf fl) ?_
        rwa [Edge, List.getD_eq_getElem?_getD, hb]

theorem Pruned.laid {fl fl' : Flat} (h : Pruned fl fl') (hfl : Laid fl) : Laid fl' where
  owners := by rw [h.blockOf, h.items, hfl.owners]
  rows := by rw [h.rows, h.ranges, hfl.rows]
  preds b p hp := by
    rw [h.ranges]
    exact hfl.preds b p (h.preds b p hp)
  block i b := by
    rw [h.blockOf, Flat.range, h.ranges]
    exact hfl.block i b

/-- **The flat list** of a function is laid out block by block, with the items and ranges as
they are before `prune`. -/
theorem flatBuild_spec (f : Func) (powf : Lib.Double → Lib.Double → Lib.Double) :
    ∃ fl, flatBuild f powf = some fl ∧ Pruned (flatten f) fl ∧ Laid fl := by
  obtain ⟨fl, hprune, h⟩ := prune_spec f powf (flatten f) (by simp [flatten])
  exact ⟨fl, hprune, h, h.laid (flatten_laid f)⟩

end Probe
end Lunar
