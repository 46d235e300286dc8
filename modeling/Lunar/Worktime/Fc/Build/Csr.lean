/-
# The tables of the variables and the methods

`worktime/fc.rs`: `csr`, with its indexes out of range as panics (`none`).  When every key is
in range it is the sort of `Lib.Csr`: the items between the offsets of a key are its values in
order, and every place of the items belongs to one key (`csr_exact`).
-/

import Lunar.Lib.Csr

namespace Lunar
namespace Fc

open Lib.Csr (counts sumInto place below Filling below_mono below_zero below_succ below_le_length
  equal_append equal_singleton getD_modify counts_spec sums_spec csr_filling csr_bounds csr_slice
  csr_offset)

/-- `off[k] += 1`. -/
def countPair (off : List ℕ) (p : ℕ × ℕ) : Option (List ℕ) := do
  let c ← off[p.1]?
  return off.set p.1 (c + 1)

/-- `off[i] += off[i - 1]`. -/
def addBefore (off : List ℕ) (i : ℕ) : Option (List ℕ) := do
  let before ← off[i - 1]?
  let c ← off[i]?
  return off.set i (c + before)

/-- `off[k] -= 1; items[off[k]] = v`. -/
def putPair (s : List ℕ × List ℕ) (p : ℕ × ℕ) : Option (List ℕ × List ℕ) := do
  let c ← s.1[p.1]?
  if c = 0 then none
  let _ ← s.2[c - 1]?
  return (s.1.set p.1 (c - 1), s.2.set (c - 1) p.2)

/-- `csr`: the offsets of the keys, and the items. -/
def csr (pairs : List (ℕ × ℕ)) (keys : ℕ) : Option (List ℕ × List ℕ) := do
  let off ← pairs.foldlM countPair (List.replicate (keys + 1) 0)
  let off ← (List.range' 1 keys).foldlM addBefore off
  pairs.reverse.foldlM putPair (off, List.replicate pairs.length 0)

/-! ## No index is out of range -/

theorem set_modify {off : List ℕ} {i c : ℕ} (h : off[i]? = some c) (f : ℕ → ℕ) :
    off.set i (f c) = off.modify i f := by
  refine List.ext_getElem? fun j => ?_
  rw [List.getElem?_set, List.getElem?_modify]
  obtain ⟨hlt, hc⟩ := List.getElem?_eq_some_iff.1 h
  by_cases hij : i = j
  · subst hij
    simp [hlt, hc]
  · simp [hij]

theorem foldlM_countPair {pairs : List (ℕ × ℕ)} {off : List ℕ}
    (h : ∀ p ∈ pairs, p.1 < off.length) :
    pairs.foldlM countPair off = some (counts pairs off) := by
  induction pairs generalizing off with
  | nil => rfl
  | cons p pairs ih =>
      rw [List.forall_mem_cons] at h
      have hget := List.getElem?_eq_getElem h.1
      have hset := set_modify hget (· + 1)
      rw [List.foldlM_cons, countPair, hget]
      simp only [Option.bind_eq_bind, Option.bind_some, Option.pure_def]
      rw [hset, ih fun q hq => by rw [List.length_modify]; exact h.2 q hq]
      rfl

theorem foldlM_addBefore {off : List ℕ} {is : List ℕ} (h : ∀ i ∈ is, i < off.length) :
    is.foldlM addBefore off = some (is.foldl sumInto off) := by
  induction is generalizing off with
  | nil => rfl
  | cons i is ih =>
      rw [List.forall_mem_cons] at h
      have hget := List.getElem?_eq_getElem h.1
      have hbefore := List.getElem?_eq_getElem (show i - 1 < off.length by omega)
      have hset := set_modify hget (· + off[i - 1])
      have hsum : sumInto off i = off.modify i (· + off[i - 1]) := by
        rw [sumInto, List.getD_eq_getElem?_getD, hbefore]
        rfl
      rw [List.foldlM_cons, addBefore, hbefore, hget]
      simp only [Option.bind_eq_bind, Option.bind_some, Option.pure_def]
      rw [hset, ← hsum, ih fun j hj => by rw [hsum, List.length_modify]; exact h.2 j hj,
        List.foldl_cons]

theorem putPair_eq {keys : ℕ} {pre rest : List (ℕ × ℕ)} {p : ℕ × ℕ} {off items : List ℕ}
    (h : Filling keys (pre ++ [p]) rest off items) (hp : p.1 < keys) :
    putPair (off, items) p = some (place (off, items) p) := by
  have hlt : p.1 < off.length := by
    rw [h.offs]
    omega
  have hget := List.getElem?_eq_getElem hlt
  have hends := h.ends p.1 (Nat.le_of_lt hp)
  have hle := below_le_length (pre ++ [p] ++ rest) (p.1 + 1)
  rw [below_succ, equal_append, equal_append, equal_singleton, if_pos rfl] at hle
  rw [List.getD_eq_getElem?_getD, hget, Option.getD_some, equal_append, equal_singleton,
    if_pos rfl] at hends
  have hitem := List.getElem?_eq_getElem (show off[p.1] - 1 < items.length by rw [h.length]; omega)
  have hset := set_modify hget (· - 1)
  have hoff : (off.modify p.1 (· - 1)).getD p.1 0 = off[p.1] - 1 := by
    rw [getD_modify _ _ _ _ _ hlt, if_pos rfl, List.getD_eq_getElem?_getD, hget]
    rfl
  rw [putPair, hget]
  simp only [Option.bind_eq_bind, Option.bind_some, Option.pure_def]
  rw [if_neg (by omega), hitem, Option.bind_some, hset, place]
  dsimp only
  rw [hoff]

theorem foldlM_putPair {keys : ℕ} {pre rest : List (ℕ × ℕ)} {off items : List ℕ}
    (h : Filling keys pre rest off items) (hp : ∀ p ∈ pre, p.1 < keys) :
    pre.reverse.foldlM putPair (off, items) = some (pre.reverse.foldl place (off, items)) := by
  induction pre using List.reverseRecOn generalizing rest off items with
  | nil => rfl
  | append_singleton pre p ih =>
      have hlast := hp p (List.mem_append_right pre List.mem_cons_self)
      rw [List.reverse_append, List.reverse_singleton, List.singleton_append, List.foldlM_cons,
        putPair_eq h hlast, List.foldl_cons]
      exact ih (h.step hlast) fun q hq => hp q (List.mem_append_left _ hq)

/-- **`csr` is the sort** when every key is in range. -/
theorem csr_eq {pairs : List (ℕ × ℕ)} {keys : ℕ} (h : ∀ p ∈ pairs, p.1 < keys) :
    csr pairs keys = some (Lib.Csr.csr 0 pairs keys) := by
  have hkeys : ∀ p ∈ pairs, p.1 < (List.replicate (keys + 1) 0).length := fun p hp => by
    rw [List.length_replicate]
    exact Nat.lt_succ_of_lt (h p hp)
  obtain ⟨hlen, hcounts⟩ := counts_spec pairs hkeys
  rw [List.length_replicate] at hlen
  have hzero (k : ℕ) : (List.replicate (keys + 1) 0).getD k 0 = 0 := by
    rw [List.getD_eq_getElem?_getD, List.getElem?_replicate]
    split <;> rfl
  obtain ⟨hlen', hsums⟩ := sums_spec pairs hlen
    (fun k => by rw [hcounts, hzero, Nat.zero_add]) (Nat.le_refl keys)
  have hstart := @Filling.start _ _ pairs _ 0 hlen' fun k hk => by rw [hsums, if_pos hk]
  rw [csr, foldlM_countPair hkeys]
  simp only [Option.bind_eq_bind, Option.bind_some]
  rw [foldlM_addBefore (by
    intro i hi
    rw [hlen]
    have := List.mem_range'_1.1 hi
    omega), Option.bind_some, foldlM_putPair hstart h]
  rfl

/-! ## One key for each place -/

/-- A place below the last offset is between two offsets. -/
theorem exists_between {f : ℕ → ℕ} {n i : ℕ} (hzero : f 0 = 0) (hi : i < f n) :
    ∃ k < n, f k ≤ i ∧ i < f (k + 1) := by
  induction n with
  | zero =>
      rw [hzero] at hi
      omega
  | succ n ih =>
      by_cases hn : i < f n
      · obtain ⟨k, hk, hbetween⟩ := ih hn
        exact ⟨k, by omega, hbetween⟩
      · exact ⟨n, by omega, by omega, hi⟩

/-- **`csr` sorts the values by key**, exactly and keeping their order: what lies between the
offsets of a key are its values, and each place of the items lies between the offsets of one
key. -/
theorem csr_exact {pairs : List (ℕ × ℕ)} {keys : ℕ} (h : ∀ p ∈ pairs, p.1 < keys) :
    ∃ off items, csr pairs keys = some (off, items) ∧
      off.length = keys + 1 ∧ items.length = pairs.length ∧
      (∀ k < keys, (items.take (off.getD (k + 1) 0)).drop (off.getD k 0)
        = (pairs.filter (·.1 = k)).map Prod.snd) ∧
      (∀ k < keys, off.getD k 0 ≤ off.getD (k + 1) 0 ∧ off.getD (k + 1) 0 ≤ items.length) ∧
      ∀ i < items.length, ∃! k, k < keys ∧ off.getD k 0 ≤ i ∧ i < off.getD (k + 1) 0 := by
  have hoff {k : ℕ} (hk : k ≤ keys) := csr_offset 0 h hk
  have hitems : (Lib.Csr.csr 0 pairs keys).2.length = pairs.length := (csr_filling 0 h).length
  have hall : below pairs keys = pairs.length := by
    rw [below, List.countP_eq_length]
    exact fun p hp => decide_eq_true (h p hp)
  obtain ⟨hlen, hbounds⟩ := csr_bounds 0 h
  refine ⟨(Lib.Csr.csr 0 pairs keys).1, (Lib.Csr.csr 0 pairs keys).2, csr_eq h, hlen, hitems, fun k hk => csr_slice 0 h hk, hbounds, fun i hi => ?_⟩
  rw [hitems, ← hall] at hi
  obtain ⟨k, hk, hle', hlt'⟩ := exists_between (below_zero pairs) hi
  refine ⟨k, ⟨hk, ?_⟩, fun j hj => ?_⟩
  · rw [hoff (Nat.le_of_lt hk), hoff (show k + 1 ≤ keys from hk)]
    exact ⟨hle', hlt'⟩
  · obtain ⟨hjk, hle, hlt⟩ := hj
    rw [hoff (Nat.le_of_lt hjk)] at hle
    rw [hoff (show j + 1 ≤ keys from hjk)] at hlt
    rcases Nat.lt_trichotomy j k with hjk' | heq | hgt
    · have := below_mono pairs (show j + 1 ≤ k from hjk')
      omega
    · exact heq
    · have := below_mono pairs (show k + 1 ≤ j from hgt)
      omega

/-- Three values of two keys. -/
theorem csr_exact_three : ∃ off items, csr [(1, 7), (0, 8), (1, 9)] 2 = some (off, items) ∧
    off.length = 3 ∧ items.length = 3 ∧
    (∀ k < 2, (items.take (off.getD (k + 1) 0)).drop (off.getD k 0)
      = (([(1, 7), (0, 8), (1, 9)] : List (ℕ × ℕ)).filter (·.1 = k)).map Prod.snd) ∧
    (∀ k < 2, off.getD k 0 ≤ off.getD (k + 1) 0 ∧ off.getD (k + 1) 0 ≤ items.length) ∧
    ∀ i < items.length, ∃! k, k < 2 ∧ off.getD k 0 ≤ i ∧ i < off.getD (k + 1) 0 :=
  csr_exact (by decide)

end Fc
end Lunar
