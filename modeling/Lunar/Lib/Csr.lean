/-
# Pairs sorted by key into one array

`csr` counts the pairs of each key, adds the counts up to the places where the keys end,
and puts the values at their places from the last pair to the first.  The values of a key
are then the items between its offset and the next one, in the order of the pairs
(`csr_slice`).
-/

import Mathlib.Data.List.Induction
import Mathlib.Order.Basic
import Mathlib.Data.Nat.Notation

namespace Lunar
namespace Lib
namespace Csr

variable {α : Type*}

/-- The pairs of each key are counted. -/
def counts (pairs : List (ℕ × α)) (off : List ℕ) : List ℕ :=
  pairs.foldl (fun off p => off.modify p.1 (· + 1)) off

def sumInto (off : List ℕ) (i : ℕ) : List ℕ := off.modify i (· + off.getD (i - 1) 0)

/-- The value of a pair is put before those of its key that are there. -/
def place (s : List ℕ × List α) (p : ℕ × α) : List ℕ × List α :=
  let off := s.1.modify p.1 (· - 1)
  (off, s.2.set (off.getD p.1 0) p.2)

/-- The offsets of the keys, and the items.  `zero` fills the items at first. -/
def csr (zero : α) (pairs : List (ℕ × α)) (keys : ℕ) : List ℕ × List α :=
  let off := counts pairs (List.replicate (keys + 1) 0)
  let off := (List.range' 1 keys).foldl sumInto off
  pairs.reverse.foldl place (off, List.replicate pairs.length zero)

/-! ## Counts and sums -/

/-- The pairs of a key. -/
def equal (pairs : List (ℕ × α)) (k : ℕ) : ℕ := pairs.countP (·.1 = k)

/-- The pairs of the keys below one. -/
def below (pairs : List (ℕ × α)) (k : ℕ) : ℕ := pairs.countP (·.1 < k)

theorem getD_modify {β : Type*} (xs : List β) (d : β) (i j : ℕ) (f : β → β) (h : i < xs.length) :
    (xs.modify i f).getD j d = if i = j then f (xs.getD j d) else xs.getD j d := by
  rw [List.getD_eq_getElem?_getD, List.getD_eq_getElem?_getD, List.getElem?_modify]
  split
  · next hij =>
      rw [← hij, List.getElem?_eq_getElem h]
      rfl
  · rw [id_map']

theorem below_succ (pairs : List (ℕ × α)) (k : ℕ) :
    below pairs (k + 1) = below pairs k + equal pairs k := by
  induction pairs with
  | nil => rfl
  | cons p pairs ih =>
      simp only [below, equal, List.countP_cons, decide_eq_true_eq] at ih ⊢
      rw [ih]
      split_ifs <;> omega

theorem below_mono (pairs : List (ℕ × α)) {j k : ℕ} (h : j ≤ k) : below pairs j ≤ below pairs k := by
  induction h with
  | refl => exact Nat.le_refl _
  | step _ ih =>
      rw [below_succ]
      omega

theorem below_zero (pairs : List (ℕ × α)) : below pairs 0 = 0 :=
  List.countP_eq_zero.2 fun p _ => by simp

theorem equal_append (xs ys : List (ℕ × α)) (k : ℕ) :
    equal (xs ++ ys) k = equal xs k + equal ys k := List.countP_append

theorem equal_singleton (p : ℕ × α) (k : ℕ) : equal [p] k = if p.1 = k then 1 else 0 := by
  rw [equal, List.countP_singleton]
  simp

theorem below_le_length (pairs : List (ℕ × α)) (k : ℕ) : below pairs k ≤ pairs.length :=
  List.countP_le_length

theorem counts_spec (pairs : List (ℕ × α)) {off : List ℕ} (h : ∀ p ∈ pairs, p.1 < off.length) :
    (counts pairs off).length = off.length ∧
      ∀ k, (counts pairs off).getD k 0 = off.getD k 0 + equal pairs k := by
  induction pairs generalizing off with
  | nil => exact ⟨rfl, fun k => rfl⟩
  | cons p pairs ih =>
      have hlen : (off.modify p.1 (· + 1)).length = off.length := List.length_modify ..
      obtain ⟨hl, hk⟩ := @ih (off.modify p.1 (· + 1)) fun q hq => by
        rw [hlen]
        exact h q (List.mem_cons_of_mem p hq)
      refine ⟨hl.trans hlen, fun k => ?_⟩
      have hcons : equal (p :: pairs) k = equal [p] k + equal pairs k := equal_append [p] pairs k
      rw [hcons, equal_singleton]
      have hmod := getD_modify off 0 p.1 k (· + 1) (h p List.mem_cons_self)
      rw [counts, List.foldl_cons]
      rw [counts] at hk
      rw [hk k, hmod]
      split_ifs <;> omega

/-- Sums up to a key make the counts the ends of the keys up to it. -/
theorem sums_spec (pairs : List (ℕ × α)) {off : List ℕ} {keys : ℕ} (hlen : off.length = keys + 1)
    (hoff : ∀ k, off.getD k 0 = equal pairs k) {m : ℕ} (hm : m ≤ keys) :
    ((List.range' 1 m).foldl sumInto off).length = keys + 1 ∧
      ∀ k, ((List.range' 1 m).foldl sumInto off).getD k 0 =
        if k ≤ m then below pairs (k + 1) else equal pairs k := by
  induction m with
  | zero =>
      refine ⟨hlen, fun k => ?_⟩
      rw [List.range'_zero, List.foldl_nil, hoff]
      split
      · next hk =>
          rw [Nat.le_zero.1 hk, below_succ, below_zero, Nat.zero_add]
      · rfl
  | succ m ih =>
      obtain ⟨hl, hk⟩ := ih (Nat.le_of_succ_le hm)
      rw [List.range'_concat, List.foldl_append, List.foldl_cons, List.foldl_nil, Nat.one_mul,
        Nat.add_comm 1 m]
      refine ⟨(List.length_modify ..).trans hl, fun k => ?_⟩
      rw [sumInto, getD_modify _ _ _ _ _ (by omega)]
      split
      · next hmk =>
          subst hmk
          rw [if_pos (Nat.le_refl _), Nat.add_sub_cancel, hk m, if_pos (Nat.le_refl m), hk (m + 1),
            if_neg (by omega), below_succ pairs (m + 1)]
          omega
      · next hmk =>
          rw [hk k]
          split_ifs
          · rfl
          · omega
          · omega
          · rfl

/-! ## Placing the values -/

/-- The values of `rest` are at their places, those of `pre` are still to come. -/
structure Filling (keys : ℕ) (pre rest : List (ℕ × α)) (off : List ℕ) (items : List α) : Prop where
  offs : off.length = keys + 1
  ends : ∀ k ≤ keys, off.getD k 0 = below (pre ++ rest) k + equal pre k
  length : items.length = (pre ++ rest).length
  placed : ∀ k < keys, (items.drop (off.getD k 0)).take (equal rest k) =
    (rest.filter (·.1 = k)).map Prod.snd

theorem Filling.start {keys : ℕ} {pairs : List (ℕ × α)} {off : List ℕ} (zero : α)
    (hlen : off.length = keys + 1)
    (hoff : ∀ k ≤ keys, off.getD k 0 = below pairs (k + 1)) :
    Filling keys pairs [] off (List.replicate pairs.length zero) where
  offs := hlen
  ends k hk := by rw [hoff k hk, List.append_nil, below_succ]
  length := by rw [List.length_replicate, List.append_nil]
  placed k _ := by
    rw [equal, List.countP_nil, List.take_zero]
    rfl

theorem Filling.step {keys : ℕ} {pre rest : List (ℕ × α)} {p : ℕ × α} {off : List ℕ}
    {items : List α} (h : Filling keys (pre ++ [p]) rest off items) (hp : p.1 < keys) :
    Filling keys pre (p :: rest) (place (off, items) p).1 (place (off, items) p).2 := by
  obtain ⟨k, v⟩ := p
  have happ : pre ++ (k, v) :: rest = (pre ++ [(k, v)]) ++ rest := List.append_cons ..
  have hlt : k < off.length := by
    rw [h.offs]
    exact Nat.lt_succ_of_lt hp
  have hgetD (j : ℕ) := getD_modify off 0 k j (· - 1) hlt
  have hpre (j : ℕ) : equal (pre ++ [(k, v)]) j = equal pre j + if k = j then 1 else 0 := by
    rw [equal_append, equal_singleton]
  have hoff : ∀ j ≤ keys, (off.modify k (· - 1)).getD j 0 =
      below ((pre ++ [(k, v)]) ++ rest) j + equal pre j := by
    intro j hj
    rw [hgetD j, h.ends j hj, hpre]
    split_ifs <;> omega
  have hlast : (off.modify k (· - 1)).getD k 0 < items.length := by
    have hle := below_le_length ((pre ++ [(k, v)]) ++ rest) (k + 1)
    rw [below_succ, equal_append, hpre, if_pos rfl] at hle
    rw [hoff k (Nat.le_of_lt hp), h.length]
    omega
  refine ⟨(List.length_modify ..).trans h.offs, ?_, ?_, fun j hj => ?_⟩
  · rw [happ]
    exact hoff
  · rw [happ, place, List.length_set]
    exact h.length
  · rw [place]
    dsimp only
    have hj' := h.placed j hj
    by_cases hkj : k = j
    · subst hkj
      have hgot : off.getD k 0 = (off.modify k (· - 1)).getD k 0 + 1 := by
        rw [hoff k (Nat.le_of_lt hp), h.ends k (Nat.le_of_lt hp), hpre, if_pos rfl]
        omega
      have hequal : equal ((k, v) :: rest) k = equal rest k + 1 := by
        rw [equal, List.countP_cons_of_pos (by simp)]
        rfl
      rw [hequal, List.filter_cons_of_pos (by simp), List.map_cons, ← hj', hgot,
        List.drop_eq_getElem_cons (by rwa [List.length_set]), List.getElem_set_self,
        List.take_succ_cons, List.drop_set_of_lt (Nat.lt_succ_self _)]
    · have hequal : equal ((k, v) :: rest) j = equal rest j := by
        rw [equal, List.countP_cons_of_neg (by simpa using hkj)]
        rfl
      have hsame : (off.modify k (· - 1)).getD j 0 = off.getD j 0 := by rw [hgetD, if_neg hkj]
      rw [hequal, List.filter_cons_of_neg (by simpa using hkj), hsame, ← hj']
      -- the place of `k` is not among those of `j`
      have hall (i : ℕ) : equal ((pre ++ [(k, v)]) ++ rest) i =
          equal pre i + (if k = i then 1 else 0) + equal rest i := by
        rw [equal_append, hpre]
      have hofj := h.ends j (Nat.le_of_lt hj)
      rw [hpre, if_neg hkj, Nat.add_zero] at hofj
      rcases Nat.lt_or_gt_of_ne hkj with hlt | hgt
      · have hmono := below_mono ((pre ++ [(k, v)]) ++ rest) (Nat.succ_le_of_lt hlt)
        rw [below_succ, hall k, if_pos rfl] at hmono
        rw [List.drop_set_of_lt (by rw [hoff k (Nat.le_of_lt hp), hofj]; omega)]
      · have hmono := below_mono ((pre ++ [(k, v)]) ++ rest) (Nat.succ_le_of_lt hgt)
        rw [below_succ, hall j, if_neg hkj] at hmono
        rw [List.drop_set, if_neg (by rw [hoff k (Nat.le_of_lt hp), hofj]; omega),
          List.take_set_of_le (by rw [hoff k (Nat.le_of_lt hp), hofj]; omega)]

theorem Filling.run {keys : ℕ} (pre : List (ℕ × α)) {rest : List (ℕ × α)} {off : List ℕ}
    {items : List α} (h : Filling keys pre rest off items) (hp : ∀ p ∈ pre, p.1 < keys) :
    Filling keys [] (pre ++ rest) (pre.reverse.foldl place (off, items)).1
      (pre.reverse.foldl place (off, items)).2 := by
  induction pre using List.reverseRecOn generalizing rest off items with
  | nil => exact h
  | append_singleton pre p ih =>
      rw [List.reverse_append, List.reverse_singleton, List.singleton_append, List.foldl_cons,
        List.append_assoc, List.singleton_append]
      exact ih (h.step (hp p (List.mem_append_right pre List.mem_cons_self)))
        fun q hq => hp q (List.mem_append_left _ hq)

/-- The tables of `csr` when every key is in range. -/
theorem csr_filling (zero : α) {pairs : List (ℕ × α)} {keys : ℕ} (h : ∀ p ∈ pairs, p.1 < keys) :
    Filling keys [] pairs (csr zero pairs keys).1 (csr zero pairs keys).2 := by
  have hzero (k : ℕ) : (List.replicate (keys + 1) 0).getD k 0 = 0 := by
    rw [List.getD_eq_getElem?_getD, List.getElem?_replicate]
    split <;> rfl
  obtain ⟨hlen, hcounts⟩ := @counts_spec α pairs (List.replicate (keys + 1) 0) fun p hp => by
    rw [List.length_replicate]
    exact Nat.lt_succ_of_lt (h p hp)
  rw [List.length_replicate] at hlen
  obtain ⟨hlen', hsums⟩ := sums_spec pairs hlen
    (fun k => by rw [hcounts, hzero, Nat.zero_add]) (Nat.le_refl keys)
  have hstart := @Filling.start _ _ pairs _ zero hlen' fun k hk => by rw [hsums, if_pos hk]
  have hrun := hstart.run pairs h
  rw [List.append_nil] at hrun
  exact hrun

/-- The offset of a key is the number of pairs below it. -/
theorem csr_offset (zero : α) {pairs : List (ℕ × α)} {keys k : ℕ} (h : ∀ p ∈ pairs, p.1 < keys)
    (hk : k ≤ keys) : (csr zero pairs keys).1.getD k 0 = below pairs k :=
  (csr_filling zero h).ends k hk

/-- **The items between two offsets are the values of the key**, in the order of the pairs. -/
theorem csr_slice (zero : α) {pairs : List (ℕ × α)} {keys k : ℕ} (h : ∀ p ∈ pairs, p.1 < keys)
    (hk : k < keys) :
    ((csr zero pairs keys).2.take ((csr zero pairs keys).1.getD (k + 1) 0)).drop
        ((csr zero pairs keys).1.getD k 0) =
      (pairs.filter (·.1 = k)).map Prod.snd := by
  rw [← (csr_filling zero h).placed k hk, List.drop_take, csr_offset zero h hk,
    csr_offset zero h (Nat.le_of_lt hk), below_succ, Nat.add_sub_cancel_left]

/-- The offsets are in range, and they increase. -/
theorem csr_bounds (zero : α) {pairs : List (ℕ × α)} {keys : ℕ} (h : ∀ p ∈ pairs, p.1 < keys) :
    (csr zero pairs keys).1.length = keys + 1 ∧
      ∀ k < keys, (csr zero pairs keys).1.getD k 0 ≤ (csr zero pairs keys).1.getD (k + 1) 0 ∧
        (csr zero pairs keys).1.getD (k + 1) 0 ≤ (csr zero pairs keys).2.length := by
  have hf := csr_filling zero h
  refine ⟨hf.offs, fun k hk => ?_⟩
  rw [csr_offset zero h (Nat.le_of_lt hk), csr_offset zero h hk, hf.length]
  exact ⟨below_mono pairs (Nat.le_succ k), below_le_length pairs (k + 1)⟩

/-- The items are values of pairs. -/
theorem csr_items (zero : α) {pairs : List (ℕ × α)} {keys : ℕ} {P : α → Prop} (hzero : P zero)
    (h : ∀ p ∈ pairs, P p.2) : ∀ a ∈ (csr zero pairs keys).2, P a := by
  rw [csr]
  generalize (List.range' 1 keys).foldl sumInto (counts pairs (List.replicate (keys + 1) 0)) = off
  have hstart : ∀ a ∈ List.replicate pairs.length zero, P a := fun a ha =>
    (List.eq_of_mem_replicate ha) ▸ hzero
  generalize List.replicate pairs.length zero = items at hstart
  have hrev : ∀ p ∈ pairs.reverse, P p.2 := fun p hp => h p (List.mem_reverse.1 hp)
  generalize pairs.reverse = todo at hrev
  induction todo generalizing off items with
  | nil => exact hstart
  | cons p todo ih =>
      rw [List.foldl_cons]
      refine ih _ _ (fun a ha => ?_) fun q hq => hrev q (List.mem_cons_of_mem p hq)
      rcases List.mem_or_eq_of_mem_set ha with ha | rfl
      · exact hstart a ha
      · exact hrev p List.mem_cons_self

end Csr
end Lib
end Lunar
