/-
# Threading and compaction

The last half of `optimize` follows jumps to where they lead, drops the jumps that
lead to where the code goes on anyway, and packs the kept ops.  Masked code slides
silently over dropped ops and jumps; the packed code stands where the masked code
comes to rest.
-/

import Lunar.Payload.Exec.DeadStores

namespace Lunar
namespace Exec

variable {R : Realm}

/-! ### Sliding -/

/-- Masked code moves from `i` to `j` without doing anything: over a dropped op or
along a jump. -/
inductive Slide (m : Masked) : ℕ → ℕ → Prop
  | skip {i} : i < m.code.ops.length → m.keep.getD i false = false → Slide m i (i + 1)
  | jump {i tgt} : m.code.ops[i]? = some (.j tgt) → m.keep.getD i false = true → Slide m i tgt

/-- From `t` the code slides to `e`, where all places behind the end are one. -/
def Reach (m : Masked) (t e : ℕ) : Prop :=
  ∃ q, Relation.ReflTransGen (Slide m) t q ∧ min q m.code.ops.length = e

variable {m : Masked}

theorem Slide.lt {i j : ℕ} (h : Slide m i j) : i < m.code.ops.length := by
  cases h with
  | skip h _ => exact h
  | jump h _ => exact (List.getElem?_eq_some_iff.1 h).1

theorem Slide.silent {i j : ℕ} (h : Slide m i j) (regs : ℕ → R.V) (w : R.W) :
    Lib.Machine.Silent (m.step R) ⟨i, regs, w⟩ ⟨j, regs, w⟩ := by
  cases h with
  | skip hi hk =>
      rw [Lib.Machine.Silent, Masked.step, Masked.next, if_pos ⟨hi, hk⟩]
      rfl
  | jump hop hk =>
      have hrun : ¬(i < m.code.ops.length ∧ m.keep.getD i false = false) := by
        rw [hk]
        exact fun h => Bool.noConfusion h.2
      rw [Lib.Machine.Silent, Masked.step, Masked.next, if_neg hrun, Code.next, hop]
      rfl

/-- A state slides with its registers and its heap. -/
def Slides (m : Masked) (s t : State R) : Prop :=
  Slide m s.ip t.ip ∧ t.regs = s.regs ∧ t.w = s.w

theorem Slides.silent {s t : State R} (h : Slides m s t) : Lib.Machine.Silent (m.step R) s t := by
  obtain ⟨i, regs, w⟩ := s
  obtain ⟨j, regs', w'⟩ := t
  obtain ⟨hs, rfl, rfl⟩ := h
  exact hs.silent _ _

theorem Slide.leads {i j : ℕ} (h : Relation.ReflTransGen (Slide m) i j) (regs : ℕ → R.V)
    (w : R.W) : Relation.ReflTransGen (Slides m) (⟨i, regs, w⟩ : State R) ⟨j, regs, w⟩ := by
  induction h with
  | refl => exact .refl
  | tail _ hs ih => exact ih.tail ⟨hs, rfl, rfl⟩

theorem Slides.same {s t : State R} (h : Relation.ReflTransGen (Slides m) s t) :
    t.regs = s.regs ∧ t.w = s.w := by
  induction h with
  | refl => exact ⟨rfl, rfl⟩
  | tail _ hs ih => exact ⟨hs.2.1.trans ih.1, hs.2.2.trans ih.2⟩

theorem Reach.refl {t : ℕ} (h : t ≤ m.code.ops.length) : Reach m t t := ⟨t, .refl, by omega⟩

theorem Reach.head {i t e : ℕ} (hs : Slide m i t) (h : Reach m t e) : Reach m i e := by
  obtain ⟨q, hq, he⟩ := h
  exact ⟨q, .head hs hq, he⟩

theorem Reach.trans {t e e' : ℕ} (h : Reach m t e) (h' : Reach m e e') : Reach m t e' := by
  obtain ⟨q, hq, he⟩ := h
  obtain ⟨q', hq', he'⟩ := h'
  by_cases hlt : q < m.code.ops.length
  · obtain rfl : q = e := by omega
    exact ⟨q', hq.trans hq', he'⟩
  · -- behind the end nothing slides
    rcases hq'.cases_head with rfl | ⟨_, hs, -⟩
    · exact ⟨q, hq, by omega⟩
    · have := hs.lt
      omega

/-- A place where the packed code has an op or its end. -/
def Rest (m : Masked) (keep : List Bool) (e : ℕ) : Prop :=
  e = m.code.ops.length ∨ (e < m.code.ops.length ∧ keep.getD e false = true)

theorem Reach.past {t : ℕ} (h : m.code.ops.length ≤ t) : Reach m t m.code.ops.length :=
  ⟨t, .refl, by omega⟩

/-! ### The tables -/

/-- `nk` leads over the dropped ops. -/
theorem nextKept_reach (ks : List Bool) (i : ℕ) (hn : i + ks.length = m.code.ops.length)
    (hks : ∀ j, j < ks.length → ks.getD j false = m.keep.getD (i + j) false) (k : ℕ) :
    Reach m (i + k) ((nextKept m.code.ops.length ks i).getD k m.code.ops.length) ∧
      Rest m m.keep ((nextKept m.code.ops.length ks i).getD k m.code.ops.length) := by
  induction ks generalizing i k with
  | nil =>
      have hd : (nextKept m.code.ops.length [] i).getD k m.code.ops.length = m.code.ops.length := by
        cases k <;> rfl
      rw [hd]
      exact ⟨.past (by simp at hn; omega), .inl rfl⟩
  | cons b ks ih =>
      simp only [List.length_cons] at hn
      have ih := ih (i + 1) (by omega) fun j hj => by
        have := hks (j + 1) (by simpa using hj)
        rw [show i + 1 + j = i + (j + 1) by omega, ← this]
        rfl
      have hb := hks 0 (by simp)
      rw [List.getD_cons_zero, Nat.add_zero] at hb
      cases k with
      | zero =>
          rw [nextKept, List.getD_cons_zero, Nat.add_zero]
          cases b with
          | true => exact ⟨.refl (by omega), .inr ⟨by simp; omega, hb.symm⟩⟩
          | false =>
              have hhead : ∀ l : List ℕ, l.headD m.code.ops.length =
                  l.getD 0 m.code.ops.length := fun l => by cases l <;> rfl
              simp only [Bool.false_eq_true, if_false, hhead]
              obtain ⟨hr, he⟩ := ih 0
              exact ⟨.head (.skip (by omega) hb.symm) hr, he⟩
      | succ k =>
          rw [nextKept, List.getD_cons_succ]
          have := ih k
          rwa [show i + 1 + k = i + (k + 1) by omega] at this

section Tables

variable (hlen : m.keep.length = m.code.ops.length)

theorem nk_reach (hlen : m.keep.length = m.code.ops.length) (t : ℕ) :
    Reach m t ((nextKept m.code.ops.length m.keep 0).getD t m.code.ops.length) ∧
      Rest m m.keep ((nextKept m.code.ops.length m.keep 0).getD t m.code.ops.length) := by
  have h := nextKept_reach (m := m) m.keep 0 (by omega) (fun j _ => by rw [Nat.zero_add]) t
  rwa [Nat.zero_add] at h

/-- `eff` follows dropped ops and jumps. -/
theorem eff_reach (hlen : m.keep.length = m.code.ops.length) (t : ℕ) :
    Reach m t (eff m.code.ops (nextKept m.code.ops.length m.keep 0) t) ∧
      Rest m m.keep (eff m.code.ops (nextKept m.code.ops.length m.keep 0) t) := by
  have hops : ∀ hops t, Rest m m.keep t →
      Reach m t (effHops m.code.ops (nextKept m.code.ops.length m.keep 0) hops t) ∧
        Rest m m.keep (effHops m.code.ops (nextKept m.code.ops.length m.keep 0) hops t) := by
    intro hops
    induction hops with
    | zero => exact fun t ht => ⟨.refl (by rcases ht with rfl | ⟨h, -⟩ <;> omega), ht⟩
    | succ hops ih =>
        intro t ht
        have hstay : Reach m t t := .refl (by rcases ht with rfl | ⟨h, -⟩ <;> omega)
        rw [effHops]
        split
        · next tgt hop =>
            dsimp only
            split
            · exact ⟨hstay, ht⟩
            · -- a jump: the code slides along it and over the dropped ops behind
              have hk : m.keep.getD t false = true := by
                rcases ht with rfl | ⟨-, hk⟩
                · simp at hop
                · exact hk
              obtain ⟨hr, he⟩ := nk_reach hlen tgt
              obtain ⟨hr', he'⟩ := ih _ he
              exact ⟨(Reach.head (.jump hop hk) hr).trans hr', he'⟩
        · exact ⟨hstay, ht⟩
  obtain ⟨hr, he⟩ := nk_reach hlen t
  obtain ⟨hr', he'⟩ := hops THREAD_HOPS _ he
  exact ⟨hr.trans hr', he'⟩

end Tables

/-- The ops after threading. -/
theorem thread_getElem? (ops : List Op) (keep : List Bool) (hlen : keep.length = ops.length)
    (i : ℕ) : (thread ops keep)[i]? = (ops[i]?).map fun o =>
      if keep.getD i false then retarget (eff ops (nextKept ops.length keep 0)) o else o := by
  rw [thread, List.getElem?_zipWith]
  by_cases hi : i < ops.length
  · have hik : i < keep.length := by omega
    rw [List.getElem?_eq_getElem hi, List.getElem?_eq_getElem hik, List.getD_eq_getElem?_getD,
      List.getElem?_eq_getElem hik]
    rfl
  · rw [List.getElem?_eq_none (by omega)]
    rfl

/-- The state of the loop that fills `fin`, with the places from `i` on done. -/
structure Finishing (m : Masked) (i : ℕ) (s : List ℕ × List Bool) : Prop where
  lens : s.1.length = m.code.ops.length + 1 ∧ s.2.length = m.code.ops.length
  kept : ∀ j, s.2.getD j false = true → m.keep.getD j false = true
  todo : ∀ j < i, s.2.getD j false = m.keep.getD j false
  reach : ∀ j, i ≤ j → Reach m j (s.1.getD j m.code.ops.length)
  rest : ∀ j, i ≤ j → Rest m s.2 (s.1.getD j m.code.ops.length)
  between : ∀ j k, i ≤ j → j ≤ k → k < s.1.getD j m.code.ops.length → k < m.code.ops.length →
    s.2.getD k false = false
  after : ∀ j, i ≤ j → j ≤ m.code.ops.length → j ≤ s.1.getD j m.code.ops.length

theorem Finishing.start (hlen : m.keep.length = m.code.ops.length) :
    Finishing m m.code.ops.length
      (List.replicate (m.code.ops.length + 1) m.code.ops.length, m.keep) := by
  have hd : ∀ j, (List.replicate (m.code.ops.length + 1) m.code.ops.length).getD j
      m.code.ops.length = m.code.ops.length := by
    intro j
    rw [List.getD_eq_getElem?_getD, List.getElem?_replicate]
    split <;> rfl
  refine ⟨⟨List.length_replicate .., hlen⟩, fun _ h => h, fun _ _ => rfl, fun j hj => ?_,
    fun j hj => ?_, fun j k hj hjk _ hkn => by omega, fun j _ hj => ?_⟩
  · rw [hd]
    exact .past hj
  · rw [hd]
    exact .inl rfl
  · rw [hd]
    exact hj

/-- A jump that the turn at `i` drops leads to where the code goes on. -/
theorem Finishing.skips_reach {i : ℕ} {s : List ℕ × List Bool} (h : Finishing m (i + 1) s)
    (hlen : m.keep.length = m.code.ops.length) (hk : m.keep.getD i false = true)
    (hs : skips (thread m.code.ops m.keep) s.1 i = true) :
    Reach m i (s.1.getD (i + 1) m.code.ops.length) := by
  have hops : (thread m.code.ops m.keep).length = m.code.ops.length := by
    rw [thread, List.length_zipWith, hlen, Nat.min_self]
  rw [skips, thread_getElem? _ _ hlen, hk, hops] at hs
  cases hop : m.code.ops[i]? with
  | none => simp [hop] at hs
  | some op =>
      rw [hop, Option.map_some, if_pos rfl] at hs
      cases op with
      | j tgt =>
          simp only [retarget, Bool.and_eq_true, decide_eq_true_eq, beq_iff_eq] at hs
          obtain ⟨hlt, heq⟩ := hs
          have hr := h.reach _ (show i + 1 ≤ _ from hlt)
          rw [heq] at hr
          exact .head (.jump hop hk) ((eff_reach hlen tgt).1.trans hr)
      | _ => simp [retarget] at hs

theorem Finishing.turn {i : ℕ} {s : List ℕ × List Bool} (h : Finishing m (i + 1) s)
    (hlen : m.keep.length = m.code.ops.length) (hi : i < m.code.ops.length) :
    Finishing m i (finishTurn (thread m.code.ops m.keep) i s) := by
  have hops : (thread m.code.ops m.keep).length = m.code.ops.length := by
    rw [thread, List.length_zipWith, hlen, Nat.min_self]
  obtain ⟨fin, keep⟩ := s
  obtain ⟨hfl, hkl⟩ := h.lens
  have htodo := h.todo i (by omega)
  dsimp only at hfl hkl htodo
  -- what the turn makes of the marks, and where the code goes on from `i`
  obtain ⟨keep', hturn, hother, hlen', hreach⟩ : ∃ keep',
      finishTurn (thread m.code.ops m.keep) i (fin, keep) =
        (fin.set i (if keep'.getD i false then i else fin.getD (i + 1) m.code.ops.length), keep') ∧
      (∀ j, j ≠ i → keep'.getD j false = keep.getD j false) ∧ keep'.length = keep.length ∧
      (keep'.getD i false = true ∧ keep.getD i false = true ∨ keep'.getD i false = false ∧
        Reach m i (fin.getD (i + 1) m.code.ops.length)) := by
    refine ⟨_, by rw [finishTurn, hops], fun j hj => ?_, ?_, ?_⟩
    · dsimp only
      split
      · rw [getD_set, if_neg fun heq => hj heq.1.symm]
      · rfl
    · dsimp only
      split
      · exact List.length_set
      · rfl
    · dsimp only
      split
      · next hs =>
          rw [Bool.and_eq_true, htodo] at hs
          refine .inr ⟨?_, h.skips_reach hlen hs.1 hs.2⟩
          rw [getD_set, if_pos ⟨rfl, by omega⟩]
      · cases hk : keep.getD i false with
        | true => exact .inl ⟨rfl, rfl⟩
        | false =>
            exact .inr ⟨rfl, .head (.skip hi (htodo ▸ hk)) (h.reach (i + 1) (Nat.le_refl _))⟩
  rw [hturn]
  generalize hf : (if keep'.getD i false then i else fin.getD (i + 1) m.code.ops.length) = f
  have hset : ∀ j, (fin.set i f).getD j m.code.ops.length =
      if j = i then f else fin.getD j m.code.ops.length := by
    intro j
    rw [getD_set]
    by_cases hj : j = i
    · rw [if_pos ⟨hj.symm, by omega⟩, if_pos hj]
    · rw [if_neg fun heq => hj heq.1.symm, if_neg hj]
  have hafter : ∀ j, i + 1 ≤ j → j ≤ m.code.ops.length → j ≤ fin.getD j m.code.ops.length :=
    h.after
  have hnext := hafter (i + 1) (Nat.le_refl _) hi
  have hrest : ∀ e, e ≠ i → Rest m keep e → Rest m keep' e := fun e he hr =>
    hr.imp id fun hr => ⟨hr.1, (hother e he).trans hr.2⟩
  have hcase : (f = i ∧ keep'.getD i false = true ∧ keep.getD i false = true) ∨
      (f = fin.getD (i + 1) m.code.ops.length ∧ keep'.getD i false = false ∧
        Reach m i (fin.getD (i + 1) m.code.ops.length)) := by
    rw [← hf]
    rcases hreach with ⟨hk', hk⟩ | ⟨hk', hr⟩
    · exact .inl ⟨by rw [if_pos hk'], hk', hk⟩
    · exact .inr ⟨by rw [hk']; rfl, hk', hr⟩
  refine ⟨⟨by rw [List.length_set]; exact hfl, hlen'.trans hkl⟩, fun j hj => ?_, fun j hj => ?_,
    fun j hj => ?_, fun j hj => ?_, fun j k hj hjk hkf hkn => ?_, fun j hj hjn => ?_⟩
  · by_cases hji : j = i
    · subst hji
      rcases hcase with ⟨-, -, hk⟩ | ⟨-, hk', -⟩
      · exact h.kept j hk
      · rw [hk'] at hj
        cases hj
    · exact h.kept j ((hother j hji).symm.trans hj)
  · exact (hother j (by omega)).trans (h.todo j (by omega))
  · rw [hset]
    split
    · next hji =>
        subst hji
        rcases hcase with ⟨rfl, -, -⟩ | ⟨rfl, -, hr⟩
        · exact .refl (by omega)
        · exact hr
    · exact h.reach j (by omega)
  · rw [hset]
    split
    · rcases hcase with ⟨rfl, hk', -⟩ | ⟨rfl, -, -⟩
      · exact .inr ⟨hi, hk'⟩
      · exact hrest _ (by omega) (h.rest (i + 1) (Nat.le_refl _))
    · next hji =>
        by_cases hjn : j ≤ m.code.ops.length
        · exact hrest _ (by have := hafter j (by omega) hjn; omega) (h.rest j (by omega))
        · rw [List.getD_eq_getElem?_getD, List.getElem?_eq_none (by omega)]
          exact .inl rfl
  · rw [hset] at hkf
    split at hkf
    · next hji =>
        rcases hcase with ⟨rfl, -, -⟩ | ⟨rfl, hk', -⟩
        · omega
        · by_cases hki : k = i
          · rw [hki]
            exact hk'
          · exact (hother k hki).trans (h.between (i + 1) k (Nat.le_refl _) (by omega) hkf hkn)
    · exact (hother k (by omega)).trans (h.between j k (by omega) hjk hkf hkn)
  · rw [hset]
    split
    · rcases hcase with ⟨rfl, -, -⟩ | ⟨rfl, -, -⟩
      · omega
      · omega
    · exact h.after j (by omega) hjn

theorem Finishing.finish {i : ℕ} {s : List ℕ × List Bool} (h : Finishing m i s)
    (hlen : m.keep.length = m.code.ops.length) (hi : i ≤ m.code.ops.length) :
    Finishing m 0 (Exec.finish (thread m.code.ops m.keep) i s) := by
  induction i generalizing s with
  | zero => exact h
  | succ i ih => exact ih (h.turn hlen hi) (by omega)

/-! ### Packing -/

/-- The kept ops in a row. -/
def packed {α : Type*} (xs : List α) (ks : List Bool) : List (α × Bool) :=
  (xs.zip ks).filter (·.2)

theorem ipOf_map (g : ℕ → ℕ) (pcs : List (ℕ × ℕ)) (pc : ℕ) :
    ipOf (pcs.map fun x => (x.1, g x.2)) pc = (ipOf pcs pc).map g := by
  rw [ipOf, ipOf, List.find?_map, Option.map_map, Option.map_map]
  rfl

section Packed

variable (m)

/-- The tables at the end of the loop. -/
def tables : List ℕ × List Bool :=
  finish (thread m.code.ops m.keep) m.code.ops.length
    (List.replicate (m.code.ops.length + 1) m.code.ops.length, m.keep)

/-- The code that `optimize` returns for masked code. -/
def Masked.packed : Code := compact m.code m.code.ops m.keep

def Masked.place (t : ℕ) : ℕ :=
  Exec.place (tables m).1 (remap (tables m).2 0) m.code.ops.length t

variable {m} (hlen : m.keep.length = m.code.ops.length)

include hlen

end Packed

end Exec
end Lunar
