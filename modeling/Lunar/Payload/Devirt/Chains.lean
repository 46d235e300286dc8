/-
# What stands behind what

A block is put behind a block that jumps to it only if no other edge leads to it, so the
blocks behind one another are chains of an injection (`links`).  No chain starts behind a
block, and so the block of a head has the whole chain from the head (`function_getElem?`),
and every block that is neither empty nor behind another one has a number (`outOf_eq_some`).
-/

import Lunar.Lib.Chains
import Lunar.Payload.Devirt.Function

namespace Lunar
namespace Devirt

variable {instr : ℕ → Option (List Stmt × Option Expr)} {fblocks : List Decompile.Block}

/-! ## Targets -/

theorem foldl_target {pc i : ℕ} (l : List Decompile.Block) (k : ℕ) (m : Option ℕ)
    (h : (l.zipIdx k).foldl (fun m b => if b.1.pc = pc then some b.2 else m) m = some i) :
    m = some i ∨ ∃ j b, i = k + j ∧ l[j]? = some b ∧ b.pc = pc := by
  induction l generalizing k m with
  | nil => exact .inl h
  | cons b l ih =>
      rcases ih (k + 1) _ h with hm | ⟨j, b', rfl, hget, hpc⟩
      · dsimp only at hm
        split at hm
        · rename_i hpc
          exact .inr ⟨0, b, (Option.some.inj hm).symm, rfl, hpc⟩
        · exact .inl hm
      · exact .inr ⟨j + 1, b', by omega, hget, hpc⟩

/-- The block at a pc has the pc. -/
theorem target_spec {pc i : ℕ} (h : target fblocks pc = some i) :
    ∃ b, fblocks[i]? = some b ∧ b.pc = pc := by
  rcases foldl_target fblocks 0 none h with hm | ⟨j, b, rfl, hget, hpc⟩
  · cases hm
  · rw [Nat.zero_add]
    exact ⟨b, hget, hpc⟩

theorem target_lt {pc i : ℕ} (h : target fblocks pc = some i) : i < fblocks.length := by
  obtain ⟨b, hget, -⟩ := target_spec h
  exact (List.getElem?_eq_some_iff.1 hget).1

theorem resolveFrom_lt {n li j : ℕ} (hli : li < fblocks.length)
    (h : resolveFrom instr fblocks n li = some j) : j < fblocks.length := by
  induction n generalizing li with
  | zero =>
      obtain rfl := Option.some.inj h
      exact hli
  | succ n ih =>
      rw [resolveFrom] at h
      split at h
      · split at h
        · obtain ⟨t, ht, h⟩ := Option.bind_eq_some_iff.1 h
          exact ih (target_lt ht) h
        · obtain rfl := Option.some.inj h
          exact hli
      · obtain rfl := Option.some.inj h
        exact hli

theorem lands_lt {pc j : ℕ} (h : lands instr fblocks pc = some j) : j < fblocks.length := by
  obtain ⟨t, ht, h⟩ := Option.bind_eq_some_iff.1 h
  exact resolveFrom_lt (target_lt ht) h

/-- A block that is not empty is where it leads. -/
theorem resolveFrom_of_not_empty {n li : ℕ} (h : empty instr fblocks li = false) :
    resolveFrom instr fblocks n li = some li := by
  cases n with
  | zero => rfl
  | succ n => rw [resolveFrom, if_neg (Bool.eq_false_iff.1 h)]

theorem lt_of_jumpPc {i pc : ℕ} (h : jumpPc (term fblocks i) = some pc) : i < fblocks.length := by
  by_contra hge
  have hnone : fblocks[i]? = none := List.getElem?_eq_none (Nat.not_lt.1 hge)
  rw [term, hnone] at h
  cases h

/-- What an empty block is. -/
theorem empty_spec {i : ℕ} (h : empty instr fblocks i = true) :
    (∃ pc, jumpPc (term fblocks i) = some pc) ∧
      ∀ ix ∈ instrs fblocks i, instr ix = some ([], none) := by
  obtain ⟨hjump, hall⟩ := Bool.and_eq_true_iff.1 h
  refine ⟨Option.isSome_iff_exists.1 hjump, fun ix hix => ?_⟩
  have hbody := List.all_eq_true.1 hall ix hix
  unfold emptyBody at hbody
  split at hbody
  · assumption
  · cases hbody

/-! ## Edges -/

/-- Where the edges of a block lead. -/
def succs (instr : ℕ → Option (List Stmt × Option Expr)) (fblocks : List Decompile.Block)
    (i : ℕ) : List ℕ :=
  (rsucc instr fblocks i).1.toList ++ (rsucc instr fblocks i).2.toList

theorem count_flatMap_two {l : List ℕ} {f : ℕ → List ℕ} {a b t : ℕ} (ha : a ∈ l) (hb : b ∈ l)
    (hne : a ≠ b) : (f a).count t + (f b).count t ≤ (l.flatMap f).count t := by
  have hb' : b ∈ l.erase a := (List.mem_erase_of_ne (Ne.symm hne)).2 hb
  have hperm : l.Perm (a :: b :: (l.erase a).erase b) :=
    (List.perm_cons_erase ha).trans ((List.perm_cons_erase hb').cons a)
  rw [(hperm.flatMap_right f).count_eq t, List.flatMap_cons, List.flatMap_cons, List.count_append,
    List.count_append]
  omega

theorem succs_lt {i t : ℕ} (h : t ∈ succs instr fblocks i) : t < fblocks.length := by
  have hlands : ∀ {pc}, t ∈ (lands instr fblocks pc).toList → t < fblocks.length :=
    fun ht => lands_lt (Option.mem_toList.1 ht)
  unfold succs rsucc at h
  split at h
  · cases h
  · split at h
    · exact (List.mem_append.1 h).elim hlands nofun
    · exact (List.mem_append.1 h).elim hlands nofun
    · exact (List.mem_append.1 h).elim hlands nofun
    · exact (List.mem_append.1 h).elim hlands hlands
    · cases h

/-- A block with one edge to it has it from one block. -/
theorem succs_unique {a b t : ℕ} (h : preds instr fblocks t = 1) (ha : a < fblocks.length)
    (hb : b < fblocks.length) (hat : t ∈ succs instr fblocks a) (hbt : t ∈ succs instr fblocks b) :
    a = b := by
  by_contra hne
  have hcount := count_flatMap_two (f := succs instr fblocks) (t := t) (List.mem_range.2 ha)
    (List.mem_range.2 hb) hne
  have hpos := List.count_pos_iff.2 hat
  have hpos' := List.count_pos_iff.2 hbt
  have hone : ((List.range fblocks.length).flatMap (succs instr fblocks)).count t = 1 := h
  omega

/-- What it takes to be put behind a block. -/
theorem next_eq_some {i t : ℕ} : next instr fblocks i = some t ↔
    empty instr fblocks i = false ∧ (∃ pc, jumpPc (term fblocks i) = some pc) ∧
      (rsucc instr fblocks i).1 = some t ∧ t ≠ i ∧ some t ≠ entry instr fblocks ∧
      preds instr fblocks t = 1 ∧ empty instr fblocks t = false := by
  unfold next
  constructor
  · intro h
    split at h
    · cases h
    · rename_i hempty
      split at h
      · rename_i pc t' hjump hsucc
        split at h
        · rename_i hcond
          obtain rfl := Option.some.inj h
          obtain ⟨hne, hentry, hpreds, ht⟩ := hcond
          exact ⟨Bool.eq_false_iff.2 hempty, ⟨pc, hjump⟩, hsucc, hne, hentry, hpreds,
            Bool.eq_false_iff.2 ht⟩
        · cases h
      · cases h
  · rintro ⟨hempty, ⟨pc, hjump⟩, hsucc, hne, hentry, hpreds, ht⟩
    rw [if_neg (Bool.eq_false_iff.1 hempty), hjump, hsucc]
    exact if_pos ⟨hne, hentry, hpreds, Bool.eq_false_iff.1 ht⟩

theorem next_lt {i t : ℕ} (h : next instr fblocks i = some t) : i < fblocks.length := by
  obtain ⟨-, ⟨pc, hjump⟩, -⟩ := next_eq_some.1 h
  exact lt_of_jumpPc hjump

theorem next_succs {i t : ℕ} (h : next instr fblocks i = some t) : t ∈ succs instr fblocks i := by
  obtain ⟨-, -, hsucc, -⟩ := next_eq_some.1 h
  exact List.mem_append_left _ (Option.mem_toList.2 hsucc)

theorem absorbed_iff {t : ℕ} :
    absorbed instr fblocks t = true ↔ ∃ i, next instr fblocks i = some t := by
  unfold absorbed
  rw [List.any_eq_true]
  constructor
  · rintro ⟨i, -, h⟩
    exact ⟨i, of_decide_eq_true h⟩
  · rintro ⟨i, h⟩
    exact ⟨i, List.mem_range.2 (next_lt h), decide_eq_true h⟩

/-- An edge to a block that stands behind another one comes from there. -/
theorem next_of_absorbed {i t : ℕ} (hi : i < fblocks.length) (ht : t ∈ succs instr fblocks i)
    (h : absorbed instr fblocks t = true) : next instr fblocks i = some t := by
  obtain ⟨j, hj⟩ := absorbed_iff.1 h
  obtain ⟨-, -, -, -, -, hpreds, -⟩ := next_eq_some.1 hj
  rw [succs_unique hpreds hi (next_lt hj) ht (next_succs hj)]
  exact hj

/-- **Nothing stands behind two blocks.** -/
theorem links : Lib.Links (next instr fblocks) fun i => absorbed instr fblocks i = false where
  inj := by
    intro a b c ha hb
    obtain ⟨-, -, -, -, -, hpreds, -⟩ := next_eq_some.1 ha
    exact succs_unique hpreds (next_lt ha) (next_lt hb) (next_succs ha) (next_succs hb)
  fresh := by
    intro a b h
    exact Bool.eq_false_iff.not_left.2 (absorbed_iff.2 ⟨a, h⟩)

/-! ## Heads -/

theorem entry_not_absorbed {i : ℕ} (h : entry instr fblocks = some i) :
    absorbed instr fblocks i = false := by
  by_contra habs
  obtain ⟨j, hj⟩ := absorbed_iff.1 (Bool.eq_true_of_not_eq_false habs)
  obtain ⟨-, -, -, -, hentry, -⟩ := next_eq_some.1 hj
  exact hentry h.symm

theorem heads_eq : heads instr fblocks = (entry instr fblocks).toList ++
    (List.range fblocks.length).filter fun i =>
      !empty instr fblocks i && !absorbed instr fblocks i && some i ≠ entry instr fblocks := by
  have hfilter : (entry instr fblocks).filter (!absorbed instr fblocks ·)
      = entry instr fblocks := by
    cases h : entry instr fblocks with
    | none => rfl
    | some i =>
        refine Option.filter_eq_some_iff.2 ⟨rfl, ?_⟩
        rw [entry_not_absorbed h]
        rfl
  rw [heads, hfilter]

theorem mem_heads {i : ℕ} : i ∈ heads instr fblocks ↔
    entry instr fblocks = some i ∨ i < fblocks.length ∧ empty instr fblocks i = false ∧
      absorbed instr fblocks i = false := by
  rw [heads_eq, List.mem_append, Option.mem_toList, List.mem_filter,
    List.mem_range, Bool.and_eq_true, Bool.and_eq_true, Bool.not_eq_true', Bool.not_eq_true',
    decide_eq_true_iff]
  constructor
  · rintro (h | ⟨hlt, ⟨hempty, habs⟩, -⟩)
    · exact .inl h
    · exact .inr ⟨hlt, hempty, habs⟩
  · rintro (h | ⟨hlt, hempty, habs⟩)
    · exact .inl h
    · by_cases hentry : entry instr fblocks = some i
      · exact .inl hentry
      · exact .inr ⟨hlt, ⟨hempty, habs⟩, Ne.symm hentry⟩

theorem heads_nodup : (heads instr fblocks).Nodup := by
  rw [heads_eq]
  refine List.Nodup.append ?_ (List.nodup_range.filter _) ?_
  · cases entry instr fblocks with
    | none => exact List.nodup_nil
    | some i => exact List.nodup_singleton i
  · intro i hi hi'
    have hne := (Bool.and_eq_true_iff.1 (List.mem_filter.1 hi').2).2
    exact of_decide_eq_true hne (Option.mem_toList.1 hi).symm

theorem head_not_absorbed {i : ℕ} (h : i ∈ heads instr fblocks) :
    absorbed instr fblocks i = false := by
  rcases mem_heads.1 h with hentry | ⟨-, -, habs⟩
  · exact entry_not_absorbed hentry
  · exact habs

theorem head_lt {i : ℕ} (h : i ∈ heads instr fblocks) (hne : fblocks ≠ []) :
    i < fblocks.length := by
  rcases mem_heads.1 h with hentry | ⟨hlt, -⟩
  · exact resolveFrom_lt (List.length_pos_iff.2 hne) hentry
  · exact hlt

/-- A block that is neither empty nor behind another one has a number. -/
theorem outOf_eq_some {first i : ℕ} (hi : i < fblocks.length)
    (hempty : empty instr fblocks i = false) (habs : absorbed instr fblocks i = false) :
    ∃ k, outOf instr fblocks first i = some (first + k) ∧ (heads instr fblocks)[k]? = some i := by
  have hmem : i ∈ heads instr fblocks := mem_heads.2 (.inr ⟨hi, hempty, habs⟩)
  obtain ⟨k, hk⟩ := Option.ne_none_iff_exists'.1 (mt List.idxOf?_eq_none_iff.1 (not_not.2 hmem))
  obtain ⟨hlt, hget, -⟩ := List.idxOf?_eq_some_iff.1 hk
  refine ⟨k, ?_, ?_⟩
  · rw [outOf, hk]
    rfl
  · rw [List.getElem?_eq_getElem hlt, hget]

/-! ## Chains -/

/-- The chain from a block. -/
def chainFrom (instr : ℕ → Option (List Stmt × Option Expr)) (fblocks : List Decompile.Block)
    (h : ℕ) : List ℕ := (Lib.chain (next instr fblocks) (fblocks.length + 1) h).getD []

theorem after_lt {k h x : ℕ} (hh : h < fblocks.length)
    (hx : Lib.after (next instr fblocks) k h = some x) : x < fblocks.length := by
  cases k with
  | zero =>
      obtain rfl := Option.some.inj hx
      exact hh
  | succ k =>
      obtain ⟨y, -, hy⟩ := Option.bind_eq_some_iff.1 hx
      exact succs_lt (next_succs hy)

theorem chain_eq {h : ℕ} (hhead : h ∈ heads instr fblocks) (hne : fblocks ≠ []) :
    Lib.chain (next instr fblocks) (fblocks.length + 1) h = some (chainFrom instr fblocks h) ∧
      (chainFrom instr fblocks h).Nodup := by
  obtain ⟨xs, hnodup, hchain⟩ := links.exists_chain (head_not_absorbed hhead)
    (List.range fblocks.length) fun k x hx =>
      List.mem_range.2 (after_lt (head_lt hhead hne) hx)
  have hxs := hchain (fblocks.length + 1) (by rw [List.length_range]; omega)
  rw [chainFrom, hxs]
  exact ⟨rfl, hnodup⟩

/-- The walk from a block that is on no chain yet is its chain. -/
theorem walk_eq {n m h : ℕ} {visited xs : List ℕ}
    (hchain : Lib.chain (next instr fblocks) m h = some xs) (hnodup : xs.Nodup)
    (hfresh : ∀ x ∈ xs, x ∉ visited) (hn : m ≤ n) :
    walk instr fblocks visited n (some h) = xs := by
  induction m generalizing n h visited xs with
  | zero => cases hchain
  | succ m ih =>
      obtain ⟨n, rfl⟩ := Nat.exists_eq_add_of_lt (Nat.lt_of_lt_of_le (Nat.succ_pos m) hn)
      rw [Nat.zero_add]
      rw [Lib.chain] at hchain
      rw [walk]
      cases hnext : next instr fblocks h with
      | none =>
          rw [hnext] at hchain
          obtain rfl := Option.some.inj hchain
          rw [if_neg (hfresh h List.mem_cons_self)]
          cases n <;> rfl
      | some b =>
          rw [hnext] at hchain
          obtain ⟨ys, hys, rfl⟩ := Option.map_eq_some_iff.1 hchain
          obtain ⟨hh, hnodup'⟩ := List.nodup_cons.1 hnodup
          have hfresh' : ∀ x ∈ ys, x ∉ h :: visited := by
            intro x hx hmem
            rcases List.mem_cons.1 hmem with rfl | hmem
            · exact hh hx
            · exact hfresh x (List.mem_cons_of_mem _ hx) hmem
          rw [if_neg (hfresh h List.mem_cons_self), ih hys hnodup' hfresh' (by omega)]

theorem blocksFrom_eq {first : ℕ} {visited hs : List ℕ} (hne : fblocks ≠ []) (hnodup : hs.Nodup)
    (hheads : ∀ h ∈ hs, h ∈ heads instr fblocks)
    (hfresh : ∀ h ∈ hs, ∀ x ∈ chainFrom instr fblocks h, x ∉ visited) :
    blocksFrom instr fblocks first visited hs
      = hs.map fun h => block instr fblocks first h (chainFrom instr fblocks h) := by
  induction hs generalizing visited with
  | nil => rfl
  | cons h hs ih =>
      have hhead := hheads h List.mem_cons_self
      obtain ⟨hchain, hnodup'⟩ := chain_eq hhead hne
      obtain ⟨hh, hnodups⟩ := List.nodup_cons.1 hnodup
      have hwalk := walk_eq hchain hnodup' (hfresh h List.mem_cons_self) (Nat.le_refl _)
      have hfresh' : ∀ h' ∈ hs, ∀ x ∈ chainFrom instr fblocks h',
          x ∉ chainFrom instr fblocks h ++ visited := by
        intro h' hh' x hx hmem
        have hhead' := hheads h' (List.mem_cons_of_mem _ hh')
        rcases List.mem_append.1 hmem with hmem | hmem
        · obtain ⟨k, hk⟩ := (Lib.chain_mem hchain).1 hmem
          obtain ⟨k', hk'⟩ := (Lib.chain_mem (chain_eq hhead' hne).1).1 hx
          have hsame := (links.after_unique (head_not_absorbed hhead) (head_not_absorbed hhead')
            hk hk').1
          rw [hsame] at hh
          exact hh hh'
        · exact hfresh h' (List.mem_cons_of_mem _ hh') x hx hmem
      rw [blocksFrom, List.map_cons, hwalk, ih hnodups (fun h' hh' => hheads h' (List.mem_cons_of_mem _ hh')) hfresh']

/-- **The blocks of a function** are those of its heads, each with the whole chain from the
head. -/
theorem function_eq {first : ℕ} (hne : fblocks ≠ []) : function instr fblocks first
    = (heads instr fblocks).map fun h =>
        block instr fblocks first h (chainFrom instr fblocks h) := by
  rw [function, if_neg hne]
  exact blocksFrom_eq hne heads_nodup (fun h hh => hh) fun h _ x _ => List.not_mem_nil

/-! ## Statements -/

theorem lower_concat (ixs : List ℕ) (ix : ℕ) :
    lower instr (ixs ++ [ix]) = lowerInstr instr (lower instr ixs) ix := by
  rw [lower, List.foldl_append]
  rfl

/-- Instructions add their statements, and lack a template if one of them does. -/
theorem lower_append (a b : List ℕ) :
    (lower instr (a ++ b)).1 = (lower instr a).1 ++ (lower instr b).1 ∧
      (lower instr (a ++ b)).2.2 = ((lower instr a).2.2 || (lower instr b).2.2) := by
  induction b using List.reverseRecOn with
  | nil =>
      rw [List.append_nil]
      exact ⟨(List.append_nil _).symm, (Bool.or_false _).symm⟩
  | append_singleton b ix ih =>
      obtain ⟨htop, hbroken⟩ := ih
      rw [← List.append_assoc, lower_concat, lower_concat]
      unfold lowerInstr
      cases instr ix with
      | none => exact ⟨htop, (Bool.or_true _).symm⟩
      | some r =>
          refine ⟨?_, hbroken⟩
          show _ ++ _ = _ ++ (_ ++ _)
          rw [htop, List.append_assoc]

/-- The condition is that of the last instruction. -/
theorem lower_cond {a b : List ℕ} (hb : b ≠ []) (hbroken : (lower instr b).2.2 = false) :
    (lower instr (a ++ b)).2.1 = (lower instr b).2.1 := by
  induction b using List.reverseRecOn with
  | nil => exact absurd rfl hb
  | append_singleton b ix _ =>
      rw [lower_concat] at hbroken
      rw [← List.append_assoc, lower_concat, lower_concat]
      unfold lowerInstr at hbroken ⊢
      cases hix : instr ix with
      | none =>
          rw [hix] at hbroken
          cases hbroken
      | some r => rfl

/-- Instructions with templates. -/
theorem lower_whole {ixs : List ℕ} (h : ∀ ix ∈ ixs, (instr ix).isSome) :
    (lower instr ixs).2.2 = false := by
  induction ixs using List.reverseRecOn with
  | nil => rfl
  | append_singleton b ix ih =>
      rw [lower_concat]
      unfold lowerInstr
      cases hix : instr ix with
      | none =>
          have hsome := h ix (List.mem_append_right _ List.mem_cons_self)
          rw [hix] at hsome
          cases hsome
      | some r => exact ih fun ix' hix' => h ix' (List.mem_append_left _ hix')

end Devirt
end Lunar
