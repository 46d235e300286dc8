/-
# The blocks of the functions

The search from the entry of a function gathers exactly the blocks that the entry reaches
(`gather_spec`).  They are numbered in order, their edges by these numbers, and the
registers of the function are bounded by those of its blocks (`functions_ok`).  What is
found of one function stays when the next are added.
-/

import Mathlib.Data.List.Sort
import Lunar.Worktime.Fc.Build.Cutting

namespace Lunar
namespace Fc

open Lib (Searched Reach)
open Relation (TransGen)
open Worktime (Instr Op Operand)

/-! ## The search -/

/-- The search marks what it has gathered and what it still has to visit, each once. -/
structure Walk.Marked (blocks : List BasicBlock) (s : ℕ) (stamp₀ : ℕ → ℕ) (w : Walk) : Prop where
  nodup : (w.fblocks ++ w.stack).Nodup
  stamped : ∀ b, w.stamp b = s ↔ b ∈ w.fblocks ++ w.stack
  bound : ∀ b ∈ w.fblocks ++ w.stack, b < blocks.length
  others : ∀ b, w.stamp b = s ∨ w.stamp b = stamp₀ b

theorem push_spec {blocks : List BasicBlock} {s : ℕ} {stamp₀ : ℕ → ℕ} {w : Walk}
    (h : w.Marked blocks s stamp₀) {o : Option ℕ} (ho : ∀ t, o = some t → t < blocks.length) :
    (w.push s o).Marked blocks s stamp₀ ∧ (w.push s o).fblocks = w.fblocks ∧
      w.stack ⊆ (w.push s o).stack ∧ (∀ b ∈ (w.push s o).stack, b ∈ w.stack ∨ o = some b) ∧
      ∀ t, o = some t → t ∈ w.fblocks ++ (w.push s o).stack := by
  cases o with
  | none =>
      exact ⟨h, rfl, List.Subset.refl _, fun b hb => .inl hb, fun t ht => nomatch ht⟩
  | some t =>
      rw [Walk.push]
      split
      · next hne =>
          have hnew : t ∉ w.fblocks ++ w.stack := fun ht => hne ((h.stamped t).2 ht)
          refine ⟨⟨?_, fun b => ?_, fun b hb => ?_, fun b => ?_⟩, rfl, List.subset_cons_self _ _,
            fun b hb => ?_, fun t' ht' => ?_⟩
          · rw [List.nodup_middle]
            exact List.nodup_cons.2 ⟨hnew, h.nodup⟩
          · show Function.update w.stamp t s b = s ↔ _
            rw [List.mem_append, List.mem_cons]
            by_cases hbt : b = t
            · rw [hbt, Function.update_self]
              exact iff_of_true rfl (.inr (.inl rfl))
            · rw [Function.update_of_ne hbt, h.stamped b, List.mem_append, or_iff_right hbt]
          · rw [List.mem_append, List.mem_cons] at hb
            rcases hb with hb | rfl | hb
            · exact h.bound b (List.mem_append_left _ hb)
            · exact ho b rfl
            · exact h.bound b (List.mem_append_right _ hb)
          · show Function.update w.stamp t s b = s ∨ Function.update w.stamp t s b = stamp₀ b
            by_cases hbt : b = t
            · rw [hbt, Function.update_self]
              exact .inl rfl
            · rw [Function.update_of_ne hbt]
              exact h.others b
          · rcases List.mem_cons.1 hb with rfl | hb
            · exact .inr rfl
            · exact .inl hb
          · rw [← Option.some_inj.1 ht']
            exact List.mem_append_right _ List.mem_cons_self
      · next heq =>
          refine ⟨h, rfl, List.Subset.refl _, fun b hb => .inl hb, fun t' ht' => ?_⟩
          rw [← Option.some_inj.1 ht']
          exact (h.stamped t).1 (not_not.1 heq)

/-- What the search keeps. -/
structure Walk.Inv (blocks : List BasicBlock) (s eb : ℕ) (stamp₀ : ℕ → ℕ) (w : Walk) : Prop where
  marked : w.Marked blocks s stamp₀
  search : Searched (BlockNext blocks) eb {b | b ∈ w.fblocks} w.stack

/-- Edges of the blocks go to blocks. -/
def Linked (blocks : List BasicBlock) : Prop := ∀ k l, BlockNext blocks k l → l < blocks.length

theorem blockNext_iff {blocks : List BasicBlock} {k l : ℕ} (hk : k < blocks.length) :
    BlockNext blocks k l ↔ (blocks.getD k .empty).succ.1 = some l ∨
      (blocks.getD k .empty).succ.2 = some l := by
  rw [BlockNext, List.getElem?_eq_getElem hk, List.getD_eq_getElem _ _ hk]
  refine ⟨?_, fun h => ⟨_, rfl, h⟩⟩
  rintro ⟨b, hb, h⟩
  exact Option.some_inj.1 hb ▸ h

/-- **A turn of the search** takes one block more. -/
theorem Walk.Inv.turn {blocks : List BasicBlock} {s eb : ℕ} {stamp₀ : ℕ → ℕ} {w w' : Walk}
    (hlink : Linked blocks) (h : w.Inv blocks s eb stamp₀) (hw : Walk.turn blocks s w = some w') :
    w'.Inv blocks s eb stamp₀ ∧
      blocks.length - w'.fblocks.length < blocks.length - w.fblocks.length := by
  rw [Walk.turn] at hw
  rcases hstack : w.stack with _ | ⟨b, stack⟩
  · rw [hstack] at hw
    cases hw
  rw [hstack] at hw
  have hperm : (w.fblocks ++ [b]) ++ stack = w.fblocks ++ w.stack := by
    rw [hstack, List.append_assoc, List.singleton_append]
  have hpop : Walk.Marked blocks s stamp₀ { w with stack, fblocks := w.fblocks ++ [b] } :=
    ⟨hperm ▸ h.marked.nodup, hperm ▸ h.marked.stamped, hperm ▸ h.marked.bound, h.marked.others⟩
  have hb : b < blocks.length :=
    h.marked.bound b (hstack ▸ List.mem_append_right _ List.mem_cons_self)
  obtain ⟨hmark₁, hfb₁, hkeep₁, hnew₁, hput₁⟩ := push_spec hpop
    (o := (blocks.getD b .empty).succ.1) fun t ht => hlink b t ((blockNext_iff hb).2 (.inl ht))
  obtain ⟨hmark₂, hfb₂, hkeep₂, hnew₂, hput₂⟩ := push_spec hmark₁
    (o := (blocks.getD b .empty).succ.2) fun t ht => hlink b t ((blockNext_iff hb).2 (.inr ht))
  rw [← Option.some_inj.1 hw]
  have hfb := hfb₂.trans hfb₁
  have hlen : w.fblocks.length < blocks.length := by
    have hnodup := hpop.nodup.sublist (List.sublist_append_left _ _)
    have hsub : (w.fblocks ++ [b]) ⊆ List.range blocks.length := fun c hc =>
      List.mem_range.2 (hpop.bound c (List.mem_append_left _ hc))
    have hle := (hnodup.subperm hsub).length_le
    rw [List.length_append, List.length_singleton, List.length_range] at hle
    exact hle
  refine ⟨⟨hmark₂, ?_⟩, ?_⟩
  · have hset : {c | c ∈ w.fblocks ++ [b]} = insert b {c | c ∈ w.fblocks} := by
      ext c
      rw [Set.mem_insert_iff, Set.mem_ofPred_eq, List.mem_append, List.mem_singleton, or_comm]
      rfl
    rw [hfb, hset]
    have hsearch := h.search
    rw [hstack] at hsearch
    refine hsearch.visit (fun c hc => ?_) (fun c hc => hkeep₂ (hkeep₁ hc)) fun c hc => ?_
    · rcases hnew₂ c hc with hc | hc
      · rcases hnew₁ c hc with hc | hc
        · exact .inr hc
        · exact .inl ((blockNext_iff hb).2 (.inl hc))
      · exact .inl ((blockNext_iff hb).2 (.inr hc))
    · rw [← hset]
      rcases (blockNext_iff hb).1 hc with hc | hc
      · rcases List.mem_append.1 (hput₁ c hc) with hc | hc
        · exact .inl hc
        · exact .inr (hkeep₂ hc)
      · rcases List.mem_append.1 (hput₂ c hc) with hc | hc
        · rw [hfb₁] at hc
          exact .inl hc
        · exact .inr hc
  · rw [hfb, List.length_append, List.length_singleton]
    omega

/-- **The search gathers what the block reaches**, each block once, and stamps it. -/
theorem gather_spec {blocks : List BasicBlock} {stamp : ℕ → ℕ} {s eb : ℕ} (hlink : Linked blocks)
    (heb : eb < blocks.length) (hstamp : ∀ b, stamp b < s) :
    (gather blocks stamp s eb).fblocks.Nodup ∧
      (∀ b ∈ (gather blocks stamp s eb).fblocks, b < blocks.length) ∧
      (∀ b, b ∈ (gather blocks stamp s eb).fblocks ↔ Reach (BlockNext blocks) eb b) ∧
      ∀ b, (gather blocks stamp s eb).stamp b ≤ s := by
  have hstart : Walk.Inv blocks s eb stamp ⟨Function.update stamp eb s, [eb], []⟩ := by
    refine ⟨⟨List.nodup_singleton eb, fun b => ?_, fun b hb => ?_, fun b => ?_⟩, ?_⟩
    · show Function.update stamp eb s b = s ↔ _
      rw [List.nil_append, List.mem_singleton]
      by_cases hbe : b = eb
      · rw [hbe, Function.update_self]
        exact iff_of_true rfl rfl
      · rw [Function.update_of_ne hbe]
        exact iff_of_false (hstamp b).ne hbe
    · rw [List.nil_append, List.mem_singleton] at hb
      exact hb ▸ heb
    · show Function.update stamp eb s b = s ∨ Function.update stamp eb s b = stamp b
      by_cases hbe : b = eb
      · rw [hbe, Function.update_self]
        exact .inl rfl
      · rw [Function.update_of_ne hbe]
        exact .inr rfl
    · have hempty : {b | b ∈ ([] : List ℕ)} = (∅ : Set ℕ) := by
        ext b
        exact iff_of_false List.not_mem_nil (Set.notMem_empty b)
      show Searched (BlockNext blocks) eb {b | b ∈ ([] : List ℕ)} [eb]
      rw [hempty]
      exact Searched.start
  obtain ⟨w, hw, hend, hloop⟩ := @Lib.loop_spec _ _ (Walk.Inv blocks s eb stamp)
    (fun w => blocks.length - w.fblocks.length) (fun w w' hw ht => hw.turn hlink ht) _ hstart
  have hgather : gather blocks stamp s eb = w := by
    rw [gather, hloop _ (Nat.lt_succ_of_le (Nat.sub_le _ _))]
    rfl
  have hstack : w.stack = [] := by
    rcases hstack : w.stack with _ | ⟨b, stack⟩
    · rfl
    · rw [Walk.turn, hstack] at hend
      cases hend
  have hmarked := hw.marked
  have hsearch := hw.search
  rw [hstack] at hsearch
  rw [hgather]
  refine ⟨hmarked.nodup.sublist (List.sublist_append_left _ _),
    fun b hb => hmarked.bound b (List.mem_append_left _ hb), hsearch.done, fun b => ?_⟩
  rcases hmarked.others b with hb | hb
  · exact hb.le
  · exact hb ▸ (hstamp b).le

/-! ## The blocks of one function -/

/-- The edges of a block by the places of its function's blocks. -/
def localEdge (blocks : List BasicBlock) (own : List ℕ) (b : ℕ) : Edge :=
  ((blocks.getD b .empty).succ.1.map own.idxOf, (blocks.getD b .empty).succ.2.map own.idxOf)

/-- A pair of a variable and a function. -/
def PairIn (nkeys nfuncs : ℕ) (p : ℕ × ℕ) : Prop := p.1 < nkeys ∧ p.2 < nfuncs

/-- The variables that instructions name are counted. -/
def VarsIn (instrs : List Instr) (nvars : ℕ) : Prop :=
  ∀ ins ∈ instrs, NamesVar ins.op → ∀ id, ins.arg 0 = .int id → 0 ≤ id → id.toNat < nvars

theorem selfPairs_in {instrs : List Instr} {nvars nfuncs f : ℕ} (hvars : VarsIn instrs nvars)
    (hf : f < nfuncs) (b : BasicBlock) : ∀ p ∈ selfPairs instrs f b, PairIn nvars nfuncs p := by
  intro p hp
  rw [selfPairs] at hp
  split at hp
  · obtain ⟨ins, hins, hpair⟩ := List.mem_filterMap.1 hp
    split at hpair
    · next id hop harg =>
        split at hpair
        · next hpos =>
            rw [← Option.some_inj.1 hpair]
            exact ⟨hvars ins (List.mem_of_mem_take (List.mem_of_mem_drop hins))
              (.inr (.inr (.inr (.inr (.inl hop))))) id harg hpos, hf⟩
        · cases hpair
    · cases hpair
  · exact absurd hp List.not_mem_nil

/-- What is found of the first `k` blocks of a function. -/
structure Members.Inv (blocks : List BasicBlock) (own : List ℕ) (nvars nfuncs k : ℕ)
    (m : Members) : Prop where
  numbered : ∀ j b, j < k → own[j]? = some b → m.local_ b = j
  regs : ∀ j b, j < k → own[j]? = some b → (blocks.getD b .empty).maxReg ≤ m.maxReg
  three : 3 ≤ m.maxReg
  max : m.maxReg < MAX_REGISTER
  pairs : ∀ p ∈ m.varPairs, PairIn nvars nfuncs p

theorem members_ok {instrs : List Instr} {blocks : List BasicBlock} {own : List ℕ}
    {nvars nfuncs f : ℕ} (hvars : VarsIn instrs nvars) (hf : f < nfuncs) (hnodup : own.Nodup)
    {local_ : ℕ → ℕ} {varPairs : List (ℕ × ℕ)} {m : Members}
    (hpairs : ∀ p ∈ varPairs, PairIn nvars nfuncs p)
    (h : own.zipIdx.foldlM (Members.step instrs blocks f) ⟨local_, 3, varPairs⟩ = .ok m) :
    m.Inv blocks own nvars nfuncs own.length := by
  refine Lib.foldlM_zipIdx (P := Members.Inv blocks own nvars nfuncs) (fun k b u v hb hu hv => ?_)
    ⟨fun _ _ hj => absurd hj (Nat.not_lt_zero _), fun _ _ hj => absurd hj (Nat.not_lt_zero _),
      Nat.le_refl 3, by show 3 < 4096; omega, hpairs⟩ h
  rw [Members.step] at hv
  split at hv
  · cases hv
  · next hmax =>
      rw [← Except.ok.inj hv]
      refine ⟨fun j c hj hc => ?_, fun j c hj hc => ?_, hu.three.trans (Nat.le_max_left _ _),
        Nat.max_lt.2 ⟨hu.max, Nat.lt_of_not_le hmax⟩, fun p hp => ?_⟩
      · show Function.update u.local_ b k c = j
        rcases Nat.lt_succ_iff_lt_or_eq.1 hj with hj | rfl
        · have hne : c ≠ b := by
            rintro rfl
            obtain ⟨hjlt, hjc⟩ := List.getElem?_eq_some_iff.1 hc
            obtain ⟨hklt, hkc⟩ := List.getElem?_eq_some_iff.1 hb
            exact hj.ne ((hnodup.getElem_inj_iff).1 (hjc.trans hkc.symm))
          rw [Function.update_of_ne hne]
          exact hu.numbered j c hj hc
        · rw [hb] at hc
          rw [Option.some_inj.1 hc, Function.update_self]
      · rcases Nat.lt_succ_iff_lt_or_eq.1 hj with hj | rfl
        · exact (hu.regs j c hj hc).trans (Nat.le_max_left _ _)
        · rw [hb] at hc
          rw [← Option.some_inj.1 hc]
          exact Nat.le_max_right _ _
      · rcases List.mem_append.1 hp with hp | hp
        · exact hu.pairs p hp
        · exact selfPairs_in hvars hf _ p hp

/-- The numbers of the blocks are their places. -/
theorem Members.Inv.local_eq {blocks : List BasicBlock} {own : List ℕ} {nvars nfuncs : ℕ}
    {m : Members} (h : m.Inv blocks own nvars nfuncs own.length) {b : ℕ} (hb : b ∈ own) :
    m.local_ b = own.idxOf b := by
  have hlt := List.idxOf_lt_length_iff.2 hb
  refine h.numbered _ b hlt ?_
  rw [List.getElem?_eq_getElem hlt, List.getElem_idxOf]

/-! ## All functions -/

/-- A function stands in the tables: `own` are its blocks, those that its entry block
reaches. -/
structure Placed (blocks : List BasicBlock) (fblocks : List ℕ) (fsucc : List Edge) (eb : ℕ)
    (func : Func) (own : List ℕ) : Prop where
  fblocks : ∃ pre post, fblocks = pre ++ own ++ post ∧ pre.length = func.first
  fsucc : ∃ pre post, fsucc = pre ++ own.map (localEdge blocks own) ++ post ∧
    pre.length = func.first
  count : own.length = func.count
  nodup : own.Nodup
  bound : ∀ b ∈ own, b < blocks.length
  members : ∀ b, b ∈ own ↔ Reach (BlockNext blocks) eb b
  entry : own[func.entry]? = some eb
  regs : ∀ b ∈ own, (blocks.getD b .empty).maxReg < func.nregs
  nregs : 4 ≤ func.nregs ∧ func.nregs ≤ MAX_REGISTER

theorem Placed.append {blocks : List BasicBlock} {fblocks : List ℕ} {fsucc : List Edge} {eb : ℕ}
    {func : Func} {own : List ℕ} (h : Placed blocks fblocks fsucc eb func own) (bs : List ℕ)
    (es : List Edge) : Placed blocks (fblocks ++ bs) (fsucc ++ es) eb func own := by
  obtain ⟨pre, post, heq, hlen⟩ := h.fblocks
  obtain ⟨pre', post', heq', hlen'⟩ := h.fsucc
  exact ⟨⟨pre, post ++ bs, by rw [heq, List.append_assoc], hlen⟩,
    ⟨pre', post' ++ es, by rw [heq', List.append_assoc], hlen'⟩, h.count, h.nodup, h.bound,
    h.members, h.entry, h.regs, h.nregs⟩

/-- What is found of the first `k` functions. -/
structure Functions.Inv (blocks : List BasicBlock) (blockAt : ℕ → ℕ) (entries : List ℕ)
    (nvars k : ℕ) (s : Functions) : Prop where
  stamps : ∀ b, s.stamp b ≤ k
  lengths : s.fsucc.length = s.fblocks.length
  bound : ∀ b ∈ s.fblocks, b < blocks.length
  count : s.funcs.length = k
  pairs : ∀ p ∈ s.varPairs, PairIn nvars entries.length p
  placed : ∀ (i : ℕ) (func : Func), s.funcs[i]? = some func → ∃ entry own, entries[i]? = some entry ∧
    Placed blocks s.fblocks s.fsucc (blockAt entry) func own

/-- **A function more stands in the tables.** -/
theorem Functions.Inv.step {instrs : List Instr} {blocks : List BasicBlock} {blockAt : ℕ → ℕ}
    {entries : List ℕ} {nvars k entry : ℕ} {s s' : Functions} (hvars : VarsIn instrs nvars)
    (hlink : Linked blocks) (hentries : ∀ e ∈ entries, blockAt e < blocks.length)
    (hentry : entries[k]? = some entry) (h : s.Inv blocks blockAt entries nvars k)
    (hs : s.step instrs blocks blockAt (entry, k) = .ok s') :
    s'.Inv blocks blockAt entries nvars (k + 1) := by
  obtain ⟨m, hm, hs⟩ := Lib.bind_ok hs
  have hk : k < entries.length := (List.getElem?_eq_some_iff.1 hentry).1
  have heb := hentries entry (List.mem_of_getElem? hentry)
  obtain ⟨hnodup, hbound, hreach, hstamps⟩ :=
    gather_spec hlink heb fun b => Nat.lt_succ_of_le (h.stamps b)
  rw [← Except.ok.inj hs]
  dsimp only at hm ⊢
  generalize hown : (gather blocks s.stamp (k + 1) (blockAt entry)).fblocks.insertionSort (· ≤ ·) = own
    at hm ⊢
  have hperm : own.Perm (gather blocks s.stamp (k + 1) (blockAt entry)).fblocks :=
    hown ▸ List.perm_insertionSort (· ≤ ·) _
  have hnodup' : own.Nodup := hperm.nodup_iff.2 hnodup
  have hbound' : ∀ b ∈ own, b < blocks.length := fun b hb => hbound b (hperm.mem_iff.1 hb)
  have hmembers (b : ℕ) : b ∈ own ↔ Reach (BlockNext blocks) (blockAt entry) b :=
    hperm.mem_iff.trans (hreach b)
  have hinv := members_ok hvars hk hnodup' h.pairs hm
  have heb' : blockAt entry ∈ own := (hmembers _).2 .refl
  have hclosed : ∀ b ∈ own, ∀ t, BlockNext blocks b t → t ∈ own := fun b hb t ht =>
    (hmembers t).2 (((hmembers b).1 hb).tail ht)
  -- the numbers of the targets are their places
  have hmapped : (own.map fun b => ((blocks.getD b .empty).succ.1.map m.local_,
      (blocks.getD b .empty).succ.2.map m.local_)) = own.map (localEdge blocks own) := by
    refine List.map_congr_left fun b hb => ?_
    have hnext := hclosed b hb
    rw [localEdge]
    refine Prod.ext (Option.map_congr fun t ht => ?_) (Option.map_congr fun t ht => ?_)
    · exact hinv.local_eq (hnext t ((blockNext_iff (hbound' b hb)).2 (.inl ht)))
    · exact hinv.local_eq (hnext t ((blockNext_iff (hbound' b hb)).2 (.inr ht)))
  rw [hmapped]
  refine ⟨hstamps, ?_, fun b hb => ?_, ?_, hinv.pairs, fun i func hfunc => ?_⟩
  · rw [List.length_append, List.length_append, List.length_map, h.lengths]
  · rcases List.mem_append.1 hb with hb | hb
    · exact h.bound b hb
    · exact hbound' b hb
  · rw [List.length_append, List.length_singleton, h.count]
  · rcases Nat.lt_or_ge i s.funcs.length with hlt | hge
    · rw [List.getElem?_append_left hlt] at hfunc
      obtain ⟨entry', own', hentry', hplaced⟩ := h.placed i func hfunc
      exact ⟨entry', own', hentry', hplaced.append _ _⟩
    · rw [List.getElem?_append_right hge] at hfunc
      have hi : i = k := by
        have hlt := (List.getElem?_eq_some_iff.1 hfunc).1
        rw [List.length_singleton] at hlt
        have hcount := h.count
        omega
      rw [hi, h.count, Nat.sub_self] at hfunc
      rw [hi, ← Option.some_inj.1 hfunc]
      refine ⟨entry, own, hentry, ⟨s.fblocks, [], by rw [List.append_nil], rfl⟩,
        ⟨s.fsucc, [], by rw [List.append_nil], h.lengths⟩, rfl, hnodup', hbound', hmembers, ?_,
        fun b hb => ?_, Nat.succ_le_succ hinv.three, hinv.max⟩
      · show own[m.local_ (blockAt entry)]? = _
        have hlt := List.idxOf_lt_length_iff.2 heb'
        rw [hinv.local_eq heb', List.getElem?_eq_getElem hlt, List.getElem_idxOf]
      · have hlt := List.idxOf_lt_length_iff.2 hb
        refine Nat.lt_succ_of_le (hinv.regs _ b hlt ?_)
        rw [List.getElem?_eq_getElem hlt, List.getElem_idxOf]

/-- **What is found of the functions**, for every entry. -/
theorem functions_ok {instrs : List Instr} {blocks : List BasicBlock} {blockAt : ℕ → ℕ}
    {entries : List ℕ} {nvars : ℕ} {s : Functions} (hvars : VarsIn instrs nvars)
    (hlink : Linked blocks) (hentries : ∀ e ∈ entries, blockAt e < blocks.length)
    (h : functions instrs blocks blockAt entries = .ok s) :
    s.Inv blocks blockAt entries nvars entries.length :=
  Lib.foldlM_zipIdx (P := Functions.Inv blocks blockAt entries nvars)
    (fun _ _ _ _ hentry hinv hstep => hinv.step hvars hlink hentries hentry hstep)
    ⟨fun _ => Nat.le_refl 0, rfl, fun _ hb => absurd hb List.not_mem_nil, rfl,
      fun _ hp => absurd hp List.not_mem_nil, fun _ _ hi => by cases hi⟩ h

end Fc
end Lunar
