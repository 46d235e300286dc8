/-
# Decompilation partitions a function

The starts of blocks are the root, what a forced exit leads to and what two edges lead to
(`Starting`).  Every other instruction of a function has one edge, from the instruction
that falls through to it, so the blocks are the chains of a partial injection: they hold
each instruction once (`function_partitioned`).  A branch that does not fall through names
the place after it all the same; this is the one target that need not start a block.
-/

import Lunar.Lib.Chains
import Lunar.Payload.Decompile.Search
import Lunar.Payload.Disasm.Reachable

namespace Lunar
namespace Decompile

open Ir
open Disasm (Instr NO_INSTR BAD_INSTR View disassemble)
open Lib (Reach Links)

/-- The instruction only goes on to the place after it. -/
structure Straight (f : Flow) : Prop where
  ok : f.ok = true
  falls : f.falls = true
  branch : f.branch = none
  dynamic : f.dynamic = false
  jump : f.jump = false

/-- The places that the end of a block names. -/
def Term.targets : Term → List ℕ
  | .next pc => [pc]
  | .jump pc => [pc]
  | .branch _ _ target fall => [target, fall]
  | _ => []

section Spec

variable (dis : Disasm) (templates : List (Except String Template)) (root : ℕ)

/-- A reachable instruction that starts a block. -/
def Starting (j : ℕ) : Prop :=
  Reach (Edge dis templates) root j ∧
    (j = root ∨
      (∃ i, Reach (Edge dis templates) root i ∧
        ∃ e ∈ exits dis templates i, at_ dis e.1 = some j ∧ e.2 = true) ∨
      ∃ i i', i ≠ i' ∧ Reach (Edge dis templates) root i ∧ Reach (Edge dis templates) root i' ∧
        Edge dis templates i j ∧ Edge dis templates i' j)

/-- The blocks of a function partition its instructions: each is straight, is entered at its
first instruction only, and ends with targets that start blocks. -/
structure Partitioned (blocks : List Block) : Prop where
  nodup : (blocks.flatMap Block.instrs).Nodup
  mem : ∀ i, i ∈ blocks.flatMap Block.instrs ↔ Reach (Edge dis templates) root i
  first : ∀ b ∈ blocks, ∃ i ins, b.instrs.head? = some i ∧ dis.instrs[i]? = some ins ∧ b.pc = ins.pc
  straight : ∀ b ∈ blocks, ∀ k i j, b.instrs[k]? = some i → b.instrs[k + 1]? = some j →
    Straight (flowAt dis templates i) ∧ ∀ i', Reach (Edge dis templates) root i' →
      ∀ e ∈ exits dis templates i', at_ dis e.1 = some j → i' = i ∧ e.2 = false
  targets : ∀ b ∈ blocks, ∀ pc ∈ b.term.targets, ∀ j, at_ dis pc = some j →
    ∃ b' ∈ blocks, b'.instrs.head? = some j

/-- A branch that does not fall through has no instruction after it, or one that starts a
block anyway. -/
def BranchesFall : Prop :=
  ∀ i ins, Reach (Edge dis templates) root i → dis.instrs[i]? = some ins →
    (flow templates ins.handler).ok = true → (flow templates ins.handler).branch ≠ none →
    ins.target ≠ none → (flow templates ins.handler).falls = false →
    ∀ j, at_ dis ins.next = some j → Starting dis templates root j

end Spec

section Exits

variable {dis : Disasm} {templates : List (Except String Template)} {i : ℕ} {ins : Instr}

theorem ender_eq (h : ℕ) :
    (flow templates h).ok = true → (flow templates h).ender =
      ((flow templates h).branch.isSome || !(flow templates h).falls || (flow templates h).dynamic
        || (flow templates h).jump) := by
  unfold flow
  cases templates[h]? with
  | none =>
      intro hok
      cases hok
  | some t =>
      cases t with
      | error e =>
          intro hok
          cases hok
      | ok t =>
          intro _
          show (_ || _ || _ || _) = ((t.branch.map _).isSome || _ || _ || _)
          rw [Option.isSome_map]
          rfl

/-- Without a forced end the instruction is straight. -/
theorem straight_of_ender {h : ℕ} (hok : (flow templates h).ok = true)
    (he : (flow templates h).ender = false) : Straight (flow templates h) := by
  rw [ender_eq h hok, Bool.or_eq_false_iff, Bool.or_eq_false_iff, Bool.or_eq_false_iff,
    Bool.not_eq_false', Option.isSome_eq_false_iff, Option.isNone_iff_eq_none] at he
  obtain ⟨⟨⟨hbranch, hfalls⟩, hdynamic⟩, hjump⟩ := he
  exact ⟨hok, hfalls, hbranch, hdynamic, hjump⟩

theorem exits_falls (hi : dis.instrs[i]? = some ins) (hok : (flow templates ins.handler).ok = true)
    (hf : (flow templates ins.handler).falls = true) :
    (ins.next, (flow templates ins.handler).ender) ∈ exits dis templates i := by
  unfold exits
  rw [hi]
  dsimp only
  rw [if_pos hok, if_pos hf]
  exact List.mem_append_left _ (List.mem_singleton.2 rfl)

theorem exits_target (hi : dis.instrs[i]? = some ins) (hok : (flow templates ins.handler).ok = true)
    {t : ℕ} (ht : ins.target = some t) : (t, true) ∈ exits dis templates i := by
  unfold exits
  rw [hi]
  dsimp only
  rw [if_pos hok, forcedExits, ht]
  exact List.mem_append_right _ (List.mem_append_left _ (List.mem_singleton.2 rfl))

theorem forced_of_mem {e : ℕ × Bool} (he : e ∈ forcedExits dis templates ins) : e.2 = true := by
  rcases List.mem_append.1 he with he | he
  · obtain ⟨t, -, rfl⟩ := List.mem_map.1 he
    rfl
  · split at he
    · obtain ⟨s, -, hs⟩ := List.mem_filterMap.1 he
      obtain ⟨t, -, rfl⟩ := Option.map_eq_some_iff.1 hs
      rfl
    · cases he

/-- The exits but the first are forced, and the first is unless it falls through. -/
theorem exits_cases (dis : Disasm) (templates : List (Except String Template)) (i : ℕ) :
    ∃ forced : List (ℕ × Bool), (∀ e ∈ forced, e.2 = true) ∧
      (exits dis templates i = forced ∨ ∃ ins, dis.instrs[i]? = some ins ∧
        (flow templates ins.handler).ok = true ∧ (flow templates ins.handler).falls = true ∧
        exits dis templates i = (ins.next, (flow templates ins.handler).ender) :: forced) := by
  have hnil : ∀ e ∈ ([] : List (ℕ × Bool)), e.2 = true := fun e he => by cases he
  unfold exits
  cases hi : dis.instrs[i]? with
  | none => exact ⟨[], hnil, .inl rfl⟩
  | some ins =>
      dsimp only
      by_cases hok : (flow templates ins.handler).ok = true
      · rw [if_pos hok]
        refine ⟨forcedExits dis templates ins, fun e => forced_of_mem, ?_⟩
        by_cases hf : (flow templates ins.handler).falls = true
        · rw [if_pos hf]
          exact .inr ⟨ins, rfl, hok, hf, rfl⟩
        · rw [if_neg hf]
          exact .inl rfl
      · rw [if_neg hok]
        exact ⟨[], hnil, .inl rfl⟩

/-- An exit that is not forced falls through a straight instruction. -/
theorem exits_unforced {e : ℕ × Bool} (he : e ∈ exits dis templates i) (hf : e.2 = false) :
    ∃ ins, dis.instrs[i]? = some ins ∧ Straight (flow templates ins.handler) ∧ e.1 = ins.next := by
  obtain ⟨forced, hforced, hexits | ⟨ins, hi, hok, hfalls, hexits⟩⟩ := exits_cases dis templates i
  · rw [hexits] at he
    rw [hforced e he] at hf
    cases hf
  · rw [hexits] at he
    rcases List.mem_cons.1 he with rfl | he
    · exact ⟨ins, hi, straight_of_ender hok hf, rfl⟩
    · rw [hforced e he] at hf
      cases hf

/-- At most one exit of an instruction is not forced. -/
theorem count_unforced (i : ℕ) (p : ℕ × Bool → Bool)
    (hp : ∀ e ∈ exits dis templates i, p e = true → e.2 = false) :
    (exits dis templates i).countP p ≤ 1 := by
  obtain ⟨forced, hforced, hexits⟩ := exits_cases dis templates i
  have hzero : (∀ e ∈ forced, p e = true → e.2 = false) → forced.countP p = 0 := by
    intro h
    refine List.countP_eq_zero.2 fun e he hpe => ?_
    have hfalse := h e he hpe
    rw [hforced e he] at hfalse
    cases hfalse
  rcases hexits with hexits | ⟨ins, -, -, -, hexits⟩
  · rw [hexits] at hp ⊢
    rw [hzero hp]
    exact Nat.zero_le 1
  · rw [hexits] at hp ⊢
    rw [List.countP_cons, hzero fun e he => hp e (List.mem_cons_of_mem _ he)]
    split
    · exact Nat.le_refl 1
    · exact Nat.zero_le 1

end Exits

/-! ## Counts of edges -/

section Counts

variable {α β : Type} {f : α → List β} {p : β → Bool}

/-- Two lists with a hit each make two hits. -/
theorem two_le_countP {l : List α} {a b : α} (ha : a ∈ l) (hb : b ∈ l) (hab : a ≠ b)
    (hpa : ∃ x ∈ f a, p x = true) (hpb : ∃ x ∈ f b, p x = true) : 2 ≤ (l.flatMap f).countP p := by
  obtain ⟨l₁, l₂, rfl⟩ := List.append_of_mem ha
  have hb' : b ∈ l₁ ++ l₂ := by
    rcases List.mem_append.1 hb with hb | hb
    · exact List.mem_append_left _ hb
    · rcases List.mem_cons.1 hb with hb | hb
      · exact absurd hb.symm hab
      · exact List.mem_append_right _ hb
  have hone : 0 < (f a).countP p := List.countP_pos_iff.2 hpa
  have hother : 0 < ((l₁ ++ l₂).flatMap f).countP p := by
    obtain ⟨x, hx, hpx⟩ := hpb
    exact List.countP_pos_iff.2 ⟨x, List.mem_flatMap.2 ⟨b, hb', hx⟩, hpx⟩
  rw [List.flatMap_append, List.countP_append] at hother
  rw [List.flatMap_append, List.flatMap_cons, List.countP_append, List.countP_append]
  omega

/-- Where only one list has hits, its count is the count of all. -/
theorem countP_le_one {l : List α} (hl : l.Nodup) {a : α}
    (hother : ∀ b ∈ l, ∀ x ∈ f b, p x = true → b = a) (ha : (f a).countP p ≤ 1) :
    (l.flatMap f).countP p ≤ 1 := by
  induction l with
  | nil => exact Nat.zero_le 1
  | cons b l ih =>
      obtain ⟨hnb, hnodup⟩ := List.nodup_cons.1 hl
      rw [List.flatMap_cons, List.countP_append]
      by_cases hba : b = a
      · have hrest : (l.flatMap f).countP p = 0 := by
          refine List.countP_eq_zero.2 fun x hx hpx => ?_
          obtain ⟨c, hc, hxc⟩ := List.mem_flatMap.1 hx
          have hca := hother c (List.mem_cons_of_mem b hc) x hxc hpx
          exact hnb (hba ▸ hca ▸ hc)
        rw [hrest, hba]
        exact ha
      · have hhere : (f b).countP p = 0 :=
          List.countP_eq_zero.2 fun x hx hpx => hba (hother b List.mem_cons_self x hx hpx)
        have hrest := ih hnodup fun c hc => hother c (List.mem_cons_of_mem b hc)
        omega

end Counts

/-! ## The blocks of a function -/

section Function

variable {dis : Disasm} {templates : List (Except String Template)} {stamp root : ℕ}
  {owner₀ : ℕ → ℕ} {s : Search}

theorem Found.owner (h : Found dis templates stamp root owner₀ s) (j : ℕ) :
    s.owner j = stamp ↔ Reach (Edge dis templates) root j := by
  rw [h.counted.owner j, h.work, List.append_nil, h.mem j]

/-- **The marks of the search are the starts of blocks.** -/
theorem Found.leader_iff (h : Found dis templates stamp root owner₀ s) {j : ℕ}
    (hj : Reach (Edge dis templates) root j) :
    (mark root s).leader j = true ↔ Starting dis templates root j := by
  have hmem : j ∈ s.members := (h.mem j).2 hj
  have hstamp : s.owner j = stamp := (h.owner j).2 hj
  unfold mark
  dsimp only
  by_cases hroot : j = root
  · rw [hroot, put_self]
    exact ⟨fun _ => ⟨.refl, .inl rfl⟩, fun _ => rfl⟩
  rw [put_ne _ _ hroot]
  have hforced : s.leader j = true ↔ ∃ i, Reach (Edge dis templates) root i ∧
      ∃ e ∈ exits dis templates i, at_ dis e.1 = some j ∧ e.2 = true := by
    rw [h.counted.leader j hstamp, or_iff_right hroot]
    constructor
    · rintro ⟨e, he, hat, hf⟩
      obtain ⟨i, hi, he⟩ := List.mem_flatMap.1 he
      exact ⟨i, (h.mem i).1 hi, e, he, hat, hf⟩
    · rintro ⟨i, hi, e, he, hat, hf⟩
      exact ⟨e, List.mem_flatMap.2 ⟨i, (h.mem i).2 hi, he⟩, hat, hf⟩
  constructor
  · intro hlead
    split at hlead
    · rename_i hcount
      refine ⟨hj, ?_⟩
      by_contra hno
      obtain ⟨-, hno⟩ := not_or.1 hno
      obtain ⟨hnoforced, hnotwo⟩ := not_or.1 hno
      obtain ⟨i, hi, hij⟩ : ∃ i, Reach (Edge dis templates) root i ∧ Edge dis templates i j := by
        cases hj with
        | refl => exact absurd rfl hroot
        | tail hi hij => exact ⟨_, hi, hij⟩
      -- every edge to `j` is the one unforced exit of `i`
      have hle : (taken dis templates s).countP (fun e => at_ dis e.1 = some j) ≤ 1 := by
        refine countP_le_one h.nodup (fun b hb e he hpe => ?_)
          (count_unforced i _ fun e he hpe => ?_)
        · by_contra hne
          exact hnotwo ⟨b, i, hne, (h.mem b).1 hb, hi, ⟨e, he, of_decide_eq_true hpe⟩, hij⟩
        · by_contra hf
          exact hnoforced ⟨i, hi, e, he, of_decide_eq_true hpe, Bool.eq_true_of_not_eq_false hf⟩
      have hpos : 0 < (taken dis templates s).countP (fun e => at_ dis e.1 = some j) := by
        obtain ⟨e, he, hat⟩ := hij
        exact List.countP_pos_iff.2
          ⟨e, List.mem_flatMap.2 ⟨i, (h.mem i).2 hi, he⟩, decide_eq_true hat⟩
      have hne := hcount.2
      rw [h.counted.preds j hstamp] at hne
      omega
    · exact ⟨hj, .inr (.inl (hforced.1 hlead))⟩
  · rintro ⟨-, hj' | hj' | ⟨i, i', hne, hi, hi', ⟨e, he, hat⟩, e', he', hat'⟩⟩
    · exact absurd hj' hroot
    · rw [hforced.2 hj']
      split <;> rfl
    · have htwo := two_le_countP (f := exits dis templates)
        (p := fun e => at_ dis e.1 = some j) ((h.mem i).2 hi) ((h.mem i').2 hi') hne
        ⟨e, he, decide_eq_true hat⟩ ⟨e', he', decide_eq_true hat'⟩
      have hcount : s.preds j ≠ 1 := by
        rw [h.counted.preds j hstamp]
        exact Nat.ne_of_gt htwo
      rw [if_pos ⟨hmem, hcount⟩]

/-- The instruction after one in its block. -/
def link (dis : Disasm) (templates : List (Except String Template)) (stamp : ℕ) (s : Search)
    (i : ℕ) : Option ℕ :=
  if i ∈ s.members then (follow dis templates stamp s i).getRight? else none

/-- What it takes to stay in a block. -/
theorem follow_inr {i j : ℕ} (h : follow dis templates stamp s i = .inr j) :
    ∃ ins, dis.instrs[i]? = some ins ∧ Straight (flow templates ins.handler) ∧
      at_ dis ins.next = some j ∧ s.owner j = stamp ∧ s.leader j = false := by
  unfold follow at h
  split at h
  · cases h
  rename_i ins hi
  dsimp only at h
  split at h
  · cases h
  rename_i hok
  split at h
  · split at h <;> cases h
  rename_i hbranch
  split at h
  · cases h
  rename_i hfalls
  split at h
  · cases h
  rename_i hdynamic
  split at h
  · cases h
  rename_i hjump
  split at h
  · rename_i j' hat
    split at h
    · rename_i hj
      cases h
      exact ⟨ins, hi, ⟨not_not.1 hok, not_not.1 hfalls, hbranch, Bool.eq_false_of_not_eq_true hdynamic,
        Bool.eq_false_of_not_eq_true hjump⟩, hat, hj.1, Bool.eq_false_of_not_eq_true hj.2⟩
    · cases h
  · cases h

/-- A straight instruction goes on to the one after it, unless a block starts there. -/
theorem follow_straight {i j : ℕ} {ins : Instr} (hi : dis.instrs[i]? = some ins)
    (hs : Straight (flow templates ins.handler)) (hat : at_ dis ins.next = some j)
    (howner : s.owner j = stamp) (hleader : s.leader j = false) :
    follow dis templates stamp s i = .inr j := by
  unfold follow
  rw [hi]
  dsimp only
  rw [if_neg (not_not_intro hs.ok), hs.branch]
  dsimp only
  rw [if_neg (not_not_intro hs.falls), if_neg (Bool.eq_false_iff.1 hs.dynamic),
    if_neg (Bool.eq_false_iff.1 hs.jump), hat]
  dsimp only
  rw [if_pos ⟨howner, Bool.eq_false_iff.1 hleader⟩]

theorem link_some {i j : ℕ} (h : link dis templates stamp s i = some j) :
    i ∈ s.members ∧ follow dis templates stamp s i = .inr j := by
  unfold link at h
  split at h
  · rename_i hi
    exact ⟨hi, Sum.getRight?_eq_some_iff.1 h⟩
  · cases h

theorem Found.reach_of_mem (h : Found dis templates stamp root owner₀ s) {i : ℕ}
    (hi : i ∈ (mark root s).members) : Reach (Edge dis templates) root i := (h.mem i).1 hi

/-- A link is the one edge to its end, and no block starts there. -/
theorem Found.link_edge (h : Found dis templates stamp root owner₀ s) {i j : ℕ}
    (hl : link dis templates stamp (mark root s) i = some j) :
    Reach (Edge dis templates) root i ∧ Edge dis templates i j ∧
      Reach (Edge dis templates) root j ∧ ¬ Starting dis templates root j := by
  obtain ⟨hi, hfollow⟩ := link_some hl
  obtain ⟨ins, hins, hstraight, hat, howner, hleader⟩ := follow_inr hfollow
  have hreach := h.reach_of_mem hi
  have hedge : Edge dis templates i j := ⟨_, exits_falls hins hstraight.ok hstraight.falls, hat⟩
  have hj : Reach (Edge dis templates) root j := hreach.tail hedge
  exact ⟨hreach, hedge, hj, fun hst => by
    rw [← h.leader_iff hj, hleader] at hst
    cases hst⟩

theorem Found.links (h : Found dis templates stamp root owner₀ s) :
    Links (link dis templates stamp (mark root s)) (Starting dis templates root) where
  inj {a b c} ha hb := by
    by_contra hne
    obtain ⟨hra, hea, hc, hno⟩ := h.link_edge ha
    obtain ⟨hrb, heb, -, -⟩ := h.link_edge hb
    exact hno ⟨hc, .inr (.inr ⟨a, b, hne, hra, hrb, hea, heb⟩)⟩
  fresh ha := (h.link_edge ha).2.2.2

/-- Where no block starts, the edge to an instruction is a link. -/
theorem Found.link_of_edge (h : Found dis templates stamp root owner₀ s) {i j : ℕ}
    (hi : Reach (Edge dis templates) root i) {e : ℕ × Bool} (he : e ∈ exits dis templates i)
    (hat : at_ dis e.1 = some j) (hno : ¬ Starting dis templates root j) :
    e.2 = false ∧ link dis templates stamp (mark root s) i = some j := by
  have hj : Reach (Edge dis templates) root j := hi.tail ⟨e, he, hat⟩
  have hf : e.2 = false := by
    by_contra htrue
    exact hno ⟨hj, .inr (.inl ⟨i, hi, e, he, hat, Bool.eq_true_of_not_eq_false htrue⟩)⟩
  obtain ⟨ins, hins, hstraight, hnext⟩ := exits_unforced he hf
  have hleader : (mark root s).leader j = false :=
    Bool.eq_false_of_not_eq_true fun htrue => hno ((h.leader_iff hj).1 htrue)
  have hfollow := follow_straight (s := mark root s) hins hstraight (hnext ▸ hat)
    ((h.owner j).2 hj) hleader
  refine ⟨hf, ?_⟩
  have hmem : i ∈ (mark root s).members := (h.mem i).2 hi
  rw [link, if_pos hmem, hfollow]
  rfl

/-- **Every instruction is on the chain of a start.** -/
theorem Found.covered (h : Found dis templates stamp root owner₀ s) {j : ℕ}
    (hj : Reach (Edge dis templates) root j) :
    ∃ start k, Starting dis templates root start ∧
      Lib.after (link dis templates stamp (mark root s)) k start = some j := by
  induction hj with
  | refl => exact ⟨root, 0, ⟨.refl, .inl rfl⟩, rfl⟩
  | tail hi hedge ih =>
      rename_i i j
      by_cases hst : Starting dis templates root j
      · exact ⟨j, 0, hst, rfl⟩
      · obtain ⟨start, k, hstart, hk⟩ := ih
        obtain ⟨e, he, hat⟩ := hedge
        obtain ⟨-, hlink⟩ := h.link_of_edge hi he hat hst
        refine ⟨start, k + 1, hstart, ?_⟩
        show (Lib.after _ k start).bind _ = _
        rw [hk, Option.bind_some, hlink]

theorem Found.after_reach (h : Found dis templates stamp root owner₀ s) {start : ℕ}
    (hs : Starting dis templates root start) {k x : ℕ}
    (hx : Lib.after (link dis templates stamp (mark root s)) k start = some x) :
    Reach (Edge dis templates) root x := by
  cases k with
  | zero =>
      cases hx
      exact hs.1
  | succ k =>
      obtain ⟨y, -, hy⟩ := Option.bind_eq_some_iff.1 hx
      exact (h.link_edge hy).2.2.1

/-- The loop over a block follows the links. -/
theorem blockFrom_of_chain {n i : ℕ} {xs : List ℕ} (hi : i ∈ s.members)
    (hmem : ∀ j, s.owner j = stamp → j ∈ s.members)
    (h : Lib.chain (link dis templates stamp s) n i = some xs) :
    ∃ term l, blockFrom dis templates stamp s n i = some (xs, term) ∧
      xs.getLast? = some l ∧ follow dis templates stamp s l = .inl term := by
  induction n generalizing i xs with
  | zero => cases h
  | succ n ih =>
      rw [Lib.chain, link, if_pos hi] at h
      rw [blockFrom]
      cases hf : follow dis templates stamp s i with
      | inl term =>
          rw [hf] at h
          cases h
          exact ⟨term, i, rfl, rfl, hf⟩
      | inr j =>
          rw [hf] at h
          obtain ⟨ys, hys, rfl⟩ := Option.map_eq_some_iff.1 h
          obtain ⟨-, -, -, -, howner, -⟩ := follow_inr hf
          obtain ⟨term, l, hblock, hlast, hend⟩ := ih (hmem j howner) hys
          refine ⟨term, l, ?_, ?_, hend⟩
          · dsimp only
            rw [hblock]
            rfl
          · rw [List.getLast?_cons, hlast]
            rfl

/-- What a block is read off from. -/
structure Block.Reads (dis : Disasm) (templates : List (Except String Template)) (stamp : ℕ)
    (s : Search) (start : ℕ) (b : Block) : Prop where
  nodup : b.instrs.Nodup
  instrs : ∀ k, b.instrs[k]? = Lib.after (link dis templates stamp s) k start
  pc : b.pc = ((dis.instrs[start]?).map Instr.pc).getD 0
  last : ∃ l, b.instrs.getLast? = some l ∧ follow dis templates stamp s l = .inl b.term

theorem Found.exists_block (h : Found dis templates stamp root owner₀ s) {start : ℕ}
    (hs : Starting dis templates root start) :
    ∃ b, Block.Reads dis templates stamp (mark root s) start b ∧ ∀ m, s.members.length < m →
      (blockFrom dis templates stamp (mark root s) m start).map (fun (instrs, term) =>
        (⟨((dis.instrs[start]?).map Instr.pc).getD 0, instrs, term⟩ : Block)) = some b := by
  obtain ⟨xs, hnodup, hchain⟩ := h.links.exists_chain hs s.members
    fun k x hx => (h.mem x).2 (h.after_reach hs hx)
  have hmem : ∀ j, (mark root s).owner j = stamp → j ∈ (mark root s).members :=
    fun j hj => (h.mem j).2 ((h.owner j).1 hj)
  have hstart : start ∈ (mark root s).members := (h.mem start).2 hs.1
  obtain ⟨term, l, hblock, hlast, hend⟩ :=
    blockFrom_of_chain hstart hmem (hchain _ (Nat.lt_succ_self _))
  refine ⟨⟨_, xs, term⟩, ⟨hnodup, Lib.chain_getElem? (hchain _ (Nat.lt_succ_self _)), rfl, l, hlast,
    hend⟩, fun m hm => ?_⟩
  obtain ⟨term', l', hblock', hlast', hend'⟩ :=
    blockFrom_of_chain hstart hmem (hchain m hm)
  have hl : l = l' := Option.some.inj (hlast.symm.trans hlast')
  have hterm : term = term' := Sum.inl.inj (hend.symm.trans (hl ▸ hend'))
  rw [hblock', ← hterm]
  rfl

/-- What the end of a block names starts a block, but for the place after a branch that
does not fall through. -/
theorem Found.target_cases (h : Found dis templates stamp root owner₀ s) {l : ℕ} {term : Term}
    (hl : Reach (Edge dis templates) root l)
    (hf : follow dis templates stamp (mark root s) l = .inl term) {pc j : ℕ}
    (hpc : pc ∈ term.targets) (hat : at_ dis pc = some j) :
    Starting dis templates root j ∨ ∃ ins, dis.instrs[l]? = some ins ∧
      (flow templates ins.handler).ok = true ∧ (flow templates ins.handler).branch ≠ none ∧
      ins.target ≠ none ∧ (flow templates ins.handler).falls = false ∧ pc = ins.next := by
  have hforced : ∀ e ∈ exits dis templates l, e.1 = pc → e.2 = true → Starting dis templates root j :=
    fun e he hepc hefor => ⟨hl.tail ⟨e, he, hepc ▸ hat⟩, .inr (.inl ⟨l, hl, e, he, hepc ▸ hat, hefor⟩)⟩
  unfold follow at hf
  split at hf
  · cases hf
    cases hpc
  rename_i ins hins
  dsimp only at hf
  split at hf
  · cases hf
    cases hpc
  rename_i hok
  rw [not_not] at hok
  split at hf
  · rename_i cond when hbranch
    split at hf
    · rename_i target htarget
      cases hf
      have hender : (flow templates ins.handler).ender = true := by
        rw [ender_eq _ hok, hbranch]
        rfl
      rcases List.mem_cons.1 hpc with rfl | hpc
      · exact .inl (hforced _ (exits_target hins hok htarget) rfl rfl)
      · have hnext := List.mem_singleton.1 hpc
        by_cases hfalls : (flow templates ins.handler).falls = true
        · exact .inl (hforced _ (exits_falls hins hok hfalls) hnext.symm hender)
        · exact .inr ⟨ins, hins, hok, by rw [hbranch]; exact Option.some_ne_none _,
            by rw [htarget]; exact Option.some_ne_none _, Bool.eq_false_of_not_eq_true hfalls, hnext⟩
    · cases hf
      cases hpc
  rename_i hbranch
  split at hf
  · cases hf
    split at hpc <;> cases hpc
  rename_i hfalls
  rw [not_not] at hfalls
  split at hf
  · cases hf
    cases hpc
  split at hf
  · rename_i hjump
    cases hf
    have hender : (flow templates ins.handler).ender = true := by
      rw [ender_eq _ hok, hjump, Bool.or_true]
    exact .inl (hforced _ (exits_falls hins hok hfalls) (List.mem_singleton.1 hpc).symm hender)
  · split at hf
    · rename_i j' hat'
      split at hf
      · cases hf
      · rename_i hnot
        cases hf
        rw [List.mem_singleton.1 hpc] at hat
        have hj : j' = j := Option.some.inj (hat'.symm.trans hat)
        have hreach : Reach (Edge dis templates) root j' :=
          hl.tail ⟨_, exits_falls hins hok hfalls, hat'⟩
        have hleader : (mark root s).leader j' = true := by
          by_contra hno
          exact hnot ⟨(h.owner j').2 hreach, hno⟩
        exact .inl (hj ▸ (h.leader_iff hreach).1 hleader)
    · cases hf
      cases hpc

theorem mapM_eq_map {α β : Type} {f : α → Option β} {g : α → β} (l : List α)
    (h : ∀ a ∈ l, f a = some (g a)) : l.mapM f = some (l.map g) := by
  induction l with
  | nil => rfl
  | cons a l ih =>
      rw [List.mapM_cons, h a List.mem_cons_self, ih fun b hb => h b (List.mem_cons_of_mem a hb)]
      rfl

theorem reach_lt (hw : WellFormed dis) (hroot : root < dis.instrs.length) {i : ℕ}
    (hi : Reach (Edge dis templates) root i) : i < dis.instrs.length := by
  cases hi with
  | refl => exact hroot
  | tail _ hedge =>
      obtain ⟨e, -, hat⟩ := hedge
      exact at_lt hw hat

/-- **The blocks partition the function if and only if its branches fall through to starts
of blocks.** -/
theorem function_partitioned (hw : WellFormed dis) (hroot : root < dis.instrs.length)
    (h : Found dis templates stamp root owner₀ s) :
    ∃ bs, (∀ m, s.members.length < m → blocks dis templates stamp (mark root s) m = some bs) ∧
      (Partitioned dis templates root bs ↔ BranchesFall dis templates root) := by
  have hblock : ∀ start, ∃ b, Starting dis templates root start →
      Block.Reads dis templates stamp (mark root s) start b ∧ ∀ m, s.members.length < m →
        (blockFrom dis templates stamp (mark root s) m start).map (fun (instrs, term) =>
          (⟨((dis.instrs[start]?).map Instr.pc).getD 0, instrs, term⟩ : Block)) = some b := by
    intro start
    by_cases hs : Starting dis templates root start
    · obtain ⟨b, hb⟩ := h.exists_block hs
      exact ⟨b, fun _ => hb⟩
    · exact ⟨⟨0, [], .exit⟩, fun hs' => absurd hs' hs⟩
  choose block hblock using hblock
  have hstarts : ∀ j, j ∈ s.members.filter (mark root s).leader ↔ Starting dis templates root j := by
    intro j
    rw [List.mem_filter]
    constructor
    · exact fun ⟨hj, hlead⟩ => (h.leader_iff ((h.mem j).1 hj)).1 hlead
    · exact fun hst => ⟨(h.mem j).2 hst.1, (h.leader_iff hst.1).2 hst⟩
  have hhead : ∀ j, Starting dis templates root j → (block j).instrs.head? = some j := by
    intro j hst
    rw [List.head?_eq_getElem?, (hblock j hst).1.instrs 0]
    rfl
  refine ⟨(s.members.filter (mark root s).leader).map block, fun m hm => ?_, ?_⟩
  · exact mapM_eq_map _ fun j hj => (hblock j ((hstarts j).1 hj)).2 m hm
  have hmem : ∀ b, b ∈ (s.members.filter (mark root s).leader).map block ↔
      ∃ j, Starting dis templates root j ∧ block j = b := by
    intro b
    rw [List.mem_map]
    exact exists_congr fun j => and_congr_left fun _ => hstarts j
  have hall : ∀ i, i ∈ ((s.members.filter (mark root s).leader).map block).flatMap Block.instrs ↔
      Reach (Edge dis templates) root i := by
    intro i
    rw [List.mem_flatMap]
    constructor
    · rintro ⟨b, hb, hi⟩
      obtain ⟨j, hst, rfl⟩ := (hmem b).1 hb
      obtain ⟨k, hk⟩ := List.mem_iff_getElem?.1 hi
      rw [(hblock j hst).1.instrs] at hk
      exact h.after_reach hst hk
    · intro hi
      obtain ⟨j, k, hst, hk⟩ := h.covered hi
      exact ⟨block j, (hmem _).2 ⟨j, hst, rfl⟩,
        List.mem_iff_getElem?.2 ⟨k, by rw [(hblock j hst).1.instrs, hk]⟩⟩
  have hstraight : ∀ b ∈ (s.members.filter (mark root s).leader).map block, ∀ k i j,
      b.instrs[k]? = some i → b.instrs[k + 1]? = some j →
      link dis templates stamp (mark root s) i = some j := by
    intro b hb k i j hi hj
    obtain ⟨start, hst, rfl⟩ := (hmem b).1 hb
    rw [(hblock start hst).1.instrs] at hi hj
    have hj' : (Lib.after (link dis templates stamp (mark root s)) k start).bind
        (link dis templates stamp (mark root s)) = some j := hj
    rwa [hi, Option.bind_some] at hj'
  constructor
  · -- a branch ends its block, whose end names the place after it
    intro hpart i ins hi hins hok hbranch htarget hfalls j hat
    obtain ⟨b, hb, hib⟩ := List.mem_flatMap.1 ((hall i).2 hi)
    obtain ⟨k, hk⟩ := List.mem_iff_getElem?.1 hib
    have hflow : flowAt dis templates i = flow templates ins.handler := by
      rw [flowAt, hins]
      rfl
    have hlast : b.instrs.getLast? = some i := by
      have hlt := (List.getElem?_eq_some_iff.1 hk).1
      cases hnext : b.instrs[k + 1]? with
      | none =>
          have hge := List.getElem?_eq_none_iff.1 hnext
          have heq : b.instrs.length - 1 = k := by omega
          rw [List.getLast?_eq_getElem?, heq, hk]
      | some j' =>
          have hstr := (hpart.straight b hb k i j' hk hnext).1
          rw [hflow] at hstr
          exact absurd hstr.branch hbranch
    obtain ⟨start, hst, rfl⟩ := (hmem b).1 hb
    obtain ⟨l, hl, hend⟩ := (hblock start hst).1.last
    have hli : l = i := Option.some.inj (hl.symm.trans hlast)
    obtain ⟨⟨cond, when⟩, hbr⟩ := Option.ne_none_iff_exists'.1 hbranch
    obtain ⟨target, htgt⟩ := Option.ne_none_iff_exists'.1 htarget
    have hterm : (block start).term = .branch cond when target ins.next := by
      rw [hli, follow, hins] at hend
      dsimp only at hend
      rw [if_neg (not_not_intro hok), hbr, htgt] at hend
      exact (Sum.inl.inj hend).symm
    have hpc : ins.next ∈ (block start).term.targets := by
      rw [hterm]
      exact List.mem_cons_of_mem _ (List.mem_singleton.2 rfl)
    obtain ⟨b', hb', hj⟩ := hpart.targets _ hb ins.next hpc j hat
    obtain ⟨start', hst', rfl⟩ := (hmem b').1 hb'
    rw [hhead start' hst', Option.some.injEq] at hj
    exact hj ▸ hst'
  · intro hbf
    refine ⟨?_, hall, ?_, ?_, ?_⟩
    · rw [List.flatMap_map, List.nodup_flatMap]
      refine ⟨fun j hj => (hblock j ((hstarts j).1 hj)).1.nodup,
        (h.nodup.filter _).pairwise_of_forall_ne fun j hj j' hj' hne => ?_⟩
      intro x hx hx'
      have hst := (hstarts j).1 hj
      have hst' := (hstarts j').1 hj'
      obtain ⟨k, hk⟩ := List.mem_iff_getElem?.1 hx
      obtain ⟨k', hk'⟩ := List.mem_iff_getElem?.1 hx'
      rw [(hblock j hst).1.instrs] at hk
      rw [(hblock j' hst').1.instrs] at hk'
      exact hne (h.links.after_unique hst hst' hk hk').1
    · intro b hb
      obtain ⟨j, hst, rfl⟩ := (hmem b).1 hb
      have hlt := reach_lt hw hroot hst.1
      refine ⟨j, _, hhead j hst, List.getElem?_eq_some_iff.2 ⟨hlt, rfl⟩, ?_⟩
      rw [(hblock j hst).1.pc, List.getElem?_eq_some_iff.2 ⟨hlt, rfl⟩]
      rfl
    · intro b hb k i j hi hj
      have hlink := hstraight b hb k i j hi hj
      obtain ⟨ins, hins, hstr, -, -, -⟩ := follow_inr (link_some hlink).2
      refine ⟨?_, fun i' hi' e he hat => ?_⟩
      · rw [flowAt, hins]
        exact hstr
      · have hno := (h.link_edge hlink).2.2.2
        obtain ⟨hf, hlink'⟩ := h.link_of_edge hi' he hat hno
        exact ⟨h.links.inj hlink' hlink, hf⟩
    · intro b hb pc hpc j hat
      obtain ⟨start, hst, rfl⟩ := (hmem b).1 hb
      obtain ⟨l, hl, hend⟩ := (hblock start hst).1.last
      have hreach : Reach (Edge dis templates) root l :=
        (hall l).1 (List.mem_flatMap.2 ⟨_, hb, List.mem_of_getLast? hl⟩)
      have hstarting : Starting dis templates root j := by
        rcases h.target_cases hreach hend hpc hat with hj | ⟨ins, hins, hok, hbr, htgt, hfalls, rfl⟩
        · exact hj
        · exact hbf l ins hreach hins hok hbr htgt hfalls j hat
      exact ⟨block j, (hmem _).2 ⟨j, hstarting, rfl⟩, hhead j hstarting⟩

end Function

/-! ## The functions of a program -/

section Decompile

variable {dis : Disasm}

/-- The blocks of a function are right as far as its branches fall through. -/
def Function.Right (dis : Disasm) (templates : List (Except String Template)) (f : Function) :
    Prop :=
  ∀ root, at_ dis f.entry = some root →
    (Partitioned dis templates root f.blocks ↔ BranchesFall dis templates root)

/-- The turn of `decompile` for an entry: one function more if the entry decodes. -/
theorem function_turn (templates : List (Except String Template)) (hw : WellFormed dis)
    {done : Search × List Function} {e k : ℕ} (hk : k ≤ e) (hs : ∀ j, done.1.owner j = NOT_SEEN ∨ done.1.owner j < k) :
    ∃ s fs, (∀ n, dis.instrs.length < n →
        function dis templates n done (e, k) = some (s, done.2 ++ fs)) ∧
      (∀ j, s.owner j = NOT_SEEN ∨ s.owner j < k + 1) ∧
      fs.map Function.entry = [e].filter (fun e => (at_ dis e).isSome) ∧
      ∀ f ∈ fs, f.Right dis templates := by
  cases hat : at_ dis e with
  | none =>
      refine ⟨done.1, [], fun n _ => ?_, fun j => (hs j).imp_right Nat.lt_succ_of_lt, ?_,
        fun f hf => by cases hf⟩
      · unfold function
        dsimp only
        rw [hat, List.append_nil]
      · rw [List.filter_cons_of_neg (by rw [hat]; exact Bool.false_ne_true)]
        rfl
  | some root =>
      have hlt : e < dis.index.length := by
        unfold at_ at hat
        split at hat
        · rename_i hi
          exact (List.getElem?_eq_some_iff.1 hi).1
        · cases hat
      have hsize : dis.index.length < 2 ^ 32 - 1 := hw.length
      have hcast : k % 2 ^ 32 = k := Nat.mod_eq_of_lt (by omega)
      have hfresh : ∀ j, done.1.owner j ≠ k := by
        intro j
        have hseen : NOT_SEEN = 2 ^ 32 - 1 := rfl
        rcases hs j with hj | hj
        · omega
        · omega
      have hroot := at_lt hw hat
      obtain ⟨s, hfound, hloop⟩ := search_found templates hw hroot hfresh
      obtain ⟨bs, hblocks, hpart⟩ := function_partitioned hw hroot hfound
      have hmembers : s.members.length ≤ dis.instrs.length := by
        have hsub : s.members ⊆ List.range dis.instrs.length := fun i hi =>
          List.mem_range.2 (reach_lt hw hroot ((hfound.mem i).1 hi))
        have hle := (List.Nodup.subperm hfound.nodup hsub).length_le
        rwa [List.length_range] at hle
      refine ⟨mark root s, [⟨e, bs⟩], fun n hn => ?_, fun j => ?_, ?_, fun f hf root' hroot' => ?_⟩
      · unfold function
        dsimp only
        rw [hat, hcast]
        dsimp only
        rw [hloop n hn]
        show (blocks dis templates k (mark root s) n).bind _ = _
        rw [hblocks n (by omega)]
        rfl
      · rcases hfound.counted.others j with hj | hj
        · exact .inr (by
            show s.owner j < k + 1
            omega)
        · show s.owner j = NOT_SEEN ∨ s.owner j < k + 1
          rw [hj]
          exact (hs j).imp_right Nat.lt_succ_of_lt
      · rw [List.filter_cons_of_pos (by rw [hat]; rfl)]
        rfl
      · rw [List.mem_singleton.1 hf] at hroot' ⊢
        rw [hat, Option.some.injEq] at hroot'
        rw [← hroot']
        exact hpart

/-- The turns of `decompile` for the entries from number `k` on. -/
theorem functions_turn (templates : List (Except String Template)) (hw : WellFormed dis)
    (es : List ℕ) : ∀ (done : Search × List Function) (k : ℕ),
    es.Pairwise (· < ·) → (∀ e ∈ es, k ≤ e) → (∀ j, done.1.owner j = NOT_SEEN ∨ done.1.owner j < k) →
    ∃ s fs, (∀ n, dis.instrs.length < n →
        (es.zipIdx k).foldlM (function dis templates n) done = some (s, done.2 ++ fs)) ∧
      fs.map Function.entry = es.filter (fun e => (at_ dis e).isSome) ∧
      ∀ f ∈ fs, f.Right dis templates := by
  induction es with
  | nil =>
      intro done k _ _ _
      exact ⟨done.1, [], fun n _ => by rw [List.append_nil]; rfl, rfl, fun f hf => by cases hf⟩
  | cons e es ih =>
      intro done k hsorted hlow hs
      obtain ⟨hlt, hsorted⟩ := List.pairwise_cons.1 hsorted
      have hk : k ≤ e := hlow e List.mem_cons_self
      obtain ⟨s, fs, hturn, howner, hentry, hright⟩ := function_turn templates hw hk hs
      have hnext : ∀ e' ∈ es, k + 1 ≤ e' := fun e' he' => by
        have := hlt e' he'
        omega
      obtain ⟨s', fs', hfold, hentry', hright'⟩ := ih (s, done.2 ++ fs) (k + 1) hsorted hnext howner
      refine ⟨s', fs ++ fs', fun n hn => ?_, ?_, fun f hf => ?_⟩
      · rw [List.zipIdx_cons, List.foldlM_cons, hturn n hn, ← List.append_assoc]
        exact hfold n hn
      · rw [List.map_append, hentry, hentry', ← List.filter_append]
        rfl
      · rcases List.mem_append.1 hf with hf | hf
        · exact hright f hf
        · exact hright' f hf

/-- **Decompilation partitions exactly the functions whose branches fall through**: there is
a function for every entry that decodes, and its blocks partition it if and only if every
branch falls through or is followed by nothing or by the start of a block. -/
theorem decompile_partitions (hw : WellFormed dis) (templates : List (Except String Template)) :
    ∃ fs, (∀ n, dis.instrs.length < n → decompile dis templates n = some fs) ∧
      fs.map Function.entry = dis.entries.filter (fun e => (at_ dis e).isSome) ∧
      ∀ f ∈ fs, ∀ root, at_ dis f.entry = some root →
        (Partitioned dis templates root f.blocks ↔ BranchesFall dis templates root) := by
  obtain ⟨s, fs, hfold, hentry, hright⟩ := functions_turn templates hw dis.entries
    (Search.new, []) 0 hw.entries (fun e _ => Nat.zero_le e)
    (fun j => .inl rfl)
  refine ⟨fs, fun n hn => ?_, hentry, hright⟩
  rw [decompile, hfold n hn]
  rfl

/-- Disassembly is what decompilation expects. -/
theorem wellFormed_disassemble {view : View} (hs : view.Sane) {entry n : ℕ}
    (h : disassemble view entry n = some dis) : WellFormed dis := by
  obtain ⟨s, ⟨n', hrun⟩, hinv, -⟩ := Disasm.disassemble_ends hs entry
  obtain ⟨s', hloop, rfl⟩ := Option.map_eq_some_iff.1 h
  have hs' : s = s' := by
    have hm := Lib.loop_mono hloop (Nat.le_add_right n (n' + 1))
    exact Option.some.inj ((hrun (n + (n' + 1)) (by omega)).1.symm.trans hm)
  rw [← hs']
  refine ⟨fun p i hat => ?_, ?_, Disasm.finish_sorted s⟩
  · unfold at_ at hat
    split at hat
    · rename_i v hv
      split at hat
      · rename_i hvalid
        cases hat
        exact hinv.listed.named p v hv hvalid.1 hvalid.2
      · cases hat
    · cases hat
  · show s.index.length < BAD_INSTR
    rw [hinv.visited.length]
    exact hs.length

/-- Where the handlers with a branch fall through, the branches do. -/
theorem branchesFall_of_falls {templates : List (Except String Template)}
    (h : ∀ t, .ok t ∈ templates → t.branch.isSome = true → t.falls = true) (dis : Disasm)
    (root : ℕ) : BranchesFall dis templates root := by
  intro i ins _ _ _ hbranch _ hfalls
  unfold flow at hbranch hfalls
  cases ht : templates[ins.handler]? with
  | none =>
      rw [ht] at hbranch
      exact absurd rfl hbranch
  | some t =>
      rw [ht] at hbranch hfalls
      cases t with
      | error e => exact absurd rfl hbranch
      | ok t =>
          have hsome : t.branch.isSome = true := by
            rw [← Option.isSome_map]
            exact Option.isSome_iff_ne_none.2 hbranch
          have hfalls' : t.falls = false := hfalls
          rw [h t (List.mem_of_getElem? ht) hsome] at hfalls'
          cases hfalls'

end Decompile

/-! ## A branch before a function -/

/-- A handler that creates a function and branches, and may end then. -/
def brancher (falls : Bool) : Template where
  reads := [.value, .value]
  seeks := []
  branch := some ⟨0, .true, 1⟩
  falls
  closures := [0]
  exprs := [.slot 0, .slot 1]
  args := []
  stmts := []
  body := ⟨0, 0⟩

/-- A handler that ends. -/
def ender : Template where
  reads := []
  seeks := []
  branch := none
  falls := .false
  exprs := []
  args := []
  stmts := []
  body := ⟨0, 0⟩

/-- A branch to place `5`, and the function that it creates right after it. -/
def split (falls : Bool) : View where
  decoder := { Disasm.ones 0 with code := [0, 7, 11, 1, 1, 1] }
  templates := [.ok (brancher falls), .ok ender]
  perms := [[0, 1]]
  genOf := []
  perms_ne := List.cons_ne_nil _ _
  gen_lt := fun g hg => by cases hg

theorem sane_split (falls : Bool) : (split falls).Sane where
  tags := Disasm.ones_distinct 0
  lifted := fun t ht => by
    rcases List.mem_cons.1 ht with ht | ht
    · cases ht
      refine ⟨?_, (fun s hs => by cases hs), ?_, ?_, fun s hs => by cases hs⟩
      · show 2 ≤ 255
        decide
      · intro b hb
        cases Option.mem_some.1 hb
        exact Nat.one_lt_two
      · intro s hs
        rw [List.mem_singleton.1 hs]
        exact Nat.two_pos
    · cases List.mem_singleton.1 ht
      exact ⟨by decide, (fun s hs => by cases hs), (fun b hb => by cases hb),
        (fun s hs => by cases hs), fun s hs => by cases hs⟩
  fits := by
    cases falls
    · exact ⟨by decide, by decide⟩
    · exact ⟨by decide, by decide⟩
  length := by
    show 6 < 2 ^ 32 - 1
    decide

/-- The disassembly of the code: the branch, what comes after it and the function. -/
def splitDis : Bool → Disasm
  | .true => {
    instrs := [⟨0, 0, ⟨0, 2⟩, 3, some 5⟩, ⟨3, 1, ⟨2, 0⟩, 4, none⟩, ⟨5, 1, ⟨2, 0⟩, 6, none⟩]
    operands := [.int 3, .int 5]
    index := [1, 0, 0, 2, 0, 3]
    entries := [0, 3] }
  | .false => {
    instrs := [⟨0, 0, ⟨0, 2⟩, 3, some 5⟩, ⟨5, 1, ⟨2, 0⟩, 6, none⟩, ⟨3, 1, ⟨2, 0⟩, 4, none⟩]
    operands := [.int 3, .int 5]
    index := [1, 0, 0, 3, 0, 2]
    entries := [0, 3] }

theorem disassemble_split (falls : Bool) :
    disassemble (split falls) 0 20 = some (splitDis falls) := by
  have hsort : ([0, 3] : List ℕ).mergeSort (· ≤ ·) = [0, 3] :=
    List.mergeSort_of_pairwise (by decide)
  cases falls
  all_goals
    unfold disassemble
    show some (⟨_, _, _, Disasm.dedup (([0, 3] : List ℕ).mergeSort (· ≤ ·))⟩ : Disasm) = _
    rw [hsort]
    rfl

/-- A handler that falls through: its functions are partitioned. -/
theorem decompile_partitions_split :
    ∃ fs, decompile (splitDis true) (split true).templates 10 = some fs ∧
      ∀ f ∈ fs, ∀ root, at_ (splitDis true) f.entry = some root →
        Partitioned (splitDis true) (split true).templates root f.blocks := by
  obtain ⟨fs, hfs, -, hright⟩ := decompile_partitions
    (wellFormed_disassemble (sane_split true) (disassemble_split true)) (split true).templates
  refine ⟨fs, hfs 10 (by decide), fun f hf root hroot => (hright f hf root hroot).2 ?_⟩
  refine branchesFall_of_falls (fun t ht hb => ?_) _ root
  rcases List.mem_cons.1 ht with ht | ht
  · cases ht
    rfl
  · cases List.mem_singleton.1 ht
    cases hb

/-- **A branch of a handler that ends names the place after it, where no block starts.** -/
theorem decompile_not_partitions : ¬ ∀ view : View, view.Sane → ∀ entry n dis,
    disassemble view entry n = some dis → ∀ m fs, decompile dis view.templates m = some fs →
      ∀ f ∈ fs, ∀ root, at_ dis f.entry = some root →
        Partitioned dis view.templates root f.blocks := by
  intro h
  have hfs : decompile (splitDis false) (split false).templates 10 = some
      [⟨0, [⟨0, [0], .branch 0 true 5 3⟩, ⟨5, [1], .exit⟩]⟩, ⟨3, [⟨3, [2], .exit⟩]⟩] := by
    decide +kernel
  have hpart := h _ (sane_split false) 0 20 _ (disassemble_split false) 10 _ hfs _
    List.mem_cons_self 0 rfl
  obtain ⟨b, hb, hhead⟩ := hpart.targets _ List.mem_cons_self 3
    (List.mem_cons_of_mem _ (List.mem_singleton.2 rfl)) 2 rfl
  rcases List.mem_cons.1 hb with rfl | hb
  · cases hhead
  · rw [List.mem_singleton.1 hb] at hhead
    cases hhead

end Decompile
end Lunar
