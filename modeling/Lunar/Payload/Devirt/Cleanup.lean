/-
# The cleanup keeps the paths

A run before the cleanup is followed after it (`cleanup_preserves`), and threading the
jumps changes no path at all (`thread_threads`).

A block that an exception or a `finally` leads to has no edge for that, so it is skipped
when it only jumps, and it goes behind the one block that jumps to it.  Then its pc is no
block's, and a run that should go on there ends (`cleanup_loses`).
-/

import Lunar.Payload.Devirt.Paths

namespace Lunar
namespace Devirt

open Lib (Flow Exit Place Event Outcome)
open Lib.Flow (Step Run Path Threads Threaded)

variable {instr : ℕ → Option (List Stmt × Option Expr)} {fblocks : List Decompile.Block}
  {first : ℕ}

theorem pc_inj (hf : Formed instr fblocks) {i j : ℕ} (hi : i < fblocks.length)
    (hj : j < fblocks.length)
    (h : (fblocks[i]?.map Decompile.Block.pc).getD 0 = (fblocks[j]?.map Decompile.Block.pc).getD 0) :
    i = j := by
  rw [List.getElem?_eq_getElem hi, List.getElem?_eq_getElem hj] at h
  have hlen : (fblocks.map Decompile.Block.pc).length = fblocks.length := List.length_map _
  have hi' : i < (fblocks.map Decompile.Block.pc).length := by omega
  have hj' : j < (fblocks.map Decompile.Block.pc).length := by omega
  have hpcs : (fblocks.map Decompile.Block.pc)[i] = (fblocks.map Decompile.Block.pc)[j] := by
    rw [List.getElem_map, List.getElem_map]
    exact h
  exact hf.pcs.getElem_inj_iff.1 hpcs

/-- The block of a head is found by its pc. -/
theorem enter_head (hf : Formed instr fblocks) (hne : fblocks ≠ []) {k i pc : ℕ}
    (hk : (heads instr fblocks)[k]? = some i) (hi : target fblocks pc = some i) :
    (simplified first (function instr fblocks first)).enter pc = some (first + k) := by
  obtain ⟨b, hb, hpc⟩ := target_spec hi
  have hpcOf : (fblocks[i]?.map Decompile.Block.pc).getD 0 = pc := by
    rw [hb]
    exact hpc
  have hfind : (function instr fblocks first).findIdx? (fun b => decide (b.pc = pc)) = some k := by
    rw [function_eq hne, List.findIdx?_map]
    obtain ⟨hlt, hget⟩ := List.getElem?_eq_some_iff.1 hk
    refine List.findIdx?_eq_some_iff_getElem.2 ⟨hlt, ?_, fun j hj => ?_⟩
    · rw [hget]
      exact decide_eq_true hpcOf
    · intro hsame
      have hpc' := of_decide_eq_true hsame
      have hhead := head_lt (List.getElem_mem (Nat.lt_trans hj hlt)) hne
      have heq := pc_inj hf hhead (target_lt hi) (hpc'.trans hpcOf.symm)
      rw [← hget] at heq
      exact absurd (heads_nodup.getElem_inj_iff.1 heq) (Nat.ne_of_lt hj)
  show ((function instr fblocks first).findIdx? fun b => decide (b.pc = pc)).map _ = _
  rw [hfind]
  rfl

/-- The block of a pc that is kept. -/
theorem enter_kept (hf : Formed instr fblocks) (hne : fblocks ≠ []) {pc : ℕ}
    (h : Kept instr fblocks pc) : ∃ i k, target fblocks pc = some i ∧
      empty instr fblocks i = false ∧ (heads instr fblocks)[k]? = some i ∧
      (simplified first (function instr fblocks first)).enter pc = some (first + k) := by
  obtain ⟨i, hi, hempty, hfollowed⟩ := h
  have habs : absorbed instr fblocks i = false :=
    Bool.eq_false_iff.2 fun habs => hfollowed ((absorbed_iff_followed hempty).1 habs)
  obtain ⟨k, -, hk⟩ : ∃ k, outOf instr fblocks 0 i = some (0 + k) ∧
      (heads instr fblocks)[k]? = some i := outOf_eq_some (target_lt hi) hempty habs
  exact ⟨i, k, hi, hempty, hk, enter_head hf hne hk hi⟩

/-- **A step is followed.** -/
theorem ahead_step (hf : Formed instr fblocks) (hne : fblocks ≠ []) {p p' q : Place Stmt}
    {e : Option (Event Stmt Expr)} (hp : Ahead instr fblocks first p p')
    (hgood : Good instr fblocks p e) (hs : (original instr fblocks).Step p e q) :
    ∃ q', (simplified first (function instr fblocks first)).Path p' e.toList q' ∧
      Ahead instr fblocks first q q' := by
  have hstmt : ∀ {i s rest}, Ahead instr fblocks first (.before i (s :: rest)) p' →
      empty instr fblocks i = false ∧ Within instr fblocks first i (s :: rest) p' := by
    intro i s rest h
    by_cases hempty : empty instr fblocks i = true
    · rw [Ahead, if_pos hempty] at h
      cases h.1
    · rw [Ahead, if_neg hempty] at h
      exact ⟨Bool.eq_false_iff.2 hempty, h⟩
  cases hs with
  | @ok i s rest =>
      obtain ⟨hempty, k, h, pre, post, hk, hc, rfl⟩ := hstmt hp
      refine ⟨_, Lib.Flow.Path.of_step .ok, ?_⟩
      rw [Ahead, if_neg (Bool.eq_false_iff.1 hempty)]
      exact ⟨k, h, pre, post, hk, hc, rfl⟩
  | @jump i s rest pc =>
      obtain ⟨-, k, h, pre, post, hk, hc, rfl⟩ := hstmt hp
      obtain ⟨j, k', hj, hempty, hk', henter⟩ := @enter_kept instr fblocks first hf hne pc hgood
      refine ⟨_, Lib.Flow.Path.of_step .jump, ?_⟩
      have hwithin := (@within_head instr fblocks first k' j hk' hne).2
      have hland : (original instr fblocks).land pc = .before j (bodyOf instr fblocks j) := by
        rw [Flow.land, show (original instr fblocks).enter pc = some j from hj]
        rfl
      rw [hland, Ahead, if_neg (Bool.eq_false_iff.1 hempty), Flow.land, henter]
      exact hwithin
  | @stop i s rest =>
      obtain ⟨-, k, h, pre, post, hk, hc, rfl⟩ := hstmt hp
      exact ⟨_, Lib.Flow.Path.of_step .stop, rfl⟩
  | @goto i t hexit =>
      by_cases hempty : empty instr fblocks i = true
      · rw [Ahead, if_pos hempty] at hp
        obtain ⟨-, n, harrives⟩ := hp
        exact ⟨p', .refl p', goto_empty hf hempty hexit harrives⟩
      · rw [Ahead, if_neg hempty] at hp
        cases hnext : next instr fblocks i with
        | some j => exact ⟨p', .refl p', goto_behind hf hne hnext hexit hp⟩
        | none =>
            have hleads : Leads instr fblocks i := by
              rcases hgood with hinvalid | hempty' | hleads
              · cases hexit.symm.trans hinvalid
              · exact absurd hempty' hempty
              · exact hleads
            exact goto_last hf hne (Bool.eq_false_iff.2 hempty) hexit hleads hnext hp
  | @branch i c when thn els b hexit =>
      have hempty : empty instr fblocks i = false := by
        refine Bool.eq_false_iff.2 fun hempty => ?_
        obtain ⟨pc, hpc⟩ := (empty_spec hempty).1
        cases hexit.symm.trans (exit_jump hf hpc)
      rw [Ahead, if_neg (Bool.eq_false_iff.1 hempty)] at hp
      have hleads : Leads instr fblocks i := by
        rcases hgood with hinvalid | hempty' | hleads
        · cases hexit.symm.trans hinvalid
        · rw [hempty] at hempty'
          cases hempty'
        · exact hleads
      exact branch_last hf hne b hempty hexit hleads hp
  | @fell i hexit =>
      have hempty : empty instr fblocks i ≠ true := by
        intro hempty
        obtain ⟨pc, hpc⟩ := (empty_spec hempty).1
        cases hexit.symm.trans (exit_jump hf hpc)
      rw [Ahead, if_neg hempty] at hp
      exact ⟨_, fell_last hf hne hexit hp, rfl⟩
  | @invalid i hexit =>
      have hempty : empty instr fblocks i ≠ true := by
        intro hempty
        obtain ⟨pc, hpc⟩ := (empty_spec hempty).1
        cases hexit.symm.trans (exit_jump hf hpc)
      rw [Ahead, if_neg hempty] at hp
      exact ⟨_, invalid_last hf hne hexit hp, rfl⟩

/-! ## Targets -/

/-- The blocks that an end names. -/
def Term.targets : Term → List ℕ
  | .goto t | .dynamic (some t) => [t]
  | .branch _ _ thn els => [thn, els]
  | _ => []

/-- Every block that an end names is a block of the function. -/
def Closed (first : ℕ) (blocks : List Block) : Prop :=
  ∀ t b, blockAt first blocks t = some b → ∀ t' ∈ b.term.targets,
    (blockAt first blocks t').isSome

theorem outOf_block (hne : fblocks ≠ []) {i t : ℕ} (h : outOf instr fblocks first i = some t) :
    (blockAt first (function instr fblocks first) t).isSome := by
  obtain ⟨k, hk, rfl⟩ := Option.map_eq_some_iff.1 h
  obtain ⟨hlt, -⟩ := List.idxOf?_eq_some_iff.1 hk
  rw [blockAt_add, function_eq hne, List.getElem?_map, List.getElem?_eq_getElem hlt]
  rfl

theorem blockTerm_targets {last t : ℕ} {cond : Option Expr} {broken : Bool}
    (h : t ∈ (blockTerm instr fblocks first last cond broken).targets) :
    ∃ i, outOf instr fblocks first i = some t := by
  have hmap : ∀ {x : Option ℕ}, x.bind (outOf instr fblocks first) = some t →
      ∃ i, outOf instr fblocks first i = some t := by
    intro x hx
    obtain ⟨i, -, hi⟩ := Option.bind_eq_some_iff.1 hx
    exact ⟨i, hi⟩
  have helim : ∀ {x : Option ℕ}, t ∈ (x.elim Term.invalid Term.goto).targets → x = some t := by
    intro x hx
    cases x with
    | none => cases hx
    | some x => rw [List.mem_singleton.1 hx]
  unfold blockTerm at h
  dsimp only at h
  split at h
  · cases h
  split at h
  · exact hmap (helim h)
  · exact hmap (helim h)
  · split at h
    · rename_i thn els c hthn hels
      rcases List.mem_cons.1 h with rfl | h
      · exact hmap hthn
      · rw [List.mem_singleton.1 h]
        rw [List.mem_singleton.1 h] at hmap
        exact hmap hels
    · cases h
  · cases h
  · rename_i fall hterm
    cases fall with
    | none => cases h
    | some f =>
        cases hs : (rsucc instr fblocks last).1.bind (outOf instr fblocks first) with
        | none =>
            rw [Option.bind_some, hs] at h
            cases h
        | some t' =>
            rw [Option.bind_some, hs] at h
            rw [List.mem_singleton.1 h]
            rw [List.mem_singleton.1 h] at hmap
            exact hmap hs
  · cases h

/-- **Every target of a block that comes out is a block that comes out.** -/
theorem function_closed (instr : ℕ → Option (List Stmt × Option Expr))
    (fblocks : List Decompile.Block) (first : ℕ) :
    Closed first (function instr fblocks first) := by
  intro t b hb t' ht'
  by_cases hne : fblocks = []
  · unfold blockAt function at hb
    rw [if_pos hne] at hb
    split at hb
    · cases hb
    · cases hb
  · have hmem : b ∈ function instr fblocks first := by
      unfold blockAt at hb
      split at hb
      · exact List.mem_of_getElem? hb
      · cases hb
    rw [function_eq hne] at hmem
    obtain ⟨h, -, rfl⟩ := List.mem_map.1 hmem
    obtain ⟨i, hi⟩ := blockTerm_targets ht'
    exact outOf_block hne hi

/-! ## Threading -/

section Thread

variable {blocks : List Block}

/-- Threading a target takes steps without events. -/
theorem threadFrom_path (hclosed : Closed first blocks) {t : ℕ}
    (ht : (blockAt first blocks t).isSome) (n : ℕ) :
    (simplified first blocks).Path ((simplified first blocks).start (some t)) []
        ((simplified first blocks).start (some (threadFrom first blocks n t))) ∧
      (blockAt first blocks (threadFrom first blocks n t)).isSome := by
  induction n generalizing t with
  | zero => exact ⟨.refl _, ht⟩
  | succ n ih =>
      obtain ⟨b, hb⟩ := Option.isSome_iff_exists.1 ht
      rw [threadFrom, hb]
      dsimp only
      split
      · rename_i t' hterm
        split
        · rename_i hcond
          have ht' : (blockAt first blocks t').isSome := by
            refine hclosed t b hb t' ?_
            rw [hterm]
            exact List.mem_cons_self
          obtain ⟨hpath, hsome⟩ := ih ht'
          refine ⟨?_, hsome⟩
          have hbody : (simplified first blocks).start (some t) = .before t [] := by
            show Place.before t (((blockAt first blocks t).map Block.body).getD []) = _
            rw [hb]
            exact congrArg (Place.before t) (List.isEmpty_iff.1 hcond.1)
          have hexit : (simplified first blocks).exit t = .goto (some t') := by
            show ((blockAt first blocks t).map fun b => simplifiedExit first blocks b.term).getD
              .invalid = _
            rw [hb]
            show simplifiedExit first blocks b.term = _
            rw [hterm, simplifiedExit, localT, if_pos ht']
          rw [hbody]
          exact (path_goto hexit).trans hpath
        · exact ⟨.refl _, ht⟩
      · exact ⟨.refl _, ht⟩

theorem blockAt_threadAt (i t : ℕ) : blockAt first (threadAt first blocks i) t
    = (blockAt first blocks t).map fun b =>
        if first + i = t then { b with term := threadTerm first blocks b.term } else b := by
  unfold blockAt threadAt
  split
  · rw [List.getElem?_modify]
    have hiff : i = t - first ↔ first + i = t := by omega
    simp only [hiff]
    split
    · rfl
    · cases blocks[t - first]? <;> rfl
  · rfl

theorem isSome_threadAt (i t : ℕ) :
    (blockAt first (threadAt first blocks i) t).isSome = (blockAt first blocks t).isSome := by
  rw [blockAt_threadAt, Option.isSome_map]

theorem localT_threadAt (i t : ℕ) :
    localT first (threadAt first blocks i) t = localT first blocks t := by
  rw [localT, localT, isSome_threadAt]

theorem threadTerm_threaded (hclosed : Closed first blocks) {t : ℕ} {b : Block}
    (hb : blockAt first blocks t = some b) :
    (simplified first blocks).Threaded (simplifiedExit first blocks b.term)
        (simplifiedExit first blocks (threadTerm first blocks b.term)) ∧
      ∀ t' ∈ (threadTerm first blocks b.term).targets, (blockAt first blocks t').isSome := by
  have hlocal : ∀ {t' : ℕ}, (blockAt first blocks t').isSome → localT first blocks t' = some t' :=
    fun h => if_pos h
  have hthread : ∀ {t' : ℕ}, t' ∈ b.term.targets →
      (simplified first blocks).Path
          ((simplified first blocks).start (localT first blocks t')) []
          ((simplified first blocks).start
            (localT first blocks (threadFrom first blocks blocks.length t'))) ∧
        (blockAt first blocks (threadFrom first blocks blocks.length t')).isSome := by
    intro t' ht'
    have hsome := hclosed t b hb t' ht'
    obtain ⟨hpath, hsome'⟩ := threadFrom_path hclosed hsome blocks.length
    rw [hlocal hsome, hlocal hsome']
    exact ⟨hpath, hsome'⟩
  cases hterm : b.term with
  | goto t' =>
      rw [hterm] at hthread
      obtain ⟨hpath, hsome⟩ := hthread (List.mem_singleton.2 rfl)
      refine ⟨.goto hpath, fun t'' ht'' => ?_⟩
      rw [List.mem_singleton.1 ht'']
      exact hsome
  | branch cond when thn els =>
      have hmemThn : thn ∈ b.term.targets := by
        rw [hterm]
        exact List.mem_cons_self
      have hmemEls : els ∈ b.term.targets := by
        rw [hterm]
        exact List.mem_cons_of_mem _ List.mem_cons_self
      obtain ⟨hthn, hthnSome⟩ := hthread hmemThn
      obtain ⟨hels, helsSome⟩ := hthread hmemEls
      rw [hlocal (hclosed t b hb thn hmemThn), hlocal hthnSome] at hthn
      rw [hlocal (hclosed t b hb els hmemEls), hlocal helsSome] at hels
      constructor
      · rw [threadTerm, simplifiedExit, simplifiedExit, hlocal (hclosed t b hb thn hmemThn),
          hlocal (hclosed t b hb els hmemEls), hlocal hthnSome, hlocal helsSome]
        exact .branch hthn hels
      · intro t'' ht''
        rcases List.mem_cons.1 ht'' with rfl | ht''
        · exact hthnSome
        · rw [List.mem_singleton.1 ht'']
          exact helsSome
  | dynamic fall =>
      cases fall with
      | none => exact ⟨.same _, fun _ ht' => absurd ht' List.not_mem_nil⟩
      | some t' =>
          rw [hterm] at hthread
          obtain ⟨hpath, hsome⟩ := hthread (List.mem_singleton.2 rfl)
          refine ⟨.goto hpath, fun t'' ht'' => ?_⟩
          rw [List.mem_singleton.1 ht'']
          exact hsome
  | exit | invalid => exact ⟨.same _, fun _ ht' => absurd ht' List.not_mem_nil⟩

theorem map_pc_threadAt (i : ℕ) : (threadAt first blocks i).map Block.pc = blocks.map Block.pc := by
  refine List.ext_getElem? fun k => ?_
  rw [List.getElem?_map, List.getElem?_map, threadAt, List.getElem?_modify]
  cases blocks[k]? with
  | none => rfl
  | some b =>
      show some (if _ then _ else b : Block).pc = some b.pc
      split
      · rfl
      · rfl

/-- A turn of the threading threads the exits. -/
theorem threadAt_threads (hclosed : Closed first blocks) (i : ℕ) :
    (simplified first blocks).Threads (simplified first (threadAt first blocks i)) ∧
      Closed first (threadAt first blocks i) := by
  have hexitSame : simplifiedExit first (threadAt first blocks i) = simplifiedExit first blocks := by
    funext e
    cases e with
    | goto t => rw [simplifiedExit, simplifiedExit, localT_threadAt]
    | branch cond when thn els =>
        rw [simplifiedExit, simplifiedExit, localT_threadAt, localT_threadAt]
    | dynamic fall =>
        cases fall with
        | none => rfl
        | some t => rw [simplifiedExit, simplifiedExit, localT_threadAt]
    | exit | invalid => rfl
  refine ⟨⟨?_, ?_, fun t => ?_⟩, fun t b hb t' ht' => ?_⟩
  · funext t
    show ((blockAt first _ t).map Block.body).getD [] = ((blockAt first _ t).map Block.body).getD []
    rw [blockAt_threadAt, Option.map_map]
    cases blockAt first blocks t with
    | none => rfl
    | some b =>
        show (if _ then _ else b : Block).body = b.body
        split
        · rfl
        · rfl
  · funext pc
    show ((threadAt first blocks i).findIdx? fun b => decide (b.pc = pc)).map _
      = (blocks.findIdx? fun b => decide (b.pc = pc)).map _
    have hfind : ∀ bs : List Block, (bs.findIdx? fun b => decide (b.pc = pc))
        = (bs.map Block.pc).findIdx? (fun x => decide (x = pc)) := by
      intro bs
      rw [List.findIdx?_map]
      rfl
    rw [hfind, hfind, map_pc_threadAt]
  · show (simplified first blocks).Threaded
      (((blockAt first blocks t).map fun b => simplifiedExit first blocks b.term).getD .invalid)
      (((blockAt first (threadAt first blocks i) t).map fun b =>
        simplifiedExit first (threadAt first blocks i) b.term).getD .invalid)
    rw [blockAt_threadAt, hexitSame, Option.map_map]
    cases hb : blockAt first blocks t with
    | none => exact .invalid
    | some b =>
        show (simplified first blocks).Threaded (simplifiedExit first blocks b.term)
          (simplifiedExit first blocks (if _ then _ else b : Block).term)
        split
        · exact (threadTerm_threaded hclosed hb).1
        · exact .same _
  · rw [isSome_threadAt]
    rw [blockAt_threadAt] at hb
    obtain ⟨b', hb', rfl⟩ := Option.map_eq_some_iff.1 hb
    split at ht'
    · exact (threadTerm_threaded hclosed hb').2 t' ht'
    · exact hclosed t b' hb' t' ht'

/-- **Threading changes no path.** -/
theorem thread_threads (hclosed : Closed first blocks) :
    (simplified first blocks).Threads (simplified first (thread first blocks)) ∧
      Closed first (thread first blocks) := by
  unfold thread
  have hfold : ∀ (l : List ℕ) (bs : List Block),
      (simplified first blocks).Threads (simplified first bs) ∧ Closed first bs →
      (simplified first blocks).Threads (simplified first (l.foldl (threadAt first) bs)) ∧
        Closed first (l.foldl (threadAt first) bs) := by
    intro l
    induction l with
    | nil => exact fun bs h => h
    | cons i l ih =>
        intro bs h
        obtain ⟨hthreads, hclosed'⟩ := threadAt_threads h.2 i
        exact ih _ ⟨h.1.trans hthreads, hclosed'⟩
  exact hfold _ _ ⟨.same _, hclosed⟩

end Thread

/-- **The cleanup keeps the paths.**  A run whose entry and whose ends of blocks lead out of
the empty blocks, and whose jumps lead to blocks that are kept, is followed after the
cleanup, with the same statements ahead, and with the same answers nothing else happens
there.  Every target names a block that comes out, and a pc that is kept is found.
Threading the jumps changes no path. -/
theorem cleanup_preserves (instr : ℕ → Option (List Stmt × Option Expr))
    (fblocks : List Decompile.Block) (first : ℕ) (hf : Formed instr fblocks) :
    ((∃ j, entry instr fblocks = some j ∧ empty instr fblocks j = false) →
      ∀ es p, (original instr fblocks).Run (Good instr fblocks)
        ((original instr fblocks).start (some 0)) es p →
      let g := simplified first (function instr fblocks first)
      ∃ p', g.Path (g.start (some first)) es p' ∧ Ahead instr fblocks first p p' ∧
        ∀ es' p'', g.Path (g.start (some first)) es' p'' →
          es'.map Event.answer = es.map Event.answer → es' = es) ∧
    Closed first (function instr fblocks first) ∧
    (∀ pc, Kept instr fblocks pc →
      ((simplified first (function instr fblocks first)).enter pc).isSome) ∧
    ∀ blocks, Closed first blocks → ∀ p es,
      (∀ q, (simplified first blocks).Path p es q →
        ∃ q', (simplified first (thread first blocks)).Path p es q' ∧
          (simplified first blocks).Path q [] q') ∧
      ∀ q, (simplified first (thread first blocks)).Path p es q →
        (simplified first blocks).Path p es q := by
  refine ⟨?_, function_closed instr fblocks first, fun pc hpc => ?_, fun blocks hclosed p es => ?_⟩
  · rintro ⟨j, hj, hempty⟩ es p hrun
    dsimp only
    have hne := hf.root
    have hk : (heads instr fblocks)[0]? = some j := by
      rw [heads_eq, hj]
      rfl
    have hstart := (@within_head instr fblocks first 0 j hk hne).2
    rw [Nat.add_zero] at hstart
    have hahead : Ahead instr fblocks first ((original instr fblocks).start (some 0))
        ((simplified first (function instr fblocks first)).start (some first)) := by
      have hentry : (some 0).bind (resolveFrom instr fblocks fblocks.length) = some j := hj
      have harrives : Arrives instr fblocks first
          ((some 0).bind (resolveFrom instr fblocks fblocks.length))
          ((simplified first (function instr fblocks first)).start (some first)) := by
        rw [hentry]
        exact ⟨hempty, hstart⟩
      exact ahead_start harrives
    obtain ⟨p', hpath, hp'⟩ := Run.simulate (ahead_step hf hne) hahead hrun
    exact ⟨p', hpath, hp', fun es' p'' hpath' ha => Run.events_unique hpath' hpath ha⟩
  · obtain ⟨i, k, -, -, -, henter⟩ := @enter_kept instr fblocks first hf hf.root pc hpc
    rw [henter]
    rfl
  · obtain ⟨hthreads, -⟩ := thread_threads hclosed
    exact ⟨fun q hq => hthreads.ahead hq, fun q hq => hthreads.back hq⟩

/-! ## A call in a `try` with an empty `catch` -/

def tryInstr : ℕ → Option (List Stmt × Option Expr)
  | 0 => some ([.setCatch (.num 0x4024000000000000)], none)
  | 1 => some ([.eval (.call (.reg 4) [])], none)
  | 2 => some ([.ret .undef], none)
  | 3 => some ([], some (.reg 4))
  | 4 => some ([], none)
  | _ => none

/-- The catch target is the place after the `try`. -/
def tryBlocks : List Decompile.Block := [⟨0, [0, 1], .next 10⟩, ⟨10, [2], .exit⟩]

/-- One side of a branch is `for (;;) {}`. -/
def spinBlocks : List Decompile.Block :=
  [⟨0, [3], .branch 0 true 10 20⟩, ⟨10, [4], .jump 10⟩, ⟨20, [2], .exit⟩]

theorem tryBlocks_formed : Formed tryInstr tryBlocks where
  root := by decide
  pcs := by decide
  some := by decide
  whole := by decide

theorem spinBlocks_formed : Formed tryInstr spinBlocks where
  root := by decide
  pcs := by decide
  some := by decide
  whole := by decide

/-- The run in which the call returns. -/
theorem cleanup_preserves_try :
    ∃ p, (simplified 0 (function tryInstr tryBlocks 0)).Path
      ((simplified 0 (function tryInstr tryBlocks 0)).start (some 0))
      [.stmt (.setCatch (.num 0x4024000000000000)) .ok, .stmt (.eval (.call (.reg 4) [])) .ok,
        .stmt (.ret .undef) .stop] p := by
  have hleads : Leads tryInstr tryBlocks 0 := by
    intro j hj
    cases hj
    rfl
  have hrun : (original tryInstr tryBlocks).Run (Good tryInstr tryBlocks)
      ((original tryInstr tryBlocks).start (some 0))
      [.stmt (.setCatch (.num 0x4024000000000000)) .ok, .stmt (.eval (.call (.reg 4) [])) .ok,
        .stmt (.ret .undef) .stop] .stopped :=
    .step trivial .ok (.step trivial .ok (.step (.inr (.inr hleads)) (.goto rfl)
      (.step trivial .stop (.refl _))))
  obtain ⟨p, hp, -⟩ := (cleanup_preserves tryInstr tryBlocks 0 tryBlocks_formed).1 ⟨0, rfl, rfl⟩
    _ _ hrun
  exact ⟨p, hp⟩

/-- A call that throws goes on after the `try`, which is no block any more; and a branch with
`for (;;) {}` on one side has no other side any more. -/
theorem cleanup_loses :
    (Formed tryInstr tryBlocks ∧ (∃ p, (original tryInstr tryBlocks).Path
        ((original tryInstr tryBlocks).start (some 0))
        [.stmt (.setCatch (.num 0x4024000000000000)) .ok,
          .stmt (.eval (.call (.reg 4) [])) (.jump 10), .stmt (.ret .undef) .stop] p) ∧
      ¬ ∃ p, (simplified 0 (function tryInstr tryBlocks 0)).Path
        ((simplified 0 (function tryInstr tryBlocks 0)).start (some 0))
        [.stmt (.setCatch (.num 0x4024000000000000)) .ok,
          .stmt (.eval (.call (.reg 4) [])) (.jump 10), .stmt (.ret .undef) .stop] p) ∧
    Formed tryInstr spinBlocks ∧ (∃ p, (original tryInstr spinBlocks).Path
        ((original tryInstr spinBlocks).start (some 0))
        [.branch (.reg 4) false, .stmt (.ret .undef) .stop] p) ∧
      ¬ ∃ p, (simplified 0 (function tryInstr spinBlocks 0)).Path
        ((simplified 0 (function tryInstr spinBlocks 0)).start (some 0))
        [.branch (.reg 4) false, .stmt (.ret .undef) .stop] p := by
  refine ⟨⟨tryBlocks_formed, ⟨.stopped, ?_⟩, ?_⟩, spinBlocks_formed, ⟨.stopped, ?_⟩, ?_⟩
  · exact .step trivial .ok (.step trivial .jump (.step trivial .stop (.refl _)))
  · rintro ⟨p, hp⟩
    have hrest : (simplified 0 (function tryInstr tryBlocks 0)).Path (.badJump 10)
        [.stmt (.ret .undef) .stop] p := Path.stmt_cases (Path.stmt_cases hp)
    cases Path.at_end hrest nofun
  · exact .step trivial (.branch false rfl) (.step trivial .stop (.refl _))
  · rintro ⟨p, hp⟩
    have hexit : (simplified 0 (function tryInstr spinBlocks 0)).exit 0 = .invalid := rfl
    generalize hes : ([.branch (.reg 4) false, .stmt (.ret .undef) .stop] :
      List (Event Stmt Expr)) = es at hp
    cases hp with
    | refl => cases hes
    | step _ hs hr =>
        cases hs with
        | invalid =>
            cases Path.at_end hr nofun
            cases hes
        | goto h => cases hexit.symm.trans h
        | branch b h => cases hexit.symm.trans h
        | fell h => cases hexit.symm.trans h

end Devirt
end Lunar
