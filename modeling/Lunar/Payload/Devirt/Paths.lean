/-
# The paths through a devirtualised function

The blocks of a function are a flow graph before the cleanup (`original`) and after it
(`simplified`).  A run of the first is followed by the second statement after statement
(`ahead_step`), as long as no jump of a statement, an exception or a `finally` leads to a
block that is gone, and no edge leads into a circle of empty blocks.
-/

import Lunar.Lib.Flow
import Lunar.Payload.Devirt.Chains

namespace Lunar
namespace Devirt

open Lib (Flow Exit Place Event Outcome)
open Lib.Flow (Step Run Path)

/-! ## Graphs -/

section Graphs

variable (instr : ℕ → Option (List Stmt × Option Expr)) (fblocks : List Decompile.Block)

/-- The end of a block, whose condition is the branch condition of its last instruction. -/
def originalExit (i : ℕ) : Exit Expr :=
  let (_, cond, broken) := lower instr (instrs fblocks i)
  if broken then .invalid
  else match term fblocks i, cond with
    | .jump pc, _ | .next pc, _ | .dynamic (some pc), _ => .goto (target fblocks pc)
    | .branch _ when t fall, some c => .branch c when (target fblocks t) (target fblocks fall)
    | .exit, _ | .dynamic none, _ => .fell
    | _, _ => .invalid

/-- The blocks of a function as they come. -/
def original : Flow Stmt Expr where
  body i := (lower instr (instrs fblocks i)).1
  exit := originalExit instr fblocks
  enter := target fblocks

variable (first : ℕ) (blocks : List Block)

/-- A block of the function. -/
def localT (t : ℕ) : Option ℕ := if (blockAt first blocks t).isSome then some t else none

/-- The end of a block as `exec.rs` lowers it. -/
def simplifiedExit : Term → Exit Expr
  | .goto t | .dynamic (some t) => .goto (localT first blocks t)
  | .branch cond when thn els =>
    match localT first blocks thn, localT first blocks els with
    | some thn, some els => .branch cond when (some thn) (some els)
    | _, _ => .invalid
  | .exit | .dynamic none => .fell
  | .invalid => .invalid

/-- The blocks of a function as `exec.rs` runs them; `ip_of` finds the block of a pc. -/
def simplified : Flow Stmt Expr where
  body t := ((blockAt first blocks t).map Block.body).getD []
  exit t := ((blockAt first blocks t).map fun b => simplifiedExit first blocks b.term).getD .invalid
  enter pc := (blocks.findIdx? (·.pc = pc)).map (first + ·)

end Graphs

/-! ## What is asked of a run -/

section Asked

variable (instr : ℕ → Option (List Stmt × Option Expr)) (fblocks : List Decompile.Block)

/-- What `decompile` gives: a block at least, pcs that differ, blocks that are not empty
lists, and no instruction without a template before a jump. -/
structure Formed : Prop where
  root : fblocks ≠ []
  pcs : (fblocks.map Decompile.Block.pc).Nodup
  some : ∀ b ∈ fblocks, b.instrs ≠ []
  whole : ∀ b ∈ fblocks, (jumpPc b.term).isSome → ∀ ix ∈ b.instrs, (instr ix).isSome

/-- The only edge to a block is the jump of another block, and no run starts at it. -/
def Followed (i : ℕ) : Prop :=
  some i ≠ entry instr fblocks ∧ preds instr fblocks i = 1 ∧
    ∃ j, i ≠ j ∧ empty instr fblocks j = false ∧
      ∃ pc, jumpPc (term fblocks j) = some pc ∧ lands instr fblocks pc = some i

/-- A block is at a pc that has more than jumps in it and is not put behind another. -/
def Kept (pc : ℕ) : Prop :=
  ∃ i, target fblocks pc = some i ∧ empty instr fblocks i = false ∧ ¬ Followed instr fblocks i

/-- The empty blocks from a pc on come to an end. -/
def Settles (pc : ℕ) : Prop :=
  ∀ j, lands instr fblocks pc = some j → empty instr fblocks j = false

/-- The empty blocks from a pc on come to a block. -/
def Lands (pc : ℕ) : Prop := ∃ j, lands instr fblocks pc = some j ∧ empty instr fblocks j = false

/-- The edges of a block lead out of the empty blocks. -/
def Leads (i : ℕ) : Prop :=
  match term fblocks i with
  | .jump pc | .next pc => Settles instr fblocks pc
  | .branch _ _ t fall => Lands instr fblocks t ∧ Lands instr fblocks fall
  | .dynamic (some pc) => Lands instr fblocks pc
  | _ => True

/-- What is asked of a step: the edges of a block that ends lead out of the empty blocks,
and a jump leads to a block that is kept. -/
def Good : Place Stmt → Option (Event Stmt Expr) → Prop
  | .before i [], _ => originalExit instr fblocks i = .invalid ∨ empty instr fblocks i = true ∨
      Leads instr fblocks i
  | .before _ (_ :: _), some (.stmt _ (.jump pc)) => Kept instr fblocks pc
  | _, _ => True

end Asked

variable {instr : ℕ → Option (List Stmt × Option Expr)} {fblocks : List Decompile.Block}
  {first : ℕ}

theorem absorbed_iff_followed {i : ℕ} (hi : empty instr fblocks i = false) :
    absorbed instr fblocks i = true ↔ Followed instr fblocks i := by
  have hsucc : ∀ {j pc}, empty instr fblocks j = false → jumpPc (term fblocks j) = some pc →
      (rsucc instr fblocks j).1 = lands instr fblocks pc := by
    intro j pc hj hpc
    rw [rsucc, if_neg (Bool.eq_false_iff.1 hj)]
    cases hterm : term fblocks j with
    | jump pc' | next pc' =>
        rw [hterm] at hpc
        obtain rfl := Option.some.inj hpc
        rfl
    | branch | exit | dynamic | invalid =>
        rw [hterm] at hpc
        cases hpc
  rw [absorbed_iff]
  constructor
  · rintro ⟨j, hj⟩
    obtain ⟨hempty, ⟨pc, hpc⟩, hs, hne, hentry, hpreds, -⟩ := next_eq_some.1 hj
    exact ⟨hentry, hpreds, j, hne, hempty, pc, hpc, (hsucc hempty hpc).symm.trans hs⟩
  · rintro ⟨hentry, hpreds, j, hne, hempty, pc, hpc, hlands⟩
    exact ⟨j, next_eq_some.2 ⟨hempty, ⟨pc, hpc⟩, (hsucc hempty hpc).trans hlands, hne, hentry,
      hpreds, hi⟩⟩

/-! ## The blocks that come out -/

/-- The statements of a block as it comes. -/
abbrev bodyOf (instr : ℕ → Option (List Stmt × Option Expr)) (fblocks : List Decompile.Block)
    (i : ℕ) : List Stmt := (lower instr (instrs fblocks i)).1

theorem lower_flatMap (xs : List ℕ) : (lower instr (xs.flatMap (instrs fblocks))).1
    = xs.flatMap (bodyOf instr fblocks) := by
  induction xs with
  | nil => rfl
  | cons x xs ih =>
      rw [List.flatMap_cons, List.flatMap_cons, (lower_append _ _).1, ih]

theorem bodyOf_empty {i : ℕ} (h : empty instr fblocks i = true) : bodyOf instr fblocks i = [] := by
  have hall := (empty_spec h).2
  unfold bodyOf
  generalize instrs fblocks i = ixs at hall
  induction ixs using List.reverseRecOn with
  | nil => rfl
  | append_singleton b ix ih =>
      rw [lower_concat, lowerInstr, hall ix (List.mem_append_right _ List.mem_cons_self)]
      show _ ++ [] = []
      rw [List.append_nil]
      exact ih fun ix' hix' => hall ix' (List.mem_append_left _ hix')

/-- The chain from a head begins with the head. -/
theorem chainFrom_head {h : ℕ} (hhead : h ∈ heads instr fblocks) (hne : fblocks ≠ []) :
    ∃ post, chainFrom instr fblocks h = h :: post := by
  have hfirst := Lib.chain_getElem? (chain_eq hhead hne).1 0
  cases hc : chainFrom instr fblocks h with
  | nil =>
      rw [hc] at hfirst
      cases hfirst
  | cons x post =>
      rw [hc] at hfirst
      obtain rfl := Option.some.inj hfirst
      exact ⟨post, rfl⟩

/-- What stands behind a block in a chain. -/
theorem chainFrom_next {h i : ℕ} {pre post : List ℕ} (hhead : h ∈ heads instr fblocks)
    (hne : fblocks ≠ []) (hc : chainFrom instr fblocks h = pre ++ i :: post) :
    next instr fblocks i = post.head? ∧ i < fblocks.length := by
  have hget := Lib.chain_getElem? (chain_eq hhead hne).1
  have hi := hget pre.length
  have hi' := hget (pre.length + 1)
  rw [hc, List.getElem?_append_right (Nat.le_refl _), Nat.sub_self] at hi
  rw [hc, List.getElem?_append_right (Nat.le_add_right _ _), Nat.add_sub_cancel_left] at hi'
  refine ⟨?_, after_lt (head_lt hhead hne) hi.symm⟩
  have hafter : Lib.after (next instr fblocks) (pre.length + 1) h = (some i).bind (next instr fblocks) := by
    rw [show some i = _ from hi]
    rfl
  rw [hafter] at hi'
  rw [List.head?_eq_getElem?]
  exact hi'.symm

theorem blockAt_add (blocks : List Block) (k : ℕ) : blockAt first blocks (first + k) = blocks[k]? := by
  rw [blockAt, if_pos (Nat.le_add_right _ _), Nat.add_sub_cancel_left]

/-- The block with a number. -/
theorem blockAt_function {k h : ℕ} (hk : (heads instr fblocks)[k]? = some h) (hne : fblocks ≠ []) :
    blockAt first (function instr fblocks first) (first + k)
      = some (block instr fblocks first h (chainFrom instr fblocks h)) := by
  rw [blockAt_add, function_eq hne, List.getElem?_map, hk]
  rfl

/-! ## Following a run -/

/-- A place in the part `i` of a block. -/
def Within (instr : ℕ → Option (List Stmt × Option Expr)) (fblocks : List Decompile.Block)
    (first i : ℕ) (rest : List Stmt) (p : Place Stmt) : Prop :=
  ∃ k h pre post, (heads instr fblocks)[k]? = some h ∧
    chainFrom instr fblocks h = pre ++ i :: post ∧
    p = .before (first + k) (rest ++ post.flatMap (bodyOf instr fblocks))

/-- A place where an edge leads. -/
def Arrives (instr : ℕ → Option (List Stmt × Option Expr)) (fblocks : List Decompile.Block)
    (first : ℕ) : Option ℕ → Place Stmt → Prop
  | none, p => p = .invalid
  | some j, p => empty instr fblocks j = false ∧
      Within instr fblocks first j (bodyOf instr fblocks j) p

/-- The place after the cleanup for a place before it: the same statements are ahead, and
empty blocks are passed. -/
def Ahead (instr : ℕ → Option (List Stmt × Option Expr)) (fblocks : List Decompile.Block)
    (first : ℕ) : Place Stmt → Place Stmt → Prop
  | .before i rest, p =>
    if empty instr fblocks i then
      rest = [] ∧ ∃ n, Arrives instr fblocks first (resolveFrom instr fblocks n i) p
    else Within instr fblocks first i rest p
  | .stopped, p => p = .stopped
  | .fell, p => p = .fell
  | .invalid, p => p = .invalid
  | .badJump pc, p => p = .badJump pc

/-- The start of a block leads where its edges lead. -/
theorem ahead_start {t : Option ℕ} {n : ℕ} {p : Place Stmt}
    (h : Arrives instr fblocks first (t.bind (resolveFrom instr fblocks n)) p) :
    Ahead instr fblocks first ((original instr fblocks).start t) p := by
  cases t with
  | none => exact h
  | some t =>
      show if _ then _ else _
      split
      · rename_i hempty
        exact ⟨bodyOf_empty hempty, n, h⟩
      · rename_i hempty
        have hfalse := Bool.eq_false_iff.2 hempty
        rw [Option.bind_some, resolveFrom_of_not_empty hfalse] at h
        exact h.2

/-- The place at the start of a head. -/
theorem within_head {k j : ℕ} (hk : (heads instr fblocks)[k]? = some j) (hne : fblocks ≠ []) :
    localT first (function instr fblocks first) (first + k) = some (first + k) ∧
      Within instr fblocks first j (bodyOf instr fblocks j)
        ((simplified first (function instr fblocks first)).start (some (first + k))) := by
  have hhead := List.mem_of_getElem? hk
  obtain ⟨post, hpost⟩ := chainFrom_head hhead hne
  have hblock := @blockAt_function instr fblocks first k j hk hne
  constructor
  · rw [localT, hblock]
    rfl
  · refine ⟨k, j, [], post, hk, hpost, ?_⟩
    show Place.before _ ((((blockAt first (function instr fblocks first) (first + k)).map
      Block.body).getD [])) = _
    rw [hblock]
    show Place.before _ (lower instr ((chainFrom instr fblocks j).flatMap (instrs fblocks))).1 = _
    rw [lower_flatMap, hpost, List.flatMap_cons]

/-- An edge to a block that is not put behind another. -/
theorem edge_head {i j : ℕ} (hne : fblocks ≠ []) (hi : i < fblocks.length)
    (hj : j ∈ succs instr fblocks i) (hempty : empty instr fblocks j = false)
    (hnext : next instr fblocks i ≠ some j) :
    ∃ t, outOf instr fblocks first j = some t ∧
      localT first (function instr fblocks first) t = some t ∧
      Arrives instr fblocks first (some j)
        ((simplified first (function instr fblocks first)).start (some t)) := by
  have habs : absorbed instr fblocks j = false :=
    Bool.eq_false_iff.2 fun h => hnext (next_of_absorbed hi hj h)
  have hnumber : ∃ k, outOf instr fblocks first j = some (first + k) ∧
      (heads instr fblocks)[k]? = some j := outOf_eq_some (succs_lt hj) hempty habs
  obtain ⟨k, hout, hk⟩ := hnumber
  obtain ⟨hlocal, hwithin⟩ := @within_head instr fblocks first k j hk hne
  exact ⟨first + k, hout, hlocal, hempty, hwithin⟩

/-- A block before a jump has all its templates. -/
theorem whole_of_jump (hf : Formed instr fblocks) {i pc : ℕ}
    (h : jumpPc (term fblocks i) = some pc) : (lower instr (instrs fblocks i)).2.2 = false := by
  have hlt := lt_of_jumpPc h
  refine lower_whole fun ix hix => ?_
  rw [instrs, List.getElem?_eq_getElem hlt] at hix
  rw [term, List.getElem?_eq_getElem hlt] at h
  refine hf.whole _ (List.getElem_mem hlt) ?_ ix hix
  exact Option.isSome_iff_exists.2 ⟨pc, h⟩

/-- The parts before the last one of a block have all their templates. -/
theorem whole_before (hf : Formed instr fblocks) {h i : ℕ} {pre post : List ℕ}
    (hhead : h ∈ heads instr fblocks) (hne : fblocks ≠ [])
    (hc : chainFrom instr fblocks h = pre ++ i :: post) :
    (lower instr (pre.flatMap (instrs fblocks))).2.2 = false := by
  induction pre using List.reverseRecOn generalizing i post with
  | nil => rfl
  | append_singleton pre x ih =>
      rw [List.append_assoc, List.singleton_append] at hc
      obtain ⟨hnext, -⟩ := chainFrom_next hhead hne hc
      obtain ⟨-, ⟨pc, hjump⟩, -⟩ := next_eq_some.1 hnext
      rw [List.flatMap_append, (lower_append _ _).2, ih hc, List.flatMap_singleton,
        whole_of_jump hf hjump]
      rfl

/-- The end of a block is that of its last part. -/
theorem exit_last (hf : Formed instr fblocks) {k h i : ℕ} {pre : List ℕ} (hne : fblocks ≠ [])
    (hk : (heads instr fblocks)[k]? = some h) (hc : chainFrom instr fblocks h = pre ++ [i]) :
    (simplified first (function instr fblocks first)).exit (first + k)
      = simplifiedExit first (function instr fblocks first) (blockTerm instr fblocks first i
          (lower instr (instrs fblocks i)).2.1 (lower instr (instrs fblocks i)).2.2) := by
  have hhead := List.mem_of_getElem? hk
  have hblock := @blockAt_function instr fblocks first k h hk hne
  have hlower : lower instr ((chainFrom instr fblocks h).flatMap (instrs fblocks))
      = lower instr (pre.flatMap (instrs fblocks) ++ instrs fblocks i) := by
    rw [hc, List.flatMap_append, List.flatMap_singleton]
  have hbroken : (lower instr ((chainFrom instr fblocks h).flatMap (instrs fblocks))).2.2
      = (lower instr (instrs fblocks i)).2.2 := by
    rw [hlower, (lower_append _ _).2, whole_before hf hhead hne hc, Bool.false_or]
  show ((blockAt first _ _).map fun b => simplifiedExit first _ b.term).getD .invalid = _
  rw [hblock]
  show simplifiedExit first _ (blockTerm instr fblocks first
    ((chainFrom instr fblocks h).getLastD h)
    (lower instr ((chainFrom instr fblocks h).flatMap (instrs fblocks))).2.1
    (lower instr ((chainFrom instr fblocks h).flatMap (instrs fblocks))).2.2) = _
  rw [hbroken, hc, List.getLastD_concat]
  cases hwhole : (lower instr (instrs fblocks i)).2.2 with
  | true => rfl
  | false =>
      have hi := (chainFrom_next hhead hne hc).2
      have hsome : instrs fblocks i ≠ [] := by
        rw [instrs, List.getElem?_eq_getElem hi]
        exact hf.some _ (List.getElem_mem hi)
      rw [← hc, hlower, lower_cond hsome hwhole]

theorem rsucc_jump {i pc : ℕ} (hi : empty instr fblocks i = false)
    (h : jumpPc (term fblocks i) = some pc) :
    rsucc instr fblocks i = (lands instr fblocks pc, none) := by
  rw [rsucc, if_neg (Bool.eq_false_iff.1 hi)]
  cases hterm : term fblocks i with
  | jump pc' | next pc' =>
      rw [hterm] at h
      obtain rfl := Option.some.inj h
      rfl
  | branch | exit | dynamic | invalid =>
      rw [hterm] at h
      cases h

/-- The end of a block that jumps. -/
theorem exit_jump (hf : Formed instr fblocks) {i pc : ℕ}
    (h : jumpPc (term fblocks i) = some pc) :
    originalExit instr fblocks i = .goto (target fblocks pc) := by
  unfold originalExit
  dsimp only
  rw [if_neg (Bool.eq_false_iff.1 (whole_of_jump hf h))]
  cases hterm : term fblocks i with
  | jump pc' | next pc' =>
      rw [hterm] at h
      obtain rfl := Option.some.inj h
      rfl
  | branch | exit | dynamic | invalid =>
      rw [hterm] at h
      cases h

/-- A block with an end other than a jump has nothing behind it. -/
theorem next_of_exit (hf : Formed instr fblocks) {i : ℕ}
    (h : ∀ pc, originalExit instr fblocks i ≠ .goto (target fblocks pc)) :
    next instr fblocks i = none := by
  by_contra hnext
  obtain ⟨t, ht⟩ := Option.ne_none_iff_exists'.1 hnext
  obtain ⟨-, ⟨pc, hjump⟩, -⟩ := next_eq_some.1 ht
  exact h pc (exit_jump hf hjump)

section Steps

variable {i : ℕ} {p : Place Stmt}

/-- The last part of a block, with no statements left. -/
theorem within_last (hne : fblocks ≠ []) (hnext : next instr fblocks i = none)
    (h : Within instr fblocks first i [] p) :
    i < fblocks.length ∧ ∃ k h pre, (heads instr fblocks)[k]? = some h ∧
      chainFrom instr fblocks h = pre ++ [i] ∧ p = .before (first + k) [] := by
  obtain ⟨k, h, pre, post, hk, hc, rfl⟩ := h
  obtain ⟨hpost, hi⟩ := chainFrom_next (List.mem_of_getElem? hk) hne hc
  rw [hnext] at hpost
  obtain rfl := List.head?_eq_none_iff.1 hpost.symm
  exact ⟨hi, k, h, pre, hk, hc, rfl⟩

/-- An empty block is passed. -/
theorem goto_empty (hf : Formed instr fblocks) {t : Option ℕ} {n : ℕ}
    (hempty : empty instr fblocks i = true) (hexit : originalExit instr fblocks i = .goto t)
    (h : Arrives instr fblocks first (resolveFrom instr fblocks n i) p) :
    Ahead instr fblocks first ((original instr fblocks).start t) p := by
  obtain ⟨pc, hpc⟩ := (empty_spec hempty).1
  cases n with
  | zero => exact absurd h.1 (Bool.not_eq_false _ ▸ hempty)
  | succ n =>
      rw [resolveFrom, if_pos hempty, hpc] at h
      cases (exit_jump hf hpc).symm.trans hexit
      exact ahead_start h

/-- A jump to the block that stands behind. -/
theorem goto_behind (hf : Formed instr fblocks) (hne : fblocks ≠ []) {t : Option ℕ} {j : ℕ}
    (hnext : next instr fblocks i = some j) (hexit : originalExit instr fblocks i = .goto t)
    (h : Within instr fblocks first i [] p) :
    Ahead instr fblocks first ((original instr fblocks).start t) p := by
  obtain ⟨hempty, ⟨pc, hpc⟩, hsucc, -, -, -, hj⟩ := next_eq_some.1 hnext
  cases (exit_jump hf hpc).symm.trans hexit
  obtain ⟨k, h, pre, post, hk, hc, rfl⟩ := h
  obtain ⟨hpost, -⟩ := chainFrom_next (List.mem_of_getElem? hk) hne hc
  rw [hnext] at hpost
  obtain ⟨post', rfl⟩ := List.head?_eq_some_iff.1 hpost.symm
  rw [rsucc_jump hempty hpc] at hsucc
  have harrives : Arrives instr fblocks first (lands instr fblocks pc)
      (.before (first + k) ([] ++ (j :: post').flatMap (bodyOf instr fblocks))) := by
    rw [show lands instr fblocks pc = some j from hsucc]
    refine ⟨hj, k, h, pre ++ [i], post', hk, ?_, rfl⟩
    rw [List.append_assoc]
    exact hc
  exact ahead_start harrives

theorem exit_goto {t : Option ℕ} (h : originalExit instr fblocks i = .goto t) :
    (lower instr (instrs fblocks i)).2.2 = false ∧ ∃ pc, t = target fblocks pc ∧
      (jumpPc (term fblocks i) = some pc ∨ term fblocks i = .dynamic (some pc)) := by
  unfold originalExit at h
  dsimp only at h
  split at h
  · cases h
  · rename_i hbroken
    refine ⟨Bool.eq_false_iff.2 hbroken, ?_⟩
    split at h
    · rename_i pc hterm
      cases h
      exact ⟨pc, rfl, .inl (by rw [hterm]; rfl)⟩
    · rename_i pc hterm
      cases h
      exact ⟨pc, rfl, .inl (by rw [hterm]; rfl)⟩
    · rename_i pc hterm
      cases h
      exact ⟨pc, rfl, .inr hterm⟩
    all_goals cases h

theorem exit_branch {c : Expr} {when : Bool} {thn els : Option ℕ}
    (h : originalExit instr fblocks i = .branch c when thn els) :
    (lower instr (instrs fblocks i)).2.2 = false ∧
      (lower instr (instrs fblocks i)).2.1 = some c ∧ ∃ e t fall,
        term fblocks i = .branch e when t fall ∧ thn = target fblocks t ∧
          els = target fblocks fall := by
  unfold originalExit at h
  dsimp only at h
  split at h
  · cases h
  · rename_i hbroken
    split at h
    case h_4 e when' t fall c' hterm hcond =>
      cases h
      exact ⟨Bool.eq_false_iff.2 hbroken, hcond, e, t, fall, hterm, rfl, rfl⟩
    all_goals cases h

theorem exit_fell (h : originalExit instr fblocks i = .fell) :
    (lower instr (instrs fblocks i)).2.2 = false ∧
      (term fblocks i = .exit ∨ term fblocks i = .dynamic none) := by
  unfold originalExit at h
  dsimp only at h
  split at h
  · cases h
  · rename_i hbroken
    refine ⟨Bool.eq_false_iff.2 hbroken, ?_⟩
    split at h
    case h_5 hterm => exact .inl hterm
    case h_6 hterm => exact .inr hterm
    all_goals cases h

theorem exit_invalid (h : originalExit instr fblocks i = .invalid) :
    (lower instr (instrs fblocks i)).2.2 = true ∨ term fblocks i = .invalid ∨
      (lower instr (instrs fblocks i)).2.1 = none ∧
        ∃ e when t fall, term fblocks i = .branch e when t fall := by
  unfold originalExit at h
  dsimp only at h
  split at h
  · rename_i hbroken
    exact .inl hbroken
  · refine .inr ?_
    cases hterm : term fblocks i with
    | invalid => exact .inl rfl
    | branch e when t fall =>
        rw [hterm] at h
        cases hcond : (lower instr (instrs fblocks i)).2.1 with
        | none => exact .inr ⟨rfl, e, when, t, fall, rfl⟩
        | some c =>
            rw [hcond] at h
            cases h
    | dynamic fall =>
        rw [hterm] at h
        cases fall with
        | none => cases h
        | some pc => cases h
    | next | jump | exit =>
        rw [hterm] at h
        cases h

/-- A step to a block. -/
theorem path_goto {g : Flow Stmt Expr} {k : ℕ} {t : Option ℕ} (h : g.exit k = .goto t) :
    g.Path (.before k []) [] (g.start t) := Lib.Flow.Path.of_step (.goto h)

theorem path_invalid {g : Flow Stmt Expr} {k : ℕ} (h : g.exit k = .invalid) :
    g.Path (.before k []) [] .invalid := Lib.Flow.Path.of_step (.invalid h)

theorem rsucc_goto {pc : ℕ} (hempty : empty instr fblocks i = false)
    (h : jumpPc (term fblocks i) = some pc ∨ term fblocks i = .dynamic (some pc)) :
    rsucc instr fblocks i = (lands instr fblocks pc, none) := by
  rcases h with hjump | hterm
  · exact rsucc_jump hempty hjump
  · rw [rsucc, if_neg (Bool.eq_false_iff.1 hempty), hterm]

/-- The end of a block that goes on at a block with a number. -/
theorem blockTerm_goto {pc j t : ℕ} {cond : Option Expr} (hempty : empty instr fblocks i = false)
    (h : jumpPc (term fblocks i) = some pc ∨ term fblocks i = .dynamic (some pc))
    (hj : lands instr fblocks pc = some j) (ht : outOf instr fblocks first j = some t) :
    blockTerm instr fblocks first i cond false = .goto t ∨
      blockTerm instr fblocks first i cond false = .dynamic (some t) := by
  have hmap : (rsucc instr fblocks i).1.bind (outOf instr fblocks first) = some t := by
    rw [rsucc_goto hempty h, hj]
    exact ht
  unfold blockTerm
  dsimp only
  rw [if_neg Bool.false_ne_true, hmap]
  cases hterm : term fblocks i with
  | jump | next => exact .inl rfl
  | dynamic fall =>
      rw [hterm] at h
      rcases h with h | h
      · cases h
      · cases h
        exact .inr rfl
  | branch | exit | invalid =>
      rw [hterm] at h
      rcases h with h | h
      · cases h
      · cases h

/-- A jump at the end of a block. -/
theorem goto_last (hf : Formed instr fblocks) (hne : fblocks ≠ []) {t : Option ℕ}
    (hempty : empty instr fblocks i = false) (hexit : originalExit instr fblocks i = .goto t)
    (hleads : Leads instr fblocks i) (hnext : next instr fblocks i = none)
    (hp : Within instr fblocks first i [] p) :
    ∃ q, (simplified first (function instr fblocks first)).Path p [] q ∧
      Ahead instr fblocks first ((original instr fblocks).start t) q := by
  obtain ⟨hi, k, h, pre, hk, hc, rfl⟩ := within_last hne hnext hp
  obtain ⟨hwhole, pc, rfl, hterm⟩ := exit_goto hexit
  have hlast := @exit_last instr fblocks first hf k h i pre hne hk hc
  rw [hwhole] at hlast
  cases hlands : lands instr fblocks pc with
  | none =>
      have hinvalid : blockTerm instr fblocks first i (lower instr (instrs fblocks i)).2.1 false
          = .invalid := by
        unfold blockTerm
        dsimp only
        rw [if_neg Bool.false_ne_true, rsucc_goto hempty hterm, hlands]
        unfold Leads at hleads
        rcases hterm with hjump | hterm
        · cases hcase : term fblocks i with
          | jump | next => rfl
          | branch | exit | dynamic | invalid =>
              have hnone : jumpPc (term fblocks i) = none := congrArg jumpPc hcase
              cases hnone.symm.trans hjump
        · rw [hterm] at hleads
          obtain ⟨j, hj, -⟩ := hleads
          cases hlands.symm.trans hj
      rw [hinvalid] at hlast
      have harrives : Arrives instr fblocks first (lands instr fblocks pc) .invalid := by
        rw [hlands]
        exact rfl
      exact ⟨.invalid, path_invalid hlast, ahead_start harrives⟩
  | some j =>
      have hj : empty instr fblocks j = false := by
        unfold Leads at hleads
        rcases hterm with hjump | hterm
        · cases hcase : term fblocks i with
          | jump pc' | next pc' =>
              rw [hcase] at hjump hleads
              cases hjump
              exact hleads j hlands
          | branch | exit | dynamic | invalid =>
              rw [hcase] at hjump
              cases hjump
        · rw [hterm] at hleads
          obtain ⟨j', hj', hempty'⟩ := hleads
          cases hlands.symm.trans hj'
          exact hempty'
      have hsucc : j ∈ succs instr fblocks i := by
        rw [succs, rsucc_goto hempty hterm, hlands]
        exact List.mem_append_left _ (Option.mem_toList.2 rfl)
      obtain ⟨t, hout, hlocal, harrives⟩ := @edge_head instr fblocks first i j hne hi hsucc hj
        (hnext ▸ nofun)
      have hgoto : (simplified first (function instr fblocks first)).exit (first + k)
          = .goto (some t) := by
        rw [hlast]
        rcases @blockTerm_goto instr fblocks first i pc j t
          (lower instr (instrs fblocks i)).2.1 hempty hterm hlands hout with hgoto | hgoto
        · rw [hgoto, simplifiedExit, hlocal]
        · rw [hgoto, simplifiedExit, hlocal]
      rw [← hlands] at harrives
      exact ⟨_, path_goto hgoto, ahead_start harrives⟩

/-- A branch at the end of a block. -/
theorem branch_last (hf : Formed instr fblocks) (hne : fblocks ≠ []) {c : Expr} {when : Bool}
    {thn els : Option ℕ} (taken : Bool) (hempty : empty instr fblocks i = false)
    (hexit : originalExit instr fblocks i = .branch c when thn els)
    (hleads : Leads instr fblocks i) (hp : Within instr fblocks first i [] p) :
    ∃ q, (simplified first (function instr fblocks first)).Path p [.branch c taken] q ∧
      Ahead instr fblocks first
        ((original instr fblocks).start (if taken = when then thn else els)) q := by
  have hnext := next_of_exit hf fun pc h => nomatch hexit.symm.trans h
  obtain ⟨hi, k, h, pre, hk, hc, rfl⟩ := within_last hne hnext hp
  obtain ⟨hwhole, hcond, e, t, fall, hterm, rfl, rfl⟩ := exit_branch hexit
  have hlast := @exit_last instr fblocks first hf k h i pre hne hk hc
  rw [hwhole, hcond] at hlast
  unfold Leads at hleads
  rw [hterm] at hleads
  obtain ⟨⟨a, ha, haEmpty⟩, z, hz, hzEmpty⟩ := hleads
  have hrsucc : rsucc instr fblocks i = (some a, some z) := by
    rw [rsucc, if_neg (Bool.eq_false_iff.1 hempty), hterm]
    show (lands instr fblocks t, lands instr fblocks fall) = _
    rw [ha, hz]
  have hasucc : a ∈ succs instr fblocks i := by
    rw [succs, hrsucc]
    exact List.mem_cons_self
  have hzsucc : z ∈ succs instr fblocks i := by
    rw [succs, hrsucc]
    exact List.mem_cons_of_mem _ List.mem_cons_self
  obtain ⟨a', haOut, haLocal, haArrives⟩ := @edge_head instr fblocks first i a hne hi hasucc haEmpty
    (hnext ▸ nofun)
  obtain ⟨z', hzOut, hzLocal, hzArrives⟩ := @edge_head instr fblocks first i z hne hi hzsucc hzEmpty
    (hnext ▸ nofun)
  have hblock : blockTerm instr fblocks first i (some c) false = .branch c when a' z' := by
    unfold blockTerm
    dsimp only
    rw [if_neg Bool.false_ne_true, hrsucc, hterm]
    dsimp only [Option.bind_some]
    rw [haOut, hzOut]
  rw [hblock, simplifiedExit, haLocal, hzLocal] at hlast
  have hstep := Lib.Flow.Path.of_step (Step.branch taken hlast)
  refine ⟨_, hstep, ?_⟩
  split
  · rw [← ha] at haArrives
    exact ahead_start haArrives
  · rw [← hz] at hzArrives
    exact ahead_start hzArrives

/-- The end of a function. -/
theorem fell_last (hf : Formed instr fblocks) (hne : fblocks ≠ [])
    (hexit : originalExit instr fblocks i = .fell) (hp : Within instr fblocks first i [] p) :
    (simplified first (function instr fblocks first)).Path p [] .fell := by
  have hnext := next_of_exit hf fun pc h => nomatch hexit.symm.trans h
  obtain ⟨hi, k, h, pre, hk, hc, rfl⟩ := within_last hne hnext hp
  obtain ⟨hwhole, hterm⟩ := exit_fell hexit
  have hlast := @exit_last instr fblocks first hf k h i pre hne hk hc
  have hfell : simplifiedExit first (function instr fblocks first)
      (blockTerm instr fblocks first i (lower instr (instrs fblocks i)).2.1 false) = .fell := by
    unfold blockTerm
    dsimp only
    rw [if_neg Bool.false_ne_true]
    rcases hterm with hterm | hterm
    · rw [hterm]
      rfl
    · rw [hterm]
      rfl
  rw [hwhole, hfell] at hlast
  exact Lib.Flow.Path.of_step (.fell hlast)

/-- A block that has no end. -/
theorem invalid_last (hf : Formed instr fblocks) (hne : fblocks ≠ [])
    (hexit : originalExit instr fblocks i = .invalid) (hp : Within instr fblocks first i [] p) :
    (simplified first (function instr fblocks first)).Path p [] .invalid := by
  have hnext := next_of_exit hf fun pc h => nomatch hexit.symm.trans h
  obtain ⟨hi, k, h, pre, hk, hc, rfl⟩ := within_last hne hnext hp
  have hlast := @exit_last instr fblocks first hf k h i pre hne hk hc
  have hinvalid : blockTerm instr fblocks first i (lower instr (instrs fblocks i)).2.1
      (lower instr (instrs fblocks i)).2.2 = .invalid := by
    unfold blockTerm
    dsimp only
    rcases exit_invalid hexit with hbroken | hterm | ⟨hcond, e, when, t, fall, hterm⟩
    · rw [hbroken]
      rfl
    · rw [hterm]
      split <;> rfl
    · rw [hcond, hterm]
      split
      · rfl
      · dsimp only
        split <;> first | rfl | contradiction
  rw [hinvalid] at hlast
  exact path_invalid hlast

end Steps

end Devirt
end Lunar
