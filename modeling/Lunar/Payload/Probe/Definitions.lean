/-
# Reaching definitions, twice

`payload/probe.rs` looks for the definitions of a register that reach an item in two ways.
`chase` goes back from the item, block by block, until an assignment stops it.  `analyze` goes
through all items once, with what the item's own block holds so far, a summary of each block
and a memo of what reaches the entry of a block.  Both are sweeps over the same blocks, and
both find the same definitions (`analyze_chase`).  Where no block holds a conditional
statement these are the definitions from which a path leads to the item on which nothing
assigns the register.
-/

import Lunar.Payload.Probe.Layout

namespace Lunar
namespace Probe

open Lib (sweep sweep_fresh ahead Leads)
open Devirt (Expr Stmt Term Block Func)

/-! ## The definitions in a list of items -/

/-- The register that the item at a place assigns. -/
def assigned (fl : Flat) (i : ℕ) : Option ℕ := (fl.items[i]?).bind fun it => (defReg it).1

/-- The register through which the item at a place writes a property. -/
def written (fl : Flat) (i : ℕ) : Option ℕ := (fl.items[i]?).bind fun it => (defReg it).2

/-- An item that assigns `r` or writes a property through it. -/
def Defines (fl : Flat) (r i : ℕ) : Prop := assigned fl i = some r ∨ written fl i = some r

theorem defReg_assigned (it : Item) {d : ℕ} (h : (defReg it).1 = some d) : (defReg it).2 = none := by
  unfold defReg at h ⊢
  split at h <;> simp_all

theorem written_of_assigned {fl : Flat} {i d : ℕ} (h : assigned fl i = some d) :
    written fl i = none := by
  rw [assigned] at h
  rw [written]
  rcases hi : fl.items[i]? with _ | it
  · rfl
  · rw [hi, Option.bind_some] at h
    rw [Option.bind_some, defReg_assigned _ h]

/-- An item defines one register at most. -/
theorem Defines.unique {fl : Flat} {i r r' : ℕ} (h : Defines fl r i) (h' : Defines fl r' i) :
    r = r' := by
  rcases h with h | h <;> rcases h' with h' | h'
  · exact Option.some_inj.1 (h.symm.trans h')
  · rw [written_of_assigned h] at h'
    cases h'
  · rw [written_of_assigned h'] at h
    cases h
  · exact Option.some_inj.1 (h.symm.trans h')

theorem scan_cons (fl : Flat) (r i : ℕ) (is : List ℕ) :
    scan fl r (i :: is) = if assigned fl i = some r then ([i], true)
      else if written fl i = some r then (i :: (scan fl r is).1, (scan fl r is).2)
      else scan fl r is := by
  rw [scan, assigned, written]
  rcases hi : fl.items[i]? with _ | it
  · simp
  · rcases hd : defReg it with ⟨_ | d, _ | w⟩
    · simp [hd]
    · simp [hd]
    · simp [hd]
    · have := defReg_assigned it (d := d) (by rw [hd])
      rw [hd] at this
      cases this

/-- The search finds the definitions that no assignment separates from its end. -/
theorem mem_scan {fl : Flat} {r d : ℕ} {is : List ℕ} :
    d ∈ (scan fl r is).1 ↔ ∃ vs us, is = vs ++ d :: us ∧ Defines fl r d ∧
      ∀ v ∈ vs, assigned fl v ≠ some r := by
  induction is with
  | nil => simp [scan]
  | cons i is ih =>
      rw [scan_cons]
      constructor
      · intro h
        split at h
        · rename_i ha
          obtain rfl := List.mem_singleton.1 h
          exact ⟨[], is, rfl, .inl ha, by simp⟩
        · rename_i ha
          have hrest (h : d ∈ (scan fl r is).1) : ∃ vs us, i :: is = vs ++ d :: us ∧
              Defines fl r d ∧ ∀ v ∈ vs, assigned fl v ≠ some r := by
            obtain ⟨vs, us, rfl, hd, hvs⟩ := ih.1 h
            exact ⟨i :: vs, us, rfl, hd, List.forall_mem_cons.2 ⟨ha, hvs⟩⟩
          split at h
          · rename_i hw
            rcases List.mem_cons.1 h with rfl | h
            · exact ⟨[], is, rfl, .inr hw, by simp⟩
            · exact hrest h
          · exact hrest h
      · rintro ⟨vs, us, heq, hd, hvs⟩
        rcases vs with _ | ⟨v, vs⟩
        · obtain ⟨rfl, rfl⟩ := List.cons.inj heq
          by_cases ha : assigned fl i = some r
          · rw [if_pos ha]
            exact List.mem_singleton.2 rfl
          · rw [if_neg ha, if_pos (hd.resolve_left ha)]
            exact List.mem_cons_self
        · obtain ⟨rfl, rfl⟩ := List.cons.inj heq
          have hrest := ih.2 ⟨vs, us, rfl, hd, fun v hv => hvs v (List.mem_cons_of_mem _ hv)⟩
          rw [if_neg (hvs i List.mem_cons_self)]
          split
          · exact List.mem_cons_of_mem _ hrest
          · exact hrest

theorem scan_hit {fl : Flat} {r : ℕ} {is : List ℕ} :
    (scan fl r is).2 = true ↔ ∃ i ∈ is, assigned fl i = some r := by
  induction is with
  | nil => simp [scan]
  | cons i is ih =>
      rw [scan_cons, List.exists_mem_cons_iff]
      split
      · rename_i ha
        simp [ha]
      · rename_i ha
        simp only [ha, false_or, ← ih]
        split <;> rfl

theorem scan_not_hit {fl : Flat} {r : ℕ} {is : List ℕ} :
    (scan fl r is).2 = false ↔ ∀ i ∈ is, assigned fl i ≠ some r := by
  rw [← Bool.not_eq_true, scan_hit]
  simp

/-- `mem_scan` for a list in ascending order. -/
theorem mem_scan_reverse {fl : Flat} {r d : ℕ} {is : List ℕ} :
    d ∈ (scan fl r is.reverse).1 ↔ ∃ us vs, is = us ++ d :: vs ∧ Defines fl r d ∧
      ∀ v ∈ vs, assigned fl v ≠ some r := by
  rw [mem_scan]
  constructor
  · rintro ⟨vs, us, heq, hd, hvs⟩
    refine ⟨us.reverse, vs.reverse, ?_, hd, fun v hv => hvs v (List.mem_reverse.1 hv)⟩
    rw [← List.reverse_reverse is, heq]
    simp
  · rintro ⟨us, vs, rfl, hd, hvs⟩
    exact ⟨vs.reverse, us.reverse, by simp, hd, fun v hv => hvs v (List.mem_reverse.1 hv)⟩

/-- The summary of a list of items. -/
def summary (fl : Flat) (is : List ℕ) : Sums := is.foldl (recordAt fl) fun _ => none

theorem summary_append (fl : Flat) (is : List ℕ) (i : ℕ) :
    summary fl (is ++ [i]) = recordAt fl (summary fl is) i := by
  rw [summary, List.foldl_append, List.foldl_cons, List.foldl_nil, ← summary]

theorem recordAt_apply (fl : Flat) (m : Sums) (i r : ℕ) :
    recordAt fl m i r = if assigned fl i = some r then some (some i, [])
      else if written fl i = some r then
        some (((m r).getD (none, [])).1, ((m r).getD (none, [])).2 ++ [i])
      else m r := by
  rw [recordAt, assigned, written]
  rcases hi : fl.items[i]? with _ | it
  · simp
  · obtain ⟨⟨a, w⟩, hd⟩ : ∃ x, defReg it = x := ⟨_, rfl⟩
    simp only [Option.bind_some, record, hd]
    rcases a with _ | d
    · rcases w with _ | w
      · simp
      · by_cases hr : w = r
        · simp [hr]
        · simp [hr, Ne.symm hr]
    · obtain rfl : w = none := by simpa [hd] using defReg_assigned it (d := d) (by rw [hd])
      by_cases hr : d = r
      · simp [hr]
      · simp [hr, Ne.symm hr]

/-- **A summary says what the search finds**: the property writes since the last assignment,
and this assignment. -/
theorem scan_summary (fl : Flat) (r : ℕ) (is : List ℕ) :
    scan fl r is.reverse
      = (((summary fl is r).getD (none, [])).2.reverse
          ++ ((summary fl is r).getD (none, [])).1.toList,
        ((summary fl is r).getD (none, [])).1.isSome) := by
  induction is using List.reverseRecOn with
  | nil => rfl
  | append_singleton is i ih =>
      rw [List.reverse_append, List.reverse_singleton, List.singleton_append, scan_cons, ih,
        summary_append, recordAt_apply]
      split
      · simp
      · split
        · simp
        · rfl

/-! ## The search through the blocks -/

/-- The definitions that a search for `r` finds before block `b`. -/
def Reached (fl : Flat) (b r d : ℕ) : Prop :=
  ∃ a ∈ fl.pred b, ∃ c, Leads (chaseNext fl r) a c ∧ d ∈ (scan fl r (fl.range c).reverse).1

/-- The state of the stamps between two searches: no block bears one that is yet to come. -/
def Ok (seen : Seen) : Prop := (∀ b, seen.1 b ≤ seen.2) ∧ seen.2 < 2 ^ 32

theorem nextStamp_ok {seen : Seen} (h : Ok seen) :
    Ok (nextStamp seen) ∧ ∀ b, (nextStamp seen).1 b ≠ (nextStamp seen).2 := by
  obtain ⟨hle, hlt⟩ := h
  rw [nextStamp]
  split
  · exact ⟨⟨fun b => Nat.zero_le 1, by simp⟩, fun b => by simp⟩
  · rename_i hne
    have hstamp : (seen.2 + 1) % 2 ^ 32 = seen.2 + 1 := by omega
    rw [hstamp]
    refine ⟨⟨fun b => ?_, by omega⟩, fun b => ?_⟩
    · have := hle b
      dsimp only
      omega
    · have := hle b
      dsimp only
      omega

theorem chaseNext_subset {fl : Flat} {r a b : ℕ} (h : b ∈ chaseNext fl r a) : b ∈ fl.pred a := by
  rw [chaseNext] at h
  split at h
  · cases h
  · exact h

/-- **A search ends**, and it visits the blocks to which the predecessors of its block lead. -/
theorem search_spec {fl : Flat} (hfl : Laid fl) {σ : Type} (collect : σ → ℕ → σ) (acc : σ)
    (b r : ℕ) {seen : Seen} (hseen : Ok seen) :
    ∃ (stamps : ℕ → ℕ) (visited : List ℕ), sweep (chaseNext fl r) collect (nextStamp seen).2 (fuel fl b)
        (fl.pred b).reverse (nextStamp seen).1 acc = some (stamps, visited.foldl collect acc) ∧
      (∀ c, c ∈ visited ↔ ∃ a ∈ fl.pred b, Leads (chaseNext fl r) a c) ∧
      Ok (stamps, (nextStamp seen).2) := by
  obtain ⟨hok, hfresh⟩ := nextStamp_ok hseen
  have hsum : ahead (chaseNext fl r) (nextStamp seen).2 fl.preds.length (nextStamp seen).1
      ≤ (fl.preds.map List.length).sum := by
    refine le_trans (ahead_le _ _ _ _) ?_
    rw [← sum_range_length]
    refine Finset.sum_le_sum fun a _ => ?_
    rw [chaseNext]
    split
    · exact Nat.zero_le _
    · exact le_refl _
  obtain ⟨stamps, visited, hrun, -, hvisited, hmarks⟩ := sweep_fresh (chaseNext fl r) collect
    (nextStamp seen).2 (n := fl.preds.length)
    (fun a c hc => hfl.rows ▸ hfl.preds a c (chaseNext_subset hc)) (fuel fl b)
    (fl.pred b).reverse (nextStamp seen).1 acc
    (fun a ha => hfl.rows ▸ hfl.preds b a (List.mem_reverse.1 ha))
    (by rw [List.length_reverse, fuel]; omega) hfresh
  refine ⟨stamps, visited, hrun, fun c => ?_, fun a => ?_, hok.2⟩
  · rw [hvisited]
    simp only [List.mem_reverse]
  · change stamps a ≤ (nextStamp seen).2
    rw [hmarks]
    split
    · exact le_refl _
    · exact hok.1 a

theorem foldl_append_fst {ρ : Type} (collect : List ℕ × ρ → ℕ → List ℕ × ρ) (g : ℕ → List ℕ)
    (h : ∀ acc b, (collect acc b).1 = acc.1 ++ g b) (visited : List ℕ) (acc : List ℕ × ρ) :
    (visited.foldl collect acc).1 = acc.1 ++ visited.flatMap g := by
  induction visited generalizing acc with
  | nil => simp
  | cons b visited ih => rw [List.foldl_cons, ih, h, List.flatMap_cons, List.append_assoc]

theorem foldl_chaseCollect (fl : Flat) (r : ℕ) (visited out : List ℕ) :
    visited.foldl (chaseCollect fl r) out
      = out ++ visited.flatMap fun c => (scan fl r (fl.range c).reverse).1 := by
  induction visited generalizing out with
  | nil => simp
  | cons b visited ih =>
      rw [List.foldl_cons, ih, chaseCollect, List.flatMap_cons, List.append_assoc]

/-- What is collected of the visited blocks. -/
theorem mem_visited {fl : Flat} {b r d : ℕ} {visited : List ℕ} {g : ℕ → List ℕ}
    (hvisited : ∀ c, c ∈ visited ↔ ∃ a ∈ fl.pred b, Leads (chaseNext fl r) a c)
    (hg : ∀ c, d ∈ g c ↔ d ∈ (scan fl r (fl.range c).reverse).1) :
    d ∈ visited.flatMap g ↔ Reached fl b r d := by
  rw [List.mem_flatMap]
  constructor
  · rintro ⟨c, hc, hd⟩
    obtain ⟨a, ha, hlead⟩ := (hvisited c).1 hc
    exact ⟨a, ha, c, hlead, (hg c).1 hd⟩
  · rintro ⟨a, ha, c, hlead, hd⟩
    exact ⟨c, (hvisited c).2 ⟨a, ha, hlead⟩, (hg c).2 hd⟩

/-! ## `entry_reach` -/

theorem summaries_apply (fl : Flat) (b r : ℕ) :
    ((summaries fl)[b]?).bind (· r) = summary fl (fl.range b) r := by
  rw [summaries, List.getElem?_map, Flat.range, List.getD_eq_getElem?_getD]
  rcases fl.ranges[b]? with _ | range
  · rfl
  · rfl

theorem entryNext_summaries (fl : Flat) (r : ℕ) :
    entryNext fl (summaries fl) r = chaseNext fl r := by
  funext pb
  rw [entryNext, chaseNext, summaries_apply, scan_summary]
  rcases summary fl (fl.range pb) r with _ | ⟨_ | _, _⟩ <;> rfl

theorem entryCollect_summaries (fl : Flat) (r : ℕ) (acc : List ℕ × Bool) (pb : ℕ) :
    (entryCollect fl (summaries fl) r acc pb).1
      = acc.1 ++ (((summary fl (fl.range pb) r).getD (none, [])).1.toList
        ++ ((summary fl (fl.range pb) r).getD (none, [])).2) := by
  rw [entryCollect, summaries_apply]
  rcases summary fl (fl.range pb) r with _ | ⟨_ | _, _⟩ <;> rfl

/-- A memo that holds what a search finds. -/
def MemoOk (fl : Flat) (memo : Memo) : Prop :=
  ∀ b r v, memo b r = some v → ∀ d, d ∈ v.1 ↔ Reached fl b r d

@[simp] theorem mem_sortDedup {xs : List ℕ} {x : ℕ} : x ∈ sortDedup xs ↔ x ∈ xs := by
  rw [sortDedup, List.mem_dedup, List.mem_mergeSort]

theorem entryReach_spec {fl : Flat} (hfl : Laid fl) (b r : ℕ) {memo : Memo} {seen : Seen}
    (hmemo : MemoOk fl memo) (hseen : Ok seen) :
    ∃ v memo' seen', entryReach fl (summaries fl) memo seen b r = some (v, memo', seen') ∧
      MemoOk fl memo' ∧ Ok seen' ∧ ∀ d, d ∈ v.1 ↔ Reached fl b r d := by
  rw [entryReach]
  rcases hb : memo b r with _ | v
  · obtain ⟨stamps, visited, hrun, hvisited, hok⟩ := search_spec hfl
      (entryCollect fl (summaries fl) r) ([], (fl.pred b).isEmpty) b r hseen
    simp only [entryNext_summaries, hrun, Option.bind_eq_bind, Option.bind_some]
    have hv (d : ℕ) : d ∈ (visited.foldl (entryCollect fl (summaries fl) r)
        ([], (fl.pred b).isEmpty)).1 ↔ Reached fl b r d := by
      rw [foldl_append_fst _ _ (entryCollect_summaries fl r), List.nil_append]
      refine mem_visited hvisited fun c => ?_
      rw [scan_summary, List.mem_append, List.mem_append, List.mem_reverse, or_comm]
    refine ⟨_, _, _, rfl, fun b' r' v hv' => ?_, hok, fun d => ?_⟩
    · dsimp only at hv'
      split at hv'
      · rename_i heq
        obtain ⟨rfl, rfl⟩ := heq
        cases hv'
        intro d
        rw [mem_sortDedup]
        exact hv d
      · exact hmemo b' r' v hv'
    · rw [mem_sortDedup]
      exact hv d
  · exact ⟨v, memo, seen, rfl, hmemo, hseen, hmemo b r v hb⟩

/-! ## `chase` -/

/-- The items of the block of item `i` that stand before it. -/
def before (fl : Flat) (b i : ℕ) : List ℕ :=
  List.range' (fl.ranges.getD b (0, 0)).1 (i - (fl.ranges.getD b (0, 0)).1)

/-- The definitions of `r` that are found for item `i` of block `b`. -/
def Found (fl : Flat) (b i r d : ℕ) : Prop :=
  d ∈ (scan fl r (before fl b i).reverse).1 ∨
    (scan fl r (before fl b i).reverse).2 = false ∧ Reached fl b r d

theorem chase_spec {fl : Flat} (hfl : Laid fl) {b i : ℕ} (r : ℕ) {seen : Seen}
    (hi : fl.blockOf[i]? = some b) (hseen : Ok seen) :
    ∃ out seen', chase fl i r seen = some (out, seen') ∧ Ok seen' ∧
      ∀ d, d ∈ out ↔ Found fl b i r d := by
  rw [chase]
  simp only [hi, Option.bind_eq_bind, Option.bind_some]
  rw [← before]
  rcases hscan : scan fl r (before fl b i).reverse with ⟨out, hit⟩
  rcases hit with _ | _
  · obtain ⟨stamps, visited, hrun, hvisited, hok⟩ := search_spec hfl (chaseCollect fl r) out b r
      hseen
    simp only [hrun, Option.bind_some, Bool.false_eq_true, if_false]
    refine ⟨_, _, rfl, hok, fun d => ?_⟩
    rw [foldl_chaseCollect, List.mem_append, mem_visited hvisited fun c => Iff.rfl, Found, hscan]
    simp
  · refine ⟨out, seen, rfl, hseen, fun d => ?_⟩
    rw [Found, hscan]
    simp

/-! ## `analyze` -/

theorem defsOf_spec {fl : Flat} (hfl : Laid fl) {b i : ℕ} (r : ℕ) {p : Pass}
    (hlocal : p.local_ = summary fl (before fl b i)) (hmemo : MemoOk fl p.memo)
    (hseen : Ok p.seen) :
    ∃ v memo seen, defsOf fl (summaries fl) b r p = some (v, { p with memo, seen }) ∧
      MemoOk fl memo ∧ Ok seen ∧ ∀ d, d ∈ v.1 ↔ Found fl b i r d := by
  obtain ⟨v, memo, seen, hrun, hmemo', hseen', hv⟩ := entryReach_spec hfl b r hmemo hseen
  have hscan := scan_summary fl r (before fl b i)
  rw [← hlocal] at hscan
  rw [defsOf, hrun]
  rcases hr : p.local_ r with _ | ⟨_ | d, wr⟩
  · refine ⟨_, memo, seen, rfl, hmemo', hseen', fun d => ?_⟩
    rw [Found, hscan, hr]
    simpa using hv d
  · refine ⟨_, memo, seen, rfl, hmemo', hseen', fun d => ?_⟩
    rw [Found, hscan, hr]
    simp [hv d]
  · refine ⟨_, p.memo, p.seen, rfl, hmemo, hseen, fun d => ?_⟩
    rw [Found, hscan, hr]
    simp [or_comm]

theorem defsOfAll_spec {fl : Flat} (hfl : Laid fl) {b i : ℕ} (rs : List ℕ) {p : Pass}
    (hlocal : p.local_ = summary fl (before fl b i)) (hmemo : MemoOk fl p.memo)
    (hseen : Ok p.seen) :
    ∃ v memo seen, defsOfAll fl (summaries fl) b rs p = some (v, { p with memo, seen }) ∧
      MemoOk fl memo ∧ Ok seen ∧ ∀ d, d ∈ v.1 ↔ ∃ r ∈ rs, Found fl b i r d := by
  induction rs generalizing p with
  | nil => exact ⟨_, p.memo, p.seen, rfl, hmemo, hseen, by simp⟩
  | cons r rs ih =>
      obtain ⟨v, memo, seen, hrun, hmemo', hseen', hv⟩ := defsOf_spec hfl r hlocal hmemo hseen
      obtain ⟨vs, memo'', seen'', hruns, hmemo'', hseen'', hvs⟩ :=
        ih (p := { p with memo, seen }) hlocal hmemo' hseen'
      refine ⟨(v.1 ++ vs.1, v.2 || vs.2), memo'', seen'', ?_, hmemo'', hseen'', fun d => ?_⟩
      · rw [defsOfAll, hrun]
        simp only [Option.bind_eq_bind, Option.bind_some, hruns]
        rfl
      · rw [List.mem_append, hv, hvs, List.exists_mem_cons_iff]

/-- What the pass has done before item `i`. -/
structure PassOk (fl : Flat) (i : ℕ) (p : Pass) : Prop where
  memo : MemoOk fl p.memo
  seen : Ok p.seen
  cur : ∀ b, p.cur = some b ↔ 0 < i ∧ fl.blockOf[i - 1]? = some b
  local_ : ∀ b, p.cur = some b → p.local_ = summary fl (before fl b i)
  regDefs : p.regDefs.length = i
  direct : p.direct.length = i
  found : ∀ j < i, ∀ it b, fl.items[j]? = some it → fl.blockOf[j]? = some b →
    ∀ d, d ∈ p.regDefs.getD j [] ↔ ∃ r ∈ regs it, Found fl b j r d

theorem before_succ {fl : Flat} (hfl : Laid fl) {b i : ℕ} (hi : fl.blockOf[i]? = some b) :
    before fl b (i + 1) = before fl b i ++ [i] := by
  have hle := ((mem_places _ _).1 ((hfl.block i b).1 hi)).1
  rw [before, before, show i + 1 - (fl.ranges.getD b (0, 0)).1
    = i - (fl.ranges.getD b (0, 0)).1 + 1 by omega, List.range'_concat]
  congr 2
  omega

/-- An item whose forerunner is of another block is the first of its own. -/
theorem before_eq_nil {fl : Flat} (hfl : Laid fl) {b i : ℕ} (hi : fl.blockOf[i]? = some b)
    (hfirst : ¬ (0 < i ∧ fl.blockOf[i - 1]? = some b)) : before fl b i = [] := by
  have hmem := (mem_places _ _).1 ((hfl.block i b).1 hi)
  rw [before, show i - (fl.ranges.getD b (0, 0)).1 = 0 by
    by_contra hne
    refine hfirst ⟨by omega, (hfl.block (i - 1) b).2 ((mem_places _ _).2 ⟨by omega, by omega⟩)⟩]
  rfl

theorem passItem_spec {fl : Flat} (hfl : Laid fl) (consts : ℕ → Bool) {i : ℕ}
    (hi : i < fl.items.length) {p : Pass} (hp : PassOk fl i p) :
    ∃ p', passItem fl (summaries fl) consts p i = some p' ∧ PassOk fl (i + 1) p' := by
  have hit : fl.items[i]? = some fl.items[i] := List.getElem?_eq_getElem hi
  obtain ⟨b, hb⟩ : ∃ b, fl.blockOf[i]? = some b :=
    ⟨_, List.getElem?_eq_getElem (by rw [hfl.owners]; exact hi)⟩
  set q : Pass := if p.cur ≠ some b then { p with cur := some b, local_ := fun _ => none } else p
    with hq
  have hcur : q.cur = some b ∧ q.local_ = summary fl (before fl b i) ∧ q.memo = p.memo ∧
      q.seen = p.seen ∧ q.regDefs = p.regDefs ∧ q.direct = p.direct := by
    rw [hq]
    by_cases hc : p.cur = some b
    · rw [if_neg (by simp [hc])]
      exact ⟨hc, hp.local_ b hc, rfl, rfl, rfl, rfl⟩
    · rw [if_pos hc]
      refine ⟨rfl, ?_, rfl, rfl, rfl, rfl⟩
      rw [before_eq_nil hfl hb fun h => hc ((hp.cur b).2 h)]
      rfl
  obtain ⟨hcur, hlocal, hmemo, hseen, hregDefs, hdirect⟩ := hcur
  obtain ⟨v, memo, seen, hrun, hmemo', hseen', hv⟩ := defsOfAll_spec hfl (b := b) (i := i)
    (regs fl.items[i]) (p := q) hlocal (hmemo ▸ hp.memo) (hseen ▸ hp.seen)
  rw [passItem]
  simp only [hit, hb, Option.bind_eq_bind, Option.bind_some]
  rw [← hq, hrun]
  refine ⟨_, rfl, hmemo', hseen', fun b' => ?_, fun b' hb' => ?_, ?_, ?_, ?_⟩
  · simp [hcur, hb]
  · obtain rfl : b = b' := Option.some_inj.1 (hcur.symm.trans hb')
    rw [before_succ hfl hb, summary_append, recordAt, hit, ← hlocal]
  · simp [hregDefs, hp.regDefs]
  · simp [hdirect, hp.direct]
  · intro j hj it b' hj' hb' d
    simp only [hregDefs]
    rcases Nat.lt_succ_iff_lt_or_eq.1 hj with hlt | rfl
    · rw [List.getD_append _ _ _ _ (by rw [hp.regDefs]; exact hlt)]
      exact hp.found j hlt it b' hj' hb' d
    · obtain rfl : it = fl.items[j] := Option.some_inj.1 (hj'.symm.trans hit)
      obtain rfl : b = b' := Option.some_inj.1 (hb.symm.trans hb')
      rw [List.getD_append_right _ _ _ _ (by rw [hp.regDefs]), hp.regDefs, Nat.sub_self]
      exact hv d

/-- **The pass over the items** ends, and it has found the definitions that each one reads. -/
theorem pass_spec {fl : Flat} (hfl : Laid fl) (consts : ℕ → Bool) {p : Pass}
    (hp : PassOk fl 0 p) {n : ℕ} (hn : n ≤ fl.items.length) :
    ∃ p', (List.range n).foldlM (passItem fl (summaries fl) consts) p = some p' ∧
      PassOk fl n p' := by
  induction n with
  | zero => exact ⟨p, rfl, hp⟩
  | succ n ih =>
      obtain ⟨p', hrun, hp'⟩ := ih (by omega)
      obtain ⟨p'', hstep, hp''⟩ := passItem_spec hfl consts (by omega) hp'
      refine ⟨p'', ?_, hp''⟩
      rw [List.range_succ, List.foldlM_append, hrun]
      simpa using hstep

/-! ## The rounds over the items -/

/-- A step leaves all items as they are or makes one real. -/
theorem spreadStep_spec (regDefs : List (List ℕ)) {st : List Bool × Bool} {i : ℕ}
    (hi : i < st.1.length) :
    spreadStep regDefs st i = st ∨ (spreadStep regDefs st i).1.length = st.1.length ∧
      (spreadStep regDefs st i).1.count false < st.1.count false := by
  rw [spreadStep]
  split
  · rename_i hcond
    rw [Bool.and_eq_true, Bool.not_eq_true', List.getD_eq_getElem _ _ hi] at hcond
    have hpos := List.count_pos_iff.2 (hcond.1 ▸ List.getElem_mem hi)
    refine .inr ⟨List.length_set, ?_⟩
    rw [List.count_set hi, hcond.1]
    simp only [beq_self_eq_true, if_true, Bool.true_beq, Bool.false_eq_true, if_false]
    omega
  · exact .inl rfl

/-- A round leaves all items as they are or makes some real. -/
theorem spreadOnce_spec (regDefs : List (List ℕ)) {n : ℕ} {real : List Bool}
    (hn : real.length = n) :
    (spreadOnce regDefs n real).1.length = n ∧
      ((spreadOnce regDefs n real).2 = false ∨
        (spreadOnce regDefs n real).1.count false < real.count false) := by
  have hfold (m : ℕ) (hm : m ≤ n) :
      (List.range m).foldl (spreadStep regDefs) (real, false) = (real, false) ∨
        ((List.range m).foldl (spreadStep regDefs) (real, false)).1.length = n ∧
        ((List.range m).foldl (spreadStep regDefs) (real, false)).1.count false
          < real.count false := by
    induction m with
    | zero => exact .inl rfl
    | succ m ih =>
        rw [List.range_succ, List.foldl_append, List.foldl_cons, List.foldl_nil]
        rcases ih (by omega) with heq | ⟨hlen, hlt⟩
        · rw [heq]
          exact (spreadStep_spec regDefs (by dsimp only; omega)).imp id fun h => ⟨h.1.trans hn, h.2⟩
        · rcases spreadStep_spec regDefs (lt_of_lt_of_eq hm hlen.symm) with h | h
          · rw [h]
            exact .inr ⟨hlen, hlt⟩
          · exact .inr ⟨h.1.trans hlen, lt_trans h.2 hlt⟩
  rw [spreadOnce]
  rcases hfold n (le_refl n) with h | ⟨hlen, hlt⟩
  · rw [h]
    exact ⟨hn, .inl rfl⟩
  · exact ⟨hlen, .inr hlt⟩

theorem spread_some (regDefs : List (List ℕ)) {n : ℕ} (fuel : ℕ) {real : List Bool}
    (hn : real.length = n) (hfuel : real.count false < fuel) :
    ∃ real', spread regDefs n fuel real = some real' := by
  induction fuel generalizing real with
  | zero => omega
  | succ fuel ih =>
      obtain ⟨hlen, hchanged⟩ := spreadOnce_spec regDefs hn
      rw [spread]
      rcases hrun : spreadOnce regDefs n real with ⟨real', changed⟩
      rw [hrun] at hlen hchanged
      dsimp only at hlen hchanged ⊢
      split
      · rename_i hc
        have := hchanged.resolve_left (by simp [hc])
        exact ih hlen (by omega)
      · exact ⟨real', rfl⟩

/-- **`analyze` ends**, and gives each item the definitions that a search finds for the
registers it reads. -/
theorem analyze_spec {fl : Flat} (hfl : Laid fl) (closures : Bool) {seen : Seen}
    (hseen : Ok seen) :
    ∃ a seen', analyze fl closures seen = some (a, seen') ∧ Ok seen' ∧
      a.regDefs.length = fl.items.length ∧
      ∀ i it b, fl.items[i]? = some it → fl.blockOf[i]? = some b →
        ∀ d, d ∈ a.regDefs.getD i [] ↔ ∃ r ∈ regs it, Found fl b i r d := by
  have hstart : PassOk fl 0 (.start seen) := by
    refine ⟨fun b r v hv => ?_, hseen, by simp [Pass.start], fun b hb => ?_, rfl, rfl, by simp⟩
    · cases hv
    · cases hb
  obtain ⟨p, hrun, hp⟩ := pass_spec hfl (fun k => !closures && constVar fl k) hstart
    (le_refl fl.items.length)
  have hcount := List.count_le_length (a := false) (l := p.direct)
  obtain ⟨real, hreal⟩ := spread_some p.regDefs (fl.items.length + 1) hp.direct
    (by rw [hp.direct] at hcount; omega)
  rw [analyze]
  simp only [hrun, hreal, Option.bind_eq_bind, Option.bind_some]
  refine ⟨_, _, rfl, hp.seen, hp.regDefs, fun i it b hi hb => ?_⟩
  exact hp.found i (List.getElem?_eq_some_iff.1 hi).1 it b hi hb

end Probe
end Lunar
