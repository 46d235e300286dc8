/-
# The solver terminates

A value can rise only nine times, whatever paths are made on the way: a taint
goes from nothing over a path and a derived path to `lost`, and a tag from nothing
over one name to `conflict` (`Val.rank`).  So a run of a function visits its
blocks finitely often (`Blocks.todo`), and the locations of the program change
finitely often while functions are queued (`Solver.todo`).
-/

import Mathlib.Algebra.BigOperators.Group.Finset.Basic
import Mathlib.Algebra.BigOperators.Ring.Finset
import Mathlib.Algebra.Order.BigOperators.Group.Finset
import Lunar.Worktime.Fc.Known
import Lunar.Worktime.Fc.PostFixpoint

namespace Lunar
namespace Fc

open Lib (Prog Contract)

/-! ## Ranks -/

def Taint.rank : Taint → ℕ
  | .clean => 0
  | .path _ false => 1
  | .path _ true => 2
  | .lost => 3

def Tag.rank {α : Type} : Tag α → ℕ
  | .bottom => 0
  | .of _ => 1
  | .conflict => 2

def Val.rank (v : Val) : ℕ := v.t.rank + v.c.rank + v.a.rank + v.h.rank

theorem Taint.rank_le (t : Taint) : t.rank ≤ 3 := by
  rcases t with _ | ⟨_, _ | _⟩ | _ <;> simp [rank]

theorem Tag.rank_le {α : Type} (c : Tag α) : c.rank ≤ 2 := by
  cases c <;> simp [rank]

theorem Val.rank_le (v : Val) : v.rank ≤ 9 := by
  have ht := v.t.rank_le
  have hc := v.c.rank_le
  have ha := v.a.rank_le
  have hh := v.h.rank_le
  rw [rank]
  omega

theorem Taint.rank_sup (t u : Taint) : t ⊔ u = t ∨ t.rank < (t ⊔ u).rank := by
  rw [sup_def]
  rcases t with _ | ⟨i, _ | _⟩ | _ <;> rcases u with _ | ⟨j, _ | _⟩ | _ <;>
    simp only [join, rank] <;> (try split_ifs) <;> simp

theorem Tag.rank_sup {α : Type} [DecidableEq α] (c d : Tag α) :
    c ⊔ d = c ∨ c.rank < (c ⊔ d).rank := by
  change c.join d = c ∨ c.rank < (c.join d).rank
  cases c <;> cases d <;> simp only [join, rank] <;> (try split_ifs) <;> simp

/-- **A value that changes rises.** -/
theorem Val.rank_sup (v w : Val) : v ⊔ w = v ∨ v.rank < (v ⊔ w).rank := by
  rw [sup_def]
  rcases Taint.rank_sup v.t w.t with ht | ht <;> rcases Tag.rank_sup v.c w.c with hc | hc <;>
    rcases Tag.rank_sup v.a w.a with ha | ha <;> rcases Tag.rank_sup v.h w.h with hh | hh
  · exact .inl (by rw [ht, hc, ha, hh])
  all_goals
    refine .inr ?_
    simp only [rank, ht, hc, ha, hh]
    omega

theorem Val.rank_mono (v w : Val) : v.rank ≤ (v ⊔ w).rank := by
  rcases v.rank_sup w with h | h
  · rw [h]
  · exact Nat.le_of_lt h

/-! ## The blocks of a function -/

variable {p : Program} {R : Rules p} {g g' : p.Stage} {n : ℕ}

def Regs.rank (regs : Regs n) : ℕ := ∑ r, (regs r).rank

theorem Regs.rank_le (regs : Regs n) : regs.rank ≤ 9 * n := by
  have h : ∑ r, (regs r).rank ≤ Finset.card (Finset.univ : Finset (Fin n)) • 9 :=
    Finset.sum_le_card_nsmul _ _ 9 fun r _ => (regs r).rank_le
  rw [Finset.card_univ, Fintype.card_fin, nsmul_eq_mul, Nat.cast_id, Nat.mul_comm] at h
  exact h

theorem Regs.rank_sup {regs regs' : Regs n} (h : regs ⊔ regs' ≠ regs) :
    regs.rank < (regs ⊔ regs').rank := by
  obtain ⟨r, hr⟩ := Function.ne_iff.1 h
  refine Finset.sum_lt_sum (fun k _ => Val.rank_mono _ _) ⟨r, Finset.mem_univ r, ?_⟩
  exact (Val.rank_sup _ _).resolve_left hr

namespace Blocks

/-- How far block `b` has come. -/
def height (st : Blocks n) (b : ℕ) : ℕ := if st.reached b then 1 + (st.states b).rank else 0

/-- How often block `b` may still rise, and whether it is to be visited. -/
def left (st : Blocks n) (b : ℕ) : ℕ := (9 * n + 1 - st.height b) + (st.dirty b).toNat

/-- What a run has still to do. -/
def todo (count : ℕ) (st : Blocks n) : ℕ := ∑ b ∈ Finset.range count, st.left b

theorem height_le (st : Blocks n) (b : ℕ) : st.height b ≤ 9 * n + 1 := by
  have h := (st.states b).rank_le
  rw [height]
  split <;> omega

theorem left_le (st : Blocks n) (b : ℕ) : st.left b ≤ 9 * n + 2 := by
  have h := Bool.toNat_le (st.dirty b)
  rw [left]
  omega

theorem todo_le (count : ℕ) (st : Blocks n) : st.todo count ≤ count * (9 * n + 2) := by
  have h : st.todo count ≤ (Finset.range count).card • (9 * n + 2) :=
    Finset.sum_le_card_nsmul _ _ _ fun b _ => st.left_le b
  rwa [Finset.card_range, nsmul_eq_mul, Nat.cast_id] at h

/-- A block that has risen may be visited again. -/
theorem left_raise {st st' : Blocks n} {b : ℕ} (h : st.height b < st'.height b) :
    st'.left b ≤ st.left b := by
  have h₁ := Bool.toNat_le (st'.dirty b)
  have h₂ := st'.height_le b
  rw [left, left]
  omega

/-- **Flowing into a block** leaves no more to do. -/
theorem left_flow (st : Blocks n) (regs : Regs n) (s : Option ℕ) (b : ℕ) :
    (st.flow regs s).left b ≤ st.left b := by
  cases s with
  | none => exact Nat.le_refl _
  | some s =>
      rw [flow]
      dsimp only
      split
      · next hr =>
          split
          · exact Nat.le_refl _
          · next hne =>
              by_cases hb : b = s
              · subst hb
                refine left_raise ?_
                simp only [height, Function.update_self, if_pos hr]
                exact Nat.add_lt_add_left (Regs.rank_sup hne) 1
              · simp only [left, height, Function.update_of_ne hb, Nat.le_refl]
      · next hr =>
          by_cases hb : b = s
          · subst hb
            refine left_raise ?_
            simp only [height, Function.update_self, if_neg hr, if_true]
            omega
          · simp only [left, height, Function.update_of_ne hb, Nat.le_refl]

/-- A visit takes the block off the list. -/
def clear (st : Blocks n) (b : ℕ) : Blocks n :=
  { st with dirty := Function.update st.dirty b false }

theorem height_clear (st : Blocks n) (b k : ℕ) : (st.clear b).height k = st.height k := rfl

theorem dirty_clear (st : Blocks n) (b : ℕ) :
    (st.clear b).dirty = Function.update st.dirty b false := rfl

theorem todo_clear {st : Blocks n} {b count : ℕ} (hb : b < count) (hd : st.dirty b = true) :
    (st.clear b).todo count < st.todo count := by
  refine Finset.sum_lt_sum (fun k _ => ?_) ⟨b, Finset.mem_range.2 hb, ?_⟩
  · rw [left, left, height_clear, dirty_clear]
    by_cases hk : k = b
    · rw [hk, Function.update_self]
      exact Nat.le_add_right _ _
    · rw [Function.update_of_ne hk]
  · rw [left, left, height_clear, dirty_clear, Function.update_self, hd]
    exact Nat.lt_succ_self _

theorem todo_flow (st : Blocks n) (regs : Regs n) (s : Option ℕ) (count : ℕ) :
    (st.flow regs s).todo count ≤ st.todo count :=
  Finset.sum_le_sum fun b _ => st.left_flow regs s b

def Known (g : p.Stage) (st : Blocks n) : Prop := ∀ b, (st.states b).Known g

theorem Known.mono {st : Blocks n} (h : st.Known g) (hg : g ≤ g') : st.Known g' :=
  fun b => (h b).mono hg

theorem Known.flow {st : Blocks n} {regs : Regs n} (h : st.Known g) (hr : regs.Known g)
    (s : Option ℕ) : (st.flow regs s).Known g := by
  have hupdate : ∀ {k : ℕ} {regs' : Regs n}, regs'.Known g → ∀ b,
      (Function.update st.states k regs' b).Known g := by
    intro k regs' hr' b
    by_cases hb : b = k
    · rw [hb, Function.update_self]
      exact hr'
    · rw [Function.update_of_ne hb]
      exact h b
  cases s with
  | none => exact h
  | some s =>
      rw [Blocks.flow]
      dsimp only
      split
      · split
        · exact h
        · exact hupdate fun r => (h s r).sup (hr r)
      · exact hupdate hr

end Blocks

/-! ## Runs of a function -/

/-- A function of the program. -/
structure Program.HasFunc (p : Program) (f : ℕ) (func : Func) : Prop where
  wf : p.Wf
  mem : p.funcs[f]? = some func

theorem Program.HasFunc.lt {f : ℕ} {func : Func} (h : p.HasFunc f func) : f < p.funcs.length :=
  (List.getElem?_eq_some_iff.1 h.mem).1

theorem gives_block {f : ℕ} {func : Func} {b : ℕ} {regs : Regs n} (hf : p.HasFunc f func)
    (hb : b < func.count) (hr : regs.Known g) : Gives R (block p f func b regs) g Regs.Known := by
  have hp := hf.wf
  have hlen := hp.funcs (List.mem_of_getElem? hf.mem)
  refine Prog.Ensures.bind (gives_index (by omega)) fun g₁ k hg₁ hk => ?_
  have hk' := hp.fblocks (List.mem_of_getElem? hk)
  refine Prog.Ensures.bind (gives_index hk') fun g₂ blk hg₂ hblk => ?_
  have hstop := hp.blocks (List.mem_of_getElem? hblk)
  refine Prog.ensures_foldlM (hr.mono (le_trans hg₁ hg₂)) fun g₃ regs i hi _ hregs => ?_
  refine gives_transfer hp hf.lt ?_ hregs
  have hi' := List.mem_range'_1.1 hi
  omega

/-- What a sweep keeps: there is no more to do than before, and less once a
block has been visited. -/
def Swept (count before : ℕ) (g : p.Stage) (r : Blocks n × Bool) : Prop :=
  r.1.Known g ∧ r.1.todo count ≤ before ∧ (r.2 = true → r.1.todo count < before)

theorem gives_visit {f : ℕ} {func : Func} {before b : ℕ} {r : Blocks n × Bool}
    (hf : p.HasFunc f func) (hb : b < func.count) (hr : Swept func.count before g r) :
    Gives R (visit p f func r b) g (Swept func.count before) := by
  have hk := hr.1
  have hle := hr.2.1
  rw [visit]
  split
  · next hd =>
      refine Prog.Ensures.bind (gives_block hf hb (hk b)) fun g₁ regs hg₁ hregs => ?_
      have hlen := hf.wf.funcs (List.mem_of_getElem? hf.mem)
      have hsucc : func.first + b < p.fsucc.length := by
        rw [hf.wf.fsucc]
        omega
      refine Prog.Ensures.bind (gives_index hsucc) fun g₂ succ hg₂ _ => ?_
      have hlt := Blocks.todo_clear hb hd
      have h₁ := (r.1.clear b).todo_flow regs succ.1 func.count
      have h₂ := ((r.1.clear b).flow regs succ.1).todo_flow regs succ.2 func.count
      have hless :
          (((r.1.clear b).flow regs succ.1).flow regs succ.2).todo func.count < before := by
        omega
      have hk' : (r.1.clear b).Known g₂ := hk.mono (le_trans hg₁ hg₂)
      have hregs' := hregs.mono hg₂
      exact Prog.ensures_pure
        ⟨(hk'.flow hregs' _).flow hregs' _, Nat.le_of_lt hless, fun _ => hless⟩
  · exact Prog.ensures_pure hr

/-- **The sweeps come to an end.** -/
theorem gives_sweeps {f : ℕ} {func : Func} (hf : p.HasFunc f func) {fuel : ℕ} {st : Blocks n}
    (hk : st.Known g) (hfuel : st.todo func.count < fuel) :
    Gives R (sweeps p f func fuel st) g Done := by
  induction fuel generalizing g st with
  | zero => exact absurd hfuel (Nat.not_lt_zero _)
  | succ fuel ih =>
      have hsweep : Gives R ((List.range func.count).foldlM (visit p f func) (st, false)) g
          (Swept func.count (st.todo func.count)) := by
        refine Prog.ensures_foldlM ⟨hk, Nat.le_refl _, nofun⟩ fun g₁ r b hb _ hr => ?_
        exact gives_visit hf (List.mem_range.1 hb) hr
      refine Prog.Ensures.bind hsweep fun g₁ r _ hr => ?_
      obtain ⟨hk', -, hlt⟩ := hr
      dsimp only
      split
      · next hprogress =>
          have hless := hlt hprogress
          exact ih hk' (by omega)
      · exact Prog.ensures_pure trivial

theorem gives_entry (f : ℕ) (func : Func) (hf : f < p.funcs.length) :
    Gives R (entry p f func) g Regs.Known := by
  refine Prog.Ensures.bind (gives_rd _) fun g₁ rest _ hrest => ?_
  refine Prog.Ensures.bind (Prog.ensures_mapM (R := Val.Known) (fun hg hv => Val.Known.mono hv hg)
    fun g₁ i _ _ => gives_rd _) fun g₂ params hg₂ hparams => Prog.ensures_pure fun r => ?_
  have hparam : (params.getD (r.val - 4) BOTTOM).Known g₂ := by
    rw [List.getD_eq_getElem?_getD]
    cases hget : params[r.val - 4]? with
    | none => exact known_bottom
    | some v => exact hparams v (List.mem_of_getElem? hget)
  dsimp only
  split
  · exact known_plain
  · split
    · exact known_plain.withArray (args_site hf)
    · split
      · exact hparam.sup (hrest.mono hg₂)
      · exact hparam

/-- The fuel that a run of a function needs at most. -/
def Func.fuel (func : Func) : ℕ := func.count * (9 * func.nregs + 2) + 1

/-- **A run of a function ends.** -/
theorem gives_run {f : ℕ} {func : Func} (hf : p.HasFunc f func) :
    Gives R (run p f func func.fuel) g Done := by
  refine Prog.Ensures.bind (gives_entry f func hf.lt) fun g₁ regs _ hregs => ?_
  refine gives_sweeps hf (fun b => ?_) (Nat.lt_succ_of_le (Blocks.todo_le _ _))
  dsimp only
  by_cases hb : b = func.entry
  · rw [hb, Function.update_self]
    exact hregs
  · rw [Function.update_of_ne hb]
    exact fun _ => known_bottom

/-! ## The work list -/

/-- The locations of the program. -/
def Program.locs (p : Program) : Finset Loc :=
  (Finset.range p.nvars).image .var ∪ (Finset.range p.names.length).image .field ∪
    {.any, .exc} ∪ (Finset.range p.funcs.length).image .ret ∪
    (Finset.range p.funcs.length).image .this ∪ (Finset.range p.nsites).image .sum ∪
    (Finset.range p.nsites).biUnion fun s => (Finset.range (p.elemLen s + 1)).image (.elem s)

theorem Program.mem_locs {l : Loc} (h : p.HasLoc l) : l ∈ p.locs := by
  cases l with
  | elem s i =>
      simp_all only [locs, HasLoc, Finset.mem_union, Finset.mem_biUnion, Finset.mem_image,
        Finset.mem_range]
      exact .inr ⟨s, h.1, i, Nat.lt_succ_of_le h.2, rfl⟩
  | _ => simp_all [locs, HasLoc]

/-- A work list of functions below `F`, none twice, with its marks. -/
structure Lined (F : ℕ) (queue : List ℕ) (queued : ℕ → Bool) : Prop where
  nodup : queue.Nodup
  mem : ∀ f, queued f = true ↔ f ∈ queue
  lt : ∀ f ∈ queue, f < F

theorem Lined.length_le {F : ℕ} {queue : List ℕ} {queued : ℕ → Bool} (h : Lined F queue queued) :
    queue.length ≤ F := by
  have hsub : queue ⊆ List.range F := fun f hf => List.mem_range.2 (h.lt f hf)
  simpa using (h.nodup.subperm hsub).length_le

theorem Lined.pop {F f : ℕ} {rest : List ℕ} {queued : ℕ → Bool}
    (h : Lined F (f :: rest) queued) : Lined F rest (Function.update queued f false) := by
  obtain ⟨hf, hrest⟩ := List.nodup_cons.1 h.nodup
  refine ⟨hrest, fun k => ?_, fun k hk => h.lt k (List.mem_cons_of_mem _ hk)⟩
  by_cases hk : k = f
  · rw [hk, Function.update_self]
    exact ⟨nofun, fun hmem => absurd hmem hf⟩
  · rw [Function.update_of_ne hk, h.mem, List.mem_cons]
    exact or_iff_right hk

namespace Solver

/-- The number of paths so far. -/
def stage (p : Program) (s : Solver) : p.Stage :=
  ⟨max (Facts.new p).2.2.paths.length s.facts.paths.length, Nat.le_max_left ..⟩

/-- The state of a solver between two operations, its work list and its lists of
readers in any order. -/
structure Ready (p : Program) (s : Solver) : Prop where
  paths : (Facts.new p).2.2.paths.length ≤ s.facts.paths.length
  sane : s.facts.Sane
  vals : ∀ l, (s.vals l).Known (s.stage p)
  queue : Lined p.funcs.length s.queue s.queued
  readers : ∀ l, ∀ f ∈ s.readers l, f < p.funcs.length

/-- What a solver has still to do: its locations can still rise, each time with
every function queued again, and its work list. -/
def todo (p : Program) (s : Solver) : ℕ :=
  (∑ l ∈ p.locs, (9 - (s.vals l).rank)) * p.funcs.length + s.queue.length

theorem todo_le {s : Solver} (hs : s.Ready p) :
    s.todo p ≤ (9 * p.locs.card + 1) * p.funcs.length := by
  have hsum : ∑ l ∈ p.locs, (9 - (s.vals l).rank) ≤ p.locs.card • 9 :=
    Finset.sum_le_card_nsmul _ _ _ fun l _ => Nat.sub_le ..
  have hqueue := hs.queue.length_le
  rw [nsmul_eq_mul, Nat.cast_id, Nat.mul_comm] at hsum
  calc s.todo p
      ≤ (9 * p.locs.card) * p.funcs.length + p.funcs.length :=
        Nat.add_le_add (Nat.mul_le_mul_right _ hsum) hqueue
    _ = (9 * p.locs.card + 1) * p.funcs.length := (Nat.succ_mul ..).symm

theorem ready_new (p : Program) : (new p).Ready p where
  paths := Nat.le_refl _
  sane := (Facts.new_spec p).1
  vals _ := known_bottom
  queue := ⟨List.nodup_range, fun f => by simp [new], fun f hf => List.mem_range.1 hf⟩
  readers _ _ hf := absurd hf List.not_mem_nil

/-- Queueing readers. -/
theorem lined_enqueue {F : ℕ} (fs : List ℕ) (hfs : ∀ f ∈ fs, f < F) (s : Solver)
    (hs : Lined F s.queue s.queued) :
    ∃ queue queued, fs.foldl enqueue s = { s with queue, queued } ∧ Lined F queue queued := by
  induction fs generalizing s with
  | nil => exact ⟨s.queue, s.queued, rfl, hs⟩
  | cons f fs ih =>
      have hstep : ∃ queue queued, s.enqueue f = { s with queue, queued } ∧
          Lined F queue queued := by
        rw [enqueue]
        split
        · exact ⟨s.queue, s.queued, rfl, hs⟩
        · next hf =>
            refine ⟨_, _, rfl, ?_, fun k => ?_, fun k hk => ?_⟩
            · have hnot : f ∉ s.queue := fun hmem => hf ((hs.mem f).2 hmem)
              exact List.nodup_append.2 ⟨hs.nodup, List.nodup_singleton f, by
                rintro a ha b hb rfl
                exact hnot (List.mem_singleton.1 hb ▸ ha)⟩
            · by_cases hk : k = f
              · rw [hk, Function.update_self]
                simp
              · rw [Function.update_of_ne hk, hs.mem, List.mem_append, List.mem_singleton]
                exact (or_iff_left hk).symm
            · rcases List.mem_append.1 hk with hk | hk
              · exact hs.lt k hk
              · exact List.mem_singleton.1 hk ▸ hfs f List.mem_cons_self
      obtain ⟨queue, queued, heq, hl⟩ := hstep
      obtain ⟨queue', queued', heq', hl'⟩ :=
        ih (fun k hk => hfs k (List.mem_cons_of_mem _ hk)) (s.enqueue f) (heq ▸ hl)
      exact ⟨queue', queued', by rw [List.foldl_cons, heq', heq], hl'⟩

/-- A value that rises outweighs the functions that it queues. -/
theorem todo_wr {s : Solver} {l : Loc} {v : Val} {queue : List ℕ} {queued : ℕ → Bool}
    (hl : p.HasLoc l) (hv : s.vals l ⊔ v ≠ s.vals l) (hq : queue.length ≤ p.funcs.length) :
    todo p { s with vals := Function.update s.vals l (s.vals l ⊔ v), queue, queued } ≤
      s.todo p := by
  have hlt : ∑ k ∈ p.locs, (9 - (Function.update s.vals l (s.vals l ⊔ v) k).rank) <
      ∑ k ∈ p.locs, (9 - (s.vals k).rank) := by
    refine Finset.sum_lt_sum (fun k _ => ?_) ⟨l, Program.mem_locs hl, ?_⟩
    · by_cases hk : k = l
      · rw [hk, Function.update_self]
        exact Nat.sub_le_sub_left (Val.rank_mono _ _) 9
      · rw [Function.update_of_ne hk]
    · rw [Function.update_self]
      have h₁ := (Val.rank_sup (s.vals l) v).resolve_left hv
      have h₂ := (s.vals l ⊔ v).rank_le
      omega
  calc _ ≤ (∑ k ∈ p.locs, (9 - (Function.update s.vals l (s.vals l ⊔ v) k).rank)) *
          p.funcs.length + p.funcs.length := Nat.add_le_add_left hq _
    _ = (∑ k ∈ p.locs, (9 - (Function.update s.vals l (s.vals l ⊔ v) k).rank) + 1) *
          p.funcs.length := (Nat.succ_mul ..).symm
    _ ≤ (∑ k ∈ p.locs, (9 - (s.vals k).rank)) * p.funcs.length := Nat.mul_le_mul_right _ hlt
    _ ≤ s.todo p := Nat.le_add_right ..

/-- A solver with a running function. -/
structure Running (p : Program) (s : Solver) : Prop extends s.Ready p where
  cur : s.cur < p.funcs.length

theorem Running.rd {s : Solver} (hs : s.Running p) (l : Loc) :
    (s.rd l).2.Running p ∧ (s.rd l).2.stage p = s.stage p ∧ (s.rd l).2.todo p = s.todo p := by
  rw [Solver.rd]
  dsimp only
  split
  · split
    · refine ⟨⟨⟨hs.paths, hs.sane, hs.vals, hs.queue, fun k f hf => ?_⟩, hs.cur⟩, rfl, rfl⟩
      dsimp only at hf
      by_cases hk : k = l
      · rw [hk, Function.update_self] at hf
        rcases List.mem_cons.1 hf with rfl | hf
        · exact hs.cur
        · exact hs.readers l f hf
      · rw [Function.update_of_ne hk] at hf
        exact hs.readers k f hf
    · exact ⟨⟨⟨hs.paths, hs.sane, hs.vals, hs.queue, hs.readers⟩, hs.cur⟩, rfl, rfl⟩
  · exact ⟨hs, rfl, rfl⟩

theorem Running.wr {s : Solver} {l : Loc} {v : Val} (hs : s.Running p) (hl : p.HasLoc l)
    (hv : v.Known (s.stage p)) :
    (s.wr l v).Running p ∧ (s.wr l v).stage p = s.stage p ∧ (s.wr l v).todo p ≤ s.todo p := by
  rw [Solver.wr]
  dsimp only
  split
  · exact ⟨hs, rfl, Nat.le_refl _⟩
  · next hne =>
      have hvals : ∀ k, (Function.update s.vals l (s.vals l ⊔ v) k).Known (s.stage p) := by
        intro k
        by_cases hk : k = l
        · rw [hk, Function.update_self]
          exact (hs.vals l).sup hv
        · rw [Function.update_of_ne hk]
          exact hs.vals k
      have hkeep : ∀ {queue queued}, Lined p.funcs.length queue queued →
          Running p { s with vals := Function.update s.vals l (s.vals l ⊔ v), queue, queued } ∧
          todo p { s with vals := Function.update s.vals l (s.vals l ⊔ v), queue, queued } ≤
            s.todo p := fun h =>
        ⟨⟨⟨hs.paths, hs.sane, hvals, h, hs.readers⟩, hs.cur⟩, todo_wr hl hne h.length_le⟩
      split
      · obtain ⟨queue, queued, heq, hlined⟩ := lined_enqueue (s.readers l) (hs.readers l)
          { s with vals := Function.update s.vals l (s.vals l ⊔ v) } hs.queue
        rw [notify, heq]
        exact ⟨(hkeep hlined).1, rfl, (hkeep hlined).2⟩
      · exact ⟨(hkeep hs.queue).1, rfl, (hkeep hs.queue).2⟩

/-- More facts, with what they promise. -/
theorem Running.learn {s : Solver} {facts : Facts} (hs : s.Running p) (hsane : facts.Sane)
    (hle : s.facts.paths.length ≤ facts.paths.length) :
    ({ s with facts } : Solver).Running p ∧ s.stage p ≤ ({ s with facts } : Solver).stage p := by
  have hstage : s.stage p ≤ ({ s with facts } : Solver).stage p :=
    max_le_max (Nat.le_refl _) hle
  exact ⟨⟨⟨Nat.le_trans hs.paths hle, hsane, fun l => (hs.vals l).mono hstage, hs.queue,
    hs.readers⟩, hs.cur⟩, hstage⟩

/-- **The operations of a run** keep the solver in order and leave no more to do. -/
theorem honours (p : Program) :
    Lib.Honours handler (contract (.any p)) (stage p) (Running p) fun s s' => s'.todo p ≤ s.todo p where
  refl _ := Nat.le_refl _
  trans h h' := Nat.le_trans h' h
  rd {s l} hs := by
    obtain ⟨hrun, hstage, htodo⟩ := hs.rd l
    exact ⟨hs.vals l, hrun, hstage, Nat.le_of_eq htodo⟩
  wr hs hl hv := hs.wr hl hv
  ask {s q} hs hq := by
    cases q with
    | node id =>
        have hid : id < s.facts.paths.length := by
          have hlt : id < max (Facts.new p).2.2.paths.length s.facts.paths.length := hq
          have hpaths := hs.paths
          omega
        refine ⟨s.facts.paths.get ⟨id, hid⟩, s, ?_, ⟨le_refl _, fun _ => trivial⟩, hs, Nat.le_refl _⟩
        simp only [handler, answer, List.getElem?_eq_getElem hid, Option.map_some]
        rfl
    | child parent key derived =>
        obtain ⟨hsane, hle, hpath⟩ := Facts.child_spec hs.sane parent key derived
        obtain ⟨hrun, hstage⟩ := hs.learn hsane hle
        refine ⟨_, _, rfl, ⟨hstage, fun id d ht => ?_⟩, hrun, Nat.le_refl _⟩
        exact Nat.lt_of_lt_of_le (hpath id d ht) (Nat.le_max_right ..)
    | fire i =>
        refine ⟨_, _, rfl, ⟨le_refl _, trivial⟩, ⟨?_, hs.cur⟩, Nat.le_refl _⟩
        exact ⟨hs.paths, hs.sane, hs.vals, hs.queue, hs.readers⟩
    | query j t =>
        refine ⟨_, _, rfl, ⟨le_refl _, trivial⟩, ⟨?_, hs.cur⟩, Nat.le_refl _⟩
        exact ⟨hs.paths, hs.sane, hs.vals, hs.queue, hs.readers⟩

theorem Ready.pop {s : Solver} {f : ℕ} {rest : List ℕ} (hs : s.Ready p)
    (hq : s.queue = f :: rest) :
    (s.pop f rest).Running p ∧ (s.pop f rest).todo p < s.todo p := by
  have hlined := hs.queue
  rw [hq] at hlined
  have hlt : (s.pop f rest).queue.length < s.queue.length := by
    rw [hq, List.length_cons]
    exact Nat.lt_succ_self _
  exact ⟨⟨⟨hs.paths, hs.sane, hs.vals, hlined.pop, hs.readers⟩, hlined.lt f List.mem_cons_self⟩,
    Nat.add_lt_add_left hlt _⟩

/-- **A step comes to an end**, and leaves less to do. -/
theorem step_spec (hp : p.Wf) {s : Solver} (hs : s.Ready p) (hq : s.queue ≠ []) :
    ∃ fuel t, step p s fuel = some t ∧ t.Ready p ∧ t.todo p < s.todo p ∧
      ∀ fuel' t', step p s fuel' = some t' → t' = t := by
  obtain ⟨f, rest, hq⟩ := List.exists_cons_of_ne_nil hq
  obtain ⟨hrun, hlt⟩ := hs.pop hq
  obtain ⟨func, hfunc⟩ : ∃ func, p.funcs[f]? = some func :=
    ⟨_, List.getElem?_eq_getElem hrun.cur⟩
  obtain ⟨st, t, hx, -, hrun', hle⟩ := (honours p).exec hrun
    (gives_run (g := (s.pop f rest).stage p) ⟨hp, hfunc⟩)
  have hstep : ∀ fuel', step p s fuel' =
      ((run p f func fuel').exec handler (s.pop f rest)).map Prod.snd := by
    intro fuel'
    rw [step, hq]
    dsimp only
    rw [hfunc]
    rfl
  refine ⟨func.fuel, t, by rw [hstep, hx]; rfl, hrun'.toReady, Nat.lt_of_le_of_lt hle hlt,
    fun fuel' t' h => ?_⟩
  rw [hstep] at h
  obtain ⟨r, hr, rfl⟩ := Option.map_eq_some_iff.1 h
  -- Both runs are the run with the fuel of both.
  have h₁ := exec_run_add hx fuel'
  have h₂ := exec_run_add hr func.fuel
  rw [Nat.add_comm fuel', h₁] at h₂
  rw [← Option.some.inj h₂]

/-- The same solver with its work list and its lists of readers in another order. -/
structure Reorders (s t : Solver) : Prop where
  queue : t.queue.Perm s.queue
  readers : ∀ l, (t.readers l).Perm (s.readers l)
  rest : t = { s with queue := t.queue, readers := t.readers }

theorem Reorders.refl (s : Solver) : s.Reorders s := ⟨.refl _, fun _ => .refl _, rfl⟩

theorem Reorders.ready {s t : Solver} (h : s.Reorders t) (hs : s.Ready p) :
    t.Ready p ∧ t.todo p = s.todo p := by
  obtain ⟨hq, hr, hrest⟩ := h
  rw [hrest]
  refine ⟨⟨hs.paths, hs.sane, hs.vals, ⟨?_, fun f => ?_, fun f hf => ?_⟩, fun l f hf => ?_⟩, ?_⟩
  · exact hq.nodup_iff.2 hs.queue.nodup
  · exact (hs.queue.mem f).trans hq.mem_iff.symm
  · exact hs.queue.lt f (hq.mem_iff.1 hf)
  · exact hs.readers l f ((hr l).mem_iff.1 hf)
  · exact congrArg (_ + ·) hq.length_eq

/-- A step of the solver, whatever the order of its lists. -/
def Turn (p : Program) (s t : Solver) : Prop :=
  ∃ u fuel, s.Reorders u ∧ step p u fuel = some t

theorem ends (hp : p.Wf) : Lib.Ends (Turn p) (Ready p) (fun s => s.queue = []) (todo p) where
  step {s t} hs := by
    rintro ⟨u, fuel, hu, hstep⟩
    obtain ⟨hready, htodo⟩ := hu.ready hs
    have hq : u.queue ≠ [] := by
      intro hq
      rw [step, hq] at hstep
      cases hstep
    obtain ⟨_, t', _, ht', hlt, huniq⟩ := step_spec hp hready hq
    obtain rfl := huniq fuel t hstep
    exact ⟨ht', htodo ▸ hlt⟩
  live {s} hs hq := by
    obtain ⟨fuel, t, hstep, -⟩ := step_spec hp hs hq
    exact ⟨t, s, fuel, .refl s, hstep⟩

/-- **The solver terminates.**  From every state whose lists are in order, in
particular from a new one, no run is longer than the program allows, whatever the
order of the work list and of the readers before each step, and a run that has
not emptied the work list can go on and comes to empty it. -/
theorem terminates (hp : p.Wf) :
    (new p).Ready p ∧ ∀ {s : Solver}, s.Ready p → ∀ {k : ℕ} {t : Solver},
      Lib.Chain (Turn p) s k t →
        k ≤ (9 * p.locs.card + 1) * p.funcs.length ∧
        (t.queue ≠ [] → ∃ fuel u, step p t fuel = some u) ∧
        ∃ m u, Lib.Chain (Turn p) t m u ∧ u.queue = [] := by
  refine ⟨ready_new p, fun {s} hs {k t} hrun => ?_⟩
  obtain ⟨ht, hle⟩ := (ends hp).length_le hs hrun
  refine ⟨?_, fun hq => ?_, (ends hp).exists_end ht⟩
  · have hbound := todo_le hs
    omega
  · obtain ⟨fuel, u, hstep, -⟩ := step_spec hp ht hq
    exact ⟨fuel, u, hstep⟩

theorem wf_storesConfig : storesConfig.Wf where
  aux := rfl
  key {a k} ha hk := by
    have h : ∀ a ∈ storesConfig.aux, ∀ k ∈ a.key, k < storesConfig.names.length := by decide
    exact h a ha k hk
  closure {i ins a} hins ha hop := by
    have h : ∀ e ∈ storesConfig.instrs.zip storesConfig.aux, e.1.op = .closure →
      e.2.site < storesConfig.funcs.length := by decide
    exact h (ins, a) (List.mem_of_getElem? (List.getElem?_zip_eq_some.2 ⟨hins, ha⟩)) hop
  array {i ins a} hins ha hop := by
    have h : ∀ ins ∈ storesConfig.instrs, ¬ (ins.op = .newArr ∨ ins.op = .newArrN) := by decide
    exact absurd hop (h ins (List.mem_of_getElem? hins))
  blocks {b} hb := by
    have h : ∀ b ∈ storesConfig.blocks, b.stop ≤ storesConfig.instrs.length := by decide
    exact h b hb
  fblocks {b} hb := by
    have h : ∀ b ∈ storesConfig.fblocks, b < storesConfig.blocks.length := by decide
    exact h b hb
  fsucc := rfl
  funcs {func} hf := by
    have h : ∀ func ∈ storesConfig.funcs,
      func.first + func.count ≤ storesConfig.fblocks.length := by decide
    exact h func hf
  entry {func} hf := by
    have h : ∀ func ∈ storesConfig.funcs, func.entry < func.count := by decide
    exact h func hf
  succ {func b s} _ _ hs k hk := by
    have h : ∀ s ∈ storesConfig.fsucc, s = (none, none) := by decide
    rw [h s (List.mem_of_getElem? hs)] at hk
    rcases hk with hk | hk <;> cases hk
  varItems hf := absurd hf List.not_mem_nil
  methodItems hf := absurd hf List.not_mem_nil

theorem terminates_storesConfig : ∃ m u,
    Lib.Chain (Turn storesConfig) (new storesConfig) m u ∧ u.queue = [] :=
  ((terminates wf_storesConfig).2 (ready_new storesConfig) .refl).2.2

end Solver
end Fc
end Lunar
