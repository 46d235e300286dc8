/-
# The solver ends in a post-fixpoint

The work list of `worktime/fc.rs`.  A function that is not queued has run, is a
reader of all that it read, and would read the same now (`Inv`): a change that
it could observe would have queued it again.  So once the queue is empty,
running any function again changes nothing, and the registers that its blocks
end with flow nowhere new (`post_fixpoint`).
-/

import Lunar.Worktime.Fc.Notify

namespace Lunar
namespace Fc

open Lib (Prog Oracle Watchers Mem)

/-! ## The solver tells its readers -/

/-- A solver with a running function: who has read a location in this run, or
is marked as a reader, is one; and what is marked as queued is queued. -/
structure Booked (s : Solver) : Prop where
  marks : ∀ l, s.marks l ≤ s.runId
  marked : ∀ l, s.marks l = s.runId → s.cur ∈ s.readers l
  seen : ∀ {l f}, s.seen l f = true → f ∈ s.readers l
  queued : ∀ {f}, s.queued f = true → f ∈ s.queue

/-- The solver as a state with readers. -/
def watchers : Watchers Solver ℕ (List ℕ × (ℕ → Bool)) Loc Val Facts where
  mem s := ⟨s.vals, s.facts⟩
  setAux s facts := { s with facts }
  pending s := (s.queue, s.queued)
  due P f := P.2 f = true
  watches s f l := f ∈ s.readers l
  self s := s.cur

/-- What notifying the readers `fs` changes. -/
theorem notify_spec (fs : List ℕ) (s : Solver) :
    ∃ queue queued, fs.foldl Solver.enqueue s = { s with queue, queued } ∧
      (∀ f, s.queued f = true → queued f = true) ∧ (∀ f ∈ fs, queued f = true) ∧
      ((∀ f, s.queued f = true → f ∈ s.queue) → ∀ f, queued f = true → f ∈ queue) := by
  induction fs generalizing s with
  | nil => exact ⟨s.queue, s.queued, rfl, fun _ => id, fun _ h => absurd h List.not_mem_nil, id⟩
  | cons g fs ih =>
      have step : ∃ queue queued, s.enqueue g = { s with queue, queued } ∧
          (∀ f, s.queued f = true → queued f = true) ∧ queued g = true ∧
          ((∀ f, s.queued f = true → f ∈ s.queue) → ∀ f, queued f = true → f ∈ queue) := by
        by_cases hg : s.queued g = true
        · exact ⟨s.queue, s.queued, by rw [Solver.enqueue, if_pos hg], fun _ => id, hg, id⟩
        · refine ⟨s.queue ++ [g], Function.update s.queued g true,
            by rw [Solver.enqueue, if_neg hg], fun f hf => ?_, Function.update_self .., ?_⟩
          · by_cases hfg : f = g
            · rw [hfg, Function.update_self]
            · rwa [Function.update_of_ne hfg]
          · intro h f hf
            by_cases hfg : f = g
            · exact List.mem_append_right _ (List.mem_singleton.2 hfg)
            · rw [Function.update_of_ne hfg] at hf
              exact List.mem_append_left _ (h f hf)
      obtain ⟨queue, queued, hs, hkeep, hg, hin⟩ := step
      obtain ⟨queue', queued', hs', hkeep', hfs, hin'⟩ := ih (s.enqueue g)
      rw [hs] at hs' hkeep' hin'
      refine ⟨queue', queued', by rw [List.foldl_cons, hs, hs'], fun f hf => hkeep' f (hkeep f hf),
        fun f hf => ?_, fun h => hin' (hin h)⟩
      rcases List.mem_cons.1 hf with rfl | hf
      · exact hkeep' f hg
      · exact hfs f hf

/-- **What `wr` does**: nothing if the value is there already, or it joins it in
and the readers are queued unless nothing shows. -/
theorem wr_cases (s : Solver) (l : Loc) (v : Val) :
    (v ≤ s.vals l ∧ s.wr l v = s) ∨
    (¬ v ≤ s.vals l ∧ ∃ queue queued,
      s.wr l v = { s with vals := Function.update s.vals l (s.vals l ⊔ v), queue, queued } ∧
      (∀ f, s.queued f = true → queued f = true) ∧
      (shown l (s.vals l) = shown l (s.vals l ⊔ v) ∨ ∀ f ∈ s.readers l, queued f = true) ∧
      ((∀ f, s.queued f = true → f ∈ s.queue) → ∀ f, queued f = true → f ∈ queue)) := by
  by_cases hv : v ≤ s.vals l
  · exact .inl ⟨hv, by rw [Solver.wr]; exact if_pos (sup_eq_left.2 hv)⟩
  · refine .inr ⟨hv, ?_⟩
    have hne : s.vals l ⊔ v ≠ s.vals l := fun h => hv (sup_eq_left.1 h)
    by_cases ho : Solver.observable l (s.vals l) (s.vals l ⊔ v) = true
    · obtain ⟨queue, queued, hs, hkeep, hfs, hin⟩ := notify_spec (s.readers l)
        { s with vals := Function.update s.vals l (s.vals l ⊔ v) }
      refine ⟨queue, queued, ?_, hkeep, .inr hfs, hin⟩
      rw [← hs, Solver.wr]
      exact (if_neg hne).trans (if_pos ho)
    · refine ⟨s.queue, s.queued, ?_, fun _ => id,
        .inl (shown_eq_of_not_observable (by simpa using ho)), id⟩
      rw [Solver.wr]
      exact (if_neg hne).trans (if_neg ho)

/-- **What `rd` does**: the running function is a reader afterwards. -/
theorem rd_cases {s : Solver} (hs : Booked s) (l : Loc) :
    ∃ marks seen readers, (s.rd l).2 = { s with marks, seen, readers } ∧
      (∀ k, marks k ≤ s.runId) ∧ (∀ k, marks k = s.runId → s.cur ∈ readers k) ∧
      (∀ {k f}, seen k f = true → f ∈ readers k) ∧ (∀ {k f}, f ∈ s.readers k → f ∈ readers k) ∧
      s.cur ∈ readers l := by
  unfold Solver.rd
  by_cases hm : s.marks l = s.runId
  · rw [if_neg (not_not.2 hm)]
    exact ⟨s.marks, s.seen, s.readers, rfl, hs.marks, hs.marked, hs.seen, id, hs.marked l hm⟩
  · rw [if_pos hm]
    dsimp only
    -- Marking `l` is right as soon as the running function is a reader of it.
    have marks (readers : Loc → List ℕ) (hr : ∀ {k f}, f ∈ s.readers k → f ∈ readers k)
        (hl : s.cur ∈ readers l) :
        (∀ k, Function.update s.marks l s.runId k ≤ s.runId) ∧
        ∀ k, Function.update s.marks l s.runId k = s.runId → s.cur ∈ readers k := by
      constructor <;> intro k
      · by_cases hk : k = l
        · rw [hk, Function.update_self]
        · rw [Function.update_of_ne hk]; exact hs.marks k
      · by_cases hk : k = l
        · exact fun _ => hk ▸ hl
        · rw [Function.update_of_ne hk]; exact fun h => hr (hs.marked k h)
    split
    · have hr : ∀ {k f}, f ∈ s.readers k →
          f ∈ Function.update s.readers l (s.cur :: s.readers l) k := by
        intro k f hf
        by_cases hk : k = l
        · rw [hk, Function.update_self]; exact List.mem_cons_of_mem _ (hk ▸ hf)
        · rwa [Function.update_of_ne hk]
      have hl : s.cur ∈ Function.update s.readers l (s.cur :: s.readers l) l := by
        rw [Function.update_self]; exact List.mem_cons_self
      refine ⟨_, _, _, rfl, (marks _ hr hl).1, (marks _ hr hl).2, fun {k f} h => ?_, hr, hl⟩
      by_cases hk : k = l
      · rw [hk, Function.update_self] at h
        by_cases hf : f = s.cur
        · rw [hk, hf]; exact hl
        · rw [Function.update_of_ne hf] at h; exact hr (hk ▸ hs.seen h)
      · rw [Function.update_of_ne hk] at h; exact hr (hs.seen h)
    · rename_i hreader
      have hl : s.cur ∈ s.readers l := by
        rw [not_and_or, not_not, Bool.not_eq_false] at hreader
        rcases hreader with h | h
        · exact List.mem_of_mem_head? (h ▸ rfl)
        · exact hs.seen h
      exact ⟨_, s.seen, s.readers, rfl, (marks _ id hl).1, (marks _ id hl).2, hs.seen, id, hl⟩

/-- **Readers are told of what they can observe.** -/
theorem handler_tells : watchers.Tells shown oracle Solver.handler Booked where
  rd_val _ := rfl
  rd_mem {s l} hs := by
    obtain ⟨marks, seen, readers, h, -⟩ := rd_cases hs l
    change watchers.mem (s.rd l).2 = _
    rw [h]; rfl
  rd_pending {s l} hs := by
    obtain ⟨marks, seen, readers, h, -⟩ := rd_cases hs l
    change watchers.pending (s.rd l).2 = _
    rw [h]; rfl
  rd_watches {s l} hs := by
    obtain ⟨marks, seen, readers, h, -, -, -, -, hl⟩ := rd_cases hs l
    change watchers.watches (s.rd l).2 _ _
    rw [h]; exact hl
  rd_keeps {s l} hs := by
    obtain ⟨marks, seen, readers, h, -, -, -, hr, -⟩ := rd_cases hs l
    change watchers.Keeps shown s (s.rd l).2
    rw [h]; exact ⟨rfl, id, hr, fun _ _ => rfl⟩
  rd_inv {s l} hs := by
    obtain ⟨marks, seen, readers, h, hm, hmd, hsn, -⟩ := rd_cases hs l
    change Booked (s.rd l).2
    rw [h]; exact ⟨hm, hmd, hsn, hs.queued⟩
  wr_mem {s l v} hs := by
    have hjoin : (⟨Function.update s.vals l (s.vals l ⊔ v), s.facts⟩ : Mem Loc Val Facts) =
        (watchers.mem s).join l v :=
      congrArg (Mem.mk · s.facts) (funext fun k => by rw [Function.update_apply]; rfl)
    change watchers.mem (s.wr l v) = _
    rcases wr_cases s l v with ⟨hv, h⟩ | ⟨-, queue, queued, h, -⟩
    · rw [h, ← hjoin, sup_eq_left.2 hv, Function.update_eq_self]; rfl
    · rw [h]; exact hjoin
  wr_same {s l v} hs hv := by
    rcases wr_cases s l v with ⟨-, h⟩ | ⟨hnv, -⟩
    · exact h
    · exact absurd hv hnv
  wr_keeps {s l v} hs := by
    change watchers.Keeps shown s (s.wr l v)
    rcases wr_cases s l v with ⟨hv, h⟩ | ⟨-, queue, queued, h, hkeep, hshow, -⟩
    · rw [h]; exact .refl
    · rw [h]
      refine ⟨rfl, fun hd => hkeep _ hd, id, fun {g k} hw hd => ?_⟩
      change shown k (s.vals k) = shown k (Function.update s.vals l _ k)
      by_cases hk : k = l
      · subst hk
        rw [Function.update_self]
        exact hshow.resolve_right fun hall => hd (hall g hw)
      · rw [Function.update_of_ne hk]
  wr_inv {s l v} hs := by
    change Booked (s.wr l v)
    rcases wr_cases s l v with ⟨hv, h⟩ | ⟨-, queue, queued, h, -, -, hin⟩
    · rw [h]; exact hs
    · rw [h]; exact ⟨hs.marks, hs.marked, hs.seen, fun hf => hin (fun _ => hs.queued) _ hf⟩
  ask_eq _ := rfl
  setAux_mem := rfl
  setAux_self := rfl
  setAux_keeps _ := ⟨rfl, id, id, fun _ _ => rfl⟩
  setAux_inv hs := ⟨hs.marks, hs.marked, hs.seen, hs.queued⟩

/-! ## The work list -/

/-- The solver between two steps: a function that is not queued is done. -/
structure Inv (p : Program) (s : Solver) : Prop where
  marks : ∀ l, s.marks l ≤ s.runId
  seen : ∀ {l f}, s.seen l f = true → f ∈ s.readers l
  queued : ∀ {f}, s.queued f = true → f ∈ s.queue
  done : ∀ {f func}, p.funcs[f]? = some func → s.queued f = true ∨
    ∃ fuel, watchers.Done oracle shown s f (run p f func fuel)

theorem inv_new (p : Program) : Inv p (Solver.new p) where
  marks _ := Nat.le_refl 0
  seen h := by cases h
  queued h := List.mem_range.2 (of_decide_eq_true h)
  done h := .inl (decide_eq_true (List.getElem?_eq_some_iff.1 h).1)

/-- A function taken off the queue is about to run. -/
theorem Inv.pop {p : Program} {s : Solver} (hs : Inv p s) {f : ℕ} {rest : List ℕ}
    (hq : ∀ g ∈ s.queue, g = f ∨ g ∈ rest) : Booked (s.pop f rest) where
  marks l := Nat.le_succ_of_le (hs.marks l)
  marked l h := absurd (hs.marks l) (by
    change s.marks l = s.runId + 1 at h
    omega)
  seen := hs.seen
  queued {g} h := by
    change Function.update s.queued f false g = true at h
    by_cases hg : g = f
    · rw [hg, Function.update_self] at h
      cases h
    · rw [Function.update_of_ne hg] at h
      exact (hq g (hs.queued h)).resolve_left hg

/-- **A step keeps the invariant.** -/
theorem Inv.step {p : Program} {s s' : Solver} (hs : Inv p s) {fuel : ℕ}
    (h : Solver.step p s fuel = some s') : Inv p s' := by
  unfold Solver.step at h
  split at h
  · cases h
  · rename_i f rest hq
    obtain ⟨func, hf, h⟩ := Option.bind_eq_some_iff.1 h
    obtain ⟨⟨st, s₁⟩, hx, heq⟩ := Option.map_eq_some_iff.1 h
    cases heq
    have hpop : Booked (s.pop f rest) := hs.pop fun g hg => List.mem_cons.1 (hq ▸ hg)
    have hran := handler_tells.ran hpop hx
    refine ⟨hran.inv.marks, hran.inv.seen, hran.inv.queued, fun {g func'} hg => ?_⟩
    by_cases hqd : s₁.queued g = true
    · exact .inl hqd
    · right
      by_cases hgf : g = f
      · obtain rfl := hgf
        obtain rfl := Option.some.inj (hf.symm.trans hg)
        exact ⟨fuel, hran.done hqd⟩
      · -- A function that was not made due was not due before, and it has seen no change.
        have hnq : ¬ s.queued g = true := fun h => hqd (hran.keeps.due (by
          change Function.update s.queued f false g = true
          rwa [Function.update_of_ne hgf]))
        obtain ⟨k, hdone⟩ := (hs.done hg).resolve_left hnq
        exact ⟨k, Watchers.Done.keeps (s := s.pop f rest) hdone hran.keeps
          (Prog.le_of_exec hran.exec) hqd⟩

theorem reachable_inv {p : Program} {s : Solver} (hs : (Solver.system p).Reachable s) : Inv p s :=
  hs.invariant (inv_new p) fun _ _ _ _ h hstep => h.step hstep

/-! ## The loop over the blocks -/

section Blocks

variable {p : Program} {f n : ℕ} {func : Func} {m : Mem Loc Val Facts} {st st' : Blocks n}

/-- **What flowing into a successor does.**  Registers only grow, and a block
that they change is dirty. -/
structure Flowed (st st' : Blocks n) (regs : Regs n) (s : Option ℕ) : Prop where
  reached : ∀ {k}, st.reached k = true → st'.reached k = true
  states : ∀ {k}, st.reached k = true → st.states k ≤ st'.states k
  clean : ∀ {k}, st'.dirty k = false →
    st.dirty k = false ∧ st'.states k = st.states k ∧ st'.reached k = st.reached k
  into : ∀ {k}, s = some k → st'.reached k = true ∧ regs ≤ st'.states k

theorem Flowed.of_update {s : ℕ} {regs j : Regs n} (hj : regs ≤ j)
    (hold : st.reached s = true → st.states s ≤ j)
    (states : st'.states = Function.update st.states s j)
    (reached : st'.reached = Function.update st.reached s true)
    (dirty : st'.dirty = Function.update st.dirty s true) : Flowed st st' regs (some s) where
  reached {k} h := by
    rw [reached]
    by_cases hk : k = s
    · rw [hk, Function.update_self]
    · rwa [Function.update_of_ne hk]
  states {k} h := by
    rw [states]
    by_cases hk : k = s
    · rw [hk, Function.update_self]
      exact hold (hk ▸ h)
    · rw [Function.update_of_ne hk]
  clean {k} h := by
    rw [dirty] at h
    have hk : k ≠ s := by rintro rfl; rw [Function.update_self] at h; cases h
    rw [Function.update_of_ne hk] at h
    rw [states, reached, Function.update_of_ne hk, Function.update_of_ne hk]
    exact ⟨h, rfl, rfl⟩
  into {k} h := by
    obtain rfl := Option.some.inj h
    rw [states, reached, Function.update_self, Function.update_self]
    exact ⟨rfl, hj⟩

theorem Blocks.flowed (st : Blocks n) (regs : Regs n) (s : Option ℕ) :
    Flowed st (st.flow regs s) regs s := by
  cases s with
  | none => exact ⟨id, fun _ => le_rfl, fun h => ⟨h, rfl, rfl⟩, fun h => by cases h⟩
  | some s =>
      by_cases hr : st.reached s = true
      · rw [Blocks.flow, if_pos hr]
        by_cases hj : st.states s ⊔ regs = st.states s
        · simp only [if_pos hj]
          refine ⟨id, fun _ => le_rfl, fun h => ⟨h, rfl, rfl⟩, fun h => ?_⟩
          obtain rfl := Option.some.inj h
          exact ⟨hr, sup_eq_left.1 hj⟩
        · simp only [if_neg hj]
          refine .of_update le_sup_right (fun _ => le_sup_left) rfl ?_ rfl
          rw [← hr, Function.update_eq_self]
      · rw [Blocks.flow, if_neg hr]
        exact .of_update le_rfl (fun h => absurd h hr) rfl rfl rfl

/-- Block `b` has nothing to add: its transfer settles, and what it leaves is
in its successors. -/
def BlockDone (p : Program) (m : Mem Loc Val Facts) (f : ℕ) (func : Func) (st : Blocks n)
    (b : ℕ) : Prop :=
  ∃ regs succ, (block p f func b (st.states b)).Settles oracle m regs ∧
    p.fsucc[func.first + b]? = some succ ∧
    ∀ k, succ.1 = some k ∨ succ.2 = some k → st.reached k = true ∧ regs ≤ st.states k

/-- The invariant of the loop: a block that has been reached and is not dirty
has nothing to add. -/
def Visited (p : Program) (m : Mem Loc Val Facts) (f : ℕ) (func : Func) (st : Blocks n) : Prop :=
  ∀ b, st.reached b = true → st.dirty b = false → BlockDone p m f func st b

@[simp] theorem settles_index {α : Type} {xs : List α} {i : ℕ} {a : α} :
    (index xs i).Settles oracle m a ↔ xs[i]? = some a := by
  unfold index
  cases xs[i]? with
  | none => simp
  | some b => simp

/-- **A visit keeps the invariant.** -/
theorem Visited.visit (hv : Visited p m f func st) {pr pr' : Bool} {b : ℕ}
    (h : (visit p f func (st, pr) b).Settles oracle m (st', pr')) : Visited p m f func st' := by
  unfold Fc.visit at h
  split at h
  · simp only [Prog.settles_bind, settles_index, Prog.settles_pure, Prod.mk.injEq] at h
    obtain ⟨regs, hregs, succ, hsucc, rfl, -⟩ := h
    have h₁ := Blocks.flowed { st with dirty := Function.update st.dirty b false } regs succ.1
    have h₂ := Blocks.flowed
      (Blocks.flow { st with dirty := Function.update st.dirty b false } regs succ.1) regs succ.2
    intro k hk hd
    obtain ⟨hd₁, hs₂, hr₂⟩ := h₂.clean hd
    obtain ⟨hd₀, hs₁, hr₁⟩ := h₁.clean hd₁
    rw [hr₂, hr₁] at hk
    -- What block `k` left is still below what its successors hold.
    have grown (j : ℕ) (r : Regs n) (hj : st.reached j = true ∧ r ≤ st.states j) :=
      And.intro (h₂.reached (h₁.reached hj.1))
        (hj.2.trans ((h₁.states hj.1).trans (h₂.states (h₁.reached hj.1))))
    unfold BlockDone
    rw [hs₂, hs₁]
    by_cases hkb : k = b
    · subst hkb
      refine ⟨regs, succ, hregs, hsucc, fun j hj => ?_⟩
      rcases hj with hj | hj
      · obtain ⟨hr, hle⟩ := h₁.into hj
        exact ⟨h₂.reached hr, hle.trans (h₂.states hr)⟩
      · exact h₂.into hj
    · change Function.update st.dirty b false k = false at hd₀
      rw [Function.update_of_ne hkb] at hd₀
      obtain ⟨r, sc, hr, hsc, hj⟩ := hv k hk hd₀
      exact ⟨r, sc, hr, hsc, fun j h => grown j r (hj j h)⟩
  · simp only [Prog.settles_pure, Prod.mk.injEq] at h
    obtain ⟨rfl, -⟩ := h
    exact hv

theorem Visited.sweep (hv : Visited p m f func st) {bs : List ℕ} {pr pr' : Bool}
    (h : (bs.foldlM (Fc.visit p f func) (st, pr)).Settles oracle m (st', pr')) :
    Visited p m f func st' := by
  induction bs generalizing st pr with
  | nil => cases h; exact hv
  | cons b bs ih =>
      obtain ⟨⟨st₁, pr₁⟩, h₁, h₂⟩ := Prog.settles_bind.1 h
      exact ih (hv.visit h₁) h₂

/-- The registers at the blocks that have been reached only grow. -/
def Grows (st st' : Blocks n) : Prop :=
  ∀ k, st.reached k = true → st'.reached k = true ∧ st.states k ≤ st'.states k

theorem Grows.trans {st'' : Blocks n} (h : Grows st st') (h' : Grows st' st'') : Grows st st'' :=
  fun k hk => ⟨(h' k (h k hk).1).1, (h k hk).2.trans (h' k (h k hk).1).2⟩

theorem Flowed.grows {regs : Regs n} {s : Option ℕ} (h : Flowed st st' regs s) : Grows st st' :=
  fun _ hk => ⟨h.reached hk, h.states hk⟩

theorem visit_grows {pr pr' : Bool} {b : ℕ}
    (h : (visit p f func (st, pr) b).Settles oracle m (st', pr')) : Grows st st' := by
  unfold visit at h
  split at h
  · simp only [Prog.settles_bind, settles_index, Prog.settles_pure, Prod.mk.injEq] at h
    obtain ⟨regs, -, succ, -, rfl, -⟩ := h
    exact (Blocks.flowed { st with dirty := Function.update st.dirty b false } regs succ.1).grows.trans
      (Blocks.flowed _ regs succ.2).grows
  · cases h
    exact fun _ hk => ⟨hk, le_rfl⟩

theorem sweep_grows {bs : List ℕ} {pr pr' : Bool}
    (h : (bs.foldlM (visit p f func) (st, pr)).Settles oracle m (st', pr')) : Grows st st' := by
  induction bs generalizing st pr with
  | nil => cases h; exact fun _ hk => ⟨hk, le_rfl⟩
  | cons b bs ih =>
      obtain ⟨⟨st₁, pr₁⟩, h₁, h₂⟩ := Prog.settles_bind.1 h
      exact (visit_grows h₁).trans (ih h₂)

theorem sweeps_grows {fuel : ℕ} (h : (sweeps p f func fuel st).Settles oracle m st') :
    Grows st st' := by
  induction fuel generalizing st with
  | zero => cases h
  | succ fuel ih =>
      obtain ⟨⟨st₁, pr⟩, h₁, h⟩ := Prog.settles_bind.1 h
      cases pr with
      | true => exact (sweep_grows h₁).trans (ih h)
      | false => cases h; exact sweep_grows h₁

/-- A sweep without progress has visited nothing. -/
theorem sweep_clean {bs : List ℕ} {pr : Bool}
    (h : (bs.foldlM (visit p f func) (st, pr)).Settles oracle m (st', false)) :
    pr = false ∧ st' = st ∧ ∀ b ∈ bs, st.dirty b = false := by
  induction bs generalizing st pr with
  | nil => cases h; exact ⟨rfl, rfl, fun _ h => absurd h List.not_mem_nil⟩
  | cons b bs ih =>
      obtain ⟨⟨st₁, pr₁⟩, h₁, h₂⟩ := Prog.settles_bind.1 h
      obtain ⟨rfl, rfl, hclean⟩ := ih h₂
      unfold visit at h₁
      split at h₁
      · simp only [Prog.settles_bind, Prog.settles_pure, Prod.mk.injEq, Bool.true_eq_false,
          and_false, exists_false] at h₁
      · rename_i hd
        obtain ⟨rfl, rfl⟩ := Prod.mk.inj (Prog.settles_pure.1 h₁)
        refine ⟨rfl, rfl, fun k hk => ?_⟩
        rcases List.mem_cons.1 hk with rfl | hk
        · simpa using hd
        · exact hclean k hk

/-- **The loop ends with every reached block done.** -/
theorem sweeps_done (hv : Visited p m f func st) {fuel : ℕ}
    (h : (sweeps p f func fuel st).Settles oracle m st') :
    ∀ b < func.count, st'.reached b = true → BlockDone p m f func st' b := by
  induction fuel generalizing st with
  | zero => cases h
  | succ fuel ih =>
      obtain ⟨⟨st₁, pr⟩, h₁, h⟩ := Prog.settles_bind.1 h
      have hv₁ := hv.sweep h₁
      cases pr with
      | true => exact ih hv₁ h
      | false =>
          cases h
          obtain ⟨-, rfl, hclean⟩ := sweep_clean h₁
          exact fun b hb hr => hv₁ b hr (hclean b (List.mem_range.2 hb))

end Blocks

/-! ## The end of the work list -/

/-- The blocks that a run of a function ends with where nothing changes any more. -/
structure Closed (p : Program) (m : Mem Loc Val Facts) (f : ℕ) (func : Func)
    (st : Blocks func.nregs) : Prop where
  entry : ∃ regs, (entry p f func).Settles oracle m regs ∧ st.reached func.entry = true ∧
    regs ≤ st.states func.entry
  block : ∀ b < func.count, st.reached b = true → BlockDone p m f func st b

/-- **A run that settles is closed.** -/
theorem closed_of_settles {p : Program} {m : Mem Loc Val Facts} {f : ℕ} {func : Func} {fuel : ℕ}
    {st : Blocks func.nregs} (h : (run p f func fuel).Settles oracle m st) :
    Closed p m f func st := by
  obtain ⟨regs, hentry, h⟩ := Prog.settles_bind.1 h
  constructor
  · obtain ⟨hr, hle⟩ := sweeps_grows h func.entry (by simp)
    exact ⟨regs, hentry, hr, by simpa using hle⟩
  · refine sweeps_done (fun b hr hd => ?_) h
    -- Only the entry has been reached at first, and it is dirty.
    by_cases hb : b = func.entry
    · rw [hb] at hd
      simp at hd
    · simp [Function.update_of_ne hb] at hr

/-- **At the end every function settles.** -/
theorem Inv.settles {p : Program} {s : Solver} (hs : Inv p s) (hq : s.queue = []) {f : ℕ}
    {func : Func} (hf : p.funcs[f]? = some func) :
    ∃ fuel st, (run p f func fuel).Settles oracle ⟨s.vals, s.facts⟩ st := by
  have hnq : ¬ s.queued f = true := fun h => by
    have := hs.queued h
    rw [hq] at this
    cases this
  obtain ⟨fuel, hdone⟩ := (hs.done hf).resolve_left hnq
  obtain ⟨st, hst⟩ := hdone.settles (sees_run f func fuel)
  exact ⟨fuel, st, hst⟩

/-- Solvers that agree on the locations, the events, the query and the queue. -/
structure Unchanged (s s' : Solver) : Prop where
  vals : s'.vals = s.vals
  fired : s'.facts.fired = s.facts.fired
  query : s'.facts.query = s.facts.query
  paths : s'.facts.paths = s.facts.paths
  queue : s'.queue = s.queue
  queued : s'.queued = s.queued

/-- Run once more in `s` for function `f`, `x` ends with `a` and changes nothing. -/
def Reruns {α : Type} (s : Solver) (f : ℕ) (x : M α) (a : α) : Prop :=
  ∃ s', x.exec Solver.handler (s.pop f []) = some (a, s') ∧ Unchanged s s'

theorem Inv.reruns {p : Program} {s : Solver} (hs : Inv p s) (hq : s.queue = []) (f : ℕ)
    {α : Type} {x : M α} {a : α} (hx : x.Settles oracle ⟨s.vals, s.facts⟩ a) : Reruns s f x a := by
  have hpop : Booked (s.pop f []) := hs.pop fun g hg => by rw [hq] at hg; cases hg
  obtain ⟨s', h, hm, hp⟩ := handler_tells.exec_of_settles hpop hx
  have hf : s.queued f = false := by
    cases hqd : s.queued f with
    | false => rfl
    | true =>
        have := hs.queued hqd
        rw [hq] at this
        cases this
  have hvals : s'.vals = s.vals := congrArg Mem.vals hm
  have hfacts : s'.facts = s.facts := congrArg Mem.aux hm
  refine ⟨s', h, hvals, by rw [hfacts], by rw [hfacts], by rw [hfacts],
    (congrArg Prod.fst hp).trans hq.symm, (congrArg Prod.snd hp).trans ?_⟩
  change Function.update s.queued f false = s.queued
  rw [← hf, Function.update_eq_self]

theorem exec_sweeps_succ {p : Program} {f n : ℕ} {func : Func} {fuel : ℕ} {st : Blocks n}
    {s : Solver} {r : Blocks n × Solver}
    (h : (sweeps p f func fuel st).exec Solver.handler s = some r) :
    (sweeps p f func (fuel + 1) st).exec Solver.handler s = some r := by
  induction fuel generalizing st s with
  | zero => cases h
  | succ fuel ih =>
      unfold sweeps at h ⊢
      rw [Prog.exec_bind, Option.bind_eq_some_iff] at h ⊢
      obtain ⟨⟨⟨st₁, pr⟩, s₁⟩, h₁, h⟩ := h
      refine ⟨_, h₁, ?_⟩
      cases pr with
      | true => exact ih h
      | false => exact h

/-- A run that ends does so with more fuel as well. -/
theorem exec_run_add {p : Program} {f : ℕ} {func : Func} {fuel : ℕ} {s : Solver}
    {r : Blocks func.nregs × Solver} (h : (run p f func fuel).exec Solver.handler s = some r)
    (k : ℕ) : (run p f func (fuel + k)).exec Solver.handler s = some r := by
  induction k with
  | zero => exact h
  | succ k ih =>
      unfold run at ih ⊢
      rw [Prog.exec_bind, Option.bind_eq_some_iff] at ih ⊢
      obtain ⟨⟨regs, s₁⟩, h₁, ih⟩ := ih
      exact ⟨_, h₁, exec_sweeps_succ ih⟩

/-- **The solver ends in a post-fixpoint.**  Once the work list is empty, every
function of the program, run again, ends as often as it is run with the same
registers at its blocks, and changes no location, no event, no query, no path
and no queue; so does every block that it has reached, run again from the
registers it ended with; and what the block leaves is in its successors
already. -/
theorem post_fixpoint {p : Program} {s : Solver} (hs : (Solver.system p).Reachable s)
    (hq : s.queue = []) {f : ℕ} {func : Func} (hf : p.funcs[f]? = some func) :
    ∃ st, (∃ fuel, Reruns s f (run p f func fuel) st) ∧
      (∀ fuel r, (run p f func fuel).exec Solver.handler (s.pop f []) = some r →
        r.1 = st ∧ Unchanged s r.2) ∧
      st.reached func.entry = true ∧
      ∀ b < func.count, st.reached b = true → ∃ regs succ,
        Reruns s f (block p f func b (st.states b)) regs ∧
        p.fsucc[func.first + b]? = some succ ∧
        ∀ k, succ.1 = some k ∨ succ.2 = some k →
          st.reached k = true ∧ st.states k ⊔ regs = st.states k := by
  have inv := reachable_inv hs
  obtain ⟨fuel, st, hst⟩ := inv.settles hq hf
  obtain ⟨s', hx, hun⟩ := inv.reruns hq f hst
  refine ⟨st, ⟨fuel, s', hx, hun⟩, fun k r hr => ?_, ?_, fun b hb hr => ?_⟩
  · -- Both runs are the run with the fuel of both.
    have h₁ := exec_run_add hx k
    have h₂ := exec_run_add hr fuel
    rw [Nat.add_comm k, h₁] at h₂
    obtain rfl := Option.some.inj h₂
    exact ⟨rfl, hun⟩
  · exact (closed_of_settles hst).entry.choose_spec.2.1
  · obtain ⟨regs, succ, hregs, hsucc, hinto⟩ := (closed_of_settles hst).block b hb hr
    exact ⟨regs, succ, inv.reruns hq f hregs, hsucc,
      fun k hk => ⟨(hinto k hk).1, sup_eq_left.2 (hinto k hk).2⟩⟩

/-- Function 0 calls function 1, which reads the document, and stores the result
in a variable.  It has to run twice, as function 1 returns only then. -/
def storesConfig : Program where
  instrs := [⟨0, .closure, [.int 4], some 4⟩, ⟨1, .call0, [.reg 4], some 5⟩,
    ⟨2, .setVar, [.int 0, .reg 5], none⟩, ⟨3, .retUndef, [], none⟩,
    ⟨4, .getProp, [.reg 0, .str ⟨0, 13⟩], some 4⟩, ⟨5, .ret, [.reg 4], none⟩]
  aux := [⟨none, 0, 1⟩, ⟨none, 0, 0⟩, ⟨none, 0, 0⟩, ⟨none, 0, 0⟩, ⟨some 0, 0, 0⟩, ⟨none, 0, 0⟩]
  names := [.units []]
  blocks := [⟨0, 4⟩, ⟨4, 6⟩]
  fblocks := [0, 1]
  fsucc := [(none, none), (none, none)]
  funcs := [⟨0, 1, 0, 6⟩, ⟨1, 1, 0, 5⟩]
  nvars := 1
  varOff := [0, 0]
  varItems := []
  methodOff := [0, 0]
  methodItems := []
  siteLen := []
  nallocs := 0
  pow _ := none
  dynKey := some 0
  ffKey := none
  hdrKey := none

theorem post_fixpoint_storesConfig : ∃ s, (Solver.system storesConfig).Reachable s ∧
    s.queue = [] ∧ (s.vals (.var 0)).t = .path 1 false ∧
    ∃ st fuel, Reruns s 0 (run storesConfig 0 ⟨0, 1, 0, 6⟩ fuel) st := by
  obtain ⟨s, hs, hq, hv⟩ := Lib.System.exists_reachable (m := Solver.system storesConfig)
    [2, 2, 2] (P := fun s => s.queue = [] ∧ (s.vals (.var 0)).t = .path 1 false)
    (by decide +kernel)
  obtain ⟨st, ⟨fuel, h⟩, -⟩ := post_fixpoint hs hq (show storesConfig.funcs[0]? = some ⟨0, 1, 0, 6⟩ from rfl)
  exact ⟨s, hs, hq, hv, st, fuel, h⟩

end Fc
end Lunar
