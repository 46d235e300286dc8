/-
# Definitions along paths

What reaches an item, said by the runs of the blocks: a path of the pruned block graph passes
the items of its blocks, those of one side of each conditional statement, and a definition
reaches an item when nothing that the path passes between them assigns the register.  Where no
block holds a conditional statement, `analyze` and `chase` find these definitions and no others
(`analyze_chase`).
-/

import Lunar.Payload.Probe.Definitions

namespace Lunar
namespace Probe

open Lib (Double Leads)
open Devirt (Expr Stmt Term Block Func)

/-! ## Paths -/

/-- The places that a run passes of statements that are laid out from `start` on. -/
inductive Passes : ℕ → List Stmt → List ℕ → Prop
  | nil {start} : Passes start [] []
  | plain {start st sts xs} : (∀ c thn els, st ≠ .cond c thn els) → Passes (start + 1) sts xs →
      Passes start (st :: sts) (start :: xs)
  | thn {start c thn els sts xs ys} : Passes (start + 1) thn xs →
      Passes (start + 1 + (flats thn).length + (flats els).length) sts ys →
      Passes start (.cond c thn els :: sts) (start :: xs ++ ys)
  | els {start c thn els sts xs ys} : Passes (start + 1 + (flats thn).length) els xs →
      Passes (start + 1 + (flats thn).length + (flats els).length) sts ys →
      Passes start (.cond c thn els :: sts) (start :: xs ++ ys)

/-- The places that a run passes of a block. -/
inductive Through (f : Func) (fl : Flat) (b : ℕ) : List ℕ → Prop
  | skip {blk} : f.blocks[b]? = some blk → blk.live = false → Through f fl b []
  | run {blk xs} : f.blocks[b]? = some blk → blk.live = true →
      Passes (fl.ranges.getD b (0, 0)).1 blk.body xs →
      Through f fl b (xs ++ List.range' ((fl.ranges.getD b (0, 0)).1 + (flats blk.body).length)
        (condition blk.term).length)

/-- The places that a path of the pruned block graph passes before it comes to block `b`. -/
inductive Path (f : Func) (fl : Flat) : ℕ → List ℕ → Prop
  | here {b} : Path f fl b []
  | step {p b xs ys} : p ∈ fl.pred b → Path f fl p xs → Through f fl p ys → Path f fl b (xs ++ ys)

/-- A path leads from definition `d` to item `i`, and nothing on it assigns `r` behind `d`. -/
def Reaches (f : Func) (fl : Flat) (i r d : ℕ) : Prop :=
  ∃ b xs before rest us vs, fl.blockOf[i]? = some b ∧ Path f fl b xs ∧
    Through f fl b (before ++ i :: rest) ∧ xs ++ before = us ++ d :: vs ∧ Defines fl r d ∧
    ∀ v ∈ vs, assigned fl v ≠ some r

/-! ## Blocks without conditional statements -/

/-- No block holds a conditional statement. -/
def Straight (f : Func) : Prop := ∀ b ∈ f.blocks, ∀ st ∈ b.body, ∀ c thn els, st ≠ .cond c thn els

theorem flats_straight {sts : List Stmt} (h : ∀ st ∈ sts, ∀ c thn els, st ≠ .cond c thn els) :
    flats sts = sts := by
  induction sts with
  | nil => rfl
  | cons st sts ih =>
      have hst : flat st = [st] := by
        rw [flat]
        exact h st List.mem_cons_self
      rw [flats, hst, ih fun st' hst' => h st' (List.mem_cons_of_mem _ hst')]
      rfl

theorem passes_straight {sts : List Stmt} (h : ∀ st ∈ sts, ∀ c thn els, st ≠ .cond c thn els)
    (start : ℕ) (xs : List ℕ) : Passes start sts xs ↔ xs = List.range' start sts.length := by
  induction sts generalizing start xs with
  | nil =>
      constructor
      · rintro ⟨⟩
        rfl
      · rintro rfl
        exact .nil
  | cons st sts ih =>
      have hst := h st List.mem_cons_self
      have ih := ih fun st' hst' => h st' (List.mem_cons_of_mem _ hst')
      rw [List.length_cons, List.range'_succ]
      constructor
      · intro hp
        rcases hp with _ | ⟨-, hp⟩ | _ | _
        · rw [(ih _ _).1 hp]
        · exact absurd rfl (hst _ _ _)
        · exact absurd rfl (hst _ _ _)
      · rintro rfl
        exact .plain hst ((ih _ _).2 rfl)

variable {f : Func} {fl : Flat}

/-- A run passes all items of a block without conditional statements. -/
theorem through_straight (hp : Pruned (flatten f) fl) (hs : Straight f) {b : ℕ}
    (hb : b < f.blocks.length) {xs : List ℕ} : Through f fl b xs ↔ xs = fl.range b := by
  have hblk := List.getElem?_eq_getElem hb
  have hbody := hs _ (List.getElem_mem hb)
  have hwidth := layout_width 0 hblk
  rw [← show fl.ranges = layout 0 f.blocks from hp.ranges] at hwidth
  rw [Flat.range, places, hwidth, Nat.add_sub_cancel_left]
  have hitems : (blockItems f.blocks[b]).length = if f.blocks[b].live then
      f.blocks[b].body.length + (condition f.blocks[b].term).length else 0 := by
    rw [blockItems]
    split
    · rw [List.length_append, List.length_map, flats_straight hbody]
    · rfl
  rw [hitems]
  constructor
  · intro h
    rcases h with ⟨hblk', hlive⟩ | ⟨hblk', hlive, hpass⟩
    · obtain rfl := Option.some_inj.1 (hblk.symm.trans hblk')
      simp [hlive]
    · obtain rfl := Option.some_inj.1 (hblk.symm.trans hblk')
      rw [if_pos hlive, (passes_straight hbody _ _).1 hpass, flats_straight hbody,
        List.range'_append_1]
  · rintro rfl
    by_cases hlive : f.blocks[b].live
    · rw [if_pos hlive, ← List.range'_append_1]
      have : Through f fl b _ := .run hblk hlive ((passes_straight hbody _ _).2 rfl)
      rwa [flats_straight hbody] at this
    · rw [if_neg hlive]
      exact .skip hblk (by simpa using hlive)

/-! ## The search follows the paths -/

theorem pred_lt (hp : Pruned (flatten f) fl) (hfl : Laid fl) {p b : ℕ} (h : p ∈ fl.pred b) :
    p < f.blocks.length := by
  have := hfl.preds b p h
  rwa [show fl.ranges = layout 0 f.blocks from hp.ranges, layout_length] at this

/-- A path that comes from a definition comes from one that the search finds. -/
theorem reached_of_path (hp : Pruned (flatten f) fl) (hfl : Laid fl) (hs : Straight f)
    {b r d : ℕ} {xs us vs : List ℕ} (hpath : Path f fl b xs) (heq : xs = us ++ d :: vs)
    (hd : Defines fl r d) (hvs : ∀ v ∈ vs, assigned fl v ≠ some r) : Reached fl b r d := by
  induction hpath generalizing us vs with
  | here => simp at heq
  | @step p b xs ys hpred hpath hthrough ih =>
      have hys : ys = fl.range p := (through_straight hp hs (pred_lt hp hfl hpred)).1 hthrough
      rcases List.append_eq_append_iff.1 heq with ⟨ws, hus, hys'⟩ | ⟨ws, hxs, hvs'⟩
      · exact ⟨p, hpred, p, .refl, mem_scan_reverse.2 ⟨ws, vs, hys ▸ hys', hd, hvs⟩⟩
      · rcases ws with _ | ⟨d', ws⟩
        · exact ⟨p, hpred, p, .refl, mem_scan_reverse.2 ⟨[], vs, by rw [← hys]; exact hvs'.symm, hd,
            hvs⟩⟩
        · obtain ⟨rfl, rfl⟩ := List.cons.inj hvs'
          obtain ⟨a, ha, c, hlead, hc⟩ := ih hxs fun v hv => hvs v (List.mem_append_left _ hv)
          have hnext : chaseNext fl r p = fl.pred p := by
            rw [chaseNext, if_neg]
            rw [Bool.not_eq_true, scan_not_hit]
            exact fun v hv => hvs v (List.mem_append_right _ (hys ▸ List.mem_reverse.1 hv))
          exact ⟨p, hpred, c, .head (hnext ▸ ha) hlead, hc⟩

/-- What the search finds lies on a path. -/
theorem path_of_reached (hp : Pruned (flatten f) fl) (hfl : Laid fl) (hs : Straight f)
    {b r d : ℕ} (h : Reached fl b r d) : ∃ xs us vs, Path f fl b xs ∧ xs = us ++ d :: vs ∧
      Defines fl r d ∧ ∀ v ∈ vs, assigned fl v ≠ some r := by
  obtain ⟨a, ha, c, hlead, hc⟩ := h
  induction hlead using Relation.ReflTransGen.head_induction_on generalizing b with
  | refl =>
      obtain ⟨us, vs, heq, hd, hvs⟩ := mem_scan_reverse.1 hc
      have hthrough := (through_straight hp hs (pred_lt hp hfl ha)).2 rfl
      exact ⟨_, us, vs, .step ha .here hthrough, by rw [List.nil_append, heq], hd, hvs⟩
  | @head a a' hnext _ ih =>
      rw [chaseNext] at hnext
      split at hnext
      · cases hnext
      · rename_i hhit
        rw [Bool.not_eq_true, scan_not_hit] at hhit
        obtain ⟨xs, us, vs, hpath, rfl, hd, hvs⟩ := ih hnext
        have hthrough := (through_straight hp hs (pred_lt hp hfl ha)).2 rfl
        refine ⟨_, us, vs ++ fl.range a, .step ha hpath hthrough, by simp, hd, fun v hv => ?_⟩
        rcases List.mem_append.1 hv with hv | hv
        · exact hvs v hv
        · exact hhit v (List.mem_reverse.2 hv)

/-- **Where no block holds a conditional statement** the search finds what reaches the item. -/
theorem found_iff_reaches (hp : Pruned (flatten f) fl) (hfl : Laid fl) (hs : Straight f)
    {b i r d : ℕ} (hi : fl.blockOf[i]? = some b) : Found fl b i r d ↔ Reaches f fl i r d := by
  have hmem := (hfl.block i b).1 hi
  have hb : b < f.blocks.length := by
    by_contra hb
    rw [Flat.range, show fl.ranges = layout 0 f.blocks from hp.ranges,
      List.getD_eq_default _ _ (by rw [layout_length]; omega)] at hmem
    simp at hmem
  obtain ⟨hle, hlt⟩ := (mem_places _ _).1 hmem
  set start := (fl.ranges.getD b (0, 0)).1 with hstart
  set stop := (fl.ranges.getD b (0, 0)).2 with hstop
  have hrange : fl.range b = before fl b i ++ i :: List.range' (i + 1) (stop - (i + 1)) := by
    rw [Flat.range, places, before, ← hstart, ← hstop, ← List.range'_succ,
      show stop - start = (i - start) + (stop - (i + 1) + 1) by omega, ← List.range'_append_1,
      Nat.add_sub_cancel' hle]
  constructor
  · rintro (h | ⟨hhit, h⟩)
    · obtain ⟨us, vs, heq, hd, hvs⟩ := mem_scan_reverse.1 h
      exact ⟨b, [], before fl b i, _, us, vs, hi, .here,
        (through_straight hp hs hb).2 hrange.symm, heq, hd, hvs⟩
    · obtain ⟨xs, us, vs, hpath, rfl, hd, hvs⟩ := path_of_reached hp hfl hs h
      rw [scan_not_hit] at hhit
      refine ⟨b, _, before fl b i, _, us, vs ++ before fl b i, hi, hpath,
        (through_straight hp hs hb).2 hrange.symm, by simp, hd, fun v hv => ?_⟩
      rcases List.mem_append.1 hv with hv | hv
      · exact hvs v hv
      · exact hhit v (List.mem_reverse.2 hv)
  · rintro ⟨b', xs, before', rest, us, vs, hi', hpath, hthrough, heq, hd, hvs⟩
    obtain rfl : b = b' := Option.some_inj.1 (hi.symm.trans hi')
    obtain rfl : before' = before fl b i := by
      have hsplit := (through_straight hp hs hb).1 hthrough
      have hget : (fl.range b)[before'.length]? = some i := by
        rw [← hsplit, List.getElem?_append_right (le_refl _), Nat.sub_self, List.getElem?_cons_zero]
      obtain ⟨_, hget⟩ := List.getElem?_eq_some_iff.1 hget
      simp only [Flat.range, places, List.getElem_range'] at hget
      have hlen : before'.length = (before fl b i).length := by
        rw [before, List.length_range']
        omega
      exact (List.append_inj (hsplit.trans hrange) hlen).1
    rcases List.append_eq_append_iff.1 heq with ⟨ws, hus, hbefore⟩ | ⟨ws, hxs, hvs'⟩
    · exact .inl (mem_scan_reverse.2 ⟨ws, vs, hbefore, hd, hvs⟩)
    · rcases ws with _ | ⟨d', ws⟩
      · exact .inl (mem_scan_reverse.2 ⟨[], vs, hvs'.symm, hd, hvs⟩)
      · obtain ⟨rfl, rfl⟩ := List.cons.inj hvs'
        refine .inr ⟨scan_not_hit.2 fun v hv => ?_, ?_⟩
        · exact hvs v (List.mem_append_right _ (List.mem_reverse.1 hv))
        · exact reached_of_path hp hfl hs hpath hxs hd fun v hv =>
            hvs v (List.mem_append_left _ hv)

/-! ## The two analyses -/

/-- The states of the stamps: those at the start and those that queries leave. -/
inductive Asked : Seen → Prop
  | start : Asked (fun _ => 0, 0)
  | analyze {f powf fl closures seen a seen'} : Asked seen → flatBuild f powf = some fl →
      Probe.analyze fl closures seen = some (a, seen') → Asked seen'
  | chase {f powf fl i r seen out seen'} : Asked seen → flatBuild f powf = some fl →
      Probe.chase fl i r seen = some (out, seen') → Asked seen'

theorem Asked.ok {seen : Seen} (h : Asked seen) : Ok seen := by
  induction h with
  | start => exact ⟨fun _ => le_refl 0, Nat.two_pow_pos 32⟩
  | @analyze f powf _ closures _ _ _ _ hfl hrun ih =>
      obtain ⟨fl, hbuild, -, hlaid⟩ := flatBuild_spec f powf
      obtain rfl := Option.some_inj.1 (hbuild.symm.trans hfl)
      obtain ⟨_, _, hspec, hok, -⟩ := analyze_spec hlaid closures ih
      cases hspec.symm.trans hrun
      exact hok
  | @chase f powf _ i r _ _ _ _ hfl hrun ih =>
      obtain ⟨fl, hbuild, -, hlaid⟩ := flatBuild_spec f powf
      obtain rfl := Option.some_inj.1 (hbuild.symm.trans hfl)
      rcases hi : fl.blockOf[i]? with _ | b
      · rw [Probe.chase, hi] at hrun
        cases hrun
      · obtain ⟨_, _, hspec, hok, -⟩ := chase_spec hlaid r hi ih
        cases hspec.symm.trans hrun
        exact hok

theorem Found.defines {b i r d : ℕ} (h : Found fl b i r d) : Defines fl r d := by
  rcases h with h | ⟨-, a, -, c, -, h⟩
  · obtain ⟨_, _, _, hd, _⟩ := mem_scan.1 h
    exact hd
  · obtain ⟨_, _, _, hd, _⟩ := mem_scan.1 h
    exact hd

/-- **The two analyses agree** on the flat list of every function and after any queries.  They
end; what `analyze` gives an item defines registers that the item reads, and for each of these
the definitions are those that `chase` finds.  When no block holds a conditional statement they
are the ones that reach the item on a path of the pruned block graph. -/
theorem analyze_chase (f : Func) (powf : Double → Double → Double) :
    ∃ fl, flatBuild f powf = some fl ∧ ∀ closures seen, Asked seen →
      ∃ a seen', analyze fl closures seen = some (a, seen') ∧
        ∀ i it, fl.items[i]? = some it →
          (∀ d ∈ a.regDefs.getD i [], ∃ r ∈ regs it, Defines fl r d) ∧
          ∀ r ∈ regs it, ∀ seen, Asked seen →
            ∃ out seen', chase fl i r seen = some (out, seen') ∧
              (∀ d, d ∈ a.regDefs.getD i [] ∧ Defines fl r d ↔ d ∈ out) ∧
              (Straight f → ∀ d, d ∈ out ↔ Reaches f fl i r d) := by
  obtain ⟨fl, hbuild, hp, hlaid⟩ := flatBuild_spec f powf
  refine ⟨fl, hbuild, fun closures seen hseen => ?_⟩
  obtain ⟨a, seen', hrun, -, -, hdefs⟩ := analyze_spec hlaid closures hseen.ok
  refine ⟨a, seen', hrun, fun i it hit => ?_⟩
  have hlt := (List.getElem?_eq_some_iff.1 hit).1
  obtain ⟨b, hb⟩ : ∃ b, fl.blockOf[i]? = some b :=
    ⟨_, List.getElem?_eq_getElem (by rw [hlaid.owners]; exact hlt)⟩
  have hdefs := hdefs i it b hit hb
  refine ⟨fun d hd => ?_, fun r hr seen hseen => ?_⟩
  · obtain ⟨r, hr, hfound⟩ := (hdefs d).1 hd
    exact ⟨r, hr, hfound.defines⟩
  · obtain ⟨out, seen', hchase, -, hout⟩ := chase_spec hlaid r hb hseen.ok
    refine ⟨out, seen', hchase, fun d => ?_, fun hs d => ?_⟩
    · rw [hdefs, hout]
      constructor
      · rintro ⟨⟨r', -, hfound⟩, hd⟩
        rwa [hd.unique hfound.defines]
      · intro hfound
        exact ⟨⟨r, hr, hfound⟩, hfound.defines⟩
    · rw [hout]
      exact found_iff_reaches hp hlaid hs hb

/-- A block that assigns register 3, and one that goes back to itself and reads it. -/
def readsThree : Func where
  entry := 0
  start := 0
  blocks := [⟨0, [.setReg 3 (.bool true), .setProp (.reg 3) .null .null], .goto 1, true⟩,
    ⟨5, [.setProp (.reg 3) .null .null], .branch (.reg 3) true 1 2, true⟩,
    ⟨9, [.ret .undef], .exit, true⟩]

/-- The branch at the end of the second block reads the assignment and both property writes. -/
theorem analyze_chase_readsThree : ∃ fl, flatBuild readsThree (fun x _ => x) = some fl ∧
    ∃ a seen', analyze fl true (fun _ => 0, 0) = some (a, seen') ∧
      ∃ out seen'', chase fl 3 3 seen' = some (out, seen'') ∧
        (∀ d, d ∈ a.regDefs.getD 3 [] ∧ Defines fl 3 d ↔ d ∈ out) ∧
        ∀ d, d ∈ out ↔ Reaches readsThree fl 3 3 d := by
  obtain ⟨fl, hbuild, h⟩ := analyze_chase readsThree fun x _ => x
  obtain ⟨a, seen', hrun, hdefs⟩ := h true (fun _ => 0, 0) .start
  have hitem : fl.items[3]? = some (.c (.reg 3)) := by
    obtain ⟨fl', hbuild', hp, -⟩ := flatBuild_spec readsThree fun x _ => x
    obtain rfl := Option.some_inj.1 (hbuild.symm.trans hbuild')
    rw [hp.items]
    rfl
  obtain ⟨out, seen'', hchase, hout, hpaths⟩ := (hdefs 3 _ hitem).2 3
    (by simp [regs, itemExprs, walk]) seen' (.analyze .start hbuild hrun)
  refine ⟨fl, hbuild, a, seen', hrun, out, seen'', hchase, hout, hpaths ?_⟩
  intro b hb st hst c thn els heq
  simp only [readsThree, List.mem_cons, List.not_mem_nil, or_false] at hb
  rcases hb with rfl | rfl | rfl <;>
    simp only [List.mem_cons, List.not_mem_nil, or_false] at hst <;>
    rcases hst with rfl | rfl <;> cases heq

end Probe
end Lunar
