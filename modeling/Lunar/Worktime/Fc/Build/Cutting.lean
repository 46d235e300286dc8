/-
# The instructions are cut into blocks

The pass over the leaders puts every instruction into one block, begins a block at every
leader and nowhere else, and knows a bound of the registers of a block (`cutting_inv`).
With the edges and leaders that the first pass has found, the blocks cut the instruction
graph (`cut_blocks`).
-/

import Mathlib.Data.List.GetD
import Lunar.Lib.Cut
import Lunar.Worktime.Fc.Build.Scan

namespace Lunar
namespace Fc

open Lib (Cut)
open Worktime (Instr Op Operand)

/-! ## One instruction more in a block -/

theorem noteReg_spec (pc : ℕ) (b : BasicBlock) (rs : List ℕ) :
    (rs.foldl (.noteReg pc) b).toBlock = b.toBlock ∧ b.maxReg ≤ (rs.foldl (.noteReg pc) b).maxReg ∧
      ∀ r ∈ rs, r ≤ (rs.foldl (.noteReg pc) b).maxReg := by
  induction rs generalizing b with
  | nil => exact ⟨rfl, Nat.le_refl _, fun r hr => absurd hr List.not_mem_nil⟩
  | cons r rs ih =>
      obtain ⟨hblock, hmax, hall⟩ := ih (b.noteReg pc r)
      have hnote : (b.noteReg pc r).toBlock = b.toBlock ∧ b.maxReg ≤ (b.noteReg pc r).maxReg ∧
          r ≤ (b.noteReg pc r).maxReg := by
        rw [BasicBlock.noteReg]
        split
        · next hlt => exact ⟨rfl, hlt.le, Nat.le_refl r⟩
        · next hle => exact ⟨rfl, Nat.le_refl _, Nat.le_of_not_lt hle⟩
      refine ⟨hblock.trans hnote.1, hnote.2.1.trans hmax, fun r' hr' => ?_⟩
      rcases List.mem_cons.1 hr' with rfl | hr'
      · exact hnote.2.2.trans hmax
      · exact hall r' hr'

theorem add_spec (i : ℕ) (ins : Instr) (b : BasicBlock) :
    (b.add i ins).start = b.start ∧ (b.add i ins).stop = i + 1 ∧ b.maxReg ≤ (b.add i ins).maxReg ∧
      ∀ r ∈ regsOf ins, r ≤ (b.add i ins).maxReg := by
  obtain ⟨hblock, hmax, hall⟩ := noteReg_spec ins.pc
    { b with stop := i + 1 } (regsOf ins)
  have hstart := congrArg Block.start hblock
  have hstop := congrArg Block.stop hblock
  rw [BasicBlock.add]
  split
  · exact ⟨hstart, hstop, hmax, hall⟩
  · exact ⟨hstart, hstop, hmax, hall⟩

/-! ## The pass -/

/-- The block with a number. -/
abbrev Cutting.at_ (s : Cutting) (b : ℕ) : BasicBlock := s.blocks.getD b .empty

/-- What the pass has made of the first `k` instructions. -/
structure Cutting.Inv (instrs : List Instr) (lead : ℕ → Bool) (k : ℕ) (s : Cutting) : Prop where
  index : ∀ j < k, s.blockAt j < s.blocks.length
  mem : ∀ j < k, (s.at_ (s.blockAt j)).start ≤ j ∧ j < (s.at_ (s.blockAt j)).stop
  same : ∀ b < s.blocks.length, ∀ j, (s.at_ b).start ≤ j → j < (s.at_ b).stop →
    j < k ∧ s.blockAt j = b
  nonempty : ∀ b < s.blocks.length, (s.at_ b).start < (s.at_ b).stop
  last : ∀ b, b + 1 = s.blocks.length → (s.at_ b).stop = k
  some : 0 < k → 0 < s.blocks.length
  leads : ∀ j < k, lead j = true → (s.at_ (s.blockAt j)).start = j
  goes : ∀ j, j + 1 < k → lead (j + 1) = false → s.blockAt (j + 1) = s.blockAt j
  regs : ∀ j ins, j < k → instrs[j]? = .some ins → ∀ r ∈ regsOf ins,
    r ≤ (s.at_ (s.blockAt j)).maxReg
  three : ∀ b < s.blocks.length, 3 ≤ (s.at_ b).maxReg

theorem cutting_start (instrs : List Instr) (lead : ℕ → Bool) :
    Cutting.Inv instrs lead 0 ⟨[], fun _ => 0⟩ where
  index _ hj := absurd hj (Nat.not_lt_zero _)
  mem _ hj := absurd hj (Nat.not_lt_zero _)
  same _ hb := absurd hb (Nat.not_lt_zero _)
  nonempty _ hb := absurd hb (Nat.not_lt_zero _)
  last _ hb := absurd hb (Nat.succ_ne_zero _)
  some hk := absurd hk (Nat.lt_irrefl 0)
  leads _ hj := absurd hj (Nat.not_lt_zero _)
  goes _ hj := absurd hj (Nat.not_lt_zero _)
  regs _ _ hj := absurd hj (Nat.not_lt_zero _)
  three _ hb := absurd hb (Nat.not_lt_zero _)

/-- The `k`-th instruction goes into the last block `B`, which was `base` before. -/
theorem Cutting.Inv.extend {instrs : List Instr} {lead : ℕ → Bool} {k B : ℕ} {ins : Instr}
    {s s' : Cutting} {base : BasicBlock} (h : s.Inv instrs lead k) (hins : instrs[k]? = .some ins)
    (hlen : s'.blocks.length = B + 1) (hat : s'.blockAt = Function.update s.blockAt k B)
    (hother : ∀ b < B, s'.at_ b = s.at_ b) (hown : s'.at_ B = base.add k ins)
    (hlt : ∀ b < B, b < s.blocks.length) (hle : ∀ j < k, s.blockAt j ≤ B)
    (hstart : base.start ≤ k) (hin : ∀ j, base.start ≤ j → j < k → s.blockAt j = B)
    (hback : ∀ j < k, s.blockAt j = B → base = s.at_ B) (hthree : 3 ≤ base.maxReg)
    (hlead : lead k = true → base.start = k)
    (hgo : ∀ j, j + 1 = k → lead k = false → B = s.blockAt j) :
    s'.Inv instrs lead (k + 1) := by
  obtain ⟨hadd, hstop, hmax, hregs⟩ := add_spec k ins base
  have hatk : s'.blockAt k = B := by rw [hat, Function.update_self]
  have hatj : ∀ j < k, s'.blockAt j = s.blockAt j := fun j hj => by
    rw [hat, Function.update_of_ne hj.ne]
  -- the block of an instruction before: another block, or `base` grown
  have hold : ∀ j < k, s'.at_ (s'.blockAt j) = s.at_ (s.blockAt j) ∨
      s.at_ (s.blockAt j) = base ∧ s'.at_ (s'.blockAt j) = base.add k ins := by
    intro j hj
    rw [hatj j hj]
    rcases Nat.lt_or_eq_of_le (hle j hj) with hjB | hjB
    · exact .inl (hother _ hjB)
    · rw [hjB, ← hback j hj hjB]
      exact .inr ⟨rfl, hown⟩
  refine ⟨fun j hj => ?_, fun j hj => ?_, fun b hb j hsj hjs => ?_, fun b hb => ?_,
    fun b hb => ?_, fun _ => by omega, fun j hj hleadj => ?_, fun j hj hleadj => ?_,
    fun j ins' hj hins' r hr => ?_, fun b hb => ?_⟩
  · rw [hlen]
    rcases Nat.lt_succ_iff_lt_or_eq.1 hj with hj | rfl
    · rw [hatj j hj]
      exact Nat.lt_succ_of_le (hle j hj)
    · rw [hatk]
      exact Nat.lt_succ_self B
  · rcases Nat.lt_succ_iff_lt_or_eq.1 hj with hj | rfl
    · rcases hold j hj with heq | ⟨heq, heq'⟩
      · rw [heq]
        exact h.mem j hj
      · have hmem := h.mem j hj
        rw [heq] at hmem
        rw [heq', hadd, hstop]
        exact ⟨hmem.1, Nat.lt_succ_of_lt hj⟩
    · rw [hatk, hown, hadd, hstop]
      exact ⟨hstart, Nat.lt_succ_self j⟩
  · rw [hlen] at hb
    rcases Nat.lt_succ_iff_lt_or_eq.1 hb with hb | rfl
    · rw [hother b hb] at hsj hjs
      obtain ⟨hjk, hblock⟩ := h.same b (hlt b hb) j hsj hjs
      exact ⟨Nat.lt_succ_of_lt hjk, (hatj j hjk).trans hblock⟩
    · rw [hown, hadd] at hsj
      rw [hown, hstop] at hjs
      refine ⟨hjs, ?_⟩
      rcases Nat.lt_succ_iff_lt_or_eq.1 hjs with hjk | rfl
      · rw [hatj j hjk]
        exact hin j hsj hjk
      · exact hatk
  · rw [hlen] at hb
    rcases Nat.lt_succ_iff_lt_or_eq.1 hb with hb | rfl
    · rw [hother b hb]
      exact h.nonempty b (hlt b hb)
    · rw [hown, hadd, hstop]
      exact Nat.lt_succ_of_le hstart
  · have hbB : b = B := by omega
    rw [hbB, hown, hstop]
  · rcases Nat.lt_succ_iff_lt_or_eq.1 hj with hj | rfl
    · have hstartj := h.leads j hj hleadj
      rcases hold j hj with heq | ⟨heq, heq'⟩
      · rw [heq, hstartj]
      · rw [heq', hadd, ← heq, hstartj]
    · rw [hatk, hown, hadd]
      exact hlead hleadj
  · rcases Nat.lt_succ_iff_lt_or_eq.1 hj with hj | hjk
    · rw [hatj _ hj, hatj j (Nat.lt_of_succ_lt hj)]
      exact h.goes j hj hleadj
    · rw [hjk] at hleadj
      rw [hjk, hatk, hatj j (by omega)]
      exact hgo j hjk hleadj
  · rcases Nat.lt_succ_iff_lt_or_eq.1 hj with hj | rfl
    · have hle := h.regs j ins' hj hins' r hr
      rcases hold j hj with heq | ⟨heq, heq'⟩
      · rw [heq]
        exact hle
      · rw [heq] at hle
        rw [heq']
        exact hle.trans hmax
    · rw [hins] at hins'
      rw [hatk, hown]
      exact hregs r (Option.some_inj.1 hins' ▸ hr)
  · rw [hlen] at hb
    rcases Nat.lt_succ_iff_lt_or_eq.1 hb with hb | rfl
    · rw [hother b hb]
      exact h.three b (hlt b hb)
    · rw [hown]
      exact hthree.trans hmax

/-- A leader begins a block. -/
theorem Cutting.Inv.begins {instrs : List Instr} {lead : ℕ → Bool} {k : ℕ} {ins : Instr}
    {s : Cutting} (h : s.Inv instrs lead k) (hins : instrs[k]? = .some ins) (hlead : lead k = true) :
    (s.step lead (ins, k)).Inv instrs lead (k + 1) := by
  have hlen : (s.blocks ++ [BasicBlock.new k ins]).length - 1 = s.blocks.length := by
    rw [List.length_append, List.length_singleton, Nat.add_sub_cancel]
  have hblocks : (s.step lead (ins, k)).blocks =
      (s.blocks ++ [BasicBlock.new k ins]).modify s.blocks.length (.add k ins) := by
    rw [Cutting.step, hlead, if_pos rfl, hlen]
  have hat (b : ℕ) := Lib.Csr.getD_modify (s.blocks ++ [BasicBlock.new k ins]) .empty
    s.blocks.length b (.add k ins) (by rw [List.length_append, List.length_singleton]; omega)
  refine @extend _ _ _ s.blocks.length _ _ _ (.new k ins) h hins ?_ ?_ (fun b hb => ?_) ?_
    (fun b hb => hb) (fun j hj => (h.index j hj).le) (Nat.le_refl k)
    (fun j hkj hjk => absurd hkj (Nat.not_le_of_lt hjk))
    (fun j hj heq => absurd heq (h.index j hj).ne) (Nat.le_refl 3) (fun _ => rfl)
    (fun j _ hno => absurd (hlead.symm.trans hno) nofun)
  · rw [hblocks, List.length_modify, List.length_append, List.length_singleton]
  · rw [Cutting.step, hlead, if_pos rfl, hlen]
  · rw [Cutting.at_, hblocks, hat, if_neg hb.ne', List.getD_append _ _ _ _ hb]
  · rw [Cutting.at_, hblocks, hat, if_pos rfl, List.getD_append_right _ _ _ _ (Nat.le_refl _),
      Nat.sub_self]
    rfl

/-- Another instruction goes into the last block. -/
theorem Cutting.Inv.goesOn {instrs : List Instr} {lead : ℕ → Bool} {k : ℕ} {ins : Instr}
    {s : Cutting} (h : s.Inv instrs lead k) (hins : instrs[k]? = .some ins) (hpos : 0 < k)
    (hlead : lead k = false) : (s.step lead (ins, k)).Inv instrs lead (k + 1) := by
  obtain ⟨B, hB⟩ := Nat.exists_eq_succ_of_ne_zero (Nat.ne_of_gt (h.some hpos))
  have hblocks : (s.step lead (ins, k)).blocks = s.blocks.modify B (.add k ins) := by
    rw [Cutting.step, hlead, if_neg Bool.false_ne_true, hB, Nat.succ_sub_one]
  have hat (b : ℕ) := Lib.Csr.getD_modify s.blocks .empty B b (.add k ins) (by omega)
  have hnonempty := h.nonempty B (by omega)
  have hlast := h.last B hB.symm
  refine @extend _ _ _ B _ _ _ (s.at_ B) h hins ?_ ?_ (fun b hb => ?_) ?_ (fun b hb => by omega)
    (fun j hj => ?_) (hlast ▸ hnonempty.le) (fun j hsj hjk => ?_) (fun _ _ _ => rfl)
    (h.three B (by omega)) (fun htrue => absurd (hlead.symm.trans htrue) nofun)
    (fun j hjk _ => ?_)
  · rw [hblocks, List.length_modify, hB]
  · rw [Cutting.step, hlead, if_neg Bool.false_ne_true, hB, Nat.succ_sub_one]
  · rw [Cutting.at_, hblocks, hat, if_neg hb.ne']
  · rw [Cutting.at_, hblocks, hat, if_pos rfl]
  · have hlt := h.index j hj
    omega
  · exact (h.same B (by omega) j hsj (hlast ▸ hjk)).2
  · exact (h.same B (by omega) j (by omega) (by omega)).2.symm

/-- **What the pass makes of the instructions.** -/
theorem cutting_inv {instrs : List Instr} {lead : ℕ → Bool} (hlead : lead 0 = true) :
    Cutting.Inv instrs lead instrs.length
      (instrs.zipIdx.foldl (Cutting.step lead) ⟨[], fun _ => 0⟩) := by
  refine Lib.foldl_zipIdx (P := Cutting.Inv instrs lead) (fun k ins s hins h => ?_)
    (cutting_start instrs lead)
  cases hk : lead k with
  | true => exact h.begins hins hk
  | false =>
      have hpos : 0 < k := by
        rcases Nat.eq_zero_or_pos k with rfl | hpos
        · exact absurd (hlead.symm.trans hk) nofun
        · exact hpos
      exact h.goesOn hins hpos hk

/-! ## The blocks cut the instruction graph -/

/-- The edges of the blocks. -/
def BlockNext (blocks : List BasicBlock) (k l : ℕ) : Prop :=
  ∃ b, blocks[k]? = some b ∧ (b.succ.1 = some l ∨ b.succ.2 = some l)

/-- **The blocks cut the instruction graph.** -/
theorem cut_blocks {instrs : List Instr} {s : Scan} {c : Cutting}
    (hs : s.Inv instrs instrs.length) (hc : c.Inv instrs s.lead instrs.length) :
    Cut instrs.length (Flows instrs) c.blockAt (fun b => (c.at_ b).start)
      (fun b => (c.at_ b).stop) (BlockNext (c.blocks.map (.link s.succ c.blockAt))) where
  mem := hc.mem
  same i hi j := hc.same _ (hc.index i hi) j
  range i j h := by
    obtain ⟨ins, e, hins, hedge, hj⟩ := h
    exact ⟨(List.getElem?_eq_some_iff.1 hins).1, edge_lt hedge hj⟩
  inside i j hi hlt := by
    -- the next instruction is in the block, so it is no leader, and the edge falls through
    obtain ⟨hstart, -⟩ := hc.mem i hi
    obtain ⟨hnext, hblock⟩ := hc.same _ (hc.index i hi) (i + 1) (by omega) hlt
    have hno : ¬ s.lead (i + 1) = true := by
      intro hlead
      have hfirst := hc.leads (i + 1) hnext hlead
      rw [hblock] at hfirst
      omega
    have hafter : after instrs i = some (i + 1) := after_eq_some.2 ⟨rfl, hnext⟩
    obtain ⟨e, hget, -, hcuts⟩ := hs.edges i _ hi (List.getElem?_eq_getElem hi)
    have hfall : e = (some (i + 1), none) := by
      rcases hcuts with heq | hall
      · rw [heq, hafter]
      · exact absurd (hall (i + 1) (.inr (.inr hafter))) hno
    rw [hs.flows_iff]
    constructor
    · rintro ⟨e', hget', hj⟩
      rw [hget] at hget'
      rw [← Option.some_inj.1 hget', hfall] at hj
      rcases hj with hj | hj
      · exact (Option.some_inj.1 hj).symm
      · cases hj
    · rintro rfl
      exact ⟨e, hget, .inl (by rw [hfall])⟩
  first i j h hstop := by
    obtain ⟨ins, e, hins, hedge, hj⟩ := h
    have hi : i < instrs.length := (List.getElem?_eq_some_iff.1 hins).1
    have hjlt := edge_lt hedge hj
    obtain ⟨e', -, hedge', hcuts⟩ := hs.edges i ins hi hins
    rw [hedge] at hedge'
    rw [← Except.ok.inj hedge'] at hcuts
    refine hc.leads j hjlt ?_
    rcases hcuts with heq | hall
    · -- the fall-through leaves the block, so the next instruction is a leader
      have hafter : after instrs i = some j := by
        rw [heq] at hj
        rcases hj with hj | hj
        · exact hj
        · cases hj
      obtain ⟨rfl, -⟩ := after_eq_some.1 hafter
      by_contra hno
      have hgoes := hc.goes i hjlt (Bool.eq_false_of_not_eq_true hno)
      have hmem := (hc.mem (i + 1) hjlt).2
      rw [hgoes] at hmem
      omega
    · exact hall j (hj.imp_right .inl)
  next i l hi hstop := by
    have hindex := hc.index i hi
    have hget : (c.blocks.map (.link s.succ c.blockAt))[c.blockAt i]? =
        some ((c.at_ (c.blockAt i)).link s.succ c.blockAt) := by
      rw [List.getElem?_map, List.getElem?_eq_getElem hindex, Cutting.at_,
        List.getD_eq_getElem _ _ hindex]
      rfl
    have hlast : (c.at_ (c.blockAt i)).stop - 1 = i := by omega
    obtain ⟨e, he, -, -⟩ := hs.edges i _ hi (List.getElem?_eq_getElem hi)
    have hgetD : s.succ.getD i (none, none) = e := by
      rw [List.getD_eq_getElem?_getD, he]
      rfl
    have hsucc : ((c.at_ (c.blockAt i)).link s.succ c.blockAt).succ =
        (e.1.map c.blockAt, e.2.map c.blockAt) := by
      rw [BasicBlock.link, hlast, hgetD]
    rw [BlockNext, hget]
    constructor
    · rintro ⟨b, hb, hl⟩
      rw [← Option.some_inj.1 hb, hsucc] at hl
      rcases hl with hl | hl
      · obtain ⟨j, hj, hjl⟩ := Option.map_eq_some_iff.1 hl
        exact ⟨j, hs.flows_iff.2 ⟨e, he, .inl hj⟩, hjl⟩
      · obtain ⟨j, hj, hjl⟩ := Option.map_eq_some_iff.1 hl
        exact ⟨j, hs.flows_iff.2 ⟨e, he, .inr hj⟩, hjl⟩
    · rintro ⟨j, hflow, rfl⟩
      obtain ⟨e', he', hj⟩ := hs.flows_iff.1 hflow
      rw [he] at he'
      rw [← Option.some_inj.1 he'] at hj
      refine ⟨_, rfl, ?_⟩
      rw [hsucc]
      exact hj.imp (fun hj => by rw [hj]; rfl) fun hj => by rw [hj]; rfl

end Fc
end Lunar
