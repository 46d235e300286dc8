/-
# The build preserves control flow

A program that is built has well-formed tables (`Program.Wf`), its blocks partition the
instructions, and the paths between the instructions of a function are those between its
blocks (`build_preserves`).  The blocks cut the instruction graph (`cut_blocks`), a
function's blocks are a part of their graph that its edges do not leave, numbered anew
(`transGen_local`).
-/

import Lunar.Worktime.Fc.Build.Functions
import Lunar.Worktime.Fc.Known

namespace Lunar
namespace Fc

open Lib (Reach)
open Relation (TransGen)
open Worktime (Instr Op Operand PoolRef PowKeys)

/-! ## Where closures are put -/

/-- The variables, the keys and the functions are in range. -/
structure Holders.In (p : Holders) (nvars nnames nfuncs : ℕ) : Prop where
  vars : ∀ q ∈ p.vars, PairIn nvars nfuncs q
  methods : ∀ q ∈ p.methods, PairIn nnames nfuncs q

section Holders

variable {instrs : List Instr} {s : Scan} {nfuncs : ℕ}

theorem Holders.In.addVar {p : Holders} {nvars nnames : ℕ} (h : p.In nvars nnames nfuncs)
    {q : ℕ × ℕ} (hq : PairIn nvars nfuncs q) :
    ({ p with vars := p.vars ++ [q] } : Holders).In nvars nnames nfuncs :=
  ⟨List.forall_mem_append.2 ⟨h.vars, by rw [List.forall_mem_singleton]; exact hq⟩, h.methods⟩

theorem Holders.In.addMethod {p : Holders} {nvars nnames : ℕ} (h : p.In nvars nnames nfuncs)
    {q : ℕ × ℕ} (hq : PairIn nnames nfuncs q) :
    ({ p with methods := p.methods ++ [q] } : Holders).In nvars nnames nfuncs :=
  ⟨h.vars, List.forall_mem_append.2 ⟨h.methods, by rw [List.forall_mem_singleton]; exact hq⟩⟩

theorem assign_in {p : Holders} {cur : Instr} {reg : Operand} {f : ℕ}
    (hvars : VarsIn instrs s.nvars) (hcur : cur ∈ instrs) (hnames : NamesVar cur.op)
    (hf : f < nfuncs) (h : p.In s.nvars s.names.length nfuncs) :
    (match cur.arg 0 with
      | .int id =>
        if cur.arg 1 = reg ∧ 0 ≤ id then { p with vars := p.vars ++ [(id.toNat, f)] } else p
      | _ => p : Holders).In s.nvars s.names.length nfuncs := by
  split
  · next id hid =>
      split
      · next hc => exact h.addVar ⟨hvars cur hcur hnames id hid hc.2, hf⟩
      · exact h
  · exact h

theorem add_in {p : Holders} {cur : Instr} {reg : Operand} {j f : ℕ}
    (hvars : VarsIn instrs s.nvars) (hcur : cur ∈ instrs) (hf : f < nfuncs)
    (h : p.In s.nvars s.names.length nfuncs) :
    (p.add s j cur reg f).In s.nvars s.names.length nfuncs := by
  rw [Holders.add]
  split
  · next hop => exact assign_in hvars hcur (.inr (.inl hop)) hf h
  · next hop => exact assign_in hvars hcur (.inr (.inr (.inl hop))) hf h
  · split
    · split
      · next k hk =>
          split
          · exact h
          · exact h
          · next name hno hname =>
              exact h.addMethod ⟨(List.getElem?_eq_some_iff.1 hname).1, hf⟩
      · exact h
    · exact h
  · exact h

theorem follow_in (hvars : VarsIn instrs s.nvars) {r f : ℕ} (hf : f < nfuncs) (steps : ℕ)
    {j : Option ℕ} {p : Holders} (h : p.In s.nvars s.names.length nfuncs) :
    (follow instrs s r f steps j p).In s.nvars s.names.length nfuncs := by
  induction steps generalizing j p with
  | zero => exact h
  | succ steps ih =>
      cases j with
      | none => exact h
      | some j =>
          rw [follow]
          split
          · exact h
          · next cur hcur =>
              split
              · exact add_in hvars (List.mem_of_getElem? hcur) hf h
              split
              · exact h
              split
              · exact ih h
              · exact ih h
              · exact h

end Holders

/-- **The functions that variables and keys hold** are functions. -/
theorem held_in {instrs : List Instr} {s : Scan} (hs : s.Inv instrs instrs.length)
    (hvars : VarsIn instrs s.nvars) {varPairs : List (ℕ × ℕ)}
    (hpairs : ∀ q ∈ varPairs, PairIn s.nvars s.entries.length q) :
    (instrs.zipIdx.foldl (Holders.step instrs s) ⟨varPairs, []⟩).In s.nvars s.names.length
      s.entries.length := by
  refine Lib.foldl_zipIdx
    (P := fun _ p => Holders.In p s.nvars s.names.length s.entries.length)
    (fun i ins p hins h => ?_) ⟨hpairs, fun _ hq => absurd hq List.not_mem_nil⟩
  rw [Holders.step]
  split
  · next r a hop hdest haux =>
      exact follow_in hvars ((hs.holds i ins a (List.getElem?_eq_some_iff.1 hins).1 hins
        haux).closure hop) BIND_SCAN h
  · exact h

/-! ## What is preserved -/

/-- An instruction is in a block. -/
def InBlock (p : Program) (k i : ℕ) : Prop :=
  ∃ b, p.blocks[k]? = some b ∧ b.start ≤ i ∧ i < b.stop

/-- An instruction is in the block of a function at a place. -/
def InFunc (p : Program) (func : Func) (k i : ℕ) : Prop :=
  k < func.count ∧ ∃ b, p.fblocks[func.first + k]? = some b ∧ InBlock p b i

/-- The edges of the blocks of a function, by their places. -/
def FuncNext (p : Program) (func : Func) (k l : ℕ) : Prop :=
  k < func.count ∧ ∃ e, p.fsucc[func.first + k]? = some e ∧ (e.1 = some l ∨ e.2 = some l)

/-- The offsets of a table of items increase and stay inside it. -/
def Offsets (off items : List ℕ) (keys : ℕ) : Prop :=
  off.length = keys + 1 ∧
    ∀ k < keys, off.getD k 0 ≤ off.getD (k + 1) 0 ∧ off.getD (k + 1) 0 ≤ items.length

/-- The control flow of the instructions is that of the program that is built. -/
structure Preserved (instrs : List Instr) (built : Built) : Prop where
  code : built.program.instrs = instrs
  /-- Every instruction is in one block. -/
  partition : ∀ i < instrs.length, ∃! k, InBlock built.program k i
  /-- Blocks are ranges of instructions. -/
  ranges : ∀ b ∈ built.program.blocks, b.start < b.stop ∧ b.stop ≤ instrs.length
  /-- An edge falls through inside a block, or it goes from the last instruction of a block
  to the first of a block, along an edge of the blocks. -/
  edges : ∀ i j, Flows instrs i j →
    (j = i + 1 ∧ ∃ k, InBlock built.program k i ∧ InBlock built.program k j) ∨
      ∃ k l b c, built.program.blocks[k]? = some b ∧ built.program.blocks[l]? = some c ∧
        b.stop = i + 1 ∧ c.start = j ∧ BlockNext built.basic k l
  /-- An edge of the blocks is one from the last instruction to the first. -/
  ends : ∀ k l, BlockNext built.basic k l →
    ∃ b c, built.program.blocks[k]? = some b ∧ built.program.blocks[l]? = some c ∧
      Flows instrs (b.stop - 1) c.start
  /-- The tables fit together. -/
  wf : built.program.Wf
  /-- A function has registers for every operand of its instructions, and four at least. -/
  registers : ∀ func ∈ built.program.funcs, 4 ≤ func.nregs ∧
    ∀ k i ins, InFunc built.program func k i → instrs[i]? = some ins →
      ∀ r ∈ regsOf ins, r < func.nregs
  /-- The offsets of the functions that variables and keys hold are in range. -/
  vars : Offsets built.program.varOff built.program.varItems built.program.nvars
  methods : Offsets built.program.methodOff built.program.methodItems built.program.names.length
  sites : built.program.siteLen.length = built.program.nallocs
  /-- The instructions of a function are those that its entry leads to. -/
  members : ∀ func ∈ built.program.funcs, ∃ entry, InFunc built.program func func.entry entry ∧
    ∀ i, (∃ k, InFunc built.program func k i) ↔ Reach (Flows instrs) entry i
  /-- The paths between the instructions of a function are those between its blocks. -/
  paths : ∀ func ∈ built.program.funcs, ∀ k l a b, InFunc built.program func k a →
    InFunc built.program func l b →
      (Reach (Flows instrs) a b ↔ (k = l ∧ a ≤ b) ∨ TransGen (FuncNext built.program func) k l)

/-! ## The passes together -/

/-- What the passes of the build have found. -/
structure Stages (instrs : List Instr) (built : Built) (s : Scan) (c : Cutting) (fs : Functions)
    (holders : Holders) : Prop where
  scan : s.Inv instrs instrs.length
  cut : c.Inv instrs s.lead instrs.length
  funcs : fs.Inv built.basic c.blockAt s.entries s.nvars s.entries.length
  held : holders.In s.nvars s.names.length s.entries.length
  basic : built.basic = c.blocks.map (.link s.succ c.blockAt)
  instrs : built.program.instrs = instrs
  blocks : built.program.blocks = built.basic.map BasicBlock.toBlock
  aux : built.program.aux = s.aux
  names : built.program.names = s.names
  fblocks : built.program.fblocks = fs.fblocks
  fsucc : built.program.fsucc = fs.fsucc
  func : built.program.funcs = fs.funcs
  nvars : built.program.nvars = s.nvars
  nallocs : built.program.nallocs = s.nallocs
  siteLen : built.program.siteLen = s.siteLen
  vars : (built.program.varOff, built.program.varItems) = Lib.Csr.csr 0 holders.vars s.nvars
  methods : (built.program.methodOff, built.program.methodItems) =
    Lib.Csr.csr 0 holders.methods s.names.length

/-- Edges of the blocks go from one block to another. -/
theorem linked {instrs : List Instr} {s : Scan} {c : Cutting} (hs : s.Inv instrs instrs.length)
    (hc : c.Inv instrs s.lead instrs.length) {k l : ℕ}
    (h : BlockNext (c.blocks.map (.link s.succ c.blockAt)) k l) :
    k < c.blocks.length ∧ ∃ j, Flows instrs ((c.at_ k).stop - 1) j ∧ c.blockAt j = l ∧
      (c.at_ l).start = j := by
  have hk : k < c.blocks.length := by
    obtain ⟨b, hb, -⟩ := h
    have hlt := (List.getElem?_eq_some_iff.1 hb).1
    rwa [List.length_map] at hlt
  have hlt := hc.nonempty k hk
  obtain ⟨hi, hblock⟩ := hc.same k hk ((c.at_ k).stop - 1) (by omega) (by omega)
  have hcut := cut_blocks hs hc
  have hstop : (c.at_ k).stop - 1 + 1 = (c.at_ (c.blockAt ((c.at_ k).stop - 1))).stop := by
    rw [hblock]
    omega
  obtain ⟨j, hflow, rfl⟩ := (hcut.next _ l hi hstop).1 (by rw [hblock]; exact h)
  exact ⟨hk, j, hflow, rfl, hcut.first _ j hflow hstop⟩

theorem vars_in {instrs : List Instr} {s : Scan} (hs : s.Inv instrs instrs.length) :
    VarsIn instrs s.nvars := by
  intro ins hins
  obtain ⟨i, hi, rfl⟩ := List.mem_iff_getElem.1 hins
  have ha := List.getElem?_eq_getElem (hs.aux ▸ hi : i < s.aux.length)
  exact (hs.holds i _ _ hi (List.getElem?_eq_getElem hi) ha).vars

theorem build_stages {instrs : List Instr} {pool : List UInt16} {keys : PowKeys} {built : Built}
    (h : build instrs pool keys = .ok built) : ∃ s c fs held, Stages instrs built s c fs held := by
  rw [build] at h
  by_cases hne : instrs = []
  · rw [if_pos hne] at h
    cases h
  rw [if_neg hne] at h
  by_cases hlarge : MAX_INSTRS ≤ instrs.length
  · rw [if_pos hlarge] at h
    cases h
  rw [if_neg hlarge] at h
  obtain ⟨s, hs, h⟩ := Lib.bind_ok h
  obtain ⟨fs, hfs, h⟩ := Lib.bind_ok h
  have hinv := scan_inv hne hs
  have hcut := @cutting_inv instrs _ hinv.zero
  generalize instrs.zipIdx.foldl (Cutting.step s.lead) ⟨[], fun _ => 0⟩ = c at hcut hfs h
  have hfuncs := functions_ok (vars_in hinv) (fun k l hkl => ?_) (fun e he => ?_) hfs
  · have hheld := held_in hinv (vars_in hinv) hfuncs.pairs
    rw [← Except.ok.inj h]
    exact ⟨s, c, fs, _, hinv, hcut, hfuncs, hheld, rfl, rfl, rfl, rfl, rfl, rfl, rfl, rfl, rfl, rfl,
      rfl, rfl, rfl⟩
  · obtain ⟨-, j, hflow, rfl, -⟩ := linked hinv hcut hkl
    rw [List.length_map]
    exact hcut.index j ((cut_blocks hinv hcut).range _ j hflow).2
  · rw [List.length_map]
    exact hcut.index e (hinv.entries e he).1

namespace Stages

variable {instrs : List Instr} {built : Built} {s : Scan} {c : Cutting} {fs : Functions}
  {holders : Holders}

theorem block_get (h : Stages instrs built s c fs holders) {k : ℕ} (hk : k < c.blocks.length) :
    built.program.blocks[k]? = some (c.at_ k).toBlock := by
  rw [h.blocks, h.basic, List.getElem?_map, List.getElem?_map, List.getElem?_eq_getElem hk,
    Cutting.at_, List.getD_eq_getElem _ _ hk]
  rfl

theorem blocks_length (h : Stages instrs built s c fs holders) :
    built.program.blocks.length = c.blocks.length := by
  rw [h.blocks, h.basic, List.length_map, List.length_map]

theorem basic_length (h : Stages instrs built s c fs holders) :
    built.basic.length = c.blocks.length := by rw [h.basic, List.length_map]

/-- An instruction is in the block that the cutting has put it in. -/
theorem inBlock_iff (h : Stages instrs built s c fs holders) {k i : ℕ} :
    InBlock built.program k i ↔ i < instrs.length ∧ c.blockAt i = k := by
  constructor
  · rintro ⟨b, hb, hstart, hstop⟩
    have hk : k < c.blocks.length := h.blocks_length ▸ (List.getElem?_eq_some_iff.1 hb).1
    rw [h.block_get hk] at hb
    rw [← Option.some_inj.1 hb] at hstart hstop
    exact h.cut.same k hk i hstart hstop
  · rintro ⟨hi, rfl⟩
    exact ⟨_, h.block_get (h.cut.index i hi), h.cut.mem i hi⟩

theorem cuts (h : Stages instrs built s c fs holders) :
    Lib.Cut instrs.length (Flows instrs) c.blockAt (fun b => (c.at_ b).start)
      (fun b => (c.at_ b).stop) (BlockNext built.basic) := by
  rw [h.basic]
  exact cut_blocks h.scan h.cut

/-- Every function stands in the tables, at the block of its entry. -/
theorem placed (h : Stages instrs built s c fs holders) {func : Func}
    (hfunc : func ∈ built.program.funcs) : ∃ entry own, entry < instrs.length ∧
      (c.at_ (c.blockAt entry)).start = entry ∧
      Placed built.basic built.program.fblocks built.program.fsucc (c.blockAt entry) func own := by
  rw [h.func] at hfunc
  obtain ⟨i, hi⟩ := List.mem_iff_getElem?.1 hfunc
  obtain ⟨entry, own, hentry, hplaced⟩ := h.funcs.placed i func hi
  obtain ⟨hlt, hlead⟩ := h.scan.entries entry (List.mem_of_getElem? hentry)
  rw [h.fblocks, h.fsucc]
  exact ⟨entry, own, hlt, h.cut.leads entry hlt hlead, hplaced⟩

end Stages

theorem slice_get {α : Type} {xs pre own post : List α} {first : ℕ} (h : xs = pre ++ own ++ post)
    (hpre : pre.length = first) {k : ℕ} (hk : k < own.length) : xs[first + k]? = own[k]? := by
  rw [h, List.append_assoc, List.getElem?_append_right (by omega),
    List.getElem?_append_left (by omega)]
  congr 1
  omega

namespace Placed

variable {blocks : List BasicBlock} {p : Program} {eb : ℕ} {func : Func} {own : List ℕ}

theorem fblocks_get (h : Placed blocks p.fblocks p.fsucc eb func own) {k : ℕ}
    (hk : k < own.length) : p.fblocks[func.first + k]? = some own[k] := by
  obtain ⟨pre, post, heq, hlen⟩ := h.fblocks
  rw [slice_get heq hlen hk, List.getElem?_eq_getElem hk]

theorem fsucc_get (h : Placed blocks p.fblocks p.fsucc eb func own) {k : ℕ}
    (hk : k < own.length) : p.fsucc[func.first + k]? = some (localEdge blocks own own[k]) := by
  obtain ⟨pre, post, heq, hlen⟩ := h.fsucc
  rw [slice_get heq hlen (by rwa [List.length_map]), List.getElem?_map,
    List.getElem?_eq_getElem hk]
  rfl

theorem closed (h : Placed blocks p.fblocks p.fsucc eb func own) :
    ∀ k l, k ∈ own → BlockNext blocks k l → l ∈ own :=
  fun k l hk hkl => (h.members l).2 (((h.members k).1 hk).tail hkl)

/-- An edge of the function's blocks is one of the blocks, to a block of the function. -/
theorem funcNext_iff (h : Placed blocks p.fblocks p.fsucc eb func own) {k l : ℕ}
    (hk : k < own.length) :
    FuncNext p func k l ↔ ∃ t ∈ own, BlockNext blocks own[k] t ∧ own.idxOf t = l := by
  have hnext (t : ℕ) := blockNext_iff (l := t) (h.bound _ (List.getElem_mem hk))
  have hown (t : ℕ) (ht : BlockNext blocks own[k] t) := h.closed _ t (List.getElem_mem hk) ht
  rw [FuncNext, h.fsucc_get hk]
  constructor
  · rintro ⟨-, e, he, hl⟩
    rw [← Option.some_inj.1 he] at hl
    rcases hl with hl | hl
    · obtain ⟨t, ht, rfl⟩ := Option.map_eq_some_iff.1 hl
      have htk := (hnext t).2 (.inl ht)
      exact ⟨t, hown t htk, htk, rfl⟩
    · obtain ⟨t, ht, rfl⟩ := Option.map_eq_some_iff.1 hl
      have htk := (hnext t).2 (.inr ht)
      exact ⟨t, hown t htk, htk, rfl⟩
  · rintro ⟨t, -, htk, rfl⟩
    refine ⟨h.count ▸ hk, _, rfl, ?_⟩
    exact ((hnext t).1 htk).imp (fun ht => Option.map_eq_some_iff.2 ⟨t, ht, rfl⟩)
      fun ht => Option.map_eq_some_iff.2 ⟨t, ht, rfl⟩

theorem funcNext_lt (h : Placed blocks p.fblocks p.fsucc eb func own) {k l : ℕ}
    (hk : k < own.length) (hkl : FuncNext p func k l) : l < own.length := by
  obtain ⟨t, ht, -, rfl⟩ := (h.funcNext_iff hk).1 hkl
  exact List.idxOf_lt_length_iff.2 ht

/-- **The paths of a function's blocks** are those of the blocks. -/
theorem paths_iff (h : Placed blocks p.fblocks p.fsucc eb func own) {k l : ℕ}
    (hk : k < own.length) (hl : l < own.length) :
    TransGen (FuncNext p func) k l ↔ TransGen (BlockNext blocks) own[k] own[l] := by
  refine Lib.transGen_local h.nodup h.closed (fun k l hk hkl => h.funcNext_lt hk hkl)
    (fun k l hk hl => ?_) hk hl
  rw [h.funcNext_iff hk]
  constructor
  · rintro ⟨t, ht, htk, hidx⟩
    have heq : own[l] = t := by
      subst hidx
      exact List.getElem_idxOf _
    rw [heq]
    exact htk
  · exact fun hkl => ⟨own[l], List.getElem_mem hl, hkl, h.nodup.idxOf_getElem l hl⟩

end Placed

/-! ## The parts of the claim -/

namespace Stages

variable {instrs : List Instr} {built : Built} {s : Scan} {c : Cutting} {fs : Functions}
  {holders : Holders}

theorem inFunc_iff (h : Stages instrs built s c fs holders) {eb : ℕ} {func : Func} {own : List ℕ}
    (hp : Placed built.basic built.program.fblocks built.program.fsucc eb func own) {k i : ℕ} :
    InFunc built.program func k i ↔
      i < instrs.length ∧ ∃ hk : k < own.length, c.blockAt i = own[k] := by
  rw [InFunc, ← hp.count]
  constructor
  · rintro ⟨hk, b, hb, hblock⟩
    rw [hp.fblocks_get hk] at hb
    obtain ⟨hi, hat⟩ := h.inBlock_iff.1 hblock
    exact ⟨hi, hk, hat.trans (Option.some_inj.1 hb).symm⟩
  · rintro ⟨hi, hk, hat⟩
    exact ⟨hk, own[k], hp.fblocks_get hk, h.inBlock_iff.2 ⟨hi, hat⟩⟩

theorem wf (h : Stages instrs built s c fs holders) : built.program.Wf where
  aux := by rw [h.aux, h.instrs, h.scan.aux]
  key {a k} ha hk := by
    rw [h.aux] at ha
    rw [h.names]
    obtain ⟨i, hi⟩ := List.mem_iff_getElem?.1 ha
    have hlt : i < instrs.length := h.scan.aux ▸ (List.getElem?_eq_some_iff.1 hi).1
    exact (h.scan.holds i _ a hlt (List.getElem?_eq_getElem hlt) hi).key k hk
  closure {i ins a} hins ha hop := by
    rw [h.instrs] at hins
    rw [h.aux] at ha
    rw [h.func, h.funcs.count]
    exact (h.scan.holds i ins a (List.getElem?_eq_some_iff.1 hins).1 hins ha).closure hop
  array {i ins a} hins ha hop := by
    rw [h.instrs] at hins
    rw [h.aux] at ha
    rw [h.nallocs]
    exact (h.scan.holds i ins a (List.getElem?_eq_some_iff.1 hins).1 hins ha).array hop
  blocks {b} hb := by
    obtain ⟨k, hk⟩ := List.mem_iff_getElem?.1 hb
    have hlt : k < c.blocks.length := h.blocks_length ▸ (List.getElem?_eq_some_iff.1 hk).1
    rw [h.block_get hlt] at hk
    rw [← Option.some_inj.1 hk, h.instrs]
    have hne := h.cut.nonempty k hlt
    have hlast := (h.cut.same k hlt ((c.at_ k).stop - 1) (by omega) (by omega)).1
    show (c.at_ k).stop ≤ instrs.length
    omega
  fblocks {b} hb := by
    rw [h.fblocks] at hb
    rw [h.blocks_length, ← h.basic_length]
    exact h.funcs.bound b hb
  fsucc := by rw [h.fsucc, h.fblocks, h.funcs.lengths]
  funcs {func} hfunc := by
    obtain ⟨_, own, -, -, hp⟩ := h.placed hfunc
    obtain ⟨pre, post, heq, hlen⟩ := hp.fblocks
    rw [heq, ← hp.count, List.length_append, List.length_append]
    omega
  entry {func} hfunc := by
    obtain ⟨_, own, -, -, hp⟩ := h.placed hfunc
    rw [← hp.count]
    exact (List.getElem?_eq_some_iff.1 hp.entry).1
  succ {func b e} hfunc hb he k hk := by
    obtain ⟨_, own, -, -, hp⟩ := h.placed hfunc
    have hb' : b < own.length := hp.count ▸ hb
    rw [← hp.count]
    exact hp.funcNext_lt hb' ⟨hb, e, he, hk⟩
  varItems {f} hf := by
    have hitems : built.program.varItems = (Lib.Csr.csr 0 holders.vars s.nvars).2 :=
      congrArg Prod.snd h.vars
    rw [hitems] at hf
    rw [h.func, h.funcs.count]
    exact Lib.Csr.csr_items (P := (· < s.entries.length)) 0 h.scan.entered
      (fun q hq => (h.held.vars q hq).2) f hf
  methodItems {f} hf := by
    have hitems : built.program.methodItems = (Lib.Csr.csr 0 holders.methods s.names.length).2 :=
      congrArg Prod.snd h.methods
    rw [hitems] at hf
    rw [h.func, h.funcs.count]
    exact Lib.Csr.csr_items (P := (· < s.entries.length)) 0 h.scan.entered
      (fun q hq => (h.held.methods q hq).2) f hf

theorem edges (h : Stages instrs built s c fs holders) {i j : ℕ} (hflow : Flows instrs i j) :
    (j = i + 1 ∧ ∃ k, InBlock built.program k i ∧ InBlock built.program k j) ∨
      ∃ k l b d, built.program.blocks[k]? = some b ∧ built.program.blocks[l]? = some d ∧
        b.stop = i + 1 ∧ d.start = j ∧ BlockNext built.basic k l := by
  obtain ⟨hi, hj⟩ := h.cuts.range i j hflow
  rcases h.cuts.edge_cases hflow with ⟨hnext, hsame⟩ | ⟨hstop, hstart, hnext⟩
  · exact .inl ⟨hnext, _, h.inBlock_iff.2 ⟨hi, rfl⟩, h.inBlock_iff.2 ⟨hj, hsame⟩⟩
  · exact .inr ⟨_, _, _, _, h.block_get (h.cut.index i hi), h.block_get (h.cut.index j hj),
      hstop.symm, hstart, hnext⟩

theorem ends (h : Stages instrs built s c fs holders) {k l : ℕ} (hkl : BlockNext built.basic k l) :
    ∃ b d, built.program.blocks[k]? = some b ∧ built.program.blocks[l]? = some d ∧
      Flows instrs (b.stop - 1) d.start := by
  rw [h.basic] at hkl
  obtain ⟨hk, j, hflow, rfl, hstart⟩ := linked h.scan h.cut hkl
  have hj := (h.cuts.range _ j hflow).2
  refine ⟨_, _, h.block_get hk, h.block_get (h.cut.index j hj), ?_⟩
  show Flows instrs _ (c.at_ (c.blockAt j)).start
  rw [hstart]
  exact hflow

/-- The registers of a function's instructions are below its `nregs`. -/
theorem registers (h : Stages instrs built s c fs holders) {func : Func}
    (hfunc : func ∈ built.program.funcs) {k i r : ℕ} {ins : Instr}
    (hin : InFunc built.program func k i) (hins : instrs[i]? = some ins) (hr : r ∈ regsOf ins) :
    r < func.nregs := by
  obtain ⟨_, own, -, -, hp⟩ := h.placed hfunc
  obtain ⟨hi, hk, hat⟩ := (h.inFunc_iff hp).1 hin
  have hle := h.cut.regs i ins hi hins r hr
  have hlt := hp.regs own[k] (List.getElem_mem hk)
  have hindex : c.blockAt i < (c.blocks.map (BasicBlock.link s.succ c.blockAt)).length := by
    rw [List.length_map]
    exact h.cut.index i hi
  have hreg : (built.basic.getD own[k] .empty).maxReg = (c.at_ (c.blockAt i)).maxReg := by
    rw [← hat, h.basic, List.getD_eq_getElem _ _ hindex, List.getElem_map, Cutting.at_,
      List.getD_eq_getElem _ _ (h.cut.index i hi)]
    rfl
  omega

/-- The instructions of a function are those that its entry leads to. -/
theorem members (h : Stages instrs built s c fs holders) {func : Func}
    (hfunc : func ∈ built.program.funcs) : ∃ entry, InFunc built.program func func.entry entry ∧
      ∀ i, (∃ k, InFunc built.program func k i) ↔ Reach (Flows instrs) entry i := by
  obtain ⟨entry, own, hentry, hstart, hp⟩ := h.placed hfunc
  obtain ⟨hlt, hget⟩ := List.getElem?_eq_some_iff.1 hp.entry
  refine ⟨entry, (h.inFunc_iff hp).2 ⟨hentry, hlt, hget.symm⟩, fun i => ?_⟩
  constructor
  · rintro ⟨k, hin⟩
    obtain ⟨hi, hk, hat⟩ := (h.inFunc_iff hp).1 hin
    rw [h.cuts.reach_iff hentry hi]
    have hreach := (hp.members own[k]).1 (List.getElem_mem hk)
    rw [← hat] at hreach
    rcases Relation.reflTransGen_iff_eq_or_transGen.1 hreach with heq | hpath
    · have hmem := (h.cut.mem i hi).1
      rw [heq, hstart] at hmem
      exact .inl ⟨heq.symm, hmem⟩
    · exact .inr hpath
  · intro hreach
    have hi : i < instrs.length := by
      rcases Relation.ReflTransGen.cases_tail hreach with rfl | ⟨j, -, hflow⟩
      · exact hentry
      · exact (h.cuts.range j i hflow).2
    have hblocks : Reach (BlockNext built.basic) (c.blockAt entry) (c.blockAt i) := by
      rcases (h.cuts.reach_iff hentry hi).1 hreach with ⟨hsame, -⟩ | hpath
      · rw [hsame]
      · exact hpath.to_reflTransGen
    have hown := (hp.members _).2 hblocks
    exact ⟨_, (h.inFunc_iff hp).2 ⟨hi, List.idxOf_lt_length_iff.2 hown,
      (List.getElem_idxOf _).symm⟩⟩

/-- The paths between the instructions of a function are those between its blocks. -/
theorem paths (h : Stages instrs built s c fs holders) {func : Func}
    (hfunc : func ∈ built.program.funcs) {k l a b : ℕ} (ha : InFunc built.program func k a)
    (hb : InFunc built.program func l b) : Reach (Flows instrs) a b ↔
      (k = l ∧ a ≤ b) ∨ TransGen (FuncNext built.program func) k l := by
  obtain ⟨_, own, -, -, hp⟩ := h.placed hfunc
  obtain ⟨han, hk, hak⟩ := (h.inFunc_iff hp).1 ha
  obtain ⟨hbn, hl, hbl⟩ := (h.inFunc_iff hp).1 hb
  rw [h.cuts.reach_iff han hbn, hp.paths_iff hk hl, hak, hbl, hp.nodup.getElem_inj_iff]

end Stages

/-- **The build preserves control flow.**  The blocks of a program that is built partition the
instructions, every edge falls through inside a block or goes from the end of one to the
start of one, the indices that the analysis uses are in range, and an instruction of a
function leads to another exactly when it stands before it in a block or its block leads
to the other's. -/
theorem build_preserves (instrs : List Instr) (pool : List UInt16) (keys : PowKeys)
    (built : Built) (h : build instrs pool keys = .ok built) : Preserved instrs built := by
  obtain ⟨s, c, fs, holders, hst⟩ := build_stages h
  have hvars (q) (hq : q ∈ holders.vars) : q.1 < s.nvars := (hst.held.vars q hq).1
  have hmethods (q) (hq : q ∈ holders.methods) : q.1 < s.names.length := (hst.held.methods q hq).1
  refine ⟨hst.instrs, fun i hi => ?_, fun b hb => ?_, fun _ _ => hst.edges, fun _ _ => hst.ends, hst.wf,
    fun func hfunc => ⟨?_, fun _ _ _ hin hins _ => hst.registers hfunc hin hins⟩,
    ?_, ?_, ?_, fun _ => hst.members,
    fun _ hfunc _ _ _ _ => hst.paths hfunc⟩
  · refine ⟨c.blockAt i, hst.inBlock_iff.2 ⟨hi, rfl⟩, fun k hk => ?_⟩
    exact (hst.inBlock_iff.1 hk).2.symm
  · refine ⟨?_, hst.instrs ▸ hst.wf.blocks hb⟩
    obtain ⟨k, hk⟩ := List.mem_iff_getElem?.1 hb
    have hlt : k < c.blocks.length := hst.blocks_length ▸ (List.getElem?_eq_some_iff.1 hk).1
    rw [hst.block_get hlt] at hk
    rw [← Option.some_inj.1 hk]
    exact hst.cut.nonempty k hlt
  · obtain ⟨_, own, -, -, hp⟩ := hst.placed hfunc
    exact hp.nregs.1
  · have hoff := congrArg Prod.fst hst.vars
    have hitems := congrArg Prod.snd hst.vars
    dsimp only at hoff hitems
    rw [Offsets, hoff, hitems, hst.nvars]
    exact Lib.Csr.csr_bounds 0 hvars
  · have hoff := congrArg Prod.fst hst.methods
    have hitems := congrArg Prod.snd hst.methods
    dsimp only at hoff hitems
    rw [Offsets, hoff, hitems, hst.names]
    exact Lib.Csr.csr_bounds 0 hmethods
  · rw [hst.siteLen, hst.nallocs, hst.scan.sites]

/-- Two functions that share the instructions from the second on: the closure's entry is the
fourth, and it branches back. -/
def sharedInstrs : List Instr :=
  [ ⟨0, .closure, [.int 40, .int 0, .int 0], some 5⟩,
    ⟨10, .jt, [.reg 5, .int 30], none⟩,
    ⟨20, .mov, [.int 1], some 6⟩,
    ⟨30, .jmp, [.int 10], none⟩,
    ⟨40, .setVarSelf, [.int 2], none⟩,
    ⟨50, .jf, [.reg 7, .int 20], none⟩,
    ⟨60, .ret, [.reg 7], none⟩ ]

def noKeys : PowKeys := ⟨⟨0, 0⟩, ⟨0, 0⟩, ⟨0, 0⟩, ⟨0, 0⟩⟩

theorem build_preserves_shared :
    ∃ built, build sharedInstrs [] noKeys = .ok built ∧ Preserved sharedInstrs built := by
  have hok : (build sharedInstrs [] noKeys).isOk = true := by decide +kernel
  rcases h : build sharedInstrs [] noKeys with e | built
  · rw [h] at hok
    cases hok
  · exact ⟨built, rfl, build_preserves sharedInstrs [] noKeys built h⟩

end Fc
end Lunar
