/-
# The disassembly is the reachable code

An instruction leads to the place after it, if it falls through, to its target and to its
links (`Leads`).  The loop of `disassemble` is a search along these edges, so it ends with
the instructions at the places that the entry reaches (`disassemble_exact`).  The entries
are complete exactly if no function starts only at links whose marks are lost.
-/

import Mathlib.Data.List.Nodup
import Mathlib.Data.List.Perm.Subperm
import Lunar.Lib.Search
import Lunar.Payload.Disasm.Disassemble
import Lunar.Payload.Disasm.Marks

namespace Lunar
namespace Disasm

open Ir
open Lib (Searched Reach)

/-- The view of a lifted table, with an index that a `u32` can hold. -/
structure View.Sane (view : View) : Prop where
  tags : view.decoder.tags.Distinct
  lifted : ∀ t, .ok t ∈ view.templates → Lifted t
  fits : (Shapes.new view.templates).Fits
  length : view.decoder.code.length < BAD_INSTR

/-- The instruction at a place, as the plain decoder reads it. -/
structure Decodes (view : View) (p h : ℕ) (t : Template)
    (r : Decoder.Decoded × List Operand) : Prop where
  handler : view.handler p = some h
  template : view.templates[h]? = some (.ok t)
  decode : view.decoder.decode p t = some r

/-- Where the instruction at a place leads. -/
inductive Leads (view : View) (p q : ℕ) : Prop
  | falls {h : ℕ} {t : Template} {r : Decoder.Decoded × List Operand} :
      Decodes view p h t r → t.falls = true → r.1.next = q → Leads view p q
  | target {h : ℕ} {t : Template} {r : Decoder.Decoded × List Operand} :
      Decodes view p h t r → r.1.target = some q → Leads view p q
  | link {h : ℕ} {t : Template} {r : Decoder.Decoded × List Operand} {s : ℕ} :
      Decodes view p h t r → s ∈ t.closures ++ t.targets → Decoder.slotTarget r.2 s = some q →
      Leads view p q

/-- A function starts at `q`: the instruction at `p` names it in a closure slot. -/
def Starts (view : View) (p q : ℕ) : Prop :=
  ∃ h t r, Decodes view p h t r ∧ ∃ s ∈ t.closures, Decoder.slotTarget r.2 s = some q

/-- The closure slot is among those that the count of a shape leaves in. -/
def StartsMarked (view : View) (p q : ℕ) : Prop :=
  ∃ h t r, Decodes view p h t r ∧
    ∃ s ∈ t.closures.take (t.closures.length % 2 ^ 8), Decoder.slotTarget r.2 s = some q

variable {view : View} {p q : ℕ}

theorem Decodes.unique {h h' : ℕ} {t t' : Template} {r r' : Decoder.Decoded × List Operand}
    (hd : Decodes view p h t r) (hd' : Decodes view p h' t' r') : h = h' ∧ t = t' ∧ r = r' := by
  have hh : h = h' := Option.some.inj (hd.handler.symm.trans hd'.handler)
  subst hh
  have ht : t = t' := Except.ok.inj (Option.some.inj (hd.template.symm.trans hd'.template))
  subst ht
  exact ⟨rfl, rfl, Option.some.inj (hd.decode.symm.trans hd'.decode)⟩

/-- Only places of the code hold instructions. -/
theorem Decodes.lt {h : ℕ} {t : Template} {r : Decoder.Decoded × List Operand}
    (hd : Decodes view p h t r) : p < view.decoder.code.length := by
  obtain ⟨raw, hraw, -⟩ := Option.bind_eq_some_iff.1 hd.handler
  obtain ⟨w, hw, -⟩ := Option.map_eq_some_iff.1 hraw
  exact (List.getElem?_eq_some_iff.1 hw).1

theorem Leads.decodes (h : Leads view p q) : ∃ h t r, Decodes view p h t r := by
  cases h with
  | falls hd => exact ⟨_, _, _, hd⟩
  | target hd => exact ⟨_, _, _, hd⟩
  | link hd => exact ⟨_, _, _, hd⟩

theorem Decodes.leads_iff {h : ℕ} {t : Template} {r : Decoder.Decoded × List Operand}
    (hd : Decodes view p h t r) :
    Leads view p q ↔ (t.falls = true ∧ r.1.next = q) ∨ r.1.target = some q ∨
      ∃ s ∈ t.closures ++ t.targets, Decoder.slotTarget r.2 s = some q := by
  constructor
  · intro hl
    cases hl with
    | falls hd' hf hn =>
        obtain ⟨-, rfl, rfl⟩ := hd.unique hd'
        exact .inl ⟨hf, hn⟩
    | target hd' ht =>
        obtain ⟨-, rfl, rfl⟩ := hd.unique hd'
        exact .inr (.inl ht)
    | link hd' hs hq =>
        obtain ⟨-, rfl, rfl⟩ := hd.unique hd'
        exact .inr (.inr ⟨_, hs, hq⟩)
  · rintro (⟨hf, hn⟩ | ht | ⟨s, hs, hq⟩)
    · exact .falls hd hf hn
    · exact .target hd ht
    · exact .link hd hs hq

theorem Decodes.startsMarked_iff {h : ℕ} {t : Template} {r : Decoder.Decoded × List Operand}
    (hd : Decodes view p h t r) :
    StartsMarked view p q ↔
      ∃ s ∈ t.closures.take (t.closures.length % 2 ^ 8), Decoder.slotTarget r.2 s = some q := by
  constructor
  · rintro ⟨h', t', r', hd', hs⟩
    obtain ⟨-, rfl, rfl⟩ := hd.unique hd'
    exact hs
  · exact fun hs => ⟨h, t, r, hd, hs⟩

/-! ## The links in the work and in the entries -/

theorem map_fst_linksOf (links : List ℕ) (k start : ℕ) (ops : List Operand) :
    (linksOf links k start ops).map Prod.fst
      = links.filterMap fun s => ops[start + s]?.bind intTarget := by
  have hlinks : links.zipIdx.map Prod.fst = links := List.zipIdx_map_fst 0 links
  conv_rhs => rw [← hlinks, List.filterMap_map]
  rw [linksOf_eq, List.map_filterMap]
  congr 1
  funext q
  dsimp only [Function.comp_apply]
  rw [Option.map_map]
  exact Option.map_id'

theorem marked_linksOf (cs ts : List ℕ) (start : ℕ) (ops : List Operand) :
    ((linksOf (cs ++ ts) (cs.length % 2 ^ 8) start ops).filter Prod.snd).map Prod.fst
      = (cs.take (cs.length % 2 ^ 8)).filterMap fun s => ops[start + s]?.bind intTarget := by
  have hlen : (cs.take (cs.length % 2 ^ 8)).length = cs.length % 2 ^ 8 := by
    rw [List.length_take, Nat.min_eq_left (Nat.mod_le _ _)]
  have hsplit : cs ++ ts = cs.take (cs.length % 2 ^ 8) ++ (cs.drop (cs.length % 2 ^ 8) ++ ts) := by
    rw [← List.append_assoc, List.take_append_drop]
  have h := linksOf_append (cs.take (cs.length % 2 ^ 8)) (cs.drop (cs.length % 2 ^ 8) ++ ts)
    start ops
  rw [← hsplit, hlen] at h
  rw [h, List.filter_append, List.filter_map, List.filter_map]
  simp [Function.comp_def]

/-! ## A visit -/

/-- The turn for an instruction of a template, in terms of the plain decoder. -/
def Progress.goOn (s : Progress) (pc handler : ℕ) (t : Template)
    (r : Decoder.Decoded × List Operand) : Progress where
  index := s.index.set pc ((s.instrs.length % 2 ^ 32 + 1) % 2 ^ 32)
  instrs := s.instrs ++ [⟨pc, handler,
    ⟨s.operands.length % 2 ^ 32, r.2.length % 2 ^ 32⟩, r.1.next, r.1.target⟩]
  operands := s.operands ++ r.2
  entries := s.entries ++
    (t.closures.take (t.closures.length % 2 ^ 8)).filterMap (Decoder.slotTarget r.2)
  work := (if t.falls then [r.1.next] else []) ++
    (r.1.target.toList ++
      (((t.closures ++ t.targets).filterMap (Decoder.slotTarget r.2)).reverse ++ s.work))
  decoded := s.decoded ++ [pc]

/-- The turn for a place without instruction. -/
def Progress.giveUp (s : Progress) (pc : ℕ) : Progress :=
  { s with index := s.index.set pc BAD_INSTR, decoded := s.decoded ++ [pc] }

theorem visit_goOn (hs : view.Sane) (s : Progress) {pc h : ℕ} {t : Template}
    {r : Decoder.Decoded × List Operand} (hd : Decodes view pc h t r) :
    visit view (Shapes.new view.templates) s pc = s.goOn pc h t r := by
  obtain ⟨shape, hshape, hgives⟩ := (built_new view.templates hs.fits).gives hd.template
  have hc : (Shapes.new view.templates).Covers shape t := hgives
  have hlift := hs.lifted t (List.mem_of_getElem? hd.template)
  have hslots : ∀ b ∈ t.branch, b.slot ≠ NO_SLOT := by
    intro b hb
    have hlt := hlift.branch b hb
    have hmax : t.reads.length ≤ 255 := hlift.reads
    show b.slot ≠ 255
    omega
  have hdecode := fast_decode hs.tags hc hslots pc s.operands
  rw [hd.decode, Option.map_some] at hdecode
  have hlen : (s.operands ++ r.2).length - s.operands.length = r.2.length := by
    rw [List.length_append]
    omega
  have hfst : (linksOf (t.closures ++ t.targets) (t.closures.length % 2 ^ 8) 0 r.2).map Prod.fst
      = (t.closures ++ t.targets).filterMap (Decoder.slotTarget r.2) := by
    rw [map_fst_linksOf]
    simp only [Nat.zero_add]
    rfl
  have hmarked : ((linksOf (t.closures ++ t.targets) (t.closures.length % 2 ^ 8) 0 r.2).filter
        Prod.snd).map Prod.fst
      = (t.closures.take (t.closures.length % 2 ^ 8)).filterMap (Decoder.slotTarget r.2) := by
    rw [marked_linksOf]
    simp only [Nat.zero_add]
    rfl
  unfold visit
  dsimp only
  rw [hd.handler, Option.bind_some, hshape, Option.getD_some, if_pos hc.ok, hdecode]
  dsimp only
  rw [Shapes.linked, hc.links, hc.closures, linksOf_shift, hfst, hmarked, hlen, hc.falls]
  rfl

theorem visit_giveUp (hs : view.Sane) (s : Progress) {pc : ℕ}
    (hd : ∀ h t r, ¬ Decodes view pc h t r) :
    visit view (Shapes.new view.templates) s pc = s.giveUp pc := by
  have hbuilt := built_new view.templates hs.fits
  cases hh : view.handler pc with
  | none =>
      unfold visit
      dsimp only
      rw [hh]
      rfl
  | some h =>
      have hread : fastReading view.decoder view.templates h pc s.operands = none := by
        by_cases hok : ∃ t, view.templates[h]? = some (.ok t)
        · obtain ⟨t, ht⟩ := hok
          rw [fastReading_ok hs.tags hs.fits ht (hs.lifted t (List.mem_of_getElem? ht))]
          cases hr : view.decoder.decode pc t with
          | none => rfl
          | some r => exact absurd ⟨hh, ht, hr⟩ (hd h t r)
        · exact fastReading_none hs.fits (fun t ht => hok ⟨t, ht⟩) pc s.operands
      unfold fastReading at hread
      unfold visit
      dsimp only at hread ⊢
      rw [hh, Option.bind_some]
      split at hread
      · rename_i hok
        rw [if_pos hok, Option.map_eq_none_iff.1 hread]
        rfl
      · rename_i hok
        rw [if_neg hok]
        rfl

/-- The work that an instruction adds is where it leads. -/
theorem mem_work_goOn (s : Progress) {h : ℕ} {t : Template} {r : Decoder.Decoded × List Operand}
    (hd : Decodes view p h t r) :
    q ∈ (s.goOn p h t r).work ↔ Leads view p q ∨ q ∈ s.work := by
  have hfalls : q ∈ (if t.falls then [r.1.next] else []) ↔ t.falls = true ∧ r.1.next = q := by
    split
    · rename_i hf
      rw [List.mem_singleton, and_iff_right hf, eq_comm]
    · rename_i hf
      constructor
      · intro hq
        cases hq
      · exact fun hq => absurd hq.1 hf
  show q ∈ _ ++ (_ ++ (_ ++ s.work)) ↔ _
  rw [List.mem_append, List.mem_append, List.mem_append, List.mem_reverse, List.mem_filterMap,
    Option.mem_toList, hd.leads_iff, hfalls]
  constructor
  · rintro (hq | hq | hq | hq)
    · exact .inl (.inl hq)
    · exact .inl (.inr (.inl hq))
    · exact .inl (.inr (.inr hq))
    · exact .inr hq
  · rintro ((hq | hq | hq) | hq)
    · exact .inl hq
    · exact .inr (.inl hq)
    · exact .inr (.inr (.inl hq))
    · exact .inr (.inr (.inr hq))

theorem mem_entries_goOn (s : Progress) {h : ℕ} {t : Template}
    {r : Decoder.Decoded × List Operand} (hd : Decodes view p h t r) :
    q ∈ (s.goOn p h t r).entries ↔ q ∈ s.entries ∨ StartsMarked view p q := by
  show q ∈ s.entries ++ _ ↔ _
  rw [List.mem_append, List.mem_filterMap, hd.startsMarked_iff]

/-! ## What a turn keeps -/

/-- The index marks the places that were decoded, each once. -/
structure Visited (view : View) (s : Progress) : Prop where
  length : s.index.length = view.decoder.code.length
  nodup : s.decoded.Nodup
  within : ∀ p ∈ s.decoded, p < view.decoder.code.length
  fresh : ∀ p < view.decoder.code.length, s.index[p]? = some NO_INSTR ↔ p ∉ s.decoded

theorem Visited.mark {s : Progress} (h : Visited view s) (hp : p < view.decoder.code.length)
    (hn : p ∉ s.decoded) {v : ℕ} (hv : v ≠ NO_INSTR) {s' : Progress}
    (hindex : s'.index = s.index.set p v) (hdecoded : s'.decoded = s.decoded ++ [p]) :
    Visited view s' := by
  have hlt : p < s.index.length := h.length ▸ hp
  refine ⟨?_, ?_, ?_, ?_⟩
  · rw [hindex, List.length_set, h.length]
  · rw [hdecoded, ← List.concat_eq_append]
    exact List.Nodup.concat hn h.nodup
  · intro q hq
    rw [hdecoded, List.mem_append, List.mem_singleton] at hq
    rcases hq with hq | rfl
    · exact h.within q hq
    · exact hp
  · intro q hq
    rw [hindex, hdecoded, List.mem_append, List.mem_singleton, not_or]
    by_cases heq : p = q
    · subst heq
      rw [List.getElem?_set_self hlt, Option.some.injEq]
      constructor
      · exact fun hno => absurd hno hv
      · exact fun hno => absurd rfl hno.2
    · rw [List.getElem?_set_ne heq, h.fresh q hq]
      constructor
      · exact fun hno => ⟨hno, fun hqp => heq hqp.symm⟩
      · exact fun hno => hno.1

/-- Places of a code, each once, are no more than the code has. -/
theorem length_le_of_nodup {ps : List ℕ} {n : ℕ} (hnodup : ps.Nodup) (hlt : ∀ q ∈ ps, q < n) :
    ps.length ≤ n := by
  have hsub : ps ⊆ List.range n := fun q hq => List.mem_range.2 (hlt q hq)
  have hle := (List.Nodup.subperm hnodup hsub).length_le
  rwa [List.length_range] at hle

theorem Visited.length_le {s : Progress} (h : Visited view s) :
    s.decoded.length ≤ view.decoder.code.length := length_le_of_nodup h.nodup h.within

/-- A place still to decode leaves room. -/
theorem Visited.length_lt {s : Progress} (h : Visited view s) (hp : p < view.decoder.code.length)
    (hn : p ∉ s.decoded) : s.decoded.length < view.decoder.code.length := by
  have hlt : ∀ q ∈ p :: s.decoded, q < view.decoder.code.length := by
    intro q hq
    rcases List.mem_cons.1 hq with rfl | hq
    · exact hp
    · exact h.within q hq
  exact Nat.lt_of_succ_le (length_le_of_nodup (List.nodup_cons.2 ⟨hn, h.nodup⟩) hlt)

/-- The instructions are those at the decoded places, in the index under their numbers. -/
structure Listed (view : View) (s : Progress) : Prop where
  instr : ∀ i ins, s.instrs[i]? = some ins → s.index[ins.pc]? = some (i + 1) ∧ ins.pc ∈ s.decoded
  right : ∀ ins ∈ s.instrs, ∃ t r, Decodes view ins.pc ins.handler t r ∧
    ins.next = r.1.next ∧ ins.target = r.1.target
  all : ∀ p ∈ s.decoded, ∀ h t r, Decodes view p h t r → ∃ ins ∈ s.instrs, ins.pc = p
  named : ∀ p v, s.index[p]? = some v → v ≠ NO_INSTR → v ≠ BAD_INSTR →
    ∃ ins, s.instrs[v - 1]? = some ins ∧ ins.pc = p
  count : s.instrs.length ≤ s.decoded.length

theorem Listed.goOn {s : Progress} (h : Listed view s) (hv : Visited view s) {hd : ℕ}
    {t : Template} {r : Decoder.Decoded × List Operand} (hdec : Decodes view p hd t r)
    (hn : p ∉ s.decoded) (hlen : s.instrs.length + 1 < 2 ^ 32) :
    Listed view (s.goOn p hd t r) := by
  have hp : p < s.index.length := hv.length ▸ hdec.lt
  have hcast : (s.instrs.length % 2 ^ 32 + 1) % 2 ^ 32 = s.instrs.length + 1 := by omega
  refine ⟨?_, ?_, ?_, ?_, ?_⟩
  · intro i ins hi
    show (s.index.set p _)[ins.pc]? = _ ∧ ins.pc ∈ s.decoded ++ [p]
    rw [hcast, List.mem_append, List.mem_singleton]
    by_cases hlt : i < s.instrs.length
    · have hold : s.instrs[i]? = some ins := by rwa [Progress.goOn, List.getElem?_append_left hlt] at hi
      obtain ⟨hindex, hmem⟩ := h.instr i ins hold
      have hne : p ≠ ins.pc := fun heq => hn (heq ▸ hmem)
      exact ⟨by rw [List.getElem?_set_ne hne, hindex], .inl hmem⟩
    · have hend := (List.getElem?_eq_some_iff.1 hi).1
      rw [Progress.goOn, List.length_append, List.length_singleton] at hend
      have heq : i = s.instrs.length := by omega
      rw [Progress.goOn, heq, List.getElem?_concat_length, Option.some.injEq] at hi
      rw [← hi, heq]
      exact ⟨List.getElem?_set_self hp, .inr rfl⟩
  · intro ins hi
    rcases List.mem_append.1 hi with hi | hi
    · exact h.right ins hi
    · rw [List.mem_singleton.1 hi]
      exact ⟨t, r, hdec, rfl, rfl⟩
  · intro q hq h' t' r' hdec'
    rcases List.mem_append.1 hq with hq | hq
    · obtain ⟨ins, hi, hpc⟩ := h.all q hq h' t' r' hdec'
      exact ⟨ins, List.mem_append_left _ hi, hpc⟩
    · rw [List.mem_singleton.1 hq]
      exact ⟨_, List.mem_append_right _ (List.mem_singleton.2 rfl), rfl⟩
  · intro q v hq hno hbad
    rw [Progress.goOn, hcast] at hq
    by_cases heq : p = q
    · subst heq
      rw [List.getElem?_set_self hp, Option.some.injEq] at hq
      refine ⟨⟨p, hd, ⟨s.operands.length % 2 ^ 32, r.2.length % 2 ^ 32⟩, r.1.next, r.1.target⟩,
        ?_, rfl⟩
      rw [← hq, Nat.add_sub_cancel]
      exact List.getElem?_concat_length
    · rw [List.getElem?_set_ne heq] at hq
      obtain ⟨ins, hi, hpc⟩ := h.named q v hq hno hbad
      refine ⟨ins, ?_, hpc⟩
      rw [Progress.goOn, List.getElem?_append_left (List.getElem?_eq_some_iff.1 hi).1, hi]
  · show (s.instrs ++ [_]).length ≤ (s.decoded ++ [p]).length
    rw [List.length_append, List.length_append]
    exact Nat.add_le_add_right h.count 1

theorem Listed.giveUp {s : Progress} (h : Listed view s)
    (hbad : ∀ h t r, ¬ Decodes view p h t r) (hn : p ∉ s.decoded) :
    Listed view (s.giveUp p) := by
  refine ⟨?_, h.right, ?_, ?_, ?_⟩
  · intro i ins hi
    obtain ⟨hindex, hmem⟩ := h.instr i ins hi
    have hne : p ≠ ins.pc := fun heq => hn (heq ▸ hmem)
    exact ⟨by rw [Progress.giveUp, List.getElem?_set_ne hne, hindex], List.mem_append_left _ hmem⟩
  · intro q hq h' t r hdec
    rcases List.mem_append.1 hq with hq | hq
    · exact h.all q hq h' t r hdec
    · rw [List.mem_singleton.1 hq] at hdec
      exact absurd hdec (hbad h' t r)
  · intro q v hq hno hbad'
    by_cases heq : p = q
    · subst heq
      rw [Progress.giveUp] at hq
      have hlt := (List.getElem?_eq_some_iff.1 hq).1
      rw [List.length_set] at hlt
      rw [List.getElem?_set_self hlt, Option.some.injEq] at hq
      exact absurd hq.symm hbad'
    · rw [Progress.giveUp, List.getElem?_set_ne heq] at hq
      exact h.named q v hq hno hbad'
  · show s.instrs.length ≤ (s.decoded ++ [p]).length
    rw [List.length_append]
    exact Nat.le_add_right_of_le h.count

/-- The invariant of the loop. -/
structure Inv (view : View) (entry : ℕ) (s : Progress) : Prop where
  visited : Visited view s
  listed : Listed view s
  search : ∃ seen : Set ℕ, Searched (Leads view) entry seen s.work ∧
    ∀ p < view.decoder.code.length, p ∈ seen ↔ p ∈ s.decoded
  entries : ∀ q, q ∈ s.entries ↔ q = entry ∨ ∃ p ∈ s.decoded, StartsMarked view p q

theorem inv_start (view : View) (entry : ℕ) : Inv view entry (start view entry) where
  visited := by
    refine ⟨List.length_replicate, List.nodup_nil, (fun p hp => by cases hp), fun p hp => ?_⟩
    show (List.replicate _ NO_INSTR)[p]? = _ ↔ _
    rw [List.getElem?_replicate, if_pos hp]
    exact ⟨fun _ => List.not_mem_nil, fun _ => rfl⟩
  listed := by
    refine ⟨fun i ins hi => ?_, (fun ins hi => by cases hi), (fun p hp => by cases hp),
      fun p v hv hno _ => ?_, Nat.le_refl 0⟩
    · exact absurd hi (by simp [start])
    · rw [start] at hv
      exact absurd (List.eq_of_mem_replicate (List.mem_of_getElem? hv)) hno
  search := ⟨∅, .start, fun p _ => ⟨fun h => absurd h (Set.notMem_empty p), fun h => by cases h⟩⟩
  entries q := by
    show q ∈ [entry] ↔ _
    rw [List.mem_singleton]
    constructor
    · exact .inl
    · rintro (hq | ⟨p, hp, -⟩)
      · exact hq
      · cases hp

/-- Nothing leads away from a place outside the code. -/
theorem not_leads_of_le (h : view.decoder.code.length ≤ p) : ¬ Leads view p q := by
  intro hl
  obtain ⟨_, _, _, hd⟩ := hl.decodes
  exact absurd hd.lt (Nat.not_lt.2 h)

/-- A place that the work names once more is dropped. -/
theorem Inv.drop {entry : ℕ} {s : Progress} {work : List ℕ} (h : Inv view entry s)
    (hw : s.work = p :: work) (hp : view.decoder.code.length ≤ p ∨ p ∈ s.decoded) :
    Inv view entry { s with work } := by
  refine ⟨⟨h.visited.length, h.visited.nodup, h.visited.within, h.visited.fresh⟩,
    ⟨h.listed.instr, h.listed.right, h.listed.all, h.listed.named, h.listed.count⟩, ?_, h.entries⟩
  obtain ⟨seen, hsearch, hseen⟩ := h.search
  rw [hw] at hsearch
  rcases hp with hp | hp
  · refine ⟨insert p seen, hsearch.visit (fun b hb => .inr hb) (List.Subset.refl _)
      (fun b hb => absurd hb (not_leads_of_le hp)), fun q hq => ?_⟩
    rw [Set.mem_insert_iff, hseen q hq]
    constructor
    · rintro (rfl | hq')
      · exact absurd hq (Nat.not_lt.2 hp)
      · exact hq'
    · exact .inr
  · exact ⟨seen, hsearch.skip ((hseen p (h.visited.within p hp)).2 hp), hseen⟩

/-- The search sees the place that a turn decodes. -/
theorem Inv.search_mark {entry : ℕ} {s : Progress} {work : List ℕ} (h : Inv view entry s)
    (hw : s.work = p :: work) {work' : List ℕ}
    (hmem : ∀ q, q ∈ work' ↔ Leads view p q ∨ q ∈ work) :
    ∃ seen : Set ℕ, Searched (Leads view) entry seen work' ∧
      ∀ q < view.decoder.code.length, q ∈ seen ↔ q ∈ s.decoded ++ [p] := by
  obtain ⟨seen, hsearch, hseen⟩ := h.search
  rw [hw] at hsearch
  refine ⟨insert p seen, hsearch.visit (fun b hb => (hmem b).1 hb)
    (fun b hb => (hmem b).2 (.inr hb)) (fun b hb => .inr ((hmem b).2 (.inl hb))), fun q hq => ?_⟩
  rw [Set.mem_insert_iff, hseen q hq, List.mem_append, List.mem_singleton, or_comm]

theorem exists_mem_concat {P : ℕ → Prop} (l : List ℕ) (p : ℕ) :
    (∃ q ∈ l ++ [p], P q) ↔ (∃ q ∈ l, P q) ∨ P p := by
  simp only [List.mem_append, List.mem_singleton, or_and_right, exists_or, exists_eq_left]

/-- **A turn keeps the invariant.** -/
theorem Inv.turn (hs : view.Sane) {entry : ℕ} {s s' : Progress} (h : Inv view entry s)
    (ht : turn view (Shapes.new view.templates) s = some s') : Inv view entry s' := by
  rw [Disasm.turn] at ht
  cases hw : s.work with
  | nil =>
      rw [hw] at ht
      cases ht
  | cons p work =>
      rw [hw] at ht
      dsimp only at ht
      by_cases hp : view.decoder.code.length ≤ p
      · rw [if_pos hp, Option.some.injEq] at ht
        exact ht ▸ h.drop hw (.inl hp)
      have hlt : p < view.decoder.code.length := Nat.lt_of_not_le hp
      rw [if_neg hp] at ht
      by_cases hn : p ∈ s.decoded
      · have hmarked : s.index[p]? ≠ some NO_INSTR := fun hno => (h.visited.fresh p hlt).1 hno hn
        rw [if_pos hmarked, Option.some.injEq] at ht
        exact ht ▸ h.drop hw (.inr hn)
      have hfresh : s.index[p]? = some NO_INSTR := (h.visited.fresh p hlt).2 hn
      rw [if_neg (not_not_intro hfresh), Option.some.injEq] at ht
      have hroom := h.visited.length_lt hlt hn
      have hsize : view.decoder.code.length < 2 ^ 32 - 1 := hs.length
      have hcount := h.listed.count
      have hv : Visited view { s with work } :=
        ⟨h.visited.length, h.visited.nodup, h.visited.within, h.visited.fresh⟩
      have hl : Listed view { s with work } :=
        ⟨h.listed.instr, h.listed.right, h.listed.all, h.listed.named, h.listed.count⟩
      by_cases hd : ∃ hd t r, Decodes view p hd t r
      · obtain ⟨hd, t, r, hdec⟩ := hd
        rw [visit_goOn hs _ hdec] at ht
        have hcast : (s.instrs.length % 2 ^ 32 + 1) % 2 ^ 32 ≠ NO_INSTR := by
          show _ ≠ 0
          omega
        subst ht
        refine ⟨hv.mark hlt hn hcast rfl rfl, hl.goOn hv hdec hn (by
          show s.instrs.length + 1 < 2 ^ 32
          omega), h.search_mark hw fun q => mem_work_goOn _ hdec, fun q => ?_⟩
        rw [mem_entries_goOn _ hdec]
        show q ∈ s.entries ∨ _ ↔ q = entry ∨ ∃ p' ∈ s.decoded ++ [p], _
        rw [h.entries q, exists_mem_concat, or_assoc]
      · have hbad : ∀ hd t r, ¬ Decodes view p hd t r := fun hd' t r hdec => hd ⟨hd', t, r, hdec⟩
        rw [visit_giveUp hs _ hbad] at ht
        have hmark : BAD_INSTR ≠ NO_INSTR := by decide
        subst ht
        refine ⟨hv.mark hlt hn hmark rfl rfl, hl.giveUp hbad hn, h.search_mark hw fun q => ?_,
          fun q => ?_⟩
        · show q ∈ work ↔ _
          constructor
          · exact .inr
          · rintro (hq | hq)
            · obtain ⟨_, _, _, hdec⟩ := hq.decodes
              exact absurd hdec (hbad _ _ _)
            · exact hq
        · have hno : ¬ StartsMarked view p q := fun ⟨_, _, _, hdec, _⟩ => hbad _ _ _ hdec
          show q ∈ s.entries ↔ q = entry ∨ ∃ p' ∈ s.decoded ++ [p], _
          rw [h.entries q, exists_mem_concat, or_iff_left hno]

/-! ## The end of the loop -/

/-- The most that a visit adds to the work. -/
def most (view : View) : ℕ := (Shapes.new view.templates).links.length + 2

/-- What is left to do. -/
def todo (view : View) (s : Progress) : ℕ :=
  (view.decoder.code.length - s.decoded.length) * (most view + 1) + s.work.length

theorem length_work_goOn (hs : view.Sane) (s : Progress) {h : ℕ} {t : Template}
    {r : Decoder.Decoded × List Operand} (hd : Decodes view p h t r) :
    (s.goOn p h t r).work.length ≤ s.work.length + most view := by
  obtain ⟨shape, -, hgives⟩ := (built_new view.templates hs.fits).gives hd.template
  have hc : (Shapes.new view.templates).Covers shape t := hgives
  have hslice : (t.closures ++ t.targets).length ≤ (Shapes.new view.templates).links.length := by
    rw [← hc.links, slice, List.length_take, List.length_drop]
    omega
  have hlinks := List.length_filterMap_le (Decoder.slotTarget r.2) (t.closures ++ t.targets)
  have hfalls : (if t.falls then [r.1.next] else []).length ≤ 1 := by
    split
    · exact Nat.le_refl 1
    · exact Nat.zero_le 1
  have htarget : r.1.target.toList.length ≤ 1 := by
    cases r.1.target with
    | none => exact Nat.zero_le 1
    | some a => exact Nat.le_refl 1
  show (_ ++ (_ ++ (_ ++ s.work))).length ≤ _
  rw [List.length_append, List.length_append, List.length_append, List.length_reverse, most]
  omega

theorem todo_drop (view : View) {s : Progress} {work : List ℕ} (hw : s.work = p :: work) :
    todo view { s with work } < todo view s := by
  show (view.decoder.code.length - s.decoded.length) * (most view + 1) + work.length
    < (view.decoder.code.length - s.decoded.length) * (most view + 1) + s.work.length
  rw [hw, List.length_cons]
  omega

theorem todo_mark (view : View) {s s' : Progress} {work : List ℕ} (hw : s.work = p :: work)
    (hroom : s.decoded.length < view.decoder.code.length)
    (hdecoded : s'.decoded = s.decoded ++ [p]) (hwork : s'.work.length ≤ work.length + most view) :
    todo view s' < todo view s := by
  obtain ⟨m, hm⟩ : ∃ m, view.decoder.code.length - s.decoded.length = m + 1 :=
    ⟨view.decoder.code.length - s.decoded.length - 1, by omega⟩
  have hm' : view.decoder.code.length - s'.decoded.length = m := by
    rw [hdecoded, List.length_append, List.length_singleton]
    omega
  rw [todo, todo, hm, hm', hw, List.length_cons, Nat.succ_mul]
  omega

/-- A turn leaves less to do. -/
theorem todo_turn (hs : view.Sane) {entry : ℕ} {s s' : Progress} (h : Inv view entry s)
    (ht : turn view (Shapes.new view.templates) s = some s') : todo view s' < todo view s := by
  rw [Disasm.turn] at ht
  cases hw : s.work with
  | nil =>
      rw [hw] at ht
      cases ht
  | cons p work =>
      rw [hw] at ht
      dsimp only at ht
      split at ht
      · cases ht
        exact todo_drop view hw
      rename_i hp
      have hlt : p < view.decoder.code.length := Nat.lt_of_not_le hp
      split at ht
      · cases ht
        exact todo_drop view hw
      rename_i hfresh
      have hn : p ∉ s.decoded := (h.visited.fresh p hlt).1 (not_not.1 hfresh)
      have hroom := h.visited.length_lt hlt hn
      cases ht
      by_cases hd : ∃ hd t r, Decodes view p hd t r
      · obtain ⟨hd, t, r, hdec⟩ := hd
        rw [visit_goOn hs _ hdec]
        exact todo_mark view hw hroom rfl (length_work_goOn hs _ hdec)
      · rw [visit_giveUp hs _ fun hd' t r hdec => hd ⟨hd', t, r, hdec⟩]
        exact todo_mark view hw hroom rfl (Nat.le_add_right _ _)

theorem mem_dedup (xs : List ℕ) : q ∈ dedup xs ↔ q ∈ xs := by
  induction xs using dedup.induct with
  | case1 => rfl
  | case2 x => rfl
  | case3 x xs ih =>
      rw [dedup, if_pos rfl, ih]
      simp
  | case4 x y xs hne ih =>
      rw [dedup, if_neg hne, List.mem_cons, ih]
      exact List.mem_cons.symm

theorem dedup_sorted {xs : List ℕ} (h : xs.Pairwise (· ≤ ·)) : (dedup xs).Pairwise (· < ·) := by
  induction xs using dedup.induct with
  | case1 => exact List.Pairwise.nil
  | case2 x => exact List.pairwise_singleton _ x
  | case3 x xs ih =>
      rw [dedup, if_pos rfl]
      exact ih (List.pairwise_cons.1 h).2
  | case4 x y xs hne ih =>
      obtain ⟨hx, hxs⟩ := List.pairwise_cons.1 h
      rw [dedup, if_neg hne]
      refine List.pairwise_cons.2 ⟨fun z hz => ?_, ih hxs⟩
      rw [mem_dedup] at hz
      have hxy := hx y List.mem_cons_self
      rcases List.mem_cons.1 hz with rfl | hz
      · omega
      · have hyz := (List.pairwise_cons.1 hxs).1 z hz
        omega

theorem mem_finish (s : Progress) : q ∈ (finish s).entries ↔ q ∈ s.entries := by
  rw [finish, mem_dedup]
  exact (List.mergeSort_perm _ _).mem_iff

theorem finish_sorted (s : Progress) : (finish s).entries.Pairwise (· < ·) := by
  refine dedup_sorted ((List.pairwise_mergeSort ?_ ?_ s.entries).imp fun h => of_decide_eq_true h)
  · intro a b c hab hbc
    exact decide_eq_true ((of_decide_eq_true hab).trans (of_decide_eq_true hbc))
  · intro a b
    rw [Bool.or_eq_true, decide_eq_true_eq, decide_eq_true_eq]
    exact Nat.le_total a b

/-- The disassembly is that of the code that the entry reaches: the index numbers the
instructions by their places, the instructions are those at the reachable places that
decode, and the entries are sorted, without repetition, and complete. -/
structure Exact (view : View) (entry : ℕ) (dis : Disasm) : Prop where
  index : ∀ i ins p, dis.instrs[i]? = some ins → (dis.index[p]? = some (i + 1) ↔ ins.pc = p)
  decoded : ∀ p, (∃ ins ∈ dis.instrs, ins.pc = p) ↔
    Reach (Leads view) entry p ∧ ∃ h t r, Decodes view p h t r
  instr : ∀ ins ∈ dis.instrs, ∃ t r, Decodes view ins.pc ins.handler t r ∧
    ins.next = r.1.next ∧ ins.target = r.1.target
  sorted : dis.entries.Pairwise (· < ·)
  linked : entry ∈ dis.entries ∧
    ∀ p q, Reach (Leads view) entry p → Starts view p q → q ∈ dis.entries

/-- Every function that reachable code names starts at the entry or is named in a slot
that the count of its shape leaves in. -/
def Covered (view : View) (entry : ℕ) : Prop :=
  ∀ p q, Reach (Leads view) entry p → Starts view p q →
    q = entry ∨ ∃ p', Reach (Leads view) entry p' ∧ StartsMarked view p' q

/-- Where every template has fewer than 256 closure slots nothing is lost. -/
theorem covered_of_lt {entry : ℕ}
    (h : ∀ t, .ok t ∈ view.templates → t.closures.length < 2 ^ 8) : Covered view entry := by
  rintro p q hp ⟨hd, t, r, hdec, s, hs, hq⟩
  have hlt := h t (List.mem_of_getElem? hdec.template)
  refine .inr ⟨p, hp, hd, t, r, hdec, s, ?_, hq⟩
  rwa [Nat.mod_eq_of_lt hlt, List.take_length]

theorem StartsMarked.starts (h : StartsMarked view p q) : Starts view p q := by
  obtain ⟨hd, t, r, hdec, s, hs, hq⟩ := h
  exact ⟨hd, t, r, hdec, s, List.mem_of_mem_take hs, hq⟩

/-- The loop ends, without work and with what its turns keep. -/
theorem disassemble_ends (hs : view.Sane) (entry : ℕ) :
    ∃ s, (∃ n, ∀ m, n < m → Lib.loop (turn view (Shapes.new view.templates)) m (start view entry)
          = some s ∧ disassemble view entry m = some (finish s)) ∧
      Inv view entry s ∧ s.work = [] := by
  obtain ⟨s, hinv, hend, hloop⟩ :=
    Lib.loop_spec (fun s s' h ht => ⟨Inv.turn hs h ht, todo_turn hs h ht⟩) (inv_start view entry)
  refine ⟨s, ⟨_, fun m hm => ⟨hloop m hm, by rw [disassemble, hloop m hm]; rfl⟩⟩, hinv, ?_⟩
  cases hw : s.work with
  | nil => rfl
  | cons p work =>
      rw [Disasm.turn, hw] at hend
      dsimp only at hend
      split at hend
      · cases hend
      · split at hend <;> cases hend

/-- **The loop ends with the reachable code, each place decoded once**, and the result is
exact if and only if no function is named only in a slot that the count of a shape leaves
out. -/
theorem disassemble_exact (hs : view.Sane) (entry : ℕ) :
    ∃ s, (∃ n, ∀ m, n < m → Lib.loop (turn view (Shapes.new view.templates)) m (start view entry)
          = some s ∧ disassemble view entry m = some (finish s)) ∧
      (s.decoded.Nodup ∧ Exact view entry (finish s) ↔ Covered view entry) := by
  obtain ⟨s, hrun, hinv, hwork⟩ := disassemble_ends hs entry
  refine ⟨s, hrun, ?_⟩
  obtain ⟨seen, hsearch, hseen⟩ := hinv.search
  rw [hwork] at hsearch
  have hreach : ∀ p < view.decoder.code.length, p ∈ s.decoded ↔ Reach (Leads view) entry p :=
    fun p hp => (hseen p hp).symm.trans (hsearch.done p)
  have hentries : ∀ q, q ∈ (finish s).entries ↔
      q = entry ∨ ∃ p, Reach (Leads view) entry p ∧ StartsMarked view p q := by
    intro q
    rw [mem_finish, hinv.entries q]
    refine or_congr_right ⟨fun ⟨p, hp, hst⟩ => ?_, fun ⟨p, hp, hst⟩ => ?_⟩
    · exact ⟨p, (hreach p (hinv.visited.within p hp)).1 hp, hst⟩
    · obtain ⟨_, _, _, hdec, -⟩ := id hst
      exact ⟨p, (hreach p hdec.lt).2 hp, hst⟩
  constructor
  · rintro ⟨-, hexact⟩ p q hp hst
    exact (hentries q).1 (hexact.linked.2 p q hp hst)
  · intro hcov
    refine ⟨hinv.visited.nodup, ⟨?_, ?_, hinv.listed.right, finish_sorted s, ?_, ?_⟩⟩
    · intro i ins p hi
      constructor
      · intro hp
        have hlt := (List.getElem?_eq_some_iff.1 hi).1
        have hlen := hinv.visited.length_le
        have hsize : view.decoder.code.length < 2 ^ 32 - 1 := hs.length
        have hcount := hinv.listed.count
        have hbad : i + 1 ≠ BAD_INSTR := by
          show i + 1 ≠ 2 ^ 32 - 1
          have : i < s.instrs.length := hlt
          omega
        obtain ⟨ins', hi', hpc⟩ := hinv.listed.named p (i + 1) hp (Nat.succ_ne_zero i) hbad
        rw [Nat.add_sub_cancel] at hi'
        have heq : ins = ins' := Option.some.inj (hi.symm.trans hi')
        rw [heq, hpc]
      · rintro rfl
        exact (hinv.listed.instr i ins hi).1
    · intro p
      constructor
      · rintro ⟨ins, hi, rfl⟩
        obtain ⟨t, r, hdec, -⟩ := hinv.listed.right ins hi
        obtain ⟨i, hlt, hget⟩ := List.mem_iff_getElem.1 hi
        have hmem := (hinv.listed.instr i ins (List.getElem?_eq_some_iff.2 ⟨hlt, hget⟩)).2
        exact ⟨(hreach _ hdec.lt).1 hmem, _, t, r, hdec⟩
      · rintro ⟨hp, h, t, r, hdec⟩
        exact hinv.listed.all p ((hreach p hdec.lt).2 hp) h t r hdec
    · exact (hentries entry).2 (.inl rfl)
    · exact fun p q hp hst => (hentries q).2 (hcov p q hp hst)

/-- A code of one instruction whose handler creates `k` functions at place `1`. -/
def creating (k : ℕ) : View where
  decoder := { ones 0 with code := [0, 3] }
  templates := [.ok (creates k)]
  perms := [[0]]
  genOf := []
  perms_ne := List.cons_ne_nil _ _
  gen_lt := fun g hg => by cases hg

theorem sane_creating {k : ℕ} (hk : k < 2 ^ 32) : (creating k).Sane where
  tags := ones_distinct 0
  lifted := fun t ht => by
    cases List.mem_singleton.1 ht
    exact lifted_creates k
  fits := fits_creates hk
  length := by
    show 2 < 2 ^ 32 - 1
    decide

/-- A handler that creates three functions: the disassembly is exact. -/
theorem disassemble_exact_three :
    ∃ s, (∃ n, ∀ m, n < m →
        Lib.loop (turn (creating 3) (Shapes.new (creating 3).templates)) m (start (creating 3) 0)
          = some s ∧ disassemble (creating 3) 0 m = some (finish s)) ∧
      (s.decoded.Nodup ∧ Exact (creating 3) 0 (finish s)) := by
  obtain ⟨s, hrun, hexact⟩ := disassemble_exact (sane_creating (k := 3) (by decide)) 0
  refine ⟨s, hrun, hexact.2 (covered_of_lt fun t ht => ?_)⟩
  cases List.mem_singleton.1 ht
  decide

theorem decodes_creating (k : ℕ) :
    Decodes (creating k) 0 0 (creates k) (⟨2, none⟩, [.int 1]) where
  handler := rfl
  template := rfl
  decode := rfl

/-- **A handler that creates 256 functions: the start of the functions is no entry.** -/
theorem disassemble_not_exact : ¬ ∀ view : View, view.Sane → ∀ entry, ∃ s,
    (∃ n, ∀ m, n < m → Lib.loop (turn view (Shapes.new view.templates)) m (start view entry)
        = some s ∧ disassemble view entry m = some (finish s)) ∧
      (s.decoded.Nodup ∧ Exact view entry (finish s)) := by
  intro h
  have hsane : (creating 256).Sane := sane_creating (by decide)
  obtain ⟨s, ⟨n, hrun⟩, -, hexact⟩ := h _ hsane 0
  obtain ⟨s', ⟨n', hrun'⟩, hinv, -⟩ := disassemble_ends hsane 0
  have hs : s = s' := by
    have hm := (hrun (n + n' + 1) (by omega)).1
    have hm' := (hrun' (n + n' + 1) (by omega)).1
    exact Option.some.inj (hm.symm.trans hm')
  have hstarts : Starts (creating 256) 0 1 :=
    ⟨0, _, _, decodes_creating 256, 0, List.mem_replicate.2 ⟨by decide, rfl⟩, rfl⟩
  have hmem := hexact.linked.2 0 1 .refl hstarts
  rw [mem_finish, hs, hinv.entries] at hmem
  rcases hmem with hmem | ⟨p, -, hd, t, r, hdec, x, hx, -⟩
  · cases hmem
  · have ht : t = creates 256 :=
      Except.ok.inj (List.mem_singleton.1 (List.mem_of_getElem? hdec.template))
    have hlen : (creates 256).closures.length = 256 := List.length_replicate
    have hcount : (creates 256).closures.length % 2 ^ 8 = 0 := by omega
    rw [ht, hcount, List.take_zero] at hx
    cases hx

end Disasm
end Lunar
