/-
# What the pass over the instructions finds

`scan` notes the edges of every instruction, makes leaders of what an edge leads to that is
not the fall-through, and fills tables whose entries are in range (`scan_inv`).  One
instruction adds to the tables and takes nothing away (`tables_ok`).
-/

import Lunar.Worktime.Fc.Build

namespace Lunar
namespace Fc

open Worktime (Instr Op Operand PoolRef instrIndex)

/-! ## Edges -/

/-- An edge of the instruction graph. -/
def Flows (instrs : List Instr) (i j : ℕ) : Prop :=
  ∃ ins e, instrs[i]? = some ins ∧ edge instrs i ins = .ok e ∧ (e.1 = some j ∨ e.2 = some j)

theorem instrIndex_lt {instrs : List Instr} {pc i : ℕ} (h : instrIndex instrs pc = some i) :
    i < instrs.length := by
  rw [instrIndex, Lib.binarySearch] at h
  split at h
  · next hget =>
      rw [← Option.some_inj.1 h]
      have hlt := (List.getElem?_eq_some_iff.1 hget).1
      exact Nat.lt_of_lt_of_eq hlt (List.length_map ..)
  · cases h

theorem after_eq_some {instrs : List Instr} {i j : ℕ} :
    after instrs i = some j ↔ j = i + 1 ∧ j < instrs.length := by
  rw [after]
  split
  · constructor
    · intro h
      cases h
      exact ⟨rfl, by assumption⟩
    · rintro ⟨rfl, -⟩
      rfl
  · constructor
    · intro h
      cases h
    · rintro ⟨rfl, hlt⟩
      omega

theorem branchTarget_ok {instrs : List Instr} {ins : Instr} {t : ℕ}
    (h : branchTarget instrs ins = .ok t) : t < instrs.length := by
  rw [branchTarget] at h
  split at h
  · next heq =>
      rw [← Except.ok.inj h]
      obtain ⟨pc, -, hpc⟩ := Option.bind_eq_some_iff.1 heq
      exact instrIndex_lt hpc
  · cases h

theorem handlerTarget_ok {instrs : List Instr} {ins : Instr} {target : Option ℕ} {t : ℕ}
    (h : handlerTarget instrs ins = .ok target) (ht : target = some t) : t < instrs.length := by
  subst ht
  rw [handlerTarget] at h
  split at h
  · split at h
    · split at h
      · next heq =>
          rw [← Option.some_inj.1 (Except.ok.inj h)]
          exact instrIndex_lt heq
      · cases h
    · cases h
  · cases h

/-- Edges stay among the instructions. -/
theorem edge_lt {instrs : List Instr} {i : ℕ} {ins : Instr} {e : Edge}
    (h : edge instrs i ins = .ok e) {t : ℕ} (ht : e.1 = some t ∨ e.2 = some t) :
    t < instrs.length := by
  have hafter {t : ℕ} (ht : after instrs i = some t) : t < instrs.length := (after_eq_some.1 ht).2
  rw [edge] at h
  split at h
  · split at h
    · obtain ⟨target, htarget, h⟩ := Lib.bind_ok h
      cases h
      rcases ht with ht | ht
      · exact hafter ht
      · exact handlerTarget_ok htarget ht
    · obtain ⟨target, htarget, h⟩ := Lib.bind_ok h
      cases h
      rcases ht with ht | ht
      · exact hafter ht
      · exact handlerTarget_ok htarget ht
    · cases h
      rcases ht with ht | ht
      · exact hafter ht
      · cases ht
  · obtain ⟨target, htarget, h⟩ := Lib.bind_ok h
    cases h
    rcases ht with ht | ht
    · exact Option.some_inj.1 ht ▸ branchTarget_ok htarget
    · cases ht
  · obtain ⟨target, htarget, h⟩ := Lib.bind_ok h
    cases h
    rcases ht with ht | ht
    · exact hafter ht
    · exact Option.some_inj.1 ht ▸ branchTarget_ok htarget
  · obtain ⟨target, htarget, h⟩ := Lib.bind_ok h
    cases h
    rcases ht with ht | ht
    · exact hafter ht
    · exact Option.some_inj.1 ht ▸ branchTarget_ok htarget
  · cases h
    rcases ht with ht | ht <;> cases ht

/-! ## An instruction adds to the tables -/

/-- Tables that have grown: what was in range still is, and a new entry is a leader. -/
structure Scan.Grown (instrs : List Instr) (s s' : Scan) : Prop where
  succ : s'.succ = s.succ
  aux : s'.aux = s.aux
  lead : ∀ t, s.lead t = true → s'.lead t = true
  names : s.names.length ≤ s'.names.length
  byRef : (∀ p ∈ s.byRef, p.2 < s.names.length) → ∀ p ∈ s'.byRef, p.2 < s'.names.length
  entries : s.entries.length ≤ s'.entries.length
  entered : ∀ e ∈ s'.entries, e ∈ s.entries ∨ e < instrs.length ∧ s'.lead e = true
  nallocs : s.nallocs ≤ s'.nallocs
  sites : s.siteLen.length = s.nallocs → s'.siteLen.length = s'.nallocs
  nvars : s.nvars ≤ s'.nvars

/-- What does not touch the tables. -/
theorem Scan.Grown.refl (instrs : List Instr) (s : Scan) : s.Grown instrs s :=
  ⟨rfl, rfl, fun _ h => h, Nat.le_refl _, fun h => h, Nat.le_refl _, fun _ h => .inl h,
    Nat.le_refl _, fun h => h, Nat.le_refl _⟩

/-- The instructions that name a variable. -/
def NamesVar (op : Op) : Prop :=
  op = .getVar ∨ op = .assignVar ∨ op = .setVar ∨ op = .clearVar ∨ op = .setVarSelf ∨
    op = .setVarExc

/-- What an instruction has put into the tables is in range. -/
structure Scan.Holds (s : Scan) (ins : Instr) (a : Aux) : Prop where
  key : ∀ id, a.key = some id → id < s.names.length
  closure : ins.op = .closure → a.site < s.entries.length
  array : ins.op = .newArr ∨ ins.op = .newArrN → a.site < s.nallocs
  vars : NamesVar ins.op → ∀ id, ins.arg 0 = .int id → 0 ≤ id → id.toNat < s.nvars

theorem Scan.Holds.mono {instrs : List Instr} {s s' : Scan} {ins : Instr} {a : Aux}
    (h : s.Holds ins a) (hg : s.Grown instrs s') : s'.Holds ins a where
  key id hid := Nat.lt_of_lt_of_le (h.key id hid) hg.names
  closure hop := Nat.lt_of_lt_of_le (h.closure hop) hg.entries
  array hop := Nat.lt_of_lt_of_le (h.array hop) hg.nallocs
  vars hop id hid hpos := Nat.lt_of_lt_of_le (h.vars hop id hid hpos) hg.nvars

theorem addName_grown (instrs : List Instr) (s : Scan) (name : KeyName) :
    s.Grown instrs (s.addName name) ∧ (s.addName name).names.length = s.names.length + 1 := by
  have hlen : (s.names ++ [name]).length = s.names.length + 1 := by
    rw [List.length_append, List.length_singleton]
  have hbase (dynKey ffKey hdrKey : Option ℕ) :
      s.Grown instrs { s with names := s.names ++ [name], dynKey, ffKey, hdrKey } :=
    ⟨rfl, rfl, fun _ h => h, by rw [hlen]; omega,
      fun h p hp => Nat.lt_of_lt_of_le (h p hp) (by rw [hlen]; omega), Nat.le_refl _,
      fun _ h => .inl h, Nat.le_refl _, fun h => h, Nat.le_refl _⟩
  cases name with
  | units u =>
      unfold Scan.addName
      dsimp only
      split_ifs
      all_goals exact ⟨hbase _ _ _, hlen⟩
  | index i => exact ⟨hbase _ _ _, hlen⟩
  | lit l => exact ⟨hbase _ _ _, hlen⟩

/-- A name found or added has its number among the names. -/
theorem idOf_spec (instrs : List Instr) (s : Scan) (name : KeyName) :
    s.Grown instrs (s.idOf name).2 ∧ (s.idOf name).1 < (s.idOf name).2.names.length := by
  unfold Scan.idOf
  split
  · next j hj => exact ⟨.refl instrs s, (List.idxOf?_eq_some_iff.1 hj).1⟩
  · obtain ⟨hg, hlen⟩ := addName_grown instrs s name
    exact ⟨hg, by rw [hlen]; exact Nat.lt_succ_self _⟩

theorem Scan.Grown.cache {instrs : List Instr} {s s' : Scan} (h : s.Grown instrs s') (key : Operand)
    {id : ℕ} (hid : id < s'.names.length) : s.Grown instrs (s'.cache key id) := by
  cases key with
  | str r =>
      refine ⟨h.succ, h.aux, h.lead, h.names, fun hs p hp => ?_, h.entries, h.entered, h.nallocs,
        h.sites, h.nvars⟩
      rcases List.mem_cons.1 hp with rfl | hp
      · exact hid
      · exact h.byRef hs p hp
  | int | dbl | true | false | null | undef | reg => exact h

theorem cache_names (s : Scan) (key : Operand) (id : ℕ) : (s.cache key id).names = s.names := by
  cases key <;> rfl

theorem nameOf_spec {instrs : List Instr} {pool : List UInt16} {s s' : Scan} {key : Operand}
    {found : Option ℕ} (hrefs : ∀ p ∈ s.byRef, p.2 < s.names.length)
    (h : s.nameOf pool key = (found, s')) :
    s.Grown instrs s' ∧ ∀ id, found = some id → id < s'.names.length := by
  unfold Scan.nameOf at h
  split at h
  · next id hcached =>
      cases h
      refine ⟨.refl instrs s, fun id' hid => ?_⟩
      rw [← Option.some_inj.1 hid]
      cases key with
      | str r =>
          obtain ⟨l₁, l₂, heq, -⟩ := List.lookup_eq_some_iff.1 hcached
          exact hrefs (r, id) (heq ▸ List.mem_append_right l₁ List.mem_cons_self)
      | int | dbl | true | false | null | undef | reg => cases hcached
  · split at h
    · next name hname =>
        obtain ⟨hg, hid⟩ := idOf_spec instrs s name
        cases h
        refine ⟨hg.cache key hid, fun id' hid' => ?_⟩
        rw [← Option.some_inj.1 hid', cache_names]
        exact hid
    · cases h
      exact ⟨.refl instrs s, fun id hid => by cases hid⟩

/-! ## One instruction -/

theorem Scan.Grown.seeds {instrs : List Instr} {s s' : Scan} (h : s.Grown instrs s') (c : Prop)
    [Decidable c] : s.Grown instrs (if c then { s' with seeded := true } else s') := by
  split
  · exact ⟨h.succ, h.aux, h.lead, h.names, h.byRef, h.entries, h.entered, h.nallocs, h.sites,
      h.nvars⟩
  · exact h

/-- A closure's entry becomes a leader and, if it is new, an entry. -/
theorem lead_grown {instrs : List Instr} (s : Scan) {idx : ℕ} (hidx : idx < instrs.length)
    {entries : List ℕ} (hentries : entries = s.entries ∨ entries = s.entries ++ [idx]) :
    s.Grown instrs { s with lead := Function.update s.lead idx true, entries } := by
  have hlead : Function.update s.lead idx true idx = true := Function.update_self ..
  refine ⟨rfl, rfl, fun t ht => ?_, Nat.le_refl _, fun h => h, ?_, fun e he => ?_, Nat.le_refl _,
    fun h => h, Nat.le_refl _⟩
  · show Function.update s.lead idx true t = true
    by_cases hti : t = idx
    · rw [hti, hlead]
    · rw [Function.update_of_ne hti, ht]
  · show s.entries.length ≤ entries.length
    rcases hentries with rfl | rfl
    · exact Nat.le_refl _
    · rw [List.length_append]
      omega
  · rcases hentries with rfl | rfl
    · exact .inl he
    · rcases List.mem_append.1 he with he | he
      · exact .inl he
      · rw [List.mem_singleton.1 he]
        exact .inr ⟨hidx, hlead⟩

theorem keyed_spec (instrs : List Instr) {pool : List UInt16} {s : Scan} {ins : Instr} {a : Aux}
    (hrefs : ∀ p ∈ s.byRef, p.2 < s.names.length) (ha : a.key = none) :
    s.Grown instrs (s.keyed pool ins a).2 ∧
      ∀ id, (s.keyed pool ins a).1.key = some id → id < (s.keyed pool ins a).2.names.length := by
  rcases hname : s.nameOf pool (ins.arg 1) with ⟨found, s'⟩
  obtain ⟨hg, hid⟩ := @nameOf_spec instrs _ _ _ _ _ hrefs hname
  rw [Scan.keyed, hname]
  cases found with
  | none => exact ⟨hg, fun id h => absurd (ha.symm.trans h) nofun⟩
  | some id =>
      refine ⟨hg.seeds _, fun id' h => ?_⟩
      rw [← Option.some_inj.1 h]
      exact Nat.lt_of_lt_of_le (hid id rfl) ((Scan.Grown.refl instrs s').seeds _).names

theorem allocated_grown (instrs : List Instr) (s : Scan) (ins : Instr) (a : Aux) :
    s.Grown instrs (s.allocated ins a).2 := by
  refine ⟨rfl, rfl, fun _ h => h, Nat.le_refl _, fun h => h, Nat.le_refl _, fun _ h => .inl h,
    Nat.le_succ _, fun h => ?_, Nat.le_refl _⟩
  rw [Scan.allocated, List.length_append, List.length_singleton, h]

theorem entered_ok {instrs : List Instr} {s s' : Scan} {ins : Instr} {a a' : Aux}
    (h : s.entered instrs ins a = .ok (a', s')) :
    s.Grown instrs s' ∧ a'.key = a.key ∧ a'.site < s'.entries.length := by
  unfold Scan.entered at h
  dsimp only at h
  split at h
  · cases h
  · next entry idx hidx =>
      have hlt : idx < instrs.length := by
        rw [Option.ite_none_right_eq_some] at hidx
        exact instrIndex_lt hidx.2
      split at h
      · next f hf =>
          cases h
          exact ⟨lead_grown s hlt (.inl rfl), rfl, (List.idxOf?_eq_some_iff.1 hf).1⟩
      · cases h
        refine ⟨lead_grown s hlt (.inr rfl), rfl, ?_⟩
        rw [List.length_append, List.length_singleton]
        exact Nat.lt_succ_self _

theorem counted_ok (instrs : List Instr) {s s' : Scan} {ins : Instr} (h : s.counted ins = .ok s') :
    s.Grown instrs s' ∧ ∀ id, ins.arg 0 = .int id → 0 ≤ id → id.toNat < s'.nvars := by
  rw [Scan.counted] at h
  split at h
  · next id hid =>
      split at h
      · cases h
      · cases h
        rw [hid]
        split
        · refine ⟨⟨rfl, rfl, fun _ h => h, Nat.le_refl _, fun h => h, Nat.le_refl _,
            fun _ h => .inl h, Nat.le_refl _, fun h => h, Nat.le_max_left _ _⟩, fun id' hid' _ => ?_⟩
          rw [← Operand.int.inj hid']
          exact Nat.le_max_right _ _
        · next hneg =>
            exact ⟨.refl instrs s, fun id' hid' hpos => absurd (Operand.int.inj hid' ▸ hpos) hneg⟩
  · next hno =>
      cases h
      exact ⟨.refl instrs s, fun id hid => absurd hid (hno id)⟩

/-- **What an instruction adds to the tables** is in range, and nothing is taken away. -/
theorem tables_ok {instrs : List Instr} {pool : List UInt16} {s s' : Scan} {ins : Instr}
    {a a' : Aux} (hrefs : ∀ p ∈ s.byRef, p.2 < s.names.length) (ha : a.key = none)
    (h : s.tables instrs pool ins a = .ok (a', s')) :
    s.Grown instrs s' ∧ s'.Holds ins a' := by
  have hnone (s : Scan) : ∀ id, a.key = some id → id < s.names.length :=
    fun id hid => absurd (ha.symm.trans hid) nofun
  have hvar {op : Op} (heq : ins.op = op) (hnot : ¬ NamesVar op) :
      NamesVar ins.op → ∀ id, ins.arg 0 = .int id → 0 ≤ id → id.toNat < s'.nvars :=
    fun hnames => absurd (heq ▸ hnames) hnot
  have hkeyed (heq : ins.op = .getProp ∨ ins.op = .setProp)
      (h : (Except.ok (s.keyed pool ins a) : Except FcError _) = .ok (a', s')) :
      s.Grown instrs s' ∧ s'.Holds ins a' := by
    obtain ⟨hg, hid⟩ := @keyed_spec instrs pool _ ins _ hrefs ha
    rw [Except.ok.inj h] at hg hid
    rcases heq with heq | heq
    · exact ⟨hg, hid, by rw [heq]; nofun, by rw [heq]; nofun, hvar heq (by unfold NamesVar; decide)⟩
    · exact ⟨hg, hid, by rw [heq]; nofun, by rw [heq]; nofun, hvar heq (by unfold NamesVar; decide)⟩
  have harray (heq : ins.op = .newArr ∨ ins.op = .newArrN)
      (h : (Except.ok (s.allocated ins a) : Except FcError _) = .ok (a', s')) :
      s.Grown instrs s' ∧ s'.Holds ins a' := by
    have hg := allocated_grown instrs s ins a
    rw [Except.ok.inj h] at hg
    have hsite : a' = { a with site := s.nallocs } ∧ s'.nallocs = s.nallocs + 1 := by
      have hpair := Except.ok.inj h
      exact ⟨(congrArg Prod.fst hpair).symm, (congrArg (·.2.nallocs) hpair).symm⟩
    have hlt : a'.site < s'.nallocs := by
      rw [hsite.1, hsite.2]
      exact Nat.lt_succ_self _
    have hkey : ∀ id, a'.key = some id → id < s'.names.length := by
      rw [hsite.1]
      exact hnone s'
    rcases heq with heq | heq
    · exact ⟨hg, hkey, by rw [heq]; nofun, fun _ => hlt, hvar heq (by unfold NamesVar; decide)⟩
    · exact ⟨hg, hkey, by rw [heq]; nofun, fun _ => hlt, hvar heq (by unfold NamesVar; decide)⟩
  have hcounted (heq : NamesVar ins.op)
      (h : (s.counted ins >>= fun s => Except.ok (a, s)) = .ok (a', s')) :
      s.Grown instrs s' ∧ s'.Holds ins a' := by
    obtain ⟨s₁, hs₁, h⟩ := Lib.bind_ok h
    cases h
    obtain ⟨hg, hvars⟩ := counted_ok instrs hs₁
    refine ⟨hg, hnone s', fun hop => ?_, fun hop => ?_, fun _ => hvars⟩
    · rw [hop] at heq
      exact absurd heq (by unfold NamesVar; decide)
    · rcases hop with hop | hop
      · rw [hop] at heq
        exact absurd heq (by unfold NamesVar; decide)
      · rw [hop] at heq
        exact absurd heq (by unfold NamesVar; decide)
  rw [Scan.tables] at h
  split at h
  · next heq => exact hkeyed (.inl heq) h
  · next heq => exact hkeyed (.inr heq) h
  · next heq => exact harray (.inl heq) h
  · next heq => exact harray (.inr heq) h
  · next heq =>
      obtain ⟨hg, hkey, hsite⟩ := entered_ok h
      exact ⟨hg, hkey ▸ hnone s', fun _ => hsite, by rw [heq]; nofun,
        hvar heq (by unfold NamesVar; decide)⟩
  · next heq => exact hcounted (.inl heq) h
  · next heq => exact hcounted (.inr (.inl heq)) h
  · next heq => exact hcounted (.inr (.inr (.inl heq))) h
  · next heq => exact hcounted (.inr (.inr (.inr (.inl heq)))) h
  · next heq => exact hcounted (.inr (.inr (.inr (.inr (.inl heq))))) h
  · next heq => exact hcounted (.inr (.inr (.inr (.inr (.inr heq))))) h
  · next hget hset harr harrN hclosure h₁ h₂ h₃ h₄ h₅ h₆ =>
      cases h
      refine ⟨.refl instrs s, hnone s, fun hop => absurd hop hclosure, ?_, ?_⟩
      · rintro (hop | hop)
        · exact absurd hop harr
        · exact absurd hop harrN
      · rintro (hop | hop | hop | hop | hop | hop)
        all_goals contradiction

/-! ## The whole pass -/

/-- The `i`-th edge falls through, or what it leads to and the next instruction are leaders. -/
def Scan.Cuts (s : Scan) (instrs : List Instr) (i : ℕ) (e : Edge) : Prop :=
  e = (after instrs i, none) ∨
    ∀ t, e.1 = some t ∨ e.2 = some t ∨ after instrs i = some t → s.lead t = true

/-- What the pass has found after `k` instructions. -/
structure Scan.Inv (instrs : List Instr) (k : ℕ) (s : Scan) : Prop where
  succ : s.succ.length = k
  aux : s.aux.length = k
  edges : ∀ i ins, i < k → instrs[i]? = some ins →
    ∃ e, s.succ[i]? = some e ∧ edge instrs i ins = .ok e ∧ s.Cuts instrs i e
  zero : s.lead 0 = true
  entries : ∀ e ∈ s.entries, e < instrs.length ∧ s.lead e = true
  entered : 0 < s.entries.length
  byRef : ∀ p ∈ s.byRef, p.2 < s.names.length
  sites : s.siteLen.length = s.nallocs
  holds : ∀ i ins a, i < k → instrs[i]? = some ins → s.aux[i]? = some a → s.Holds ins a

theorem mark_of (lead : ℕ → Bool) (o : Option ℕ) {t : ℕ} (h : lead t = true ∨ o = some t) :
    mark lead o t = true := by
  cases o with
  | none =>
      rcases h with h | h
      · exact h
      · cases h
  | some u =>
      rw [mark]
      by_cases htu : t = u
      · rw [htu, Function.update_self]
      · rw [Function.update_of_ne htu]
        exact h.resolve_right fun heq => htu (Option.some_inj.1 heq).symm

/-- The edge of the next instruction is noted. -/
theorem flow_spec (s : Scan) (instrs : List Instr) (i : ℕ) (e : Edge) :
    (∀ t, s.lead t = true → (s.flow instrs i e).lead t = true) ∧
      (s.flow instrs i e).Cuts instrs i e := by
  rw [Scan.Cuts, Scan.flow]
  dsimp only
  split
  · refine ⟨fun t ht => mark_of _ _ (.inl (mark_of _ _ (.inl (mark_of _ _ (.inl ht))))), .inr ?_⟩
    rintro t (ht | ht | ht)
    · exact mark_of _ _ (.inl (mark_of _ _ (.inl (mark_of _ _ (.inr ht)))))
    · exact mark_of _ _ (.inl (mark_of _ _ (.inr ht)))
    · exact mark_of _ _ (.inr ht)
  · next hno =>
      obtain ⟨h₁, h₂⟩ := not_or.1 hno
      exact ⟨fun t ht => ht, .inl (Prod.ext (not_not.1 h₁) (not_not.1 h₂))⟩

theorem Scan.Cuts.mono {instrs : List Instr} {s s' : Scan} {i : ℕ} {e : Edge}
    (h : s.Cuts instrs i e) (hlead : ∀ t, s.lead t = true → s'.lead t = true) :
    s'.Cuts instrs i e := h.imp_right fun h t ht => hlead t (h t ht)

theorem start_inv {instrs : List Instr} (h : instrs ≠ []) : Scan.Inv instrs 0 .start where
  succ := rfl
  aux := rfl
  edges i _ hi := absurd hi (Nat.not_lt_zero i)
  zero := rfl
  entries e he := by
    rw [List.mem_singleton.1 he]
    exact ⟨List.length_pos_iff.2 h, rfl⟩
  entered := Nat.one_pos
  byRef _ hp := absurd hp List.not_mem_nil
  sites := rfl
  holds i _ _ hi := absurd hi (Nat.not_lt_zero i)

/-- A turn of the pass keeps what it has found. -/
theorem Scan.Inv.step {instrs : List Instr} {pool : List UInt16} {k : ℕ} {ins : Instr}
    {s s' : Scan} (hins : instrs[k]? = some ins) (h : s.Inv instrs k)
    (hs : s.step instrs pool (ins, k) = .ok s') : s'.Inv instrs (k + 1) := by
  obtain ⟨e, he, hs⟩ := Lib.bind_ok hs
  obtain ⟨⟨a, s₁⟩, hs₁, hs⟩ := Lib.bind_ok hs
  cases hs
  -- the tables grow from those with the edge noted
  let s₀ : Scan := Scan.flow { s with seeded := s.seeded || headerBits pool ins ≠ 0 } instrs k e
  obtain ⟨hlead, hcuts⟩ := flow_spec { s with seeded := s.seeded || headerBits pool ins ≠ 0 }
    instrs k e
  have hrefs : ∀ p ∈ s₀.byRef, p.2 < s₀.names.length := h.byRef
  obtain ⟨hg, hholds⟩ := tables_ok hrefs rfl hs₁
  have hsucc : s₁.succ = s.succ ++ [e] := hg.succ
  have haux : s₁.aux = s.aux := hg.aux
  have hlead₁ (t : ℕ) (ht : s.lead t = true) : s₁.lead t = true := hg.lead t (hlead t ht)
  refine ⟨?_, ?_, fun i ins' hi hins' => ?_, hlead₁ 0 h.zero, fun e' he' => ?_,
    Nat.lt_of_lt_of_le h.entered hg.entries, hg.byRef h.byRef, hg.sites h.sites,
    fun i ins' a' hi hins' ha' => ?_⟩
  · show s₁.succ.length = k + 1
    rw [hsucc, List.length_append, h.succ, List.length_singleton]
  · show (s₁.aux ++ [a]).length = k + 1
    rw [haux, List.length_append, h.aux, List.length_singleton]
  · show ∃ e', s₁.succ[i]? = some e' ∧ _ ∧ _
    rw [hsucc]
    rcases Nat.lt_succ_iff_lt_or_eq.1 hi with hlt | rfl
    · obtain ⟨e', hget, hedge, hcut⟩ := h.edges i ins' hlt hins'
      exact ⟨e', by rw [List.getElem?_append_left (by rw [h.succ]; exact hlt), hget], hedge,
        hcut.mono hlead₁⟩
    · refine ⟨e, by rw [← h.succ, List.getElem?_concat_length], ?_, hcuts.mono hg.lead⟩
      rw [hins] at hins'
      exact Option.some_inj.1 hins' ▸ he
  · rcases hg.entered e' he' with hold | hnew
    · exact (h.entries e' hold).imp_right (hlead₁ e')
    · exact hnew
  · have hget : (s.aux ++ [a])[i]? = some a' := haux ▸ ha'
    rcases Nat.lt_succ_iff_lt_or_eq.1 hi with hlt | rfl
    · rw [List.getElem?_append_left (by rw [h.aux]; exact hlt)] at hget
      have hold := h.holds i ins' a' hlt hins' hget
      have hold₀ : s₀.Holds ins' a' := ⟨hold.key, hold.closure, hold.array, hold.vars⟩
      have hnew := hold₀.mono hg
      exact ⟨hnew.key, hnew.closure, hnew.array, hnew.vars⟩
    · rw [← h.aux, List.getElem?_concat_length] at hget
      rw [hins] at hins'
      rw [← Option.some_inj.1 hget, ← Option.some_inj.1 hins']
      exact ⟨hholds.key, hholds.closure, hholds.array, hholds.vars⟩

/-- **What the pass finds**, for every instruction. -/
theorem scan_inv {instrs : List Instr} {pool : List UInt16} {s : Scan} (hne : instrs ≠ [])
    (h : scan instrs pool = .ok s) : s.Inv instrs instrs.length :=
  Lib.foldlM_zipIdx (P := fun k s => Scan.Inv instrs k s)
    (fun _ _ _ _ hins hinv hstep => hinv.step hins hstep) (start_inv hne) h

/-- The edges noted are those of the instructions. -/
theorem Scan.Inv.flows_iff {instrs : List Instr} {s : Scan} (h : s.Inv instrs instrs.length)
    {i j : ℕ} : Flows instrs i j ↔ ∃ e, s.succ[i]? = some e ∧ (e.1 = some j ∨ e.2 = some j) := by
  constructor
  · rintro ⟨ins, e, hins, hedge, hj⟩
    obtain ⟨e', hget, hedge', -⟩ := h.edges i ins (List.getElem?_eq_some_iff.1 hins).1 hins
    rw [hedge] at hedge'
    exact ⟨e, Except.ok.inj hedge' ▸ hget, hj⟩
  · rintro ⟨e, hget, hj⟩
    have hlt : i < instrs.length := h.succ ▸ (List.getElem?_eq_some_iff.1 hget).1
    have hins := List.getElem?_eq_getElem hlt
    obtain ⟨e', hget', hedge, -⟩ := h.edges i _ hlt hins
    rw [hget] at hget'
    exact ⟨_, e, hins, Option.some_inj.1 hget' ▸ hedge, hj⟩

end Fc
end Lunar
