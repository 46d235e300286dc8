/-
# What lowering emits

`payload/exec.rs`: `lower_expr`, `lower_list` and what they are built from.

Lowering keeps `Fine`: an op reads registers below the count of them, constants and lists that are
in their tables, variables at the slots that `resolve_static` gives; jumps lead to places of the
code so far; and a register from `nregs` on is read only where it has been written.  For the last a
ghost (`Marks`) says for each place which registers have been written when control comes there.
A part of the code only adds to what was known where it starts (`Ext`).
-/

import Lunar.Lib.Concat
import Lunar.Lib.Loop
import Lunar.Payload.Exec.Liveness
import Lunar.Payload.Interp.Lower

namespace Lunar
namespace Interp

open Exec (Op NOSLOT opDef opTargets exits shape slice)
open Devirt (Expr Stmt)
open LowerM

theorem lowerM_bind {α β : Type} {x : LowerM α} {f : α → LowerM β} {lw lw'' : Lower} {b : β}
    (h : (x >>= f) lw = .ok (b, lw'')) :
    ∃ a lw', x lw = .ok (a, lw') ∧ f a lw' = .ok (b, lw'') := by
  obtain ⟨⟨a, lw'⟩, hx, hf⟩ := Lib.bind_ok (x := x lw) (f := fun r => f r.1 r.2) h
  exact ⟨a, lw', hx, hf⟩

/-! ## Ops -/

/-- The constant that an op reads. -/
def opConst : Op → Option ℕ
  | .const _ c | .name _ c | .memberK _ _ c => some c
  | _ => none

/-- The part of the lists that an op reads. -/
def opSlice : Op → Option (ℕ × ℕ)
  | .call _ _ _ a n | .new _ _ a n | .applyL _ _ _ _ a n | .array _ a n | .object _ a n =>
      some (a, n)
  | _ => none

/-- The variable with a static slot that an op reads or writes: its scopes out, its slot and its
key. -/
def opVar : Op → Option (ℕ × ℕ × ℕ)
  | .varS _ hops slot key | .setVarS hops slot key _ | .setVarK hops slot key _
  | .brVarK hops slot key _ _ _ _ _ => some (hops, slot, key)
  | _ => none

/-- Control may go on to the next op. -/
def opFalls (op : Op) : Bool := (exits op).2.2.1

/-- An op reads what is there. -/
structure OpOk (st : Site) (max consts : ℕ) (lists : List ℕ) (op : Op) : Prop where
  dest : ∀ d, opDef op = some d → d < max
  uses : ∀ r ∈ (shape lists op).uses, r < max
  const : ∀ c, opConst op = some c → c < consts
  slice : ∀ a n, opSlice op = some (a, n) → a + n ≤ lists.length
  named : ∀ hops slot key, opVar op = some (hops, slot, key) → st.resolve key = some (hops, slot)

/-- Longer lists say the same at a place where they agree. -/
theorem slice_longer {ls ls' : List ℕ} (h : ls <+: ls') {a n : ℕ} (hn : a + n ≤ ls.length) :
    slice ls' a n = slice ls a n := by
  obtain ⟨rest, rfl⟩ := h
  rw [slice, slice, List.drop_append_of_le_length (by omega),
    List.take_append_of_le_length (by rw [List.length_drop]; omega)]

theorem uses_longer {ls ls' : List ℕ} (h : ls <+: ls') {op : Op}
    (hslice : ∀ a n, opSlice op = some (a, n) → a + n ≤ ls.length) :
    (shape ls' op).uses = (shape ls op).uses := by
  cases op with
  | call d f this a n =>
      rw [shape, shape, slice_longer h (hslice a n rfl)]
  | new d f a n => rw [shape, shape, slice_longer h (hslice a n rfl)]
  | applyL d f t th a n => rw [shape, shape, slice_longer h (hslice a n rfl)]
  | array d a n => rw [shape, shape, slice_longer h (hslice a n rfl)]
  | object d a n => rw [shape, shape, slice_longer h (hslice a n rfl)]
  | _ => rfl

theorem OpOk.later {st : Site} {m m' c c' : ℕ} {ls ls' : List ℕ} {op : Op}
    (h : OpOk st m c ls op) (hm : m ≤ m') (hc : c ≤ c') (hl : ls <+: ls') :
    OpOk st m' c' ls' op where
  dest d hd := (h.dest d hd).trans_le hm
  uses r hr := (h.uses r (uses_longer hl h.slice ▸ hr)).trans_le hm
  const k hk := (h.const k hk).trans_le hc
  slice a n hs := (h.slice a n hs).trans hl.length_le
  named := h.named

/-- An op that writes no register and reads only registers. -/
theorem OpOk.plain {st : Site} {m c : ℕ} {ls : List ℕ} {op : Op} (hdef : opDef op = none)
    (huses : ∀ r ∈ (shape ls op).uses, r < m) (hconst : opConst op = none)
    (hslice : opSlice op = none) (hvar : opVar op = none) : OpOk st m c ls op where
  dest d hd := by cases hdef.symm.trans hd
  uses := huses
  const k hk := by cases hconst.symm.trans hk
  slice a n hs := by cases hslice.symm.trans hs
  named hops slot key hv := by cases hvar.symm.trans hv

/-- The code with an op at its end. -/
def Lower.push (lw : Lower) (op : Op) : Lower := { lw with ops := lw.ops ++ [op] }

/-- The code with the jump at `i` led to its end. -/
def Lower.aim (lw : Lower) (i : ℕ) : Lower :=
  { lw with ops := lw.ops.modify i (retargeted lw.ops.length) }

@[simp] theorem Lower.length_push (lw : Lower) (op : Op) :
    (lw.push op).ops.length = lw.ops.length + 1 := List.length_append

@[simp] theorem Lower.length_aim (lw : Lower) (i : ℕ) :
    (lw.aim i).ops.length = lw.ops.length := List.length_modify ..

/-! ## Marks -/

/-- The registers that have been written when control comes to a place. -/
abbrev Marks := ℕ → ℕ → Prop

/-- What lowering keeps. -/
structure Fine (st : Site) (lw : Lower) (D : Marks) : Prop where
  next : st.nregs ≤ lw.next
  max : lw.next ≤ lw.max
  ok : ∀ op ∈ lw.ops, OpOk st lw.max lw.consts.length lw.lists op
  reads : ∀ (i : ℕ) (op : Op), lw.ops[i]? = some op →
    ∀ r ∈ (shape lw.lists op).uses, r < st.nregs ∨ D i r
  falls : ∀ (i : ℕ) (op : Op), lw.ops[i]? = some op → opFalls op = true →
    ∀ r, D (i + 1) r → D i r ∨ opDef op = some r
  goes : ∀ (i : ℕ) (op : Op), lw.ops[i]? = some op → ∀ t ∈ opTargets op,
    t ≤ lw.ops.length ∧ ∀ r, D t r → D i r
  empty : ∀ r, ¬D 0 r

/-- Another state of lowering, with the marks of its code: they agree up to where the new part
starts. -/
structure Ext (st : Site) (lw : Lower) (D : Marks) (lw' : Lower) (D' : Marks) : Prop where
  fine : Fine st lw' D'
  len : lw.ops.length ≤ lw'.ops.length
  same : ∀ i ≤ lw.ops.length, D' i = D i
  now : ∀ r, D lw.ops.length r → D' lw'.ops.length r
  max : lw.max ≤ lw'.max
  consts : lw.consts.length ≤ lw'.consts.length
  lists : lw.lists <+: lw'.lists
  patches : lw'.patches = lw.patches

/-- A register that holds a value where the code ends. -/
structure Got (st : Site) (lw : Lower) (D : Marks) (r : ℕ) : Prop where
  lt : r < lw.max
  known : r < st.nregs ∨ D lw.ops.length r

section Rules

variable {st : Site} {lw lw' lw'' : Lower} {D D' D'' : Marks}

theorem Fine.ext (h : Fine st lw D) : Ext st lw D lw D :=
  ⟨h, le_rfl, fun _ _ => rfl, fun _ h => h, le_rfl, le_rfl, List.prefix_rfl, rfl⟩

theorem Ext.trans (h : Ext st lw D lw' D') (h' : Ext st lw' D' lw'' D'') :
    Ext st lw D lw'' D'' where
  fine := h'.fine
  len := h.len.trans h'.len
  same i hi := (h'.same i (hi.trans h.len)).trans (h.same i hi)
  now r hr := h'.now r (h.now r hr)
  max := h.max.trans h'.max
  consts := h.consts.trans h'.consts
  lists := h.lists.trans h'.lists
  patches := h'.patches.trans h.patches

theorem Got.later {r : ℕ} (h : Got st lw D r) (h' : Ext st lw D lw' D') : Got st lw' D' r :=
  ⟨h.lt.trans_le h'.max, h.known.imp_right (h'.now r)⟩

/-- A state with more registers, constants and lists. -/
theorem Fine.grow (h : Fine st lw D) (hops : lw'.ops = lw.ops) (hnext : st.nregs ≤ lw'.next)
    (hmax : lw'.next ≤ lw'.max) (hm : lw.max ≤ lw'.max) (hc : lw.consts.length ≤ lw'.consts.length)
    (hl : lw.lists <+: lw'.lists) (hp : lw'.patches = lw.patches) : Ext st lw D lw' D where
  fine :=
    { next := hnext
      max := hmax
      ok := fun op hop => (h.ok op (hops ▸ hop)).later hm hc hl
      reads := fun i op hop r hr => by
        rw [hops] at hop
        rw [uses_longer hl (h.ok op (List.mem_of_getElem? hop)).slice] at hr
        exact h.reads i op hop r hr
      falls := fun i op hop => h.falls i op (hops ▸ hop)
      goes := fun i op hop t ht => hops ▸ h.goes i op (hops ▸ hop) t ht
      empty := h.empty }
  len := hops ▸ le_rfl
  same _ _ := rfl
  now r hr := hops ▸ hr
  max := hm
  consts := hc
  lists := hl
  patches := hp

/-- **An op** at the end of the code.  What has been written behind it may be chosen. -/
theorem Fine.emit (h : Fine st lw D) {op : Op}
    (hok : OpOk st lw.max lw.consts.length lw.lists op)
    (hreads : ∀ r ∈ (shape lw.lists op).uses, r < st.nregs ∨ D lw.ops.length r)
    (htargets : ∀ t ∈ opTargets op, t = 0) {W : ℕ → Prop}
    (hW : opFalls op = true → ∀ r, W r → D lw.ops.length r ∨ opDef op = some r) :
    Fine st (lw.push op) (Function.update D (lw.ops.length + 1) W) := by
  have hmark {i : ℕ} (hi : i ≤ lw.ops.length) :
      Function.update D (lw.ops.length + 1) W i = D i := Function.update_of_ne (by omega) _ _
  constructor
  case next => exact h.next
  case max => exact h.max
  case ok =>
    intro o ho
    rcases List.mem_append.1 ho with ho | ho
    · exact h.ok o ho
    · exact List.mem_singleton.1 ho ▸ hok
  case reads =>
    intro i o ho
    rcases Lib.getElem?_concat.1 ho with ho | ⟨rfl, rfl⟩
    · rw [hmark (Lib.lt_of_getElem? ho).le]
      exact h.reads i o ho
    · rw [hmark le_rfl]
      exact hreads
  case falls =>
    intro i o ho hfalls r hr
    rcases Lib.getElem?_concat.1 ho with ho | ⟨rfl, rfl⟩
    · have hi := Lib.lt_of_getElem? ho
      rw [hmark hi] at hr
      rw [hmark hi.le]
      exact h.falls i o ho hfalls r hr
    · rw [Function.update_self] at hr
      rw [hmark le_rfl]
      exact hW hfalls r hr
  case goes =>
    intro i o ho t ht
    rcases Lib.getElem?_concat.1 ho with ho | ⟨rfl, rfl⟩
    · obtain ⟨hle, hgo⟩ := h.goes i o ho t ht
      rw [hmark hle, hmark (Lib.lt_of_getElem? ho).le]
      exact ⟨hle.trans (by simp), hgo⟩
    · obtain rfl := htargets t ht
      rw [hmark (Nat.zero_le _)]
      exact ⟨Nat.zero_le _, fun r hr => absurd hr (h.empty r)⟩
  case empty =>
    intro r
    rw [hmark (Nat.zero_le _)]
    exact h.empty r

/-- **Less** may be taken to have been written where the code ends. -/
theorem Fine.shrink (h : Fine st lw D) {W : ℕ → Prop} (hW : ∀ r, W r → D lw.ops.length r) :
    Fine st lw (Function.update D lw.ops.length W) := by
  have hmark {i : ℕ} (hi : i < lw.ops.length) : Function.update D lw.ops.length W i = D i :=
    Function.update_of_ne (by omega) _ _
  have hless (i r : ℕ) (hr : Function.update D lw.ops.length W i r) : D i r := by
    rcases eq_or_ne i lw.ops.length with rfl | hne
    · rw [Function.update_self] at hr
      exact hW r hr
    · rwa [Function.update_of_ne hne] at hr
  constructor
  case next => exact h.next
  case max => exact h.max
  case ok => exact h.ok
  case reads =>
    intro i o ho
    rw [hmark (Lib.lt_of_getElem? ho)]
    exact h.reads i o ho
  case falls =>
    intro i o ho hfalls r hr
    rw [hmark (Lib.lt_of_getElem? ho)]
    exact h.falls i o ho hfalls r (hless _ r hr)
  case goes =>
    intro i o ho t ht
    rw [hmark (Lib.lt_of_getElem? ho)]
    obtain ⟨hle, hgo⟩ := h.goes i o ho t ht
    exact ⟨hle, fun r hr => hgo r (hless _ r hr)⟩
  case empty => exact fun r hr => h.empty r (hless _ r hr)

/-- A change of an op that may lead it to `tgt`. -/
def Leads (ls : List ℕ) (tgt : ℕ) (g : Op → Op) : Prop :=
  ∀ op, (shape ls (g op)).uses = (shape ls op).uses ∧ opDef (g op) = opDef op ∧
    opFalls (g op) = opFalls op ∧ (∀ t ∈ opTargets (g op), t = tgt ∨ t ∈ opTargets op) ∧
    opConst (g op) = opConst op ∧ opSlice (g op) = opSlice op ∧ opVar (g op) = opVar op

theorem retargeted_leads (ls : List ℕ) (tgt : ℕ) : Leads ls tgt (retargeted tgt) := by
  intro op
  cases op <;> simp [retargeted, shape, opTargets, exits, opFalls, opConst, opSlice, opVar, opDef,
    Exec.Shape.uses]

theorem modify_cases {ops : List Op} {g : Op → Op} {i j : ℕ} {o : Op}
    (ho : (ops.modify i g)[j]? = some o) :
    ∃ o', ops[j]? = some o' ∧ (o = o' ∨ i = j ∧ o = g o') := by
  rw [List.getElem?_modify] at ho
  obtain ⟨o', ho', heq⟩ := Option.map_eq_some_iff.1 ho
  refine ⟨o', ho', ?_⟩
  split at heq
  · next hij => exact .inr ⟨hij, heq.symm⟩
  · exact .inl heq.symm

/-- **An op led to a place** where no more may have been written. -/
theorem Fine.lead (h : Fine st lw D) {i tgt : ℕ} {g : Op → Op} (hg : Leads lw.lists tgt g)
    (htgt : tgt ≤ lw.ops.length) (hless : ∀ r, D tgt r → D i r) :
    Fine st { lw with ops := lw.ops.modify i g } D := by
  constructor
  case next => exact h.next
  case max => exact h.max
  case ok =>
    intro o ho
    obtain ⟨j, hj⟩ := List.mem_iff_getElem?.1 ho
    obtain ⟨o', ho', rfl | ⟨-, rfl⟩⟩ := modify_cases hj
    · exact h.ok _ (List.mem_of_getElem? ho')
    · have hok := h.ok _ (List.mem_of_getElem? ho')
      obtain ⟨huses, hdef, -, -, hconst, hslice, hvar⟩ := hg o'
      exact ⟨hdef ▸ hok.dest, huses ▸ hok.uses, hconst ▸ hok.const, hslice ▸ hok.slice,
        hvar ▸ hok.named⟩
  case reads =>
    intro j o ho
    obtain ⟨o', ho', rfl | ⟨-, rfl⟩⟩ := modify_cases ho
    · exact h.reads j _ ho'
    · intro r hr
      have huses := (hg o').1
      exact h.reads j _ ho' r (huses ▸ hr)
  case falls =>
    intro j o ho
    obtain ⟨o', ho', rfl | ⟨-, rfl⟩⟩ := modify_cases ho
    · exact h.falls j _ ho'
    · obtain ⟨-, hdef, hfalls, -⟩ := hg o'
      rw [hdef, hfalls]
      exact h.falls j _ ho'
  case goes =>
    intro j o ho t ht
    rw [List.length_modify]
    obtain ⟨o', ho', rfl | ⟨rfl, rfl⟩⟩ := modify_cases ho
    · exact h.goes j _ ho' t ht
    · rcases (hg o').2.2.2.1 t ht with rfl | ht
      · exact ⟨htgt, hless⟩
      · exact h.goes i _ ho' t ht
  case empty => exact h.empty

/-- **A jump** led to the end of the code. -/
theorem Fine.setTarget (h : Fine st lw D) {i : ℕ} (hless : ∀ r, D lw.ops.length r → D i r) :
    Fine st (lw.aim i) D :=
  h.lead (retargeted_leads _ _) le_rfl hless

end Rules

/-! ## Parts -/

section Parts

variable {st : Site} {lw lw' : Lower} {D : Marks}

/-- A computation that adds to the tables and emits nothing. -/
structure Adds (st : Site) (lw lw' : Lower) (D : Marks) : Prop extends Ext st lw D lw' D where
  ops : lw'.ops = lw.ops

theorem temp_spec (h : Fine st lw D) {t : ℕ} (ht : temp lw = .ok (t, lw')) :
    Adds st lw lw' D ∧ t < lw'.max ∧ t = lw.next := by
  obtain ⟨lw₁, lw₂, hget, ht⟩ := lowerM_bind ht
  cases hget
  split at ht
  · cases ht
  · cases ht
    refine ⟨⟨h.grow rfl (h.next.trans (Nat.le_succ _)) ?_ ?_ le_rfl List.prefix_rfl rfl, rfl⟩, ?_,
      rfl⟩
    · exact Nat.le_max_right _ _
    · exact Nat.le_max_left _ _
    · exact (Nat.lt_succ_self _).trans_le (Nat.le_max_right _ _)

theorem dest_spec (h : Fine st lw D) {dst : Option ℕ} (hdst : ∀ d, dst = some d → d < lw.max)
    {d : ℕ} (hd : dest dst lw = .ok (d, lw')) :
    Adds st lw lw' D ∧ d < lw'.max ∧ ∀ d', dst = some d' → d = d' := by
  cases dst with
  | some d' =>
      cases hd
      refine ⟨⟨h.ext, rfl⟩, hdst d rfl, fun d' hd' => Option.some.inj hd'⟩
  | none =>
      obtain ⟨hadds, hlt, -⟩ := temp_spec h hd
      exact ⟨hadds, hlt, fun d' hd' => by cases hd'⟩

theorem konst_spec (h : Fine st lw D) {v : Val} {c : ℕ} (hc : konst v lw = .ok (c, lw')) :
    Adds st lw lw' D ∧ c < lw'.consts.length ∧ lw'.max = lw.max := by
  cases hc
  refine ⟨⟨h.grow rfl h.next h.max le_rfl ?_ List.prefix_rfl rfl, rfl⟩, ?_, rfl⟩
  · simp
  · simp

theorem list_spec (h : Fine st lw D) {regs : List ℕ} {a : ℕ} (ha : list regs lw = .ok (a, lw')) :
    Adds st lw lw' D ∧ a + regs.length = lw'.lists.length ∧
      slice lw'.lists a regs.length = regs ∧ lw'.max = lw.max := by
  cases ha
  refine ⟨⟨h.grow rfl h.next h.max le_rfl le_rfl (List.prefix_append _ _) rfl, rfl⟩, ?_, ?_, rfl⟩
  · simp
  · simp [slice]

theorem field_spec (h : Fine st lw D) {name : String} {id : ℕ}
    (hid : field name lw = .ok (id, lw')) : Adds st lw lw' D ∧ lw'.max = lw.max := by
  cases hid
  exact ⟨⟨h.grow rfl h.next h.max le_rfl le_rfl List.prefix_rfl rfl, rfl⟩, rfl⟩

/-- An op at the end of the code, with what it writes. -/
theorem Fine.emits (h : Fine st lw D) {op : Op} (hok : OpOk st lw.max lw.consts.length lw.lists op)
    (hreads : ∀ r ∈ (shape lw.lists op).uses, r < st.nregs ∨ D lw.ops.length r)
    (htargets : opTargets op = []) {d : ℕ} (hd : opFalls op = true → opDef op = some d) :
    ∃ D', Ext st lw D (lw.push op) D' ∧ D' (lw.ops.length + 1) d := by
  refine ⟨_, ⟨h.emit hok hreads (by simp [htargets])
    (W := fun r => D lw.ops.length r ∨ r = d) ?_, by simp, fun i hi => ?_, fun r hr => ?_, le_rfl,
      le_rfl, List.prefix_rfl, rfl⟩, ?_⟩
  · rintro hfalls r (hr | rfl)
    · exact .inl hr
    · exact .inr (hd hfalls)
  · exact Function.update_of_ne (by omega) _ _
  · simp [hr]
  · simp

/-- An op that writes `d` from registers that hold values. -/
theorem Fine.puts (h : Fine st lw D) (op : Op) {d : ℕ} (hdef : opDef op = some d) (hlt : d < lw.max)
    (huses : ∀ r ∈ (shape lw.lists op).uses, Got st lw D r)
    (hconst : ∀ c, opConst op = some c → c < lw.consts.length)
    (hslice : ∀ a n, opSlice op = some (a, n) → a + n ≤ lw.lists.length)
    (hvar : ∀ hops slot key, opVar op = some (hops, slot, key) →
      st.resolve key = some (hops, slot)) :
    ∃ D', Ext st lw D (lw.push op) D' ∧ Got st (lw.push op) D' d := by
  have hok : OpOk st lw.max lw.consts.length lw.lists op :=
    { dest := fun d' hd' => Option.some.inj (hdef.symm.trans hd') ▸ hlt
      uses := fun r hr => (huses r hr).lt
      const := hconst
      slice := hslice
      named := hvar }
  have htargets : opTargets op = [] := by
    rw [Exec.opTargets_eq lw.lists]
    exact (Exec.falls_of_dest lw.lists hdef).2
  obtain ⟨D', hext, hd⟩ := h.emits hok (fun r hr => (huses r hr).known) htargets fun _ => hdef
  refine ⟨D', hext, hlt, .inr ?_⟩
  rw [Lower.length_push]
  exact hd

/-- A register in another one. -/
theorem Fine.moves (h : Fine st lw D) {d r : ℕ} (hd : d < lw.max) (hr : Got st lw D r) :
    ∃ D', Ext st lw D (lw.push (.move d r)) D' ∧ Got st (lw.push (.move d r)) D' d :=
  h.puts _ rfl hd (fun q hq => List.mem_singleton.1 hq ▸ hr) (fun _ hc => by cases hc)
    (fun _ _ hs => by cases hs) fun _ _ _ hv => by cases hv

/-- What an expression leaves: more code, after which its register holds a value. -/
def Delivers (st : Site) (lw : Lower) (D : Marks) (dst : Option ℕ) (r : ℕ) (lw' : Lower) : Prop :=
  ∃ D', Ext st lw D lw' D' ∧ Got st lw' D' r ∧ ∀ d, dst = some d → r = d

theorem Delivers.after {lw'' : Lower} {D' : Marks} {dst : Option ℕ} {r : ℕ}
    (h : Delivers st lw' D' dst r lw'') (h' : Ext st lw D lw' D') :
    Delivers st lw D dst r lw'' := by
  obtain ⟨D'', hext, hgot, hdst⟩ := h
  exact ⟨D'', h'.trans hext, hgot, hdst⟩

/-- The ops that `place` may be given: they write their register, or stop. -/
structure Places (st : Site) (lw : Lower) (D : Marks) (mk : ℕ → Op) : Prop where
  def_ : ∀ d, opDef (mk d) = some d ∨ opDef (mk d) = none ∧ opFalls (mk d) = false
  uses : ∀ d, ∀ r ∈ (shape lw.lists (mk d)).uses, Got st lw D r
  const : ∀ d c, opConst (mk d) = some c → c < lw.consts.length
  slice : ∀ d a n, opSlice (mk d) = some (a, n) → a + n ≤ lw.lists.length
  named : ∀ d hops slot key, opVar (mk d) = some (hops, slot, key) →
    st.resolve key = some (hops, slot)
  targets : ∀ d, opTargets (mk d) = []

theorem place_spec (h : Fine st lw D) {dst : Option ℕ} (hdst : ∀ d, dst = some d → d < lw.max)
    {mk : ℕ → Op} (hmk : Places st lw D mk) {r : ℕ} (hr : place dst mk lw = .ok (r, lw')) :
    Delivers st lw D dst r lw' := by
  obtain ⟨d, lw₁, hd, hr⟩ := lowerM_bind hr
  obtain ⟨hadds, hlt, hsame⟩ := dest_spec h hdst hd
  obtain ⟨_, lw₂, he, hr⟩ := lowerM_bind hr
  cases he
  cases hr
  have huses : (shape lw₁.lists (mk r)).uses = (shape lw.lists (mk r)).uses :=
    uses_longer hadds.lists (hmk.slice r)
  have hok : OpOk st lw₁.max lw₁.consts.length lw₁.lists (mk r) :=
    { dest := fun d hd => by
        rcases hmk.def_ r with hdef | ⟨hdef, -⟩
        · exact Option.some.inj (hdef.symm.trans hd) ▸ hlt
        · cases hdef.symm.trans hd
      uses := fun q hq => ((hmk.uses r q (huses ▸ hq)).lt).trans_le hadds.max
      const := fun c hc => (hmk.const r c hc).trans_le hadds.consts
      slice := fun a n hs => (hmk.slice r a n hs).trans hadds.lists.length_le
      named := hmk.named r }
  obtain ⟨D', hext, hknown⟩ := hadds.fine.emits hok (d := r)
    (fun q hq => hadds.ops ▸ (hmk.uses r q (huses ▸ hq)).known) (hmk.targets r)
    fun hfalls => (hmk.def_ r).resolve_right fun h => by
      rw [h.2] at hfalls
      cases hfalls
  refine ⟨D', hadds.toExt.trans hext, ⟨hlt, .inr ?_⟩, hsame⟩
  rw [List.length_append, List.length_singleton]
  exact hknown

/-- An op that writes its register and reads only what `rs` names and a part of the lists. -/
theorem places_of {mk : ℕ → Op} (hdef : ∀ d, opDef (mk d) = some d) (rs : List ℕ)
    (huses : ∀ d, ∀ r ∈ (shape lw.lists (mk d)).uses, r ∈ rs) (hgot : ∀ r ∈ rs, Got st lw D r)
    (hconst : ∀ d c, opConst (mk d) = some c → c < lw.consts.length)
    (hslice : ∀ d a n, opSlice (mk d) = some (a, n) → a + n ≤ lw.lists.length)
    (hvar : ∀ d, opVar (mk d) = none) : Places st lw D mk where
  def_ d := .inl (hdef d)
  uses d r hr := hgot r (huses d r hr)
  const := hconst
  slice := hslice
  named d hops slot key h := by cases (hvar d).symm.trans h
  targets d := by
    rw [Exec.opTargets_eq lw.lists]
    exact (Exec.falls_of_dest lw.lists (hdef d)).2

/-- An op that reads only registers. -/
theorem places_reads {mk : ℕ → Op} (hdef : ∀ d, opDef (mk d) = some d) (rs : List ℕ)
    (huses : ∀ d, ∀ r ∈ (shape lw.lists (mk d)).uses, r ∈ rs) (hgot : ∀ r ∈ rs, Got st lw D r)
    (hconst : ∀ d, opConst (mk d) = none) (hslice : ∀ d, opSlice (mk d) = none)
    (hvar : ∀ d, opVar (mk d) = none) : Places st lw D mk :=
  places_of hdef rs huses hgot (fun d c h => by cases (hconst d).symm.trans h)
    (fun d a n h => by cases (hslice d).symm.trans h) hvar

/-- An op that only writes its register. -/
theorem places_leaf (mk : ℕ → Op) (hdef : ∀ d, opDef (mk d) = some d)
    (huses : ∀ d, (shape lw.lists (mk d)).uses = []) (hconst : ∀ d, opConst (mk d) = none)
    (hslice : ∀ d, opSlice (mk d) = none) (hvar : ∀ d, opVar (mk d) = none) : Places st lw D mk :=
  places_reads hdef [] (fun d r hr => huses d ▸ hr) (fun _ h => absurd h List.not_mem_nil) hconst
    hslice hvar

/-- An op that reads a variable at its static slot. -/
theorem places_var {hops slot key : ℕ} (h : st.resolve key = some (hops, slot)) :
    Places st lw D fun d => .varS d hops slot key where
  def_ _ := .inl rfl
  uses _ _ h := absurd h List.not_mem_nil
  const _ _ h := by cases h
  slice _ _ _ h := by cases h
  named _ _ _ _ heq := by
    cases heq
    exact h
  targets _ := rfl

theorem places_fail (why : ℕ) : Places st lw D fun _ => failOp why where
  def_ _ := .inr ⟨rfl, rfl⟩
  uses _ _ h := absurd h List.not_mem_nil
  const _ _ h := by cases h
  slice _ _ _ h := by cases h
  named _ _ _ _ h := by cases h
  targets _ := rfl

theorem lowerConst_spec (h : Fine st lw D) {dst : Option ℕ} (hdst : ∀ d, dst = some d → d < lw.max)
    {v : Val} {r : ℕ} (hr : lowerConst dst v lw = .ok (r, lw')) : Delivers st lw D dst r lw' := by
  obtain ⟨c, lw₁, hc, hr⟩ := lowerM_bind hr
  obtain ⟨hadds, hlt, hmax⟩ := konst_spec h hc
  refine (place_spec hadds.fine (hmax ▸ hdst) ?_ hr).after hadds.toExt
  exact places_of (fun _ => rfl) [] (fun _ _ h => h) (fun _ h => absurd h List.not_mem_nil)
    (fun d c' hc' => Option.some.inj hc' ▸ hlt) (fun d a n h => by cases h) fun _ => rfl

/-- A state of lowering that differs only in the use of the arguments. -/
theorem Fine.usesArgs (h : Fine st lw D) (b : Bool) : Ext st lw D { lw with usesArgs := b } D :=
  h.grow rfl h.next h.max le_rfl le_rfl List.prefix_rfl rfl

theorem lowerFolded_spec (h : Fine st lw D) {dst : Option ℕ} (hdst : ∀ d, dst = some d → d < lw.max)
    {v : Val} {r : ℕ} (hr : lowerFolded dst v lw = .ok (r, lw')) : Delivers st lw D dst r lw' := by
  obtain ⟨d, lw₁, hd, hr⟩ := lowerM_bind hr
  obtain ⟨hadds, hlt, hsame⟩ := dest_spec h hdst hd
  have hconst {lw₂ : Lower} (hr : (do
      let c ← konst v
      emit (.const d c)
      return d : LowerM ℕ) lw₁ = .ok (r, lw₂)) : Delivers st lw D dst r lw₂ := by
    obtain ⟨c, lw₂, hc, hr⟩ := lowerM_bind hr
    obtain ⟨hadds', hclt, hmax⟩ := konst_spec hadds.fine hc
    cases hr
    obtain ⟨D', hext, hgot⟩ := hadds'.fine.puts (.const r c) rfl (hmax ▸ hlt)
      (fun _ hr => absurd hr List.not_mem_nil) (fun c' hc' => Option.some.inj hc' ▸ hclt)
      (fun _ _ hs => by cases hs) fun _ _ _ hv => by cases hv
    exact ⟨D', hadds.toExt.trans (hadds'.toExt.trans hext), hgot, hsame⟩
  cases v with
  | num n =>
      cases hr
      obtain ⟨D', hext, hgot⟩ := hadds.fine.puts (.num r n.toBits) rfl hlt
        (fun _ hr => absurd hr List.not_mem_nil) (fun _ hc => by cases hc)
        (fun _ _ hs => by cases hs) fun _ _ _ hv => by cases hv
      exact ⟨D', hadds.toExt.trans hext, hgot, hsame⟩
  | _ => exact hconst hr

/-- The state in which an operand is read. -/
def Lower.noteArgs (lw : Lower) (r : ℕ) : Lower :=
  if r = 3 then { lw with usesArgs := true } else lw

theorem lowerReg_none (q : ℕ) (lw : Lower) : lowerReg none q lw = .ok (q, lw.noteArgs q) := by
  unfold lowerReg Lower.noteArgs
  split <;> rfl

theorem lowerReg_some (d q : ℕ) (lw : Lower) : lowerReg (some d) q lw =
    .ok (d, if d = q then lw.noteArgs q else (lw.noteArgs q).push (.move d q)) := by
  unfold lowerReg Lower.noteArgs
  by_cases hd : d = q
  · simp only [ne_eq, hd, not_true_eq_false, if_false, if_true]
    split <;> rfl
  · simp only [ne_eq, hd, not_false_eq_true, if_true, if_false]
    split <;> rfl

theorem lowerReg_spec (h : Fine st lw D) {dst : Option ℕ} (hdst : ∀ d, dst = some d → d < lw.max)
    {q r : ℕ} (hq : q < st.nregs) (hr : lowerReg dst q lw = .ok (r, lw')) :
    Delivers st lw D dst r lw' := by
  have hext : Ext st lw D (lw.noteArgs q) D := by
    unfold Lower.noteArgs
    split
    · exact h.usesArgs true
    · exact h.ext
  have hgot : Got st (lw.noteArgs q) D q :=
    ⟨hq.trans_le (hext.fine.next.trans hext.fine.max), .inl hq⟩
  cases dst with
  | none =>
      cases (lowerReg_none q lw).symm.trans hr
      exact ⟨D, hext, hgot, fun d hd => by cases hd⟩
  | some d =>
      cases (lowerReg_some d q lw).symm.trans hr
      split
      · next heq => exact ⟨D, hext, heq ▸ hgot, fun d' hd' => Option.some.inj hd'⟩
      · obtain ⟨D', hext', hgot'⟩ := hext.fine.moves ((hdst r rfl).trans_le hext.max) hgot
        exact ⟨D', hext.trans hext', hgot', fun d' hd' => Option.some.inj hd'⟩

theorem deliver_spec (h : Fine st lw D) {dst : Option ℕ} (hdst : ∀ d, dst = some d → d < lw.max)
    {t r : ℕ} (ht : Got st lw D t) (hr : deliver dst t lw = .ok (r, lw')) :
    Delivers st lw D dst r lw' := by
  cases dst with
  | none =>
      cases hr
      exact ⟨D, h.ext, ht, fun d hd => by cases hd⟩
  | some d =>
      cases hr
      obtain ⟨D', hext, hgot⟩ := h.moves (hdst r rfl) ht
      exact ⟨D', hext, hgot, fun d' hd' => Option.some.inj hd'⟩

/-! ## Jumps -/

/-- **A part that is run or jumped over**: the jump stands before it and leads behind it. -/
theorem Fine.skips (h : Fine st lw D) {op : Op} {c : ℕ} (hc : Got st lw D c)
    (huses : (shape lw.lists op).uses = [c]) (hdef : opDef op = none)
    (htargets : opTargets op = [0]) (hconst : opConst op = none) (hslice : opSlice op = none)
    (hvar : opVar op = none) :
    ∃ D₁, Fine st (lw.push op) D₁ ∧ ∀ lw' D', Ext st (lw.push op) D₁ lw' D' →
      ∃ D'', Ext st lw D (lw'.aim lw.ops.length) D'' := by
  have hok : OpOk st lw.max lw.consts.length lw.lists op :=
    .plain hdef (fun r hr => List.mem_singleton.1 (huses ▸ hr) ▸ hc.lt) hconst hslice hvar
  have hreads : ∀ r ∈ (shape lw.lists op).uses, r < st.nregs ∨ D lw.ops.length r :=
    fun r hr => List.mem_singleton.1 (huses ▸ hr) ▸ hc.known
  refine ⟨_, h.emit hok hreads (W := D lw.ops.length) (by simp [htargets]) fun _ r hr => .inl hr,
    fun lw' D' hext => ?_⟩
  have hlen : lw.ops.length < lw'.ops.length := by
    have := hext.len
    rw [Lower.length_push] at this
    omega
  have hsame {i : ℕ} (hi : i ≤ lw.ops.length) : D' i = D i := by
    rw [hext.same i (by rw [Lower.length_push]; omega), Function.update_of_ne (by omega)]
  have hnow (r : ℕ) (hr : D lw.ops.length r) : D' lw'.ops.length r :=
    hext.now r (by rwa [Lower.length_push, Function.update_self])
  have hshrunk := hext.fine.shrink (W := D lw.ops.length) hnow
  refine ⟨_, ⟨hshrunk.setTarget (i := lw.ops.length) fun r hr => ?_, ?_, fun i hi => ?_,
    fun r hr => ?_, hext.max, hext.consts, hext.lists, hext.patches⟩⟩
  · rw [Function.update_self] at hr
    rwa [Function.update_of_ne (by omega), hsame le_rfl]
  · rw [Lower.length_aim]
    omega
  · rw [Function.update_of_ne (by omega), hsame hi]
  · rwa [Lower.length_aim, Function.update_self]

/-- **One of two parts**: a jump stands before the first part and leads to the second, and one
behind the first part leads behind the second.  A register holds a value behind them when it does
behind each. -/
theorem Fine.forks (h : Fine st lw D) {c : ℕ} (hc : Got st lw D c) :
    ∃ D₁, Fine st (lw.push (.jf c 0)) D₁ ∧ ∀ lw₂ D₂, Ext st (lw.push (.jf c 0)) D₁ lw₂ D₂ →
      ∃ D₃, Fine st ((lw₂.push (.j 0)).aim lw.ops.length) D₃ ∧
        ∀ lw₄ D₄, Ext st ((lw₂.push (.j 0)).aim lw.ops.length) D₃ lw₄ D₄ →
          ∃ D₅, Ext st lw D (lw₄.aim lw₂.ops.length) D₅ ∧ ∀ r, Got st lw₂ D₂ r → Got st lw₄ D₄ r →
            Got st (lw₄.aim lw₂.ops.length) D₅ r := by
  have hok : OpOk st lw.max lw.consts.length lw.lists (.jf c 0) :=
    .plain rfl (fun r hr => List.mem_singleton.1 hr ▸ hc.lt) rfl rfl rfl
  have hreads : ∀ r ∈ (shape lw.lists (.jf c 0)).uses, r < st.nregs ∨ D lw.ops.length r :=
    fun r hr => List.mem_singleton.1 hr ▸ hc.known
  refine ⟨_, h.emit hok hreads (W := D lw.ops.length) (fun t ht => List.mem_singleton.1 ht)
    fun _ r hr => .inl hr, fun lw₂ D₂ hext => ?_⟩
  have hlen : lw.ops.length < lw₂.ops.length := by
    have := hext.len
    rw [Lower.length_push] at this
    omega
  have hsame {i : ℕ} (hi : i ≤ lw.ops.length) : D₂ i = D i := by
    rw [hext.same i (by rw [Lower.length_push]; omega), Function.update_of_ne (by omega)]
  have hnow (r : ℕ) (hr : D lw.ops.length r) : D₂ lw₂.ops.length r :=
    hext.now r (by rwa [Lower.length_push, Function.update_self])
  have hokj : OpOk st lw₂.max lw₂.consts.length lw₂.lists (.j 0) :=
    .plain rfl (fun r hr => absurd hr List.not_mem_nil) rfl rfl rfl
  have hjump := hext.fine.emit hokj (W := D lw.ops.length)
    (fun r hr => absurd hr List.not_mem_nil) (fun t ht => List.mem_singleton.1 ht)
    fun hfalls => by cases hfalls
  have hsame' {i : ℕ} (hi : i ≤ lw₂.ops.length) :
      Function.update D₂ (lw₂.ops.length + 1) (D lw.ops.length) i = D₂ i :=
    Function.update_of_ne (by omega) _ _
  refine ⟨_, hjump.setTarget (i := lw.ops.length) fun r hr => ?_, fun lw₄ D₄ hext' => ?_⟩
  · rw [Lower.length_push, Function.update_self] at hr
    rwa [hsame' hlen.le, hsame le_rfl]
  have hlen' : lw₂.ops.length < lw₄.ops.length := by
    have := hext'.len
    rw [Lower.length_aim, Lower.length_push] at this
    omega
  have hsame₄ {i : ℕ} (hi : i ≤ lw₂.ops.length) : D₄ i = D₂ i := by
    rw [hext'.same i (by rw [Lower.length_aim, Lower.length_push]; omega), hsame' hi]
  have hnow' (r : ℕ) (hr : D lw.ops.length r) : D₄ lw₄.ops.length r :=
    hext'.now r (by rwa [Lower.length_aim, Lower.length_push, Function.update_self])
  have hshrunk := hext'.fine.shrink
    (W := fun r => D₄ lw₄.ops.length r ∧ D₂ lw₂.ops.length r) fun r hr => hr.1
  refine ⟨_, ⟨hshrunk.setTarget (i := lw₂.ops.length) fun r hr => ?_, ?_, fun i hi => ?_,
    fun r hr => ?_, hext.max.trans hext'.max, hext.consts.trans hext'.consts,
    hext.lists.trans hext'.lists, hext'.patches.trans hext.patches⟩, fun r hr hr' => ⟨hr'.lt, ?_⟩⟩
  · rw [Function.update_self] at hr
    rw [Function.update_of_ne (by omega), hsame₄ le_rfl]
    exact hr.2
  · rw [Lower.length_aim]
    omega
  · rw [Function.update_of_ne (by omega), hsame₄ (by omega), hsame hi]
  · rw [Lower.length_aim, Function.update_self]
    exact ⟨hnow' r hr, hnow r hr⟩
  · rcases hr.known with hlt | hk
    · exact .inl hlt
    · refine hr'.known.imp_right fun hk' => ?_
      rw [Lower.length_aim, Function.update_self]
      exact ⟨hk', hk⟩

end Parts

end Interp
end Lunar
