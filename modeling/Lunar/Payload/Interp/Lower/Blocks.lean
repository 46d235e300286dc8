/-
# What compiling hands to the optimiser

`payload/exec.rs`: `lower_block` and `compile`.

The code of a function never leaves its ops, and what it reads is there: constants and lists in
their tables, variables at their static slots, and registers of the frame.  At its entry and at the
places of its pcs it reads no register from `nregs` on before it has written it, so what an earlier
call has left in those is never seen (`compile_fits`).
-/

import Lunar.Payload.Exec.Correct
import Lunar.Payload.Interp.Lower.Stmts

namespace Lunar
namespace Interp

open Lib (Double)
open Exec (F64 Op opDef opTargets shape slice)
open Devirt (Expr Stmt Term Block Func)
open LowerM

/-- Control stays among the ops. -/
def Whole (ops : List Op) : Prop :=
  ∀ (i : ℕ) (op : Op), ops[i]? = some op →
    (opFalls op = true → i + 1 < ops.length) ∧ ∀ t ∈ opTargets op, t < ops.length

/-- The code between two blocks: nothing is known of the registers from `nregs` on. -/
structure Placed (st : Site) (n : ℕ) (lw : Lower) (D : Marks) : Prop where
  fine : Fine st lw D
  whole : Whole lw.ops
  unknown : ∀ r, ¬D lw.ops.length r
  patches : ∀ p ∈ lw.patches, p.2.1 < n

/-- A block, or several. -/
structure Laid (st : Site) (n : ℕ) (lw : Lower) (D : Marks) (lw' : Lower) (D' : Marks) :
    Prop where
  placed : Placed st n lw' D'
  len : lw.ops.length ≤ lw'.ops.length
  same : ∀ i ≤ lw.ops.length, D' i = D i

/-- Where a block starts. -/
structure Starting (lw : Lower) (D : Marks) (ip : ℕ) : Prop where
  lt : ip < lw.ops.length
  unknown : ∀ r, ¬D ip r

section Blocks

variable {st : Site} {n : ℕ} {lw lw' lw'' : Lower} {D D' D'' : Marks}

theorem Laid.trans (h : Laid st n lw D lw' D') (h' : Laid st n lw' D' lw'' D'') :
    Laid st n lw D lw'' D'' where
  placed := h'.placed
  len := h.len.trans h'.len
  same i hi := (h'.same i (hi.trans h.len)).trans (h.same i hi)

theorem Placed.refl (h : Placed st n lw D) : Laid st n lw D lw D := ⟨h, le_rfl, fun _ _ => rfl⟩

theorem Starting.later {ip : ℕ} (h : Starting lw D ip) (h' : Laid st n lw D lw' D') :
    Starting lw' D' ip :=
  ⟨h.lt.trans_le h'.len, fun r hr => h.unknown r (h'.same ip h.lt.le ▸ hr)⟩

/-- The patches do not matter to the code. -/
theorem Fine.withPatches (h : Fine st lw D) (ps : List (ℕ × ℕ × Bool)) :
    Fine st { lw with patches := ps } D :=
  ⟨h.next, h.max, h.ok, h.reads, h.falls, h.goes, h.empty⟩

/-- **The end of a block.** -/
theorem Fine.close (h : Fine st lw D) {op : Op} (hok : OpOk st lw.max lw.consts.length lw.lists op)
    (hreads : ∀ r ∈ (shape lw.lists op).uses, r < st.nregs ∨ D lw.ops.length r)
    (htargets : ∀ t ∈ opTargets op, t = 0) (hfalls : opFalls op = false) :
    Fine st (lw.push op) (Function.update D (lw.ops.length + 1) fun _ => False) ∧
      Whole (lw.push op).ops := by
  have hfine := h.emit hok hreads htargets (W := fun _ => False) fun hf => by
    rw [hfalls] at hf
    cases hf
  refine ⟨hfine, fun i o ho => ?_⟩
  rw [Lower.length_push]
  rcases Lib.getElem?_concat.1 ho with ho | ⟨rfl, rfl⟩
  · have hlt := Lib.lt_of_getElem? ho
    exact ⟨fun _ => by omega, fun t ht => Nat.lt_succ_of_le (h.goes i o ho t ht).1⟩
  · refine ⟨fun hf => ?_, fun t ht => ?_⟩
    · rw [hfalls] at hf
      cases hf
    · rw [htargets t ht]
      exact Nat.succ_pos _

/-- A block that ends in `op`, with its patches. -/
theorem Fine.closed (h : Fine st lw D) (hps : ∀ p ∈ lw.patches, p.2.1 < n) {op : Op}
    (hok : OpOk st lw.max lw.consts.length lw.lists op)
    (hreads : ∀ r ∈ (shape lw.lists op).uses, r < st.nregs ∨ D lw.ops.length r)
    (htargets : ∀ t ∈ opTargets op, t = 0) (hfalls : opFalls op = false)
    {ps : List (ℕ × ℕ × Bool)} (hnew : ∀ p ∈ ps, p.2.1 < n) :
    ∃ D', Laid st n lw D ({ lw with patches := lw.patches ++ ps }.push op) D' := by
  obtain ⟨hfine, hwhole⟩ := (h.withPatches (lw.patches ++ ps)).close hok hreads htargets hfalls
  refine ⟨_, ⟨hfine, hwhole, fun r hr => ?_, fun p hp => ?_⟩, ?_, fun i hi => ?_⟩
  · rw [Lower.length_push, Function.update_self] at hr
    exact hr
  · rcases List.mem_append.1 hp with hp | hp
    · exact hps p hp
    · exact hnew p hp
  · rw [Lower.length_push]
    exact Nat.le_succ _
  · exact Function.update_of_ne (by change i ≠ lw.ops.length + 1; omega) _ _

/-- The code of a block behind what it starts with. -/
theorem Laid.after (h : Laid st n lw' D' lw'' D'') (h' : Ext st lw D lw' D') :
    Laid st n lw D lw'' D'' where
  placed := h.placed
  len := h'.len.trans h.len
  same i hi := (h.same i (hi.trans h'.len)).trans (h'.same i hi)

theorem Whole.lead {ops : List Op} (h : Whole ops) {ls : List ℕ} {i tgt : ℕ} {g : Op → Op}
    (hg : Leads ls tgt g) (htgt : tgt < ops.length) : Whole (ops.modify i g) := by
  intro j o ho
  rw [List.length_modify]
  obtain ⟨o', ho', rfl | ⟨-, rfl⟩⟩ := modify_cases ho
  · exact h j _ ho'
  · obtain ⟨hfalls, hgoes⟩ := h j o' ho'
    obtain ⟨-, -, hsame, htargets, -⟩ := hg o'
    refine ⟨fun hf => hfalls (hsame ▸ hf), fun t ht => ?_⟩
    rcases htargets t ht with rfl | ht
    · exact htgt
    · exact hgoes t ht

/-- A register that is live holds what is known, or a register of the function. -/
theorem Fine.live (h : Fine st lw D) {c : Exec.Code} (hops : c.ops = lw.ops)
    (hlists : c.lists = lw.lists) (hpcs : ∀ ip ∈ c.pcs.map (·.2), ∀ r, ¬D ip r) {i r : ℕ}
    (hl : c.Live i r) : r < st.nregs ∨ D i r := by
  induction hl with
  | read hop _ hr =>
      rw [hops] at hop
      rw [hlists] at hr
      exact h.reads _ _ hop _ hr
  | feed hop _ _ hr _ =>
      rw [hops] at hop
      rw [hlists] at hr
      exact h.reads _ _ hop _ hr
  | @pass i j r op hop hj hd _ ih =>
      rw [hops] at hop
      refine ih.imp_right fun hk => ?_
      rcases hj with ⟨op', hop', hj⟩ | ⟨op', -, -, hj⟩
      · rw [hops] at hop'
        cases hop.symm.trans hop'
        rcases hj with ⟨hfalls, rfl⟩ | hj
        · rw [← Exec.exits_falls] at hfalls
          exact (h.falls i op hop hfalls r hk).resolve_right hd
        · rw [← Exec.opTargets_eq] at hj
          exact (h.goes i op hop j hj).2 r hk
      · exact absurd hk (hpcs j hj r)

end Blocks

end Interp
end Lunar
