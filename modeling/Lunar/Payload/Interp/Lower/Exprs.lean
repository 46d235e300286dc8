/-
# What lowering an expression emits

`payload/exec.rs`: `lower_expr` and `lower_list`.

Whatever an expression is, its code only adds to what stands before it, and the register that it
gives holds a value behind it (`lowerExpr_spec`).
-/

import Lunar.Payload.Interp.Lower.Emit

namespace Lunar
namespace Interp

open Exec (Op NOSLOT opDef opTargets exits shape slice)
open Devirt (Expr Stmt)
open Ir (LogicalOperator)
open LowerM

/-- The registers of an expression are those of the function. -/
def Owned (st : Site) (e : Expr) : Prop := ∀ r ∈ exprRegs e, r < st.nregs

/-- Registers that hold values, as a part of the lists. -/
structure Sliced (st : Site) (lw : Lower) (D : Marks) (a n : ℕ) : Prop where
  fits : a + n ≤ lw.lists.length
  got : ∀ r ∈ slice lw.lists a n, Got st lw D r

section Rules

variable {st : Site} {lw lw' : Lower} {D D' : Marks}

theorem owned_listRegs {es : List Expr} (h : ∀ r ∈ listRegs es, r < st.nregs) {e : Expr}
    (he : e ∈ es) : Owned st e := by
  induction es with
  | nil => cases he
  | cons e' es ih =>
      rw [listRegs] at h
      rcases List.mem_cons.1 he with rfl | he
      · exact fun r hr => h r (List.mem_append_left _ hr)
      · exact ih (fun r hr => h r (List.mem_append_right _ hr)) he

/-- A list of registers becomes a part of the lists. -/
theorem list_sliced (h : Fine st lw D) {regs : List ℕ} (hregs : ∀ r ∈ regs, Got st lw D r) {a n : ℕ}
    (hn : n ≤ regs.length) (ha : list regs lw = .ok (a, lw')) :
    Adds st lw lw' D ∧ Sliced st lw' D a n ∧ lw'.max = lw.max := by
  obtain ⟨hadds, hlen, hslice, hmax⟩ := list_spec h ha
  refine ⟨hadds, ⟨by omega, fun r hr => ?_⟩, hmax⟩
  have hsub : slice lw'.lists a n = regs.take n := by
    rw [← hslice, slice, slice, List.take_take, Nat.min_eq_left hn]
  exact (hregs r (List.mem_of_mem_take (hsub ▸ hr))).later hadds.toExt

/-- An op that reads `rs` and a part of the lists. -/
theorem places_slice {mk : ℕ → Op} {a n : ℕ} (hs : Sliced st lw D a n)
    (hdef : ∀ d, opDef (mk d) = some d) (rs : List ℕ)
    (huses : ∀ d, ∀ r ∈ (shape lw.lists (mk d)).uses, r ∈ rs ++ slice lw.lists a n)
    (hgot : ∀ r ∈ rs, Got st lw D r) (hconst : ∀ d, opConst (mk d) = none)
    (hslice : ∀ d, opSlice (mk d) = some (a, n)) (hvar : ∀ d, opVar (mk d) = none) :
    Places st lw D mk := by
  refine places_of hdef _ huses (fun r hr => ?_) (fun d c h => by cases (hconst d).symm.trans h)
    (fun d a' n' h => ?_) hvar
  · rcases List.mem_append.1 hr with hr | hr
    · exact hgot r hr
    · exact hs.got r hr
  · cases (hslice d).symm.trans h
    exact hs.fits

/-- A lookup of a variable by its key. -/
theorem places_varOp (k : Expr) : Places st lw D (lowerVar st k) := by
  unfold lowerVar
  cases numKey k with
  | none => exact places_fail _
  | some key =>
      dsimp only
      cases hres : st.resolve key with
      | none =>
          exact places_leaf (fun d => .varD d key) (fun _ => rfl) (fun _ => rfl)
            (fun _ => rfl) (fun _ => rfl) fun _ => rfl
      | some r => exact places_var hres

theorem places_scopeVar (k : Expr) : Places st lw D (lowerScopeVar st k) := by
  unfold lowerScopeVar
  cases numKey k with
  | none => exact places_fail _
  | some key =>
      dsimp only
      cases st.slotOf key with
      | none =>
          exact places_leaf (fun d => .localD d key) (fun _ => rfl) (fun _ => rfl)
            (fun _ => rfl) (fun _ => rfl) fun _ => rfl
      | some slot =>
          exact places_leaf (fun d => .localS d slot) (fun _ => rfl) (fun _ => rfl)
            (fun _ => rfl) (fun _ => rfl) fun _ => rfl

theorem logicalJump_shape (op : LogicalOperator) (c : ℕ) (ls : List ℕ) :
    (shape ls (logicalJump op c)).uses = [c] ∧ opDef (logicalJump op c) = none ∧
      opTargets (logicalJump op c) = [0] ∧ opConst (logicalJump op c) = none ∧
      opSlice (logicalJump op c) = none ∧ opVar (logicalJump op c) = none := by
  cases op <;> exact ⟨rfl, rfl, rfl, rfl, rfl, rfl⟩

end Rules

/-! ## Expressions -/

/-- What lowering `e` does. -/
structure Emits (st : Site) (e : Expr) : Prop where
  yields : Owned st e → ∀ {lw : Lower} {D : Marks}, Fine st lw D → ∀ (dst : Option ℕ),
    (∀ d, dst = some d → d < lw.max) → ∀ {r : ℕ} {lw' : Lower},
      lowerExpr st e dst lw = .ok (r, lw') → Delivers st lw D dst r lw'

variable {st : Site}

/-- An operand: no register is asked for. -/
theorem Emits.operand {e : Expr} (he : Emits st e) (ho : Owned st e) {lw lw' : Lower} {D : Marks}
    (h : Fine st lw D) {r : ℕ} (hr : lowerExpr st e none lw = .ok (r, lw')) :
    ∃ D', Ext st lw D lw' D' ∧ Got st lw' D' r := by
  obtain ⟨D', hext, hgot, -⟩ := he.yields ho h none (fun d hd => by cases hd) hr
  exact ⟨D', hext, hgot⟩

theorem exprs_spec {es : List Expr} (hes : ∀ e ∈ es, Emits st e)
    (ho : ∀ r ∈ listRegs es, r < st.nregs) {lw lw' : Lower} {D : Marks} (h : Fine st lw D)
    {regs : List ℕ} (hr : lowerExprs st es lw = .ok (regs, lw')) :
    ∃ D', Ext st lw D lw' D' ∧ ∀ r ∈ regs, Got st lw' D' r := by
  induction es generalizing lw D regs with
  | nil =>
      rw [lowerExprs] at hr
      cases hr
      exact ⟨D, h.ext, fun r hr => absurd hr List.not_mem_nil⟩
  | cons e es ih =>
      rw [lowerExprs] at hr
      obtain ⟨s, lw₁, hs, hr⟩ := lowerM_bind hr
      obtain ⟨rest, lw₂, hrest, hr⟩ := lowerM_bind hr
      cases hr
      obtain ⟨D₁, hext, hgot⟩ :=
        (hes e List.mem_cons_self).operand (owned_listRegs ho List.mem_cons_self) h hs
      obtain ⟨D₂, hext', hgots⟩ := ih (fun e he => hes e (List.mem_cons_of_mem _ he))
        (fun r hr => ho r (by rw [listRegs]; exact List.mem_append_right _ hr)) hext.fine hrest
      refine ⟨D₂, hext.trans hext', fun r hr => ?_⟩
      rcases List.mem_cons.1 hr with rfl | hr
      · exact hgot.later hext'
      · exact hgots r hr

theorem list_exprs_spec {es : List Expr} (hes : ∀ e ∈ es, Emits st e)
    (ho : ∀ r ∈ listRegs es, r < st.nregs) {lw lw' : Lower} {D : Marks} (h : Fine st lw D) {a n : ℕ}
    (hr : lowerList st es lw = .ok ((a, n), lw')) :
    ∃ D', Ext st lw D lw' D' ∧ Sliced st lw' D' a n := by
  rw [lowerList] at hr
  obtain ⟨regs, lw₁, hregs, hr⟩ := lowerM_bind hr
  obtain ⟨start, lw₂, hstart, hr⟩ := lowerM_bind hr
  cases hr
  obtain ⟨D₁, hext, hgots⟩ := exprs_spec hes ho h hregs
  obtain ⟨hadds, hsliced, -⟩ :=
    list_sliced hext.fine hgots (Nat.mod_le regs.length U16) hstart
  exact ⟨D₁, hext.trans hadds.toExt, hsliced⟩

theorem key_spec {k : Expr} (hk : Emits st k) (ho : Owned st k) {lw lw' : Lower} {D : Marks}
    (h : Fine st lw D) {os : ℕ} (hos : Got st lw D os) {dst : Option ℕ}
    (hdst : ∀ d, dst = some d → d < lw.max) {r : ℕ}
    (hr : lowerKey st os k dst lw = .ok (r, lw')) : Delivers st lw D dst r lw' := by
  unfold lowerKey at hr
  split at hr
  · obtain ⟨c, lw₁, hc, hr⟩ := lowerM_bind hr
    obtain ⟨hadds, hlt, hmax⟩ := konst_spec h hc
    refine (place_spec hadds.fine (hmax ▸ hdst) ?_ hr).after hadds.toExt
    exact places_of (fun _ => rfl) [os] (fun _ _ h => h)
      (fun r hr => List.mem_singleton.1 hr ▸ hos.later hadds.toExt)
      (fun d c' hc' => Option.some.inj hc' ▸ hlt) (fun d a n h => by cases h) fun _ => rfl
  · obtain ⟨ks, lw₁, hks, hr⟩ := lowerM_bind hr
    obtain ⟨D₁, hext, hgot⟩ := hk.operand ho h hks
    refine (place_spec hext.fine (fun d hd => (hdst d hd).trans_le hext.max) ?_ hr).after hext
    refine places_reads (fun _ => rfl) [os, ks] (fun _ _ h => h) ?_ (fun _ => rfl) (fun _ => rfl)
      fun _ => rfl
    simp only [List.forall_mem_cons]
    exact ⟨hos.later hext, hgot, by simp⟩

/-! ### Operands and an op -/

section Operands

variable {lw lw' : Lower} {D : Marks} {dst : Option ℕ} {r : ℕ}

theorem place_of_ext {lw₁ : Lower} {D₁ : Marks} (hext : Ext st lw D lw₁ D₁)
    (hdst : ∀ d, dst = some d → d < lw.max) {mk : ℕ → Op} (hmk : Places st lw₁ D₁ mk)
    (hr : place dst mk lw₁ = .ok (r, lw')) : Delivers st lw D dst r lw' :=
  (place_spec hext.fine (fun d hd => (hdst d hd).trans_le hext.max) hmk hr).after hext

/-- An op of one operand. -/
theorem one_spec {a : Expr} (mk : ℕ → ℕ → Op) (ha : Emits st a) (ho : Owned st a)
    (hdef : ∀ x d, opDef (mk x d) = some d) (huses : ∀ ls x d, (shape ls (mk x d)).uses = [x])
    (hconst : ∀ x d, opConst (mk x d) = none) (hslice : ∀ x d, opSlice (mk x d) = none)
    (hvar : ∀ x d, opVar (mk x d) = none) (h : Fine st lw D)
    (hdst : ∀ d, dst = some d → d < lw.max)
    (hr : (do let x ← lowerExpr st a none; place dst (mk x) : LowerM ℕ) lw = .ok (r, lw')) :
    Delivers st lw D dst r lw' := by
  obtain ⟨x, lw₁, hx, hr⟩ := lowerM_bind hr
  obtain ⟨D₁, hext, hgot⟩ := ha.operand ho h hx
  refine place_of_ext hext hdst ?_ hr
  exact places_reads (hdef x) [x] (fun d q hq => huses _ x d ▸ hq)
    (fun q hq => List.mem_singleton.1 hq ▸ hgot) (hconst x) (hslice x) (hvar x)

/-- An op of two operands. -/
theorem two_spec {a b : Expr} (mk : ℕ → ℕ → ℕ → Op) (ha : Emits st a) (hb : Emits st b)
    (hoa : Owned st a) (hob : Owned st b) (hdef : ∀ x y d, opDef (mk x y d) = some d)
    (huses : ∀ ls x y d, (shape ls (mk x y d)).uses = [x, y])
    (hconst : ∀ x y d, opConst (mk x y d) = none) (hslice : ∀ x y d, opSlice (mk x y d) = none)
    (hvar : ∀ x y d, opVar (mk x y d) = none) (h : Fine st lw D)
    (hdst : ∀ d, dst = some d → d < lw.max)
    (hr : (do
      let x ← lowerExpr st a none
      let y ← lowerExpr st b none
      place dst (mk x y) : LowerM ℕ) lw = .ok (r, lw')) : Delivers st lw D dst r lw' := by
  obtain ⟨x, lw₁, hx, hr⟩ := lowerM_bind hr
  obtain ⟨y, lw₂, hy, hr⟩ := lowerM_bind hr
  obtain ⟨D₁, hext₁, hgot₁⟩ := ha.operand hoa h hx
  obtain ⟨D₂, hext₂, hgot₂⟩ := hb.operand hob hext₁.fine hy
  refine place_of_ext (hext₁.trans hext₂) hdst ?_ hr
  refine places_reads (hdef x y) [x, y] (fun d q hq => huses _ x y d ▸ hq) ?_ (hconst x y)
    (hslice x y) (hvar x y)
  simp only [List.forall_mem_cons]
  exact ⟨hgot₁.later hext₂, hgot₂, by simp⟩

/-- An op of an operand and a list. -/
theorem headed_spec {c : Expr} {es : List Expr} (mk : ℕ → ℕ → ℕ → ℕ → Op) (hc : Emits st c)
    (hes : ∀ e ∈ es, Emits st e) (hoc : Owned st c) (hoes : ∀ r ∈ listRegs es, r < st.nregs)
    (hdef : ∀ f a n d, opDef (mk f a n d) = some d)
    (huses : ∀ ls f a n d, (shape ls (mk f a n d)).uses = f :: slice ls a n)
    (hconst : ∀ f a n d, opConst (mk f a n d) = none)
    (hslice : ∀ f a n d, opSlice (mk f a n d) = some (a, n))
    (hvar : ∀ f a n d, opVar (mk f a n d) = none) (h : Fine st lw D)
    (hdst : ∀ d, dst = some d → d < lw.max)
    (hr : (do
      let f ← lowerExpr st c none
      let p ← lowerList st es
      place dst (mk f p.1 p.2) : LowerM ℕ) lw = .ok (r, lw')) : Delivers st lw D dst r lw' := by
  obtain ⟨f, lw₁, hf, hr⟩ := lowerM_bind hr
  obtain ⟨⟨a, n⟩, lw₂, hlist, hr⟩ := lowerM_bind hr
  obtain ⟨D₁, hext₁, hgot⟩ := hc.operand hoc h hf
  obtain ⟨D₂, hext₂, hsliced⟩ := list_exprs_spec hes hoes hext₁.fine hlist
  refine place_of_ext (hext₁.trans hext₂) hdst ?_ hr
  exact places_slice hsliced (hdef f a n) [f] (fun d q hq => by rwa [huses] at hq)
    (fun q hq => List.mem_singleton.1 hq ▸ hgot.later hext₂) (hconst f a n) (hslice f a n)
    (hvar f a n)

/-- An op of a list. -/
theorem listed_spec {es : List Expr} (mk : ℕ → ℕ → ℕ → Op) (hes : ∀ e ∈ es, Emits st e)
    (hoes : ∀ r ∈ listRegs es, r < st.nregs)
    (hdef : ∀ a n d, opDef (mk a n d) = some d)
    (huses : ∀ ls a n d, (shape ls (mk a n d)).uses = slice ls a n)
    (hconst : ∀ a n d, opConst (mk a n d) = none)
    (hslice : ∀ a n d, opSlice (mk a n d) = some (a, n))
    (hvar : ∀ a n d, opVar (mk a n d) = none) (h : Fine st lw D)
    (hdst : ∀ d, dst = some d → d < lw.max)
    (hr : (do let p ← lowerList st es; place dst (mk p.1 p.2) : LowerM ℕ) lw = .ok (r, lw')) :
    Delivers st lw D dst r lw' := by
  obtain ⟨⟨a, n⟩, lw₁, hlist, hr⟩ := lowerM_bind hr
  obtain ⟨D₁, hext, hsliced⟩ := list_exprs_spec hes hoes h hlist
  refine place_of_ext hext hdst ?_ hr
  exact places_slice hsliced (hdef a n) [] (fun d q hq => by rwa [huses] at hq)
    (fun q hq => absurd hq List.not_mem_nil) (hconst a n) (hslice a n) (hvar a n)

/-- A method call. -/
theorem method_spec {o k : Expr} {es : List Expr} (ho : Emits st o) (hk : Emits st k)
    (hes : ∀ e ∈ es, Emits st e) (hoo : Owned st o) (hok : Owned st k)
    (hoes : ∀ r ∈ listRegs es, r < st.nregs) (h : Fine st lw D)
    (hdst : ∀ d, dst = some d → d < lw.max)
    (hr : lowerExpr st (.call (.member o k) es) dst lw = .ok (r, lw')) :
    Delivers st lw D dst r lw' := by
  rw [lowerExpr] at hr
  obtain ⟨os, lw₁, hos, hr⟩ := lowerM_bind hr
  obtain ⟨fs, lw₂, hfs, hr⟩ := lowerM_bind hr
  obtain ⟨fs', lw₃, hkey, hr⟩ := lowerM_bind hr
  obtain ⟨⟨a, n⟩, lw₄, hlist, hr⟩ := lowerM_bind hr
  obtain ⟨D₁, hext₁, hgot₁⟩ := ho.operand hoo h hos
  obtain ⟨hadds, hlt, -⟩ := temp_spec hext₁.fine hfs
  obtain ⟨D₃, hext₃, hgot₃, hsame⟩ := key_spec hk hok hadds.fine (hgot₁.later hadds.toExt)
    (fun d (hd : some fs = some d) => Option.some.inj hd ▸ hlt) hkey
  obtain rfl : fs' = fs := hsame fs rfl
  obtain ⟨D₄, hext₄, hsliced⟩ := list_exprs_spec hes hoes hext₃.fine hlist
  have hlast := hext₃.trans hext₄
  refine place_of_ext (hext₁.trans (hadds.toExt.trans hlast)) hdst ?_ hr
  refine places_slice hsliced (fun _ => rfl) [fs', os] (fun d q hq => ?_) ?_ (fun _ => rfl)
    (fun _ => rfl) fun _ => rfl
  · simp only [shape] at hq
    split at hq
    · rcases List.mem_cons.1 hq with rfl | hq
      · exact List.mem_cons_self
      · exact List.mem_append_right _ hq
    · exact hq
  · simp only [List.forall_mem_cons]
    exact ⟨hgot₃.later hext₄, hgot₁.later (hadds.toExt.trans hlast), by simp⟩

/-- An op of three operands. -/
theorem apply_spec {f t a : Expr} (hf : Emits st f) (ht : Emits st t) (ha : Emits st a)
    (hof : Owned st f) (hot : Owned st t) (hoa : Owned st a) (h : Fine st lw D)
    (hdst : ∀ d, dst = some d → d < lw.max)
    (hr : lowerExpr st (.apply f t a) dst lw = .ok (r, lw')) : Delivers st lw D dst r lw' := by
  rw [lowerExpr] at hr
  obtain ⟨x, lw₁, hx, hr⟩ := lowerM_bind hr
  obtain ⟨y, lw₂, hy, hr⟩ := lowerM_bind hr
  obtain ⟨z, lw₃, hz, hr⟩ := lowerM_bind hr
  obtain ⟨D₁, hext₁, hgot₁⟩ := hf.operand hof h hx
  obtain ⟨D₂, hext₂, hgot₂⟩ := ht.operand hot hext₁.fine hy
  obtain ⟨D₃, hext₃, hgot₃⟩ := ha.operand hoa hext₂.fine hz
  refine place_of_ext (hext₁.trans (hext₂.trans hext₃)) hdst ?_ hr
  refine places_reads (fun _ => rfl) [x, y, z] (fun _ _ h => h) ?_ (fun _ => rfl) (fun _ => rfl)
    fun _ => rfl
  simp only [List.forall_mem_cons]
  exact ⟨hgot₁.later (hext₂.trans hext₃), hgot₂.later hext₃, hgot₃, by simp⟩

/-! ### Conditional expressions -/

theorem logical_spec {op : LogicalOperator} {a b : Expr} (ha : Emits st a) (hb : Emits st b)
    (hoa : Owned st a) (hob : Owned st b) (h : Fine st lw D)
    (hdst : ∀ d, dst = some d → d < lw.max)
    (hr : lowerExpr st (.logical op a b) dst lw = .ok (r, lw')) : Delivers st lw D dst r lw' := by
  rw [lowerExpr] at hr
  obtain ⟨t, lw₁, ht, hr⟩ := lowerM_bind hr
  obtain ⟨x, lw₂, hx, hr⟩ := lowerM_bind hr
  obtain ⟨_, lw₃, hat, hr⟩ := lowerM_bind hr
  cases hat
  obtain ⟨_, lw₃, hjump, hr⟩ := lowerM_bind hr
  cases hjump
  obtain ⟨y, lw₄, hy, hr⟩ := lowerM_bind hr
  obtain ⟨_, lw₅, hhere, hr⟩ := lowerM_bind hr
  cases hhere
  obtain ⟨_, lw₅, haim, hr⟩ := lowerM_bind hr
  cases haim
  obtain ⟨hadds, hlt, -⟩ := temp_spec h ht
  obtain ⟨D₂, hext₂, hgot₂, hsame⟩ := ha.yields hoa hadds.fine (some t)
    (fun d hd => Option.some.inj hd ▸ hlt) hx
  obtain rfl : x = t := hsame t rfl
  obtain ⟨huses, hdef, htargets, hconst, hslice, hvar⟩ := logicalJump_shape op x lw₂.lists
  obtain ⟨D₃, hfine, hover⟩ :=
    hext₂.fine.skips hgot₂ huses hdef htargets hconst hslice hvar
  obtain ⟨D₄, hext₄, -, -⟩ := hb.yields hob hfine (some x)
    (fun d hd => Option.some.inj hd ▸ hgot₂.lt) hy
  obtain ⟨D₅, hext₅⟩ := hover _ _ hext₄
  have hext := hadds.toExt.trans (hext₂.trans hext₅)
  exact (deliver_spec hext₅.fine (fun d hd => (hdst d hd).trans_le hext.max)
    (hgot₂.later hext₅) hr).after hext

theorem cond_spec {c a b : Expr} (hc : Emits st c) (ha : Emits st a) (hb : Emits st b)
    (hoc : Owned st c) (hoa : Owned st a) (hob : Owned st b) (h : Fine st lw D)
    (hdst : ∀ d, dst = some d → d < lw.max)
    (hr : lowerExpr st (.cond c a b) dst lw = .ok (r, lw')) : Delivers st lw D dst r lw' := by
  rw [lowerExpr] at hr
  obtain ⟨t, lw₁, ht, hr⟩ := lowerM_bind hr
  obtain ⟨cs, lw₂, hcs, hr⟩ := lowerM_bind hr
  obtain ⟨_, lw₃, hat, hr⟩ := lowerM_bind hr
  cases hat
  obtain ⟨_, lw₃, hjump, hr⟩ := lowerM_bind hr
  cases hjump
  obtain ⟨x, lw₄, hx, hr⟩ := lowerM_bind hr
  obtain ⟨_, lw₅, hend, hr⟩ := lowerM_bind hr
  cases hend
  obtain ⟨_, lw₅, hleave, hr⟩ := lowerM_bind hr
  cases hleave
  obtain ⟨_, lw₅, hhere, hr⟩ := lowerM_bind hr
  cases hhere
  obtain ⟨_, lw₅, haim, hr⟩ := lowerM_bind hr
  cases haim
  obtain ⟨y, lw₆, hy, hr⟩ := lowerM_bind hr
  obtain ⟨_, lw₇, hhere, hr⟩ := lowerM_bind hr
  cases hhere
  obtain ⟨_, lw₇, haim, hr⟩ := lowerM_bind hr
  cases haim
  obtain ⟨hadds, hlt, -⟩ := temp_spec h ht
  obtain ⟨D₂, hext₂, hgot₂⟩ := hc.operand hoc hadds.fine hcs
  have hlt₂ := hlt.trans_le hext₂.max
  obtain ⟨D₃, hfine₃, hfork⟩ := hext₂.fine.forks hgot₂
  obtain ⟨D₄, hext₄, hgot₄, hsame₄⟩ := ha.yields hoa hfine₃ (some t)
    (fun d hd => Option.some.inj hd ▸ hlt₂) hx
  obtain rfl : x = t := hsame₄ t rfl
  obtain ⟨D₅, hfine₅, hfork⟩ := hfork _ _ hext₄
  obtain ⟨D₆, hext₆, hgot₆, hsame₆⟩ := hb.yields hob hfine₅ (some x)
    (fun d hd => Option.some.inj hd ▸ hgot₄.lt) hy
  obtain rfl : y = x := hsame₆ x rfl
  obtain ⟨D₇, hext₇, hjoin⟩ := hfork _ _ hext₆
  have hext := hadds.toExt.trans (hext₂.trans hext₇)
  exact (deliver_spec hext₇.fine (fun d hd => (hdst d hd).trans_le hext.max)
    (hjoin y hgot₄ hgot₆) hr).after hext

end Operands

mutual

/-- **Lowering an expression** only adds code, behind which its register holds a value. -/
theorem lowerExpr_spec (e : Expr) : Emits st e := by
  constructor
  intro ho lw D h dst hdst r lw' hr
  have hown {a : Expr} (ha : ∀ q ∈ exprRegs a, q ∈ exprRegs e) : Owned st a :=
    fun q hq => ho q (ha q hq)
  have hleaf {mk : ℕ → Op} (hdef : ∀ d, opDef (mk d) = some d)
      (huses : ∀ d, (shape lw.lists (mk d)).uses = []) (hconst : ∀ d, opConst (mk d) = none)
      (hslice : ∀ d, opSlice (mk d) = none) (hvar : ∀ d, opVar (mk d) = none)
      (hr : place dst mk lw = .ok (r, lw')) : Delivers st lw D dst r lw' :=
    place_spec h hdst (places_leaf _ hdef huses hconst hslice hvar) hr
  cases e with
  | undef | null | bool b | lit s =>
      rw [lowerExpr] at hr
      exact lowerConst_spec h hdst hr
  | num n | scope | this | callee | exception | excRecord =>
      rw [lowerExpr] at hr
      exact hleaf (fun _ => rfl) (fun _ => rfl) (fun _ => rfl) (fun _ => rfl) (fun _ => rfl) hr
  | slot k | frame =>
      rw [lowerExpr] at hr
      exact place_spec h hdst (places_fail _) hr
  | reg q =>
      rw [lowerExpr] at hr
      exact lowerReg_spec h hdst (ho q (by simp [exprRegs])) hr
  | var k =>
      rw [lowerExpr] at hr
      exact place_spec h hdst (places_varOp k) hr
  | scopeVar k =>
      rw [lowerExpr] at hr
      exact place_spec h hdst (places_scopeVar k) hr
  | frameField f | scopeField f =>
      rw [lowerExpr] at hr
      obtain ⟨id, lw₁, hid, hr⟩ := lowerM_bind hr
      obtain ⟨hadds, -⟩ := field_spec h hid
      refine place_of_ext hadds.toExt hdst ?_ hr
      exact places_leaf _ (fun _ => rfl) (fun _ => rfl) (fun _ => rfl) (fun _ => rfl) fun _ => rfl
  | runtime x =>
      rw [lowerExpr] at hr
      cases hv : folded (.runtime x) with
      | some v =>
          rw [hv] at hr
          exact lowerFolded_spec h hdst hr
      | none =>
        rw [hv] at hr
        by_cases hx : x = .global
        · simp only [hx, if_true] at hr
          exact hleaf (fun _ => rfl) (fun _ => rfl) (fun _ => rfl) (fun _ => rfl) (fun _ => rfl) hr
        · simp only [hx, if_false] at hr
          exact hleaf (fun _ => rfl) (fun _ => rfl) (fun _ => rfl) (fun _ => rfl) (fun _ => rfl) hr
  | name s =>
      rw [lowerExpr] at hr
      cases hv : folded (.name s) with
      | some v =>
          rw [hv] at hr
          exact lowerFolded_spec h hdst hr
      | none =>
          rw [hv] at hr
          obtain ⟨c, lw₁, hc, hr⟩ := lowerM_bind hr
          obtain ⟨hadds, hlt, hmax⟩ := konst_spec h hc
          refine place_of_ext hadds.toExt hdst ?_ hr
          exact places_of (fun _ => rfl) [] (fun _ _ h => h) (fun _ h => absurd h List.not_mem_nil)
            (fun d c' hc' => Option.some.inj hc' ▸ hlt) (fun d a n h => by cases h) fun _ => rfl
  | member o k =>
      have hoo : Owned st o := hown fun q hq => by simp [exprRegs, hq]
      have hok : Owned st k := hown fun q hq => by simp [exprRegs, hq]
      rw [lowerExpr] at hr
      cases hv : folded (.member o k) with
      | some v =>
          rw [hv] at hr
          exact lowerFolded_spec h hdst hr
      | none =>
          rw [hv] at hr
          obtain ⟨os, lw₁, hos, hr⟩ := lowerM_bind hr
          obtain ⟨D₁, hext, hgot⟩ := (lowerExpr_spec o).operand hoo h hos
          exact (key_spec (lowerExpr_spec k) hok hext.fine hgot
            (fun d hd => (hdst d hd).trans_le hext.max) hr).after hext
  | call c args =>
      have hoargs : ∀ q ∈ listRegs args, q < st.nregs := fun q hq => ho q (by simp [exprRegs, hq])
      by_cases hm : ∃ o k, c = .member o k
      · obtain ⟨o, k, rfl⟩ := hm
        exact method_spec (lowerExpr_spec o) (lowerExpr_spec k) (lowerExprs_spec args)
          (hown fun q hq => by simp [exprRegs, hq]) (hown fun q hq => by simp [exprRegs, hq])
          hoargs h hdst hr
      · rw [lowerExpr] at hr
        · refine headed_spec (fun f a n d => .call d f NOSLOT a n) (lowerExpr_spec c)
            (lowerExprs_spec args) (hown fun q hq => by simp [exprRegs, hq]) hoargs
            (fun _ _ _ _ => rfl) (fun _ _ _ _ _ => ?_) (fun _ _ _ _ => rfl) (fun _ _ _ _ => rfl)
            (fun _ _ _ _ => rfl) h hdst hr
          rw [shape, if_pos rfl]
          rfl
        · exact fun o k hc => hm ⟨o, k, hc⟩
  | new c args =>
      rw [lowerExpr] at hr
      exact headed_spec (fun f a n d => .new d f a n) (lowerExpr_spec c)
        (lowerExprs_spec args) (hown fun q hq => by simp [exprRegs, hq])
        (fun q hq => ho q (by simp [exprRegs, hq])) (fun _ _ _ _ => rfl) (fun _ _ _ _ _ => rfl)
        (fun _ _ _ _ => rfl) (fun _ _ _ _ => rfl) (fun _ _ _ _ => rfl) h hdst hr
  | apply f t a =>
      exact apply_spec (lowerExpr_spec f) (lowerExpr_spec t) (lowerExpr_spec a)
        (hown fun q hq => by simp [exprRegs, hq]) (hown fun q hq => by simp [exprRegs, hq])
        (hown fun q hq => by simp [exprRegs, hq]) h hdst hr
  | construct f a =>
      rw [lowerExpr] at hr
      exact two_spec (fun x y d => .construct d x y) (lowerExpr_spec f) (lowerExpr_spec a)
        (hown fun q hq => by simp [exprRegs, hq]) (hown fun q hq => by simp [exprRegs, hq])
        (fun _ _ _ => rfl) (fun _ _ _ _ => rfl) (fun _ _ _ => rfl) (fun _ _ _ => rfl)
        (fun _ _ _ => rfl) h hdst hr
  | unary op a =>
      rw [lowerExpr] at hr
      exact one_spec (fun x d => .unary d op x) (lowerExpr_spec a)
        (hown fun q hq => by simpa [exprRegs] using hq) (fun _ _ => rfl) (fun _ _ _ => rfl)
        (fun _ _ => rfl) (fun _ _ => rfl) (fun _ _ => rfl) h hdst hr
  | binary op a b =>
      have hoa : Owned st a := hown fun q hq => by simp [exprRegs, hq]
      have hob : Owned st b := hown fun q hq => by simp [exprRegs, hq]
      by_cases hb : ∃ n, b = .num n
      · obtain ⟨n, rfl⟩ := hb
        rw [lowerExpr] at hr
        exact one_spec (fun x d => .binK d op x n) (lowerExpr_spec a) hoa (fun _ _ => rfl)
          (fun _ _ _ => rfl) (fun _ _ => rfl) (fun _ _ => rfl) (fun _ _ => rfl) h hdst hr
      by_cases ha : ∃ n, a = .num n
      · obtain ⟨n, rfl⟩ := ha
        rw [lowerExpr] at hr
        · exact one_spec (fun x d => .kBin d op n x) (lowerExpr_spec b) hob (fun _ _ => rfl)
            (fun _ _ _ => rfl) (fun _ _ => rfl) (fun _ _ => rfl) (fun _ _ => rfl) h hdst hr
        · exact fun n hn => hb ⟨n, hn⟩
      · rw [lowerExpr] at hr
        · exact two_spec (fun x y d => .binary d op x y) (lowerExpr_spec a)
            (lowerExpr_spec b) hoa hob (fun _ _ _ => rfl) (fun _ _ _ _ => rfl) (fun _ _ _ => rfl)
            (fun _ _ _ => rfl) (fun _ _ _ => rfl) h hdst hr
        · exact fun n hn => hb ⟨n, hn⟩
        · exact fun n hn => ha ⟨n, hn⟩
  | logical op a b =>
      exact logical_spec (lowerExpr_spec a) (lowerExpr_spec b)
        (hown fun q hq => by simp [exprRegs, hq]) (hown fun q hq => by simp [exprRegs, hq])
        h hdst hr
  | cond c a b =>
      exact cond_spec (lowerExpr_spec c) (lowerExpr_spec a) (lowerExpr_spec b)
        (hown fun q hq => by simp [exprRegs, hq]) (hown fun q hq => by simp [exprRegs, hq])
        (hown fun q hq => by simp [exprRegs, hq]) h hdst hr
  | array items =>
      rw [lowerExpr] at hr
      exact listed_spec (fun a n d => .array d a n) (lowerExprs_spec items)
        (fun q hq => ho q (by simpa [exprRegs] using hq)) (fun _ _ _ => rfl)
        (fun _ _ _ _ => rfl) (fun _ _ _ => rfl) (fun _ _ _ => rfl) (fun _ _ _ => rfl) h hdst hr
  | object items =>
      rw [lowerExpr] at hr
      exact listed_spec (fun a n d => .object d a n) (lowerExprs_spec items)
        (fun q hq => ho q (by simpa [exprRegs] using hq)) (fun _ _ _ => rfl)
        (fun _ _ _ _ => rfl) (fun _ _ _ => rfl) (fun _ _ _ => rfl) (fun _ _ _ => rfl) h hdst hr
  | closure entry name arity =>
      rw [lowerExpr] at hr
      cases hentry : entryKey entry with
      | none =>
          rw [hentry] at hr
          exact place_spec h hdst (places_fail _) hr
      | some entry' =>
          rw [hentry] at hr
          exact two_spec (fun x y d => .closure d entry' x y) (lowerExpr_spec name)
            (lowerExpr_spec arity) (hown fun q hq => by simp [exprRegs, hq])
            (hown fun q hq => by simp [exprRegs, hq]) (fun _ _ _ => rfl) (fun _ _ _ _ => rfl)
            (fun _ _ _ => rfl) (fun _ _ _ => rfl) (fun _ _ _ => rfl) h hdst hr
  | keys o =>
      rw [lowerExpr] at hr
      exact one_spec (fun x d => .keys d x) (lowerExpr_spec o)
        (hown fun q hq => by simpa [exprRegs] using hq) (fun _ _ => rfl) (fun _ _ _ => rfl)
        (fun _ _ => rfl) (fun _ _ => rfl) (fun _ _ => rfl) h hdst hr

theorem lowerExprs_spec (es : List Expr) : ∀ e ∈ es, Emits st e := by
  cases es with
  | nil => exact fun e he => absurd he List.not_mem_nil
  | cons e es =>
      intro e' he'
      rcases List.mem_cons.1 he' with heq | he'
      · exact heq ▸ lowerExpr_spec e
      · exact lowerExprs_spec es e' he'

end

end Interp
end Lunar
