/-
# What lowering statements emits

`payload/exec.rs`: `lower_stmts`, `lower_run` and `scan_stmts`.

The registers that `scan_stmts` counts are those of the function, so every statement only adds to
what stands before it (`lowerStmts_spec`).
-/

import Lunar.Payload.Interp.Compile
import Lunar.Payload.Interp.Lower.Runs

namespace Lunar
namespace Interp

open Exec (Op opDef opTargets shape slice)
open Devirt (Expr Stmt)
open LowerM

/-! ## The registers that are counted -/

theorem foldl_max_lt {l : List ℕ} {a n : ℕ} :
    l.foldl Nat.max a < n ↔ a < n ∧ ∀ x ∈ l, x < n := by
  induction l generalizing a with
  | nil => simp
  | cons x l ih =>
      rw [List.foldl_cons, ih, List.forall_mem_cons]
      have hmax : Nat.max a x < n ↔ a < n ∧ x < n := Nat.max_lt
      rw [hmax, and_assoc]

mutual

/-- The count only grows. -/
theorem scanStmt_lt (s : Stmt) {p : List ℕ × ℕ} {n : ℕ} (h : (scanStmt s p).2 < n) : p.2 < n := by
  cases s with
  | cond c thn els =>
      rw [scanStmt] at h
      exact (foldl_max_lt.1 (scanStmts_lt thn (scanStmts_lt els h))).1
  | declVar key val =>
      rw [scanStmt] at h
      exact (foldl_max_lt.1 h).1
  | setReg reg val =>
      rw [scanStmt] at h
      exact (Nat.max_lt.1 (foldl_max_lt.1 h).1).1
  | _ =>
      simp only [scanStmt] at h
      exact (foldl_max_lt.1 h).1

theorem scanStmts_lt (l : List Stmt) {p : List ℕ × ℕ} {n : ℕ} (h : (scanStmts l p).2 < n) :
    p.2 < n := by
  cases l with
  | nil =>
      rw [scanStmts] at h
      exact h
  | cons s rest =>
      rw [scanStmts] at h
      exact scanStmt_lt s (scanStmts_lt rest h)

end

/-- The registers of a list of statements are those of the function. -/
def Counted (st : Site) (l : List Stmt) : Prop := ∃ p, (scanStmts l p).2 < st.nregs

variable {st : Site}

theorem Counted.tail {s : Stmt} {l : List Stmt} (h : Counted st (s :: l)) : Counted st l := by
  obtain ⟨p, hp⟩ := h
  rw [scanStmts] at hp
  exact ⟨_, hp⟩

theorem Counted.head {s : Stmt} {l : List Stmt} (h : Counted st (s :: l)) :
    ∃ p, (scanStmt s p).2 < st.nregs := by
  obtain ⟨p, hp⟩ := h
  rw [scanStmts] at hp
  exact ⟨p, scanStmts_lt l hp⟩

theorem Counted.drop {l : List Stmt} (h : Counted st l) (n : ℕ) : Counted st (l.drop n) := by
  induction n generalizing l with
  | zero => exact h
  | succ n ih =>
      cases l with
      | nil => exact h
      | cons s l => exact ih h.tail

theorem Counted.of_head {s : Stmt} (h : ∃ p, (scanStmt s p).2 < st.nregs) : Counted st [s] := by
  obtain ⟨p, hp⟩ := h
  refine ⟨p, ?_⟩
  rw [scanStmts, scanStmts]
  exact hp

theorem Counted.take {l : List Stmt} (h : Counted st l) (n : ℕ) : Counted st (l.take n) := by
  obtain ⟨p, hp⟩ := h
  refine ⟨p, ?_⟩
  induction n generalizing l p with
  | zero =>
      rw [List.take_zero, scanStmts]
      exact scanStmts_lt l hp
  | succ n ih =>
      cases l with
      | nil => exact hp
      | cons s l =>
          rw [scanStmts] at hp
          rw [List.take_succ_cons, scanStmts]
          exact ih _ hp

theorem owned_setReg {q : ℕ} {val : Expr} {l : List Stmt} (h : Counted st (.setReg q val :: l)) :
    q < st.nregs ∧ Owned st val := by
  obtain ⟨p, hp⟩ := h.head
  rw [scanStmt, foldl_max_lt] at hp
  exact ⟨(Nat.max_lt.1 hp.1).2, hp.2⟩

/-- The expressions of a statement that only holds expressions. -/
theorem owned_exprs {s : Stmt} {p : List ℕ × ℕ}
    (hp : (s.exprs.flatMap exprRegs).foldl Nat.max p.2 < st.nregs) : ∀ e ∈ s.exprs, Owned st e :=
  fun _ he _ hr => (foldl_max_lt.1 hp).2 _ (List.mem_flatMap.2 ⟨_, he, hr⟩)

/-! ## Effects -/

variable {lw lw' : Lower} {D : Marks}

/-- An op that writes no register and leads nowhere. -/
structure Effect (st : Site) (lw : Lower) (D : Marks) (op : Op) : Prop where
  def_ : opDef op = none
  targets : opTargets op = []
  uses : ∀ r ∈ (shape lw.lists op).uses, Got st lw D r
  const : opConst op = none
  slice : opSlice op = none
  named : ∀ hops slot key, opVar op = some (hops, slot, key) → st.resolve key = some (hops, slot)

theorem Effect.ok {op : Op} (he : Effect st lw D op) :
    OpOk st lw.max lw.consts.length lw.lists op where
  dest d hd := by cases he.def_.symm.trans hd
  uses r hr := (he.uses r hr).lt
  const c hc := by cases he.const.symm.trans hc
  slice a n hs := by cases he.slice.symm.trans hs
  named := he.named

theorem Effect.acts {op : Op} (he : Effect st lw D op) (h : Fine st lw D) :
    ∃ D', Ext st lw D (lw.push op) D' := by
  refine ⟨_, h.emit he.ok (fun r hr => (he.uses r hr).known) (by simp [he.targets])
    (W := D lw.ops.length) fun _ r hr => .inl hr, by simp, fun i hi => ?_, fun r hr => ?_, le_rfl,
    le_rfl, List.prefix_rfl, rfl⟩
  · exact Function.update_of_ne (by omega) _ _
  · rwa [Lower.length_push, Function.update_self]

theorem effect_fail (why pc : ℕ) : Effect st lw D (.fail why pc) where
  def_ := rfl
  targets := rfl
  uses _ hr := absurd hr List.not_mem_nil
  const := rfl
  slice := rfl
  named _ _ _ h := by cases h

/-- An op that reads one register. -/
theorem effect_one {op : Op} {v : ℕ} (hv : Got st lw D v) (hdef : opDef op = none)
    (htargets : opTargets op = []) (huses : (shape lw.lists op).uses = [v])
    (hconst : opConst op = none) (hslice : opSlice op = none) (hvar : opVar op = none) :
    Effect st lw D op where
  def_ := hdef
  targets := htargets
  uses r hr := List.mem_singleton.1 (huses ▸ hr) ▸ hv
  const := hconst
  slice := hslice
  named _ _ _ h := by cases hvar.symm.trans h

theorem effect_setVar {v : ℕ} (hv : Got st lw D v) (key : Expr) :
    Effect st lw D (lowerSetVar st key v) := by
  unfold lowerSetVar
  cases numKey key with
  | none => exact effect_fail _ _
  | some k =>
      dsimp only
      cases hres : st.resolve k with
      | none => exact effect_one hv rfl rfl rfl rfl rfl rfl
      | some x =>
          constructor
          case def_ => rfl
          case targets => rfl
          case uses => exact fun r hr => List.mem_singleton.1 hr ▸ hv
          case const => rfl
          case slice => rfl
          case named =>
            intro hops slot key' h
            cases h
            exact hres

theorem effect_setVarK {key val : Expr} {op : Op} (h : setVarK st key val = some op) :
    Effect st lw D op := by
  unfold setVarK at h
  split at h
  · obtain ⟨k, -, h⟩ := Option.bind_eq_some_iff.1 h
    obtain ⟨x, hres, h⟩ := Option.bind_eq_some_iff.1 h
    cases h
    constructor
    case def_ => rfl
    case targets => rfl
    case uses => exact fun r hr => absurd hr List.not_mem_nil
    case const => rfl
    case slice => rfl
    case named =>
      intro hops slot key' h
      cases h
      exact hres
  · cases h

theorem effect_decl {v : ℕ} (hv : Got st lw D v) (key : Expr) :
    Effect st lw D (lowerDecl st key v) := by
  unfold lowerDecl
  cases (numKey key).bind st.slotOf with
  | none => exact effect_fail _ _
  | some slot => exact effect_one hv rfl rfl rfl rfl rfl rfl

theorem reset_spec (h : Fine st lw D) : Ext st lw D { lw with next := st.nregs } D :=
  h.grow rfl le_rfl (h.next.trans h.max) le_rfl le_rfl List.prefix_rfl rfl

/-- An operand and an effect on it. -/
theorem effect_spec {val : Expr} (ho : Owned st val) (h : Fine st lw D) {mk : ℕ → Op}
    (hmk : ∀ {lw' : Lower} {D' : Marks} {v : ℕ}, Got st lw' D' v → Effect st lw' D' (mk v))
    {u : Unit} (hr : (do let v ← lowerExpr st val none; emit (mk v) : LowerM Unit) lw =
      .ok (u, lw')) : ∃ D', Ext st lw D lw' D' := by
  obtain ⟨v, lw₁, hv, hr⟩ := lowerM_bind hr
  cases hr
  obtain ⟨D₁, hext, hgot⟩ := (lowerExpr_spec val).operand ho h hv
  obtain ⟨D₂, hext'⟩ := (hmk hgot).acts hext.fine
  exact ⟨D₂, hext.trans hext'⟩

/-- An operand, a field id and an effect on them. -/
theorem field_effect_spec {val : Expr} (mk : ℕ → ℕ → Op) (ho : Owned st val) (h : Fine st lw D)
    {f : String} (hmk : ∀ {lw' : Lower} {D' : Marks} {id v : ℕ}, Got st lw' D' v →
      Effect st lw' D' (mk id v)) {u : Unit}
    (hr : (do
      let v ← lowerExpr st val none
      let id ← field f
      emit (mk id v) : LowerM Unit) lw = .ok (u, lw')) : ∃ D', Ext st lw D lw' D' := by
  obtain ⟨v, lw₁, hv, hr⟩ := lowerM_bind hr
  obtain ⟨id, lw₂, hid, hr⟩ := lowerM_bind hr
  cases hr
  obtain ⟨D₁, hext, hgot⟩ := (lowerExpr_spec val).operand ho h hv
  obtain ⟨hadds, -⟩ := field_spec hext.fine hid
  obtain ⟨D₂, hext'⟩ := (hmk (hgot.later hadds.toExt)).acts hadds.fine
  exact ⟨D₂, hext.trans (hadds.toExt.trans hext')⟩

/-! ## Array runs -/

/-- What lowering a run does. -/
def LaysRun (st : Site) (nested : List Stmt → ℕ → ℕ → LowerM Unit) : Prop :=
  ∀ {l : List Stmt} {q n w : ℕ}, Counted st l → runAt l = some (q, n, w) →
    ∀ {lw lw' : Lower} {D : Marks} {u : Unit}, Fine st lw D →
      nested (l.take w) q n lw = .ok (u, lw') → ∃ D', Ext st lw D lw' D'

theorem lowerItems_spec {nested : List Stmt → ℕ → ℕ → LowerM Unit} (hn : LaysRun st nested)
    {l : List Stmt} (hl : Counted st l) (skip : ℕ) (h : Fine st lw D) {regs : List ℕ}
    (hr : lowerItems st nested l skip lw = .ok (regs, lw')) :
    ∃ D', Ext st lw D lw' D' ∧ ∀ r ∈ regs, Got st lw' D' r := by
  induction l generalizing skip lw D regs with
  | nil =>
      cases skip <;>
      · rw [lowerItems] at hr
        cases hr
        exact ⟨D, h.ext, fun r hr => absurd hr List.not_mem_nil⟩
  | cons s rest ih =>
      cases skip with
      | succ skip =>
          rw [lowerItems] at hr
          exact ih hl.tail skip h hr
      | zero =>
          cases s with
          | setProp obj key val =>
              rw [lowerItems] at hr
              obtain ⟨v, lw₁, hv, hr⟩ := lowerM_bind hr
              obtain ⟨vs, lw₂, hvs, hr⟩ := lowerM_bind hr
              cases hr
              obtain ⟨p, hp⟩ := hl.head
              simp only [scanStmt] at hp
              obtain ⟨D₁, hext₁, hgot⟩ :=
                (lowerExpr_spec val).operand (owned_exprs hp val (by simp [Stmt.exprs])) h hv
              obtain ⟨D₂, hext₂, hgots⟩ := ih hl.tail 0 hext₁.fine hvs
              refine ⟨D₂, hext₁.trans hext₂, fun r hr => ?_⟩
              rcases List.mem_cons.1 hr with rfl | hr
              · exact hgot.later hext₂
              · exact hgots r hr
          | setReg q val =>
              obtain ⟨hq, hval⟩ := owned_setReg hl
              obtain ⟨lw₁, hr, hone⟩ := lowerItems_setReg hr
              obtain ⟨D₁, hext₁⟩ : ∃ D', Ext st lw D lw₁ D' := by
                rcases hone with ⟨n, w, hrun, hone⟩ | ⟨r, hone⟩
                · exact hn hl hrun h hone
                · obtain ⟨D₁, hext₁, -⟩ := (lowerExpr_spec val).yields hval h (some q)
                    (fun d hd => Option.some.inj hd ▸ hq.trans_le (h.next.trans h.max)) hone
                  exact ⟨D₁, hext₁⟩
              obtain ⟨D₂, hext₂, hgots⟩ := ih hl.tail _ hext₁.fine hr
              exact ⟨D₂, hext₁.trans hext₂, hgots⟩
          | _ =>
              rw [lowerItems] at hr
              · cases hr
              all_goals
                intros
                rename_i heq
                cases heq

/-- **Lowering a run** adds the items and the op that makes the array of them. -/
theorem lowerRun_spec (fuel : ℕ) : LaysRun st (lowerRun st fuel) := by
  induction fuel with
  | zero =>
      intro l q n w hl hrun lw lw' D u h hr
      cases hr
  | succ fuel ih =>
      intro l q n w hl hrun lw lw' D u h hr
      rw [lowerRun] at hr
      obtain ⟨regs, lw₁, hregs, hr⟩ := lowerM_bind hr
      obtain ⟨a, lw₂, ha, hr⟩ := lowerM_bind hr
      cases hr
      obtain ⟨_, -, c, args, rest, w', rfl, -, -, -⟩ := runAt_finds _ _ _ _ hrun
      have hq := (owned_setReg hl).1
      have hlen : n ≤ regs.length := by
        rw [runAt, List.length_cons, arrayRun] at hrun
        obtain ⟨n', hn', hrun⟩ := Option.bind_eq_some_iff.1 hrun
        obtain ⟨used, hloop, hrun⟩ := Option.bind_eq_some_iff.1 hrun
        cases hrun
        rw [← List.drop_one] at hregs
        exact lowerItems_length hloop hregs
      have hwithin : Counted st ((Stmt.setReg q (.new c args) :: rest).take w).tail := by
        rw [← List.drop_one]
        exact (hl.take w).drop 1
      obtain ⟨D₁, hext₁, hgots⟩ := lowerItems_spec ih hwithin 0 h hregs
      obtain ⟨hadds, hsliced, hmax⟩ := list_sliced hext₁.fine
        (fun r hr => hgots r (List.mem_of_mem_take hr)) (n := n)
        (by rw [List.length_take]; omega) ha
      obtain ⟨D₃, hext₃, -⟩ := hadds.fine.puts (.array q a n) rfl
        (hq.trans_le (hadds.fine.next.trans hadds.fine.max)) hsliced.got (fun _ hc => by cases hc)
        (fun a' n' hs => by cases hs; exact hsliced.fits) fun _ _ _ hv => by cases hv
      exact ⟨D₃, hext₁.trans (hadds.toExt.trans hext₃)⟩

/-! ## Statements -/

/-- What lowering a statement does. -/
structure Lays (st : Site) (s : Stmt) : Prop where
  ext : (∃ p, (scanStmt s p).2 < st.nregs) → ∀ {lw : Lower} {D : Marks}, Fine st lw D →
    ∀ {u : Unit} {lw' : Lower}, lowerStmt st s lw = .ok (u, lw') → ∃ D', Ext st lw D lw' D'

/-- What lowering a list of statements does. -/
structure LaysAll (st : Site) (l : List Stmt) : Prop where
  ext : Counted st l → ∀ (skip : ℕ) {lw : Lower} {D : Marks}, Fine st lw D →
    ∀ {u : Unit} {lw' : Lower}, lowerStmts st l skip lw = .ok (u, lw') → ∃ D', Ext st lw D lw' D'

theorem laysCond {c : Expr} {thn els : List Stmt} (hthn : LaysAll st thn) (hels : LaysAll st els) :
    Lays st (.cond c thn els) := by
  constructor
  intro hp lw D h u lw' hr
  obtain ⟨p, hp⟩ := hp
  rw [scanStmt] at hp
  have hpt := scanStmts_lt els hp
  have hoc : Owned st c := (foldl_max_lt.1 (scanStmts_lt thn hpt)).2
  rw [lowerStmt] at hr
  obtain ⟨cs, lw₁, hcs, hr⟩ := lowerM_bind hr
  obtain ⟨_, lw₂, hat, hr⟩ := lowerM_bind hr
  cases hat
  obtain ⟨_, lw₂, hjump, hr⟩ := lowerM_bind hr
  cases hjump
  obtain ⟨_, lw₃, hx, hr⟩ := lowerM_bind hr
  obtain ⟨_, lw₄, hend, hr⟩ := lowerM_bind hr
  cases hend
  obtain ⟨_, lw₄, hleave, hr⟩ := lowerM_bind hr
  cases hleave
  obtain ⟨_, lw₄, hhere, hr⟩ := lowerM_bind hr
  cases hhere
  obtain ⟨_, lw₄, haim, hr⟩ := lowerM_bind hr
  cases haim
  obtain ⟨_, lw₅, hy, hr⟩ := lowerM_bind hr
  obtain ⟨_, lw₆, hhere, hr⟩ := lowerM_bind hr
  cases hhere
  cases hr
  obtain ⟨D₁, hext₁, hgot⟩ := (lowerExpr_spec c).operand hoc h hcs
  obtain ⟨D₂, hfine₂, hfork⟩ := hext₁.fine.forks hgot
  obtain ⟨D₃, hext₃⟩ := hthn.ext ⟨_, hpt⟩ 0 hfine₂ hx
  obtain ⟨D₄, hfine₄, hfork⟩ := hfork _ _ hext₃
  obtain ⟨D₅, hext₅⟩ := hels.ext ⟨_, hp⟩ 0 hfine₄ hy
  obtain ⟨D₆, hext₆, -⟩ := hfork _ _ hext₅
  exact ⟨D₆, hext₁.trans hext₆⟩

mutual

/-- **Lowering a statement** only adds code. -/
theorem lowerStmt_spec (s : Stmt) : Lays st s := by
  cases s with
  | cond c thn els => exact laysCond (lowerStmts_spec thn) (lowerStmts_spec els)
  | setDest k val =>
      constructor
      intro _ lw D h u lw' hr
      rw [lowerStmt] at hr
      cases hr
      exact (effect_fail _ _).acts h
  | halt =>
      constructor
      intro _ lw D h u lw' hr
      rw [lowerStmt] at hr
      cases hr
      exact (effect_fail _ _).acts h
  | setReg q val =>
      constructor
      intro hp lw D h u lw' hr
      obtain ⟨hq, hval⟩ := owned_setReg (Counted.of_head hp)
      rw [lowerStmt] at hr
      obtain ⟨r, lw₁, hv, hr⟩ := lowerM_bind hr
      cases hr
      obtain ⟨D₁, hext, -⟩ := (lowerExpr_spec val).yields hval h (some q)
        (fun d hd => Option.some.inj hd ▸ hq.trans_le (h.next.trans h.max)) hv
      exact ⟨D₁, hext⟩
  | setProp obj key val =>
      constructor
      intro hp lw D h u lw' hr
      obtain ⟨p, hp⟩ := hp
      simp only [scanStmt] at hp
      have ho := owned_exprs hp
      rw [lowerStmt] at hr
      obtain ⟨x, lw₁, hx, hr⟩ := lowerM_bind hr
      obtain ⟨y, lw₂, hy, hr⟩ := lowerM_bind hr
      obtain ⟨z, lw₃, hz, hr⟩ := lowerM_bind hr
      cases hr
      obtain ⟨D₁, hext₁, hgot₁⟩ :=
        (lowerExpr_spec obj).operand (ho obj (by simp [Stmt.exprs])) h hx
      obtain ⟨D₂, hext₂, hgot₂⟩ :=
        (lowerExpr_spec key).operand (ho key (by simp [Stmt.exprs])) hext₁.fine hy
      obtain ⟨D₃, hext₃, hgot₃⟩ :=
        (lowerExpr_spec val).operand (ho val (by simp [Stmt.exprs])) hext₂.fine hz
      have heffect : Effect st lw₃ D₃ (.setProp x y z) := by
        constructor
        case def_ => rfl
        case targets => rfl
        case uses =>
          change ∀ r ∈ [x, y, z], Got st lw₃ D₃ r
          simp only [List.forall_mem_cons]
          exact ⟨hgot₁.later (hext₂.trans hext₃), hgot₂.later hext₃, hgot₃, by simp⟩
        case const => rfl
        case slice => rfl
        case named => exact fun _ _ _ h => by cases h
      obtain ⟨D₄, hext₄⟩ := heffect.acts hext₃.fine
      exact ⟨D₄, hext₁.trans (hext₂.trans (hext₃.trans hext₄))⟩
  | setVar key val =>
      constructor
      intro hp lw D h u lw' hr
      obtain ⟨p, hp⟩ := hp
      simp only [scanStmt] at hp
      rw [lowerStmt] at hr
      cases hk : setVarK st key val with
      | some op =>
          rw [hk] at hr
          cases hr
          exact (effect_setVarK hk).acts h
      | none =>
          rw [hk] at hr
          exact effect_spec (owned_exprs hp val (by simp [Stmt.exprs])) h
            (fun hv => effect_setVar hv key) hr
  | declVar key val =>
      constructor
      intro hp lw D h u lw' hr
      obtain ⟨p, hp⟩ := hp
      rw [scanStmt] at hp
      rw [lowerStmt] at hr
      have ho : Owned st val :=
        fun r hr => (foldl_max_lt.1 hp).2 r (List.mem_append_right _ hr)
      exact effect_spec ho h (fun hv => effect_decl hv key) hr
  | setFrameField f val =>
      constructor
      intro hp lw D h u lw' hr
      obtain ⟨p, hp⟩ := hp
      simp only [scanStmt] at hp
      rw [lowerStmt] at hr
      exact field_effect_spec (fun id v => .setFrameField id v)
        (owned_exprs hp val (by simp [Stmt.exprs])) h
        (fun hv => effect_one hv rfl rfl rfl rfl rfl rfl) hr
  | setScopeField f val =>
      constructor
      intro hp lw D h u lw' hr
      obtain ⟨p, hp⟩ := hp
      simp only [scanStmt] at hp
      rw [lowerStmt] at hr
      exact field_effect_spec (fun id v => .setScopeField id v)
        (owned_exprs hp val (by simp [Stmt.exprs])) h
        (fun hv => effect_one hv rfl rfl rfl rfl rfl rfl) hr
  | setCatch x | setFinally x | jump x | ret x | throw x =>
      constructor
      intro hp lw D h u lw' hr
      obtain ⟨p, hp⟩ := hp
      simp only [scanStmt] at hp
      rw [lowerStmt] at hr
      exact effect_spec (owned_exprs hp x (by simp [Stmt.exprs])) h
        (fun hv => effect_one hv rfl rfl rfl rfl rfl rfl) hr
  | eval x =>
      constructor
      intro hp lw D h u lw' hr
      obtain ⟨p, hp⟩ := hp
      simp only [scanStmt] at hp
      rw [lowerStmt] at hr
      obtain ⟨v, lw₁, hv, hr⟩ := lowerM_bind hr
      cases hr
      obtain ⟨D₁, hext, -⟩ :=
        (lowerExpr_spec x).operand (owned_exprs hp x (by simp [Stmt.exprs])) h hv
      exact ⟨D₁, hext⟩

/-- **Lowering statements** only adds code. -/
theorem lowerStmts_spec (l : List Stmt) : LaysAll st l := by
  cases l with
  | nil =>
      constructor
      intro _ skip lw D h u lw' hr
      cases skip <;>
      · rw [lowerStmts] at hr
        cases hr
        exact ⟨D, h.ext⟩
  | cons s rest =>
      constructor
      intro hl skip lw D h u lw' hr
      cases skip with
      | succ skip =>
          rw [lowerStmts] at hr
          exact (lowerStmts_spec rest).ext hl.tail skip h hr
      | zero =>
          rw [lowerStmts] at hr
          obtain ⟨_, lw₁, hreset, hr⟩ := lowerM_bind hr
          cases hreset
          have hext := reset_spec h
          cases hrun : runAt (s :: rest) with
          | some x =>
              obtain ⟨q, n, w⟩ := x
              rw [hrun] at hr
              obtain ⟨_, lw₂, hone, hr⟩ := lowerM_bind hr
              obtain ⟨D₂, hext₂⟩ := lowerRun_spec w hl hrun hext.fine hone
              obtain ⟨D₃, hext₃⟩ := (lowerStmts_spec rest).ext hl.tail _ hext₂.fine hr
              exact ⟨D₃, hext.trans (hext₂.trans hext₃)⟩
          | none =>
              rw [hrun] at hr
              obtain ⟨_, lw₂, hone, hr⟩ := lowerM_bind hr
              obtain ⟨D₂, hext₂⟩ := (lowerStmt_spec s).ext hl.head hext.fine hone
              obtain ⟨D₃, hext₃⟩ := (lowerStmts_spec rest).ext hl.tail 0 hext₂.fine hr
              exact ⟨D₃, hext.trans (hext₂.trans hext₃)⟩

end

end Interp
end Lunar
