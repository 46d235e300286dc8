/-
# Compaction keeps every expression

What `compact` and `flatten` of `payload/lift.rs` do to a lifted handler: the statements read back
from the list are those that were laid out, in their order, and every id among them stands for the
same tree as before (`compact_flatten`).  An expression that is left is at the rank of its old id
among the live ones, behind its children.
-/

import Lunar.Lib.Loop
import Lunar.Lib.Sharing
import Lunar.Payload.Lift

namespace Lunar
namespace Ir

theorem Span.length_slice {α : Type} {sp : Span} {src ids : List α} (h : sp.slice src = some ids) :
    ids.length = sp.len := by
  rw [slice] at h
  split at h
  · cases h
    rw [List.length_take, List.length_drop]
    omega
  · cases h

theorem Span.slice_map {α β : Type} (sp : Span) (f : α → β) (src : List α) :
    sp.slice (src.map f) = (sp.slice src).map (List.map f) := by
  rw [slice, slice, List.length_map]
  split
  · rw [← List.map_drop, ← List.map_take]
    rfl
  · rfl

theorem Span.mem_of_slice {α : Type} {sp : Span} {src ids : List α} {x : α}
    (h : sp.slice src = some ids) (hx : x ∈ ids) : x ∈ src := by
  rw [slice] at h
  split at h
  · cases h
    exact List.mem_of_mem_drop (List.mem_of_mem_take hx)
  · cases h

namespace Expr

/-- The span of the new args, and what is there. -/
theorem remapSpan_spec {src ids : List ExprId} {sp : Span} (h : sp.slice src = some ids)
    (dst : List ExprId) (f : ExprId → ExprId) :
    remapSpan src dst f sp = some (⟨dst.length, sp.len⟩, dst ++ ids.map f) ∧
      Span.slice ⟨dst.length, sp.len⟩ (dst ++ ids.map f) = some (ids.map f) := by
  refine ⟨by rw [remapSpan, h, Option.map_some], ?_⟩
  have hlast := Span.slice_last dst (ids.map f)
  rwa [List.length_map, Span.length_slice h] at hlast

/-- **`remap` renames exactly the children that `for_each_child` visits**, in the same order, and
changes nothing else. -/
theorem remap_spec {e : Expr} {src children : List ExprId} (h : e.forEachChild src = some children)
    (dst : List ExprId) (f : ExprId → ExprId) : ∃ e' dst', e.remap src dst f = some (e', dst') ∧
      dst <+: dst' ∧ e'.kind = e.kind ∧ e'.forEachChild dst' = some (children.map f) := by
  cases e with
  | call c sp | new c sp =>
      obtain ⟨ids, hids, rfl⟩ := Option.map_eq_some_iff.1 h
      obtain ⟨hspan, hslice⟩ := remapSpan_spec hids dst f
      refine ⟨_, _, congrArg (Option.map _) hspan, List.prefix_append .., rfl, ?_⟩
      exact congrArg (Option.map (f c :: ·)) hslice
  | array sp | object sp =>
      obtain ⟨hspan, hslice⟩ := remapSpan_spec h dst f
      exact ⟨_, _, congrArg (Option.map _) hspan, List.prefix_append .., rfl, hslice⟩
  | _ =>
      cases h
      exact ⟨_, _, rfl, List.prefix_rfl, rfl, rfl⟩

theorem remap_none {e : Expr} {src : List ExprId} (h : e.forEachChild src = none)
    (dst : List ExprId) (f : ExprId → ExprId) : e.remap src dst f = none := by
  cases e with
  | call c sp | new c sp =>
      rw [remap, remapSpan, Option.map_eq_none_iff.1 h]
      rfl
  | array sp | object sp =>
      have hslice : sp.slice src = none := h
      rw [remap, remapSpan, hslice]
      rfl
  | _ => cases h

/-- `remap` renames the children that `for_each_child` visits, and panics where it does. -/
def Renames (e : Expr) : Prop :=
  ∀ (src dst : List ExprId) (f : ExprId → ExprId),
    match e.forEachChild src with
    | none => e.remap src dst f = none
    | some children => ∃ e' dst', e.remap src dst f = some (e', dst') ∧ dst <+: dst' ∧
        e'.kind = e.kind ∧ e'.forEachChild dst' = some (children.map f)

theorem renames (e : Expr) : e.Renames := by
  intro src dst f
  cases h : e.forEachChild src with
  | none => exact remap_none h dst f
  | some children => exact remap_spec h dst f

end Expr
end Ir

namespace Lift

open Ir (Expr Stmt Span Branch ExprId)
open Lib (sweep sweep_fresh Leads)

/-! ## The live expressions -/

theorem Arena.parts_eq (a : Arena) {x : ExprId} {e : Expr} {children : List ExprId}
    (he : a.exprs[x]? = some e) (hchildren : e.forEachChild a.args = some children) :
    parts a.exprs a.args x = children := by
  rw [parts, he, Option.bind_some, hchildren]
  rfl

/-- The node of an id in range. -/
theorem Arena.node (a : Arena) {x : ExprId} (hx : x < a.exprs.length) :
    ∃ e, a.exprs[x]? = some e ∧ e.forEachChild a.args = some (parts a.exprs a.args x) ∧
      ∀ c ∈ parts a.exprs a.args x, c < x := by
  have he := List.getElem?_eq_getElem hx
  obtain ⟨children, hchildren, hlt⟩ := a.older x _ he
  exact ⟨_, he, a.parts_eq he hchildren ▸ hchildren, a.parts_eq he hchildren ▸ hlt⟩

/-- Every child is in range. -/
theorem Arena.parts_lt (a : Arena) (x : ExprId) :
    ∀ c ∈ parts a.exprs a.args x, c < a.exprs.length := by
  intro c hc
  by_cases hx : x < a.exprs.length
  · obtain ⟨e, -, -, hlt⟩ := a.node hx
    exact (hlt c hc).trans hx
  · rw [parts, List.getElem?_eq_none (Nat.le_of_not_lt hx)] at hc
    cases hc

/-- The first loop is a sweep over the arena. -/
theorem Arena.mark_eq (a : Arena) (fuel : ℕ) {stack : List ExprId} (live : ExprId → Bool)
    (hstack : ∀ x ∈ stack, x < a.exprs.length) : mark a.exprs a.args fuel stack live =
      (sweep (parts a.exprs a.args) (fun u _ => u) true fuel stack live ()).map Prod.fst := by
  induction fuel generalizing stack live with
  | zero => cases stack <;> rfl
  | succ fuel ih =>
      cases stack with
      | nil => rfl
      | cons x stack =>
          obtain ⟨hx, hstack⟩ := List.forall_mem_cons.1 hstack
          obtain ⟨e, he, hchildren, -⟩ := a.node hx
          rw [mark, sweep]
          by_cases hlive : live x = true
          · rw [if_pos hlive, if_pos hlive, ih live hstack]
          · rw [if_neg hlive, if_neg hlive, he, Option.bind_eq_bind, Option.bind_some, hchildren,
              Option.bind_eq_bind, Option.bind_some]
            refine ih _ fun y hy => ?_
            rcases List.mem_append.1 hy with hy | hy
            · exact a.parts_lt x y (List.mem_reverse.1 hy)
            · exact hstack y hy

/-- What the ids lead to. -/
def Arena.Live (a : Arena) (ids : List ExprId) (x : ExprId) : Prop :=
  ∃ r ∈ ids, Leads (parts a.exprs a.args) r x

/-- **The first loop comes to an end**, and marks what the stack leads to. -/
theorem Arena.mark_spec (a : Arena) {ids : List ExprId} (hids : ∀ x ∈ ids, x < a.exprs.length) :
    ∃ live, mark a.exprs a.args (visits a.exprs a.args ids) ids.reverse (fun _ => false) =
      some live ∧ ∀ x, live x = true ↔ a.Live ids x := by
  have hstack : ∀ x ∈ ids.reverse, x < a.exprs.length := fun x hx => hids x (List.mem_reverse.1 hx)
  obtain ⟨live, visited, hrun, -, hvisited, hmarks⟩ := sweep_fresh (parts a.exprs a.args)
    (fun u _ => u) true a.parts_lt (visits a.exprs a.args ids) ids.reverse (fun _ => false) ()
    hstack (by rw [List.length_reverse]; rfl) fun _ => Bool.false_ne_true
  refine ⟨live, by rw [a.mark_eq _ _ hstack, hrun]; rfl, fun x => ?_⟩
  have hmem : live x = true ↔ x ∈ visited := by
    rw [hmarks]
    by_cases hx : x ∈ visited <;> simp [hx]
  rw [hmem, hvisited]
  exact exists_congr fun r => and_congr_left fun _ => List.mem_reverse

theorem Arena.Live.lt {a : Arena} {ids : List ExprId} (hids : ∀ x ∈ ids, x < a.exprs.length)
    {x : ExprId} (h : a.Live ids x) : x < a.exprs.length := by
  obtain ⟨r, hr, hleads⟩ := h
  induction hleads with
  | refl => exact hids r hr
  | tail _ hnext ih => exact a.parts_lt _ _ hnext

theorem Arena.Live.part {a : Arena} {ids : List ExprId} {x c : ExprId} (h : a.Live ids x)
    (hc : c ∈ parts a.exprs a.args x) : a.Live ids c := by
  obtain ⟨r, hr, hleads⟩ := h
  exact ⟨r, hr, hleads.tail hc⟩

/-! ## The new ids -/

/-- The live ids before an id. -/
def rank (live : ExprId → Bool) (x : ℕ) : ℕ := Nat.count (fun y => live y = true) x

theorem rank_succ (live : ExprId → Bool) (x : ℕ) :
    rank live (x + 1) = if live x then rank live x + 1 else rank live x := by
  rw [rank, rank, Nat.count_succ]
  cases live x <;> rfl

theorem rank_lt {live : ExprId → Bool} {x y : ℕ} (hx : live x = true) (h : x < y) :
    rank live x < rank live y :=
  Nat.count_strict_mono hx h

/-- What the second loop has done before id `k`. -/
structure Moving (a : Arena) (live : ExprId → Bool) (k : ℕ) (m : Moved) : Prop where
  length : m.out.length = rank live k
  map : ∀ x, x < k → live x = true → m.map x = rank live x
  node : ∀ x, x < k → live x = true → ∃ e e', a.exprs[x]? = some e ∧
    m.out[rank live x]? = some e' ∧ e'.kind = e.kind ∧
    e'.forEachChild m.outArgs = some ((parts a.exprs a.args x).map (rank live))

/-- **A turn of the second loop** moves a live expression behind those that were moved before. -/
theorem move_spec {a : Arena} {live : ExprId → Bool}
    (hclosed : ∀ x, live x = true → ∀ c ∈ parts a.exprs a.args x, live c = true) {k : ℕ} {m : Moved}
    {e : Expr} (he : a.exprs[k]? = some e) (h : Moving a live k m) :
    ∃ m', move a.args live m (e, k) = some m' ∧ Moving a live (k + 1) m' := by
  have hsucc := rank_succ live k
  by_cases hlive : live k = true
  · rw [if_pos hlive] at hsucc
    obtain ⟨e₀, he₀, hchildren, hlt⟩ := a.node (List.getElem?_eq_some_iff.1 he).1
    obtain rfl := Option.some.inj (he.symm.trans he₀)
    obtain ⟨e', dst', hremap, ⟨more, rfl⟩, hkind, hparts⟩ :=
      Expr.remap_spec hchildren m.outArgs m.map
    have hmap : (parts a.exprs a.args k).map m.map = (parts a.exprs a.args k).map (rank live) :=
      List.map_congr_left fun c hc => h.map c (hlt c hc) (hclosed k hlive c hc)
    refine ⟨⟨Function.update m.map k m.out.length, m.out ++ [e'], m.outArgs ++ more⟩, ?_, ?_, ?_,
      ?_⟩
    · rw [move, if_pos hlive, hremap]
      rfl
    · rw [List.length_append, List.length_singleton, h.length, hsucc]
    · intro x hx hxlive
      rcases Nat.lt_succ_iff_lt_or_eq.1 hx with hx | rfl
      · exact (Function.update_of_ne hx.ne _ _).trans (h.map x hx hxlive)
      · exact (Function.update_self ..).trans h.length
    · intro x hx hxlive
      rcases Nat.lt_succ_iff_lt_or_eq.1 hx with hx | rfl
      · obtain ⟨ex, ex', hex, hout, hkindx, hpartsx⟩ := h.node x hx hxlive
        have hlt := (List.getElem?_eq_some_iff.1 hout).1
        exact ⟨ex, ex', hex, (List.getElem?_append_left hlt).trans hout, hkindx,
          Expr.forEachChild_append hpartsx more⟩
      · refine ⟨e, e', he, ?_, hkind, hmap ▸ hparts⟩
        rw [← h.length]
        exact List.getElem?_concat_length
  · rw [if_neg hlive] at hsucc
    have hother {x : ℕ} (hx : x < k + 1) (hxlive : live x = true) : x < k :=
      Nat.lt_of_le_of_ne (Nat.le_of_lt_succ hx) fun heq => hlive (heq ▸ hxlive)
    refine ⟨m, if_neg hlive, h.length.trans hsucc.symm, fun x hx hxlive => ?_,
      fun x hx hxlive => ?_⟩
    · exact h.map x (hother hx hxlive) hxlive
    · exact h.node x (hother hx hxlive) hxlive

/-- **The second loop comes to an end**, and has moved every live expression. -/
theorem Arena.move_all (a : Arena) {live : ExprId → Bool}
    (hclosed : ∀ x, live x = true → ∀ c ∈ parts a.exprs a.args x, live c = true) :
    ∃ m, a.exprs.zipIdx.foldlM (move a.args live) ⟨fun _ => .MAX, [], []⟩ = some m ∧
      Moving a live a.exprs.length m := by
  have hstart : Moving a live 0 ⟨fun _ => .MAX, [], []⟩ :=
    ⟨rfl, fun x hx => absurd hx (Nat.not_lt_zero x), fun x hx => absurd hx (Nat.not_lt_zero x)⟩
  have hturn (k : ℕ) (e : Expr) (m : Moved) (he : a.exprs[k]? = some e)
      (h : Moving a live (0 + k) m) : ∃ m', move a.args live m (e, 0 + k) = some m' ∧
        Moving a live (0 + k + 1) m' := by
    rw [Nat.zero_add] at h ⊢
    exact move_spec hclosed he h
  obtain ⟨m, hrun, hm⟩ := Lib.exists_foldlM_zipIdx 0 hturn hstart
  rw [Nat.zero_add] at hm
  exact ⟨m, hrun, hm⟩

section Moved

variable {a : Arena} {live : ExprId → Bool} {m : Moved}

/-- Every expression that is left is a live one. -/
theorem Moving.exists_old (h : Moving a live a.exprs.length m) {y : ℕ} (hy : y < m.out.length) :
    ∃ x, x < a.exprs.length ∧ live x = true ∧ rank live x = y :=
  Lib.exists_count _ (lt_of_lt_of_eq hy h.length)

/-- **The new arena**: every child is before its parent. -/
def Moving.arena (h : Moving a live a.exprs.length m)
    (hclosed : ∀ x, live x = true → ∀ c ∈ parts a.exprs a.args x, live c = true) : Arena where
  exprs := m.out
  args := m.outArgs
  older y e' hy := by
    obtain ⟨x, hx, hlive, rfl⟩ := h.exists_old (List.getElem?_eq_some_iff.1 hy).1
    obtain ⟨e, e₀, -, hout, -, hparts⟩ := h.node x hx hlive
    obtain rfl := Option.some.inj (hout.symm.trans hy)
    refine ⟨_, hparts, fun c hc => ?_⟩
    obtain ⟨b, hb, rfl⟩ := List.mem_map.1 hc
    obtain ⟨-, -, -, hlt⟩ := a.node hx
    exact rank_lt (hclosed x hlive b hb) (hlt b hb)

/-- The node of an id: the expression without its ids, and its children. -/
def node (exprs : List Expr) (args : List ExprId) (x : ExprId) : Option (Expr × List ExprId) :=
  (exprs[x]?).bind fun e => (e.forEachChild args).map (e.kind, ·)

/-- The tree of an expression, if it is at most `fuel` deep. -/
def tree (exprs : List Expr) (args : List ExprId) (fuel : ℕ) (x : ExprId) :
    Option (Lib.Rose Expr) :=
  Lib.unfold (node exprs args) fuel x

theorem Arena.node_eq (a : Arena) {x : ExprId} (hx : x < a.exprs.length) :
    ∃ e, a.exprs[x]? = some e ∧
      Lift.node a.exprs a.args x = some (e.kind, parts a.exprs a.args x) := by
  obtain ⟨e, he, hchildren, -⟩ := a.node hx
  refine ⟨e, he, ?_⟩
  rw [Lift.node, he, Option.bind_some, hchildren]
  rfl

/-- **An expression of an arena has a tree.** -/
theorem Arena.tree_isSome (a : Arena) {x fuel : ℕ} (hx : x < a.exprs.length) (hfuel : x < fuel) :
    (tree a.exprs a.args fuel x).isSome := by
  refine Lib.unfold_isSome (fun y hy => ?_) fuel hx hfuel
  obtain ⟨e, -, hnode⟩ := a.node_eq hy
  obtain ⟨-, -, -, hlt⟩ := a.node hy
  exact ⟨_, _, hnode, hlt⟩

/-- **A live expression keeps its tree.** -/
theorem Moving.tree_eq (h : Moving a live a.exprs.length m)
    (hlive : ∀ x, live x = true → x < a.exprs.length)
    (hclosed : ∀ x, live x = true → ∀ c ∈ parts a.exprs a.args x, live c = true) (fuel : ℕ)
    {x : ExprId} (hx : live x = true) :
    tree m.out m.outArgs fuel (m.map x) = tree a.exprs a.args fuel x := by
  rw [h.map x (hlive x hx) hx]
  have hnodes (y : ExprId) (hy : live y = true) : Lib.Renames (Lift.node a.exprs a.args)
      (Lift.node m.out m.outArgs) (rank live) (fun x => live x = true) y := by
    obtain ⟨e, he, hnode⟩ := a.node_eq (hlive y hy)
    obtain ⟨e₀, e', he₀, hout, hkind, hparts⟩ := h.node y (hlive y hy) hy
    obtain rfl := Option.some.inj (he.symm.trans he₀)
    refine ⟨⟨_, _, hnode, ?_⟩, fun kind children heq => ?_⟩
    · rw [Lift.node, hout, Option.bind_some, hparts, hkind]
      rfl
    · obtain ⟨-, rfl⟩ := Prod.mk.inj (Option.some.inj (hnode.symm.trans heq))
      exact hclosed y hy
  exact Lib.unfold_rename hnodes fuel hx

end Moved

/-! ## Statements -/

/-- A statement of a span, when the spans in it can be read. -/
def readStmt (read : Span → Option (List LStmt)) : Stmt → Option LStmt
  | .cond c thn els => do
    let thn ← read thn
    let els ← read els
    return .cond c thn els
  | st => some (.s st)

/-- The statements of a span with those nested in them, if these are less than `depth` deep. -/
def block (stmts : List Stmt) : ℕ → Span → Option (List LStmt)
  | 0, _ => none
  | depth + 1, sp => (sp.slice stmts).bind fun own => own.mapM (readStmt (block stmts depth))

mutual

/-- How deep statements are nested in a statement. -/
def LStmt.depth : LStmt → ℕ
  | .s _ => 0
  | .cond _ thn els => max (depthAll thn) (depthAll els) + 1

def depthAll : List LStmt → ℕ
  | [] => 0
  | s :: list => max s.depth (depthAll list)

end

mutual

/-- What the lifter makes: a conditional has its branches, and the ids have been pushed. -/
def LStmt.Lifted (n : ℕ) : LStmt → Prop
  | .s st => (∀ c thn els, st ≠ .cond c thn els) ∧ ∀ x ∈ st.forEachExpr, x < n
  | .cond c thn els => c < n ∧ LiftedAll n thn ∧ LiftedAll n els

def LiftedAll (n : ℕ) : List LStmt → Prop
  | [] => True
  | s :: list => s.Lifted n ∧ LiftedAll n list

end

/-- The ids of the statements are those of pushed expressions. -/
def Within (n : ℕ) (stmts : List Stmt) : Prop := ∀ st ∈ stmts, ∀ x ∈ st.forEachExpr, x < n

theorem Within.append {n : ℕ} {stmts more : List Stmt} (h : Within n stmts)
    (hmore : Within n more) : Within n (stmts ++ more) :=
  fun st hst => (List.mem_append.1 hst).elim (h st) (hmore st)

/-- **What has been placed is read back**, whatever comes after it. -/
theorem place_spec {own stmts : List Stmt} {list : List LStmt}
    (h : ∀ rest d, depthAll list ≤ d → own.mapM (readStmt (block (stmts ++ rest) d)) = some list)
    (rest : List Stmt) (d : ℕ) (hd : depthAll list < d) :
    block ((place (own, stmts)).2 ++ rest) d (place (own, stmts)).1 = some list := by
  obtain ⟨d, rfl⟩ := Nat.exists_eq_succ_of_ne_zero (Nat.ne_of_gt (Nat.zero_lt_of_lt hd))
  have hslice : Span.slice ⟨stmts.length, own.length⟩ (stmts ++ own ++ rest) = some own :=
    Span.slice_append (Span.slice_last stmts own) rest
  show block (stmts ++ own ++ rest) (d + 1) ⟨stmts.length, own.length⟩ = some list
  rw [block, hslice, Option.bind_some, List.append_assoc]
  exact h (own ++ rest) d (Nat.le_of_lt_succ hd)

mutual

/-- **A statement is laid out** with those nested in it, and read back. -/
theorem lower_spec {n : ℕ} : ∀ (s : LStmt), s.Lifted n → ∀ stmts : List Stmt, ∃ st more,
    s.lower stmts = (st, stmts ++ more) ∧ (∀ x ∈ st.forEachExpr, x < n) ∧ Within n more ∧
      ∀ rest d, s.depth ≤ d → readStmt (block (stmts ++ more ++ rest) d) st = some s
  | .s st, h, stmts => by
      rw [LStmt.Lifted] at h
      refine ⟨st, [], by rw [LStmt.lower, List.append_nil], h.2, nofun, fun rest d _ => ?_⟩
      cases st with
      | cond c thn els => exact absurd rfl (h.1 c thn els)
      | _ => rfl
  | .cond c thn els, h, stmts => by
      rw [LStmt.Lifted] at h
      obtain ⟨hc, hthn, hels⟩ := h
      obtain ⟨own, more, hlower, hown, hmore, hread⟩ := lowerAll_spec thn hthn stmts
      obtain ⟨own', more', hlower', hown', hmore', hread'⟩ :=
        lowerAll_spec els hels (stmts ++ more ++ own)
      refine ⟨.cond c ⟨(stmts ++ more).length, own.length⟩
        ⟨(stmts ++ more ++ own ++ more').length, own'.length⟩, more ++ own ++ more' ++ own', ?_, ?_,
        ((hmore.append hown).append hmore').append hown', fun rest d hd => ?_⟩
      · rw [LStmt.lower, hlower]
        dsimp only [place]
        rw [hlower']
        simp only [List.append_assoc]
      · intro x hx
        exact List.mem_singleton.1 hx ▸ hc
      · rw [LStmt.depth] at hd
        have hdthn : depthAll thn < d := lt_of_le_of_lt (le_max_left _ _) hd
        have hdels : depthAll els < d := lt_of_le_of_lt (le_max_right _ _) hd
        have hthn := place_spec hread (more' ++ own' ++ rest) d hdthn
        have hels := place_spec hread' rest d hdels
        simp only [place, List.append_assoc] at hthn hels ⊢
        rw [readStmt, hthn, hels]
        rfl

theorem lowerAll_spec {n : ℕ} : ∀ (list : List LStmt), LiftedAll n list → ∀ stmts : List Stmt,
    ∃ own more, lowerAll list stmts = (own, stmts ++ more) ∧ Within n own ∧ Within n more ∧
      ∀ rest d, depthAll list ≤ d →
        own.mapM (readStmt (block (stmts ++ more ++ rest) d)) = some list
  | [], _, stmts => ⟨[], [], by rw [lowerAll, List.append_nil], nofun, nofun, fun _ _ _ => rfl⟩
  | s :: list, h, stmts => by
      rw [LiftedAll] at h
      obtain ⟨st, more, hlower, hst, hmore, hread⟩ := lower_spec s h.1 stmts
      obtain ⟨own, more', hlower', hown, hmore', hread'⟩ := lowerAll_spec list h.2 (stmts ++ more)
      refine ⟨st :: own, more ++ more', ?_, ?_, hmore.append hmore', fun rest d hd => ?_⟩
      · rw [lowerAll, hlower]
        simp only [hlower', List.append_assoc]
      · exact List.forall_mem_cons.2 ⟨hst, hown⟩
      · rw [depthAll] at hd
        have hhead := hread (more' ++ rest) d ((le_max_left _ _).trans hd)
        have htail := hread' rest d ((le_max_right _ _).trans hd)
        simp only [List.append_assoc] at hhead htail ⊢
        rw [List.mapM_cons, hhead, htail]
        rfl

end

/-- A statement without ids, with what its ids stand for. -/
inductive LTree (τ : Type)
  | s (kind : Stmt) (exprs : List τ)
  | cond (c : τ) (thn els : List (LTree τ))

mutual

/-- What a statement is, when ids stand for `t`. -/
def LStmt.tree {τ : Type} (t : ExprId → τ) : LStmt → LTree τ
  | .s st => .s (st.mapExprs fun _ => 0) (st.forEachExpr.map t)
  | .cond c thn els => .cond (t c) (trees t thn) (trees t els)

def trees {τ : Type} (t : ExprId → τ) : List LStmt → List (LTree τ)
  | [] => []
  | s :: list => s.tree t :: trees t list

end

theorem trees_eq {τ : Type} (t : ExprId → τ) (list : List LStmt) :
    trees t list = list.map (LStmt.tree t) := by
  induction list with
  | nil => rw [trees, List.map_nil]
  | cons s list ih => rw [trees, List.map_cons, ih]

/-- `map_exprs` changes the ids of a statement, and nothing else. -/
theorem mapExprs_spec (st : Stmt) (f : ExprId → ExprId) :
    (st.mapExprs f).forEachExpr = st.forEachExpr.map f ∧
      (st.mapExprs f).mapExprs (fun _ => 0) = st.mapExprs fun _ => 0 := by
  cases st <;> exact ⟨rfl, rfl⟩

/-- A statement is what it was, when the spans in it are and its ids stand for what they did. -/
theorem readStmt_trees {τ : Type} {t t' : ExprId → τ} {f : ExprId → ExprId} {st : Stmt}
    {read read' : Span → Option (List LStmt)}
    (hread : ∀ sp, (read' sp).map (trees t') = (read sp).map (trees t))
    (h : ∀ x ∈ st.forEachExpr, t' (f x) = t x) :
    (readStmt read' (st.mapExprs f)).map (LStmt.tree t') =
      (readStmt read st).map (LStmt.tree t) := by
  obtain ⟨hexprs, hkind⟩ := mapExprs_spec st f
  have hparts : (st.mapExprs f).forEachExpr.map t' = st.forEachExpr.map t := by
    rw [hexprs, List.map_map]
    exact List.map_congr_left h
  cases st with
  | cond c thn els =>
      have hc : t' (f c) = t c := h c List.mem_cons_self
      have hthn := hread thn
      have hels := hread els
      show ((read' thn).bind fun thn => (read' els).bind fun els =>
          some (LStmt.cond (f c) thn els)).map (LStmt.tree t') =
        ((read thn).bind fun thn => (read els).bind fun els =>
          some (LStmt.cond c thn els)).map (LStmt.tree t)
      cases hr : read thn with
      | none =>
          rw [hr, Option.map_none, Option.map_eq_none_iff] at hthn
          rw [hthn]
          rfl
      | some ts =>
          rw [hr, Option.map_some] at hthn
          obtain ⟨ts', hts', hthn⟩ := Option.map_eq_some_iff.1 hthn
          cases hr' : read els with
          | none =>
              rw [hr', Option.map_none, Option.map_eq_none_iff] at hels
              rw [hts', hels]
              rfl
          | some es =>
              rw [hr', Option.map_some] at hels
              obtain ⟨es', hes', hels⟩ := Option.map_eq_some_iff.1 hels
              rw [hts', hes']
              show some ((LStmt.cond (f c) ts' es').tree t') = some ((LStmt.cond c ts es).tree t)
              rw [LStmt.tree, LStmt.tree, hc, hthn, hels]
  | _ => exact congrArg some (congrArg₂ LTree.s hkind hparts)

/-- **Statements are what they were**, when their new ids stand for what the old ones did. -/
theorem block_trees {τ : Type} {t t' : ExprId → τ} {f : ExprId → ExprId} {stmts : List Stmt}
    (h : ∀ st ∈ stmts, ∀ x ∈ st.forEachExpr, t' (f x) = t x) (depth : ℕ) (sp : Span) :
    (block (stmts.map (·.mapExprs f)) depth sp).map (trees t') =
      (block stmts depth sp).map (trees t) := by
  induction depth generalizing sp with
  | zero => rfl
  | succ depth ih =>
      rw [block, block, Span.slice_map]
      cases hslice : sp.slice stmts with
      | none => rfl
      | some own =>
          have hown : ∀ st ∈ own, st ∈ stmts := fun st => Span.mem_of_slice hslice
          have heach (st : Stmt) (hst : st ∈ own) :=
            readStmt_trees (t := t) ih (h st (hown st hst))
          rw [Option.map_some, Option.bind_some, Option.bind_some, funext (trees_eq t),
            funext (trees_eq t')]
          exact Lib.map_mapM heach

/-! ## Compaction and layout -/

theorem mem_roots {stmts : List Stmt} {branch : Option Branch} {x : ExprId} :
    x ∈ roots stmts branch ↔
      (∃ st ∈ stmts, x ∈ st.forEachExpr) ∨ ∃ b, branch = some b ∧ b.cond = x := by
  rw [roots, List.mem_append, List.mem_flatMap, List.mem_map]
  simp only [Option.mem_toList]

/-- What is left of an arena, of the statements and of the branch. -/
structure Kept (a : Arena) (list : List LStmt) (branch : Option Branch) (body : Span) (a' : Arena)
    (stmts' : List Stmt) (branch' : Option Branch) : Prop where
  /-- Nothing that a statement or the branch leads to is dropped, and nothing else is left. -/
  live : ∀ x, a.Live (roots (flatten list []).2 branch) x → ∃ y, y < a'.exprs.length ∧
    ∀ fuel, tree a'.exprs a'.args fuel y = tree a.exprs a.args fuel x
  only : ∀ y, y < a'.exprs.length → ∃ x, a.Live (roots (flatten list []).2 branch) x ∧
    ∀ fuel, tree a'.exprs a'.args fuel y = tree a.exprs a.args fuel x
  /-- The statements and their order are what they were, and their expressions too. -/
  stmts : ∀ depth fuel, depthAll list < depth →
    (block stmts' depth body).map (trees (tree a'.exprs a'.args fuel)) =
      some (trees (tree a.exprs a.args fuel) list)
  branch : ∀ fuel, branch'.map (fun b => (tree a'.exprs a'.args fuel b.cond, b.when, b.slot)) =
    branch.map fun b => (tree a.exprs a.args fuel b.cond, b.when, b.slot)
  /-- The ids that are left are those of expressions, which have trees. -/
  within : ∀ x ∈ roots stmts' branch', x < a'.exprs.length
  finite : ∀ y fuel, y < a'.exprs.length → y < fuel → (tree a'.exprs a'.args fuel y).isSome

/-- **`flatten` and `compact` keep every expression.**  They come to an end without a panic; the
arena that is left has every child before its parent, and the statements, the branch and all that
they lead to are there as they were.  `remap` renames what `for_each_child` visits. -/
theorem compact_flatten (a : Arena) (list : List LStmt) (branch : Option Branch)
    (hlist : LiftedAll a.exprs.length list)
    (hbranch : ∀ b, branch = some b → b.cond < a.exprs.length) :
    (∃ (a' : Arena) (stmts' : List Stmt) (branch' : Option Branch),
      compact a.exprs a.args (flatten list []).2 branch =
        some (a'.exprs, a'.args, stmts', branch') ∧
      Kept a list branch (flatten list []).1 a' stmts' branch') ∧
    ∀ e : Expr, e.Renames := by
  refine ⟨?_, Expr.renames⟩
  obtain ⟨own, more, hlower, hown, hmore, hread⟩ := lowerAll_spec list hlist []
  have hflatten : flatten list [] = place (own, more) := congrArg place hlower
  have hblock (depth : ℕ) (hdepth : depthAll list < depth) :
      block (flatten list []).2 depth (flatten list []).1 = some list := by
    have hplaced := place_spec hread [] depth hdepth
    rwa [List.append_nil, List.nil_append, ← hflatten] at hplaced
  have hids : ∀ x ∈ roots (flatten list []).2 branch, x < a.exprs.length := by
    intro x hx
    rcases mem_roots.1 hx with ⟨st, hst, hx⟩ | ⟨b, hb, rfl⟩
    · rw [hflatten] at hst
      exact hmore.append hown st hst x hx
    · exact hbranch b hb
  obtain ⟨live, hmark, hlive⟩ := a.mark_spec hids
  have hlt (x : ExprId) (hx : live x = true) : x < a.exprs.length := ((hlive x).1 hx).lt hids
  have hclosed (x : ExprId) (hx : live x = true) : ∀ c ∈ parts a.exprs a.args x, live c = true :=
    fun c hc => (hlive c).2 (((hlive x).1 hx).part hc)
  have hroot {x : ExprId} (hx : x ∈ roots (flatten list []).2 branch) : live x = true :=
    (hlive x).2 ⟨x, hx, .refl⟩
  obtain ⟨m, hmove, hm⟩ := a.move_all hclosed
  have htree (fuel : ℕ) {x : ExprId} (hx : live x = true) :
      tree m.out m.outArgs fuel (m.map x) = tree a.exprs a.args fuel x :=
    hm.tree_eq hlt hclosed fuel hx
  have hmap {x : ExprId} (hx : live x = true) : m.map x < m.out.length := by
    rw [hm.map x (hlt x hx) hx, hm.length]
    exact rank_lt hx (hlt x hx)
  refine ⟨hm.arena hclosed, (flatten list []).2.map (·.mapExprs m.map),
    branch.map fun b => { b with cond := m.map b.cond }, ?_, ?_, ?_, ?_, ?_, ?_,
    fun y fuel => (hm.arena hclosed).tree_isSome⟩
  · rw [compact, hmark, Option.bind_eq_bind, Option.bind_some, hmove]
    rfl
  · intro x hx
    have hx := (hlive x).2 hx
    exact ⟨m.map x, hmap hx, fun fuel => htree fuel hx⟩
  · intro y hy
    obtain ⟨x, hx, hxlive, rfl⟩ := hm.exists_old hy
    exact ⟨x, (hlive x).1 hxlive, fun fuel => hm.map x hx hxlive ▸ htree fuel hxlive⟩
  · intro depth fuel hdepth
    have hids : ∀ st ∈ (flatten list []).2, ∀ x ∈ st.forEachExpr,
        tree m.out m.outArgs fuel (m.map x) = tree a.exprs a.args fuel x :=
      fun st hst x hx => htree fuel (hroot (mem_roots.2 (.inl ⟨st, hst, hx⟩)))
    have hsame := block_trees hids depth (flatten list []).1
    rw [hblock depth hdepth] at hsame
    exact hsame
  · intro fuel
    cases branch with
    | none => rfl
    | some b =>
        have hcond := htree fuel (hroot (mem_roots.2 (.inr ⟨b, rfl, rfl⟩)))
        exact congrArg (fun t => some (t, b.when, b.slot)) hcond
  · intro x hx
    rcases mem_roots.1 hx with ⟨st, hst, hx⟩ | ⟨b, hb, rfl⟩
    · obtain ⟨old, hold, rfl⟩ := List.mem_map.1 hst
      rw [(mapExprs_spec old m.map).1] at hx
      obtain ⟨y, hy, rfl⟩ := List.mem_map.1 hx
      exact hmap (hroot (mem_roots.2 (.inl ⟨old, hold, hy⟩)))
    · obtain ⟨b, rfl, rfl⟩ := Option.map_eq_some_iff.1 hb
      exact hmap (hroot (mem_roots.2 (.inr ⟨b, rfl, rfl⟩)))

/-- The expressions of `if (a + b) a(a + b, a)`, and one that nothing leads to. -/
def callArena : Arena :=
  let a := (Arena.empty.push (.slot 0) ⟨[], rfl, nofun⟩).push .undef ⟨[], rfl, nofun⟩
  let a := (a.push (.slot 1) ⟨[], rfl, nofun⟩).push (.binary .addition 0 2) ⟨[0, 2], rfl, by decide⟩
  (a.span [3, 0]).2.push (.call 0 ⟨0, 2⟩) ⟨[0, 3, 0], rfl, by decide⟩

theorem compact_flatten_call :
    (∃ (a' : Arena) (stmts' : List Stmt) (branch' : Option Branch),
      compact callArena.exprs callArena.args (flatten [.cond 3 [.s (.eval 4)] []] []).2
          (some ⟨3, true, 0⟩) = some (a'.exprs, a'.args, stmts', branch') ∧
      Kept callArena [.cond 3 [.s (.eval 4)] []] (some ⟨3, true, 0⟩)
        (flatten [.cond 3 [.s (.eval 4)] []] []).1 a' stmts' branch') ∧
    ∀ e : Expr, e.Renames := by
  refine compact_flatten callArena _ _ ?_ ?_
  · have hlen : callArena.exprs.length = 5 := rfl
    simp [hlen, LiftedAll, LStmt.Lifted, Stmt.forEachExpr]
  · rintro b hb
    obtain rfl := Option.some.inj hb
    decide

example : (compact callArena.exprs callArena.args (flatten [.cond 3 [.s (.eval 4)] []] []).2
    (some ⟨3, true, 0⟩)).map (fun r => (r.1, r.2.1)) =
      some ([.slot 0, .slot 1, .binary .addition 0 1, .call 0 ⟨0, 2⟩], [2, 0]) := by decide +kernel

end Lift
end Lunar
