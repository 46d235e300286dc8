/-
# Readers are told of every change that they can observe

The notification of `worktime/fc.rs`.  The facts are an oracle: a node of the
path table, an instruction that has fired and a query stay (`oracle`).  Of a
variable a function sees no more than `live` of its value, of a return value or
an element all, and of the other locations the taint (`shown`): each read of
the source keeps no more than that (`run_respects`), and `wr` notifies whenever
that changes (`handler_tells`).
-/

import Lunar.Worktime.Fc.Solver

namespace Lunar
namespace Fc

open Lib (Prog Oracle Watchers)
open Worktime (Instr)

/-! ## The facts as an oracle -/

/-- Later facts. -/
structure Facts.Le (s s' : Facts) : Prop where
  paths : ∀ {id : ℕ} {node : ℕ × ℕ}, s.paths[id]? = some node → s'.paths[id]? = some node
  pathIds : ∀ {parent key id : ℕ}, s.pathIds parent key = some id →
    s'.pathIds parent key = some id
  /-- A full table learns no path any more. -/
  full : MAX_PATHS ≤ s.paths.length → MAX_PATHS ≤ s'.paths.length ∧
    ∀ parent key, s'.pathIds parent key = s.pathIds parent key
  fired : ∀ {i : ℕ}, s.fired i = true → s'.fired i = true
  query : ∀ j, s.query j ≤ s'.query j

theorem Facts.Le.refl {s : Facts} : s.Le s :=
  ⟨id, id, fun h => ⟨h, fun _ _ => rfl⟩, id, fun _ => le_rfl⟩

theorem Facts.child_le (s : Facts) (parent key : ℕ) (derived : Bool) :
    s.Le (s.child parent key derived).2 := by
  unfold child
  split
  · exact .refl
  · rename_i hnone
    split
    · exact .refl
    · rename_i hroom
      refine ⟨fun {id node} h => ?_, fun {a b id} h => ?_, fun h => absurd h hroom, id,
        fun _ => le_rfl⟩
      · change (s.paths ++ [(parent, key)])[id]? = some node
        rw [List.getElem?_append_left (List.getElem?_eq_some_iff.1 h).1, h]
      · change (if a = parent ∧ b = key then _ else s.pathIds a b) = some id
        rw [if_neg, h]
        rintro ⟨rfl, rfl⟩
        rw [hnone] at h
        cases h

/-- **Answers only add.** -/
theorem le_of_answer {q : Query} {s s' : Facts} {a : Answer q} (h : answer q s = some (a, s')) :
    s.Le s' := by
  cases q with
  | node id =>
      obtain ⟨node, -, heq⟩ := Option.map_eq_some_iff.1 h
      cases heq
      exact .refl
  | child parent key derived =>
      obtain rfl : (s.child parent key derived).2 = s' := congrArg Prod.snd (Option.some.inj h)
      exact s.child_le parent key derived
  | fire i =>
      cases h
      refine ⟨id, id, fun h => ⟨h, fun _ _ => rfl⟩, fun {k} hk => ?_, fun _ => le_rfl⟩
      change (if k = i then true else s.fired k) = true
      split
      · rfl
      · exact hk
  | query j t =>
      cases h
      refine ⟨id, id, fun h => ⟨h, fun _ _ => rfl⟩, id, fun k => ?_⟩
      change s.query k ≤ if k = j then s.query j ⊔ t else s.query k
      split
      · rename_i hk; rw [hk]; exact le_sup_left
      · exact le_rfl

/-- A path that the table has, or has no room for, is answered without a change. -/
theorem Facts.child_known {s : Facts} {parent key : ℕ} {derived : Bool} {t : Taint} :
    s.child parent key derived = (t, s) ↔
      (∃ id, s.pathIds parent key = some id ∧ t = .path id derived) ∨
      (s.pathIds parent key = none ∧ MAX_PATHS ≤ s.paths.length ∧ t = .lost) := by
  unfold child
  cases hid : s.pathIds parent key with
  | some id => simp [eq_comm]
  | none =>
      by_cases hfull : MAX_PATHS ≤ s.paths.length
      · simp [hfull, eq_comm]
      · simp only [hfull, if_false, reduceCtorEq, false_and, exists_false, and_false, or_false,
          iff_false]
        intro h
        have := congrArg (fun r => r.2.paths.length) h
        simp at this

/-- What is known stays known. -/
theorem answer_mono {q : Query} {s s' : Facts} {a : Answer q} (h : answer q s = some (a, s))
    (hle : s.Le s') : answer q s' = some (a, s') := by
  cases q with
  | node id =>
      obtain ⟨node, hnode, heq⟩ := Option.map_eq_some_iff.1 h
      obtain rfl := (Prod.mk.inj heq).1
      simp only [answer, hle.paths hnode, Option.map_some]
  | child parent key derived =>
      refine congrArg some (Facts.child_known.2 ?_)
      rcases Facts.child_known.1 (Option.some.inj h) with ⟨id, hid, rfl⟩ | ⟨hnone, hfull, rfl⟩
      · exact .inl ⟨id, hle.pathIds hid, rfl⟩
      · obtain ⟨hfull', hsame⟩ := hle.full hfull
        exact .inr ⟨(hsame parent key).trans hnone, hfull', rfl⟩
  | fire i =>
      have hf : s.fired i = true := by
        have := congrArg (fun r => r.2.fired i) (Option.some.inj h)
        simpa using this.symm
      refine congrArg (fun fired => some ((), { s' with fired })) (funext fun k => ?_)
      split
      · rename_i hk; rw [hk, hle.fired hf]
      · rfl
  | query j t =>
      have hq : t ≤ s.query j := by
        have := congrArg (fun r => r.2.query j) (Option.some.inj h)
        simpa using this
      refine congrArg (fun query => some ((), { s' with query })) (funext fun k => ?_)
      split
      · rename_i hk; rw [hk, sup_eq_left.2 (hq.trans (hle.query j))]
      · rfl

/-- Asking again changes nothing. -/
theorem answer_self {q : Query} {s s' : Facts} {a : Answer q} (h : answer q s = some (a, s')) :
    answer q s' = some (a, s') := by
  cases q with
  | node id =>
      obtain ⟨node, hnode, heq⟩ := Option.map_eq_some_iff.1 h
      cases heq
      exact h
  | child parent key derived =>
      obtain rfl : (s.child parent key derived).1 = a := congrArg Prod.fst (Option.some.inj h)
      obtain rfl : (s.child parent key derived).2 = s' := congrArg Prod.snd (Option.some.inj h)
      refine congrArg some (Facts.child_known.2 ?_)
      unfold Facts.child
      cases hid : s.pathIds parent key with
      | some id => exact .inl ⟨id, hid, rfl⟩
      | none =>
          by_cases hfull : MAX_PATHS ≤ s.paths.length
          · exact .inr (by simp [hfull, hid])
          · exact .inl (by simp [hfull])
  | fire i =>
      cases h
      refine congrArg (fun fired => some ((), { s with fired })) (funext fun k => ?_)
      by_cases hk : k = i <;> simp [hk]
  | query j t =>
      cases h
      refine congrArg (fun query => some ((), { s with query })) (funext fun k => ?_)
      by_cases hk : k = j <;> simp [hk]

/-- The facts as an oracle. -/
def oracle : Oracle Facts Answer where
  answer := answer
  answer_self := answer_self
  answer_step h h' := answer_mono h (le_of_answer h')

/-! ## What a function sees of a location -/

/-- What a function sees of the value of a location. -/
def shown : Loc → Val → Val
  | .var _, v => v.live
  | .ret _, v | .elem _ _, v => v
  | .field _, v | .any, v | .this _, v | .exc, v | .sum _, v => .field v.t

theorem shown_t (l : Loc) (v : Val) : (shown l v).t = v.t := by cases l <;> rfl

/-- **`wr` notifies what shows.** -/
theorem shown_eq_of_not_observable {l : Loc} {old new : Val}
    (h : Solver.observable l old new = false) : shown l old = shown l new := by
  cases l <;> simp only [Solver.observable, bne_eq_false_iff_eq, Bool.true_eq_false] at h <;>
    simp only [shown, h]

section Respects

variable {α β : Type} {p : Program} {n : ℕ}

/-- A run sees no more of the locations than `shown`. -/
def Sees (x : M α) : Prop := x.Respects shown

theorem sees_pure (a : α) : Sees (pure a) := trivial

theorem sees_fail : Sees (.fail : M α) := trivial

theorem Sees.bind {x : M α} {g : α → M β} (hx : Sees x) (hg : ∀ a, Sees (g a)) :
    Sees (x >>= g) := Prog.Respects.bind hx hg

theorem sees_wr (l : Loc) (v : Val) : Sees (wr l v) := trivial

theorem sees_ask (q : Query) : Sees (ask q) := fun _ => trivial

theorem sees_rdTaint (l : Loc) : Sees (rdTaint l) := by
  refine ⟨fun v w h => ?_, fun _ => trivial⟩
  have ht : v.t = w.t := by rw [← shown_t l v, h, shown_t]
  exact congrArg Prog.pure ht

theorem sees_rd_var (id : ℕ) : Sees (Val.live <$> rd (.var id)) :=
  ⟨fun _ _ h => congrArg Prog.pure h, fun _ => trivial⟩

theorem sees_rd_ret (f : ℕ) : Sees (rd (.ret f)) := ⟨fun _ _ h => congrArg Prog.pure h, fun _ => trivial⟩

theorem sees_rd_elem (site i : ℕ) : Sees (rd (.elem site i)) :=
  ⟨fun _ _ h => congrArg Prog.pure h, fun _ => trivial⟩

theorem sees_index (xs : List α) (i : ℕ) : Sees (index xs i) := by
  unfold index
  split
  · exact sees_pure _
  · exact sees_fail

theorem sees_foldlM {g : β → α → M β} (hg : ∀ b a, Sees (g b a)) (xs : List α) (b : β) :
    Sees (xs.foldlM g b) := by
  induction xs generalizing b with
  | nil => exact sees_pure b
  | cons x xs ih => exact (hg b x).bind fun b => ih b

theorem sees_forM {g : α → M Unit} (hg : ∀ a, Sees (g a)) (xs : List α) : Sees (xs.forM g) := by
  induction xs with
  | nil => exact sees_pure ()
  | cons x xs ih => exact (hg x).bind fun _ => ih

theorem sees_mapM {g : α → M β} (hg : ∀ a, Sees (g a)) (xs : List α) : Sees (xs.mapM g) := by
  induction xs with
  | nil => exact sees_pure []
  | cons x xs ih =>
      rw [List.mapM_cons]
      exact (hg x).bind fun _ => ih.bind fun _ => sees_pure _

theorem sees_rdElem (site : ℕ) (idx : Int) : Sees (rdElem p site idx) := by
  unfold rdElem find
  split <;> exact sees_rd_elem _ _

theorem sees_wrElem (site : ℕ) (idx : Int) (v : Val) : Sees (wrElem p site idx v) :=
  (sees_wr _ _).bind fun _ => sees_wr _ _

theorem sees_ext (t : Taint) (key : ℕ) : Sees (ext t key) := by
  unfold ext
  split
  · exact sees_ask _
  · exact sees_pure _

theorem sees_fromAny (t : Taint) (key : ℕ) : Sees (fromAny p t key) := by
  unfold fromAny
  split
  · split
    · exact sees_pure _
    · refine (sees_ask _).bind fun node => ?_
      dsimp only
      split
      · exact sees_ask _
      · exact sees_pure _
  · exact sees_pure _

theorem sees_sumOf (v : Val) : Sees (sumOf v) := by
  unfold sumOf
  split
  · exact sees_rdTaint _
  · exact sees_pure _

theorem sees_spread (v : Val) : Sees (spread v) := (sees_sumOf v).bind fun _ => sees_pure _

theorem sees_invoke (c : Tag Callee) (input : Taint) : Sees (invoke p c input) :=
  sees_foldlM (fun _ _ => (sees_wrElem _ _ _).bind fun _ =>
    (sees_rd_ret _).bind fun _ => sees_pure _) _ _

theorem sees_callback (v : Val) (input : Taint) : Sees (callback p v input) := by
  refine (sees_invoke _ _).bind fun out => ?_
  split
  · exact sees_foldlM (fun _ _ => (sees_rd_elem _ _).bind fun _ =>
      (sees_invoke _ _).bind fun _ => sees_pure _) _ _
  · exact sees_pure _

theorem sees_passRest (site : ℕ) (rest : Val) : Sees (passRest p site rest) := by
  unfold passRest
  split
  · exact sees_wrElem _ _ _
  · exact sees_pure _

theorem sees_passThis (g : ℕ) (thisv : Option Val) : Sees (passThis g thisv) := by
  cases thisv with
  | some th => exact sees_wr _ _
  | none => exact sees_pure _

theorem sees_activate (g : ℕ) (thisv : Option Val) (args : List Val) (rest : Val) :
    Sees (activate p g thisv args rest) :=
  (sees_forM (fun _ => sees_wrElem _ _ _) _).bind fun _ => (sees_passRest _ _).bind fun _ =>
    (sees_passThis _ _).bind fun _ => sees_rd_ret _

theorem sees_nativeThis (fnv : Val) (thisv : Option Val) : Sees (nativeThis fnv thisv) := by
  cases thisv with
  | some th => exact (sees_spread _).bind fun _ => sees_pure _
  | none => exact sees_pure _

theorem sees_writeBack (th : Val) (t : Taint) : Sees (writeBack p th t) := by
  unfold writeBack
  split
  · exact sees_wrElem _ _ _
  · exact sees_pure _

theorem sees_callbackThis (t : Taint) (thisv : Option Val) : Sees (callbackThis p t thisv) := by
  cases thisv with
  | some th =>
      exact (sees_callback _ _).bind fun _ => (sees_writeBack _ _).bind fun _ => sees_pure _
  | none => exact sees_pure _

theorem sees_native (fnv : Val) (thisv : Option Val) (args : List Val) (rest : Val) :
    Sees (native p fnv thisv args rest) := by
  refine (sees_nativeThis _ _).bind fun t => ?_
  refine (sees_foldlM (fun _ _ => (sees_spread _).bind fun _ => sees_pure _) _ _).bind fun t => ?_
  refine (sees_spread _).bind fun s => ?_
  refine (sees_callbackThis _ _).bind fun r => ?_
  refine (sees_foldlM (fun _ _ => (sees_callback _ _).bind fun _ => sees_pure _) _ _).bind
    fun r => ?_
  exact (sees_callback _ _).bind fun _ => sees_pure _

theorem sees_result (fnv : Val) (thisv : Option Val) (args : List Val) (rest out : Val) :
    Sees (result p fnv thisv args rest out) := by
  unfold result
  split
  · exact (sees_native _ _ _ _).bind fun _ => sees_pure _
  · exact sees_pure _

theorem sees_header (i : ℕ) (args : List Val) (rest out : Val) : Sees (header i args rest out) := by
  unfold header
  split
  · exact (sees_ask _).bind fun _ => sees_pure _
  · exact sees_pure _

theorem sees_call (i : ℕ) (fnv : Val) (thisv : Option Val) (args : List Val) (rest : Val) :
    Sees (call p i fnv thisv args rest) :=
  (sees_foldlM (fun _ _ => (sees_activate _ _ _ _).bind fun _ => sees_pure _) _ _).bind
    fun _ => (sees_result _ _ _ _ _).bind fun _ => sees_header _ _ _ _

theorem sees_expand (arr : Val) : Sees (expand p arr) := by
  unfold expand
  split
  · exact (sees_mapM (fun _ => sees_rd_elem _ _) _).bind fun _ =>
      (sees_rd_elem _ _).bind fun _ => sees_pure _
  · exact sees_pure _

theorem sees_getAny (i : ℕ) (ins : Instr) (regs : Regs n) (o : Val) (any : Taint) :
    Sees (getAny p i ins regs o any) := by
  refine (sees_ext _ _).bind fun _ => (sees_sumOf _).bind fun _ => ?_
  split
  · exact (sees_ask _).bind fun _ => sees_pure _
  · exact sees_pure _

theorem sees_getNamed (o : Val) (base : Taint) (kid : ℕ) (name : KeyName) :
    Sees (getNamed p o base kid name) := by
  have field (g : Taint → Val) : Sees (do return g (← rdTaint (.field kid))) :=
    (sees_rdTaint _).bind fun _ => sees_pure _
  cases name with
  | index ix =>
      cases ha : o.a.get with
      | none => simpa only [getNamed, ha] using field fun t => .taint (base ⊔ t)
      | some s =>
          simp only [getNamed, ha]
          split
          · exact (sees_rdElem _ _).bind fun _ => (sees_rdElem _ _).bind fun _ => sees_pure _
          · exact field fun t => .taint (base ⊔ t)
  | units u => exact field fun t => ⟨base ⊔ t, .of (.method kid), .conflict, .conflict⟩
  | lit l => exact field fun t => ⟨base ⊔ t, .of (.method kid), .conflict, .conflict⟩

theorem sees_seed (i kid : ℕ) (v : Val) : Sees (seed p i kid v) := by
  unfold seed
  split
  · exact (sees_ask _).bind fun _ => sees_pure _
  · split
    · exact (sees_ask _).bind fun _ => sees_pure _
    · split
      · exact (sees_ask _).bind fun _ => sees_pure _
      · exact sees_pure _

theorem sees_observe (kid : ℕ) (t : Taint) : Sees (observe p kid t) := by
  refine sees_forM (fun j => ?_) _
  split
  · exact sees_ask _
  · exact sees_pure _

theorem sees_getProp (i : ℕ) (ins : Instr) (aux : Aux) (regs : Regs n) :
    Sees (getProp p i ins aux regs) := by
  refine (sees_rdTaint _).bind fun any => ?_
  split
  · exact sees_getAny _ _ _ _ _
  · have tail (base : M Taint) (hb : Sees base) (kid : ℕ) : Sees (do
        let base ← base
        let v ← getNamed p (regs.opv (ins.arg 0) false) base kid (← index p.names kid)
        let v ← seed p i kid v
        observe p kid v.t
        return v) :=
      hb.bind fun _ => (sees_index _ _).bind fun _ => (sees_getNamed _ _ _ _).bind fun _ =>
        (sees_seed _ _ _).bind fun _ => (sees_observe _ _).bind fun _ => sees_pure _
    split
    · exact tail _ (sees_fromAny _ _) _
    · exact tail _ (sees_ext _ _) _

theorem sees_setProp (ins : Instr) (aux : Aux) (regs : Regs n) : Sees (setProp p ins aux regs) := by
  unfold setProp
  dsimp only
  split
  · split
    · exact sees_wrElem _ _ _
    · exact sees_wr _ _
  · refine (sees_index _ _).bind fun name => ?_
    unfold setNamed
    split
    · split
      · split
        · exact sees_wrElem _ _ _
        · exact sees_wr _ _
      · exact sees_wr _ _
    · exact sees_wr _ _

/-- **An instruction sees no more than `shown`.** -/
theorem sees_transfer (f i : ℕ) (regs : Regs n) : Sees (transfer p f i regs) := by
  refine (sees_index _ _).bind fun ins => (sees_index _ _).bind fun aux => ?_
  -- The instructions that write a variable write it once.
  have wrVar {id : ℕ} {v : Val} : Sees (do wr (.var id) v; return regs) :=
    (sees_wr _ _).bind fun _ => sees_pure _
  dsimp only
  split
  · exact sees_pure _
  · split
    · exact (sees_rd_var _).bind fun _ => sees_pure _
    · exact sees_pure _
  · split
    · exact wrVar
    · exact sees_pure _
  · split
    · exact wrVar
    · exact sees_pure _
  · split
    · exact (sees_rdTaint _).bind fun _ => wrVar
    · exact sees_pure _
  · exact (sees_rdTaint _).bind fun _ => sees_pure _
  · exact (sees_wr _ _).bind fun _ => sees_pure _
  · exact (sees_wr _ _).bind fun _ => sees_pure _
  · exact (sees_rdTaint _).bind fun _ => sees_pure _
  · exact sees_pure _
  · exact sees_pure _
  · exact sees_pure _
  · exact sees_pure _
  · exact sees_pure _
  · exact sees_pure _
  · exact sees_pure _
  · exact (sees_getProp _ _ _ _).bind fun _ => sees_pure _
  · exact (sees_setProp _ _ _).bind fun _ => sees_pure _
  · exact (sees_call _ _ _ _ _).bind fun _ => sees_pure _
  · exact (sees_call _ _ _ _ _).bind fun _ => sees_pure _
  · exact (sees_call _ _ _ _ _).bind fun _ => sees_pure _
  · exact (sees_call _ _ _ _ _).bind fun _ => sees_pure _
  · exact (sees_expand _).bind fun _ => (sees_call _ _ _ _ _).bind fun _ => sees_pure _
  · exact (sees_expand _).bind fun _ => (sees_call _ _ _ _ _).bind fun _ => sees_pure _
  · split
    · exact sees_pure _
    · exact sees_pure _

theorem sees_block (f : ℕ) (func : Func) (b : ℕ) (regs : Regs n) : Sees (block p f func b regs) :=
  (sees_index _ _).bind fun _ => (sees_index _ _).bind fun _ =>
    sees_foldlM (fun _ _ => sees_transfer _ _ _) _ _

theorem sees_sweeps (f : ℕ) (func : Func) (fuel : ℕ) (st : Blocks n) :
    Sees (sweeps p f func fuel st) := by
  induction fuel generalizing st with
  | zero => exact sees_fail
  | succ fuel ih =>
      refine (sees_foldlM (fun st b => ?_) _ _).bind fun r => ?_
      · unfold visit
        split
        · exact (sees_block _ _ _ _).bind fun _ => (sees_index _ _).bind fun _ => sees_pure _
        · exact sees_pure _
      · dsimp only
        split
        · exact ih _
        · exact sees_pure _

/-- **A run sees no more than `shown`.** -/
theorem sees_run (f : ℕ) (func : Func) (fuel : ℕ) : Sees (run p f func fuel) := by
  refine Sees.bind ?_ fun _ => sees_sweeps _ _ _ _
  exact (sees_rd_elem _ _).bind fun _ => (sees_mapM (fun _ => sees_rd_elem _ _) _).bind
    fun _ => sees_pure _

end Respects
end Fc
end Lunar
