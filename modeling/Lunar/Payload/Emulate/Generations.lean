/-
# Generations of the dispatch table

`payload/emulate.rs`: every change of the dispatch table marks it as dirty
(`Keeps`), so at the start of a turn the last recorded permutation is the table,
and the generation noted for an instruction maps its opcode to the handler that
was executed, as long as the number of a generation fits its sixteen bits and the
opcode is no negative word (`generations_right`).
-/

import Lunar.Lib.Keeps
import Lunar.Lib.Loop
import Lunar.Payload.Emulate.Machine

namespace Lunar
namespace Emulate

open Lib (Double Chained)
open Ir
open Exec (UnaryOperator)

/-- The dispatch table is an array. -/
def IsTable (s : State) : Prop := ∃ a, s.heap[PERM_ID]? = some (.arr a)

/-- The table stays an array; unless it is marked it was not marked before, and it
is as it was. -/
structure Marks (s s' : State) : Prop where
  table : IsTable s'
  same : s'.permDirty = false → s.permDirty = false ∧ s'.heap[PERM_ID]? = s.heap[PERM_ID]?

theorem Marks.refl {s : State} (h : IsTable s) : Marks s s := ⟨h, fun hd => ⟨hd, rfl⟩⟩

theorem marks_chained : Chained IsTable Marks where
  refl h := .refl h
  trans _ h h' := by
    refine ⟨h'.table, fun hd => ?_⟩
    obtain ⟨hd', heq'⟩ := h'.same hd
    obtain ⟨hd'', heq⟩ := h.same hd'
    exact ⟨hd'', heq'.trans heq⟩
  after _ h := h.table

/-- The computation marks the table when it changes it. -/
abbrev Keeps {α : Type} (x : M α) : Prop := Lib.Keeps IsTable Marks x

theorem Keeps.bind {α β : Type} {x : M α} {f : α → M β} (hx : Keeps x) (hf : ∀ a, Keeps (f a)) :
    Keeps (x >>= f) := Lib.Keeps.bind marks_chained hx hf

theorem Keeps.map {α β : Type} {x : M α} (hx : Keeps x) (f : α → β) : Keeps (f <$> x) :=
  Lib.Keeps.map marks_chained hx f

theorem keeps_pure {α : Type} (a : α) : Keeps (pure a : M α) := Lib.Keeps.pure marks_chained a

theorem keeps_fail {α : Type} (reason : String) : Keeps (fail reason : M α) := Lib.Keeps.throw _

theorem keeps_panic {α : Type} : Keeps (panic : M α) := Lib.Keeps.throw _

theorem keeps_get : Keeps (get : M State) := Lib.Keeps.get marks_chained

theorem keeps_reads {α : Type} (f : State → Res α) : Keeps (reads f) :=
  Lib.Keeps.reads marks_chained f

theorem Keeps.mapM {α β : Type} {f : α → M β} (hf : ∀ a, Keeps (f a)) (xs : List α) :
    Keeps (xs.mapM f) := Lib.Keeps.mapM marks_chained hf xs

/-- A change of the state outside the heap. -/
theorem keeps_modify {f : State → State} (h : ∀ s, (f s).heap = s.heap ∧ (f s).permDirty = s.permDirty) :
    Keeps (modify f : M PUnit) := by
  refine Lib.Keeps.modify fun s hs => ?_
  obtain ⟨hheap, hdirty⟩ := h s
  constructor
  · rw [IsTable, hheap]
    exact hs
  · rw [hheap, hdirty]
    exact fun hd => ⟨hd, rfl⟩

/-! ## The frame and the heap -/

theorem keeps_frame : Keeps frame := by
  refine keeps_get.bind fun s => ?_
  split
  · exact keeps_pure _
  · exact keeps_panic

theorem keeps_setFrame (f : FrameState) : Keeps (setFrame f) := keeps_modify fun _ => ⟨rfl, rfl⟩

theorem keeps_reg (r : ℤ) : Keeps (reg r) := by
  rw [reg]
  split
  · exact keeps_pure _
  · exact keeps_frame.bind fun _ => keeps_pure _

theorem keeps_setReg (r : ℕ) (v : V) : Keeps (setReg r v) := by
  rw [setReg]
  split
  · exact keeps_fail _
  · exact keeps_frame.bind fun _ => keeps_setFrame _

theorem keeps_alloc (h : Heap) : Keeps (alloc h) := by
  intro s v s' hs hx
  cases hx
  obtain ⟨a, ha⟩ := hs
  have hlt : PERM_ID < s.heap.length := (List.getElem?_eq_some_iff.1 ha).1
  have hget : (s.heap ++ [h])[PERM_ID]? = s.heap[PERM_ID]? := List.getElem?_append_left hlt
  exact ⟨⟨a, hget.trans ha⟩, fun hd => ⟨hd, hget⟩⟩

theorem keeps_markDirty (id : ℕ) : Keeps (markDirty id) := by
  rw [markDirty]
  split
  · exact Lib.Keeps.modify fun s hs => ⟨hs, nofun⟩
  · exact keeps_pure _

/-- The table is marked, if `id` is the table. -/
def Flagged (id : ℕ) (s : State) : Prop := IsTable s ∧ (id = PERM_ID → s.permDirty = true)

theorem flagged_chained (id : ℕ) : Chained (Flagged id) Marks where
  refl h := .refl h.1
  trans h := marks_chained.trans h.1
  after {s s'} h h' := by
    refine ⟨h'.table, fun hid => ?_⟩
    by_contra hd
    have hd' : s'.permDirty = false := by simpa using hd
    have := h.2 hid
    simp [(h'.same hd').1] at this

theorem markDirty_flags (id : ℕ) {s s' : State} {u : Unit} (hs : IsTable s)
    (h : markDirty id s = .ok (u, s')) : Flagged id s' := by
  rw [markDirty] at h
  split at h
  · cases h
    exact ⟨hs, fun _ => rfl⟩
  · next hid =>
      cases h
      exact ⟨hs, fun h => absurd h hid⟩

/-- What follows once the table is marked. -/
theorem Keeps.flagged {α : Type} {id : ℕ} {x : M α} (h : Lib.Keeps (Flagged id) Marks x) :
    Keeps (do markDirty id; x) := by
  have hflag : Lib.Keeps IsTable (fun s s' => Marks s s' ∧ Flagged id s') (markDirty id) :=
    fun s u s' hs hx => ⟨keeps_markDirty id s u s' hs hx, markDirty_flags id hs hx⟩
  refine Lib.Keeps.bind' (T := Marks) hflag ?_ ?_
  · exact fun _ _ s' _ hs' b s'' hx => h s' b s'' hs'.2 hx
  · exact fun _ _ _ hs h₁ h₂ => marks_chained.trans hs h₁.1 h₂

/-- A cell that is not the table, or is marked, may change to an array. -/
theorem marks_setHeap {id : ℕ} {s : State} {h : Heap} (hs : Flagged id s)
    (hh : id = PERM_ID → ∃ a, h = .arr a) :
    Marks s { s with heap := s.heap.set id h } := by
  obtain ⟨⟨a, ha⟩, hflag⟩ := hs
  by_cases hid : id = PERM_ID
  · obtain ⟨b, rfl⟩ := hh hid
    refine ⟨⟨b, ?_⟩, fun hd => ?_⟩
    · rw [hid]
      exact List.getElem?_set_self (List.getElem?_eq_some_iff.1 ha).1
    · exact absurd ((hflag hid).symm.trans hd) (by decide)
  · have hget : (s.heap.set id h)[PERM_ID]? = s.heap[PERM_ID]? := List.getElem?_set_ne hid
    exact ⟨⟨a, hget.trans ha⟩, fun hd => ⟨hd, hget⟩⟩

theorem cell_eq {heap : List Heap} {id : ℕ} {h : Heap} (hc : cell heap id = .ok h) :
    heap[id]? = some h := by
  rw [cell] at hc
  split at hc
  · next hget =>
      cases hc
      exact hget
  · cases hc

theorem keeps_scope (id : ℕ) : Keeps (scope id) := by
  refine (keeps_reads _).bind fun h => ?_
  split
  · exact keeps_pure _
  · exact keeps_fail _

/-- What `scope` returns is in the heap, which it leaves alone. -/
theorem scope_apply {id : ℕ} {s s' : State} {sc : ScopeObj} (h : scope id s = .ok (sc, s')) :
    s' = s ∧ s.heap[id]? = some (.scope sc) := by
  change ((cell s.heap id).map (·, s) >>= _) = _ at h
  cases hc : cell s.heap id with
  | error e => rw [hc] at h; cases h
  | ok c =>
      rw [hc] at h
      cases c with
      | scope sc' =>
          cases h
          exact ⟨rfl, cell_eq hc⟩
      | arr a => cases h
      | obj m => cases h
      | closure e f => cases h

theorem keeps_changeScope (id : ℕ) (f : ScopeObj → ScopeObj) : Keeps (changeScope id f) := by
  intro s u s' hs h
  change (scope id s >>= _) = _ at h
  cases hsc : scope id s with
  | error e => rw [hsc] at h; cases h
  | ok r =>
      rw [hsc] at h
      cases h
      obtain ⟨hrs, hget⟩ := scope_apply hsc
      rw [hrs]
      -- The cell is a scope, so it is not the table.
      have hid : id ≠ PERM_ID := by
        rintro rfl
        obtain ⟨a, ha⟩ := hs
        cases ha.symm.trans hget
      exact marks_setHeap ⟨hs, fun h => absurd h hid⟩ fun h => absurd h hid

section Machine

variable (p : Program)

theorem keeps_scopeId : Keeps (scopeId p) := by
  refine (keeps_reg _).bind fun v => ?_
  split
  · refine (keeps_reads _).bind fun h => ?_
    split
    · exact keeps_pure _
    · exact keeps_fail _
  · exact keeps_fail _

theorem keeps_here : Keeps (here p) := (keeps_scopeId p).bind fun _ => keeps_scope _

theorem keeps_changeHere (f : ScopeObj → ScopeObj) : Keeps (changeHere p f) :=
  (keeps_scopeId p).bind fun _ => keeps_changeScope _ _

theorem keeps_lit (s : StrId) : Keeps (lit p s) := by
  rw [lit]
  split
  · exact keeps_pure _
  · exact keeps_panic

theorem keeps_operand (op : Operand) : Keeps (operand p op) := by
  cases op with
  | reg r => exact keeps_reg r
  | dest d => exact keeps_fail _
  | _ => exact keeps_pure _

theorem keeps_numM (v : V) : Keeps (numM p v) := keeps_reads _

theorem keeps_keyM (v : V) : Keeps (keyM v) := keeps_reads _

/-! ## Writes and natives -/

theorem setCell_arr {a : List V} {key : String} {v : V} {h : Heap}
    (hc : setCell (.arr a) key v = .ok h) : ∃ b, h = .arr b := by
  change (setArr a key v).map Heap.arr = _ at hc
  cases hb : setArr a key v with
  | error e => rw [hb] at hc; cases hc
  | ok b =>
      rw [hb] at hc
      cases hc
      exact ⟨b, rfl⟩

/-- **A write marks the table.** -/
theorem keeps_setProp (o k v : V) : Keeps (setProp o k v) := by
  cases o with
  | obj id =>
      refine (keeps_keyM k).bind fun key => Keeps.flagged ?_
      intro s u s' hs h
      change ((do setCell (← cell s.heap id) key v : Res Heap).map (·, s) >>= _) = _ at h
      cases hc : cell s.heap id with
      | error e => rw [hc] at h; cases h
      | ok c =>
          rw [hc] at h
          change ((setCell c key v).map (·, s) >>= _) = _ at h
          cases hset : setCell c key v with
          | error e => rw [hset] at h; cases h
          | ok c' =>
              rw [hset] at h
              cases h
              refine marks_setHeap hs fun hid => ?_
              obtain ⟨a, ha⟩ := hs.1
              rw [← hid, cell_eq hc] at ha
              cases ha
              exact setCell_arr hset
  | _ => exact keeps_fail _

theorem keeps_concatItem (x : V) : Keeps (concatItem x) := by
  cases x with
  | obj i =>
      refine (keeps_reads _).bind fun h => ?_
      split
      · exact keeps_reads _
      · exact keeps_pure _
  | _ => exact keeps_pure _

theorem keeps_numArg (args : List V) (i : ℕ) : Keeps (numArg p args i) := by
  rw [numArg]
  split
  · exact keeps_numM p _
  · exact keeps_pure _

/-- A native that changes no array leaves its array alone. -/
theorem arrayOp_same {f : Nat} {id : ℕ} {a args after : List V} {a0 a1 : Double}
    {result : V ⊕ List V} (hf : f.mutates = false)
    (h : arrayOp f id a args a0 a1 = .ok (after, result)) : after = a := by
  cases f with
  | slice => cases h; rfl
  | indexOf => cases h; rfl
  | splice => cases hf
  | push => cases hf
  | pop => cases hf
  | shift => cases hf
  | unshift => cases hf
  | reverse => cases hf
  | _ => cases h

theorem arrayAt_eq {heap : List Heap} {id : ℕ} {a : List V} (h : arrayAt heap id = .ok a) :
    heap[id]? = some (.arr a) := by
  change (cell heap id >>= _) = _ at h
  cases hc : cell heap id with
  | error e => rw [hc] at h; cases h
  | ok c =>
      rw [hc] at h
      cases c with
      | arr b =>
          cases h
          exact cell_eq hc
      | _ => cases h

/-- The part of a native that writes its array. -/
theorem marks_arrayOp {f : Nat} {id : ℕ} {s : State} {a args after : List V} {a0 a1 : Double}
    {result : V ⊕ List V} (hs : IsTable s) (hf : f.mutates = true → Flagged id s)
    (ha : s.heap[id]? = some (.arr a)) (h : arrayOp f id a args a0 a1 = .ok (after, result)) :
    Marks s { s with heap := s.heap.set id (.arr after) } := by
  cases hm : f.mutates with
  | true => exact marks_setHeap (hf hm) fun _ => ⟨after, rfl⟩
  | false =>
      obtain rfl := arrayOp_same hm h
      obtain ⟨hlt, hget⟩ := List.getElem?_eq_some_iff.1 ha
      rw [← hget, List.set_getElem_self]
      exact .refl hs

theorem keeps_arrayNative {P : State → Prop} (hP : Chained P Marks) (ht : ∀ s, P s → IsTable s)
    {f : Nat} {id : ℕ} (hf : f.mutates = true → ∀ s, P s → Flagged id s) (args : List V)
    (a0 a1 : Double) : Lib.Keeps P Marks (arrayNative f id args a0 a1) := by
  intro s v s' hs h
  change ((do arrayOp f id (← arrayAt s.heap id) args a0 a1 : Res _).map (·, s) >>= _) = _ at h
  cases ha : arrayAt s.heap id with
  | error e => rw [ha] at h; cases h
  | ok a =>
      rw [ha] at h
      change ((arrayOp f id a args a0 a1).map (·, s) >>= _) = _ at h
      cases hop : arrayOp f id a args a0 a1 with
      | error e => rw [hop] at h; cases h
      | ok r =>
          rw [hop] at h
          have hmarks := marks_arrayOp (ht s hs) (fun hm => hf hm s hs) (arrayAt_eq ha) hop
          obtain ⟨after, result⟩ := r
          cases result with
          | inl v =>
              cases h
              exact hmarks
          | inr fresh =>
              refine hP.trans hs hmarks (keeps_alloc _ _ _ _ hmarks.table h)

theorem keeps_separator (args : List V) : Keeps (separator p args) := by
  rw [separator]
  split
  · exact keeps_pure _
  · exact keeps_pure _
  · exact keeps_reads _

theorem keeps_joinNative (id : ℕ) (args : List V) : Keeps (joinNative p id args) := by
  refine (keeps_separator p args).bind fun sep => (keeps_reads _).bind fun items => ?_
  exact (keeps_reads _).bind fun _ => keeps_pure _

theorem keeps_concatNative (id : ℕ) (args : List V) : Keeps (concatNative id args) := by
  refine (keeps_reads _).bind fun out => ?_
  exact (Keeps.mapM keeps_concatItem args).bind fun _ => keeps_alloc _

theorem keeps_nativeOn {P : State → Prop} (hP : Chained P Marks) (ht : ∀ s, P s → IsTable s)
    {f : Nat} {id : ℕ} (hf : f.mutates = true → ∀ s, P s → Flagged id s) (args : List V) :
    Lib.Keeps P Marks (nativeOn p f id args) := by
  refine Lib.Keeps.bind hP ((keeps_numArg p args 0).weaken ht) fun a0 => ?_
  refine Lib.Keeps.bind hP ((keeps_numArg p args 1).weaken ht) fun a1 => ?_
  split
  · exact (keeps_joinNative p id args).weaken ht
  · exact (keeps_concatNative id args).weaken ht
  · exact keeps_arrayNative hP ht hf args a0 a1

/-- **A native marks the table** when it changes it. -/
theorem keeps_native (f : Nat) (id : ℕ) (args : List V) : Keeps (native p f id args) := by
  rw [native]
  split
  · refine Keeps.flagged (keeps_nativeOn p (flagged_chained id) (fun _ h => h.1) ?_ args)
    exact fun _ _ h => h
  · next hm => exact keeps_nativeOn p marks_chained (fun _ h => h) (fun h => absurd h hm) args

theorem keeps_callClosure (id : ℕ) (this : V) (args : List V) :
    Keeps (callClosure id this args) := by
  refine (keeps_reads _).bind fun h => ?_
  split
  · refine keeps_get.bind fun s => ?_
    split
    · exact keeps_fail _
    · refine Keeps.bind ?_ fun _ => keeps_pure _
      exact keeps_modify fun _ => ⟨rfl, rfl⟩
  · exact keeps_fail _

theorem keeps_callSetter (args : List V) : Keeps (callSetter p args) := by
  rw [callSetter]
  split
  · exact (keeps_numM p _).bind fun _ => keeps_pure _
  · exact keeps_pure _

theorem keeps_invoke (stack : ℕ) (f this : V) (args : List V) :
    Keeps (invoke p stack f this args) := by
  fun_induction invoke p stack f this args with
  | case1 => exact keeps_panic
  | case2 => exact keeps_panic
  | case3 stack this args ih => exact (keeps_reads _).bind fun list => ih list
  | case4 stack this args ih => exact ih
  | case5 => exact (Keeps.mapM (keeps_numM p) _).bind fun _ => keeps_pure _
  | case6 => exact keeps_native p _ _ _
  | case7 => exact keeps_fail _
  | case8 => exact keeps_callSetter p _
  | case9 => exact keeps_callClosure _ _ _
  | case10 => exact keeps_fail _

/-! ## Expressions -/

theorem keeps_variable (key : String) : Keeps (variable_ p key) := by
  refine (keeps_scopeId p).bind fun id => (keeps_reads _).bind fun r => ?_
  split
  · exact keeps_pure _
  · exact keeps_fail _

theorem keeps_unary (op : UnaryOperator) (v : V) : Keeps (unary p op v) := by
  cases op with
  | logicalNot => exact keeps_pure _
  | void => exact keeps_pure _
  | delete => exact keeps_fail _
  | typeof => exact (keeps_reads _).bind fun _ => keeps_pure _
  | _ => exact (keeps_numM p v).bind fun _ => keeps_pure _

theorem keeps_objectOf (m : String → Option V) (items : List V) : Keeps (objectOf m items) := by
  fun_induction objectOf m items with
  | case1 m k v items ih => exact (keeps_keyM k).bind fun key => ih key
  | case2 m items => exact keeps_pure _

theorem keeps_isArrayName (v : V) : Keeps (isArrayName p v) := by
  cases v with
  | name s => exact (keeps_lit p s).bind fun _ => keeps_pure _
  | _ => exact keeps_pure _

theorem keeps_newArray (args : List V) : Keeps (newArray args) := by
  unfold newArray
  split
  · split
    · exact keeps_fail _
    · exact keeps_alloc _
  · exact keeps_alloc _

section Template

variable (t : Template) (ops : List Operand)

theorem keeps_exprAt (id : ExprId) : Keeps (exprAt t id) := by
  rw [exprAt]
  split
  · exact keeps_pure _
  · exact keeps_panic

theorem keeps_evalArgs {ev : ExprId → M V} (hev : ∀ e, Keeps (ev e)) (sp : Span) :
    Keeps (evalArgs t ev sp) := by
  refine Keeps.mapM (fun i => ?_) _
  split
  · exact hev _
  · exact keeps_panic

theorem keeps_callee {ev : ExprId → M V} (hev : ∀ e, Keeps (ev e)) (e : ExprId) :
    Keeps (callee t ev e) := by
  refine (keeps_exprAt t e).bind fun x => ?_
  split
  · refine (hev _).bind fun this => (hev _).bind fun kv => ?_
    split
    · exact keeps_fail _
    · exact (keeps_reads _).bind fun _ => keeps_pure _
  · exact (hev _).bind fun _ => keeps_pure _

/-- **An expression marks the table** when it changes it. -/
theorem keeps_ev (stack : ℕ) (id : ExprId) : Keeps (ev p t ops stack id) := by
  induction stack generalizing id with
  | zero => exact keeps_panic
  | succ stack ih =>
      refine (keeps_exprAt t id).bind fun e => ?_
      cases e with
      | lit s => exact (keeps_lit p s).bind fun _ => keeps_pure _
      | slot k =>
          dsimp only
          split
          · exact keeps_operand p _
          · exact keeps_fail _
      | reg r => exact keeps_reg _
      | scope => exact (keeps_scopeId p).bind fun _ => keeps_pure _
      | this => exact (keeps_here p).bind fun _ => keeps_pure _
      | callee => exact (keeps_here p).bind fun _ => keeps_pure _
      | exception => exact keeps_fail _
      | excRecord => exact keeps_fail _
      | runtime r => cases r <;> first | exact keeps_pure _ | exact keeps_fail _
      | name s =>
          refine (keeps_lit p s).bind fun _ => ?_
          split
          · exact keeps_pure _
          · exact keeps_fail _
      | var k =>
          refine (ih k).bind fun v => (keeps_keyM v).bind fun key => ?_
          exact (keeps_variable p key).bind fun _ => keeps_pure _
      | scopeVar k =>
          refine (ih k).bind fun v => (keeps_keyM v).bind fun key => ?_
          exact (keeps_here p).bind fun _ => keeps_pure _
      | frameField f => exact keeps_frame.bind fun _ => keeps_pure _
      | scopeField f => exact (keeps_here p).bind fun _ => keeps_pure _
      | member o k =>
          refine (ih o).bind fun ov => (ih k).bind fun kv => ?_
          split
          · split
            · exact keeps_pure _
            · exact keeps_fail _
          · exact keeps_reads _
      | call c sp =>
          refine (keeps_callee t ih c).bind fun r => ?_
          exact (keeps_evalArgs t ih sp).bind fun args => keeps_invoke p _ _ _ _
      | new c sp =>
          refine (ih c).bind fun f => (keeps_evalArgs t ih sp).bind fun args => ?_
          refine (keeps_isArrayName p f).bind fun b => ?_
          split
          · exact keeps_newArray _
          · exact keeps_fail _
      | apply c this args =>
          refine (ih c).bind fun f => (ih this).bind fun th => (ih args).bind fun a => ?_
          exact (keeps_reads _).bind fun _ => keeps_invoke p _ _ _ _
      | construct c args => exact keeps_fail _
      | unary op a => exact (ih a).bind fun v => keeps_unary p op v
      | binary op a b => exact (ih a).bind fun l => (ih b).bind fun r => keeps_reads _
      | logical op a b =>
          refine (ih a).bind fun l => ?_
          split
          · exact keeps_pure _
          · exact ih b
      | cond c a b =>
          refine (ih c).bind fun cv => ?_
          split
          · exact ih a
          · exact ih b
      | array sp => exact (keeps_evalArgs t ih sp).bind fun _ => keeps_alloc _
      | object sp =>
          refine (keeps_evalArgs t ih sp).bind fun items => ?_
          exact (keeps_objectOf _ _).bind fun _ => keeps_alloc _
      | closure entry name arity =>
          refine (ih entry).bind fun v => (keeps_numM p v).bind fun n => ?_
          split
          · exact keeps_fail _
          · exact (keeps_scopeId p).bind fun _ => keeps_alloc _
      | keys a => exact keeps_fail _
      | _ => exact keeps_pure _

theorem keeps_eval (e : ExprId) : Keeps (eval p t ops e) := keeps_ev p t ops p.stack e

/-! ## Statements -/

theorem keeps_ret (v : V) : Keeps (ret p v) := by
  refine (keeps_here p).bind fun sc => ?_
  split
  · exact keeps_fail _
  · refine keeps_get.bind fun s => ?_
    split
    · exact keeps_fail _
    · refine Keeps.bind ?_ fun _ => (keeps_setReg 2 v).bind fun _ => ?_
      · exact keeps_modify fun _ => ⟨rfl, rfl⟩
      · exact keeps_modify fun _ => ⟨rfl, rfl⟩

theorem keeps_execList {exec : Stmt → M Unit} (hexec : ∀ s, Keeps (exec s)) (sp : Span) :
    Keeps (execList t exec sp) := by
  refine Lib.Keeps.forM marks_chained (fun i => ?_) _
  split
  · exact hexec _
  · exact keeps_panic

/-- **A statement marks the table** when it changes it. -/
theorem keeps_stmt {nested : Span → M Unit} (hn : ∀ sp, Keeps (nested sp)) (s : Stmt) :
    Keeps (stmt p t ops nested s) := by
  cases s with
  | setDest slot val =>
      refine (keeps_eval p t ops val).bind fun v => ?_
      split
      · exact keeps_setReg _ _
      · exact keeps_fail _
  | setReg r val => exact (keeps_eval p t ops val).bind fun v => keeps_setReg r v
  | setProp obj key val =>
      refine (keeps_eval p t ops obj).bind fun o => (keeps_eval p t ops key).bind fun k => ?_
      exact (keeps_eval p t ops val).bind fun v => keeps_setProp o k v
  | setVar key val =>
      refine (keeps_eval p t ops key).bind fun kv => (keeps_keyM kv).bind fun k => ?_
      refine (keeps_eval p t ops val).bind fun v => (keeps_variable p k).bind fun r => ?_
      exact keeps_changeScope _ _
  | declVar key val =>
      refine (keeps_eval p t ops key).bind fun kv => (keeps_keyM kv).bind fun k => ?_
      exact (keeps_eval p t ops val).bind fun v => keeps_changeHere p _
  | setFrameField field val =>
      refine (keeps_eval p t ops val).bind fun v => keeps_frame.bind fun f => ?_
      exact keeps_setFrame _
  | setScopeField field val =>
      exact (keeps_eval p t ops val).bind fun v => keeps_changeHere p _
  | setCatch v => exact (keeps_eval p t ops v).bind fun v => keeps_changeHere p _
  | setFinally v => exact (keeps_eval p t ops v).bind fun v => keeps_changeHere p _
  | eval e => exact (keeps_eval p t ops e).bind fun _ => keeps_pure _
  | cond c thn els => exact (keeps_eval p t ops c).bind fun cv => hn _
  | jump e =>
      refine (keeps_eval p t ops e).bind fun v => (keeps_numM p v).bind fun n => ?_
      split
      · exact keeps_fail _
      · exact keeps_modify fun _ => ⟨rfl, rfl⟩
  | ret e => exact (keeps_eval p t ops e).bind fun v => keeps_ret p v
  | throw e => exact keeps_fail _
  | halt => exact keeps_fail _

theorem keeps_exec (stack : ℕ) (s : Stmt) : Keeps (exec p t ops stack s) := by
  induction stack generalizing s with
  | zero => exact keeps_stmt p t ops (fun _ => keeps_panic) s
  | succ stack ih => exact keeps_stmt p t ops (keeps_execList t ih) s

end Template

/-! ## Turns of the loop -/

theorem keeps_branch (tpl : Template) (d : Disasm.Decoder.Decoded) (ops : List Operand) :
    Keeps (branch p tpl d ops) := by
  rw [branch]
  split
  · refine (keeps_eval p tpl ops _).bind fun c => ?_
    split
    · split
      · exact keeps_modify fun _ => ⟨rfl, rfl⟩
      · exact keeps_pure _
    · exact keeps_pure _
  · exact keeps_pure _

theorem keeps_takeJump : Keeps takeJump := by
  refine keeps_get.bind fun s => ?_
  split
  · refine Keeps.bind ?_ fun _ => keeps_setReg _ _
    exact keeps_modify fun _ => ⟨rfl, rfl⟩
  · exact keeps_pure _

theorem keeps_leave (tpl : Template) : Keeps (leave tpl) := by
  refine keeps_get.bind fun s => ?_
  split
  · exact keeps_fail _
  · exact keeps_pure _

theorem keeps_enter (c : Pending) : Keeps (enter p c) := by
  refine (keeps_alloc _).bind fun s => (keeps_alloc _).bind fun arguments => ?_
  exact keeps_modify fun _ => ⟨rfl, rfl⟩

theorem keeps_takeCall : Keeps (takeCall p) := by
  refine keeps_get.bind fun s => ?_
  split
  · refine Keeps.bind ?_ fun _ => ?_
    · exact keeps_modify fun _ => ⟨rfl, rfl⟩
    · split
      · exact keeps_panic
      · exact keeps_enter p _
  · exact keeps_pure _

theorem keeps_goOn (tpl : Template) (d : Disasm.Decoder.Decoded) (ops : List Operand)
    (depth : ℕ) : Keeps (goOn p tpl d ops depth) := by
  refine keeps_get.bind fun s => ?_
  split
  · refine (keeps_branch p tpl d ops).bind fun _ => keeps_takeJump.bind fun _ => ?_
    exact keeps_leave tpl
  · exact keeps_pure _

/-- **An instruction marks the table** when it changes it. -/
theorem keeps_instr (pc handler : ℕ) : Keeps (instr p pc handler) := by
  rw [instr]
  split
  · split
    · refine (keeps_setReg _ _).bind fun _ => Keeps.bind ?_ fun _ => keeps_get.bind fun s => ?_
      · exact keeps_modify fun _ => ⟨rfl, rfl⟩
      · refine (keeps_execList _ (keeps_exec p _ _ p.stack) _).bind fun _ => ?_
        exact (keeps_goOn p _ _ _ _).bind fun _ => keeps_takeCall p
    · exact keeps_fail _
  · exact keeps_fail _
  · exact keeps_fail _

/-! ## What a turn notes -/

/-- The generation noted for `pc` maps its opcode to the handler. -/
def Right (r : Running) (pc handler : ℕ) : Prop :=
  r.genOf pc ≠ Disasm.NO_GEN ∧ ∃ raw perm, p.decoder.word pc = some raw ∧
    r.perms[r.genOf pc]? = some perm ∧ perm[rawIndex raw]? = some handler

/-- The last recorded permutation is the table. -/
def Recorded (r : Running) : Prop :=
  ∃ perm, r.perms.getLast? = some perm ∧ snapshot r.emu.heap = some perm

/-- What holds between the turns of the loop. -/
structure Tracked (r : Running) : Prop where
  table : IsTable r.emu
  clean : r.emu.permDirty = false
  recorded : Recorded r
  right : ∀ e ∈ r.ran, Right p r e.1 e.2

/-- The word that the loop is about to execute. -/
def opcode (s : State) : Option ℤ :=
  ((reg 0).run' s).toOption.bind fun v => (pcOf p v).bind p.decoder.word

/-- The next generation has a number of sixteen bits that is no mark, and the next
opcode is no negative word. -/
def Fits (r : Running) : Prop :=
  r.perms.length < 2 ^ 16 ∧ ∀ raw, opcode p r.emu = some raw → 0 ≤ raw

theorem mapM_getElem {α β : Type} {f : α → Option β} {xs : List α} {ys : List β}
    (h : xs.mapM f = some ys) {i : ℕ} {x : α} (hx : xs[i]? = some x) :
    ∃ y, f x = some y ∧ ys[i]? = some y := by
  induction xs generalizing ys i with
  | nil => cases hx
  | cons a xs ih =>
      rw [List.mapM_cons] at h
      obtain ⟨y, hy, h⟩ := Option.bind_eq_some_iff.1 h
      obtain ⟨ys', hys, h⟩ := Option.bind_eq_some_iff.1 h
      obtain rfl : y :: ys' = ys := Option.some.inj h
      cases i with
      | zero =>
          obtain rfl : a = x := Option.some.inj hx
          exact ⟨y, hy, rfl⟩
      | succ i => exact ih hys hx

/-- The entry of a permutation for a value of the table. -/
def entry (v : V) : Option ℕ :=
  match v with
  | .num n => if n.ge .zero && n.isInt && n.lt (.ofInt 65535) then some (n.toU 16) else none
  | _ => none

theorem snapshot_arr {heap : List Heap} {a : List V} (h : heap[PERM_ID]? = some (.arr a)) :
    snapshot heap = a.mapM entry := by
  rw [snapshot, h]
  rfl

/-- **The handler of an opcode** is the one that the recorded permutation has. -/
theorem handlerAt_snapshot {heap : List Heap} {perm : List ℕ} {c : Double} {h : ℕ}
    (ht : ∃ a, heap[PERM_ID]? = some (.arr a)) (hs : snapshot heap = some perm)
    (hc : handlerAt heap c = .ok (.handler h)) : perm[c.toU 64]? = some h := by
  obtain ⟨a, ha⟩ := ht
  rw [snapshot_arr ha] at hs
  have hcell : cell heap PERM_ID = .ok (.arr a) := by rw [cell, ha]; rfl
  rw [handlerAt] at hc
  obtain ⟨o, ho, hc⟩ := Lib.bind_ok hc
  cases hcell.symm.trans ho
  dsimp only at hc
  split at hc
  · next n hn =>
      obtain ⟨y, hy, hget⟩ := mapM_getElem hs hn
      rw [entry] at hy
      split at hy
      · obtain rfl := Option.some.inj hy
        split at hc
        · cases hc
          exact hget
        · cases hc
      · cases hy
  · cases hc

theorem isNan_ofInt (i : ℤ) : (Double.ofInt i).isNan = false := rfl

theorem getDispatch_ofInt (heap : List Heap) (i : ℤ) :
    getProp heap .dispatch (.num (.ofInt i)) = handlerAt heap (.ofInt i) := rfl

/-- What the loop fetches. -/
theorem fetch_spec {s : State} {pc : ℕ} {raw : ℤ} {handler : ℕ}
    (h : fetch p s = .ok (pc, raw, handler)) :
    p.decoder.word pc = some raw ∧ opcode p s = some raw ∧
      handlerAt s.heap (.ofInt raw) = .ok (.handler handler) := by
  rw [fetch] at h
  obtain ⟨v, hv, h⟩ := Lib.bind_ok h
  split at h
  · next pc' hpc =>
      split at h
      · next raw' hraw =>
          split at h
          · next handler' hget =>
              cases h
              refine ⟨hraw, ?_, hget⟩
              rw [opcode, hv]
              change (pcOf p v).bind p.decoder.word = _
              rw [hpc]
              exact hraw
          · cases h
          · cases h
      · cases h
  · cases h

theorem rawIndex_eq {pc : ℕ} {raw : ℤ} (hw : p.decoder.word pc = some raw) (h : 0 ≤ raw) :
    rawIndex raw = raw.toNat ∧ raw < 2 ^ 64 := by
  obtain ⟨b, hb, rfl⟩ := Option.map_eq_some_iff.1 hw
  have hlt := b.toInt_lt
  rw [rawIndex]
  constructor <;> omega

/-- **The handler that is fetched** is that of the last permutation. -/
theorem fetch_right {r : Running} (hr : Tracked p r) (hfit : Fits p r) {pc : ℕ} {raw : ℤ}
    {handler : ℕ} (h : fetch p r.emu = .ok (pc, raw, handler)) :
    p.decoder.word pc = some raw ∧
      ∃ perm, r.perms.getLast? = some perm ∧ perm[rawIndex raw]? = some handler := by
  obtain ⟨hw, hop, hh⟩ := fetch_spec p h
  have hpos := hfit.2 raw hop
  obtain ⟨hidx, hlt⟩ := rawIndex_eq p hw hpos
  obtain ⟨perm, hlast, hsnap⟩ := hr.recorded
  refine ⟨hw, perm, hlast, ?_⟩
  have hget := handlerAt_snapshot hr.table hsnap hh
  rwa [Double.toU_ofInt hpos hlt, ← hidx] at hget

/-- What is right stays right when nothing is noted anew but at `pc`. -/
theorem Right.mono {r r' : Running} {pc handler : ℕ} (h : Right p r pc handler)
    (hg : r'.genOf pc = r.genOf pc) (hp : r.perms <+: r'.perms) : Right p r' pc handler := by
  obtain ⟨hne, raw, perm, hw, hperm, hidx⟩ := h
  obtain ⟨rest, hrest⟩ := hp
  refine ⟨hg ▸ hne, raw, perm, hw, ?_, hidx⟩
  rw [hg, ← hrest, List.getElem?_append_left (List.getElem?_eq_some_iff.1 hperm).1]
  exact hperm

/-- **Noting a generation** keeps what is right, and is right itself. -/
theorem note_spec {r r' : Running} (hr : Tracked p r) (hfit : Fits p r) {pc : ℕ} {raw : ℤ}
    {handler : ℕ} (hf : fetch p r.emu = .ok (pc, raw, handler))
    (h : note r pc raw handler = some r') :
    r'.emu = r.emu ∧ r'.perms = r.perms ∧ ∀ e ∈ r'.ran, Right p r' e.1 e.2 := by
  obtain ⟨hw, perm, hlast, hidx⟩ := fetch_right p hr hfit hf
  have hne : r.perms ≠ [] := by
    intro hnil
    rw [hnil] at hlast
    cases hlast
  have hpos := List.length_pos_iff.2 hne
  have hget : r.perms[r.perms.length - 1]? = some perm := by
    rw [← List.getLast?_eq_getElem?]
    exact hlast
  have hlen := hfit.1
  have hgen : (r.perms.length - 1) % 2 ^ 16 = r.perms.length - 1 := Nat.mod_eq_of_lt (by omega)
  rw [note, hgen] at h
  dsimp only at h
  split at h
  · next hnone =>
      obtain rfl := Option.some.inj h
      refine ⟨rfl, rfl, fun e he => ?_⟩
      have hnew : Function.update r.genOf pc (r.perms.length - 1) pc = r.perms.length - 1 :=
        Function.update_self ..
      rcases List.mem_cons.1 he with rfl | he
      · refine ⟨?_, raw, perm, hw, ?_, hidx⟩
        · dsimp only
          rw [hnew, Disasm.NO_GEN]
          omega
        · dsimp only
          rw [hnew]
          exact hget
      · -- An instruction noted before has a generation.
        have hold := hr.right e he
        have hpc : e.1 ≠ pc := by
          intro heq
          exact hold.1 (heq ▸ hnone)
        exact hold.mono p (Function.update_of_ne hpc ..) (List.prefix_refl _)
  · next hsome =>
      have hright : ∀ e ∈ r.ran, Right p { r with ran := (pc, handler) :: r.ran } e.1 e.2 :=
        fun e he => (hr.right e he).mono p rfl (List.prefix_refl _)
      split at h
      · split at h
        · next hcheck =>
            obtain rfl := Option.some.inj h
            refine ⟨rfl, rfl, fun e he => ?_⟩
            rcases List.mem_cons.1 he with rfl | he
            · cases hperm : r.perms[r.genOf pc]? with
              | none =>
                  rw [hperm] at hcheck
                  cases hcheck
              | some perm' =>
                  rw [hperm] at hcheck
                  exact ⟨hsome, raw, perm', hw, hperm, hcheck⟩
            · exact hright e he
        · cases h
      · next hsame =>
          obtain rfl := Option.some.inj h
          have hsame' : r.genOf pc = r.perms.length - 1 := not_not.1 hsame
          refine ⟨rfl, rfl, fun e he => ?_⟩
          rcases List.mem_cons.1 he with rfl | he
          · refine ⟨hsome, raw, perm, hw, ?_, hidx⟩
            dsimp only
            rw [hsame']
            exact hget
          · exact hright e he

/-- **Recording the table** when it may have changed. -/
theorem record_spec {r r' : Running} {s : State} (hm : Marks r.emu s) (hr : Recorded r)
    (hright : ∀ e ∈ r.ran, Right p r e.1 e.2) (h : record r s = .next r') : Tracked p r' := by
  rw [record] at h
  split at h
  · split at h
    · next perm hsnap =>
        cases h
        refine ⟨hm.table, rfl, ⟨perm, List.getLast?_concat, hsnap⟩, fun e he => ?_⟩
        exact (hright e he).mono p rfl (List.prefix_append _ _)
    · cases h
  · next hd =>
      cases h
      have hclean : s.permDirty = false := Bool.eq_false_iff.2 hd
      obtain ⟨perm, hlast, hsnap⟩ := hr
      refine ⟨hm.table, hclean, ⟨perm, hlast, ?_⟩, fun e he => ?_⟩
      · rw [← hsnap, snapshot, snapshot]
        dsimp only
        rw [(hm.same hclean).2]
      · exact (hright e he).mono p rfl (List.prefix_refl _)

theorem record_stop {r r' : Running} {s : State} {reason : String}
    (h : record r s = .stop reason r') : r' = r := by
  rw [record] at h
  split at h
  · split at h
    · cases h
    · cases h
      rfl
  · cases h

/-- **A turn** that goes on keeps what holds. -/
theorem turn_next {r r' : Running} (hr : Tracked p r) (hfit : Fits p r)
    (h : turn p r = .next r') : Tracked p r' := by
  rw [turn] at h
  split at h
  · cases h
  · cases h
  · next pc raw handler hf =>
      split at h
      · cases h
      · next r₁ hnote =>
          obtain ⟨hemu, hperms, hright⟩ := note_spec p hr hfit hf hnote
          have hrec : Recorded r₁ := by
            rw [Recorded, hemu, hperms]
            exact hr.recorded
          split at h
          · next s hs =>
              have hm : Marks r₁.emu s := keeps_instr p pc handler r₁.emu () s (hemu ▸ hr.table) hs
              exact record_spec p hm hrec hright h
          · cases h
          · cases h

/-- **A turn** that stops has noted what is right. -/
theorem turn_stop {r r' : Running} {reason : String} (hr : Tracked p r) (hfit : Fits p r)
    (h : turn p r = .stop reason r') : ∀ e ∈ r'.ran, Right p r' e.1 e.2 := by
  rw [turn] at h
  split at h
  · cases h
    exact hr.right
  · cases h
  · next pc raw handler hf =>
      split at h
      · cases h
      · next r₁ hnote =>
          obtain ⟨-, -, hright⟩ := note_spec p hr hfit hf hnote
          split at h
          · next s hs =>
              rw [record_stop h]
              exact hright
          · cases h
            exact hright
          · cases h

end Machine
end Emulate
end Lunar
