/-
# What an op does to the scopes

`payload/exec.rs`: `ops`, of which an op follows `Mild` between its calls.  No op makes or drops a
scope, a frame or a slot, moves the stack pointer or compiles: it changes what they hold, and it
only counts steps up.  The
closures it leaves are old, or of the root or the ghost scope, or of the scope that runs, and these
only where the op is one that captures it (`execOp_mild`).
-/

import Lunar.Payload.Interp.Tame

namespace Lunar
namespace Interp

open Exec (BinaryOperator UnaryOperator Runtime F64 Op)
open Lib.CallM (Follows bind_done bind_error)

/-- What a scope keeps for as long as it stands. -/
def Scope.shape (sc : Scope) : Option ℕ × ℕ × Option ℕ × ℕ := (sc.cf, sc.base, sc.parent, sc.birth)

/-- What an op does that may make closures of the scope `own`. -/
structure Mild (own : Option ℕ) (s s' : State) : Prop where
  scopes : s'.scopes.map Scope.shape = s.scopes.map Scope.shape
  cfuncs : s'.cfuncs = s.cfuncs
  compiled : s'.compiled = s.compiled
  vals : s'.vals.length = s.vals.length
  frames : s'.frames.length = s.frames.length
  sp : s'.sp = s.sp
  clock : s'.clock = s.clock
  steps : s.steps ≤ s'.steps
  closures : ∀ id entry scope code, closureAt s'.mem.heap id = some (entry, scope, code) →
    closureAt s.mem.heap id = some (entry, scope, code) ∧ s'.born id = s.born id ∨
      scope ≤ GHOST ∧ code = none ∨
      own = some scope ∧ code = none ∧ ∃ sc, s.scopes[scope]? = some sc ∧ s'.born id = sc.birth

section Shape

variable {s s' : State} {own : Option ℕ} {i : ℕ} {sc : Scope}

theorem Mild.scope (h : Mild own s s') (hsc : s'.scopes[i]? = some sc) :
    ∃ sc₀, s.scopes[i]? = some sc₀ ∧ sc₀.shape = sc.shape := by
  have hmap : (s.scopes.map Scope.shape)[i]? = some sc.shape := by
    rw [← h.scopes, List.getElem?_map, hsc]
    rfl
  rw [List.getElem?_map] at hmap
  exact Option.map_eq_some_iff.1 hmap

instance : IsPreorder State (Mild own) where
  refl s := ⟨rfl, rfl, rfl, rfl, rfl, rfl, rfl, le_rfl, fun _ _ _ _ h => .inl ⟨h, rfl⟩⟩
  trans s₁ s₂ s₃ h₁ h₂ := by
    refine ⟨h₂.scopes.trans h₁.scopes, h₂.cfuncs.trans h₁.cfuncs, h₂.compiled.trans h₁.compiled,
      h₂.vals.trans h₁.vals, h₂.frames.trans h₁.frames, h₂.sp.trans h₁.sp, h₂.clock.trans h₁.clock,
      h₁.steps.trans h₂.steps, fun id entry scope code h => ?_⟩
    rcases h₂.closures id entry scope code h with ⟨h, hborn⟩ | h | ⟨hown, hcode, sc, hsc, hborn⟩
    · rcases h₁.closures id entry scope code h with ⟨h, hborn'⟩ | h | ⟨hown, hcode, sc, hsc, hborn'⟩
      · exact .inl ⟨h, hborn.trans hborn'⟩
      · exact .inr (.inl h)
      · exact .inr (.inr ⟨hown, hcode, sc, hsc, hborn.trans hborn'⟩)
    · exact .inr (.inl h)
    · obtain ⟨sc₀, hsc₀, hshape⟩ := h₁.scope hsc
      have hbirth : sc₀.birth = sc.birth := congrArg (·.2.2.2) hshape
      exact .inr (.inr ⟨hown, hcode, sc₀, hsc₀, hborn.trans hbirth.symm⟩)

/-- The heap changes as a computation on it does. -/
theorem mild_mem {m : Mem} (h : Tame s.mem m) : Mild own s { s with mem := m } where
  scopes := rfl
  cfuncs := rfl
  compiled := rfl
  vals := rfl
  frames := rfl
  sp := rfl
  clock := rfl
  steps := le_rfl
  closures id _ _ _ hc := (h id _ hc).imp (fun h => ⟨h, rfl⟩) .inl

theorem mild_modScope (i : ℕ) {g : Scope → Scope} (hg : ∀ sc, (g sc).shape = sc.shape) :
    Mild own s (s.modScope i g) where
  scopes := by
    refine List.ext_getElem? fun j => ?_
    rw [State.modScope, List.getElem?_map, List.getElem?_map, List.getElem?_modify]
    cases s.scopes[j]? with
    | none => rfl
    | some sc =>
        refine congrArg some ?_
        split
        · exact hg sc
        · rfl
  cfuncs := rfl
  compiled := rfl
  vals := rfl
  frames := rfl
  sp := rfl
  clock := rfl
  steps := le_rfl
  closures _ _ _ _ hc := .inl ⟨hc, rfl⟩

theorem mild_setVal (i : ℕ) (v : Val) : Mild own s (s.setVal i v) where
  scopes := rfl
  cfuncs := rfl
  compiled := rfl
  vals := List.length_set
  frames := rfl
  sp := rfl
  clock := rfl
  steps := le_rfl
  closures _ _ _ _ hc := .inl ⟨hc, rfl⟩

theorem mild_setReg (r : ℕ) (v : Val) : Mild own s (s.setReg r v) :=
  ⟨rfl, rfl, rfl, rfl, rfl, rfl, rfl, le_rfl, fun _ _ _ _ hc => .inl ⟨hc, rfl⟩⟩

theorem mild_setFrameField (id : ℕ) (v : Val) : Mild own s (s.setFrameField id v) where
  scopes := rfl
  cfuncs := rfl
  compiled := rfl
  vals := rfl
  frames := List.length_modifyHead
  sp := rfl
  clock := rfl
  steps := le_rfl
  closures _ _ _ _ hc := .inl ⟨hc, rfl⟩

theorem mild_locSet (l : Loc) (v : Val) : Mild own s (s.locSet l v) := by
  cases l with
  | slot i => exact mild_setVal i v
  | extra scope i => exact mild_modScope scope fun sc => rfl

end Shape

/-! ## Parts of ops -/

variable {own : Option ℕ}

theorem onMem_mild {α : Type} {x : MemM α} (h : x.Follows Tame) : (onMem x).Follows (Mild own) :=
  h.zoom fun _ _ hm => mild_mem hm

theorem ask_mild {α : Type} (g : State → Res α) : (ask g).Follows (Mild own) := .reading g

theorem tick_mild : tick.Follows (Mild own) := by
  refine .bind (.modify fun s => ?_) fun _ => ask_mild _
  exact ⟨rfl, rfl, rfl, rfl, rfl, rfl, rfl, Nat.le_succ _, fun _ _ _ _ hc => .inl ⟨hc, rfl⟩⟩

section Program

variable (p : Program)

theorem dynLoc_mild (scope key : ℕ) : (dynLoc p scope key).Follows (Mild own) := by
  refine .bind (ask_mild _) fun l => ?_
  cases l with
  | some l => exact .pure l
  | none =>
      have hroot (v : Val) : Follows (Mild own) (do
          modify fun s => s.modScope GHOST fun sc => { sc with extra := sc.extra ++ [(key, v)] }
          ask fun s => do
            return Loc.extra GHOST ((← index s.scopes GHOST).extra.length - 1) : OpM Loc) :=
        .bind (.modify fun s => mild_modScope GHOST fun sc => rfl) fun _ => ask_mild _
      dsimp only
      split
      · exact .bind (onMem_mild (alloc_root_tame _ le_rfl)) hroot
      · split
        · exact .bind (onMem_mild opaqueObj_tame) hroot
        · exact .bind (.throw _) hroot

theorem getDyn_mild (scope key : ℕ) : (getDyn p scope key).Follows (Mild own) :=
  .bind (dynLoc_mild p scope key) fun _ => ask_mild _

theorem setDyn_mild (scope key : ℕ) (v : Val) : (setDyn p scope key v).Follows (Mild own) :=
  .bind (dynLoc_mild p scope key) fun l => .modify fun _ => mild_locSet l v

theorem varLoc_mild (scope hops slot key : ℕ) :
    (varLoc p scope hops slot key).Follows (Mild own) := by
  refine .bind (ask_mild _) fun l => ?_
  cases l with
  | some l => exact .pure l
  | none => exact dynLoc_mild p scope key

theorem getStatic_mild (scope hops slot key : ℕ) :
    (getStatic p scope hops slot key).Follows (Mild own) :=
  .bind (varLoc_mild p scope hops slot key) fun _ => ask_mild _

theorem setStatic_mild (scope hops slot key : ℕ) (v : Val) :
    (setStatic p scope hops slot key v).Follows (Mild own) :=
  .bind (varLoc_mild p scope hops slot key) fun l => .modify fun _ => mild_locSet l v

theorem setScopeField_mild (scope id : ℕ) (v : Val) :
    (setScopeField p scope id v).Follows (Mild own) :=
  .modify fun _ => mild_modScope scope fun _ => rfl

theorem readScopeField_mild (scope id : ℕ) : (readScopeField p scope id).Follows (Mild own) := by
  refine .bind (ask_mild _) fun sc => ?_
  split
  · split
    · refine .bind (onMem_mild (alloc_tame rfl)) fun rec => ?_
      exact .bind (.modify fun _ => mild_modScope scope fun _ => rfl) fun _ => .pure rec
    · exact .pure _
  · exact .pure _

theorem mild_ic {s : State} (ic : ℕ → ℕ → ℕ) : Mild own s { s with ic := ic } :=
  ⟨rfl, rfl, rfl, rfl, rfl, rfl, rfl, le_rfl, fun _ _ _ _ hc => .inl ⟨hc, rfl⟩⟩

theorem memberK_mild (cf at_ : ℕ) (o k : Val) : (memberK p cf at_ o k).Follows (Mild own) := by
  have hget (o k : Val) : Follows (Mild own) (onMem (getProp p.host o k)) :=
    onMem_mild (getProp_tame p.host o k)
  unfold memberK
  split
  · refine .bind (onMem_mild (cellM_tame _)) fun o => ?_
    split
    · exact .pure _
    · refine .bind (ask_mild _) fun found => .bind (.modify fun _ => mild_ic _) fun _ => ?_
      split
      · exact .pure _
      · exact hget _ _
  · exact hget _ _

theorem testVar_mild (scope hops slot key : ℕ) (op : BinaryOperator) (n : F64) :
    (testVar p scope hops slot key op n).Follows (Mild own) := by
  refine .bind (ask_mild _) fun l => ?_
  split
  · exact .bind (ask_mild _) fun v => onMem_mild (testM_tame p.host op v n)
  · exact .bind (getDyn_mild p scope key) fun v => onMem_mild (compareM_tame p.host op v n)

/-! ## Ops -/

variable (f : CFunc) (a : Act)

theorem write_mild (d : ℕ) (v : Val) : (write a d v).Follows (Mild own) :=
  .bind (.modify fun _ => mild_setReg _ v) fun _ => .pure _

theorem retOp_mild (v : ℕ) : (retOp p f a v).Follows (Mild own) := by
  refine .bind (ask_mild _) fun sc => .bind (ask_mild _) fun x => ?_
  split
  · exact .bind (.modify fun _ => mild_setReg _ _) fun _ => .pure _
  · refine .bind (.modify fun _ => mild_modScope _ fun _ => rfl) fun _ => ?_
    refine .bind (ask_mild _) fun fin => ?_
    split
    · exact .bind (ask_mild _) fun _ => .pure _
    · exact .pure _

/-- A new closure of a scope, with its birth noted. -/
theorem mild_closure {s : State} {scope : ℕ} {sc : Scope} (hsc : s.scopes[scope]? = some sc)
    (entry : ℕ) (name arity : Val) : Mild (some scope) s
      { s with
        born := Function.update s.born s.mem.heap.length sc.birth
        mem := { s.mem with heap := s.mem.heap ++ [.closure entry scope name arity none] } } where
  scopes := rfl
  cfuncs := rfl
  compiled := rfl
  vals := rfl
  frames := rfl
  sp := rfl
  clock := rfl
  steps := le_rfl
  closures id entry' scope' code h := by
    obtain ⟨x, hx, hc⟩ := closureAt_iff.1 h
    rcases Lib.getElem?_concat.1 hx with hx | ⟨rfl, rfl⟩
    · have hne : id ≠ s.mem.heap.length := Nat.ne_of_lt (Lib.lt_of_getElem? hx)
      exact .inl ⟨closureAt_iff.2 ⟨x, hx, hc⟩, Function.update_of_ne hne _ _⟩
    · cases hc
      exact .inr (.inr ⟨rfl, rfl, sc, hsc, Function.update_self _ _ _⟩)

/-- `Op::Closure` makes a closure of the scope that runs. -/
theorem closureOp_mild (d entry name arity : ℕ) :
    (closureOp a d entry name arity).Follows (Mild (some a.scope)) := by
  refine .bind (ask_mild _) fun n => .bind (ask_mild _) fun k => fun s => ?_
  cases hsc : s.scopes[a.scope]? with
  | none =>
      have hidx : index s.scopes a.scope = .error .panic := by rw [index, hsc]; rfl
      rw [bind_error (congrArg (Lib.Calls.done s) hidx)]
      exact refl_of (Mild _) s
  | some sc =>
      have hidx : index s.scopes a.scope = .ok sc := by rw [index, hsc]; rfl
      rw [bind_done (congrArg (Lib.Calls.done s) hidx)]
      exact IsTrans.trans _ _ _ (mild_closure hsc entry n k) (mild_setReg _ _)

theorem acts_mild (op : Op) :
    (acts p f a op).Follows (Mild (if captures op then some a.scope else none)) := by
  cases op with
  | closure d entry name arity => exact closureOp_mild a d entry name arity
  | varS => exact .bind (getStatic_mild p _ _ _ _) fun v => write_mild a _ v
  | varD => exact .bind (getDyn_mild p _ _) fun v => write_mild a _ v
  | scopeField => exact .bind (readScopeField_mild p _ _) fun v => write_mild a _ v
  | memberK =>
      refine .bind (ask_mild _) fun k => .bind (ask_mild _) fun o => ?_
      exact .bind (memberK_mild p _ _ _ _) fun v => write_mild a _ v
  | brK =>
      refine .bind tick_mild fun _ => .bind (ask_mild _) fun x => ?_
      exact .bind (onMem_mild (testM_tame p.host _ _ _)) fun _ => .pure _
  | brVarK =>
      exact .bind tick_mild fun _ => .bind (testVar_mild p _ _ _ _ _ _) fun _ => .pure _
  | setVarK => exact .bind (setStatic_mild p _ _ _ _ _) fun _ => .pure _
  | jf | jt | jn => exact .bind (ask_mild _) fun _ => .pure _
  | j => exact .bind tick_mild fun _ => .pure _
  | setProp =>
      refine .bind (ask_mild _) fun o => .bind (ask_mild _) fun k => .bind (ask_mild _) fun v => ?_
      exact .bind (onMem_mild (setPropM_tame p.host o k v)) fun _ => .pure _
  | setVarS =>
      exact .bind (ask_mild _) fun v => .bind (setStatic_mild p _ _ _ _ v) fun _ => .pure _
  | setVarD => exact .bind (ask_mild _) fun v => .bind (setDyn_mild p _ _ v) fun _ => .pure _
  | decl =>
      refine .bind (ask_mild _) fun x => .bind (ask_mild _) fun sc => .bind (ask_mild _) fun _ => ?_
      exact .bind (.modify fun _ => mild_setVal _ x) fun _ => .pure _
  | setFrameField =>
      exact .bind (ask_mild _) fun x => .bind (.modify fun _ => mild_setFrameField _ x) fun _ =>
        .pure _
  | setScopeField | setCatch | setFinally =>
      exact .bind (ask_mild _) fun x => .bind (setScopeField_mild p _ _ x) fun _ => .pure _
  | jump =>
      refine .bind (ask_mild _) fun x => .bind (ask_mild _) fun pc => .bind tick_mild fun _ => ?_
      exact .bind (ask_mild _) fun _ => .pure _
  | ret v => exact retOp_mild p f a v
  | throw => exact .bind (ask_mild _) fun _ => .throw _
  | br => exact .bind tick_mild fun _ => .bind (ask_mild _) fun _ => .pure _
  | _ => exact .throw _

theorem computes_tame (s : State) (r : ℕ → Val) (op : Op) {d : ℕ} {x : MemM Val}
    (h : computes p f s r op = some (d, x)) : x.Follows Tame := by
  cases op with
  | exc => cases h; exact getProp_tame _ _ _
  | runtime => cases h; exact runtimeValue_tame _ _
  | name =>
      cases h
      split
      · exact nameM_tame _ _
      · exact failWith_tame _
      · exact .throw _
  | member => cases h; exact memberM_tame _ _ _
  | call => cases h; exact call_tame _ _ _ _
  | new => cases h; exact newM_tame _ _ _
  | apply => cases h; exact applyM_tame _ _ _ _
  | applyL => cases h; exact applyLM_tame _ _ _ _ _
  | construct => cases h; exact .bind (listOf_tame _ _) fun args => construct_tame _ _ args
  | unary => cases h; exact unaryM_tame _ _ _
  | binary | binK | kBin => cases h; exact arithM_tame _ _ _ _
  | array => cases h; exact alloc_tame rfl
  | object => cases h; exact .bind (objectProps_tame _ _ _) fun _ => alloc_tame rfl
  | keys => cases h; exact .bind (onHeap_tame _) fun _ => alloc_tame rfl
  | _ => cases h

/-- **An op is mild**, and makes closures of the scope that runs only where it captures it. -/
theorem execOp_mild (op : Op) :
    (execOp p f a op).Follows (Mild (if captures op then some a.scope else none)) := by
  refine .bind .get fun s => ?_
  cases reads p f a s op with
  | some dv => exact .bind (ask_mild _) fun v => write_mild a _ v
  | none =>
      dsimp only
      cases hx : computes p f s (fun r => s.stack (a.fb + r)) op with
      | some dx =>
          exact .bind (onMem_mild (computes_tame p f s _ op hx)) fun v => write_mild a _ v
      | none => exact acts_mild p f a op

end Program
end Interp
end Lunar
