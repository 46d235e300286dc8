/-
# Computations on the heap make no closures

`payload/exec.rs`: of all that an op does, `Op::Closure` alone makes a closure of a function.  The
computations on the heap (`get`, `set`, `call`, `construct` and their like) follow `Tame` between
their calls: after them every closure is one that was there before, or one of the root or the ghost
scope that has not run.
-/

import Lunar.Lib.Concat
import Lunar.Payload.Interp.Ops

namespace Lunar
namespace Interp

open Exec (BinaryOperator UnaryOperator Runtime F64)
open Lib.CallM (Follows)

/-! ## Cells -/

/-- What `closureAt` gives for an object. -/
def Obj.closure? : Obj → Option (ℕ × ℕ × Option ℕ)
  | .closure entry scope _ _ code => some (entry, scope, code)
  | _ => none

theorem closureAt_iff {heap : List Obj} {id : ℕ} {c : ℕ × ℕ × Option ℕ} :
    closureAt heap id = some c ↔ ∃ o, heap[id]? = some o ∧ o.closure? = some c := by
  rw [closureAt, ← Option.bind_eq_some_iff]
  cases heap[id]? with
  | none => rfl
  | some o => cases o <;> rfl

/-- A new object that is no closure. -/
theorem tame_concat (m : Mem) {o : Obj} (ho : o.closure? = none) :
    Tame m { m with heap := m.heap ++ [o] } := by
  intro id c h
  obtain ⟨x, hx, hc⟩ := closureAt_iff.1 h
  rcases Lib.getElem?_concat.1 hx with hx | ⟨-, rfl⟩
  · exact .inl (closureAt_iff.2 ⟨x, hx, hc⟩)
  · cases ho.symm.trans hc

/-- An object that becomes one that is no closure. -/
theorem tame_set (m : Mem) (id : ℕ) {o : Obj} (ho : o.closure? = none) :
    Tame m { m with heap := m.heap.set id o } := by
  intro i c h
  obtain ⟨x, hx, hc⟩ := closureAt_iff.1 h
  rw [List.getElem?_set] at hx
  split at hx
  · obtain ⟨-, hx⟩ := Option.ite_none_right_eq_some.1 hx
    cases hx
    cases ho.symm.trans hc
  · exact .inl (closureAt_iff.2 ⟨x, hx, hc⟩)

/-- What stands beside the heap does not matter. -/
theorem tame_beside {m m' : Mem} (h : m'.heap = m.heap) : Tame m m' :=
  fun _ _ hc => .inl (h ▸ hc)

theorem alloc_tame {o : Obj} (ho : o.closure? = none) : (alloc o).Follows Tame :=
  .modifyGet fun m => tame_concat m ho

/-- A closure of the root or of the ghost scope that has not run. -/
theorem alloc_root_tame (entry : ℕ) {scope : ℕ} (h : scope ≤ GHOST) :
    (alloc (.closure entry scope .undef .undef none)).Follows Tame := by
  refine .modifyGet fun m id c hc => ?_
  obtain ⟨x, hx, hc⟩ := closureAt_iff.1 hc
  rcases Lib.getElem?_concat.1 hx with hx | ⟨-, rfl⟩
  · exact .inl (closureAt_iff.2 ⟨x, hx, hc⟩)
  · cases hc
    exact .inr ⟨h, rfl⟩

theorem setCell_tame (id : ℕ) {o : Obj} (ho : o.closure? = none) : (setCell id o).Follows Tame :=
  .modify fun m => tame_set m id ho

theorem onHeap_tame {α : Type} (f : List Obj → Res α) : (onHeap f).Follows Tame := .reading _

theorem failWith_tame {α : Type} (what : String) : (failWith what : MemM α).Follows Tame :=
  .throw _

theorem typeError_tame {α : Type} (msg : String) : (typeError msg : MemM α).Follows Tame :=
  .bind (alloc_tame rfl) fun _ => .throw _

theorem cellM_tame (id : ℕ) : (cellM id).Follows Tame := onHeap_tame _

theorem opaqueObj_tame : opaqueObj.Follows Tame := alloc_tame rfl

theorem hostGlobal_tame (name : String) : (hostGlobal name).Follows Tame := by
  refine .bind .get fun m => ?_
  split
  · exact .pure _
  · exact .bind opaqueObj_tame fun v => .bind (.modify fun m => tame_beside rfl) fun _ => .pure v

section Host

variable (h : Host)

theorem keyM_tame (k : Val) : (keyM h k).Follows Tame := onHeap_tame _

theorem numM_tame (v : Val) : (numM h v).Follows Tame := onHeap_tame _

/-! ## Calls and properties -/

theorem callTo_tame (stack : ℕ) (f this : Val) (args : List Val) :
    (callTo h stack f this args).Follows Tame := by
  induction stack generalizing f this args with
  | zero => exact .throw _
  | succ stack ih =>
      cases f with
      | obj id =>
          refine .bind (cellM_tame id) fun o => ?_
          cases o with
          | closure => exact .request _
          | bound target bt ba => exact ih _ _ _
          | opaque_ =>
              refine .bind .get fun m => .bind opaqueObj_tame fun v => ?_
              exact .bind (.modify fun m => tame_beside rfl) fun _ => .pure v
          | _ => exact typeError_tame _
      | nat n => exact h.native_tame n this args
      | _ => exact typeError_tame _

theorem call_tame (f this : Val) (args : List Val) : (call h f this args).Follows Tame :=
  callTo_tame h _ f this args

theorem getPlain_tame (o : Val) (props : List (String × Val)) (ks : String) :
    (getPlain h o props ks).Follows Tame := by
  unfold getPlain
  split
  · refine .bind (cellM_tame _) fun o => ?_
    split
    · split
      · exact .pure _
      · exact call_tame h _ _ _
    · exact .pure _
  · exact .pure _
  · exact .pure _

theorem getOpaque_tame (id : ℕ) (props : List (String × Val)) (ks : String) :
    (getOpaque id props ks).Follows Tame := by
  unfold getOpaque
  split
  · exact .pure _
  · split
    · exact .pure _
    · exact .bind opaqueObj_tame fun v => .bind (setCell_tame id rfl) fun _ => .pure v

theorem getObj_tame (id : ℕ) (k : Val) : (getObj h id k).Follows Tame := by
  refine .bind (cellM_tame id) fun o => ?_
  cases o with
  | arr items =>
      dsimp only
      split
      · exact .pure _
      · exact .bind (keyM_tame h k) fun _ => .pure _
  | plain props => exact .bind (keyM_tame h k) fun ks => getPlain_tame h _ _ ks
  | opaque_ props => exact .bind (keyM_tame h k) fun ks => getOpaque_tame _ _ ks
  | accessor => exact .pure _
  | _ => exact .bind (keyM_tame h k) fun _ => .pure _

theorem getStr_tame (s : String) (k : Val) : (getStr h s k).Follows Tame := by
  unfold getStr
  dsimp only
  split
  · exact .pure _
  · exact .bind (keyM_tame h k) fun _ => .pure _

theorem known_tame (r : Res Val) (name : String) : (known h r name).Follows Tame := by
  unfold known
  split
  · exact .pure _
  · split
    · exact hostGlobal_tame name
    · exact .throw _

theorem nullishError_tame {α : Type} (verb doing : String) (o k : Val) :
    (nullishError h verb doing o k : MemM α).Follows Tame :=
  .bind (onHeap_tame _) fun _ => typeError_tame _

theorem getProp_tame (o k : Val) : (getProp h o k).Follows Tame := by
  cases o with
  | undef | null => exact nullishError_tame h _ _ _ k
  | obj id => exact getObj_tame h id k
  | str s => exact getStr_tame h s k
  | num | bool => exact .bind (keyM_tame h k) fun _ => .pure _
  | global | nat => exact .bind (keyM_tame h k) fun ks => known_tame h _ _
  | scope => exact failWith_tame _

theorem setArr_tame (id : ℕ) (items : List Val) (idx : Option ℕ) (ks : String) (v : Val) :
    (setArr id items idx ks v).Follows Tame := by
  unfold setArr
  split
  · split
    · exact failWith_tame _
    · exact setCell_tame id rfl
  · split
    · split
      · split
        · exact setCell_tame id rfl
        · exact failWith_tame _
      · exact failWith_tame _
    · exact failWith_tame _

theorem setObj_tame (id : ℕ) (idx : Option ℕ) (ks : String) (v : Val) :
    (setObj id idx ks v).Follows Tame := by
  refine .bind (cellM_tame id) fun o => ?_
  cases o with
  | arr items => exact setArr_tame id items idx ks v
  | plain | opaque_ => exact setCell_tame id rfl
  | error =>
      dsimp only
      split
      · split
        · exact setCell_tame id rfl
        · exact failWith_tame _
      · exact .pure _
  | _ => exact failWith_tame _

theorem setProp_tame (o k v : Val) : (setProp h o k v).Follows Tame := by
  cases o with
  | undef | null => exact nullishError_tame h _ _ _ k
  | obj id =>
      unfold setProp
      dsimp only
      split
      · exact setObj_tame id _ _ v
      · refine .bind (keyM_tame h k) fun ks => .bind (cellM_tame id) fun o => ?_
        refine .bind (onHeap_tame _) fun setter => ?_
        cases setter with
        | none => exact setObj_tame id _ ks v
        | some setter =>
            dsimp only
            split
            · exact .pure _
            · exact .bind (call_tame h _ _ _) fun _ => .pure _
  | str | num | bool => exact .pure _
  | global | nat | scope => exact failWith_tame _

/-! ## Lists and constructions -/

theorem binaryM_tame (op : BinaryOperator) (l r : Val) : (binaryM h op l r).Follows Tame :=
  onHeap_tame _

theorem unaryM_tame (op : UnaryOperator) (v : Val) : (unaryM h op v).Follows Tame := by
  cases op with
  | logicalNot | void => exact .pure _
  | unaryNegation | unaryPlus | bitwiseNot => exact .bind (numM_tame h v) fun _ => .pure _
  | typeof => exact .bind (onHeap_tame _) fun _ => .pure _
  | delete => exact failWith_tame _

theorem listOf_tame (v : Val) : (listOf h v).Follows Tame := by
  cases v with
  | undef | null => exact .pure _
  | obj id =>
      refine .bind (cellM_tame id) fun o => ?_
      cases o with
      | arr => exact .pure _
      | plain props =>
          dsimp only
          split
          · split
            · exact .mapM (fun i => getProp_tame h _ _) _
            · exact failWith_tame _
          · exact failWith_tame _
      | _ => exact failWith_tame _
  | _ => exact typeError_tame _

theorem newArray_tame (args : List Val) : (newArray args).Follows Tame := by
  unfold newArray
  split
  · split
    · exact failWith_tame _
    · exact alloc_tame rfl
  · exact alloc_tame rfl

theorem newError_tame (name : String) (args : List Val) : (newError h name args).Follows Tame := by
  unfold newError
  split
  · exact alloc_tame rfl
  · exact alloc_tame rfl
  · exact .bind (onHeap_tame _) fun _ => alloc_tame rfl

theorem construct_tame (f : Val) (args : List Val) : (construct h f args).Follows Tame := by
  unfold construct
  split
  · exact newArray_tame args
  · exact alloc_tame rfl
  · exact newError_tame h _ args
  · exact newError_tame h _ args
  · exact h.build_tame _ args
  · exact h.build_tame _ args
  · exact failWith_tame _
  · exact failWith_tame _
  · exact failWith_tame _
  · exact failWith_tame _
  · refine .bind (cellM_tame _) fun o => ?_
    split
    · exact .bind (alloc_tame rfl) fun this => .bind (call_tame h _ _ _) fun _ => .pure _
    · exact call_tame h _ _ _
    · exact typeError_tame _
  · exact typeError_tame _

theorem runtimeValue_tame (r : Runtime) : (runtimeValue h r).Follows Tame := by
  unfold runtimeValue
  split
  · exact .pure _
  · split
    · exact failWith_tame _
    · refine .bind .get fun m => ?_
      split
      · exact .pure _
      · exact .bind opaqueObj_tame fun v => .bind (.modify fun m => tame_beside rfl) fun _ => .pure v

theorem nameM_tame (name : String) : (nameM h name).Follows Tame := known_tame h _ name

theorem objectProps_tame (kvs : List Val) (props : List (String × Val)) :
    (objectProps h kvs props).Follows Tame := by
  fun_induction objectProps h kvs props with
  | case1 k v rest props ih => exact .bind (keyM_tame h k) fun ks => ih ks
  | case2 => exact .pure _

/-! ## Fast paths -/

theorem memberM_tame (o k : Val) : (memberM h o k).Follows Tame := by
  unfold memberM
  split
  · refine .bind (cellM_tame _) fun o => ?_
    split
    · split
      · exact .pure _
      · exact getProp_tame h _ _
    · exact getProp_tame h _ _
  · exact getProp_tame h _ _

theorem newM_tame (f : Val) (args : List Val) : (newM h f args).Follows Tame := by
  unfold newM
  split
  · split
    · exact alloc_tame rfl
    · exact construct_tame h _ _
  · exact construct_tame h _ _

theorem applyM_tame (f t a : Val) : (applyM h f t a).Follows Tame := by
  refine .bind (onHeap_tame _) fun q => ?_
  cases q with
  | some q => exact .request q
  | none => exact .bind (listOf_tame h a) fun args => call_tame h f t args

theorem applyLM_tame (f t th : Val) (items : List Val) : (applyLM h f t th items).Follows Tame := by
  refine .bind (onHeap_tame _) fun closure => ?_
  cases closure with
  | some fid => exact .request _
  | none =>
      exact .bind (alloc_tame rfl) fun inner => .bind (alloc_tame rfl) fun _ => call_tame h _ _ _

theorem arithM_tame (op : BinaryOperator) (l r : Val) : (arithM h op l r).Follows Tame := by
  unfold arithM
  split
  · split
    · exact .pure _
    · exact binaryM_tame h op _ _
  · exact binaryM_tame h op _ _

theorem compareM_tame (op : BinaryOperator) (l : Val) (n : F64) :
    (compareM h op l n).Follows Tame :=
  .bind (binaryM_tame h op _ _) fun _ => .pure _

theorem testM_tame (op : BinaryOperator) (l : Val) (n : F64) : (testM h op l n).Follows Tame := by
  unfold testM
  split
  · exact .pure _
  · exact compareM_tame h op _ n

theorem setPropM_tame (o k v : Val) : (setPropM h o k v).Follows Tame := by
  unfold setPropM
  split
  · refine .bind (cellM_tame _) fun o => ?_
    split
    · split
      · exact setCell_tame _ rfl
      · exact setProp_tame h _ _ v
    · exact setProp_tame h _ _ v
  · exact setProp_tame h _ _ v

end Host
end Interp
end Lunar
