/-
# Generators

`payload/exec.rs`: the built-ins `RegenWrap` and `GenNext`.  The body of a generator is a
function that is called with a context, once for each part that runs, and everything but the
generators themselves (bodies, contexts, scripts) is the surroundings of the two built-ins:
they may do anything before they answer, and use the built-ins again (`machine`).

A generator is marked as done when its body has come to an end.  It is not when the body throws,
so the next call runs the body again (`throw_runs_again`); as long as no call of an unfinished
generator is left by a throw, a finished one stays finished (`finished_stays`).

`calls` and `calm` are no part of the source: the world notes every call of `next`, whether an
earlier one of its generator had ended it, how often it has run the body and how it was left.
-/

import Lunar.Lib.Rely
import Lunar.Lib.System
import Lunar.Payload.Interp.Value

namespace Lunar
namespace Generators

open Interp (Val Err Res truthy)
open Lib (CallM)

def GEN_MAX_RESUMES : ℕ := 100000
def GEN_NEXT : String := "next"
def CTX_SENT : String := "sent"
def CTX_SENT_ALT : String := "_sent"
def CTX_DONE : String := "done"
def CTX_METHOD : String := "method"
def CTX_ARG : String := "arg"

/-! ## The built-ins -/

/-- `Obj::Generator`. -/
structure Generator where
  inner : Val
  this : Val
  ctx : Val
  done : Bool
  deriving DecidableEq

/-- A call of `next`: its generator, whether an earlier call had ended that, how often it has
run the body, and its result. -/
structure Call where
  gen : ℕ
  late : Bool
  ran : ℕ
  exit : Option (Res (Val × Bool))

/-- The call has returned done or has thrown. -/
def Call.ended (c : Call) : Bool :=
  match c.exit with
  | some (.ok (_, done)) => done
  | some (.error (.throw _)) => true
  | _ => false

structure World where
  heap : List (Option Generator)
  calls : List Call
  calm : Bool

/-- What the surroundings are asked for. -/
inductive Request
  | call (f this : Val) (args : List Val)
  | set (o k v : Val)
  | get (o k : Val)

abbrev GenM := CallM World Request (Res Val) Err

namespace World

/-- The generator is marked as done. -/
def doneAt (w : World) (id : ℕ) : Bool :=
  match w.heap[id]? with
  | some (some g) => g.done
  | _ => false

/-- An earlier call has ended the generator. -/
def hasEnded (w : World) (id : ℕ) : Bool := w.calls.any fun c => c.gen = id && c.ended

def add (w : World) (c : Option Generator) : World := { w with heap := w.heap ++ [c] }

/-- The generator is marked as done. -/
def finish (w : World) (id : ℕ) : World :=
  { w with heap := w.heap.modify id (Option.map fun g => { g with done := true }) }

/-- A call begins. -/
def enter (w : World) (id : ℕ) (exit : Option (Res (Val × Bool))) : World :=
  { w with calls := w.calls ++ [⟨id, w.hasEnded id, 0, exit⟩] }

/-- A call runs the body. -/
def run (w : World) (n : ℕ) : World :=
  { w with calls := w.calls.modify n fun c => { c with ran := c.ran + 1 } }

/-- A call is left; by a throw, the run is calm only if the generator is done. -/
def leave (w : World) (n id : ℕ) (r : Res (Val × Bool)) : World :=
  { w with
    calls := w.calls.modify n fun c => { c with exit := some r }
    calm := w.calm && match r with
      | .error (.throw _) => w.doneAt id
      | _ => true }

/-- A call after the end of its generator has not run the body, and has returned undefined with
done true. -/
def StaysFinished (w : World) : Prop :=
  ∀ call ∈ w.calls, call.late = true →
    call.ran = 0 ∧ call.exit = some (.ok (.undef, true))

end World

def alloc (c : Option Generator) : GenM ℕ := modifyGet fun w => (w.heap.length, w.add c)

/-- `type_error`. -/
def typeError {α : Type} : GenM α := do
  let e ← alloc none
  throw (.throw (.obj e))

/-- `self.heap[id]`. -/
def cellM (id : ℕ) : GenM (Option Generator) :=
  CallM.reading fun w =>
    match w.heap[id]? with
    | some c => .ok c
    | none => .error .panic

/-- The loop of `GenNext`: the body runs until it stops for a value. -/
def resume (n id : ℕ) (g : Generator) : ℕ → GenM (Val × Bool)
  | 0 => throw (.fault .budget)
  | left + 1 => do
    modify fun w => w.run n
    let v ← CallM.request (.call g.inner g.this [g.ctx])
    let done := truthy (← CallM.request (.get g.ctx (.str CTX_DONE)))
    if !done && v = .nat .genContinue then resume n id g left
    else do
      if done then modify fun w => w.finish id
      return (if v = .nat .genContinue then .undef else v, done)

/-- `GenNext` on a generator that is not done. -/
def next (n id : ℕ) (g : Generator) (sent : Val) : GenM (Val × Bool) := do
  let _ ← CallM.request (.set g.ctx (.str CTX_METHOD) (.str GEN_NEXT))
  let _ ← CallM.request (.set g.ctx (.str CTX_ARG) sent)
  let _ ← CallM.request (.set g.ctx (.str CTX_SENT) sent)
  let _ ← CallM.request (.set g.ctx (.str CTX_SENT_ALT) sent)
  resume n id g GEN_MAX_RESUMES

/-- `GenNext`; the object it returns holds the value and whether the generator is done. -/
def genNext (this : Val) (args : List Val) : GenM Val := do
  match this with
  | .obj id =>
    match ← cellM id with
    | some g =>
      if g.done then do
        modify fun w => w.enter id (some (.ok (.undef, true)))
        return .obj (← alloc none)
      else do
        let n ← modifyGet fun w => (w.calls.length, w.enter id none)
        let r ← CallM.attempt (next n id g (args.getD 0 .undef))
        modify fun w => w.leave n id r
        match r with
        | .ok _ => return .obj (← alloc none)
        | .error e => throw e
    | none => typeError
  | _ => typeError

/-- `RegenWrap`: the context is an object like any other. -/
def regenWrap (args : List Val) : GenM Val := do
  let ctx ← alloc none
  return .obj (← alloc (some ⟨args.getD 0 .undef, args.getD 2 .undef, .obj ctx, false⟩))

/-! ## The surroundings -/

/-- A use of a built-in. -/
inductive Use
  | next (this : Val) (args : List Val)
  | wrap (args : List Val)

def Use.run : Use → GenM Val
  | .next this args => genNext this args
  | .wrap args => regenWrap args

abbrev Tree := Lib.Calls World Request (Res Val) (Res Val)

/-- The surroundings have control: `frames` are the built-ins that wait for them, the
innermost first.  After a fault nothing runs. -/
structure Config where
  world : World
  frames : List (World → Res Val → Tree)
  aborted : Bool

/-- What the surroundings do: they make an object that is no generator, they use a built-in, or
they answer the innermost one that waits. -/
inductive Action
  | alloc
  | use (u : Use)
  | answer (r : Res Val)

/-- A built-in has run up to its end or its next call. -/
def proceed (frames : List (World → Res Val → Tree)) : Tree → Config
  | .done w (.ok _) | .done w (.error (.throw _)) => ⟨w, frames, false⟩
  | .done w (.error _) => ⟨w, frames, true⟩
  | .call w _ k => ⟨w, k :: frames, false⟩

/-- The generators in their surroundings. -/
def machine : Lib.System Config Action where
  init := ⟨⟨[], [], true⟩, [], false⟩
  step c a :=
    if c.aborted then none
    else
      match a, c.frames with
      | .alloc, frames => some ⟨c.world.add none, frames, false⟩
      | .use u, frames => some (proceed frames (u.run c.world))
      | .answer r, k :: frames => some (proceed frames (k c.world r))
      | .answer _, [] => none

/-! ## A throw does not finish a generator -/

/-- The body of a generator throws, and its next call runs the body again. -/
theorem throw_runs_again : ¬ ∀ c, machine.Reachable c → c.world.StaysFinished := by
  intro h
  let sets : List Action := List.replicate 4 (.answer (.ok .undef))
  have hrun := Lib.System.exists_reachable (m := machine)
    ([.use (.wrap [.obj 7]), .use (.next (.obj 1) [])] ++ sets ++
      [.answer (.error (.throw .null)), .use (.next (.obj 1) [])] ++ sets)
    (P := fun c => c.world.calls.any fun call => call.late && call.ran = 1)
    (by decide +kernel)
  obtain ⟨c, hc, hany⟩ := hrun
  obtain ⟨call, hmem, hcall⟩ := List.any_eq_true.1 hany
  rw [Bool.and_eq_true, decide_eq_true_iff] at hcall
  have := (h c hc call hmem hcall.1).1
  omega

/-! ## Calm runs -/

/-- What holds of a calm run: an ended generator is marked as done, and a call that comes later
has not run the body and has returned undefined with done true. -/
def Inv (w : World) : Prop :=
  w.calm = true → ∀ c ∈ w.calls,
    (c.ended = true → w.doneAt c.gen = true) ∧
    (c.late = true → c.ran = 0 ∧ c.exit = some (.ok (.undef, true)))

/-- The call `n` is one of the generator `id` that was not late. -/
def Own (own : ℕ × ℕ) (w : World) : Prop :=
  ∃ c, w.calls[own.1]? = some c ∧ c.gen = own.2 ∧ (w.calm = true → c.late = false) ∧
    ∃ g, w.heap[own.2]? = some (some g)

/-- What a built-in does by itself. -/
structure Keeps (w w' : World) : Prop where
  calm : w'.calm = true → w.calm = true
  own : ∀ own, Own own w → Own own w'
  done : ∀ id, w.doneAt id = true → w'.doneAt id = true

instance : IsPreorder World Keeps where
  refl w := ⟨id, fun _ h => h, fun _ h => h⟩
  trans w₁ w₂ w₃ h₁ h₂ := ⟨fun h => h₁.calm (h₂.calm h), fun o h => h₂.own o (h₁.own o h),
    fun i h => h₂.done i (h₁.done i h)⟩

theorem doneAt_add (w : World) (c : Option Generator) {id : ℕ} (h : w.doneAt id = true) :
    (w.add c).doneAt id = true := by
  rw [World.doneAt] at h ⊢
  rcases hg : w.heap[id]? with _ | g
  · rw [hg] at h
    cases h
  · rw [hg] at h
    have hlt := (List.getElem?_eq_some_iff.1 hg).1
    rw [World.add, List.getElem?_append_left hlt, hg]
    exact h

theorem add_keeps (w : World) (c : Option Generator) : Keeps w (w.add c) where
  calm h := h
  own o h := by
    obtain ⟨call, hcall, hgen, hlate, g, hg⟩ := h
    refine ⟨call, hcall, hgen, hlate, g, ?_⟩
    rw [World.add, List.getElem?_append_left (List.getElem?_eq_some_iff.1 hg).1, hg]
  done id h := doneAt_add w c h

/-- What leaves the calls alone keeps the invariant. -/
theorem Inv.of_calls {w w' : World} (h : Inv w) (hkeeps : Keeps w w') (hcalls : w'.calls = w.calls) :
    Inv w' := by
  intro hcalm call hcall
  rw [hcalls] at hcall
  obtain ⟨hended, hlate⟩ := h (hkeeps.calm hcalm) call hcall
  exact ⟨fun hend => hkeeps.done _ (hended hend), hlate⟩

theorem doneAt_finish (w : World) (id : ℕ) {i : ℕ} (h : w.doneAt i = true) :
    (w.finish id).doneAt i = true := by
  rw [World.doneAt] at h ⊢
  rw [World.finish, List.getElem?_modify]
  rcases hg : w.heap[i]? with _ | _ | g
  · rw [hg] at h
    cases h
  · rw [hg] at h
    cases h
  · rw [hg] at h
    split_ifs
    · rfl
    · exact h

theorem finish_done {own : ℕ × ℕ} {w : World} (h : Own own w) :
    (w.finish own.2).doneAt own.2 = true := by
  obtain ⟨_, -, -, -, g, hg⟩ := h
  rw [World.doneAt, World.finish, List.getElem?_modify_eq, hg]
  rfl

theorem finish_keeps (w : World) (id : ℕ) : Keeps w (w.finish id) where
  calm h := h
  own o h := by
    obtain ⟨call, hcall, hgen, hlate, g, hg⟩ := h
    refine ⟨call, hcall, hgen, hlate, ?_⟩
    rw [World.finish, List.getElem?_modify, hg]
    split_ifs
    · exact ⟨_, rfl⟩
    · exact ⟨g, rfl⟩
  done i h := doneAt_finish w id h

/-- A call changes its own entry. -/
theorem own_modify {own : ℕ × ℕ} {w : World} {f : Call → Call} (calm : Bool) (n : ℕ)
    (hcalm : calm = true → w.calm = true) (hf : ∀ c, (f c).gen = c.gen ∧ (f c).late = c.late)
    (h : Own own w) : Own own { w with calls := w.calls.modify n f, calm := calm } := by
  obtain ⟨call, hcall, hgen, hlate, hg⟩ := h
  refine ⟨if n = own.1 then f call else call, ?_, ?_, fun h => ?_, hg⟩
  · rw [List.getElem?_modify, hcall]
    split_ifs
    · rfl
    · rfl
  · split_ifs
    · exact (hf call).1.trans hgen
    · exact hgen
  · split_ifs
    · exact (hf call).2.trans (hlate (hcalm h))
    · exact hlate (hcalm h)

theorem run_keeps (w : World) (n : ℕ) : Keeps w (w.run n) where
  calm h := h
  own o ho := own_modify w.calm n id (fun _ => ⟨rfl, rfl⟩) ho
  done _ h := h

theorem leave_calm {w : World} {n id : ℕ} {r : Res (Val × Bool)}
    (h : (w.leave n id r).calm = true) :
    w.calm = true ∧ ∀ e, r = .error (.throw e) → w.doneAt id = true := by
  refine ⟨(Bool.and_eq_true_iff.1 h).1, ?_⟩
  rintro e rfl
  exact (Bool.and_eq_true_iff.1 h).2

theorem leave_keeps (w : World) (n id : ℕ) (r : Res (Val × Bool)) : Keeps w (w.leave n id r) where
  calm h := (leave_calm h).1
  own o ho := own_modify _ n (fun h => (leave_calm (n := n) h).1) (fun _ => ⟨rfl, rfl⟩) ho
  done _ h := h

theorem enter_keeps (w : World) (id : ℕ) (exit : Option (Res (Val × Bool))) :
    Keeps w (w.enter id exit) where
  calm h := h
  own o h := by
    obtain ⟨call, hcall, hrest⟩ := h
    refine ⟨call, ?_, hrest⟩
    rw [World.enter, List.getElem?_append_left (List.getElem?_eq_some_iff.1 hcall).1, hcall]
  done _ h := h

/-- An entry after a change of one. -/
theorem mem_modify {calls : List Call} {n : ℕ} {f : Call → Call} {c : Call}
    (h : c ∈ calls.modify n f) : c ∈ calls ∨ ∃ c', calls[n]? = some c' ∧ c = f c' := by
  obtain ⟨i, hi⟩ := List.mem_iff_getElem?.1 h
  rw [List.getElem?_modify] at hi
  rcases hc : calls[i]? with _ | c'
  · rw [hc] at hi
    cases hi
  · rw [hc] at hi
    split_ifs at hi with hin
    · subst hin
      exact Or.inr ⟨c', hc, (Option.some.inj hi).symm⟩
    · exact Or.inl (List.mem_of_getElem? (hc.trans hi))

/-- A call that was not late may run the body. -/
theorem Inv.run {own : ℕ × ℕ} {w : World} (h : Inv w) (hown : Own own w) : Inv (w.run own.1) := by
  intro hcalm call hcall
  obtain ⟨c, hc, -, hlate, -⟩ := hown
  rcases mem_modify hcall with hmem | ⟨c', hc', rfl⟩
  · exact h hcalm call hmem
  · obtain rfl := Option.some.inj (hc.symm.trans hc')
    refine ⟨(h hcalm c (List.mem_of_getElem? hc)).1, fun hl => ?_⟩
    exact absurd ((hlate hcalm).symm.trans hl) Bool.false_ne_true

/-- A call that was not late may be left, with done only when the generator is marked. -/
theorem Inv.leave {own : ℕ × ℕ} {w : World} (h : Inv w) (hown : Own own w)
    {r : Res (Val × Bool)} (hr : ∀ v, r = .ok (v, true) → w.doneAt own.2 = true) :
    Inv (w.leave own.1 own.2 r) := by
  intro hcalm call hcall
  obtain ⟨hcalm, hthrow⟩ := leave_calm hcalm
  obtain ⟨c, hc, hgen, hlate, -⟩ := hown
  rcases mem_modify hcall with hmem | ⟨c', hc', rfl⟩
  · exact h hcalm call hmem
  · obtain rfl := Option.some.inj (hc.symm.trans hc')
    refine ⟨fun hend => ?_, fun hl => absurd ((hlate hcalm).symm.trans hl) Bool.false_ne_true⟩
    change w.doneAt c.gen = true
    rw [hgen]
    match r, hend with
    | .ok (v, true), _ => exact hr v rfl
    | .error (.throw e), _ => exact hthrow e rfl

/-- No earlier call has ended a generator that is not marked. -/
theorem Inv.not_hasEnded {w : World} (h : Inv w) (hcalm : w.calm = true) {id : ℕ}
    (hdone : w.doneAt id = false) : w.hasEnded id = false := by
  rw [World.hasEnded, List.any_eq_false]
  intro c hc hend
  rw [Bool.and_eq_true, decide_eq_true_iff] at hend
  have := (h hcalm c hc).1 hend.2
  rw [hend.1, hdone] at this
  cases this

/-- A call of a marked generator returns at once. -/
theorem Inv.enter_done {w : World} (h : Inv w) {id : ℕ} (hdone : w.doneAt id = true) :
    Inv (w.enter id (some (.ok (.undef, true)))) := by
  intro hcalm call hcall
  rcases List.mem_append.1 hcall with hmem | hmem
  · exact h hcalm call hmem
  · obtain rfl := List.mem_singleton.1 hmem
    exact ⟨fun _ => hdone, fun _ => ⟨rfl, rfl⟩⟩

/-- A call of another one is not late. -/
theorem Inv.enter {w : World} (h : Inv w) {id : ℕ} {g : Generator}
    (hg : w.heap[id]? = some (some g)) (hdone : w.doneAt id = false) :
    Inv (w.enter id none) ∧ Own (w.calls.length, id) (w.enter id none) := by
  refine ⟨fun hcalm call hcall => ?_, ⟨id, w.hasEnded id, 0, none⟩, ?_, rfl,
    fun hcalm => h.not_hasEnded hcalm hdone, g, hg⟩
  · rcases List.mem_append.1 hcall with hmem | hmem
    · exact h hcalm call hmem
    · obtain rfl := List.mem_singleton.1 hmem
      refine ⟨nofun, fun hlate => ?_⟩
      exact absurd ((h.not_hasEnded hcalm hdone).symm.trans hlate) Bool.false_ne_true
  · rw [World.enter, List.getElem?_append_right le_rfl, Nat.sub_self]
    rfl

/-! ## The built-ins keep the invariant -/

/-- What holds while a call waits. -/
def Waits (own : ℕ × ℕ) (w : World) : Prop := Inv w ∧ Own own w

/-- What holds when the body has stopped. -/
def Stopped (own : ℕ × ℕ) (w : World) (r : Res (Val × Bool)) : Prop :=
  Waits own w ∧ ∀ v, r = .ok (v, true) → w.doneAt own.2 = true

theorem request_spec (own : ℕ × ℕ) (q : Request) :
    CallM.Triple Keeps Waits (Waits own) (CallM.request q : GenM Val) fun w _ => Waits own w :=
  CallM.Triple.request fun _ h => ⟨own, h, fun _ _ h' => h'⟩

/-- **The loop**, by the resumptions left. -/
theorem resume_spec (own : ℕ × ℕ) (g : Generator) (left : ℕ) :
    CallM.Triple Keeps Waits (Waits own) (resume own.1 own.2 g left) (Stopped own) := by
  induction left with
  | zero => exact CallM.Triple.throw fun w h => ⟨h, nofun⟩
  | succ left ih =>
      rw [resume]
      refine CallM.Triple.bind (M := fun w _ => Waits own w)
        (CallM.Triple.modify (fun w _ => run_keeps w own.1)
          fun w h => ⟨h.1.run h.2, (run_keeps w own.1).own own h.2⟩) (fun _ => ?_)
        fun w e h => ⟨h, nofun⟩
      refine CallM.Triple.bind (request_spec own _) (fun v => ?_) fun w e h => ⟨h, nofun⟩
      refine CallM.Triple.bind (request_spec own _) (fun d => ?_) fun w e h => ⟨h, nofun⟩
      dsimp only
      by_cases hgo : (!truthy d && decide (v = .nat .genContinue)) = true
      · rw [if_pos hgo]
        exact ih
      rw [if_neg hgo]
      by_cases hdone : truthy d = true
      · rw [if_pos hdone]
        refine CallM.Triple.bind
          (M := fun w _ => Waits own w ∧ w.doneAt own.2 = true)
          (CallM.Triple.modify (fun w _ => finish_keeps w own.2) fun w h => ?_)
          (fun _ => CallM.Triple.pure fun _ h => ⟨h.1, fun _ _ => h.2⟩)
          fun _ _ h => ⟨h.1, nofun⟩
        exact ⟨⟨h.1.of_calls (finish_keeps w own.2) rfl, (finish_keeps w own.2).own own h.2⟩,
          finish_done h.2⟩
      · rw [if_neg hdone]
        refine CallM.Triple.pure fun w h => ⟨h, fun x hx => ?_⟩
        injection hx with hx
        injection hx with _ hx
        exact absurd hx hdone

theorem next_spec (own : ℕ × ℕ) (g : Generator) (sent : Val) :
    CallM.Triple Keeps Waits (Waits own) (next own.1 own.2 g sent) (Stopped own) := by
  rw [next]
  iterate 4
    refine CallM.Triple.bind (request_spec own _) (fun _ => ?_) fun w e h => ⟨h, nofun⟩
  exact resume_spec own g GEN_MAX_RESUMES

theorem alloc_spec (c : Option Generator) :
    CallM.Triple Keeps Waits Inv (alloc c) fun w _ => Inv w :=
  CallM.Triple.modifyGet (fun w _ => add_keeps w c) fun w h => h.of_calls (add_keeps w c) rfl

theorem typeError_spec {α : Type} :
    CallM.Triple Keeps Waits Inv (typeError : GenM α) fun w _ => Inv w :=
  CallM.Triple.bind (alloc_spec none) (fun _ => CallM.Triple.throw fun _ h => h) fun _ _ h => h

theorem result_spec :
    CallM.Triple Keeps Waits Inv (do return .obj (← alloc none) : GenM Val) fun w _ => Inv w :=
  CallM.Triple.bind (alloc_spec none) (fun _ => CallM.Triple.pure fun _ h => h) fun _ _ h => h

/-- What a look at the heap shows. -/
def Shows (id : ℕ) (w : World) : Res (Option Generator) → Prop
  | .ok c => Inv w ∧ w.heap[id]? = some c
  | .error _ => Inv w

theorem cellM_spec (id : ℕ) : CallM.Triple Keeps Waits Inv (cellM id) (Shows id) := by
  refine CallM.Triple.reading fun w h => ?_
  rcases hc : w.heap[id]? with _ | c
  · exact h
  · exact ⟨h, hc⟩

/-- **`GenNext` keeps the invariant.** -/
theorem genNext_spec (this : Val) (args : List Val) :
    CallM.Triple Keeps Waits Inv (genNext this args) fun w _ => Inv w := by
  cases this with
  | obj id =>
      refine CallM.Triple.bind (cellM_spec id) (fun c => ?_) fun _ _ h => h
      cases c with
      | none => exact typeError_spec.imp (fun _ h => h.1) fun _ _ h => h
      | some g =>
          dsimp only
          by_cases hdone : g.done = true
          · rw [if_pos hdone]
            refine CallM.Triple.bind (M := fun w _ => Inv w)
              (CallM.Triple.modify (fun w _ => enter_keeps w id _) fun w h => ?_)
              (fun _ => result_spec) fun _ _ h => h
            refine h.1.enter_done ?_
            rw [World.doneAt, h.2]
            exact hdone
          · rw [if_neg hdone]
            refine CallM.Triple.bind
              (M := fun w r => ∃ n, r = .ok n ∧ Waits (n, id) w)
              (CallM.Triple.modifyGet (fun w _ => enter_keeps w id none) fun w h => ?_)
              (fun n => ?_) fun _ _ h => ?_
            · have hnot : w.doneAt id = false := by
                rw [World.doneAt, h.2]
                exact Bool.eq_false_iff.2 hdone
              exact ⟨_, rfl, h.1.enter h.2 hnot⟩
            · refine CallM.Triple.bind (M := fun w r => ∃ s, r = .ok s ∧ Stopped (n, id) w s)
                (CallM.Triple.attempt ((next_spec (n, id) g _).imp (fun w h => ?_)
                  fun _ r h => ⟨r, rfl, h⟩)) (fun s => ?_) fun _ _ h => ?_
              · obtain ⟨m, hm, hwaits⟩ := h
                obtain rfl := Except.ok.inj hm
                exact hwaits
              · refine CallM.Triple.bind (M := fun w _ => Inv w)
                  (CallM.Triple.modify (fun w _ => leave_keeps w n id s) fun w h => ?_)
                  (fun _ => ?_) fun _ _ h => h
                · obtain ⟨s', hs, ⟨hinv, hown⟩, hdone⟩ := h
                  obtain rfl := Except.ok.inj hs
                  exact hinv.leave hown hdone
                · cases s with
                  | ok _ => exact result_spec
                  | error _ => exact CallM.Triple.throw fun _ h => h
              · obtain ⟨_, hs, -⟩ := h
                cases hs
            · obtain ⟨_, hn, -⟩ := h
              cases hn
  | _ => exact typeError_spec

theorem regenWrap_spec (args : List Val) :
    CallM.Triple Keeps Waits Inv (regenWrap args) fun w _ => Inv w :=
  CallM.Triple.bind (alloc_spec none)
    (fun _ => CallM.Triple.bind (alloc_spec _) (fun _ => CallM.Triple.pure fun _ h => h)
      fun _ _ h => h) fun _ _ h => h

theorem use_spec (u : Use) : CallM.Triple Keeps Waits Inv u.run fun w _ => Inv w := by
  cases u with
  | next this args => exact genNext_spec this args
  | wrap args => exact regenWrap_spec args

/-! ## Runs -/

/-- A built-in that waits goes on as it should while its call is there. -/
def Resumes (w : World) (k : World → Res Val → Tree) : Prop :=
  ∃ own, Own own w ∧ ∀ u r, Waits own u → (k u r).Meets Keeps Waits (fun u _ => Inv u) u

/-- What holds in every state of a run. -/
def Safe (c : Config) : Prop := Inv c.world ∧ ∀ k ∈ c.frames, Resumes c.world k

theorem Resumes.keeps {w w' : World} {k : World → Res Val → Tree} (h : Resumes w k)
    (hkeeps : Keeps w w') : Resumes w' k := by
  obtain ⟨own, hown, hk⟩ := h
  exact ⟨own, hkeeps.own own hown, hk⟩

theorem proceed_safe {w : World} {frames : List (World → Res Val → Tree)} {t : Tree}
    (ht : t.Meets Keeps Waits (fun u _ => Inv u) w) (hframes : ∀ k ∈ frames, Resumes w k) :
    Safe (proceed frames t) := by
  match t with
  | .done w' (.ok _) | .done w' (.error (.throw _)) | .done w' (.error (.fault _))
  | .done w' (.error .panic) => exact ⟨ht.2, fun k hk => (hframes k hk).keeps ht.1⟩
  | .call w' i k =>
      obtain ⟨hkeeps, own, ⟨hinv, hown⟩, hk⟩ := ht
      refine ⟨hinv, List.forall_mem_cons.2 ⟨⟨own, hown, hk⟩, fun k hk => ?_⟩⟩
      exact (hframes k hk).keeps hkeeps

/-- **One step** of the surroundings, with all that a built-in then does. -/
theorem step_safe {c c' : Config} {a : Action} (h : machine.step c a = some c') (hc : Safe c) :
    Safe c' := by
  obtain ⟨hinv, hframes⟩ := hc
  rw [machine] at h
  dsimp only at h
  split at h
  · cases h
  split at h
  · cases h
    exact ⟨hinv.of_calls (add_keeps _ none) rfl, fun k hk => (hframes k hk).keeps (add_keeps _ none)⟩
  · cases h
    exact proceed_safe (use_spec _ _ hinv) hframes
  case h_3 r k frames heq =>
    cases h
    rw [heq] at hframes
    obtain ⟨⟨own, hown, hk⟩, hframes⟩ := List.forall_mem_cons.1 hframes
    exact proceed_safe (hk _ r ⟨hinv, hown⟩) hframes
  · cases h

/-- **Finished generators stay finished** in every run in which no call of an unfinished
generator is left by a throw: a call of `next` that comes after one that returned done or threw
has not run the body, and has returned undefined with done true. -/
theorem finished_stays (c : Config) (hc : machine.Reachable c) (hcalm : c.world.calm = true) :
    c.world.StaysFinished := by
  have hinit : Safe machine.init := ⟨fun _ _ h => (List.not_mem_nil h).elim, nofun⟩
  have hsafe := hc.invariant hinit fun s a t _ hs ht => step_safe ht hs
  exact fun call hcall => (hsafe.1 hcalm call hcall).2

/-- A body calls `next` of its own generator, which ends it, and the script calls it again. -/
theorem finished_stays_reentrant : ∃ c, machine.Reachable c ∧
    (c.world.calm = true ∧ (c.world.calls.map fun call => (call.late, call.ran)) =
      [(false, 1), (false, 1), (true, 0)]) ∧ c.world.StaysFinished := by
  let sets : List Action := List.replicate 4 (.answer (.ok .undef))
  have hrun := Lib.System.exists_reachable (m := machine)
    ([.use (.wrap [.obj 7]), .use (.next (.obj 1) [])] ++ sets ++ [.use (.next (.obj 1) [])] ++
      sets ++ [.answer (.ok .null), .answer (.ok (.bool true)), .use (.next (.obj 1) [])])
    (P := fun c => c.world.calm = true ∧ (c.world.calls.map fun call => (call.late, call.ran)) =
      [(false, 1), (false, 1), (true, 0)])
    (by decide +kernel)
  obtain ⟨c, hc, hend⟩ := hrun
  exact ⟨c, hc, hend, finished_stays c hc hend.1⟩

end Generators
end Lunar
