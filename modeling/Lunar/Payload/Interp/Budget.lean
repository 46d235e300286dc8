/-
# The budget of steps

`payload/exec.rs`: `tick`, `run`, `exec` and `ops`.  `Jump`, `J`, `Br`, `BrK` and `BrVarK` count a
step of a bounded budget, and no other transfer does: not the conditional jumps inside of a
statement, which the optimiser may lead on through a jump backwards, and not those to a handler.

A run in which no activation goes back without a step counted comes to an end (`run_ends`).  Three
things together bound it: calls nest only so deep (`enters`), steps only count up, from the start of
a call to its end (`Later`), and between two of them an activation goes on through its code
(`ending_ops`).
-/

import Lunar.Lib.Ending
import Lunar.Payload.Interp.Scopes

namespace Lunar
namespace Interp

open Exec (Op)
open Devirt (Func)
open Lib (Comes Finishes)
open Lib.CallM (Follows bind_done bind_error)

/-- The ops that count a step. -/
def ticks : Op → Bool
  | .j _ | .jump _ | .br .. | .brK .. | .brVarK .. => true
  | _ => false

/-- The activation goes on later in the code, unless the op has counted a step. -/
def onwards (f : CFunc) (a : Act) : Ctl → Bool
  | .ops _ a' => (f.ops[a.ip]?).any ticks || decide (a.ip < a'.ip)
  | _ => true

/-- Nothing panics, and no activation goes back without a step counted. -/
def Config.goesOn (p : Program) (c : Config) : Bool :=
  match c.ctl with
  | .crash | .eval none (.done _ (.error .panic)) => false
  | .eval (some a) (.done s r) =>
      (s.cfuncs[a.cf]?).any fun f => onwards f a (finished p s f a r)
  | _ => true

/-- The host has got a value, a throw or a fault. -/
def Config.answered (c : Config) : Prop :=
  c.tasks = [] ∧ ∃ s r, c.ctl = .idle s r ∧ r ≠ .error .panic ∧ ∀ ip, r ≠ .ok (.go ip)

/-! ## Steps count up -/

/-- A later state, with `n` frames: steps count up, and functions stay compiled. -/
structure Later (n : ℕ) (s s' : State) : Prop where
  steps : s.steps ≤ s'.steps
  cfuncs : s.cfuncs <+: s'.cfuncs
  frames : s'.frames.length = n

/-- What a computation ends with. -/
def Results (P : Res Next → Prop) : Tree → Prop
  | .done _ r => P r
  | .call _ _ k => ∀ s r, Results P (k s r)

/-- All states of a computation are later than `s`, as long as what it calls leaves one that is. -/
def Lasts (n : ℕ) (s : State) : Tree → Prop
  | .done s' _ => Later n s s'
  | .call s' _ k => Later n s s' ∧ ∀ u r, Later n s u → Lasts n s (k u r)

section State

variable {n m : ℕ} {s s' s'' : State} {own : Option ℕ}

theorem Later.trans (h : Later m s s') (h' : Later n s' s'') : Later n s s'' :=
  ⟨h.steps.trans h'.steps, h.cfuncs.trans h'.cfuncs, h'.frames⟩

theorem later_self (h : s.frames.length = n) : Later n s s := ⟨le_rfl, List.prefix_rfl, h⟩

theorem Later.mild (h : Later n s s') (h' : Mild own s' s'') : Later n s s'' :=
  ⟨h.steps.trans h'.steps, h'.cfuncs ▸ h.cfuncs, h'.frames.trans h.frames⟩

theorem Later.lasts (h : Later n s s') {t : Tree} (ht : t.Follows (Mild own) s') :
    Lasts n s t := by
  induction t generalizing s' with
  | done u r => exact h.mild ht
  | call u q k ih => exact ⟨h.mild ht.1, fun u r hu => ih u r hu (ht.2 u r)⟩

theorem results_any (t : Tree) : Results (fun _ => True) t := by
  induction t with
  | done s r => trivial
  | call s q k ih => exact ih

/-- The host comes to no place of the code. -/
theorem results_host (x : MemM Val) (s : State) :
    Results (fun r => ∀ ip, r ≠ .ok (.go ip)) (hostTree x s) := by
  change Results _ ((onMem x s).bind _)
  generalize onMem x s = t
  induction t with
  | done s r => cases r <;> exact nofun
  | call s q k ih => exact ih

/-! ## Ops that count -/

/-- The computation fails without a throw, or it has counted a step that the budget allows. -/
def Counts (s : State) (t : Tree) : Prop :=
  (∃ s' e, t = .done s' (.error e) ∧ Mild none s s' ∧ ∀ v, e ≠ .throw v) ∨
    ∃ s', Mild none s s' ∧ s.steps < s'.steps ∧ s'.steps ≤ MAX_STEPS ∧ t.Follows (Mild none) s'

theorem mild_tick : Mild own s { s with steps := s.steps + 1 } :=
  ⟨rfl, rfl, rfl, rfl, rfl, rfl, rfl, Nat.le_succ _, fun _ _ _ _ hc => .inl ⟨hc, rfl⟩⟩

theorem tick_counts {x : Unit → OpM Next} (hx : (x ()).Follows (Mild none)) :
    Counts s ((tick >>= x) s) := by
  by_cases hmax : MAX_STEPS < s.steps + 1
  · refine .inl ⟨_, .fault .budget, bind_error ?_, mild_tick, nofun⟩
    exact congrArg _ (if_pos hmax)
  · refine .inr ⟨_, mild_tick, Nat.lt_succ_self _, Nat.not_lt.1 hmax, ?_⟩
    have htick : tick s = .done { s with steps := s.steps + 1 } (.ok ()) :=
      congrArg _ (if_neg hmax)
    rw [bind_done htick]
    exact hx _

/-- What comes before the count reads the state. -/
theorem Counts.after {α : Type} {g : State → Res α} (hg : ∀ v, g s ≠ .error (.throw v))
    {x : α → OpM Next} (hx : ∀ a, Counts s (x a s)) : Counts s ((ask g >>= x) s) := by
  cases hr : g s with
  | ok a =>
      rw [bind_done (congrArg (Lib.Calls.done s) hr)]
      exact hx a
  | error e =>
      refine .inl ⟨s, e, bind_error (congrArg (Lib.Calls.done s) hr), refl_of (Mild none) s, ?_⟩
      exact fun v hv => hg v (hr.trans (congrArg _ hv))

theorem pcOf_throws (x v : Val) : pcOf x ≠ .error (.throw v) := by
  cases x with
  | num n =>
      rw [pcOf]
      split <;> exact nofun
  | _ => exact nofun

end State

section Program

variable {p : Program} {n : ℕ} {s s₀ : State} {f : CFunc} {a : Act} {tasks : List Task}

theorem execOp_counts {op : Op} (hop : ticks op = true) : Counts s (execOp p f a op s) := by
  cases op with
  | j tgt => exact tick_counts (.pure _)
  | br c thn els => exact tick_counts (.bind (ask_mild _) fun _ => .pure _)
  | brK x op n when thn els =>
      refine tick_counts (.bind (ask_mild _) fun _ => .bind (onMem_mild ?_) fun _ => .pure _)
      exact testM_tame _ _ _ _
  | brVarK hops slot key op n when thn els =>
      exact tick_counts (.bind (testVar_mild p _ _ _ _ _ _) fun _ => .pure _)
  | jump v =>
      have hrest (x : Val) : Counts s ((ask (fun _ => pcOf x) >>= fun pc => tick >>= fun _ =>
          ask (fun _ => f.ipOf pc) >>= fun ip => pure (.go ip)) s) :=
        .after (pcOf_throws x) fun pc => tick_counts (.bind (ask_mild _) fun _ => .pure _)
      exact hrest (s.stack (a.fb + v))
  | _ => cases hop

/-! ## The end of a run -/

/-- A run without panics and without silent ways back comes to an answer. -/
def Ending (p : Program) : Config → Prop :=
  Finishes (Config.next p) (fun c => c.goesOn p = true) Config.answered

/-- What waits for a call comes to an end, however the call ends. -/
def Returns (p : Program) (n : ℕ) (s : State) (tasks : List Task) : Prop :=
  ∀ s' r, Later n s s' → Ending p ⟨.back s' r, tasks⟩

/-- Calls from `n` frames come to an end. -/
def Enters (p : Program) (n : ℕ) : Prop :=
  ∀ s q tasks, s.frames.length = n → Returns p n s tasks → Ending p ⟨enter p s q, tasks⟩

theorem ending_crash : Ending p ⟨.crash, tasks⟩ := .of_not nofun

theorem Returns.later {m : ℕ} (h : Returns p n s₀ tasks) (hs : Later m s₀ s) :
    Returns p n s tasks :=
  fun u r hu => h u r (hs.trans hu)

/-- **A computation** comes to an end when its calls do, and what comes after it. -/
theorem ending_eval (hcalls : Enters p n) {who : Option Act} {P : Res Next → Prop} {t : Tree}
    (ht : Lasts n s t) (hP : Results P t)
    (hdone : ∀ s' r, Later n s s' → P r → Ending p ⟨.eval who (.done s' r), tasks⟩) :
    Ending p ⟨.eval who t, tasks⟩ := by
  induction t with
  | done s' r => exact hdone s' r ht hP
  | call s' q k ih =>
      obtain ⟨hs', hk⟩ := ht
      refine .step (by cases who <;> rfl) fun _ => hcalls s' q (⟨who, k⟩ :: tasks) hs'.frames ?_
      intro u r hu
      exact .step rfl fun _ => ih u r (hk u r (hs'.trans hu)) (hP u r)

theorem leave_later (h : Later (n + 1) s₀ s) : Later n s₀ (leave s f a) := by
  have hframes : s.frames.tail.length = n := by rw [List.length_tail, h.frames, Nat.add_sub_cancel]
  rw [leave]
  split
  · exact ⟨h.steps, h.cfuncs, hframes⟩
  · exact ⟨h.steps, h.cfuncs, hframes⟩

/-- How an activation goes on after an op. -/
theorem finished_cases (r : Res Next) : finished p s f a r = .crash ∨
    (∃ r', finished p s f a r = .back (leave s f a) r') ∨
    ∃ s' ip, finished p s f a r = .ops s' { a with ip := ip } ∧ Mild none s s' := by
  match r with
  | .ok (.go ip) => exact .inr (.inr ⟨s, ip, rfl, refl_of (Mild none) s⟩)
  | .ok (.ret v) => exact .inr (.inl ⟨_, rfl⟩)
  | .error .panic => exact .inl rfl
  | .error (.fault e) => exact .inr (.inl ⟨_, rfl⟩)
  | .error (.throw v) =>
      change caught p s f a v = _ ∨ (∃ r', caught p s f a v = _) ∨
        ∃ s' ip, caught p s f a v = _ ∧ _
      unfold caught
      split
      · exact .inl rfl
      · exact .inr (.inl ⟨_, rfl⟩)
      · exact .inr (.inl ⟨_, rfl⟩)
      · exact .inr (.inr ⟨_, _, rfl, noteExc_mild v⟩)

/-- **The end of an op**, after which the activation may go on. -/
theorem ending_finished (hf : s.cfuncs[a.cf]? = some f) (hs : Later (n + 1) s₀ s)
    (hret : Returns p n s₀ tasks) (r : Res Next) (hops : ∀ s' ip,
      finished p s f a r = .ops s' { a with ip := ip } → Mild none s s' →
        (f.ops[a.ip]?).any ticks = true ∨ a.ip < ip →
          Ending p ⟨.ops s' { a with ip := ip }, tasks⟩) :
    Ending p ⟨.eval (some a) (.done s r), tasks⟩ := by
  have hnext : Config.next p ⟨.eval (some a) (.done s r), tasks⟩ =
      some ⟨finished p s f a r, tasks⟩ := by
    rw [Config.next]
    dsimp only
    rw [hf]
  refine .step hnext fun hgo => ?_
  rw [Config.goesOn] at hgo
  dsimp only at hgo
  rw [hf, Option.any_some] at hgo
  rcases finished_cases (p := p) (s := s) (f := f) (a := a) r with
    h | ⟨r', h⟩ | ⟨s', ip, h, hmild⟩
  · rw [h]
    exact ending_crash
  · rw [h]
    exact hret _ _ (leave_later hs)
  · rw [h] at hgo ⊢
    rcases Bool.or_eq_true_iff.1 hgo with hgo | hgo
    · exact hops s' ip h hmild (.inl hgo)
    · exact hops s' ip h hmild (.inr (of_decide_eq_true hgo))

/-- **An activation** comes to an end: an op counts a step, or the next one comes later in the
code. -/
theorem ending_ops {s : State} {a : Act} (hcalls : Enters p (n + 1)) (hf : s.cfuncs[a.cf]? = some f)
    (hframes : s.frames.length = n + 1) (hret : Returns p n s tasks) :
    Ending p ⟨.ops s a, tasks⟩ := by
  have hself := later_self hframes
  cases hop : f.ops[a.ip]? with
  | none =>
      refine .step (t := ⟨.crash, tasks⟩) ?_ fun _ => ending_crash
      rw [Config.next]
      dsimp only
      rw [hf]
      dsimp only
      rw [hop]
  | some op =>
      refine .step (t := ⟨.eval (some a) (execOp p f a op s), tasks⟩) ?_ fun _ => ?_
      · rw [Config.next]
        dsimp only
        rw [hf]
        dsimp only
        rw [hop]
      have hlt : a.ip < f.ops.length := Lib.lt_of_getElem? hop
      by_cases htick : ticks op = true
      · rcases execOp_counts (s := s) (p := p) (f := f) (a := a) htick with
          ⟨s', e, heq, hmild, hthrow⟩ | ⟨s₁, hmild, hless, hmax, hfollows⟩
        · rw [heq]
          have hs' := hself.mild hmild
          have hf' := Lib.getElem?_of_prefix hs'.cfuncs hf
          refine ending_finished hf' hs' hret _ fun s'' ip hops => ?_
          cases e with
          | throw v => exact absurd rfl (hthrow v)
          | panic => cases hops
          | fault e => cases hops
        · have hs₁ := hself.mild hmild
          refine ending_eval hcalls ((later_self hs₁.frames).lasts hfollows) (results_any _) ?_
          intro s' r hs' _
          have hf' := Lib.getElem?_of_prefix (hs₁.trans hs').cfuncs hf
          refine ending_finished hf' (hs₁.trans hs') hret r fun s'' ip _ hmild' _ => ?_
          have hs'' := (hs₁.trans hs').mild hmild'
          have hsteps := (hs'.mild hmild').steps
          exact ending_ops hcalls (Lib.getElem?_of_prefix hs''.cfuncs hf) hs''.frames
            (hret.later hs'')
      · refine ending_eval hcalls (hself.lasts (execOp_mild p f a op s)) (results_any _) ?_
        intro s' r hs' _
        have hf' := Lib.getElem?_of_prefix hs'.cfuncs hf
        refine ending_finished hf' hs' hret r fun s'' ip _ hmild hgo => ?_
        have hs'' := hs'.mild hmild
        have hsteps := hs''.steps
        have hip : a.ip < ip := by
          rcases hgo with hgo | hgo
          · rw [hop] at hgo
            exact absurd hgo htick
          · exact hgo
        exact ending_ops hcalls (Lib.getElem?_of_prefix hs''.cfuncs hf) hs''.frames
          (hret.later hs'')
termination_by (MAX_STEPS - s.steps, f.ops.length - a.ip)
decreasing_by
  · exact Prod.Lex.left _ _ (by omega)
  · exact Prod.Lex.right' _ (by omega) (Nat.sub_lt_sub_left hlt hip)

theorem compile_later {entry id : ℕ} {parent : Option ℕ} {s' : State}
    (h : compile p s entry parent = .ok (id, s')) : Later s.frames.length s s' := by
  unfold compile at h
  split at h
  · cases h
    exact later_self rfl
  · split at h
    · cases h
    · obtain ⟨⟨cf, ids⟩, -, h⟩ := Lib.bind_ok h
      cases h
      exact ⟨le_rfl, List.prefix_append _ _, rfl⟩

theorem noteCode_later (id fn : ℕ) : Later s.frames.length s (noteCode id s fn) := by
  rw [noteCode]
  split
  · exact ⟨le_rfl, List.prefix_rfl, rfl⟩
  · exact later_self rfl

theorem codeOf_later {fn entry scope id : ℕ} {code : Option ℕ} {s' : State}
    (h : codeOf p s fn entry scope code = .ok (id, s')) : Later s.frames.length s s' := by
  unfold codeOf at h
  split at h
  · cases h
    exact later_self rfl
  · obtain ⟨sc, -, h⟩ := Lib.bind_ok h
    obtain ⟨⟨id', s₁⟩, hcompile, h⟩ := Lib.bind_ok h
    cases h
    have hs₁ := compile_later hcompile
    exact hs₁.trans (hs₁.frames ▸ noteCode_later _ _)

theorem pushed_later (id parent : ℕ) (q : Request) :
    Later (s.frames.length + 1) s (pushed s f id parent q) := by
  rw [pushed, argArray]
  split
  · exact ⟨le_rfl, List.prefix_rfl, rfl⟩
  · exact ⟨le_rfl, List.prefix_rfl, rfl⟩

theorem pushed_cfunc {id : ℕ} (hf : s.cfuncs[id]? = some f) (parent : ℕ) (q : Request) :
    (pushed s f id parent q).cfuncs[id]? = some f :=
  Lib.getElem?_of_prefix (pushed_later id parent q).cfuncs hf

/-- **Calls** come to an end: their depth is bounded. -/
theorem enters (p : Program) (n : ℕ) : Enters p n := by
  intro s q tasks hn hret
  have hback {s' : State} (hs' : Later n s s') (r : Res Val) : Ending p ⟨.back s' r, tasks⟩ :=
    hret s' r hs'
  have hself := hback (later_self hn)
  unfold enter
  split
  · exact ending_crash
  · next entry scope code _ =>
      split
      · exact hself _
      · next hdepth =>
          have hless : MAX_DEPTH - (n + 1) < MAX_DEPTH - n := by omega
          split
          · next e _ =>
              cases e with
              | panic => exact ending_crash
              | throw v => exact hself _
              | fault e => exact hself _
          · next id s₁ hcode =>
              have hs₁ : Later n s s₁ := hn ▸ codeOf_later hcode
              split
              · exact ending_crash
              · next f hf =>
                  split
                  · exact hback hs₁ _
                  · have hpushed := pushed_later (s := s₁) (f := f) id scope q
                    rw [hs₁.frames] at hpushed
                    exact ending_ops (enters p (n + 1)) (pushed_cfunc hf _ q) hpushed.frames
                      (hret.later (hs₁.trans hpushed))
termination_by MAX_DEPTH - n

/-- **The budget bounds every run** in which nothing panics and no activation goes back without a
step counted: it comes to a value, a throw or a fault. -/
theorem run_ends (p : Program) (s : State) (x : MemM Val) (htame : x.Follows Tame)
    (hrun : ∀ c, Comes (Config.next p) ⟨.eval none (hostTree x s), []⟩ c → c.goesOn p = true) :
    ∃ c, Comes (Config.next p) ⟨.eval none (hostTree x s), []⟩ c ∧ c.answered := by
  have hself : Later s.frames.length s s := later_self rfl
  have hmild : (onMem x).Follows (Mild none) := onMem_mild htame
  have hlasts := hself.lasts (hmild.map Next.ret s)
  refine ending_eval (enters p s.frames.length) hlasts (results_host x s) ?_ hrun
  intro s' r _ hgo
  refine .step rfl fun hok => .here fun _ => ⟨rfl, s', r, rfl, ?_, hgo⟩
  rintro rfl
  cases hok

theorem run_ends_idling :
    ∃ c, Comes (Config.next idling) ⟨.eval none (hostTree callOnce (State.init idling)), []⟩ c ∧
      c.answered :=
  run_ends idling (State.init idling) callOnce callOnce_tame fun _ h =>
    Lib.inOrder_comes (n := 12) (by decide +kernel) h

end Program

end Interp
end Lunar
