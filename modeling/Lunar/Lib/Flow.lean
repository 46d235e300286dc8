/-
# Flow graphs

Blocks of statements with an exit each.  What happens inside a statement is open: it may
end well, throw or jump to a pc, or stop the run.  So a run is a list of events, one for
each statement and each branch, with the answer that the outside gave (`Event.answer`), and
the answers determine the events (`Run.events_unique`).

A graph whose every good step another one can follow is followed along good runs
(`Run.simulate`).
-/

import Mathlib.Data.List.Basic
import Mathlib.Data.Nat.Notation

namespace Lunar
namespace Lib

/-- How a block ends; there may be no block where it leads. -/
inductive Exit (κ : Type*)
  | goto (t : Option ℕ)
  | branch (c : κ) (when : Bool) (thn els : Option ℕ)
  | fell
  | invalid

structure Flow (σ κ : Type*) where
  body : ℕ → List σ
  exit : ℕ → Exit κ
  /-- The block at a pc. -/
  enter : ℕ → Option ℕ

/-- What a statement does to the run. -/
inductive Outcome
  | ok
  | jump (pc : ℕ)
  | stop

inductive Event (σ κ : Type*)
  | stmt (s : σ) (o : Outcome)
  | branch (c : κ) (taken : Bool)

/-- What the outside decided about an event. -/
def Event.answer {σ κ : Type*} : Event σ κ → Outcome ⊕ Bool
  | .stmt _ o => .inl o
  | .branch _ b => .inr b

/-- Where a run is: before the statements that are left of a block, or at an end. -/
inductive Place (σ : Type*)
  | before (block : ℕ) (rest : List σ)
  | stopped
  | fell
  | invalid
  | badJump (pc : ℕ)

namespace Flow

variable {σ κ : Type*}

/-- The start of a block. -/
def start (g : Flow σ κ) : Option ℕ → Place σ
  | none => .invalid
  | some t => .before t (g.body t)

/-- Where a jump to a pc leads. -/
def land (g : Flow σ κ) (pc : ℕ) : Place σ :=
  match g.enter pc with
  | none => .badJump pc
  | some t => .before t (g.body t)

inductive Step (g : Flow σ κ) : Place σ → Option (Event σ κ) → Place σ → Prop
  | ok {i : ℕ} {s : σ} {rest : List σ} :
      Step g (.before i (s :: rest)) (some (.stmt s .ok)) (.before i rest)
  | jump {i : ℕ} {s : σ} {rest : List σ} {pc : ℕ} :
      Step g (.before i (s :: rest)) (some (.stmt s (.jump pc))) (g.land pc)
  | stop {i : ℕ} {s : σ} {rest : List σ} :
      Step g (.before i (s :: rest)) (some (.stmt s .stop)) .stopped
  | goto {i : ℕ} {t : Option ℕ} (h : g.exit i = .goto t) : Step g (.before i []) none (g.start t)
  | branch {i : ℕ} {c : κ} {when : Bool} {thn els : Option ℕ} (b : Bool)
      (h : g.exit i = .branch c when thn els) :
      Step g (.before i []) (some (.branch c b)) (g.start (if b = when then thn else els))
  | fell {i : ℕ} (h : g.exit i = .fell) : Step g (.before i []) none .fell
  | invalid {i : ℕ} (h : g.exit i = .invalid) : Step g (.before i []) none .invalid

/-- A run, with its events, whose every step is good. -/
inductive Run (g : Flow σ κ) (Good : Place σ → Option (Event σ κ) → Prop) :
    Place σ → List (Event σ κ) → Place σ → Prop
  | refl (p : Place σ) : Run g Good p [] p
  | step {p q r : Place σ} {e : Option (Event σ κ)} {es : List (Event σ κ)} (hgood : Good p e)
      (hstep : g.Step p e q) (h : Run g Good q es r) : Run g Good p (e.toList ++ es) r

/-- A run of any steps. -/
abbrev Path (g : Flow σ κ) : Place σ → List (Event σ κ) → Place σ → Prop :=
  Run g fun _ _ => True

variable {g g' : Flow σ κ} {Good : Place σ → Option (Event σ κ) → Prop}

theorem Run.trans {p q r : Place σ} {es es' : List (Event σ κ)} (h : g.Run Good p es q)
    (h' : g.Run Good q es' r) : g.Run Good p (es ++ es') r := by
  induction h with
  | refl => exact h'
  | step hgood hstep _ ih =>
      rw [List.append_assoc]
      exact .step hgood hstep (ih h')

theorem Path.of_step {p q : Place σ} {e : Option (Event σ κ)} (h : g.Step p e q) :
    g.Path p e.toList q := by
  have hrun : g.Path p (e.toList ++ []) q := .step trivial h (.refl q)
  rwa [List.append_nil] at hrun

/-- **A graph that follows every good step follows every good run.** -/
theorem Run.simulate {R : Place σ → Place σ → Prop} {p p' q : Place σ} {es : List (Event σ κ)}
    (hstep : ∀ {q q' r e}, R q q' → Good q e → g.Step q e r → ∃ r', g'.Path q' e.toList r' ∧ R r r')
    (hp : R p p') (h : g.Run Good p es q) : ∃ q', g'.Path p' es q' ∧ R q q' := by
  induction h generalizing p' with
  | refl => exact ⟨p', .refl p', hp⟩
  | step hgood hs _ ih =>
      obtain ⟨r', hr', hR⟩ := hstep hp hgood hs
      obtain ⟨q', hq', hR'⟩ := ih hR
      exact ⟨q', hr'.trans hq', hR'⟩

/-- A place has one step without an event, or one for each answer. -/
theorem Step.unique {p q q' : Place σ} {e e' : Option (Event σ κ)} (h : g.Step p e q)
    (h' : g.Step p e' q') (ha : e.map Event.answer = e'.map Event.answer) : e = e' ∧ q = q' := by
  cases h with
  | ok =>
      cases h' with
      | ok => exact ⟨rfl, rfl⟩
      | _ => cases ha
  | stop =>
      cases h' with
      | stop => exact ⟨rfl, rfl⟩
      | _ => cases ha
  | jump =>
      cases h' with
      | jump =>
          cases ha
          exact ⟨rfl, rfl⟩
      | _ => cases ha
  | goto hexit =>
      cases h' with
      | goto hexit' =>
          cases hexit.symm.trans hexit'
          exact ⟨rfl, rfl⟩
      | branch => cases ha
      | fell hexit' | invalid hexit' => cases hexit.symm.trans hexit'
  | branch b hexit =>
      cases h' with
      | branch b' hexit' =>
          cases hexit.symm.trans hexit'
          cases ha
          exact ⟨rfl, rfl⟩
      | goto | fell | invalid => cases ha
  | fell hexit =>
      cases h' with
      | fell => exact ⟨rfl, rfl⟩
      | branch => cases ha
      | goto hexit' | invalid hexit' => cases hexit.symm.trans hexit'
  | invalid hexit =>
      cases h' with
      | invalid => exact ⟨rfl, rfl⟩
      | branch => cases ha
      | goto hexit' | fell hexit' => cases hexit.symm.trans hexit'

/-- No place has both a step with an event and one without. -/
theorem Step.silent {p q q' : Place σ} {e : Option (Event σ κ)} (h : g.Step p none q)
    (h' : g.Step p e q') : e = none := by
  cases h with
  | goto hexit | fell hexit | invalid hexit =>
      cases h' with
      | goto | fell | invalid => rfl
      | branch b hexit' => cases hexit.symm.trans hexit'

/-- **The answers determine the events.** -/
theorem Run.events_unique {p q q' : Place σ} {es es' : List (Event σ κ)} (h : g.Path p es q)
    (h' : g.Path p es' q') (ha : es.map Event.answer = es'.map Event.answer) : es = es' := by
  induction h generalizing es' with
  | refl => exact (List.map_eq_nil_iff.1 ha.symm).symm
  | @step p q r e es _ hs h ih =>
      cases h' with
      | refl => exact List.map_eq_nil_iff.1 ha
      | @step _ r' _ e' es' _ hs' h' =>
          have hans : e.map Event.answer = e'.map Event.answer := by
            cases e with
            | none => rw [hs.silent hs']
            | some x =>
                cases e' with
                | none => exact absurd (hs'.silent hs) nofun
                | some x' => exact congrArg some (List.cons.inj ha).1
          obtain ⟨rfl, rfl⟩ := hs.unique hs' hans
          rw [List.map_append, List.map_append] at ha
          rw [ih h' (List.append_cancel_left ha)]

/-- Where a run is after a statement. -/
def afterStmt (g : Flow σ κ) (i : ℕ) (rest : List σ) : Outcome → Place σ
  | .ok => .before i rest
  | .jump pc => g.land pc
  | .stop => .stopped

/-- The first statement of a path. -/
theorem Path.stmt_cases {i : ℕ} {s s' : σ} {rest : List σ} {o : Outcome} {es : List (Event σ κ)}
    {q : Place σ} (h : g.Path (.before i (s :: rest)) (.stmt s' o :: es) q) :
    g.Path (g.afterStmt i rest o) es q := by
  generalize hes : (Event.stmt s' o :: es : List (Event σ κ)) = es' at h
  cases h with
  | refl => cases hes
  | step _ hs hr =>
      cases hs with
      | ok =>
          cases hes
          exact hr
      | jump =>
          cases hes
          exact hr
      | stop =>
          cases hes
          exact hr

/-- Nothing happens at an end. -/
theorem Path.at_end {p q : Place σ} {es : List (Event σ κ)} (h : g.Path p es q)
    (hp : ∀ i rest, p ≠ .before i rest) : es = [] := by
  cases h with
  | refl => rfl
  | step _ hs _ =>
      cases hs with
      | ok | jump | stop | goto | branch | fell | invalid => exact absurd rfl (hp _ _)

/-! ## Threading -/

/-- An exit with targets that the old targets lead to without an event. -/
inductive Threaded (g : Flow σ κ) : Exit κ → Exit κ → Prop
  | goto {t t' : Option ℕ} (h : g.Path (g.start t) [] (g.start t')) :
      Threaded g (.goto t) (.goto t')
  | branch {c : κ} {when : Bool} {thn els thn' els' : Option ℕ}
      (hthn : g.Path (g.start thn) [] (g.start thn'))
      (hels : g.Path (g.start els) [] (g.start els')) :
      Threaded g (.branch c when thn els) (.branch c when thn' els')
  | fell : Threaded g .fell .fell
  | invalid : Threaded g .invalid .invalid

/-- A graph with threaded exits. -/
structure Threads (g g' : Flow σ κ) : Prop where
  body : g'.body = g.body
  enter : g'.enter = g.enter
  exit : ∀ i, g.Threaded (g.exit i) (g'.exit i)

theorem Threads.start (h : Threads g g') (t : Option ℕ) : g'.start t = g.start t := by
  cases t with
  | none => rfl
  | some t => rw [Flow.start, Flow.start, h.body]

theorem Threads.land (h : Threads g g') (pc : ℕ) : g'.land pc = g.land pc := by
  rw [Flow.land, Flow.land, h.enter, h.body]

theorem Threaded.same (e : Exit κ) : g.Threaded e e := by
  cases e with
  | goto t => exact .goto (.refl _)
  | branch c when thn els => exact .branch (.refl _) (.refl _)
  | fell => exact .fell
  | invalid => exact .invalid

/-- A step with threaded exits is a path. -/
theorem Threads.step_back (h : Threads g g') {p q : Place σ} {e : Option (Event σ κ)}
    (hs : g'.Step p e q) : g.Path p e.toList q := by
  cases hs with
  | ok => exact .of_step .ok
  | jump =>
      rw [h.land]
      exact .of_step .jump
  | stop => exact .of_step .stop
  | @goto i t hexit =>
      have hth := h.exit i
      rw [h.start]
      generalize hold : g.exit i = old at hth
      rw [hexit] at hth
      cases hth with
      | goto ht => exact (Path.of_step (.goto hold)).trans ht
  | @branch i c when thn els b hexit =>
      have hth := h.exit i
      rw [h.start]
      generalize hold : g.exit i = old at hth
      rw [hexit] at hth
      cases hth with
      | branch hthn hels =>
          have hstep := Path.of_step (Step.branch b hold)
          by_cases hb : b = when
          · rw [if_pos hb] at hstep ⊢
            exact hstep.trans hthn
          · rw [if_neg hb] at hstep ⊢
            exact hstep.trans hels
  | @fell i hexit =>
      have hth := h.exit i
      generalize hold : g.exit i = old at hth
      rw [hexit] at hth
      cases hth with
      | fell => exact .of_step (.fell hold)
  | @invalid i hexit =>
      have hth := h.exit i
      generalize hold : g.exit i = old at hth
      rw [hexit] at hth
      cases hth with
      | invalid => exact .of_step (.invalid hold)

/-- **Threading adds no path.** -/
theorem Threads.back (h : Threads g g') {p q : Place σ} {es : List (Event σ κ)}
    (hr : g'.Path p es q) : g.Path p es q := by
  induction hr with
  | refl => exact .refl _
  | step _ hs _ ih => exact (h.step_back hs).trans ih

/-- A step is followed with threaded exits. -/
theorem Threads.step_ahead (h : Threads g g') {p q : Place σ} {e : Option (Event σ κ)}
    (hs : g.Step p e q) : ∃ q', g'.Path p e.toList q' ∧ g.Path q [] q' := by
  cases hs with
  | ok => exact ⟨_, .of_step .ok, .refl _⟩
  | @jump i s rest pc =>
      refine ⟨g'.land pc, .of_step .jump, ?_⟩
      rw [h.land]
      exact .refl _
  | stop => exact ⟨_, .of_step .stop, .refl _⟩
  | @goto i t hexit =>
      have hth := h.exit i
      generalize hnew : g'.exit i = new at hth
      rw [hexit] at hth
      cases hth with
      | @goto _ t' ht =>
          refine ⟨g'.start t', .of_step (.goto hnew), ?_⟩
          rw [h.start]
          exact ht
  | @branch i c when thn els b hexit =>
      have hth := h.exit i
      generalize hnew : g'.exit i = new at hth
      rw [hexit] at hth
      cases hth with
      | branch hthn hels =>
          refine ⟨_, .of_step (.branch b hnew), ?_⟩
          rw [h.start]
          split
          · exact hthn
          · exact hels
  | @fell i hexit =>
      have hth := h.exit i
      generalize hnew : g'.exit i = new at hth
      rw [hexit] at hth
      cases hth with
      | fell => exact ⟨_, .of_step (.fell hnew), .refl _⟩
  | @invalid i hexit =>
      have hth := h.exit i
      generalize hnew : g'.exit i = new at hth
      rw [hexit] at hth
      cases hth with
      | invalid => exact ⟨_, .of_step (.invalid hnew), .refl _⟩

/-- A place that silent steps lead to is led to by the first of them, or is there. -/
theorem Path.silent_cases {p q : Place σ} (h : g.Path p [] q) :
    p = q ∨ ∃ r, g.Step p none r ∧ g.Path r [] q := by
  generalize hes : ([] : List (Event σ κ)) = es at h
  cases h with
  | refl => exact .inl rfl
  | @step _ r _ e es' _ hs hr =>
      obtain ⟨he, rfl⟩ := List.append_eq_nil_iff.1 hes.symm
      cases e with
      | none => exact .inr ⟨r, hs, hr⟩
      | some e => cases he

/-- **Threading loses no path.** -/
theorem Threads.ahead (h : Threads g g') {p q : Place σ} {es : List (Event σ κ)}
    (hr : g.Path p es q) : ∃ q', g'.Path p es q' ∧ g.Path q [] q' := by
  refine Run.simulate (R := fun p p' => g.Path p [] p') ?_ (.refl p) hr
  intro q q' r e hq _ hs
  rcases Path.silent_cases hq with rfl | ⟨r', hs', hr'⟩
  · exact h.step_ahead hs
  · obtain rfl := hs'.silent hs
    obtain ⟨-, rfl⟩ := hs'.unique hs rfl
    exact ⟨q', .refl q', hr'⟩

theorem Threads.same (g : Flow σ κ) : Threads g g := ⟨rfl, rfl, fun _ => .same _⟩

/-- Threading once more. -/
theorem Threads.trans {g'' : Flow σ κ} (h : Threads g g') (h' : Threads g' g'') :
    Threads g g'' := by
  refine ⟨h'.body.trans h.body, h'.enter.trans h.enter, fun i => ?_⟩
  have hpath : ∀ {a b c : Option ℕ}, g.Path (g.start a) [] (g.start b) →
      g'.Path (g'.start b) [] (g'.start c) → g.Path (g.start a) [] (g.start c) := by
    intro a b c hab hbc
    rw [h.start, h.start] at hbc
    exact hab.trans (h.back hbc)
  have hth := h.exit i
  have hth' := h'.exit i
  generalize g.exit i = old at hth
  generalize g'.exit i = mid at hth hth'
  generalize g''.exit i = new at hth'
  cases hth with
  | goto ht =>
      cases hth' with
      | goto ht' => exact .goto (hpath ht ht')
  | branch hthn hels =>
      cases hth' with
      | branch hthn' hels' => exact .branch (hpath hthn hthn') (hpath hels hels')
  | fell =>
      cases hth' with
      | fell => exact .fell
  | invalid =>
      cases hth' with
      | invalid => exact .invalid

end Flow
end Lib
end Lunar
