/-
# Programs over a memory of joins

A program reads locations, joins values into locations and asks questions of an
oracle.  It is a tree whose nodes are these operations, so a statement about
every operation that it performs is a recursion over the tree, and it can be run
on any state that offers the operations (`Handler`).

An oracle answers a question for good: once it has answered, its state answers
the same again and no longer changes by it, whatever is asked in between.

A program settles in a memory when everything that it does there is there
already (`Settles`).  A run that reads what a later memory still shows, as far
as the program can observe, settles in that later memory (`settles_of_run`).
-/

import Mathlib.Order.Lattice

namespace Lunar
namespace Lib

/-- Questions `q` with answers in `A q`, put to a state that may learn from
them.  `none` is a question that has no answer. -/
structure Oracle (T : Type) {Q : Type} (A : Q → Type) where
  answer : (q : Q) → T → Option (A q × T)
  answer_self : ∀ {q : Q} {t t' : T} {a : A q}, answer q t = some (a, t') →
    answer q t' = some (a, t')
  answer_step : ∀ {q r : Q} {t t' : T} {a : A q} {b : A r}, answer q t = some (a, t) →
    answer r t = some (b, t') → answer q t' = some (a, t')

/-- Programs.  `fail` gives up. -/
inductive Prog (L V : Type) {Q : Type} (A : Q → Type) (α : Type) : Type
  | pure (a : α)
  | fail
  | rd (l : L) (k : V → Prog L V A α)
  | wr (l : L) (v : V) (k : Prog L V A α)
  | ask (q : Q) (k : A q → Prog L V A α)

/-- What a state offers to a program. -/
structure Handler (S L V : Type) {Q : Type} (A : Q → Type) where
  rd : L → S → V × S
  wr : L → V → S → S
  ask : (q : Q) → S → Option (A q × S)

/-- A memory: the value of each location, and the state of the oracle. -/
structure Mem (L V T : Type) where
  vals : L → V
  aux : T

namespace Mem

variable {L V Q T : Type} {A : Q → Type} [SemilatticeSup V]

/-- A later memory: the values are above, and what is known stays known. -/
structure Le (O : Oracle T A) (m m' : Mem L V T) : Prop where
  vals : ∀ l, m.vals l ≤ m'.vals l
  aux : ∀ {q : Q} {a : A q}, O.answer q m.aux = some (a, m.aux) →
    O.answer q m'.aux = some (a, m'.aux)

variable {O : Oracle T A} {m m' m'' : Mem L V T}

theorem Le.refl : m.Le O m := ⟨fun _ => le_rfl, id⟩

theorem Le.trans (h : m.Le O m') (h' : m'.Le O m'') : m.Le O m'' :=
  ⟨fun l => (h.vals l).trans (h'.vals l), fun hk => h'.aux (h.aux hk)⟩

variable [DecidableEq L]

/-- Joining a value into a location. -/
def join (m : Mem L V T) (l : L) (v : V) : Mem L V T :=
  { m with vals := fun k => if k = l then m.vals l ⊔ v else m.vals k }

theorem le_join (m : Mem L V T) (l : L) (v : V) : m.Le O (m.join l v) where
  vals k := by
    by_cases hk : k = l
    · simp [join, hk]
    · simp [join, hk]
  aux := id

variable (O)

/-- A memory with its oracle, as a state that programs run on. -/
def handler : Handler (Mem L V T) L V A where
  rd l m := (m.vals l, m)
  wr l v m := m.join l v
  ask q m := (O.answer q m.aux).map fun r => (r.1, { m with aux := r.2 })

end Mem

namespace Prog

variable {L V Q T S α β γ : Type} {A : Q → Type}

protected def bind : Prog L V A α → (α → Prog L V A β) → Prog L V A β
  | .pure a, g => g a
  | .fail, _ => .fail
  | .rd l k, g => .rd l fun v => (k v).bind g
  | .wr l v k, g => .wr l v (k.bind g)
  | .ask q k, g => .ask q fun a => (k a).bind g

instance : Monad (Prog L V A) where
  pure := .pure
  bind := .bind

protected theorem bind_pure (x : Prog L V A α) : x.bind .pure = x := by
  induction x with
  | pure a => rfl
  | fail => rfl
  | rd l k ih => exact congrArg (rd l) (funext ih)
  | wr l v k ih => exact congrArg (wr l v) ih
  | ask q k ih => exact congrArg (ask q) (funext ih)

protected theorem bind_assoc (x : Prog L V A α) (f : α → Prog L V A β) (g : β → Prog L V A γ) :
    (x.bind f).bind g = x.bind fun a => (f a).bind g := by
  induction x with
  | pure a => rfl
  | fail => rfl
  | rd l k ih => exact congrArg (rd l) (funext ih)
  | wr l v k ih => exact congrArg (wr l v) ih
  | ask q k ih => exact congrArg (ask q) (funext ih)

instance : LawfulMonad (Prog L V A) :=
  .mk' _ Prog.bind_pure (fun _ _ => rfl) Prog.bind_assoc

def read (l : L) : Prog L V A V := .rd l .pure

def write (l : L) (v : V) : Prog L V A Unit := .wr l v (.pure ())

def query (q : Q) : Prog L V A (A q) := .ask q .pure

/-- Running a program on a state. -/
def exec (h : Handler S L V A) : Prog L V A α → S → Option (α × S)
  | .pure a, s => some (a, s)
  | .fail, _ => none
  | .rd l k, s => (k (h.rd l s).1).exec h (h.rd l s).2
  | .wr l v k, s => k.exec h (h.wr l v s)
  | .ask q k, s => (h.ask q s).bind fun r => (k r.1).exec h r.2

theorem exec_bind (h : Handler S L V A) (x : Prog L V A α) (g : α → Prog L V A β) (s : S) :
    (x >>= g).exec h s = (x.exec h s).bind fun r => (g r.1).exec h r.2 := by
  change (x.bind g).exec h s = _
  induction x generalizing s with
  | pure a => rfl
  | fail => rfl
  | rd l k ih => exact ih _ _
  | wr l v k ih => exact ih _
  | ask q k ih =>
      simp only [Prog.bind, exec, Option.bind_assoc]
      exact congrArg (Option.bind _) (funext fun r => ih r.1 r.2)

/-! ## Settled programs -/

section Settled

variable [SemilatticeSup V] (O : Oracle T A) (m : Mem L V T)

/-- `t.Settles O m a`: run in `m`, the program ends with `a`, what it writes is
below what is there, and what it asks is known. -/
def Settles : Prog L V A α → α → Prop
  | .pure b, a => b = a
  | .fail, _ => False
  | .rd l k, a => (k (m.vals l)).Settles a
  | .wr l v k, a => v ≤ m.vals l ∧ k.Settles a
  | .ask q k, a => ∃ b, O.answer q m.aux = some (b, m.aux) ∧ (k b).Settles a

variable {O m}

@[simp] theorem settles_pure {a b : α} :
    (Pure.pure b : Prog L V A α).Settles O m a ↔ b = a := Iff.rfl

@[simp] theorem settles_fail {a : α} : ¬ (fail : Prog L V A α).Settles O m a := id

@[simp] theorem settles_read {l : L} {v : V} :
    (read l : Prog L V A V).Settles O m v ↔ m.vals l = v := Iff.rfl

@[simp] theorem settles_write {l : L} {v : V} {u : Unit} :
    (write l v : Prog L V A Unit).Settles O m u ↔ v ≤ m.vals l := by
  cases u
  exact ⟨And.left, fun h => ⟨h, rfl⟩⟩

@[simp] theorem settles_query {q : Q} {a : A q} :
    (query q : Prog L V A (A q)).Settles O m a ↔ O.answer q m.aux = some (a, m.aux) :=
  ⟨fun ⟨_, h, hb⟩ => hb ▸ h, fun h => ⟨a, h, rfl⟩⟩

/-- **A sequence settles** exactly when its parts do. -/
@[simp] theorem settles_bind {x : Prog L V A α} {g : α → Prog L V A β} {b : β} :
    (x >>= g).Settles O m b ↔ ∃ a, x.Settles O m a ∧ (g a).Settles O m b := by
  change (x.bind g).Settles O m b ↔ _
  induction x with
  | pure a => exact ⟨fun h => ⟨a, rfl, h⟩, fun ⟨_, ha, h⟩ => ha ▸ h⟩
  | fail => exact ⟨False.elim, fun ⟨_, h, _⟩ => h⟩
  | rd l k ih => exact ih (m.vals l)
  | wr l v k ih =>
      constructor
      · rintro ⟨hv, h⟩
        obtain ⟨a, ha, hb⟩ := ih.1 h
        exact ⟨a, ⟨hv, ha⟩, hb⟩
      · rintro ⟨a, ⟨hv, ha⟩, hb⟩
        exact ⟨hv, ih.2 ⟨a, ha, hb⟩⟩
  | ask q k ih =>
      constructor
      · rintro ⟨r, hr, h⟩
        obtain ⟨a, ha, hb⟩ := (ih r).1 h
        exact ⟨a, ⟨r, hr, ha⟩, hb⟩
      · rintro ⟨a, ⟨r, hr, ha⟩, hb⟩
        exact ⟨r, hr, (ih r).2 ⟨a, ha, hb⟩⟩

@[simp] theorem settles_map {x : Prog L V A α} {f : α → β} {b : β} :
    (f <$> x).Settles O m b ↔ ∃ a, x.Settles O m a ∧ f a = b := settles_bind

/-- A program settles with one result. -/
theorem Settles.unique {t : Prog L V A α} {a b : α} (ha : t.Settles O m a)
    (hb : t.Settles O m b) : a = b := by
  induction t with
  | pure c => exact ha.symm.trans hb
  | fail => cases ha
  | rd l k ih => exact ih _ ha hb
  | wr l v k ih => exact ih ha.2 hb.2
  | ask q k ih =>
      obtain ⟨r, hr, ha⟩ := ha
      obtain ⟨r', hr', hb⟩ := hb
      obtain rfl : r = r' := (Prod.mk.inj (Option.some.inj (hr.symm.trans hr'))).1
      exact ih r ha hb

end Settled

/-! ## Runs on a memory -/

/-- The program does not depend on more of a value read at `l` than `obs l`. -/
def Respects {W : Type} (obs : L → V → W) : Prog L V A α → Prop
  | .pure _ => True
  | .fail => True
  | .rd l k => (∀ v w, obs l v = obs l w → k v = k w) ∧ ∀ v, (k v).Respects obs
  | .wr _ _ k => k.Respects obs
  | .ask _ k => ∀ a, (k a).Respects obs

theorem Respects.bind {W : Type} {obs : L → V → W} {x : Prog L V A α} {g : α → Prog L V A β}
    (hx : x.Respects obs) (hg : ∀ a, (g a).Respects obs) : (x >>= g).Respects obs := by
  change (x.bind g).Respects obs
  induction x with
  | pure a => exact hg a
  | fail => trivial
  | rd l k ih => exact ⟨fun v w h => congrArg (Prog.bind · g) (hx.1 v w h), fun v => ih v (hx.2 v)⟩
  | wr l v k ih => exact ih hx
  | ask q k ih => exact fun a => ih a (hx a)

section Run

variable [SemilatticeSup V] [DecidableEq L] (O : Oracle T A)

/-- What a program reads when run in a memory. -/
def reads : Prog L V A α → Mem L V T → List (L × V)
  | .pure _, _ => []
  | .fail, _ => []
  | .rd l k, m => (l, m.vals l) :: (k (m.vals l)).reads m
  | .wr l v k, m => k.reads (m.join l v)
  | .ask q k, m =>
    match O.answer q m.aux with
    | some (a, t) => (k a).reads { m with aux := t }
    | none => []

variable {O}

/-- A run only adds to its memory. -/
theorem le_of_exec {t : Prog L V A α} {m m' : Mem L V T} {a : α}
    (h : t.exec (Mem.handler O) m = some (a, m')) : m.Le O m' := by
  induction t generalizing m with
  | pure b => cases h; exact .refl
  | fail => cases h
  | rd l k ih => exact ih _ h
  | wr l v k ih => exact (Mem.le_join m l v).trans (ih h)
  | ask q k ih =>
      obtain ⟨⟨b, m₁⟩, hb, h⟩ := Option.bind_eq_some_iff.1 h
      obtain ⟨⟨c, t'⟩, hc, hm⟩ := Option.map_eq_some_iff.1 hb
      cases hm
      have hle : m.Le O { m with aux := t' } :=
        ⟨fun _ => le_rfl, fun hk => O.answer_step hk hc⟩
      exact hle.trans (ih _ h)

/-- **Replay.**  A run in `m` settles in every later memory that shows the
program what it read. -/
theorem settles_of_exec {W : Type} {obs : L → V → W} {t : Prog L V A α} (ht : t.Respects obs)
    {m m' mE : Mem L V T} {a : α} (h : t.exec (Mem.handler O) m = some (a, m'))
    (hle : m'.Le O mE) (hreads : ∀ e ∈ t.reads O m, obs e.1 e.2 = obs e.1 (mE.vals e.1)) :
    t.Settles O mE a := by
  induction t generalizing m with
  | pure b => cases h; rfl
  | fail => cases h
  | rd l k ih =>
      have hl : k (m.vals l) = k (mE.vals l) := ht.1 _ _ (hreads _ List.mem_cons_self)
      have hk := ih _ (ht.2 _) h fun e he => hreads e (List.mem_cons_of_mem _ he)
      change (k (mE.vals l)).Settles O mE a
      rwa [← hl]
  | wr l v k ih =>
      have hv : v ≤ (m.join l v).vals l := by simp [Mem.join]
      have hle' : (m.join l v).Le O m' := le_of_exec h
      exact ⟨hv.trans ((hle'.trans hle).vals l), ih ht h hreads⟩
  | ask q k ih =>
      obtain ⟨⟨b, m₁⟩, hb, h⟩ := Option.bind_eq_some_iff.1 h
      obtain ⟨⟨c, t'⟩, hc, hm⟩ := Option.map_eq_some_iff.1 hb
      cases hm
      refine ⟨c, ((le_of_exec h).trans hle).aux (O.answer_self hc), ih c (ht c) h fun e he => ?_⟩
      exact hreads e (by simpa only [reads, hc] using he)

end Run

end Prog

/-! ## Readers that are told of changes -/

section Watched

variable {L V Q T S F P W α : Type} {A : Q → Type}

/-- A state in which readers watch locations.  `due (pending s) g`: reader `g`
is to run again. -/
structure Watchers (S F P L V T : Type) where
  mem : S → Mem L V T
  setAux : S → T → S
  pending : S → P
  due : P → F → Prop
  watches : S → F → L → Prop
  /-- The reader that is running. -/
  self : S → F

namespace Watchers

variable (w : Watchers S F P L V T) (obs : L → V → W)

/-- What an operation may do to the readers: none stops watching, and one whose
location has visibly changed is due. -/
structure Keeps (s s' : S) : Prop where
  self : w.self s' = w.self s
  due : ∀ {g}, w.due (w.pending s) g → w.due (w.pending s') g
  watches : ∀ {g l}, w.watches s g l → w.watches s' g l
  shows : ∀ {g l}, w.watches s g l → ¬ w.due (w.pending s') g →
    obs l ((w.mem s).vals l) = obs l ((w.mem s').vals l)

variable {w obs} {s s' s'' : S}

theorem Keeps.refl : w.Keeps obs s s := ⟨rfl, id, id, fun _ _ => rfl⟩

theorem Keeps.trans (h : w.Keeps obs s s') (h' : w.Keeps obs s' s'') : w.Keeps obs s s'' where
  self := h'.self.trans h.self
  due hd := h'.due (h.due hd)
  watches hw := h'.watches (h.watches hw)
  shows hw hd := (h.shows hw fun hd' => hd (h'.due hd')).trans (h'.shows (h.watches hw) hd)

variable [SemilatticeSup V] [DecidableEq L] (w obs) (O : Oracle T A)

/-- A handler that tells readers of what they can observe.  `Inv` is an
invariant of the state. -/
structure Tells (h : Handler S L V A) (Inv : S → Prop) : Prop where
  rd_val : ∀ {s l}, Inv s → (h.rd l s).1 = (w.mem s).vals l
  rd_mem : ∀ {s l}, Inv s → w.mem (h.rd l s).2 = w.mem s
  rd_pending : ∀ {s l}, Inv s → w.pending (h.rd l s).2 = w.pending s
  rd_watches : ∀ {s l}, Inv s → w.watches (h.rd l s).2 (w.self s) l
  rd_keeps : ∀ {s l}, Inv s → w.Keeps obs s (h.rd l s).2
  rd_inv : ∀ {s l}, Inv s → Inv (h.rd l s).2
  wr_mem : ∀ {s l v}, Inv s → w.mem (h.wr l v s) = (w.mem s).join l v
  wr_same : ∀ {s l v}, Inv s → v ≤ (w.mem s).vals l → h.wr l v s = s
  wr_keeps : ∀ {s l v}, Inv s → w.Keeps obs s (h.wr l v s)
  wr_inv : ∀ {s l v}, Inv s → Inv (h.wr l v s)
  ask_eq : ∀ {s q}, Inv s →
    h.ask q s = (O.answer q (w.mem s).aux).map fun r => (r.1, w.setAux s r.2)
  setAux_mem : ∀ {s t}, w.mem (w.setAux s t) = { w.mem s with aux := t }
  setAux_self : ∀ {s}, w.setAux s (w.mem s).aux = s
  setAux_keeps : ∀ {s t}, Inv s → w.Keeps obs s (w.setAux s t)
  setAux_inv : ∀ {s t}, Inv s → Inv (w.setAux s t)

variable {w O obs} {h : Handler S L V A} {Inv : S → Prop}

/-- What a run of the reader `self` does: it computes in the memory, and the
reader watches all that it has read. -/
structure Ran (t : Prog L V A α) (s : S) (a : α) (s' : S) (Inv : S → Prop)
    (w : Watchers S F P L V T) (O : Oracle T A) (obs : L → V → W) : Prop where
  inv : Inv s'
  keeps : w.Keeps obs s s'
  exec : t.exec (Mem.handler O) (w.mem s) = some (a, w.mem s')
  reads : ∀ e ∈ t.reads O (w.mem s), w.watches s' (w.self s) e.1 ∧
    (¬ w.due (w.pending s') (w.self s) → obs e.1 e.2 = obs e.1 ((w.mem s').vals e.1))

/-- **A run, operation by operation.** -/
theorem Tells.ran (ht : w.Tells obs O h Inv) {t : Prog L V A α} {a : α} (hs : Inv s)
    (hx : t.exec h s = some (a, s')) : Ran t s a s' Inv w O obs := by
  induction t generalizing s with
  | pure b =>
      cases hx
      exact ⟨hs, .refl, rfl, fun e he => by cases he⟩
  | fail => cases hx
  | rd l k ih =>
      obtain ⟨inv, keeps, exec, reads⟩ := ih _ (ht.rd_inv hs) hx
      rw [ht.rd_mem hs, ht.rd_val hs] at exec reads
      have hkeeps := ht.rd_keeps (l := l) hs
      rw [hkeeps.self] at reads
      refine ⟨inv, hkeeps.trans keeps, exec, fun e he => ?_⟩
      rcases List.mem_cons.1 he with rfl | he
      · have hw := ht.rd_watches (l := l) hs
        refine ⟨keeps.watches hw, fun hd => ?_⟩
        rw [← keeps.shows hw hd, ht.rd_mem hs]
      · exact reads e he
  | wr l v k ih =>
      obtain ⟨inv, keeps, exec, reads⟩ := ih (ht.wr_inv hs) hx
      have hkeeps := ht.wr_keeps (l := l) (v := v) hs
      rw [ht.wr_mem hs] at exec reads
      rw [hkeeps.self] at reads
      exact ⟨inv, hkeeps.trans keeps, exec, reads⟩
  | ask q k ih =>
      obtain ⟨⟨b, s₁⟩, hb, hx⟩ := Option.bind_eq_some_iff.1 hx
      rw [ht.ask_eq hs] at hb
      obtain ⟨⟨c, t'⟩, hc, heq⟩ := Option.map_eq_some_iff.1 hb
      cases heq
      obtain ⟨inv, keeps, exec, reads⟩ := ih _ (ht.setAux_inv hs) hx
      have hkeeps := ht.setAux_keeps (t := t') hs
      rw [ht.setAux_mem] at exec reads
      rw [hkeeps.self] at reads
      refine ⟨inv, hkeeps.trans keeps, ?_, ?_⟩
      · simp only [Prog.exec, Mem.handler, hc, Option.map_some, Option.bind_some]
        exact exec
      · simpa only [Prog.reads, hc] using reads

/-- A run that settles changes nothing but who watches what. -/
theorem Tells.exec_of_settles (ht : w.Tells obs O h Inv) {t : Prog L V A α} {a : α} (hs : Inv s)
    (hx : t.Settles O (w.mem s) a) :
    ∃ s', t.exec h s = some (a, s') ∧ w.mem s' = w.mem s ∧ w.pending s' = w.pending s := by
  induction t generalizing s with
  | pure b => cases hx; exact ⟨s, rfl, rfl, rfl⟩
  | fail => cases hx
  | rd l k ih =>
      rw [← ht.rd_mem (l := l) hs] at hx
      obtain ⟨s', h', hm, hp⟩ := ih _ (ht.rd_inv hs) hx
      rw [ht.rd_mem hs, ← ht.rd_val hs] at h'
      exact ⟨s', h', hm.trans (ht.rd_mem hs), hp.trans (ht.rd_pending hs)⟩
  | wr l v k ih =>
      obtain ⟨s', h', hm, hp⟩ := ih hs hx.2
      exact ⟨s', by simpa only [Prog.exec, ht.wr_same hs hx.1] using h', hm, hp⟩
  | ask q k ih =>
      obtain ⟨b, hb, hx⟩ := hx
      obtain ⟨s', h', hm, hp⟩ := ih b hs hx
      refine ⟨s', ?_, hm, hp⟩
      simp only [Prog.exec, ht.ask_eq hs, hb, Option.map_some, Option.bind_some, ht.setAux_self]
      exact h'

/-- Reader `g` has run `t`, and what it read then is what it would see now. -/
def Done (w : Watchers S F P L V T) (O : Oracle T A) (obs : L → V → W) (s : S) (g : F)
    (t : Prog L V A α) : Prop :=
  ∃ a m m', t.exec (Mem.handler O) m = some (a, m') ∧ m'.Le O (w.mem s) ∧
    ∀ e ∈ t.reads O m, w.watches s g e.1 ∧ obs e.1 e.2 = obs e.1 ((w.mem s).vals e.1)

/-- A reader that is not made due is as it was. -/
theorem Done.keeps {g : F} {t : Prog L V A α} (hd : w.Done O obs s g t) (hk : w.Keeps obs s s')
    (hle : (w.mem s).Le O (w.mem s')) (hg : ¬ w.due (w.pending s') g) :
    w.Done O obs s' g t := by
  obtain ⟨a, m, m', hx, hm, hr⟩ := hd
  refine ⟨a, m, m', hx, hm.trans hle, fun e he => ?_⟩
  obtain ⟨hw, hv⟩ := hr e he
  exact ⟨hk.watches hw, hv.trans (hk.shows hw hg)⟩

/-- A reader that has just run is done, unless it was made due meanwhile. -/
theorem Ran.done {t : Prog L V A α} {a : α} (hr : Ran t s a s' Inv w O obs)
    (hg : ¬ w.due (w.pending s') (w.self s)) : w.Done O obs s' (w.self s) t :=
  ⟨a, _, _, hr.exec, .refl, fun e he => ⟨(hr.reads e he).1, (hr.reads e he).2 hg⟩⟩

/-- **A reader that is done settles.** -/
theorem Done.settles {g : F} {t : Prog L V A α} (ht : t.Respects obs) (hd : w.Done O obs s g t) :
    ∃ a, t.Settles O (w.mem s) a := by
  obtain ⟨a, m, m', hx, hm, hr⟩ := hd
  exact ⟨a, Prog.settles_of_exec ht hx hm fun e he => (hr e he).2⟩

end Watchers
end Watched

end Lib
end Lunar
