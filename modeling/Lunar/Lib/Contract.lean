/-
# Contracts of programs

A contract says which values a program may rely on when it reads, where it may
write and what, and when it may ask.  What is known grows on the way, so all of
this depends on a stage.  A program that meets its contract never gives up
(`Ensures`): on every state that honours the contract it ends, and the state still
honours it (`Honours.exec`).
-/

import Mathlib.Order.Basic
import Lunar.Lib.Prog

namespace Lunar
namespace Lib

/-- What holds of the values read and written at a stage, where a program may
write, what it may ask, and which answers and stages may follow. -/
structure Contract (L V : Type) {Q : Type} (A : Q → Type) (G : Type) where
  holds : G → V → Prop
  place : L → Prop
  asks : G → Q → Prop
  answers : G → (q : Q) → A q → G → Prop

namespace Prog

variable {L V Q G α β : Type} {A : Q → Type}

/-- The program keeps the contract and ends with `post`. -/
def Meets (C : Contract L V A G) (post : G → α → Prop) : Prog L V A α → G → Prop
  | .pure a, g => post g a
  | .fail, _ => False
  | .rd _ k, g => ∀ v, C.holds g v → (k v).Meets C post g
  | .wr l v k, g => C.place l ∧ C.holds g v ∧ k.Meets C post g
  | .ask q k, g => C.asks g q ∧ ∀ a g', C.answers g q a g' → (k a).Meets C post g'

theorem Meets.mono {C : Contract L V A G} {post post' : G → α → Prop} {x : Prog L V A α} {g : G}
    (h : x.Meets C post g) (hp : ∀ g a, post g a → post' g a) : x.Meets C post' g := by
  induction x generalizing g with
  | pure a => exact hp _ _ h
  | fail => exact h
  | rd l k ih => exact fun v hv => ih v (h v hv)
  | wr l v k ih => exact ⟨h.1, h.2.1, ih h.2.2⟩
  | ask q k ih => exact ⟨h.1, fun a g' ha => ih a (h.2 a g' ha)⟩

theorem Meets.bind {C : Contract L V A G} {mid : G → α → Prop} {post : G → β → Prop}
    {x : Prog L V A α} {f : α → Prog L V A β} {g : G} (hx : x.Meets C mid g)
    (hf : ∀ g a, mid g a → (f a).Meets C post g) : (x >>= f).Meets C post g := by
  change (x.bind f).Meets C post g
  induction x generalizing g with
  | pure a => exact hf _ _ hx
  | fail => exact hx
  | rd l k ih => exact fun v hv => ih v (hx v hv)
  | wr l v k ih => exact ⟨hx.1, hx.2.1, ih hx.2.2⟩
  | ask q k ih => exact ⟨hx.1, fun a g' ha => ih a (hx.2 a g' ha)⟩

variable [Preorder G]

/-- From stage `g` on the program keeps the contract and ends with `P`. -/
def Ensures (C : Contract L V A G) (x : Prog L V A α) (g : G) (P : G → α → Prop) : Prop :=
  x.Meets C (fun g' a => g ≤ g' ∧ P g' a) g

variable {C : Contract L V A G} {g : G} {P P' : G → α → Prop} {x : Prog L V A α}

theorem Ensures.mono (h : x.Ensures C g P) (hP : ∀ g' a, g ≤ g' → P g' a → P' g' a) :
    x.Ensures C g P' :=
  Meets.mono h fun _ _ h => ⟨h.1, hP _ _ h.1 h.2⟩

/-- An earlier stage to look back to. -/
theorem Ensures.since {g' : G} (h : x.Ensures C g' P) (hg : g ≤ g') :
    x.Meets C (fun g'' a => g ≤ g'' ∧ P g'' a) g' :=
  Meets.mono h fun _ _ h => ⟨le_trans hg h.1, h.2⟩

theorem ensures_pure {a : α} (h : P g a) : (Pure.pure a : Prog L V A α).Ensures C g P :=
  ⟨le_refl g, h⟩

theorem Ensures.bind {P' : G → β → Prop} {f : α → Prog L V A β} (hx : x.Ensures C g P)
    (hf : ∀ g' a, g ≤ g' → P g' a → (f a).Ensures C g' P') : (x >>= f).Ensures C g P' :=
  Meets.bind hx fun g' a h => (hf g' a h.1 h.2).since h.1

theorem ensures_read {l : L} {P : G → V → Prop} (h : ∀ v, C.holds g v → P g v) :
    (read l : Prog L V A V).Ensures C g P :=
  fun v hv => ⟨le_refl g, h v hv⟩

theorem ensures_write {l : L} {v : V} {P : G → Unit → Prop} (hl : C.place l) (hv : C.holds g v)
    (h : P g ()) : (write l v : Prog L V A Unit).Ensures C g P :=
  ⟨hl, hv, le_refl g, h⟩

theorem ensures_query {q : Q} {P : G → A q → Prop} (hq : C.asks g q)
    (h : ∀ a g', C.answers g q a g' → g ≤ g' ∧ P g' a) :
    (query q : Prog L V A (A q)).Ensures C g P :=
  ⟨hq, h⟩

/-- **Loops** keep what each turn keeps. -/
theorem ensures_foldlM {Inv : G → β → Prop} {f : β → α → Prog L V A β} {xs : List α} {b : β}
    (hb : Inv g b)
    (hf : ∀ g' b, ∀ a ∈ xs, g ≤ g' → Inv g' b → (f b a).Ensures C g' Inv) :
    (xs.foldlM f b).Ensures C g Inv := by
  induction xs generalizing g b with
  | nil => exact ensures_pure hb
  | cons a xs ih =>
      refine (hf g b a List.mem_cons_self (le_refl g) hb).bind fun g' b' hg hb' => ?_
      exact ih hb' fun g'' b'' a' ha hg' => hf g'' b'' a' (List.mem_cons_of_mem _ ha)
        (le_trans hg hg')

theorem ensures_forM {f : α → Prog L V A Unit} {xs : List α}
    (hf : ∀ g', ∀ a ∈ xs, g ≤ g' → (f a).Ensures C g' fun _ _ => True) :
    (xs.forM f).Ensures C g fun _ _ => True := by
  induction xs generalizing g with
  | nil => exact ensures_pure trivial
  | cons a xs ih =>
      refine (hf g a List.mem_cons_self (le_refl g)).bind fun g' _ hg _ => ?_
      exact ih fun g'' a' ha hg' => hf g'' a' (List.mem_cons_of_mem _ ha) (le_trans hg hg')

/-- The results of a loop, where what holds of a result goes on holding. -/
theorem ensures_mapM {R : G → β → Prop} (hR : ∀ {g g' b}, g ≤ g' → R g b → R g' b)
    {f : α → Prog L V A β} {xs : List α}
    (hf : ∀ g', ∀ a ∈ xs, g ≤ g' → (f a).Ensures C g' R) :
    (xs.mapM f).Ensures C g fun g' bs => ∀ b ∈ bs, R g' b := by
  induction xs generalizing g with
  | nil => exact ensures_pure fun _ h => absurd h List.not_mem_nil
  | cons a xs ih =>
      rw [List.mapM_cons]
      refine (hf g a List.mem_cons_self (le_refl g)).bind fun g' b hg hb => ?_
      refine (ih fun g'' a' ha hg' => hf g'' a' (List.mem_cons_of_mem _ ha)
        (le_trans hg hg')).bind fun g'' bs hg' hbs => ensures_pure fun b' hb' => ?_
      rcases List.mem_cons.1 hb' with rfl | hb'
      · exact hR hg' hb
      · exact hbs b' hb'

end Prog

/-! ## States that honour a contract -/

/-- A handler keeps the invariant `Inv` for programs that keep the contract, and
its operations are steps of `Step`. -/
structure Honours {S L V Q G : Type} {A : Q → Type} (h : Handler S L V A)
    (C : Contract L V A G) (stage : S → G) (Inv : S → Prop) (Step : S → S → Prop) : Prop where
  refl : ∀ s, Step s s
  trans : ∀ {s s' s''}, Step s s' → Step s' s'' → Step s s''
  rd : ∀ {s l}, Inv s → C.holds (stage s) (h.rd l s).1 ∧ Inv (h.rd l s).2 ∧
    stage (h.rd l s).2 = stage s ∧ Step s (h.rd l s).2
  wr : ∀ {s l v}, Inv s → C.place l → C.holds (stage s) v → Inv (h.wr l v s) ∧
    stage (h.wr l v s) = stage s ∧ Step s (h.wr l v s)
  ask : ∀ {s q}, Inv s → C.asks (stage s) q → ∃ a s', h.ask q s = some (a, s') ∧
    C.answers (stage s) q a (stage s') ∧ Inv s' ∧ Step s s'

/-- **A program that keeps its contract ends.** -/
theorem Honours.exec {S L V Q G α : Type} {A : Q → Type} {h : Handler S L V A}
    {C : Contract L V A G} {stage : S → G} {Inv : S → Prop} {Step : S → S → Prop}
    (hh : Honours h C stage Inv Step) {x : Prog L V A α} {post : G → α → Prop} {s : S}
    (hs : Inv s) (hx : x.Meets C post (stage s)) :
    ∃ a s', x.exec h s = some (a, s') ∧ post (stage s') a ∧ Inv s' ∧ Step s s' := by
  induction x generalizing s with
  | pure a => exact ⟨a, s, rfl, hx, hs, hh.refl s⟩
  | fail => exact hx.elim
  | rd l k ih =>
      obtain ⟨hv, hs', hst, hstep⟩ := hh.rd (l := l) hs
      obtain ⟨a, s', he, hp, hi, hstep'⟩ := ih _ hs' (hst ▸ hx _ hv)
      exact ⟨a, s', he, hp, hi, hh.trans hstep hstep'⟩
  | wr l v k ih =>
      obtain ⟨hs', hst, hstep⟩ := hh.wr hs hx.1 hx.2.1
      obtain ⟨a, s', he, hp, hi, hstep'⟩ := ih hs' (hst ▸ hx.2.2)
      exact ⟨a, s', he, hp, hi, hh.trans hstep hstep'⟩
  | ask q k ih =>
      obtain ⟨b, s₁, hb, hans, hs', hstep⟩ := hh.ask hs hx.1
      obtain ⟨a, s', he, hp, hi, hstep'⟩ := ih b hs' (hx.2 b _ hans)
      refine ⟨a, s', ?_, hp, hi, hh.trans hstep hstep'⟩
      rw [Prog.exec, hb]
      exact he

end Lib
end Lunar
