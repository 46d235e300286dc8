/-
# Two runs side by side

Programs over a memory of joins (`Lib.Prog`) run in two memories, of which the first is below
the second in some sense.  `Couple I I' F R x y`: from memories in `I`, and as long as `x`
reads only locations in `F`, runs of `x` and `y` that end do so in memories in `I'` and with
results in `R`, and all that `x` reads and writes, `y` reads and writes, with values above.
This goes through sequences and loops.
-/

import Mathlib.Data.List.Forall2
import Lunar.Lib.Prog

namespace Lunar
namespace Lib
namespace Prog

variable {L V Q T α α' β β' γ δ : Type} {A : Q → Type} [SemilatticeSup V] [DecidableEq L]
  (O : Oracle T A)

/-- What a program writes when run in a memory. -/
def writes : Prog L V A α → Mem L V T → List (L × V)
  | .pure _, _ => []
  | .fail, _ => []
  | .rd l k, m => (k (m.vals l)).writes m
  | .wr l v k, m => (l, v) :: k.writes (m.join l v)
  | .ask q k, m =>
    match O.answer q m.aux with
    | some (a, t) => (k a).writes { m with aux := t }
    | none => []

variable {O}

theorem reads_bind {x : Prog L V A α} {g : α → Prog L V A β} {m m' : Mem L V T} {a : α}
    (h : x.exec (Mem.handler O) m = some (a, m')) :
    (x >>= g).reads O m = x.reads O m ++ (g a).reads O m' := by
  change (x.bind g).reads O m = _
  induction x generalizing m with
  | pure b =>
      cases h
      rfl
  | fail => cases h
  | rd l k ih => exact congrArg ((l, m.vals l) :: ·) (ih _ h)
  | wr l v k ih => exact ih h
  | ask q k ih =>
      obtain ⟨⟨b, m₁⟩, hb, h⟩ := Option.bind_eq_some_iff.1 h
      obtain ⟨⟨c, t⟩, hc, hm⟩ := Option.map_eq_some_iff.1 hb
      cases hm
      simp only [Prog.bind, reads, hc]
      exact ih _ h

theorem writes_bind {x : Prog L V A α} {g : α → Prog L V A β} {m m' : Mem L V T} {a : α}
    (h : x.exec (Mem.handler O) m = some (a, m')) :
    (x >>= g).writes O m = x.writes O m ++ (g a).writes O m' := by
  change (x.bind g).writes O m = _
  induction x generalizing m with
  | pure b =>
      cases h
      rfl
  | fail => cases h
  | rd l k ih => exact ih _ h
  | wr l v k ih => exact congrArg ((l, v) :: ·) (ih h)
  | ask q k ih =>
      obtain ⟨⟨b, m₁⟩, hb, h⟩ := Option.bind_eq_some_iff.1 h
      obtain ⟨⟨c, t⟩, hc, hm⟩ := Option.map_eq_some_iff.1 hb
      cases hm
      simp only [Prog.bind, writes, hc]
      exact ih _ h

/-- Each of the pairs is in the others, with a value above. -/
def Within (es es' : List (L × V)) : Prop := ∀ l v, (l, v) ∈ es → ∃ w, v ≤ w ∧ (l, w) ∈ es'

omit [DecidableEq L] in
theorem Within.nil (es : List (L × V)) : Within [] es := fun _ _ h => absurd h List.not_mem_nil

omit [DecidableEq L] in
theorem Within.append {es es' fs fs' : List (L × V)} (h : Within es es') (h' : Within fs fs') :
    Within (es ++ fs) (es' ++ fs') := by
  intro l v hmem
  rcases List.mem_append.1 hmem with hmem | hmem
  · obtain ⟨w, hw, hin⟩ := h l v hmem
    exact ⟨w, hw, List.mem_append_left _ hin⟩
  · obtain ⟨w, hw, hin⟩ := h' l v hmem
    exact ⟨w, hw, List.mem_append_right _ hin⟩

omit [DecidableEq L] in
theorem Within.single {l : L} {v w : V} (h : v ≤ w) : Within [(l, v)] [(l, w)] := by
  intro l' v' hmem
  obtain ⟨rfl, rfl⟩ := Prod.mk.inj (List.mem_singleton.1 hmem)
  exact ⟨w, h, List.mem_singleton_self _⟩

variable (O)

/-- What two runs that end have in common. -/
structure Coupled (I' : Mem L V T → Mem L V T → Prop) (R : α → β → Prop) (x : Prog L V A α)
    (y : Prog L V A β) (m₁ m₂ : Mem L V T) (a : α) (b : β) (m₁' m₂' : Mem L V T) : Prop where
  mem : I' m₁' m₂'
  result : R a b
  reads : Within (x.reads O m₁) (y.reads O m₂)
  writes : Within (x.writes O m₁) (y.writes O m₂)

/-- `x` and `y` run side by side. -/
def Couple (I I' : Mem L V T → Mem L V T → Prop) (F : L → Prop) (R : α → β → Prop)
    (x : Prog L V A α) (y : Prog L V A β) : Prop :=
  ∀ ⦃m₁ m₂ a b m₁' m₂'⦄, I m₁ m₂ → (∀ e ∈ x.reads O m₁, F e.1) →
    x.exec (Mem.handler O) m₁ = some (a, m₁') → y.exec (Mem.handler O) m₂ = some (b, m₂') →
    Coupled O I' R x y m₁ m₂ a b m₁' m₂'

namespace Couple

variable {O} {I I' I'' : Mem L V T → Mem L V T → Prop} {F : L → Prop} {R : α → β → Prop}
  {R' : γ → δ → Prop}

theorem pure {a : α} {b : β} (h : R a b) : Couple O I I F R (Pure.pure a) (Pure.pure b) := by
  intro m₁ m₂ a' b' m₁' m₂' hI _ hx hy
  cases hx
  cases hy
  exact ⟨hI, h, .nil _, .nil _⟩

theorem fail_left {y : Prog L V A β} : Couple O I I' F R .fail y := by
  intro m₁ m₂ a b m₁' m₂' _ _ hx _
  cases hx

theorem fail_right {x : Prog L V A α} : Couple O I I' F R x .fail := by
  intro m₁ m₂ a b m₁' m₂' _ _ _ hy
  cases hy

theorem imp {I₀ I₁ : Mem L V T → Mem L V T → Prop} {R₁ : α → β → Prop} {x : Prog L V A α}
    {y : Prog L V A β} (h : Couple O I I' F R x y) (hI : ∀ m₁ m₂, I₀ m₁ m₂ → I m₁ m₂)
    (hI' : ∀ m₁ m₂, I' m₁ m₂ → I₁ m₁ m₂) (hR : ∀ a b, R a b → R₁ a b) :
    Couple O I₀ I₁ F R₁ x y := by
  intro m₁ m₂ a b m₁' m₂' hm hreads hx hy
  obtain ⟨mem, result, reads, writes⟩ := h (hI _ _ hm) hreads hx hy
  exact ⟨hI' _ _ mem, hR _ _ result, reads, writes⟩

/-- **Sequences.** -/
theorem bind {x : Prog L V A α} {y : Prog L V A β} {f : α → Prog L V A γ} {g : β → Prog L V A δ}
    (h : Couple O I I' F R x y) (hk : ∀ a b, R a b → Couple O I' I'' F R' (f a) (g b)) :
    Couple O I I'' F R' (x >>= f) (y >>= g) := by
  intro m₁ m₂ c d m₁'' m₂'' hI hF hx hy
  rw [exec_bind, Option.bind_eq_some_iff] at hx hy
  obtain ⟨⟨a, m₁'⟩, hxa, hfx⟩ := hx
  obtain ⟨⟨b, m₂'⟩, hyb, hgy⟩ := hy
  rw [reads_bind hxa] at hF
  obtain ⟨mem, result, reads, writes⟩ :=
    h hI (fun e he => hF e (List.mem_append_left _ he)) hxa hyb
  obtain ⟨mem', result', reads', writes'⟩ :=
    hk a b result mem (fun e he => hF e (List.mem_append_right _ he)) hfx hgy
  refine ⟨mem', result', ?_, ?_⟩
  · rw [reads_bind hxa, reads_bind hyb]
    exact reads.append reads'
  · rw [writes_bind hxa, writes_bind hyb]
    exact writes.append writes'

theorem map {x : Prog L V A α} {y : Prog L V A β} {f : α → γ} {g : β → δ}
    (h : Couple O I I' F R x y) (hk : ∀ a b, R a b → R' (f a) (g b)) :
    Couple O I I' F R' (f <$> x) (g <$> y) :=
  h.bind fun a b hab => Couple.pure (hk a b hab)

theorem read {l : L} {R : V → V → Prop}
    (h : ∀ m₁ m₂, I m₁ m₂ → F l → m₁.vals l ≤ m₂.vals l ∧ R (m₁.vals l) (m₂.vals l)) :
    Couple O I I F R (Prog.read l) (Prog.read l) := by
  intro m₁ m₂ a b m₁' m₂' hI hF hx hy
  cases hx
  cases hy
  obtain ⟨hle, hR⟩ := h m₁ m₂ hI (hF (l, m₁.vals l) List.mem_cons_self)
  exact ⟨hI, hR, .single hle, .nil _⟩

theorem write {l : L} {v w : V} {R : Unit → Unit → Prop} (hle : v ≤ w) (hR : R () ())
    (h : ∀ m₁ m₂, I m₁ m₂ → I' (m₁.join l v) (m₂.join l w)) :
    Couple O I I' F R (Prog.write l v) (Prog.write l w) := by
  intro m₁ m₂ a b m₁' m₂' hI _ hx hy
  cases hx
  cases hy
  exact ⟨h m₁ m₂ hI, hR, .nil _, .single hle⟩

/-- A write of the second run alone. -/
theorem write_right {l : L} {w : V} {R : Unit → Unit → Prop} (hR : R () ())
    (h : ∀ m₁ m₂, I m₁ m₂ → I' m₁ (m₂.join l w)) :
    Couple O I I' F R (Pure.pure ()) (Prog.write l w) := by
  intro m₁ m₂ a b m₁' m₂' hI _ hx hy
  cases hx
  cases hy
  exact ⟨h m₁ m₂ hI, hR, .nil _, .nil _⟩

theorem query {q r : Q} {R : A q → A r → Prop}
    (h : ∀ m₁ m₂ a b t₁ t₂, I m₁ m₂ → O.answer q m₁.aux = some (a, t₁) →
      O.answer r m₂.aux = some (b, t₂) →
      I' { m₁ with aux := t₁ } { m₂ with aux := t₂ } ∧ R a b) :
    Couple O I I' F R (Prog.query q) (Prog.query r) := by
  intro m₁ m₂ a b m₁' m₂' hI _ hx hy
  obtain ⟨⟨a', m₁''⟩, hxa, hx⟩ := Option.bind_eq_some_iff.1 hx
  obtain ⟨⟨b', m₂''⟩, hyb, hy⟩ := Option.bind_eq_some_iff.1 hy
  obtain ⟨⟨_, t₁⟩, hq, heq⟩ := Option.map_eq_some_iff.1 hxa
  obtain ⟨⟨_, t₂⟩, hr, heq'⟩ := Option.map_eq_some_iff.1 hyb
  cases heq
  cases heq'
  cases hx
  cases hy
  obtain ⟨hmem, hres⟩ := h m₁ m₂ _ _ t₁ t₂ hI hq hr
  refine ⟨hmem, hres, ?_, ?_⟩
  · simp only [Prog.query, reads, hq]
    exact .nil _
  · simp only [Prog.query, writes, hq]
    exact .nil _

/-- The first program neither reads nor writes. -/
theorem silent {x : Prog L V A α} {y : Prog L V A β} (hreads : ∀ m, x.reads O m = [])
    (hwrites : ∀ m, x.writes O m = [])
    (h : ∀ m₁ m₂ a b m₁' m₂', I m₁ m₂ → x.exec (Mem.handler O) m₁ = some (a, m₁') →
      y.exec (Mem.handler O) m₂ = some (b, m₂') → I' m₁' m₂' ∧ R a b) :
    Couple O I I' F R x y := by
  intro m₁ m₂ a b m₁' m₂' hI _ hx hy
  obtain ⟨hmem, hres⟩ := h m₁ m₂ a b m₁' m₂' hI hx hy
  refine ⟨hmem, hres, ?_, ?_⟩
  · rw [hreads]
    exact .nil _
  · rw [hwrites]
    exact .nil _

/-! ## Loops -/

variable {E : α' → β' → Prop} {xs : List α'} {ys : List β'}

theorem foldlM {f : α → α' → Prog L V A α} {g : β → β' → Prog L V A β}
    (hf : ∀ a b x y, R a b → E x y → Couple O I I F R (f a x) (g b y))
    (hE : List.Forall₂ E xs ys) {a : α} {b : β} (hab : R a b) :
    Couple O I I F R (xs.foldlM f a) (ys.foldlM g b) := by
  induction hE generalizing a b with
  | nil => exact Couple.pure hab
  | cons hxy _ ih =>
      rw [List.foldlM_cons, List.foldlM_cons]
      exact (hf a b _ _ hab hxy).bind fun a b hab => ih hab

theorem forM {R : Unit → Unit → Prop} (hR : R () ()) {f : α' → Prog L V A Unit}
    {g : β' → Prog L V A Unit} (hf : ∀ x y, E x y → Couple O I I F R (f x) (g y))
    (hE : List.Forall₂ E xs ys) : Couple O I I F R (xs.forM f) (ys.forM g) := by
  induction hE with
  | nil => exact Couple.pure hR
  | cons hxy _ ih => exact (hf _ _ hxy).bind fun _ _ _ => ih

theorem mapM {f : α' → Prog L V A α} {g : β' → Prog L V A β}
    (hf : ∀ x y, E x y → Couple O I I F R (f x) (g y)) (hE : List.Forall₂ E xs ys) :
    Couple O I I F (List.Forall₂ R) (xs.mapM f) (ys.mapM g) := by
  induction hE with
  | nil => exact Couple.pure .nil
  | cons hxy _ ih =>
      rw [List.mapM_cons, List.mapM_cons]
      exact (hf _ _ hxy).bind fun a b hab => ih.bind fun _ _ hall =>
        Couple.pure (.cons hab hall)

end Couple
end Prog
end Lib
end Lunar
