/-
# What computations with a state keep

A computation may change its state and may stop with an error.  `Keeps P R x`: if
`x` comes back from a state with `P`, the state after it is related to the state
before it by `R`.  For a relation that is reflexive and transitive, and that `P`
follows, this goes through sequences and loops.
-/

namespace Lunar
namespace Lib

variable {σ ε α β : Type}

/-- From a state with `P`, `x` keeps `R`. -/
def Keeps (P : σ → Prop) (R : σ → σ → Prop) (x : StateT σ (Except ε) α) : Prop :=
  ∀ s a s', P s → x s = .ok (a, s') → R s s'

/-- A relation that computations can keep one after the other. -/
structure Chained (P : σ → Prop) (R : σ → σ → Prop) : Prop where
  refl : ∀ {s}, P s → R s s
  trans : ∀ {s s' s''}, P s → R s s' → R s' s'' → R s s''
  after : ∀ {s s'}, P s → R s s' → P s'

namespace Keeps

variable {P P' : σ → Prop} {R : σ → σ → Prop} {x : StateT σ (Except ε) α}
  {f : α → StateT σ (Except ε) β}

theorem weaken (h : Keeps P R x) (hP : ∀ s, P' s → P s) : Keeps P' R x :=
  fun s a s' hs hx => h s a s' (hP s hs) hx

theorem throw (e : ε) : Keeps P R (throw e : StateT σ (Except ε) α) := by
  intro s a s' _ h
  cases h

theorem pure (hR : Chained P R) (a : α) : Keeps P R (pure a : StateT σ (Except ε) α) := by
  intro s b s' hs h
  cases h
  exact hR.refl hs

theorem get (hR : Chained P R) : Keeps P R (get : StateT σ (Except ε) σ) := by
  intro s b s' hs h
  cases h
  exact hR.refl hs

theorem modify {g : σ → σ} (h : ∀ s, P s → R s (g s)) :
    Keeps P R (modify g : StateT σ (Except ε) PUnit) := by
  intro s b s' hs hx
  cases hx
  exact h s hs

theorem modifyGet {g : σ → α × σ} (h : ∀ s, P s → R s (g s).2) :
    Keeps P R (modifyGet g : StateT σ (Except ε) α) := by
  intro s b s' hs hx
  have hg : g s = (b, s') := Except.ok.inj hx
  have hr := h s hs
  rw [hg] at hr
  exact hr

/-- A computation that only reads. -/
theorem reads (hR : Chained P R) (g : σ → Except ε α) :
    Keeps P R (fun s => (g s).map (·, s) : StateT σ (Except ε) α) := by
  intro s a s' hs h
  change (g s).map (·, s) = _ at h
  cases hg : g s with
  | error e => rw [hg] at h; cases h
  | ok b =>
      rw [hg] at h
      cases h
      exact hR.refl hs

/-- **Sequences**, when the second part relies on what the first leaves. -/
theorem bind' {P : σ → Prop} {R Q T : σ → σ → Prop} {x : StateT σ (Except ε) α}
    (hx : Keeps P Q x) (hf : ∀ a s s', P s → Q s s' → ∀ b s'', f a s' = .ok (b, s'') → T s' s'')
    (hR : ∀ s s' s'', P s → Q s s' → T s' s'' → R s s'') : Keeps P R (x >>= f) := by
  intro s b s'' hs h
  change (x s >>= fun r => f r.1 r.2) = _ at h
  cases hxs : x s with
  | error e => rw [hxs] at h; cases h
  | ok r =>
      rw [hxs] at h
      have h₁ := hx s r.1 r.2 hs hxs
      exact hR s r.2 s'' hs h₁ (hf r.1 s r.2 hs h₁ b s'' h)

/-- **Sequences.** -/
theorem bind (hR : Chained P R) (hx : Keeps P R x) (hf : ∀ a, Keeps P R (f a)) :
    Keeps P R (x >>= f) :=
  bind' hx (fun a _ s' hs h b s'' => hf a s' b s'' (hR.after hs h)) fun _ _ _ => hR.trans

theorem map (hR : Chained P R) (hx : Keeps P R x) (g : α → β) : Keeps P R (g <$> x) :=
  bind hR hx fun _ => pure hR _

theorem mapM (hR : Chained P R) {g : α → StateT σ (Except ε) β} (hg : ∀ a, Keeps P R (g a))
    (xs : List α) : Keeps P R (xs.mapM g) := by
  induction xs with
  | nil => exact pure hR _
  | cons a xs ih =>
      rw [List.mapM_cons]
      exact bind hR (hg a) fun _ => bind hR ih fun _ => pure hR _

theorem forM (hR : Chained P R) {g : α → StateT σ (Except ε) PUnit} (hg : ∀ a, Keeps P R (g a))
    (xs : List α) : Keeps P R (xs.forM g) := by
  induction xs with
  | nil => exact pure hR _
  | cons a xs ih => exact bind hR (hg a) fun _ => ih

end Keeps
end Lib
end Lunar
