/-
# Arrays that are made later

A plan lists arrays that one side still has to make: the register of each and the
registers of its items.  An op that neither reads nor writes these registers does
the same before the plan is carried out as behind it, and a plan that is given up
leaves no trace but in its own registers.
-/

import Lunar.Payload.Exec.Agree

namespace Lunar
namespace Exec

variable {R : Realm}

/-- Arrays still to be made: the destination and the items of each. -/
abbrev Plan := List (ℕ × List ℕ)

/-- The registers that a plan writes. -/
def Plan.dests (p : Plan) : List ℕ := p.map (·.1)

@[simp] theorem Plan.not_mem_dests_nil {r : ℕ} : r ∉ Plan.dests [] := List.not_mem_nil

@[simp] theorem Plan.mem_dests_cons {r d : ℕ} {args : List ℕ} {p : Plan} :
    r ∈ Plan.dests ((d, args) :: p) ↔ r = d ∨ r ∈ p.dests := List.mem_cons

/-- Carrying out a plan. -/
inductive Pending : Plan → (ℕ → R.V) → R.W → (ℕ → R.V) → R.W → Prop
  | nil {regs w} : Pending [] regs w regs w
  | cons {d args p v regs regs₂ w w₁ w₂} : R.act .array (args.map regs) w = .ok v w₁ →
      Pending p (store (some d) v regs) w₁ regs₂ w₂ → Pending ((d, args) :: p) regs w regs₂ w₂

variable {regs regs' regs₁ regs₂ : ℕ → R.V} {w w' w₁ w₂ : R.W} {p : Plan}

/-- An array can be made of any registers, and leaves the others as they are. -/
theorem Valid.array (h : Valid regs w) (args : List ℕ) : ∃ v w₁,
    R.act .array (args.map regs) w = .ok v w₁ ∧ R.Same regs w₁ regs w ∧
      R.Same (adjoin v regs) w₁ (adjoin v regs) w₁ := by
  obtain ⟨v, w₁, hact, hs⟩ := R.act_pure h (a := .array) rfl args
  refine ⟨v, w₁, hact, hs, ?_⟩
  have hout := R.act_congr h .array args
  rw [hact] at hout
  rcases hout with ⟨hs⟩
  exact hs

theorem same_store {v v' : R.V} {d : Option ℕ}
    (h : R.Same (adjoin v regs) w (adjoin v' regs') w') :
    R.Same (store d v regs) w (store d v' regs') w' := by
  refine R.same_of h fun r => ?_
  by_cases hd : d = some r
  · exact ⟨none, (store_eq hd v regs).symm, (store_eq hd v' regs').symm⟩
  · exact ⟨some r, (store_ne hd v regs).symm, (store_ne hd v' regs').symm⟩

theorem Pending.valid (hp : Pending p regs w regs₂ w₂) (h : Valid regs w) : Valid regs₂ w₂ := by
  induction hp with
  | nil => exact h
  | @cons d args p v regs regs₂ w w₁ w₂ hact _ ih =>
      obtain ⟨v', w₁', hact', -, hs⟩ := h.array args
      obtain ⟨rfl, rfl⟩ : v = v' ∧ w₁ = w₁' := by simpa using hact.symm.trans hact'
      exact ih (same_store hs)

/-- A plan that is given up. -/
theorem Pending.drop (hp : Pending p regs w regs₂ w₂) (h : Valid regs w) :
    Agree (· ∉ p.dests) regs₂ w₂ regs w := by
  induction hp with
  | nil => exact h.agree
  | @cons d args p v regs regs₂ w w₁ w₂ hact _ ih =>
      obtain ⟨v', w₁', hact', hold, hs⟩ := h.array args
      obtain ⟨rfl, rfl⟩ : v = v' ∧ w₁ = w₁' := by simpa using hact.symm.trans hact'
      have hrest := (ih (same_store hs)).mono fun r (hr : r ∉ Plan.dests ((d, args) :: p)) =>
        fun hmem => hr (List.mem_cons_of_mem _ hmem)
      refine hrest.trans (R.same_of hold fun r => ⟨r, (store_ne ?_ _ _).symm, rfl⟩)
      intro heq
      exact r.2 (Plan.mem_dests_cons.2 (.inl (Option.some.inj heq).symm))

/-- A plan can be carried out on either side. -/
theorem Pending.congr (hp : Pending p regs w regs₂ w₂) (h : R.Same regs w regs' w') :
    ∃ regs₂' w₂', Pending p regs' w' regs₂' w₂' ∧ R.Same regs₂ w₂ regs₂' w₂' := by
  induction hp generalizing regs' w' with
  | nil => exact ⟨regs', w', .nil, h⟩
  | @cons d args p v regs regs₂ w w₁ w₂ hact _ ih =>
      have hout := R.act_congr h .array args
      rw [hact] at hout
      revert hout
      generalize ho : R.act .array (args.map regs') w' = o
      rintro ⟨hs⟩
      obtain ⟨regs₂', w₂', hp', hs'⟩ := ih (same_store hs)
      exact ⟨regs₂', w₂', .cons ho hp', hs'⟩

/-- One more array at the end of a plan. -/
theorem Pending.snoc (hp : Pending p regs w regs₂ w₂) {d : ℕ} {args : List ℕ} {v : R.V} {w₃ : R.W}
    (hact : R.act .array (args.map regs₂) w₂ = .ok v w₃) :
    Pending (p ++ [(d, args)]) regs w (store (some d) v regs₂) w₃ := by
  induction hp with
  | nil => exact .cons hact .nil
  | cons h _ ih => exact .cons h (ih hact)

/-! ### An op before a plan -/

/-- The op went the same way, with the plan still pending where it falls through
and given up elsewhere. -/
abbrev Before (p : Plan) : Next R → Next R → Prop :=
  Next.Rel
    (fun regs w regs₁ w₁ => ∃ regs₂ w₂, Pending p regs w regs₂ w₂ ∧ R.Same regs₂ w₂ regs₁ w₁)
    (Agree (· ∉ p.dests))

/-- The op leaves the plan alone. -/
structure Spares (sh : Shape) (p : Plan) : Prop where
  uses : ∀ r ∈ sh.uses, r ∉ p.dests
  dest : ∀ d, sh.dest = some d → d ∉ p.dests ∧ ∀ x ∈ p, d ∉ x.2

theorem Spares.head {sh : Shape} {x : ℕ × List ℕ} {p : Plan} (h : Spares sh (x :: p)) :
    Spares sh [x] := by
  rcases x with ⟨d, args⟩
  constructor
  · intro r hr hmem
    exact h.uses r hr (by simp_all)
  · intro r hr
    have := h.dest r hr
    simp_all

theorem Spares.tail {sh : Shape} {x : ℕ × List ℕ} {p : Plan} (h : Spares sh (x :: p)) :
    Spares sh p :=
  ⟨fun r hr hmem => h.uses r hr (List.mem_cons_of_mem _ hmem),
    fun r hr => ⟨fun hmem => (h.dest r hr).1 (List.mem_cons_of_mem _ hmem),
      fun y hy => (h.dest r hr).2 y (List.mem_cons_of_mem _ hy)⟩⟩

theorem Next.Rel.fall_of {F F' A A' : (ℕ → R.V) → R.W → (ℕ → R.V) → R.W → Prop} {n n' : Next R}
    (h : Next.Rel F A n n')
    (hF : ∀ regs w regs' w', n = .fall regs w → n' = .fall regs' w' → F' regs w regs' w')
    (hA : ∀ regs w regs' w', A regs w regs' w' → A' regs w regs' w') : Next.Rel F' A' n n' := by
  cases h with
  | fall h => exact .fall (hF _ _ _ _ rfl rfl)
  | branch t h => exact .branch t (hA _ _ _ _ h)
  | caught pc h => exact .caught pc (hA _ _ _ _ h)
  | jump pc h => exact .jump pc (hA _ _ _ _ h)
  | done h => exact .done h

/-- An op that falls through is an act with a result or a test, which changes
nothing. -/
theorem perform_fall {sh : Shape} (h : (perform sh regs w).2 = .fall regs' w') :
    (∃ a args d v, sh = .act a args d ∧ R.act a (args.map regs) w = .ok v w' ∧
      regs' = store d v regs) ∨
    ((∃ t c tgt, sh = .test t c tgt) ∧ regs' = regs ∧ w' = w) := by
  have hthrow : ∀ v w, throwNext regs v w ≠ .fall regs' w' := by
    intro v w hv
    rw [throwNext] at hv
    cases hr : R.raise v w <;> rw [hr] at hv <;> cases hv
  have hf := perform_allows sh regs w
  rw [h] at hf
  cases sh with
  | act a args d =>
      left
      simp only [perform] at h
      cases hact : R.act a (args.map regs) w with
      | ok v w₁ =>
          rw [hact] at h
          obtain ⟨rfl, rfl⟩ : store d v regs = regs' ∧ w₁ = w' := by simpa using h
          exact ⟨a, args, d, v, rfl, hact, rfl⟩
      | throw v w₁ =>
          rw [hact] at h
          exact absurd h (hthrow v w₁)
      | fault e =>
          rw [hact] at h
          cases h
  | test t c tgt =>
      right
      simp only [perform] at h
      split at h
      · cases h
      · obtain ⟨rfl, rfl⟩ : regs = regs' ∧ w = w' := by simpa using h
        exact ⟨⟨t, c, tgt, rfl⟩, rfl, rfl⟩
  | _ => cases hf

/-- One array that is made later. -/
theorem perform_delay (h : Valid regs w) {d : ℕ} {args : List ℕ} {v : R.V}
    (hact : R.act .array (args.map regs) w = .ok v w₁) {sh : Shape} (hs : Spares sh [(d, args)]) :
    List.Forall₂ SameEvent (perform sh regs w).1 (perform sh (store (some d) v regs) w₁).1 ∧
      Before [(d, args)] (perform sh regs w).2 (perform sh (store (some d) v regs) w₁).2 := by
  have hpend : Pending [(d, args)] regs w (store (some d) v regs) w₁ := .cons hact .nil
  obtain ⟨hev, hrel⟩ := perform_agree (hpend.drop h).symm sh hs.uses
  refine ⟨hev, hrel.fall_of (fun regs' w' regs₁' w₁' hn hn₁ => ?_) fun _ _ _ _ h => h⟩
  -- the operands are the same registers, so both sides run the act and `delay` applies
  have hargs : ∀ l : List ℕ, (∀ r ∈ l, r ≠ d) → l.map (store (some d) v regs) = l.map regs :=
    fun l hl => List.map_congr_left fun r hr =>
      store_ne (fun heq => hl r hr (Option.some.inj heq).symm) v regs
  have hne : ∀ r ∈ sh.uses, r ≠ d := fun r hr heq => hs.uses r hr (heq ▸ List.mem_cons_self)
  rcases perform_fall hn with ⟨a, args', dd, u, rfl, ha, rfl⟩ | ⟨⟨t, c, tgt, rfl⟩, rfl, rfl⟩
  · rcases perform_fall hn₁ with ⟨a₁, args₁, dd₁, u₁, hsh, ha₁, rfl⟩ | ⟨⟨t, c, tgt, hsh⟩, -, -⟩
    · cases hsh
      rw [hargs args' hne] at ha₁
      have hout := R.delay h args hact a args'
      rw [ha, ha₁] at hout
      rcases hout with ⟨v', w₃, hact', hsame⟩
      have hdd : ∀ x, dd = some x → x ≠ d ∧ x ∉ args := fun x hx => by
        have := hs.dest x hx
        exact ⟨fun heq => this.1 (heq ▸ List.mem_cons_self), this.2 _ List.mem_cons_self⟩
      have hitems : args.map (store dd u regs) = args.map regs :=
        List.map_congr_left fun r hr => store_ne (fun heq => (hdd r heq).2 hr) u regs
      refine ⟨store (some d) v' (store dd u regs), w₃, .cons (by rw [hitems]; exact hact') .nil, ?_⟩
      refine R.same_of hsame fun r => ?_
      by_cases hr : dd = some r
      · have hrd : (some d : Option ℕ) ≠ some r := fun heq =>
          (hdd r hr).1 (Option.some.inj heq).symm
        exact ⟨none, by rw [store_ne hrd, store_eq hr]; rfl, by rw [store_eq hr]; rfl⟩
      · by_cases hrd : (some d : Option ℕ) = some r
        · exact ⟨some none, by rw [store_eq hrd]; rfl,
            by rw [store_ne hr, store_eq hrd]; rfl⟩
        · exact ⟨some (some r), by rw [store_ne hrd, store_ne hr]; rfl,
            by rw [store_ne hr, store_ne hrd]; rfl⟩
    · cases hsh
  · rcases perform_fall hn₁ with ⟨a₁, args₁, dd₁, u₁, hsh, -, -⟩ | ⟨-, rfl, rfl⟩
    · cases hsh
    · exact ⟨_, _, hpend, hpend.valid h⟩

/-- **An op commutes with a plan it leaves alone.** -/
theorem perform_pending (hp : Pending p regs w regs₂ w₂) (h : Valid regs w) {sh : Shape}
    (hs : Spares sh p) :
    List.Forall₂ SameEvent (perform sh regs w).1 (perform sh regs₂ w₂).1 ∧
      Before p (perform sh regs w).2 (perform sh regs₂ w₂).2 := by
  induction hp with
  | @nil regs w =>
      have hag : Agree (fun _ => True) regs w regs w := h.agree
      obtain ⟨hev, hrel⟩ := perform_agree hag sh fun _ _ => trivial
      refine ⟨hev, hrel.mono (fun regs w regs' w' hF => ?_) fun regs w regs' w' hA => ?_⟩
      · exact ⟨regs, w, .nil, R.same_of hF fun r => ⟨⟨r, .inr trivial⟩, rfl, rfl⟩⟩
      · exact hA.mono fun _ _ => trivial
  | @cons d args p v regs regs₂ w w₁ w₂ hact hrest ih =>
      have hv₁ : Valid (store (some d) v regs) w₁ :=
        Pending.valid (p := [(d, args)]) (.cons hact .nil) h
      obtain ⟨hev₁, hrel₁⟩ := perform_delay h hact hs.head
      obtain ⟨hev₂, hrel₂⟩ := ih hv₁ hs.tail
      refine ⟨Lib.Machine.forall₂_trans SameEvent.trans hev₁ hev₂, ?_⟩
      have hsplit : ∀ {regsₐ wₐ regsᵦ wᵦ regsᵧ wᵧ},
          Agree (R := R) (· ∉ Plan.dests [(d, args)]) regsₐ wₐ regsᵦ wᵦ →
          Agree (· ∉ p.dests) regsᵦ wᵦ regsᵧ wᵧ →
          Agree (· ∉ Plan.dests ((d, args) :: p)) regsₐ wₐ regsᵧ wᵧ := fun h₁ h₂ =>
        (h₁.mono fun r hr => by simp_all).trans (h₂.mono fun r hr => by simp_all)
      generalize (perform sh regs w).2 = n at hrel₁
      generalize (perform sh (store (some d) v regs) w₁).2 = n₁ at hrel₁ hrel₂
      generalize (perform sh regs₂ w₂).2 = n₂ at hrel₂
      cases hrel₁ with
      | fall h₁ =>
          rcases hrel₂ with ⟨h₂⟩
          obtain ⟨regsₐ, wₐ, hpₐ, hsₐ⟩ := h₁
          obtain ⟨regsᵦ, wᵦ, hpᵦ, hsᵦ⟩ := h₂
          obtain ⟨regsᵧ, wᵧ, hpᵧ, hsᵧ⟩ := hpᵦ.congr (R.symm hsₐ)
          rcases hpₐ with _ | ⟨hactₐ, _ | _⟩
          exact .fall ⟨regsᵧ, wᵧ, .cons hactₐ hpᵧ, R.trans (R.symm hsᵧ) hsᵦ⟩
      | branch t h₁ =>
          rcases hrel₂ with _ | ⟨_, h₂⟩
          exact .branch t (hsplit h₁ h₂)
      | caught pc h₁ =>
          rcases hrel₂ with _ | _ | ⟨_, h₂⟩
          exact .caught pc (hsplit h₁ h₂)
      | jump pc h₁ =>
          rcases hrel₂ with _ | _ | _ | ⟨_, h₂⟩
          exact .jump pc (hsplit h₁ h₂)
      | done h₁ =>
          rcases hrel₂ with _ | _ | _ | _ | ⟨h₂⟩
          exact .done (End.Same.trans _ _ _ h₁ h₂)

/-- A plan for an array and an array of a register and that one. -/
theorem Pending.two {th ra rb : ℕ} {elems : List ℕ}
    (hp : Pending [(rb, elems), (ra, [th, rb])] regs w regs₂ w₂) (hth : th ≠ rb) :
    ∃ v w₁ o, R.act .array (elems.map regs) w = .ok v w₁ ∧
      R.act .array [regs th, v] w₁ = .ok o w₂ ∧
      regs₂ = store (some ra) o (store (some rb) v regs) := by
  cases hp with
  | @cons _ _ _ v _ _ _ w₁ _ hinner hp =>
      cases hp with
      | @cons _ _ _ o _ _ _ _ _ houter hp =>
          cases hp
          have hth' : store (some rb) v regs th = regs th :=
            store_ne (fun heq => hth (Option.some.inj heq).symm) v regs
          have hrb : store (some rb) v regs rb = v := store_eq rfl v regs
          rw [List.map_cons, List.map_cons, List.map_nil, hth', hrb] at houter
          exact ⟨v, w₁, o, hinner, houter, rfl⟩

/-- **`ApplyL` is an `Apply` behind its plan.** -/
theorem perform_applyL {f t th ra rb : ℕ} {elems : List ℕ} (d : Option ℕ)
    (hp : Pending [(rb, elems), (ra, [th, rb])] regs w regs₂ w₂) (h : Valid regs w)
    (hth : th ≠ rb) (hf : f ≠ ra ∧ f ≠ rb) (ht : t ≠ ra ∧ t ≠ rb) :
    List.Forall₂ SameEvent
        (perform (.act .applyL (f :: t :: th :: elems) d) regs w).1
        (perform (.act .apply [f, t, ra] d) regs₂ w₂).1 ∧
      Next.Rel (Agree fun r => d = some r ∨ (r ≠ ra ∧ r ≠ rb)) (Agree fun r => r ≠ ra ∧ r ≠ rb)
        (perform (.act .applyL (f :: t :: th :: elems) d) regs w).2
        (perform (.act .apply [f, t, ra] d) regs₂ w₂).2 := by
  have hv₂ := hp.valid h
  obtain ⟨v, w₁, o, hinner, houter, hregs⟩ := hp.two hth
  have hother : ∀ r, r ≠ ra ∧ r ≠ rb → regs₂ r = regs r := fun r hr => by
    rw [hregs, store_ne (fun heq => hr.1 (Option.some.inj heq).symm),
      store_ne (fun heq => hr.2 (Option.some.inj heq).symm)]
  have hra : regs₂ ra = o := by rw [hregs, store_eq rfl]
  have hout := R.applyL h f t th elems hinner houter
  rw [← hother f hf, ← hother t ht, ← hra] at hout
  have hunfold : (⟨.applyL, (f :: t :: th :: elems).map regs, w⟩ : Event R).unfold =
      ⟨.apply, [f, t, ra].map regs₂, w₂⟩ := by
    simp only [List.map_cons, List.map_nil, Event.unfold, hinner, houter, hother f hf,
      hother t ht, hra]
  refine ⟨.cons ?_ .nil, ?_⟩
  · rw [SameEvent, hunfold]
    exact Event.Same.of_map hv₂ .apply [f, t, ra]
  · have hkeep : ∀ {u u' : R.V} {w w' : R.W}, R.Same (adjoin u regs) w (adjoin u' regs) w' →
        Agree (fun r => r ≠ ra ∧ r ≠ rb) regs w regs₂ w' := fun hs =>
      R.same_of hs fun r => ⟨some r, rfl, (hother r r.2).symm⟩
    simp only [perform, List.map_cons, List.map_nil] at hout ⊢
    rw [hother f hf, hother t ht] at hout ⊢
    generalize R.act .applyL _ w = a at hout ⊢
    generalize R.act .apply _ w₂ = a' at hout ⊢
    cases hout with
    | ok hs =>
        exact .fall (.store hs fun r hr hd =>
          ⟨r, rfl, (hother r (hr.resolve_left hd)).symm⟩)
    | throw hs => exact throwNext_rel hs hkeep
    | fault e => exact .done (.fault _)

end Exec
end Lunar
