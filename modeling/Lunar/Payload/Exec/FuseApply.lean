/-
# Arrays that become operands

One fusion drops the two array ops that feed an `Apply` and makes it an `ApplyL`.
The fused code runs in lockstep with the code before it: between the array ops and
the call the arrays are a plan still to be carried out, and the files agree behind
the plan.  Several fusions compose, because each leaves behind an annotation of the
code (which registers must be kept where) that the next one needs.
-/

import Lunar.Payload.Exec.DeadStores

namespace Lunar
namespace Exec

variable {R : Realm}

/-- A place that a jump, a branch, a pc or the entry names. -/
def Code.Named (c : Code) (t : ℕ) : Prop :=
  (∃ op ∈ c.ops, t ∈ opTargets op) ∨ t ∈ c.pcs.map (·.2) ∨ t = c.entryIp

/-- Which registers must be kept at each place of masked code, for runs that do not
take the branches of `bad`. -/
structure Annot (m : Masked) (bad : ℕ → ℕ → Prop) (T : ℕ → ℕ → Prop) : Prop where
  uses : ∀ {i op r}, m.code.ops[i]? = some op → m.keep.getD i false = true →
    r ∈ (shape m.code.lists op).uses → T i r
  skip : ∀ {i r}, i < m.code.ops.length → m.keep.getD i false = false → T (i + 1) r → T i r
  fall : ∀ {i op r}, m.code.ops[i]? = some op → m.keep.getD i false = true →
    (shape m.code.lists op).falls = true → T (i + 1) r → opDef op = some r ∨ T i r
  branch : ∀ {i op t r}, m.code.ops[i]? = some op → m.keep.getD i false = true →
    t ∈ (shape m.code.lists op).targets → ¬bad i t → T t r → T i r

namespace Fusion

variable (u : Fusion)

/-- The code with the call at `i3` fused and the arrays dropped. -/
def fused (m : Masked) : Masked :=
  ⟨{ m.code with ops := m.code.ops.set u.i3 (.applyL u.d u.f u.t u.th u.lb u.nb) },
    (m.keep.set u.i1 false).set u.i2 false⟩

/-- What is to be made when the fused code stands at a place. -/
def plan (lists : List ℕ) (i : ℕ) : Plan :=
  if u.i1 < i ∧ i ≤ u.i2 then [(u.rb, u.elems lists)]
  else if u.i2 < i ∧ i ≤ u.i3 then [(u.rb, u.elems lists), (u.ra, [u.th, u.rb])]
  else []

/-- The registers that the fused call will read. -/
def needs (lists : List ℕ) (i : ℕ) : List ℕ :=
  if u.i1 < i ∧ i ≤ u.i2 then u.elems lists
  else if u.i2 < i ∧ i ≤ u.i3 then u.th :: u.elems lists
  else []

/-- The annotation of the fused code. -/
def annot (lists : List ℕ) (T : ℕ → ℕ → Prop) (i r : ℕ) : Prop :=
  (T i r ∧ r ∉ (u.plan lists i).dests) ∨ r ∈ u.needs lists i

/-- What the checks of `fuse_apply` say about a fusion of annotated code. -/
structure Fits (m : Masked) (bad : ℕ → ℕ → Prop) (T : ℕ → ℕ → Prop) : Prop where
  lt₁₂ : u.i1 < u.i2
  lt₂₃ : u.i2 < u.i3
  op₁ : m.code.ops[u.i1]? = some (.array u.rb u.lb u.nb)
  op₂ : ∃ la, m.code.ops[u.i2]? = some (.array u.ra la 2) ∧
    slice m.code.lists la 2 = [u.th, u.rb]
  op₃ : m.code.ops[u.i3]? = some (.apply u.d u.f u.t u.ra)
  keep₁ : m.keep.getD u.i1 false = true
  keep₂ : m.keep.getD u.i2 false = true
  keep₃ : m.keep.getD u.i3 false = true
  unnamed : ∀ j, u.i1 < j → j ≤ u.i3 → ¬m.code.Named j
  ra_ne : u.ra ≠ u.rb
  th_ne : u.th ≠ u.ra ∧ u.th ≠ u.rb
  f_ne : u.f ≠ u.ra ∧ u.f ≠ u.rb
  t_ne : u.t ≠ u.ra ∧ u.t ≠ u.rb
  elems_ne : ∀ r ∈ u.elems m.code.lists, r ≠ u.ra ∧ r ≠ u.rb
  after : ∀ r, T (u.i3 + 1) r → r ≠ u.ra ∧ r ≠ u.rb
  handlers : ∀ q ∈ m.code.pcs.map (·.2), ∀ r, T q r → r ≠ u.ra ∧ r ≠ u.rb
  quiet : ∀ j op, u.i1 < j → j < u.i3 → j ≠ u.i2 → m.keep.getD j false = true →
    m.code.ops[j]? = some op →
    (∀ r ∈ (shape m.code.lists op).uses, r ≠ u.ra ∧ r ≠ u.rb) ∧
    ∀ r, opDef op = some r → r ≠ u.ra ∧ r ≠ u.rb ∧ r ∉ u.elems m.code.lists ∧
      (u.i2 < j → r ≠ u.th)
  leave : ∀ j op t, u.i1 < j → j < u.i3 → m.code.ops[j]? = some op →
    t ∈ (shape m.code.lists op).targets → T t u.rb ∨ (u.i2 < j ∧ T t u.ra) → bad j t

variable {u} {m : Masked} {bad : ℕ → ℕ → Prop} {T : ℕ → ℕ → Prop} {i : ℕ}

theorem plan_outside (lists : List ℕ) (h : ¬(u.i1 < i ∧ i ≤ u.i3)) (h₁₂ : u.i1 < u.i2) (h₂₃ : u.i2 < u.i3) :
    u.plan lists i = [] ∧ u.needs lists i = [] := by
  have h₁ : ¬(u.i1 < i ∧ i ≤ u.i2) := by omega
  have h₂ : ¬(u.i2 < i ∧ i ≤ u.i3) := by omega
  simp only [plan, needs, h₁, h₂, if_false, and_self]

theorem plan_first (lists : List ℕ) (h : u.i1 < i ∧ i ≤ u.i2) :
    u.plan lists i = [(u.rb, u.elems lists)] ∧ u.needs lists i = u.elems lists := by
  rw [plan, needs, if_pos h, if_pos h]
  exact ⟨rfl, rfl⟩

theorem plan_second (lists : List ℕ) (h : u.i2 < i ∧ i ≤ u.i3) :
    u.plan lists i = [(u.rb, u.elems lists), (u.ra, [u.th, u.rb])] ∧
      u.needs lists i = u.th :: u.elems lists := by
  have h₁ : ¬(u.i1 < i ∧ i ≤ u.i2) := by omega
  simp only [plan, needs, h₁, h, and_self, if_true, if_false]

/-- Between two places with no op of the fusion the plan is the same. -/
theorem plan_succ (lists : List ℕ) (h₁ : i ≠ u.i1) (h₂ : i ≠ u.i2) (h₃ : i ≠ u.i3) :
    u.plan lists (i + 1) = u.plan lists i ∧ u.needs lists (i + 1) = u.needs lists i := by
  have h : (u.i1 < i + 1 ∧ i + 1 ≤ u.i2 ↔ u.i1 < i ∧ i ≤ u.i2) ∧
      (u.i2 < i + 1 ∧ i + 1 ≤ u.i3 ↔ u.i2 < i ∧ i ≤ u.i3) := by omega
  simp only [plan, needs, h.1, h.2, and_self]

theorem mem_plan_dests {lists : List ℕ} {r : ℕ} (h : r ∈ (u.plan lists i).dests) : r = u.ra ∨ r = u.rb := by
  rw [plan] at h
  split at h
  · exact .inr (by simpa using h)
  · split at h
    · simpa [or_comm] using h
    · simp at h

theorem Fits.plan_named (h : u.Fits m bad T) {t : ℕ} (ht : m.code.Named t) :
    u.plan lists t = [] ∧ u.needs lists t = [] :=
  plan_outside _ (fun hin => h.unnamed t hin.1 hin.2 ht) h.lt₁₂ h.lt₂₃

/-- The op and the mark of a place that the fusion leaves alone. -/
theorem fused_getElem? (h₃ : i ≠ u.i3) : (u.fused m).code.ops[i]? = m.code.ops[i]? :=
  List.getElem?_set_ne (Ne.symm h₃)

theorem fused_keep (h₁ : i ≠ u.i1) (h₂ : i ≠ u.i2) :
    (u.fused m).keep.getD i false = m.keep.getD i false := by
  rw [fused, getD_set, getD_set, if_neg (fun h => h₂ h.1.symm), if_neg (fun h => h₁ h.1.symm)]

theorem fused_drop (h : i = u.i1 ∨ i = u.i2) : (u.fused m).keep.getD i false = false := by
  have hset : ∀ (l : List Bool) (j : ℕ), l.getD i false = false ∨ i = j →
      (l.set j false).getD i false = false := by
    intro l j hij
    rw [getD_set]
    split
    · rfl
    · next hne =>
        rcases hij with h | rfl
        · exact h
        · rw [List.getD_eq_getElem?_getD, List.getElem?_eq_none (by simpa using hne)]
          rfl
  refine hset _ _ (h.imp (fun h₁ => ?_) id)
  exact hset _ _ (.inr h₁)

end Fusion

/-! ### Lockstep of one fusion -/

theorem SameEvent.symm {e e' : Event R} (h : SameEvent e e') : SameEvent e' e := by
  obtain ⟨ha, n, ρ, ρ', h₁, h₂, hs⟩ := h
  exact ⟨ha.symm, n, ρ', ρ, h₂, h₁, R.symm hs⟩

theorem End.Same.symm {o o' : End R} (h : o.Same o') : o'.Same o := by
  cases h with
  | returned h => exact .returned (R.symm h)
  | thrown h => exact .thrown (R.symm h)
  | fault e => exact .fault e

/-- Two ops that went the same way as a third one. -/
theorem Next.Rel.meet {F A F' A' F'' A'' : (ℕ → R.V) → R.W → (ℕ → R.V) → R.W → Prop}
    {n n' n₁ : Next R} (h : Next.Rel F A n n₁) (h' : Next.Rel F' A' n' n₁)
    (hF : ∀ {a b a' b' a₁ b₁}, F a b a₁ b₁ → F' a' b' a₁ b₁ → F'' a b a' b')
    (hA : ∀ {a b a' b' a₁ b₁}, A a b a₁ b₁ → A' a' b' a₁ b₁ → A'' a b a' b') :
    Next.Rel F'' A'' n n' := by
  cases h with
  | fall h => rcases h' with ⟨h'⟩; exact .fall (hF h h')
  | branch t h => rcases h' with _ | ⟨_, h'⟩; exact .branch t (hA h h')
  | caught pc h => rcases h' with _ | _ | ⟨_, h'⟩; exact .caught pc (hA h h')
  | jump pc h => rcases h' with _ | _ | _ | ⟨_, h'⟩; exact .jump pc (hA h h')
  | done h => rcases h' with _ | _ | _ | _ | ⟨h'⟩; exact .done (End.Same.trans _ _ _ h h'.symm)

theorem sameEvents_meet {es es' es₁ : List (Event R)} (h : List.Forall₂ SameEvent es es₁)
    (h' : List.Forall₂ SameEvent es' es₁) : List.Forall₂ SameEvent es es' :=
  Lib.Machine.forall₂_trans SameEvent.trans h (h'.flip.imp fun _ _ => SameEvent.symm)

/-- An array op that one side puts off. -/
theorem perform_defer {p : Plan} {K : ℕ → Prop} {regs regs' regs₁ : ℕ → R.V} {w w' w₁ : R.W}
    (hp : Pending p regs' w' regs₁ w₁) (hv : Valid regs' w') (hag : Agree K regs w regs₁ w₁)
    {d : ℕ} {args : List ℕ} (hargs : ∀ r ∈ args, K r) :
    ∃ v w₂ v' w₂', perform (.act .array args (some d)) regs w =
        ([], .fall (store (some d) v regs) w₂) ∧
      Pending (p ++ [(d, args)]) regs' w' (store (some d) v' regs₁) w₂' ∧
      Agree (fun r => r = d ∨ K r) (store (some d) v regs) w₂ (store (some d) v' regs₁) w₂' := by
  obtain ⟨v', w₂', hact', -, -⟩ := (hp.valid hv).array args
  obtain ⟨-, hrel⟩ := perform_agree hag (.act .array args (some d)) hargs
  have hperf' : perform (.act .array args (some d)) regs₁ w₁ =
      ([], .fall (store (some d) v' regs₁) w₂') := by
    rw [perform, hact']
    rfl
  rw [hperf'] at hrel
  generalize hn : (perform (.act .array args (some d)) regs w).2 = n at hrel
  rcases hrel with ⟨hF⟩
  rcases perform_fall hn with ⟨a, args', dd, v, hsh, hact, rfl⟩ | ⟨⟨t, c, tgt, hsh⟩, -, -⟩
  · cases hsh
    refine ⟨v, _, v', w₂', ?_, hp.snoc hact', hF.mono fun r hr => ?_⟩
    · rw [perform, hact]
      rfl
    · exact hr.imp (fun h => by rw [h]; rfl) id
  · cases hsh

/-- The files of a fused run: they agree behind the plan, on the other registers
and on those that must be kept. -/
structure FuseRel (u : Fusion) (lists : List ℕ) (T : ℕ → ℕ → Prop) (s s' : State R) : Prop where
  ip : s.ip = s'.ip
  valid : Valid s'.regs s'.w
  agree : ∃ regs₁ w₁, Pending (u.plan lists s.ip) s'.regs s'.w regs₁ w₁ ∧
    Agree (fun r => (r ≠ u.ra ∧ r ≠ u.rb) ∨ T s.ip r ∨ r ∈ (u.plan lists s.ip).dests)
      s.regs s.w regs₁ w₁

section Lockstep

variable {u : Fusion} {m : Masked} {bad : ℕ → ℕ → Prop} {T : ℕ → ℕ → Prop}

/-- A place outside the fusion, entered with the plan given up. -/
theorem FuseRel.enter {regs regs' : ℕ → R.V} {w w' : R.W} {t : ℕ}
    (hplan : u.plan m.code.lists t = [])
    (hv : Valid regs' w')
    (hag : Agree (fun r => (r ≠ u.ra ∧ r ≠ u.rb) ∨ T t r) regs w regs' w') :
    FuseRel u m.code.lists T ⟨t, regs, w⟩ ⟨t, regs', w'⟩ := by
  refine ⟨rfl, hv, regs', w', ?_, ?_⟩
  · rw [hplan]
    exact .nil
  · refine hag.mono fun r hr => ?_
    rw [hplan] at hr
    simpa using hr

/-- What is read at a place where an op of the fusion does not stand. -/
theorem Fusion.Fits.spares (h : u.Fits m bad T) {i : ℕ} {op : Op} (h₂ : i ≠ u.i2)
    (h₃ : i ≠ u.i3) (hop : m.code.ops[i]? = some op) (hk : m.keep.getD i false = true) :
    Spares (shape m.code.lists op) (u.plan m.code.lists i) := by
  by_cases hin : u.i1 < i ∧ i ≤ u.i3
  · obtain ⟨huses, hdest⟩ := h.quiet i op hin.1 (by omega) h₂ hk hop
    constructor
    · intro r hr hmem
      rcases Fusion.mem_plan_dests hmem with rfl | rfl
      · exact (huses _ hr).1 rfl
      · exact (huses _ hr).2 rfl
    · intro r hr
      rw [← opDef_eq] at hr
      obtain ⟨hra, hrb, hel, hth⟩ := hdest r hr
      refine ⟨fun hmem => (Fusion.mem_plan_dests hmem).elim hra hrb, ?_⟩
      by_cases hfirst : i ≤ u.i2
      · rw [(Fusion.plan_first _ ⟨hin.1, hfirst⟩).1]
        simpa using hel
      · rw [(Fusion.plan_second _ ⟨by omega, hin.2⟩).1]
        simpa [hrb] using ⟨hel, hth (by omega)⟩
  · rw [(Fusion.plan_outside _ hin h.lt₁₂ h.lt₂₃).1]
    exact ⟨fun r _ => by simp, fun r _ => ⟨by simp, by simp⟩⟩

/-- An op of its own on both sides: the plan stays or is given up. -/
theorem fuse_other (h : u.Fits m bad T) (hT : Annot m bad T) {i : ℕ} {op : Op}
    {regs regs' : ℕ → R.V} {w w' : R.W} (h₁ : i ≠ u.i1) (h₂ : i ≠ u.i2) (h₃ : i ≠ u.i3)
    (hop : m.code.ops[i]? = some op) (hk : m.keep.getD i false = true)
    (hs : FuseRel u m.code.lists T ⟨i, regs, w⟩ ⟨i, regs', w'⟩)
    (hbad : (perform (shape m.code.lists op) regs w).2.Avoids bad i) :
    List.Forall₂ SameEvent (perform (shape m.code.lists op) regs w).1
        (perform (shape m.code.lists op) regs' w').1 ∧
      (perform (shape m.code.lists op) regs' w').2.Avoids bad i ∧
      Sum.LiftRel (FuseRel u m.code.lists T) End.Same
        ((perform (shape m.code.lists op) regs w).2.settle m.code.pcs i)
        ((perform (shape m.code.lists op) regs' w').2.settle m.code.pcs i) := by
  obtain ⟨-, hv, regs₁, w₁, hp, hag⟩ := hs
  dsimp only at hv hp hag
  obtain ⟨hev, hrel⟩ := perform_agree hag (shape m.code.lists op) fun r hr =>
    .inr (.inl (hT.uses hop hk hr))
  obtain ⟨hev', hrel'⟩ := perform_pending hp hv (h.spares h₂ h₃ hop hk)
  have hval := perform_valid hv (shape m.code.lists op)
  have hall := perform_allows (shape m.code.lists op) regs w
  have hnamed : ∀ {t}, m.code.Named t → u.plan m.code.lists t = [] := fun ht =>
    (h.plan_named ht).1
  have hmeet : Next.Rel
      (fun regs w regs' w' => ∃ regs₂ w₂, Pending (u.plan m.code.lists i) regs' w' regs₂ w₂ ∧
        Agree (fun r => (shape m.code.lists op).dest = some r ∨
          ((r ≠ u.ra ∧ r ≠ u.rb) ∨ T i r ∨ r ∈ (u.plan m.code.lists i).dests)) regs w regs₂ w₂)
      (Agree fun r => ((r ≠ u.ra ∧ r ≠ u.rb) ∨ T i r) ∧ r ∉ (u.plan m.code.lists i).dests)
      (perform (shape m.code.lists op) regs w).2 (perform (shape m.code.lists op) regs' w').2 := by
    refine hrel.meet hrel' ?_ ?_
    · rintro a b a' b' a₁ b₁ hF ⟨regs₂, w₂, hp₂, hs₂⟩
      exact ⟨regs₂, w₂, hp₂, hF.trans (Agree.of_same (R.symm hs₂))⟩
    · intro a b a' b' a₁ b₁ hA hA'
      exact (hA.mono fun r hr => hr.1.imp id .inl).trans (hA'.symm.mono fun r hr => hr.2)
  refine ⟨sameEvents_meet hev hev', hmeet.avoids hbad, settle_rel hmeet ?_ ?_ ?_ ?_⟩
  · intro a b a' b' hn hn' ⟨regs₂, w₂, hp₂, hag₂⟩
    rw [hn] at hall
    rw [hn'] at hval
    refine ⟨rfl, hval, regs₂, w₂, ?_, hag₂.mono fun r hr => ?_⟩
    · rw [(Fusion.plan_succ _ h₁ h₂ h₃).1]
      exact hp₂
    · dsimp only at hr
      rw [(Fusion.plan_succ _ h₁ h₂ h₃).1] at hr
      rcases hr with hr | hr | hr
      · exact .inr (.inl hr)
      · exact (hT.fall hop hk hall hr).imp (fun hd => by rw [← opDef_eq]; exact hd)
          fun hd => .inr (.inl hd)
      · exact .inr (.inr (.inr hr))
  · intro t a b a' b' hn hn' hA
    rw [hn] at hall hbad
    rw [hn'] at hval
    have ht : m.code.Named t :=
      .inl ⟨op, List.mem_of_getElem? hop, by rw [opTargets_eq m.code.lists]; exact hall⟩
    refine .enter (hnamed ht) hval (hA.mono fun r hr => ?_)
    by_cases hin : u.i1 < i ∧ i ≤ u.i3
    · -- a register of the fusion that is needed at the target would make the branch bad
      have hleave := h.leave i op t hin.1 (by omega) hop hall
      rcases hr with hr | hr
      · exact ⟨.inl hr, fun hmem => (Fusion.mem_plan_dests hmem).elim hr.1 hr.2⟩
      · have hrb : r ≠ u.rb := by
          rintro rfl
          exact hbad (hleave (.inl hr))
        by_cases hra : r = u.ra
        · subst hra
          have hfirst : i ≤ u.i2 := by
            by_contra hlt
            exact hbad (hleave (.inr ⟨by omega, hr⟩))
          refine ⟨.inr (hT.branch hop hk hall hbad hr), ?_⟩
          rw [(Fusion.plan_first _ ⟨hin.1, hfirst⟩).1]
          simpa using h.ra_ne
        · exact ⟨.inl ⟨hra, hrb⟩, fun hmem => (Fusion.mem_plan_dests hmem).elim hra hrb⟩
    · rw [(Fusion.plan_outside _ hin h.lt₁₂ h.lt₂₃).1]
      exact ⟨hr.imp id (hT.branch hop hk hall hbad), by simp⟩
  all_goals
    intro pc q a b a' b' hn hn' hq hA
    rw [hn'] at hval
    have hq := mem_pcs_of_ipOf hq
    refine .enter (hnamed (.inr (.inl hq))) hval (hA.mono fun r hr => ?_)
    have hr : r ≠ u.ra ∧ r ≠ u.rb := hr.elim id (h.handlers q hq r)
    exact ⟨.inl hr, fun hmem => (Fusion.mem_plan_dests hmem).elim hr.1 hr.2⟩

/-- An array op that the fused code skips. -/
theorem fuse_defer {i d : ℕ} {args : List ℕ} {regs regs' : ℕ → R.V} {w w' : R.W}
    (hs : FuseRel u m.code.lists T ⟨i, regs, w⟩ ⟨i, regs', w'⟩)
    (hplan : u.plan m.code.lists (i + 1) = u.plan m.code.lists i ++ [(d, args)])
    (hargs : ∀ r ∈ args, (r ≠ u.ra ∧ r ≠ u.rb) ∨ r ∈ (u.plan m.code.lists i).dests)
    (hfall : ∀ r, T (i + 1) r → r = d ∨ T i r) :
    ∃ regs₁ w₁, perform (.act .array args (some d)) regs w = ([], .fall regs₁ w₁) ∧
      FuseRel u m.code.lists T ⟨i + 1, regs₁, w₁⟩ ⟨i + 1, regs', w'⟩ := by
  obtain ⟨-, hv, regs₁, w₁, hp, hag⟩ := hs
  obtain ⟨v, w₂, v', w₂', hperf, hp', hag'⟩ :=
    perform_defer hp hv hag fun r hr => (hargs r hr).imp id .inr
  refine ⟨_, _, hperf, rfl, hv, _, _, by rw [hplan]; exact hp', hag'.mono fun r hr => ?_⟩
  dsimp only at hr
  rw [hplan] at hr
  rcases hr with hr | hr | hr
  · exact .inr (.inl hr)
  · exact (hfall r hr).imp id fun h => .inr (.inl h)
  · rw [Plan.dests, List.map_append, List.mem_append] at hr
    rcases hr with hr | hr
    · exact .inr (.inr (.inr hr))
    · exact .inl (by simpa using hr)

/-- The call, which has its arguments from the plan. -/
theorem fuse_call (h : u.Fits m bad T) {regs regs' : ℕ → R.V} {w w' : R.W}
    (hs : FuseRel u m.code.lists T ⟨u.i3, regs, w⟩ ⟨u.i3, regs', w'⟩) :
    List.Forall₂ SameEvent (perform (.act .apply [u.f, u.t, u.ra] (some u.d)) regs w).1
        (perform (.act .applyL (u.f :: u.t :: u.th :: u.elems m.code.lists) (some u.d)) regs' w').1 ∧
      Sum.LiftRel (FuseRel u m.code.lists T) End.Same
        ((perform (.act .apply [u.f, u.t, u.ra] (some u.d)) regs w).2.settle m.code.pcs u.i3)
        ((perform (.act .applyL (u.f :: u.t :: u.th :: u.elems m.code.lists) (some u.d))
          regs' w').2.settle m.code.pcs u.i3) := by
  obtain ⟨-, hv, regs₁, w₁, hp, hag⟩ := hs
  have hplan := (Fusion.plan_second (u := u) m.code.lists ⟨h.lt₂₃, le_rfl⟩).1
  dsimp only at hv hp hag
  rw [hplan] at hp hag
  obtain ⟨hev, hrel⟩ := perform_agree hag (.act .apply [u.f, u.t, u.ra] (some u.d)) (by
    intro r hr
    simp only [Shape.uses, List.mem_cons, List.not_mem_nil, or_false] at hr
    rcases hr with rfl | rfl | rfl
    · exact .inl h.f_ne
    · exact .inl h.t_ne
    · exact .inr (.inr (by simp)))
  obtain ⟨hev', hrel'⟩ := perform_applyL (some u.d) hp hv h.th_ne.2 h.f_ne h.t_ne
  have hval := perform_valid hv (.act .applyL (u.f :: u.t :: u.th :: u.elems m.code.lists) (some u.d))
  have hmeet : Next.Rel (Agree fun r => some u.d = some r ∨ (r ≠ u.ra ∧ r ≠ u.rb))
      (Agree fun r => r ≠ u.ra ∧ r ≠ u.rb) _ _ :=
    hrel.meet hrel' (fun hF hF' => (hF.mono fun r hr => hr.imp id .inl).trans hF'.symm)
      fun hA hA' => (hA.mono fun r hr => .inl hr).trans hA'.symm
  have hall := perform_allows (.act .apply [u.f, u.t, u.ra] (some u.d)) regs w
  refine ⟨sameEvents_meet hev hev', settle_rel hmeet ?_ ?_ ?_ ?_⟩
  · intro a b a' b' hn hn' hF
    rw [hn'] at hval
    refine .enter (Fusion.plan_outside _ (by omega) h.lt₁₂ h.lt₂₃).1 hval (hF.mono fun r hr => ?_)
    exact .inr (hr.elim id (h.after r))
  · intro t a b a' b' hn
    rw [hn] at hall
    cases hall
  all_goals
    intro pc q a b a' b' hn hn' hq hA
    rw [hn'] at hval
    have hq := mem_pcs_of_ipOf hq
    exact .enter (h.plan_named (.inr (.inl hq))).1 hval
      (hA.mono fun r hr => hr.elim id (h.handlers q hq r))

/-- **A fusion keeps the meaning**, as long as no branch is taken from between the
arrays and the call to a place where one of them is needed. -/
theorem fuse_lockstep (h : u.Fits m bad T) (hT : Annot m bad T) :
    Lib.Machine.Lockstep (m.step R) (fun s => (m.next s).2.Avoids bad s.ip)
      ((u.fused m).step R) (fun s => ((u.fused m).next s).2.Avoids bad s.ip)
      SameEvent End.Same (FuseRel u m.code.lists T) := by
  rintro ⟨i, regs, w⟩ ⟨i', regs', w'⟩ hs hbad
  obtain rfl : i = i' := hs.ip
  have hlen : (u.fused m).code.ops.length = m.code.ops.length := List.length_set
  have hlists : (u.fused m).code.lists = m.code.lists := rfl
  have hpcs : (u.fused m).code.pcs = m.code.pcs := rfl
  have hlt : ∀ {i op}, m.code.ops[i]? = some op → i < m.code.ops.length :=
    fun hop => (List.getElem?_eq_some_iff.1 hop).1
  have hdrop : i = u.i1 ∨ i = u.i2 → i < m.code.ops.length →
      (u.fused m).next (⟨i, regs', w'⟩ : State R) = ([], .fall regs' w') := fun hi hi' => by
    rw [Masked.next, if_pos ⟨by rw [hlen]; exact hi', Fusion.fused_drop hi⟩]
  have hrun : ∀ {op}, m.code.ops[i]? = some op → m.keep.getD i false = true →
      m.next (⟨i, regs, w⟩ : State R) = perform (shape m.code.lists op) regs w := fun hop hk => by
    rw [Masked.next, if_neg (fun h => by rw [hk] at h; exact Bool.noConfusion h.2), Code.next, hop]
  obtain ⟨la, hop₂, hla⟩ := h.op₂
  have hplan₁ := (Fusion.plan_outside m.code.lists (i := u.i1) (by omega)
    h.lt₁₂ h.lt₂₃).1
  have hplan₂ := (Fusion.plan_first (u := u) m.code.lists (i := u.i2)
    ⟨h.lt₁₂, le_rfl⟩).1
  have hplan₁' := (Fusion.plan_first (u := u) m.code.lists (i := u.i1 + 1)
    ⟨by omega, h.lt₁₂⟩).1
  have hplan₂' := (Fusion.plan_second (u := u) m.code.lists (i := u.i2 + 1)
    ⟨by omega, h.lt₂₃⟩).1
  dsimp only at hbad
  dsimp only [Masked.step]
  rw [hpcs]
  by_cases h₁ : i = u.i1
  · subst h₁
    obtain ⟨regs₁, w₁, hperf, hrel⟩ := fuse_defer (d := u.rb) hs (by rw [hplan₁, hplan₁']; rfl)
      (fun r hr => .inl (h.elems_ne r hr))
      fun r hr => (hT.fall h.op₁ h.keep₁ rfl hr).imp (fun hd => (Option.some.inj hd).symm) id
    have hx : m.next ⟨u.i1, regs, w⟩ = ([], .fall regs₁ w₁) := (hrun h.op₁ h.keep₁).trans hperf
    rw [hdrop (.inl rfl) (hlt h.op₁), hx]
    exact ⟨trivial, .nil, .inl hrel⟩
  by_cases h₂ : i = u.i2
  · subst h₂
    have hargs : ∀ r ∈ [u.th, u.rb],
        (r ≠ u.ra ∧ r ≠ u.rb) ∨ r ∈ (u.plan m.code.lists u.i2).dests := by
      intro r hr
      rcases List.mem_pair.1 hr with rfl | rfl
      · exact .inl h.th_ne
      · exact .inr (by simp [hplan₂])
    obtain ⟨regs₁, w₁, hperf, hrel⟩ := fuse_defer (d := u.ra) hs (by rw [hplan₂, hplan₂']; rfl)
      hargs
      fun r hr => (hT.fall hop₂ h.keep₂ rfl hr).imp (fun hd => (Option.some.inj hd).symm) id
    have hx : m.next ⟨u.i2, regs, w⟩ = ([], .fall regs₁ w₁) := by
      rw [hrun hop₂ h.keep₂, shape, hla]
      exact hperf
    rw [hdrop (.inr rfl) (hlt hop₂), hx]
    exact ⟨trivial, .nil, .inl hrel⟩
  by_cases h₃ : i = u.i3
  · subst h₃
    have hy : (u.fused m).next (⟨u.i3, regs', w'⟩ : State R) = perform
        (.act .applyL (u.f :: u.t :: u.th :: u.elems m.code.lists) (some u.d)) regs' w' := by
      have hop : (u.fused m).code.ops[u.i3]? = some (.applyL u.d u.f u.t u.th u.lb u.nb) :=
        List.getElem?_set_self (hlt h.op₃)
      rw [Masked.next, if_neg (fun hk => by
        rw [Fusion.fused_keep h₁ h₂, h.keep₃] at hk
        exact Bool.noConfusion hk.2), Code.next, hop]
      rfl
    obtain ⟨hev, hrel⟩ := fuse_call h hs
    have hall := perform_allows
      (.act .applyL (u.f :: u.t :: u.th :: u.elems m.code.lists) (some u.d)) regs' w'
    rw [hy, hrun h.op₃ h.keep₃]
    refine ⟨?_, hev, hrel⟩
    generalize (perform _ regs' w').2 = n at hall
    cases n with
    | branch t a b => cases hall
    | _ => trivial
  · have hnext : (u.fused m).next (⟨i, regs', w'⟩ : State R) = m.next ⟨i, regs', w'⟩ := by
      rw [Masked.next, Masked.next, hlen, Fusion.fused_keep h₁ h₂, Code.next, Code.next,
        Fusion.fused_getElem? h₃]
      rfl
    rw [hnext]
    cases hop : m.code.ops[i]? with
    | none =>
        have hge : ¬(i < m.code.ops.length) := by
          rw [List.getElem?_eq_none_iff] at hop
          omega
        have hx : ∀ s : State R, s.ip = i → m.next s = ([], .done (.fault .offCode)) := by
          rintro s rfl
          rw [Masked.next, if_neg (fun h => hge h.1), Code.next, hop]
        rw [hx _ rfl, hx _ rfl]
        exact ⟨trivial, .nil, .inr (.fault _)⟩
    | some op =>
        by_cases hk : m.keep.getD i false = true
        · have hrun' : m.next (⟨i, regs', w'⟩ : State R) =
              perform (shape m.code.lists op) regs' w' := by
            rw [Masked.next, if_neg (fun h => by rw [hk] at h; exact Bool.noConfusion h.2), Code.next, hop]
          rw [hrun hop hk] at hbad ⊢
          rw [hrun']
          obtain ⟨hev, hav, hrel⟩ := fuse_other h hT h₁ h₂ h₃ hop hk hs hbad
          exact ⟨hav, hev, hrel⟩
        · have hk : m.keep.getD i false = false := by simpa using hk
          have hx : ∀ s : State R, s.ip = i → m.next s = ([], .fall s.regs s.w) := by
            rintro s rfl
            rw [Masked.next, if_pos ⟨hlt hop, hk⟩]
          rw [hx _ rfl, hx _ rfl]
          refine ⟨trivial, .nil, .inl ?_⟩
          obtain ⟨-, hv, regs₁, w₁, hp, hag⟩ := hs
          have hplan := (Fusion.plan_succ (u := u) m.code.lists h₁ h₂ h₃).1
          refine ⟨rfl, hv, regs₁, w₁, by rw [hplan]; exact hp, hag.mono fun r hr => ?_⟩
          dsimp only at hr
          rw [hplan] at hr
          exact hr.imp id (Or.imp (hT.skip (hlt hop) hk) id)

end Lockstep

/-! ### The annotation behind a fusion -/

section Annotation

variable {u : Fusion} {m : Masked} {bad : ℕ → ℕ → Prop} {T : ℕ → ℕ → Prop}

theorem Fusion.Fits.annot_outside (h : u.Fits m bad T) {i r : ℕ} (hi : ¬(u.i1 < i ∧ i ≤ u.i3)) :
    u.annot m.code.lists T i r ↔ T i r := by
  obtain ⟨hp, hn⟩ := Fusion.plan_outside m.code.lists hi h.lt₁₂ h.lt₂₃
  simp [Fusion.annot, hp, hn]

theorem Fusion.Fits.annot_named (h : u.Fits m bad T) {t r : ℕ} (ht : m.code.Named t) :
    u.annot m.code.lists T t r ↔ T t r :=
  h.annot_outside fun hin => h.unnamed t hin.1 hin.2 ht

/-- An op that runs in the fused code is the call or one of the ops before. -/
theorem Fusion.Fits.fused_cases (h : u.Fits m bad T) {i : ℕ} {op : Op}
    (hop : (u.fused m).code.ops[i]? = some op) (hk : (u.fused m).keep.getD i false = true) :
    (i = u.i3 ∧ op = .applyL u.d u.f u.t u.th u.lb u.nb) ∨
      (i ≠ u.i1 ∧ i ≠ u.i2 ∧ i ≠ u.i3 ∧ m.code.ops[i]? = some op ∧ m.keep.getD i false = true) := by
  have h₁ : i ≠ u.i1 := fun heq => by
    rw [Fusion.fused_drop (.inl heq)] at hk
    cases hk
  have h₂ : i ≠ u.i2 := fun heq => by
    rw [Fusion.fused_drop (.inr heq)] at hk
    cases hk
  by_cases h₃ : i = u.i3
  · subst h₃
    have hself : (u.fused m).code.ops[u.i3]? = some (.applyL u.d u.f u.t u.th u.lb u.nb) :=
      List.getElem?_set_self (List.getElem?_eq_some_iff.1 h.op₃).1
    exact .inl ⟨rfl, Option.some.inj (hop.symm.trans hself)⟩
  · rw [Fusion.fused_getElem? h₃] at hop
    rw [Fusion.fused_keep h₁ h₂] at hk
    exact .inr ⟨h₁, h₂, h₃, hop, hk⟩

/-- **The fused code is annotated**: in place of the arrays the registers of their
items are kept. -/
theorem Fusion.Fits.annot (h : u.Fits m bad T) (hT : Annot m bad T) :
    Annot (u.fused m) bad (u.annot m.code.lists T) := by
  have hlists : (u.fused m).code.lists = m.code.lists := rfl
  obtain ⟨la, hop₂, hla⟩ := h.op₂
  have hout₁ : ¬(u.i1 < u.i1 ∧ u.i1 ≤ u.i3) := by omega
  have hout₃ : ¬(u.i1 < u.i3 + 1 ∧ u.i3 + 1 ≤ u.i3) := by omega
  have hnot : ∀ {i r : ℕ}, r ≠ u.ra ∧ r ≠ u.rb → r ∉ (u.plan m.code.lists i).dests :=
    fun hr hmem => (Fusion.mem_plan_dests hmem).elim hr.1 hr.2
  constructor
  · intro i op r hop hk hr
    rcases h.fused_cases hop hk with ⟨rfl, rfl⟩ | ⟨-, h₂, h₃, hop, hk⟩
    · have hn := (Fusion.plan_second (u := u) m.code.lists ⟨h.lt₂₃, le_rfl⟩).2
      simp only [hlists, shape, Shape.uses, List.mem_cons] at hr
      rcases hr with rfl | rfl | rfl | hr
      · exact .inl ⟨hT.uses h.op₃ h.keep₃ (by simp [shape, Shape.uses]), hnot h.f_ne⟩
      · exact .inl ⟨hT.uses h.op₃ h.keep₃ (by simp [shape, Shape.uses]), hnot h.t_ne⟩
      · exact .inr (by rw [hn]; exact List.mem_cons_self)
      · exact .inr (by rw [hn]; exact List.mem_cons_of_mem _ hr)
    · exact .inl ⟨hT.uses hop hk hr, (h.spares h₂ h₃ hop hk).uses r hr⟩
  · intro i r hi hk hr
    have hlen : (u.fused m).code.ops.length = m.code.ops.length := List.length_set
    rw [hlen] at hi
    by_cases h₁ : i = u.i1
    · subst h₁
      rw [h.annot_outside hout₁]
      obtain ⟨hp, hn⟩ := Fusion.plan_first (u := u) m.code.lists (i := u.i1 + 1)
        ⟨by omega, h.lt₁₂⟩
      rw [Fusion.annot, hp, hn] at hr
      rcases hr with ⟨hr, hne⟩ | hr
      · refine (hT.fall h.op₁ h.keep₁ rfl hr).resolve_left fun heq => hne ?_
        exact Plan.mem_dests_cons.2 (.inl (Option.some.inj heq).symm)
      · exact hT.uses h.op₁ h.keep₁ hr
    by_cases h₂ : i = u.i2
    · subst h₂
      obtain ⟨hp, hn⟩ := Fusion.plan_first (u := u) m.code.lists (i := u.i2) ⟨h.lt₁₂, le_rfl⟩
      obtain ⟨hp', hn'⟩ := Fusion.plan_second (u := u) m.code.lists (i := u.i2 + 1)
        ⟨by omega, h.lt₂₃⟩
      rw [Fusion.annot, hp', hn'] at hr
      rw [Fusion.annot, hp, hn]
      rcases hr with ⟨hr, hne⟩ | hr
      · simp only [Plan.mem_dests_cons, Plan.not_mem_dests_nil, or_false, not_or] at hne ⊢
        refine .inl ⟨(hT.fall hop₂ h.keep₂ rfl hr).resolve_left fun heq => ?_, hne.1⟩
        exact hne.2 (Option.some.inj heq).symm
      · rcases List.mem_cons.1 hr with rfl | hr
        · refine .inl ⟨hT.uses hop₂ h.keep₂ ?_, by simpa using h.th_ne.2⟩
          simp [shape, hla, Shape.uses]
        · exact .inr hr
    rw [Fusion.fused_keep h₁ h₂] at hk
    have h₃ : i ≠ u.i3 := by
      rintro rfl
      rw [h.keep₃] at hk
      cases hk
    obtain ⟨hp, hn⟩ := Fusion.plan_succ (u := u) m.code.lists h₁ h₂ h₃
    rw [Fusion.annot, hp, hn] at hr
    exact hr.imp (And.imp_left (hT.skip hi hk)) id
  · intro i op r hop hk hf hr
    rcases h.fused_cases hop hk with ⟨rfl, rfl⟩ | ⟨h₁, h₂, h₃, hop, hk⟩
    · rw [h.annot_outside hout₃] at hr
      exact (hT.fall h.op₃ h.keep₃ rfl hr).imp id fun hr' => .inl ⟨hr', hnot (h.after r hr)⟩
    · obtain ⟨hp, hn⟩ := Fusion.plan_succ (u := u) m.code.lists h₁ h₂ h₃
      rw [Fusion.annot, hp, hn] at hr
      rcases hr with ⟨hr, hne⟩ | hr
      · exact (hT.fall hop hk hf hr).imp id fun hr => .inl ⟨hr, hne⟩
      · exact .inr (.inr hr)
  · intro i op t r hop hk ht hbad hr
    rcases h.fused_cases hop hk with ⟨rfl, rfl⟩ | ⟨h₁, h₂, h₃, hop, hk⟩
    · cases ht
    · have hn : m.code.Named t :=
        .inl ⟨op, List.mem_of_getElem? hop, by rw [opTargets_eq m.code.lists]; exact ht⟩
      rw [h.annot_named hn] at hr
      refine .inl ⟨hT.branch hop hk ht hbad hr, fun hmem => ?_⟩
      -- a register of the plan that the target needs would make the branch bad
      by_cases hin : u.i1 < i ∧ i ≤ u.i3
      · have hleave := h.leave i op t hin.1 (by omega) hop ht
        by_cases hfirst : i ≤ u.i2
        · rw [(Fusion.plan_first (u := u) m.code.lists ⟨hin.1, hfirst⟩).1] at hmem
          obtain rfl : r = u.rb := by simpa using hmem
          exact hbad (hleave (.inl hr))
        · rcases Fusion.mem_plan_dests hmem with rfl | rfl
          · exact hbad (hleave (.inr ⟨by omega, hr⟩))
          · exact hbad (hleave (.inl hr))
      · rw [(Fusion.plan_outside m.code.lists hin h.lt₁₂ h.lt₂₃).1] at hmem
        simp at hmem

end Annotation

end Exec
end Lunar
