/-
# When the transfer is monotone

`worktime/fc.rs`: `transfer` from two states, the first below the second.  A tag says more
than one above it: a callee that is known is called, and one that is in conflict is a native;
an array that is known is read, and one in conflict is not; and `live` takes a tag without a
value for one in conflict.  So the transfer is not monotone (`transfer_not_monotone`).  It is
where both states fall in the same cases: the tags that the instruction looks at are the same
in both (`SameCases`, `transfer_monotone`).
-/

import Lunar.Lib.Couple
import Lunar.Worktime.Fc.Notify

namespace Lunar
namespace Fc

open Lib (Prog Mem)
open Lib.Prog (Couple)
open Worktime (Instr Op Operand)

/-! ## The order of values -/

theorem Taint.le_iff {t u : Taint} : t ≤ u ↔ t.join u = u := sup_eq_right.symm

/-- A taint below another. -/
theorem Taint.le_cases {t u : Taint} (h : t ≤ u) :
    t = .clean ∨ u = .lost ∨ ∃ id d e, t = .path id d ∧ u = .path id e ∧ (d = true → e = true) := by
  rw [Taint.le_iff] at h
  cases t with
  | clean => exact .inl rfl
  | lost => cases u <;> first | exact .inr (.inl rfl) | cases h
  | path id d =>
      cases u with
      | clean => cases h
      | lost => exact .inr (.inl rfl)
      | path id' e =>
          by_cases hid : id = id'
          · subst hid
            rw [join, if_pos rfl, Taint.path.injEq] at h
            refine .inr (.inr ⟨id, d, e, rfl, rfl, fun hd => ?_⟩)
            rw [← h.2, hd, Bool.true_or]
          · rw [join, if_neg hid] at h
            cases h

theorem Taint.clean_le (t : Taint) : .clean ≤ t := by
  rw [Taint.le_iff]
  cases t <;> rfl

theorem Taint.le_lost (t : Taint) : t ≤ .lost := by
  rw [Taint.le_iff]
  cases t <;> rfl

theorem Taint.path_le {id : ℕ} {d e : Bool} (h : d = true → e = true) :
    Taint.path id d ≤ .path id e := by
  rw [Taint.le_iff, join, if_pos rfl]
  cases d with
  | false => rfl
  | true => rw [h rfl, Bool.true_or]

theorem Taint.derive_mono {t u : Taint} (h : t ≤ u) : t.derive ≤ u.derive := by
  rcases Taint.le_cases h with rfl | rfl | ⟨id, d, e, rfl, rfl, -⟩
  · exact Taint.clean_le _
  · exact Taint.le_lost _
  · exact le_refl _

theorem Val.le_iff {v w : Val} : v ≤ w ↔ v.t ≤ w.t ∧ v.c ≤ w.c ∧ v.a ≤ w.a ∧ v.h ≤ w.h := by
  rw [← sup_eq_right, Val.sup_def, ← sup_eq_right, ← sup_eq_right, ← sup_eq_right, ← sup_eq_right]
  constructor
  · intro h
    rw [← h]
    simp only [sup_left_idem, and_self]
  · rintro ⟨ht, hc, ha, hh⟩
    rw [ht, hc, ha, hh]

/-! ## Values that fall in the same cases -/

/-- The second value is above, and the same tags of both have no value yet. -/
structure Val.Steady (v w : Val) : Prop where
  le : v ≤ w
  c : v.c = .bottom ↔ w.c = .bottom
  a : v.a = .bottom ↔ w.a = .bottom
  h : v.h = .bottom ↔ w.h = .bottom

/-- The second value is above, and the tags are the same. -/
structure Val.Alike (v w : Val) : Prop where
  le : v ≤ w
  c : v.c = w.c
  a : v.a = w.a
  h : v.h = w.h

theorem Tag.sup_eq_bottom {α : Type} [DecidableEq α] {a b : Tag α} :
    a ⊔ b = .bottom ↔ a = .bottom ∧ b = .bottom := by
  change a.join b = _ ↔ _
  cases a <;> cases b <;> simp only [Tag.join, reduceCtorEq, and_false, false_and, and_self]
  split <;> simp

theorem Tag.bottom_le {α : Type} [DecidableEq α] (a : Tag α) : .bottom ≤ a := by
  rw [← sup_eq_right]
  cases a <;> rfl

theorem Tag.live_mono {α : Type} [DecidableEq α] {a b : Tag α} (h : a ≤ b)
    (hb : a = .bottom ↔ b = .bottom) : a.live ≤ b.live := by
  by_cases ha : a = .bottom
  · rw [ha, hb.1 ha]
  · have hlive {c : Tag α} (hc : c ≠ .bottom) : c.live = c := by
      cases c with
      | bottom => exact absurd rfl hc
      | conflict | of x => rfl
    rw [hlive ha, hlive (mt hb.2 ha)]
    exact h

namespace Val

variable {v w v' w' : Val}

theorem Alike.steady (h : v.Alike w) : v.Steady w := by
  obtain ⟨le, c, a, h⟩ := h
  exact ⟨le, by rw [c], by rw [a], by rw [h]⟩

theorem Alike.sup (h : v.Alike w) (h' : v'.Alike w') : (v ⊔ v').Alike (w ⊔ w') := by
  refine ⟨sup_le_sup h.le h'.le, ?_, ?_, ?_⟩
  · exact congrArg₂ (· ⊔ ·) h.c h'.c
  · exact congrArg₂ (· ⊔ ·) h.a h'.a
  · exact congrArg₂ (· ⊔ ·) h.h h'.h

theorem Steady.sup (h : v.Steady w) (h' : v'.Steady w') : (v ⊔ v').Steady (w ⊔ w') := by
  refine ⟨sup_le_sup h.le h'.le, ?_, ?_, ?_⟩
  · exact Tag.sup_eq_bottom.trans ((and_congr h.c h'.c).trans Tag.sup_eq_bottom.symm)
  · exact Tag.sup_eq_bottom.trans ((and_congr h.a h'.a).trans Tag.sup_eq_bottom.symm)
  · exact Tag.sup_eq_bottom.trans ((and_congr h.h h'.h).trans Tag.sup_eq_bottom.symm)

theorem Alike.refl (v : Val) : v.Alike v := ⟨le_refl v, rfl, rfl, rfl⟩

theorem alike_taint {t u : Taint} (h : t ≤ u) : (taint t).Alike (taint u) :=
  ⟨Val.le_iff.2 ⟨h, le_refl _, le_refl _, le_refl _⟩, rfl, rfl, rfl⟩

theorem alike_field {t u : Taint} (h : t ≤ u) : (field t).Alike (field u) :=
  ⟨Val.le_iff.2 ⟨h, le_refl _, le_refl _, le_refl _⟩, rfl, rfl, rfl⟩

theorem Steady.live_le (h : v.Steady w) : v.live ≤ w.live := by
  obtain ⟨ht, hc, ha, hh⟩ := Val.le_iff.1 h.le
  exact Val.le_iff.2
    ⟨ht, Tag.live_mono hc h.c, Tag.live_mono ha h.a, Tag.live_mono hh h.h⟩

/-- Values that differ in the taint. -/
theorem withTaint_le (h : v ≤ w) {t u : Taint} (ht : t ≤ u) :
    ({ v with t := t } : Val) ≤ { w with t := u } := by
  obtain ⟨-, hc, ha, hh⟩ := Val.le_iff.1 h
  exact Val.le_iff.2 ⟨ht, hc, ha, hh⟩

end Val

/-- What a run needs of the values of a location that it reads: the calls look at the
tags of elements, and otherwise only a value without a tag differs from others. -/
def Regular (calls : Bool) (l : Loc) (v w : Val) : Prop :=
  match l with
  | .var _ | .ret _ => v.Steady w
  | .elem _ _ => if calls then v.Alike w else v.Steady w
  | .field _ | .any | .this _ | .exc | .sum _ => True

theorem Regular.sup {calls : Bool} {l : Loc} {v w v' w' : Val} (h : Regular calls l v w)
    (h' : v'.Alike w') : Regular calls l (v ⊔ v') (w ⊔ w') := by
  cases l with
  | var id | ret f => exact Val.Steady.sup h h'.steady
  | elem site i =>
      cases calls with
      | true => exact Val.Alike.sup h h'
      | false => exact Val.Steady.sup h h'.steady
  | _ => trivial

/-! ## Two states -/

/-- The first state is below the second. -/
structure Under (m₁ m₂ : Mem Loc Val Facts) : Prop where
  vals : ∀ l, m₁.vals l ≤ m₂.vals l
  fired : ∀ i, m₁.aux.fired i = true → m₂.aux.fired i = true
  query : ∀ j, m₁.aux.query j ≤ m₂.aux.query j

/-- It is, and at the locations of `F` the two are regular. -/
structure Below (F : Loc → Prop) (calls : Bool) (m₁ m₂ : Mem Loc Val Facts) : Prop
    extends Under m₁ m₂ where
  cases : ∀ l, F l → Regular calls l (m₁.vals l) (m₂.vals l)

/-- Both know the same paths. -/
def SamePaths (s₁ s₂ : Facts) : Prop := s₁.paths = s₂.paths ∧ s₁.pathIds = s₂.pathIds

/-- The states at the start: they know the same paths too. -/
abbrev Start (F : Loc → Prop) (calls : Bool) (m₁ m₂ : Mem Loc Val Facts) : Prop :=
  Below F calls m₁ m₂ ∧ SamePaths m₁.aux m₂.aux

section Parts

variable {F : Loc → Prop} {calls : Bool} {p : Program} {α β : Type} {n : ℕ}

/-- Two programs side by side, the first below. -/
abbrev Pair (F : Loc → Prop) (calls : Bool) (R : α → β → Prop) (x : M α) (y : M β) : Prop :=
  Couple oracle (Below F calls) (Below F calls) F R x y

/-- Any two results. -/
abbrev Any (_ _ : α) : Prop := True

theorem Under.join {m₁ m₂ : Mem Loc Val Facts} (h : Under m₁ m₂) {l : Loc} {v w : Val}
    (hle : v ≤ w) : Under (m₁.join l v) (m₂.join l w) := by
  refine ⟨fun k => ?_, h.fired, h.query⟩
  by_cases hkl : k = l
  · simp only [Mem.join, hkl, if_true]
    exact sup_le_sup (h.vals l) hle
  · simp only [Mem.join, hkl, if_false]
    exact h.vals k

theorem Below.join {m₁ m₂ : Mem Loc Val Facts} (h : Below F calls m₁ m₂) {l : Loc} {v w : Val}
    (hvw : v.Alike w) : Below F calls (m₁.join l v) (m₂.join l w) := by
  refine ⟨h.toUnder.join hvw.le, fun k hk => ?_⟩
  by_cases hkl : k = l
  · subst hkl
    simp only [Mem.join, if_true]
    exact (h.cases k hk).sup hvw
  · simp only [Mem.join, hkl, if_false]
    exact h.cases k hk

theorem pair_wr {l : Loc} {v w : Val} (h : v.Alike w) : Pair F calls Any (wr l v) (wr l w) :=
  Couple.write h.le trivial fun _ _ hm => hm.join h

theorem pair_rdTaint {I : Mem Loc Val Facts → Mem Loc Val Facts → Prop}
    (hI : ∀ m₁ m₂, I m₁ m₂ → Under m₁ m₂) (l : Loc) :
    Couple oracle I I F (· ≤ ·) (rdTaint l) (rdTaint l) := by
  have hread : Couple oracle I I F (· ≤ ·) (rd l) (rd l) := by
    refine Couple.read fun m₁ m₂ hm _ => ?_
    have hle := (hI m₁ m₂ hm).vals l
    exact ⟨hle, hle⟩
  exact hread.map fun v w h => (Val.le_iff.1 h).1

theorem pair_rd (l : Loc) : Pair F calls (fun v w => v ≤ w ∧ Regular calls l v w) (rd l) (rd l) :=
  Couple.read fun _ _ hm hl => ⟨hm.vals l, hm.vals l, hm.cases l hl⟩

theorem pair_rdElem (site : ℕ) (idx : Int) :
    Pair F calls (fun v w => Regular calls (.elem 0 0) v w) (rdElem p site idx)
      (rdElem p site idx) := by
  unfold rdElem find
  split <;> exact (pair_rd _).imp (fun _ _ h => h) (fun _ _ h => h) fun _ _ h => h.2

theorem pair_wrElem {site : ℕ} {idx : Int} {v w : Val} (h : v.Alike w) :
    Pair F calls Any (wrElem p site idx v) (wrElem p site idx w) :=
  (pair_wr h).bind fun _ _ _ => pair_wr h

theorem pair_fire (i : ℕ) : Pair F calls Any (fire i) (fire i) := by
  refine Couple.query (q := Query.fire i) (r := Query.fire i) (A := Answer) (L := Loc) fun m₁ m₂ a b t₁ t₂ h h₁ h₂ => ?_
  cases h₁
  cases h₂
  refine ⟨⟨⟨h.vals, fun k hk => ?_, h.query⟩, h.cases⟩, trivial⟩
  change (if k = i then true else m₂.aux.fired k) = true
  change (if k = i then true else m₁.aux.fired k) = true at hk
  by_cases hki : k = i
  · rw [if_pos hki]
  · rw [if_neg hki] at hk ⊢
    exact h.fired k hk

theorem pair_query (j : ℕ) {t u : Taint} (htu : t ≤ u) :
    Pair F calls Any (ask (.query j t)) (ask (.query j u)) := by
  refine Couple.query (q := Query.query j t) (r := Query.query j u) (A := Answer) (L := Loc) fun m₁ m₂ a b t₁ t₂ h h₁ h₂ => ?_
  cases h₁
  cases h₂
  refine ⟨⟨⟨h.vals, h.fired, fun k => ?_⟩, h.cases⟩, trivial⟩
  change (if k = j then m₁.aux.query j ⊔ t else m₁.aux.query k)
    ≤ if k = j then m₂.aux.query j ⊔ u else m₂.aux.query k
  by_cases hkj : k = j
  · rw [if_pos hkj, if_pos hkj]
    exact sup_le_sup (h.query j) htu
  · rw [if_neg hkj, if_neg hkj]
    exact h.query k

/-! ## Calls -/

theorem pair_sumOf {v w : Val} (h : v.a = w.a) :
    Pair F calls (· ≤ ·) (sumOf v) (sumOf w) := by
  unfold sumOf
  rw [h]
  cases w.a.get with
  | some s => exact pair_rdTaint (fun _ _ h => h.toUnder) _
  | none => exact Couple.pure (le_refl _)

theorem pair_spread {v w : Val} (hle : v ≤ w) (h : v.a = w.a) :
    Pair F calls (· ≤ ·) (spread v) (spread w) :=
  (pair_sumOf h).bind fun _ _ ht => Couple.pure (sup_le_sup (Val.le_iff.1 hle).1 ht)

theorem forall₂_self {γ : Type} (xs : List γ) : List.Forall₂ Eq xs xs :=
  List.forall₂_refl xs

theorem pair_invoke {c d : Tag Callee} (hc : c = d) {t u : Taint} (htu : t ≤ u) :
    Pair F calls (· ≤ ·) (invoke p c t) (invoke p d u) := by
  subst hc
  refine Couple.foldlM (fun a b x y hab hxy => ?_) (forall₂_self _) (le_refl _)
  subst hxy
  refine (pair_wrElem (Val.alike_taint htu)).bind fun _ _ _ => ?_
  refine (pair_rd _).bind fun v w hvw => Couple.pure ?_
  exact sup_le_sup hab (Taint.derive_mono (Val.le_iff.1 hvw.1).1)

theorem pair_callback {v w : Val} (hc : v.c = w.c) (ha : v.a = w.a) {t u : Taint}
    (htu : t ≤ u) : Pair F true (· ≤ ·) (callback p v t) (callback p w u) := by
  refine (pair_invoke hc htu).bind fun a b hab => ?_
  rw [ha]
  cases w.a.get with
  | some s =>
      refine Couple.foldlM (fun a b x y hab hxy => ?_) (forall₂_self _) hab
      subst hxy
      refine (pair_rd _).bind fun v w hvw => ?_
      have halike : v.Alike w := hvw.2
      exact (pair_invoke halike.c htu).bind fun _ _ h => Couple.pure (sup_le_sup hab h)
  | none => exact Couple.pure hab

/-- A value without tags is joined into the second memory alone. -/
theorem Below.join_right {m₁ m₂ : Mem Loc Val Facts} (h : Below F calls m₁ m₂) {l : Loc} {w : Val}
    (hw : BOTTOM.Alike w) : Below F calls m₁ (m₂.join l w) := by
  have hjoin := h.join (l := l) hw
  have hself : m₁.join l BOTTOM = m₁ := by
    have hvals : (fun k => if k = l then m₁.vals l ⊔ BOTTOM else m₁.vals k) = m₁.vals := by
      funext k
      by_cases hk : k = l
      · have hbot : m₁.vals l ⊔ BOTTOM = m₁.vals l := by
          refine sup_eq_left.2 (Val.le_iff.2 ⟨Taint.clean_le _, ?_, ?_, ?_⟩)
          · exact Tag.bottom_le _
          · exact Tag.bottom_le _
          · exact Tag.bottom_le _
        rw [if_pos hk, hbot, hk]
      · rw [if_neg hk]
    rw [Mem.join, hvals]
  rwa [hself] at hjoin

theorem pair_passRest {site : ℕ} {v w : Val} (h : v.Alike w) :
    Pair F calls Any (passRest p site v) (passRest p site w) := by
  unfold passRest
  by_cases hv : v = BOTTOM
  · subst hv
    rw [if_neg (not_not_intro rfl)]
    by_cases hw : w ≠ BOTTOM
    · rw [if_pos hw, ← pure_bind () fun _ : Unit => (pure () : M Unit)]
      have hwrite (l : Loc) : Pair F calls Any (pure () : M Unit) (wr l w) :=
        Couple.write_right trivial fun _ _ hm => hm.join_right h
      exact (hwrite _).bind fun _ _ _ => hwrite _
    · rw [if_neg hw]
      exact Couple.pure trivial
  · have hw : w ≠ BOTTOM := by
      rintro rfl
      have hclean : v.t = .clean := le_antisymm (Val.le_iff.1 h.le).1 (Taint.clean_le _)
      have hparts : v = ⟨v.t, v.c, v.a, v.h⟩ := rfl
      rw [hclean, h.c, h.a, h.h] at hparts
      exact hv hparts
    rw [if_pos hv, if_pos hw]
    exact pair_wrElem h

/-- Receivers that fall in the same cases. -/
inductive ThisLike : Option Val → Option Val → Prop
  | none : ThisLike none none
  | some {v w : Val} (hle : v ≤ w) (hc : v.c = w.c) (ha : v.a = w.a) : ThisLike (some v) (some w)

theorem pair_passThis {g : ℕ} {th th' : Option Val} (h : ThisLike th th') :
    Pair F calls Any (passThis g th) (passThis g th') := by
  cases h with
  | none => exact Couple.pure trivial
  | some hle hc ha =>
      exact pair_wr (Val.alike_field (Val.le_iff.1 hle).1)

theorem forall₂_zipIdx {args args' : List Val} (h : List.Forall₂ Val.Alike args args') (k : ℕ) :
    List.Forall₂ (fun a b : Val × ℕ => a.1.Alike b.1 ∧ a.2 = b.2) (args.zipIdx k)
      (args'.zipIdx k) := by
  induction h generalizing k with
  | nil => exact .nil
  | cons hab _ ih => exact .cons ⟨hab, rfl⟩ (ih (k + 1))

section Call

variable {fnv fnv' rest rest' : Val} {th th' : Option Val} {args args' : List Val}

theorem pair_activate (g : ℕ) (hth : ThisLike th th') (hargs : List.Forall₂ Val.Alike args args')
    (hrest : rest.Alike rest') :
    Pair F calls Val.Steady (activate p g th args rest) (activate p g th' args' rest') := by
  unfold activate
  refine (Couple.forM (R := Any) trivial (fun a b hab => ?_) (forall₂_zipIdx hargs 0)).bind
    fun _ _ _ => ?_
  · rw [hab.2]
    exact pair_wrElem hab.1
  refine (pair_passRest hrest).bind fun _ _ _ => (pair_passThis hth).bind fun _ _ _ => ?_
  exact (pair_rd _).imp (fun _ _ h => h) (fun _ _ h => h) fun _ _ h => h.2

theorem pair_nativeThis (hle : fnv ≤ fnv') (hc : fnv.c = fnv'.c) (hth : ThisLike th th') :
    Pair F calls (· ≤ ·) (nativeThis fnv th) (nativeThis fnv' th') := by
  have ht := (Val.le_iff.1 hle).1
  cases hth with
  | none => exact Couple.pure ht
  | some hle' hc' ha =>
      refine (pair_spread hle' ha).bind fun t u htu => Couple.pure ?_
      rw [hc]
      refine sup_le_sup ?_ htu
      split
      · exact le_refl _
      · exact ht

theorem pair_writeBack {v w : Val} (ha : v.a = w.a) {t u : Taint} (htu : t ≤ u) :
    Pair F calls Any (writeBack p v t) (writeBack p w u) := by
  unfold writeBack
  rw [ha]
  cases w.a.get with
  | some s => exact pair_wrElem (Val.alike_taint htu)
  | none => exact Couple.pure trivial

theorem pair_callbackThis {t u : Taint} (htu : t ≤ u) (hth : ThisLike th th') :
    Pair F true (· ≤ ·) (callbackThis p t th) (callbackThis p u th') := by
  cases hth with
  | none => exact Couple.pure htu
  | some hle hc ha =>
      refine (pair_callback hc ha htu).bind fun a b hab => ?_
      exact (pair_writeBack ha htu).bind fun _ _ _ => Couple.pure (sup_le_sup htu hab)

theorem pair_native (hle : fnv ≤ fnv') (hc : fnv.c = fnv'.c) (hth : ThisLike th th')
    (hargs : List.Forall₂ Val.Alike args args') (hrest : rest.Alike rest') :
    Pair F true (· ≤ ·) (native p fnv th args rest) (native p fnv' th' args' rest') := by
  refine (pair_nativeThis hle hc hth).bind fun t u htu => ?_
  refine (Couple.foldlM (fun a b x y hab hxy => ?_) hargs htu).bind fun t u htu => ?_
  · exact (pair_spread hxy.le hxy.a).bind fun _ _ h => Couple.pure (sup_le_sup hab h)
  refine (pair_spread hrest.le hrest.a).bind fun s s' hs => ?_
  have hder := Taint.derive_mono (sup_le_sup htu hs)
  refine (pair_callbackThis hder hth).bind fun r r' hr => ?_
  refine (Couple.foldlM (fun a b x y hab hxy => ?_) hargs hr).bind fun r r' hr => ?_
  · exact (pair_callback hxy.c hxy.a hder).bind fun _ _ h => Couple.pure (sup_le_sup hab h)
  exact (pair_callback hrest.c hrest.a hder).bind fun _ _ h => Couple.pure (sup_le_sup hr h)

theorem pair_result (hle : fnv ≤ fnv') (hc : fnv.c = fnv'.c) (hth : ThisLike th th')
    (hargs : List.Forall₂ Val.Alike args args') (hrest : rest.Alike rest') {out out' : Val}
    (hout : out ≤ out') :
    Pair F true (· ≤ ·) (result p fnv th args rest out) (result p fnv' th' args' rest' out') := by
  unfold result
  rw [hc]
  split
  · refine (pair_native hle hc hth hargs hrest).bind fun r r' hr => Couple.pure ?_
    split
    · exact (Val.alike_taint hr).le
    · exact Val.withTaint_le hout (sup_le_sup (Val.le_iff.1 hout).1 hr)
  · exact Couple.pure hout

theorem any_header (hargs : List.Forall₂ Val.Alike args args') :
    args.any (fun a => a.h == .yes) = args'.any (fun a => a.h == .yes) := by
  induction hargs with
  | nil => rfl
  | cons hab _ ih => rw [List.any_cons, List.any_cons, ih, hab.h]

theorem pair_header (i : ℕ) (hargs : List.Forall₂ Val.Alike args args') (hrest : rest.Alike rest')
    {out out' : Val} (hout : out ≤ out') :
    Pair F calls (· ≤ ·) (header i args rest out) (header i args' rest' out') := by
  unfold header
  rw [any_header hargs, hrest.h]
  split
  · refine (pair_fire i).bind fun _ _ _ => Couple.pure ?_
    exact Val.withTaint_le hout (sup_le_sup_right (Val.le_iff.1 hout).1 _)
  · exact Couple.pure hout

/-- **Calls** of callees of one tag, with alike arguments. -/
theorem pair_call (i : ℕ) (hle : fnv ≤ fnv') (hc : fnv.c = fnv'.c) (hth : ThisLike th th')
    (hargs : List.Forall₂ Val.Alike args args') (hrest : rest.Alike rest') :
    Pair F true (· ≤ ·) (call p i fnv th args rest) (call p i fnv' th' args' rest') := by
  unfold call
  rw [hc]
  refine (Couple.foldlM (R := Val.Steady) (fun a b x y hab hxy => ?_) (forall₂_self _)
    (Val.Alike.refl BOTTOM).steady).bind fun out out' hout => ?_
  · subst hxy
    exact (pair_activate _ hth hargs hrest).bind fun _ _ h => Couple.pure (hab.sup h)
  refine (pair_result hle hc hth hargs hrest hout.live_le).bind fun r r' hr => ?_
  exact pair_header i hargs hrest hr

end Call

theorem pair_expand {v w : Val} (hle : v ≤ w) (ha : v.a = w.a) :
    Pair F true (fun r r' => List.Forall₂ Val.Alike r.1 r'.1 ∧ r.2.Alike r'.2) (expand p v)
      (expand p w) := by
  unfold expand
  rw [ha]
  have helem (s i : ℕ) : Pair F true Val.Alike (rd (.elem s i)) (rd (.elem s i)) :=
    (pair_rd _).imp (fun _ _ h => h) (fun _ _ h => h) fun _ _ h => h.2
  cases w.a.get with
  | some s =>
      refine (Couple.mapM (R := Val.Alike) (fun i j hij => ?_) (forall₂_self _)).bind
        fun buf buf' hbuf => ?_
      · subst hij
        exact helem s i
      exact (helem s _).bind fun r r' hr => Couple.pure ⟨hbuf, hr⟩
  | none => exact Couple.pure ⟨.nil, Val.alike_taint (Val.le_iff.1 hle).1⟩

/-! ## Properties -/

/-- A program that asks for a path and does nothing else; `r` is its result. -/
structure Looks (x : M Taint) (r : Facts → Option Taint) : Prop where
  reads : ∀ m, x.reads oracle m = []
  writes : ∀ m, x.writes oracle m = []
  exec : ∀ {m a m'}, x.exec (Mem.handler oracle) m = some (a, m') →
    m'.vals = m.vals ∧ m'.aux.fired = m.aux.fired ∧ m'.aux.query = m.aux.query ∧
      r m.aux = some a

theorem looks_pure (t : Taint) : Looks (pure t) fun _ => some t := by
  refine ⟨fun _ => rfl, fun _ => rfl, fun h => ?_⟩
  cases h
  exact ⟨rfl, rfl, rfl, rfl⟩

theorem child_facts (s : Facts) (parent key : ℕ) (derived : Bool) :
    (s.child parent key derived).2.fired = s.fired
      ∧ (s.child parent key derived).2.query = s.query := by
  unfold Facts.child
  split
  · exact ⟨rfl, rfl⟩
  · split
    · exact ⟨rfl, rfl⟩
    · exact ⟨rfl, rfl⟩

theorem looks_child (parent key : ℕ) (derived : Bool) :
    Looks (child parent key derived) fun s => some (s.child parent key derived).1 := by
  refine ⟨fun _ => rfl, fun _ => rfl, fun {m a m'} h => ?_⟩
  cases h
  exact ⟨rfl, (child_facts m.aux parent key derived).1, (child_facts m.aux parent key derived).2,
    rfl⟩

theorem looks_ext (t : Taint) (key : ℕ) :
    Looks (ext t key) fun s =>
      match t.split with
      | some (parent, derived) => some (s.child parent key (derived && parent != ROOT)).1
      | none => some t := by
  unfold ext
  cases t.split with
  | some node => exact looks_child _ _ _
  | none => exact looks_pure t

theorem looks_fromAny (any : Taint) (key : ℕ) :
    Looks (fromAny p any key) fun s =>
      match any.split with
      | some (id, derived) =>
        if id = ROOT then some any
        else (s.paths[id]?).map fun node =>
          if node.2 = p.wild then (s.child node.1 key derived).1 else any
      | none => some any := by
  unfold fromAny
  cases hsplit : any.split with
  | none => exact looks_pure any
  | some node =>
      obtain ⟨id, derived⟩ := node
      by_cases hroot : id = ROOT
      · simp only [hroot, if_true]
        exact looks_pure any
      simp only [hroot, if_false]
      -- After the answer, `child` or the path itself.
      have hcont (node : ℕ × ℕ) : Looks (if node.2 = p.wild then child node.1 key derived
          else pure any) fun s => some (if node.2 = p.wild then (s.child node.1 key derived).1
          else any) := by
        by_cases hwild : node.2 = p.wild
        · simp only [hwild, if_true]
          exact looks_child _ _ _
        · simp only [hwild, if_false]
          exact looks_pure any
      refine ⟨fun m => ?_, fun m => ?_, fun {m a m'} h => ?_⟩
      · cases hnode : m.aux.paths[id]? with
        | none => simp only [ask, Prog.query, bind, Prog.bind, Prog.reads, oracle, answer, hnode,
            Option.map_none]
        | some node =>
            simp only [ask, Prog.query, bind, Prog.bind, Prog.reads, oracle, answer, hnode,
              Option.map_some]
            exact (hcont node).reads m
      · cases hnode : m.aux.paths[id]? with
        | none => simp only [ask, Prog.query, bind, Prog.bind, Prog.writes, oracle, answer, hnode,
            Option.map_none]
        | some node =>
            simp only [ask, Prog.query, bind, Prog.bind, Prog.writes, oracle, answer, hnode,
              Option.map_some]
            exact (hcont node).writes m
      · rw [Prog.exec_bind, Option.bind_eq_some_iff] at h
        obtain ⟨⟨node, m₁⟩, hask, h⟩ := h
        have hanswer : ((m.aux.paths[id]?).map fun node => (node, m)) = some (node, m₁) := by
          simpa [ask, Prog.query, Prog.exec, Mem.handler, oracle, answer, Option.map_map] using hask
        obtain ⟨_, hnode, heq⟩ := Option.map_eq_some_iff.1 hanswer
        cases heq
        obtain ⟨hvals, hfired, hquery, hres⟩ := (hcont node).exec h
        exact ⟨hvals, hfired, hquery, by rw [hnode]; exact hres⟩

theorem pair_looks {x y : M Taint} {r r' : Facts → Option Taint} (hx : Looks x r) (hy : Looks y r')
    (h : ∀ s s' a b, SamePaths s s' → r s = some a → r' s' = some b → a ≤ b) :
    Couple oracle (Start F calls) (Below F calls) F
      (· ≤ ·) x y := by
  refine Couple.silent hx.reads hx.writes fun m₁ m₂ a b m₁' m₂' hm h₁ h₂ => ?_
  obtain ⟨hvals₁, hfired₁, hquery₁, hres₁⟩ := hx.exec h₁
  obtain ⟨hvals₂, hfired₂, hquery₂, hres₂⟩ := hy.exec h₂
  refine ⟨⟨⟨?_, ?_, ?_⟩, ?_⟩, h _ _ _ _ hm.2 hres₁ hres₂⟩
  · rw [hvals₁, hvals₂]
    exact hm.1.vals
  · rw [hfired₁, hfired₂]
    exact hm.1.fired
  · rw [hquery₁, hquery₂]
    exact hm.1.query
  · rw [hvals₁, hvals₂]
    exact hm.1.cases

/-- The same step from the same paths. -/
theorem child_le_child {s s' : Facts} (h : SamePaths s s') (parent key : ℕ) {d e : Bool}
    (hde : d = true → e = true) : (s.child parent key d).1 ≤ (s'.child parent key e).1 := by
  unfold Facts.child
  rw [h.1, h.2]
  split
  · exact Taint.path_le hde
  · split
    · exact le_refl _
    · exact Taint.path_le hde

theorem pair_ext {t u : Taint} (htu : t ≤ u) (key : ℕ) :
    Couple oracle (Start F calls) (Below F calls) F
      (· ≤ ·) (ext t key) (ext u key) := by
  refine pair_looks (looks_ext t key) (looks_ext u key) fun s s' a b hs ha hb => ?_
  rcases Taint.le_cases htu with rfl | rfl | ⟨id, d, e, rfl, rfl, hde⟩
  · cases ha
    exact Taint.clean_le b
  · cases hb
    exact Taint.le_lost a
  · cases ha
    cases hb
    refine child_le_child hs id key fun hd => ?_
    rw [Bool.and_eq_true] at hd ⊢
    exact ⟨hde hd.1, hd.2⟩

theorem pair_fromAny {t u : Taint} (htu : t ≤ u) (key : ℕ) :
    Couple oracle (Start F calls) (Below F calls) F
      (· ≤ ·) (fromAny p t key) (fromAny p u key) := by
  refine pair_looks (looks_fromAny t key) (looks_fromAny u key) fun s s' a b hs ha hb => ?_
  rcases Taint.le_cases htu with rfl | rfl | ⟨id, d, e, rfl, rfl, hde⟩
  · cases ha
    exact Taint.clean_le b
  · cases hb
    exact Taint.le_lost a
  · simp only [Taint.split] at ha hb
    by_cases hroot : id = ROOT
    · rw [if_pos hroot, Option.some.injEq] at ha hb
      subst ha hb
      exact Taint.path_le hde
    · rw [if_neg hroot, Option.map_eq_some_iff] at ha hb
      obtain ⟨node, hnode, rfl⟩ := ha
      obtain ⟨node', hnode', rfl⟩ := hb
      rw [hs.1, hnode', Option.some.injEq] at hnode
      subst hnode
      split
      · exact child_le_child hs _ key hde
      · exact Taint.path_le hde

theorem pair_getNamed {o o' : Val} (ha : o.a = o'.a) {base base' : Taint} (hb : base ≤ base')
    (kid : ℕ) (name : KeyName) :
    Pair F calls (· ≤ ·) (getNamed p o base kid name) (getNamed p o' base' kid name) := by
  have hfield (g : Taint → Val) (hg : ∀ t u, t ≤ u → g (base ⊔ t) ≤ g (base' ⊔ u)) :
      Pair F calls (· ≤ ·) (do return g (base ⊔ (← rdTaint (.field kid))))
        (do return g (base' ⊔ (← rdTaint (.field kid)))) :=
    (pair_rdTaint (fun _ _ h => h.toUnder) _).bind fun t u htu => Couple.pure (hg t u htu)
  have htaint := hfield Val.taint fun t u htu => (Val.alike_taint (sup_le_sup hb htu)).le
  have hmethod := hfield (fun t => ⟨t, .of (.method kid), .conflict, .conflict⟩) fun t u htu =>
    Val.le_iff.2 ⟨sup_le_sup hb htu, le_refl _, le_refl _, le_refl _⟩
  cases name with
  | units u => exact hmethod
  | lit l => exact hmethod
  | index ix =>
      cases hget : o'.a.get with
      | none => simpa only [getNamed, ha, hget] using htaint
      | some s =>
          simp only [getNamed, ha, hget]
          split
          · refine (pair_rdElem _ _).bind fun v w hvw => (pair_rdElem _ _).bind fun v' w' hvw' => ?_
            have hsteady {v w : Val} (h : Regular calls (.elem 0 0) v w) : v.Steady w := by
              cases calls with
              | true => exact Val.Alike.steady h
              | false => exact h
            have hlive := ((hsteady hvw).sup (hsteady hvw')).live_le
            exact Couple.pure (Val.withTaint_le hlive (sup_le_sup hb (Val.le_iff.1 hlive).1))
          · exact htaint

theorem pair_seed (i kid : ℕ) {v w : Val} (h : v ≤ w) :
    Pair F calls (· ≤ ·) (seed p i kid v) (seed p i kid w) := by
  have hjoin (t : Taint) : Pair F calls (· ≤ ·) (do fire i; return { v with t := v.t ⊔ t })
      (do fire i; return { w with t := w.t ⊔ t }) :=
    (pair_fire i).bind fun _ _ _ =>
      Couple.pure (Val.withTaint_le h (sup_le_sup_right (Val.le_iff.1 h).1 t))
  unfold seed
  split
  · exact hjoin _
  · split
    · exact hjoin _
    · split
      · exact hjoin _
      · exact Couple.pure h

theorem pair_observe (kid : ℕ) {t u : Taint} (h : t ≤ u) :
    Pair F calls Any (observe p kid t) (observe p kid u) := by
  refine Couple.forM trivial (fun j k hjk => ?_) (forall₂_self _)
  subst hjk
  split
  · exact pair_query j h
  · exact Couple.pure trivial

theorem pair_index {I : Mem Loc Val Facts → Mem Loc Val Facts → Prop} (xs : List α) (i : ℕ) :
    Couple oracle I I F Eq (index xs i) (index xs i) := by
  unfold index
  cases xs[i]? with
  | some a => exact Couple.pure rfl
  | none => exact Couple.fail_left

theorem opv_le {regs regs' : Regs n} (h : regs ≤ regs') (op : Operand) (hdr : Bool) :
    regs.opv op hdr ≤ regs'.opv op hdr := by
  cases op with
  | reg r =>
      simp only [Regs.opv, Regs.get]
      split
      · exact h _
      · exact le_refl _
  | _ => exact le_refl _

theorem set_le {regs regs' : Regs n} (h : regs ≤ regs') (r : ℕ) {v w : Val} (hvw : v ≤ w) :
    regs.set r v ≤ regs'.set r w := by
  intro k
  simp only [Regs.set]
  split
  · exact hvw
  · exact h k

theorem setDest_le {regs regs' : Regs n} (h : regs ≤ regs') (ins : Instr) {v w : Val}
    (hvw : v ≤ w) : setDest ins regs v ≤ setDest ins regs' w := by
  unfold setDest
  cases ins.dest with
  | some d => exact set_le h d hvw
  | none => exact h

/-- `get_prop` at objects of one array tag, both with a path or both without. -/
theorem pair_getProp (i : ℕ) (ins : Instr) (aux : Aux) {regs regs' : Regs n} (h : regs ≤ regs')
    (ha : (regs.opv (ins.arg 0) false).a = (regs'.opv (ins.arg 0) false).a)
    (ht : aux.key.isSome = true →
      ((regs.opv (ins.arg 0) false).t = .clean ↔ (regs'.opv (ins.arg 0) false).t = .clean))
    (hh : (regs.opv (ins.arg 1) false).h = (regs'.opv (ins.arg 1) false).h) :
    Couple oracle (Start F calls) (Below F calls) F
      (· ≤ ·) (getProp p i ins aux regs) (getProp p i ins aux regs') := by
  have hle := (Val.le_iff.1 (opv_le h (ins.arg 0) false)).1
  unfold getProp
  refine (pair_rdTaint (fun _ _ hm => hm.1.toUnder) _).bind fun any any' hany => ?_
  cases hkey : aux.key with
  | none =>
      have hheader : isHeader regs (ins.arg 1) = isHeader regs' (ins.arg 1) := by
        cases harg : ins.arg 1 with
        | reg r =>
            rw [harg] at hh
            simp only [isHeader]
            rw [show (regs.get r).h = (regs'.get r).h from hh]
        | _ => rfl
      unfold getAny
      refine (pair_ext hle _).bind fun t u htu => (pair_sumOf ha).bind fun s s' hs => ?_
      have hsum := sup_le_sup (sup_le_sup htu hany) hs
      rw [hheader]
      split
      · exact (pair_fire i).bind fun _ _ _ =>
          Couple.pure (Val.alike_taint (sup_le_sup_right hsum _)).le
      · exact Couple.pure (Val.alike_taint hsum).le
  | some kid =>
      have hclean := ht (by rw [hkey]; rfl)
      have hrest (base base' : Taint) (hb : base ≤ base') : Pair F calls (· ≤ ·)
          (do
            let v ← getNamed p (regs.opv (ins.arg 0) false) base kid (← index p.names kid)
            let v ← seed p i kid v
            observe p kid v.t
            return v)
          (do
            let v ← getNamed p (regs'.opv (ins.arg 0) false) base' kid (← index p.names kid)
            let v ← seed p i kid v
            observe p kid v.t
            return v) := by
        refine (pair_index _ _).bind fun name name' hname => ?_
        subst hname
        refine (pair_getNamed ha hb kid name).bind fun v w hvw => ?_
        refine (pair_seed i kid hvw).bind fun v w hvw => ?_
        exact (pair_observe kid (Val.le_iff.1 hvw).1).bind fun _ _ _ => Couple.pure hvw
      by_cases hc : (regs.opv (ins.arg 0) false).t = .clean
      · simp only [if_pos hc, if_pos (hclean.1 hc)]
        exact (pair_fromAny hany kid).bind hrest
      · simp only [if_neg hc, if_neg (mt hclean.2 hc)]
        exact (pair_ext hle kid).bind hrest

/-! ## Instructions -/

/-- The calls. -/
def isCall : Op → Bool
  | .call0 | .call1 | .call2 | .call3 | .callM | .new => true
  | _ => false

/-- What an instruction looks at in the value of its `k`-th operand is the same in both.
`named`: the key is known. -/
def agree (op : Op) (named : Bool) (k : ℕ) (v w : Val) : Prop :=
  match op, k with
  | .getProp, 0 => v.a = w.a ∧ (named = true → (v.t = .clean ↔ w.t = .clean))
  | .getProp, 1 => v.h = w.h
  | .setProp, 0 => v.a = w.a
  | .call0, 0 | .call1, 0 | .call2, 0 | .call3, 0 => v.c = w.c
  | .call0, _ | .call1, _ | .call2, _ | .call3, _ => v.c = w.c ∧ v.a = w.a ∧ v.h = w.h
  | .callM, 0 => v.c = w.c ∧ v.a = w.a
  | .callM, 1 => v.c = w.c
  | .callM, 2 => v.a = w.a
  | .new, 0 => v.c = w.c
  | .new, 1 => v.a = w.a
  | _, _ => True

theorem under_wr {I : Mem Loc Val Facts → Mem Loc Val Facts → Prop}
    (hI : ∀ m₁ m₂, I m₁ m₂ → Under m₁ m₂) {l : Loc} {v w : Val} (h : v ≤ w) :
    Couple oracle I Under F Any (wr l v) (wr l w) :=
  Couple.write h trivial fun _ _ hm => (hI _ _ hm).join h

theorem under_wrElem {site : ℕ} {idx : Int} {v w : Val} (h : v ≤ w) :
    Couple oracle Under Under F Any (wrElem p site idx v) (wrElem p site idx w) :=
  (under_wr (fun _ _ hm => hm) h).bind fun _ _ _ => under_wr (fun _ _ hm => hm) h

/-- `set_prop` at objects of one array tag. -/
theorem under_setProp (ins : Instr) (aux : Aux) {regs regs' : Regs n} (h : regs ≤ regs')
    (ha : (regs.opv (ins.arg 0) false).a = (regs'.opv (ins.arg 0) false).a) :
    Couple oracle Under Under F Any (setProp p ins aux regs) (setProp p ins aux regs') := by
  have hle := opv_le h (ins.arg 2) (bit aux.hdr 2)
  have hfield := (Val.alike_field (Val.le_iff.1 hle).1).le
  have hwr (l : Loc) : Couple oracle Under Under F Any
      (wr l (.field (regs.opv (ins.arg 2) (bit aux.hdr 2)).t))
      (wr l (.field (regs'.opv (ins.arg 2) (bit aux.hdr 2)).t)) :=
    under_wr (fun _ _ hm => hm) hfield
  unfold setProp
  cases aux.key with
  | none =>
      simp only [ha]
      cases (regs'.opv (ins.arg 0) false).a.get with
      | some s => exact under_wrElem hle
      | none => exact hwr _
  | some kid =>
      refine (pair_index _ _).bind fun name name' hname => ?_
      subst hname
      cases name with
      | units u => exact hwr _
      | lit l => exact hwr _
      | index ix =>
          simp only [setNamed, ha]
          cases (regs'.opv (ins.arg 0) false).a.get with
          | none => exact hwr _
          | some s =>
              dsimp only
              split
              · exact under_wrElem hle
              · exact hwr _

theorem opv_alike {regs regs' : Regs n} (h : regs ≤ regs') {op : Operand}
    (hsame : (regs.opv op false).c = (regs'.opv op false).c
      ∧ (regs.opv op false).a = (regs'.opv op false).a
      ∧ (regs.opv op false).h = (regs'.opv op false).h) (hdr : Bool) :
    (regs.opv op hdr).Alike (regs'.opv op hdr) := by
  obtain ⟨hc, ha, hh⟩ := hsame
  have hle := opv_le h op hdr
  cases op with
  | reg r => exact ⟨hle, hc, ha, hh⟩
  | _ => exact Val.Alike.refl _

theorem alike_args {regs regs' : Regs n} (h : regs ≤ regs') (ins : Instr) (hdr : ℕ)
    (hsame : ∀ k, (regs.opv (ins.arg (k + 1)) false).c = (regs'.opv (ins.arg (k + 1)) false).c
      ∧ (regs.opv (ins.arg (k + 1)) false).a = (regs'.opv (ins.arg (k + 1)) false).a
      ∧ (regs.opv (ins.arg (k + 1)) false).h = (regs'.opv (ins.arg (k + 1)) false).h) :
    List.Forall₂ Val.Alike
      ((ins.args.zipIdx.drop 1).map fun a => regs.opv a.1 (bit hdr a.2))
      ((ins.args.zipIdx.drop 1).map fun a => regs'.opv a.1 (bit hdr a.2)) := by
  rw [List.forall₂_map_left_iff, List.forall₂_map_right_iff, List.forall₂_same]
  intro a ha
  obtain ⟨k, hk⟩ := List.mem_iff_getElem?.1 ha
  rw [List.getElem?_drop, Nat.add_comm, List.getElem?_zipIdx, Option.map_eq_some_iff] at hk
  obtain ⟨op, hop, rfl⟩ := hk
  have harg : ins.arg (k + 1) = op := by
    rw [Instr.arg, List.getD_eq_getElem?_getD, hop, Option.getD_some]
  exact opv_alike h (harg ▸ hsame k) _

/-- The taint of the operands of the other instructions. -/
theorem foldl_taint_le {regs regs' : Regs n} (h : regs ≤ regs') (ops : List Operand)
    {t u : Taint} (htu : t ≤ u) :
    ops.foldl (fun t op => t ⊔ (regs.opv op false).t) t
      ≤ ops.foldl (fun t op => t ⊔ (regs'.opv op false).t) u := by
  induction ops generalizing t u with
  | nil => exact htu
  | cons op ops ih =>
      exact ih (sup_le_sup htu (Val.le_iff.1 (opv_le h op false)).1)

theorem of_under {R : α → β → Prop} {x : M α} {y : M β} (h : Couple oracle Under Under F R x y) :
    Couple oracle (Start F calls) Under F R x y :=
  h.imp (fun _ _ hm => hm.1.toUnder) (fun _ _ hm => hm) fun _ _ hr => hr

theorem of_below {R : α → β → Prop} {x : M α} {y : M β} (h : Pair F calls R x y) :
    Couple oracle (Start F calls) Under F R x y :=
  h.imp (fun _ _ hm => hm.1) (fun _ _ hm => hm.toUnder) fun _ _ hr => hr

/-- **One instruction**, side by side. -/
theorem pair_transfer (f i : ℕ) {regs regs' : Regs n} (h : regs ≤ regs') {ins : Instr} {aux : Aux}
    (hins : p.instrs[i]? = some ins) (haux : p.aux[i]? = some aux)
    (hagree : ∀ k, agree ins.op aux.key.isSome k (regs.opv (ins.arg k) false)
      (regs'.opv (ins.arg k) false)) :
    Couple oracle (Start F (isCall ins.op)) Under F (· ≤ ·) (transfer p f i regs)
      (transfer p f i regs') := by
  unfold transfer
  rw [index, hins, index, haux]
  simp only [pure_bind]
  generalize ins.op = op at hagree
  -- A result for the destination, and nothing else.
  have hpure {v w : Val} (hvw : v ≤ w) : Couple oracle Under Under F (· ≤ ·)
      (pure (setDest ins regs v) : M (Regs n)) (pure (setDest ins regs' w)) :=
    Couple.pure (setDest_le h ins hvw)
  have hkeep : Couple oracle Under Under F (· ≤ ·) (pure regs : M (Regs n)) (pure regs') :=
    Couple.pure h
  have htaint (l : Loc) : Couple oracle Under Under F (· ≤ ·) (rdTaint l) (rdTaint l) :=
    pair_rdTaint (fun _ _ hm => hm) l
  have hwrite (l : Loc) {v w : Val} (hvw : v ≤ w) : Couple oracle Under Under F (· ≤ ·)
      (do wr l v; return regs : M (Regs n)) (do wr l w; return regs') :=
    (under_wr (fun _ _ hm => hm) hvw).bind fun _ _ _ => hkeep
  -- A call of the first operand without a receiver.
  have hcall {args args' : List Val} {rest rest' : Val} (k : ℕ)
      (hc : (regs.opv (ins.arg k) false).c = (regs'.opv (ins.arg k) false).c)
      (hargs : List.Forall₂ Val.Alike args args') (hrest : rest.Alike rest') :
      Pair F true (· ≤ ·)
        (call p i (regs.opv (ins.arg k) false) none args rest >>= fun v =>
          pure (setDest ins regs v))
        (call p i (regs'.opv (ins.arg k) false) none args' rest' >>= fun v =>
          pure (setDest ins regs' v)) :=
    (pair_call i (opv_le h _ _) hc .none hargs hrest).bind fun _ _ hr =>
      Couple.pure (setDest_le h ins hr)
  cases op with
  | mov => exact of_under (hpure (opv_le h _ _))
  | getVar =>
      dsimp only
      cases p.var (ins.arg 0) with
      | none => exact of_under (hpure (le_refl _))
      | some id =>
          have hread : Pair F false (· ≤ ·) (Val.live <$> rd (.var id)) (Val.live <$> rd (.var id)) :=
            (pair_rd (.var id)).map fun v w hvw => Val.Steady.live_le hvw.2
          refine of_below (hread.bind fun v w hvw => Couple.pure (setDest_le h ins ?_))
          obtain ⟨ht, hc, ha, hh⟩ := Val.le_iff.1 hvw
          refine Val.le_iff.2 ⟨ht, ?_, ha, hh⟩
          dsimp only
          split
          · exact hc
          · exact le_refl _
  | assignVar | setVar =>
      dsimp only
      cases p.var (ins.arg 0) with
      | none => exact of_under hkeep
      | some id => exact of_under (hwrite _ (opv_le h _ _))
  | setVarExc =>
      dsimp only
      cases p.var (ins.arg 0) with
      | none => exact of_under hkeep
      | some id =>
          exact of_under ((htaint _).bind fun _ _ ht => hwrite _ (Val.alike_taint ht).le)
  | getExc | this =>
      exact of_under ((htaint _).bind fun _ _ ht => hpure (Val.alike_taint ht).le)
  | throw =>
      exact of_under (hwrite _ (Val.alike_field (Val.le_iff.1 (opv_le h _ _)).1).le)
  | ret => exact of_under (hwrite _ (opv_le h _ _))
  | closure | newArr | newArrN | newObj | global | regenRt | promiseCtor =>
      exact of_under (hpure (le_refl _))
  | getProp =>
      obtain ⟨ha, ht⟩ := hagree 0
      refine ((pair_getProp i ins aux h ha ht (hagree 1)).bind fun v w hvw =>
        Couple.pure (setDest_le h ins hvw)).imp (fun _ _ hm => hm) (fun _ _ hm => hm.toUnder)
          fun _ _ hr => hr
  | setProp =>
      exact of_under ((under_setProp ins aux h (hagree 0)).bind fun _ _ _ => hkeep)
  | call0 | call1 | call2 | call3 =>
      exact of_below (hcall 0 (hagree 0) (alike_args h ins aux.hdr fun k => hagree (k + 1))
        (Val.Alike.refl _))
  | callM =>
      have hthis : ThisLike (some (regs.opv (ins.arg 0) false))
          (some (regs'.opv (ins.arg 0) false)) := .some (opv_le h _ _) (hagree 0).1 (hagree 0).2
      refine of_below ((pair_expand (opv_le h _ _) (hagree 2)).bind fun r r' hr => ?_)
      exact (pair_call i (opv_le h _ _) (hagree 1) hthis hr.1 hr.2).bind fun _ _ hv =>
        Couple.pure (set_le h 2 hv)
  | new =>
      refine of_below ((pair_expand (opv_le h _ _) (hagree 1)).bind fun r r' hr => ?_)
      exact hcall 0 (hagree 0) hr.1 hr.2
  | _ =>
      dsimp only
      split
      · exact of_under hkeep
      · exact of_under (hpure (Val.alike_taint
          (Taint.derive_mono (foldl_taint_le h ins.args (le_refl _)))).le)

end Parts

/-! ## Monotone runs -/

/-- From both states instruction `i` of function `f` falls in the same cases: what it looks at
in its operands is the same, and so is what it looks at in the locations that it reads. -/
structure SameCases {n : ℕ} (p : Program) (f i : ℕ) (regs regs' : Regs n)
    (m m' : Mem Loc Val Facts) : Prop where
  operands : ∀ ins aux, p.instrs[i]? = some ins → p.aux[i]? = some aux → ∀ k,
    agree ins.op aux.key.isSome k (regs.opv (ins.arg k) false) (regs'.opv (ins.arg k) false)
  locations : ∀ ins, p.instrs[i]? = some ins → ∀ e ∈ (transfer p f i regs).reads oracle m,
    Regular (isCall ins.op) e.1 (m.vals e.1) (m'.vals e.1)

/-- **The transfer is monotone where both states fall in the same cases.**  From registers and
a state below others, with the same paths, it ends with registers and a state below those of
the others; what it writes, the other writes with values above; and what it reads, among it
what the functions return that it calls, the other reads. -/
theorem transfer_monotone {n : ℕ} (p : Program) (f i : ℕ) {regs regs' r r' : Regs n}
    {m m' m₁ m₁' : Mem Loc Val Facts} (hregs : regs ≤ regs') (hmem : Under m m')
    (hpaths : SamePaths m.aux m'.aux) (hcases : SameCases p f i regs regs' m m')
    (h : (transfer p f i regs).exec (Mem.handler oracle) m = some (r, m₁))
    (h' : (transfer p f i regs').exec (Mem.handler oracle) m' = some (r', m₁')) :
    r ≤ r' ∧ Under m₁ m₁'
      ∧ Prog.Within ((transfer p f i regs).writes oracle m)
          ((transfer p f i regs').writes oracle m')
      ∧ Prog.Within ((transfer p f i regs).reads oracle m)
          ((transfer p f i regs').reads oracle m') := by
  cases hins : p.instrs[i]? with
  | none =>
      rw [transfer, index, hins] at h
      cases h
  | some ins =>
      cases haux : p.aux[i]? with
      | none =>
          rw [transfer, index, hins, index, haux] at h
          cases h
      | some aux =>
          -- The locations that matter are those that the first run reads.
          have hstart : Start (fun l => ∃ v, (l, v) ∈ (transfer p f i regs).reads oracle m)
              (isCall ins.op) m m' := by
            refine ⟨⟨hmem, fun l hl => ?_⟩, hpaths⟩
            obtain ⟨v, hv⟩ := hl
            exact hcases.locations ins hins (l, v) hv
          obtain ⟨hmem', hres, hreads, hwrites⟩ :=
            pair_transfer f i hregs hins haux (hcases.operands ins aux hins haux) hstart
              (fun e he => ⟨e.2, he⟩) h h'
          exact ⟨hres, hmem', hwrites, hreads⟩

/-- One function, which calls what is in register 4 with what is in register 5. -/
def callsOne : Program where
  instrs := [⟨0, .call1, [.reg 4, .reg 5], none⟩]
  aux := [⟨none, 0, 0⟩]
  names := []
  blocks := [⟨0, 1⟩]
  fblocks := [0]
  fsucc := [(none, none)]
  funcs := [⟨0, 1, 0, 6⟩]
  nvars := 0
  varOff := [0]
  varItems := []
  methodOff := [0]
  methodItems := []
  siteLen := []
  nallocs := 0
  pow _ := none
  dynKey := none
  ffKey := none
  hdrKey := none

/-- Registers with a callee and an argument. -/
def twoRegs (callee arg : Val) : Regs 6 := fun r =>
  if r = 4 then callee else if r = 5 then arg else PLAIN

/-- The values before any run. -/
def noVals : Mem Loc Val Facts := ⟨fun _ => BOTTOM, (Facts.new callsOne).2.2⟩

theorem twoRegs_le {v w v' w' : Val} (hv : v ≤ v') (hw : w ≤ w') :
    twoRegs v w ≤ twoRegs v' w' := by
  intro r
  simp only [twoRegs]
  split
  · exact hv
  · split
    · exact hw
    · exact le_refl _

/-- The hypotheses of `transfer_monotone` are satisfiable: the function itself is called, with
an argument that is tainted in the second state. -/
theorem transfer_monotone_callsOne : ∃ r m₁ r' m₁',
    (transfer callsOne 0 0 (twoRegs { PLAIN with c := .of (.entry 0) } PLAIN)).exec
      (Mem.handler oracle) noVals = some (r, m₁)
    ∧ (transfer callsOne 0 0 (twoRegs { PLAIN with c := .of (.entry 0) } (.taint .lost))).exec
      (Mem.handler oracle) noVals = some (r', m₁')
    ∧ r ≤ r' ∧ Under m₁ m₁' := by
  refine ⟨_, _, _, _, rfl, rfl, ?_⟩
  have htaint : PLAIN ≤ .taint .lost := (Val.alike_taint (Taint.clean_le .lost)).le
  have hregs := twoRegs_le (le_refl { PLAIN with c := .of (.entry 0) }) htaint
  have hsame : SameCases callsOne 0 0 (twoRegs { PLAIN with c := .of (.entry 0) } PLAIN)
      (twoRegs { PLAIN with c := .of (.entry 0) } (.taint .lost)) noVals noVals := by
    refine ⟨fun ins aux hins haux k => ?_, fun ins hins e he => ?_⟩
    · cases hins
      cases haux
      match k with
      | 0 => rfl
      | 1 => exact ⟨rfl, rfl, rfl⟩
      | k + 2 => exact ⟨rfl, rfl, rfl⟩
    · cases hins
      obtain rfl : e = (.ret 0, BOTTOM) := List.mem_singleton.1 he
      exact (Val.Alike.refl _).steady
  have hmono := transfer_monotone callsOne 0 0 hregs ⟨fun _ => le_refl _, fun _ h => h,
    fun _ => le_refl _⟩ ⟨rfl, rfl⟩ hsame rfl rfl
  exact ⟨hmono.1, hmono.2.1⟩

/-- Where the callee is in conflict, the function is not called: its parameter, which the
first state taints, has no value. -/
theorem transfer_not_monotone : ∃ r m₁ r' m₁',
    twoRegs { PLAIN with c := .of (.entry 0) } (.taint .lost) ≤ twoRegs PLAIN (.taint .lost)
    ∧ (transfer callsOne 0 0 (twoRegs { PLAIN with c := .of (.entry 0) } (.taint .lost))).exec
      (Mem.handler oracle) noVals = some (r, m₁)
    ∧ (transfer callsOne 0 0 (twoRegs PLAIN (.taint .lost))).exec
      (Mem.handler oracle) noVals = some (r', m₁')
    ∧ m₁.vals (.elem 0 0) = .taint .lost ∧ m₁'.vals (.elem 0 0) = BOTTOM := by
  refine ⟨_, _, _, _, twoRegs_le ?_ (le_refl _), rfl, rfl, by decide, by decide⟩
  exact Val.le_iff.2 ⟨le_refl _, sup_eq_right.1 rfl, le_refl _, le_refl _⟩

end Fc
end Lunar
