/-
# The merges of the sort

`Sides.Sound`: the operations of a merge on its two runs do what they say, where `At s m c d` means
that in `s` the elements `m` have been taken, `c` are left of the copied run and `d` of the one that
has stayed.  `merge_low` takes from the front, `merge_high` from the back, so that for the latter
all three lists are read backwards, and what comes before comes after.

From there on the loops of both are one (`Sides.Sound.yields_block`), and both merge
(`yields_mergeLow`, `yields_mergeHigh`).
-/

import Lunar.Lib.Merging
import Lunar.Payload.Timsort.Search

namespace Lunar
namespace Timsort

open Lib (Prog Merging)

variable {α β γ σ : Type} {R : Rule α} {w : List α}

/-! ## Programs that a `break` may end -/

/-- Kept to the rule, the program ends with `P`, or by a `break` with `Q`. -/
def Ends (R : Rule α) {ε : Type} (p : ExceptT ε (Sorting α) β) (P : β → Prop) (Q : ε → Prop) :
    Prop :=
  Yields R p.run fun r => (∀ b, r = .ok b → P b) ∧ ∀ e, r = .error e → Q e

namespace Ends

variable {ε : Type} {P P' : β → Prop} {P₂ : γ → Prop} {Q : ε → Prop}
  {p : ExceptT ε (Sorting α) β} {f : β → ExceptT ε (Sorting α) γ}

theorem pure {b : β} (h : P b) : Ends R (pure b) P Q :=
  Yields.pure (b := Except.ok b) ⟨fun _ hb => Except.ok.inj hb ▸ h, fun _ he => by cases he⟩

theorem throw {e : ε} (h : Q e) : Ends R (throw e : ExceptT ε (Sorting α) β) P Q :=
  Yields.pure (b := Except.error e)
    ⟨fun _ hb => (by cases hb), fun _ he => Except.error.inj he ▸ h⟩

theorem lift {x : Sorting α β} (h : Yields R x P) : Ends R (ExceptT.lift x) P Q :=
  h.bind fun _ hb => pure hb

theorem mono (h : Ends R p P Q) (hP : ∀ b, P b → P' b) : Ends R p P' Q :=
  Yields.mono h fun _ hr => ⟨fun b hb => hP b (hr.1 b hb), hr.2⟩

theorem bind (h : Ends R p P Q) (hf : ∀ b, P b → Ends R (f b) P₂ Q) :
    Ends R (p >>= f) P₂ Q := by
  refine Yields.bind h fun r hr => ?_
  cases r with
  | ok b => exact hf b (hr.1 b rfl)
  | error e => exact throw (hr.2 e rfl)

end Ends

/-! ## The loops -/

/-- The operations on the two runs do what they say. -/
structure Sides.Sound (S : Sides α σ) (R : Rule α) (r q : α → α → Prop)
    (At : σ → List α → List α → List α → Prop) : Prop where
  copied : ∀ {s m c d}, At s m c d → S.copied s = c.length
  stayed : ∀ {s m c d}, At s m c d → S.stayed s = d.length
  compare : ∀ {s m x c y d}, At s m (x :: c) (y :: d) → q x y →
    Yields R (S.compare s) fun b => if b then r y x else r x y
  takeCopied : ∀ {s m x c d}, At s m (x :: c) d →
    Yields R (S.takeCopied s) fun s' => At s' (m ++ [x]) c d
  takeStayed : ∀ {s m c y d}, At s m c (y :: d) →
    Yields R (S.takeStayed s) fun s' => At s' (m ++ [y]) c d
  gallopCopied : ∀ {s m c y d}, At s m c (y :: d) → c ≠ [] → c.Pairwise r →
    (∀ x ∈ c, q x y) → Yields R (S.gallopCopied s) fun res => ∃ c₁ c₂, c = c₁ ++ c₂ ∧
      res.2 = c₁.length ∧ At res.1 (m ++ c₁) c₂ (y :: d) ∧
      (∀ x ∈ c₁, r x y) ∧ ∀ x ∈ c₂, r y x
  gallopStayed : ∀ {s m x c d}, At s m (x :: c) d → d ≠ [] → d.Pairwise r →
    (∀ y ∈ d, q x y) → Yields R (S.gallopStayed s) fun res => ∃ d₁ d₂, d = d₁ ++ d₂ ∧
      res.2 = d₁.length ∧ At res.1 (m ++ d₁) (x :: c) d₂ ∧
      (∀ y ∈ d₁, r y x) ∧ ∀ y ∈ d₂, r x y

/-- What the end of the loops leaves to do: the copied elements are put before those that have
stayed, or the only one that is left behind them. -/
def MergeEnd.out (m c d : List α) : MergeEnd → List α
  | .succeed => m ++ c ++ d
  | .copy => m ++ d ++ c

/-- What is true at a `break`. -/
def MergeEnd.Holds (c d : List α) : MergeEnd → Prop
  | .succeed => c = [] ∨ d = []
  | .copy => c.length = 1

section Loops

variable (r q : α → α → Prop) (At : σ → List α → List α → List α → Prop) (whole : List α)

/-- A merge that goes on, with at most `n` elements left. -/
def Running (n : ℕ) (s : σ) : Prop :=
  ∃ m c d, At s m c d ∧ Merging r q whole m c d ∧ 2 ≤ c.length ∧ 1 ≤ d.length ∧
    c.length + d.length ≤ n

/-- A merge that a `break` has ended. -/
def Broken (e : MergeEnd × σ × ℕ) : Prop :=
  ∃ m c d, At e.2.1 m c d ∧ Merging r q whole m c d ∧ e.1.Holds c d

variable {r q At whole} {S : Sides α σ} {n mg : ℕ} {s : σ}

theorem Running.mono {n' : ℕ} (h : Running r q At whole n s) (hn : n ≤ n') :
    Running r q At whole n' s := by
  obtain ⟨m, c, d, hat, hm, hc, hd, hle⟩ := h
  exact ⟨m, c, d, hat, hm, hc, hd, hle.trans hn⟩

/-- **The end of a merge**: all is there, in order. -/
theorem Broken.out {e : MergeEnd × σ × ℕ} (h : Broken r q At whole e) :
    ∃ m c d, At e.2.1 m c d ∧ e.1.Holds c d ∧ (e.1.out m c d).Perm whole ∧
      (e.1.out m c d).Pairwise r := by
  obtain ⟨m, c, d, hat, hm, he⟩ := h
  refine ⟨m, c, d, hat, he, ?_⟩
  cases hend : e.1 with
  | succeed =>
      rw [hend] at he
      rcases he with rfl | rfl
      · simpa [MergeEnd.out] using hm.sorted_right
      · simpa [MergeEnd.out] using hm.sorted_left
  | copy =>
      rw [hend] at he
      obtain ⟨x, rfl⟩ := List.length_eq_one_iff.1 he
      exact hm.sorted_last

namespace Sides.Sound

variable (hS : S.Sound R r q At)

include hS

theorem ends_endStayed {m c d : List α} (hat : At s m c d) (hm : Merging r q whole m c d) :
    Ends R (S.endStayed mg s) (fun _ => 1 ≤ d.length) (Broken r q At whole) := by
  unfold endStayed
  split
  · rename_i h
    rw [hS.stayed hat] at h
    exact .throw ⟨m, c, d, hat, hm, .inr (List.length_eq_zero_iff.1 (by omega))⟩
  · rename_i h
    rw [hS.stayed hat] at h
    exact .pure (by omega)

theorem ends_endCopied {m c d : List α} (hat : At s m c d) (hm : Merging r q whole m c d) :
    Ends R (S.endCopied mg s) (fun _ => c.length ≠ 1) (Broken r q At whole) := by
  unfold endCopied
  split
  · rename_i h
    rw [hS.copied hat] at h
    exact .throw ⟨m, c, d, hat, hm, show c.length = 1 by omega⟩
  · rename_i h
    rw [hS.copied hat] at h
    exact .pure (by omega)

theorem ends_endGallopCopied {m c₁ c₂ d : List α} (hat : At s (m ++ c₁) c₂ d)
    (hm : Merging r q whole (m ++ c₁) c₂ d) (hlen : 2 ≤ c₁.length + c₂.length) :
    Ends R (S.endGallopCopied mg c₁.length s) (fun _ => 2 ≤ c₂.length)
      (Broken r q At whole) := by
  unfold endGallopCopied
  split
  · refine (hS.ends_endCopied hat hm).bind fun _ h1 => ?_
    split
    · rename_i h0
      rw [hS.copied hat] at h0
      exact .throw ⟨_, _, _, hat, hm, .inl (List.length_eq_zero_iff.1 (by omega))⟩
    · rename_i h0
      rw [hS.copied hat] at h0
      exact .pure (by omega)
  · exact .pure (by omega)

theorem ends_endGallopStayed {m c d₁ d₂ : List α} (hat : At s (m ++ d₁) c d₂)
    (hm : Merging r q whole (m ++ d₁) c d₂) (hlen : 1 ≤ d₁.length + d₂.length) :
    Ends R (S.endGallopStayed mg d₁.length s) (fun _ => 1 ≤ d₂.length)
      (Broken r q At whole) := by
  unfold endGallopStayed
  split
  · exact hS.ends_endStayed hat hm
  · exact .pure (by omega)

variable (hr : ∀ {x y z}, r x y → r y z → r x z)

include hr

/-- **One element after the other.** -/
theorem ends_singles {fuel c d : ℕ} (h : Running r q At whole n s) (hn : n < fuel) :
    Ends R (S.singles mg fuel s c d) (fun res => Running r q At whole (n - 1) res.1)
      (Broken r q At whole) := by
  induction fuel generalizing n s c d with
  | zero => omega
  | succ fuel ih =>
      obtain ⟨m, cs, ds, hat, hm, hc, hd, hle⟩ := h
      obtain ⟨x, cs, rfl⟩ := List.exists_cons_of_length_pos (show 0 < cs.length by omega)
      obtain ⟨y, ds, rfl⟩ := List.exists_cons_of_length_pos hd
      simp only [List.length_cons] at hc hle
      have hq : q x y := hm.cross x List.mem_cons_self y List.mem_cons_self
      unfold singles
      refine (Ends.lift (hS.compare hat hq)).bind fun b hb => ?_
      cases b
      · refine (Ends.lift (hS.takeCopied hat)).bind fun s' hat' => ?_
        have hm' : Merging r q whole (m ++ [x]) cs (y :: ds) :=
          hm.takeLeft (f := [x]) fun z hz => by
            rw [List.mem_singleton.1 hz]
            exact hm.before_right hr hb
        refine (hS.ends_endCopied hat' hm').bind fun _ hlen => ?_
        have hgo : Running r q At whole (n - 1) s' :=
          ⟨_, _, _, hat', hm', by omega, by simp, by simp only [List.length_cons]; omega⟩
        split
        · exact .pure hgo
        · exact (ih hgo (by omega)).mono fun _ h => h.mono (by omega)
      · refine (Ends.lift (hS.takeStayed hat)).bind fun s' hat' => ?_
        have hm' : Merging r q whole (m ++ [y]) (x :: cs) ds :=
          hm.takeRight (f := [y]) fun z hz => by
            rw [List.mem_singleton.1 hz]
            exact hm.before_left hr hb
        refine (hS.ends_endStayed hat' hm').bind fun _ hlen => ?_
        have hgo : Running r q At whole (n - 1) s' :=
          ⟨_, _, _, hat', hm', by simpa using hc, hlen, by simp only [List.length_cons]; omega⟩
        split
        · exact .pure hgo
        · exact (ih hgo (by omega)).mono fun _ h => h.mono (by omega)

theorem ends_halfCopied (h : Running r q At whole n s) :
    Ends R (S.halfCopied mg s) (fun res => Running r q At whole (n - 1) res.1)
      (Broken r q At whole) := by
  obtain ⟨m, c, d, hat, hm, hc, hd, hle⟩ := h
  obtain ⟨y, d, rfl⟩ := List.exists_cons_of_length_pos hd
  have hne : c ≠ [] := List.ne_nil_of_length_pos (by omega)
  unfold halfCopied
  refine (Ends.lift (hS.gallopCopied hat hne hm.left fun x hx =>
    hm.cross x hx y List.mem_cons_self)).bind ?_
  rintro ⟨s₁, _⟩ ⟨c₁, c₂, rfl, rfl, hat₁, hbefore, hafter⟩
  simp only [List.length_append, List.length_cons] at hc hle
  have hm₁ : Merging r q whole (m ++ c₁) c₂ (y :: d) :=
    hm.takeLeft fun x hx => hm.before_right hr (hbefore x hx)
  refine (hS.ends_endGallopCopied hat₁ hm₁ hc).bind fun _ hc₂ => ?_
  refine (Ends.lift (hS.takeStayed hat₁)).bind fun s₂ hat₂ => ?_
  have hm₂ : Merging r q whole (m ++ c₁ ++ [y]) c₂ d :=
    hm₁.takeRight (f := [y]) fun z hz => by
      rw [List.mem_singleton.1 hz]
      exact hafter
  refine (hS.ends_endStayed hat₂ hm₂).bind fun _ hlen => .pure ?_
  exact ⟨_, _, _, hat₂, hm₂, hc₂, hlen, by omega⟩

theorem ends_halfStayed (h : Running r q At whole n s) :
    Ends R (S.halfStayed mg s) (fun res => Running r q At whole (n - 1) res.1)
      (Broken r q At whole) := by
  obtain ⟨m, c, d, hat, hm, hc, hd, hle⟩ := h
  obtain ⟨x, c, rfl⟩ := List.exists_cons_of_length_pos (show 0 < c.length by omega)
  unfold halfStayed
  refine (Ends.lift (hS.gallopStayed hat (List.ne_nil_of_length_pos hd) hm.right fun y hy =>
    hm.cross x List.mem_cons_self y hy)).bind ?_
  rintro ⟨s₁, _⟩ ⟨d₁, d₂, rfl, rfl, hat₁, hbefore, hafter⟩
  simp only [List.length_append, List.length_cons] at hc hd hle
  have hm₁ : Merging r q whole (m ++ d₁) (x :: c) d₂ :=
    hm.takeRight fun y hy => hm.before_left hr (hbefore y hy)
  refine (hS.ends_endGallopStayed hat₁ hm₁ hd).bind fun _ hd₂ => ?_
  refine (Ends.lift (hS.takeCopied hat₁)).bind fun s₂ hat₂ => ?_
  have hm₂ : Merging r q whole (m ++ d₁ ++ [x]) c d₂ :=
    hm₁.takeLeft (f := [x]) fun z hz => by
      rw [List.mem_singleton.1 hz]
      exact hafter
  refine (hS.ends_endCopied hat₂ hm₂).bind fun _ hlen => .pure ?_
  exact ⟨_, _, _, hat₂, hm₂, by omega, hd₂, by omega⟩

omit hr in
/-- The loops run for as many turns as elements are left. -/
theorem running_left (h : Running r q At whole n s) :
    ∃ k ≤ n, (S.copied s + S.stayed s).toNat = k ∧ Running r q At whole k s := by
  obtain ⟨m, c, d, hat, hm, hc, hd, hle⟩ := h
  refine ⟨c.length + d.length, hle, ?_, m, c, d, hat, hm, hc, hd, le_rfl⟩
  rw [hS.copied hat, hS.stayed hat]
  omega

omit hS hr in
theorem ends_gallops {turn : ℕ → σ → Sides.M α σ (σ × ℕ × ℕ)}
    (hturn : ∀ {n mg s}, Running r q At whole n s → Ends R (turn mg s)
      (fun res => Running r q At whole (n - 1) res.1) (Broken r q At whole))
    {fuel c d : ℕ} {first : Bool} (h : Running r q At whole n s) (hn : n < fuel) :
    Ends R (gallops turn fuel s c d mg first) (fun res => Running r q At whole n res.1)
      (Broken r q At whole) := by
  induction fuel generalizing n s c d mg first with
  | zero => omega
  | succ fuel ih =>
      obtain ⟨m, cs, ds, -, -, hc, -, hle⟩ := id h
      unfold gallops
      split
      · refine (hturn h).bind ?_
        rintro ⟨s, c, d⟩ h
        exact (ih h (by omega)).mono fun _ h => h.mono (by omega)
      · exact .pure h

theorem ends_rounds {turn : ℕ → σ → Sides.M α σ (σ × ℕ × ℕ)}
    (hturn : ∀ {n mg s}, Running r q At whole n s → Ends R (turn mg s)
      (fun res => Running r q At whole (n - 1) res.1) (Broken r q At whole))
    {fuel : ℕ} (h : Running r q At whole n s) (hn : n < fuel) :
    Ends R (S.rounds turn fuel s mg) (fun _ => True) (Broken r q At whole) := by
  induction fuel generalizing n s mg with
  | zero => omega
  | succ fuel ih =>
      obtain ⟨k, hk, hleft, hrun⟩ := hS.running_left h
      obtain ⟨-, cs, ds, -, -, hc, -, hle⟩ := id hrun
      unfold rounds
      simp only [hleft]
      refine (hS.ends_singles hr hrun (Nat.lt_succ_self k)).bind ?_
      rintro ⟨s₁, c, d⟩ hrun₁
      refine (ends_gallops hturn hrun₁ (by omega)).bind ?_
      rintro ⟨s₂, mg⟩ hrun₂
      exact ih hrun₂ (by omega)

/-- **The loops of a merge end by a `break`**, once the first element has been taken. -/
theorem yields_block {t : ℕ → σ → Sides.M α σ (σ × ℕ × ℕ)}
    (hturn : ∀ {n mg s}, Running r q At whole n s → Ends R (t mg s)
      (fun res => Running r q At whole (n - 1) res.1) (Broken r q At whole))
    {m c d : List α} (hat : At s m c d) (hm : Merging r q whole m c d) (hc : c ≠ []) :
    Yields R (S.block t s mg) (Broken r q At whole) := by
  have hpos := List.length_pos_of_ne_nil hc
  have hloop : Ends R (do
      S.endStayed mg s
      S.endCopied mg s
      S.rounds t ((S.copied s + S.stayed s).toNat + 1) s mg)
      (fun _ => True) (Broken r q At whole) := by
    refine (hS.ends_endStayed hat hm).bind fun _ hd => ?_
    refine (hS.ends_endCopied hat hm).bind fun _ hc1 => ?_
    have hrun : Running r q At whole (c.length + d.length) s :=
      ⟨m, c, d, hat, hm, by omega, hd, le_rfl⟩
    obtain ⟨k, -, hleft, hrun⟩ := hS.running_left hrun
    rw [hleft]
    exact hS.ends_rounds hr hturn hrun (Nat.lt_succ_self k)
  unfold block
  refine Yields.bind hloop fun res hres => ?_
  cases res with
  | ok never => cases never
  | error e => exact .pure (hres.2 e rfl)

end Sides.Sound
end Loops

/-- What a gallop has counted is taken, unless it is nothing. -/
theorem yields_taken {take : Sorting α σ} {P : List α → List α → σ → Prop} {s : σ} {n : ℕ}
    {c c₁ c₂ : List α} (hc : c = c₁ ++ c₂) (hn : n = c₁.length)
    (htake : Yields R take (P c₁ c₂)) (h0 : P [] c s) :
    Yields R (if 0 < n then do return (← take, n) else return (s, n)) fun res =>
      res.2 = c₁.length ∧ P c₁ c₂ res.1 := by
  subst hc
  split
  · exact htake.bind fun _ hs => .pure ⟨hn, hs⟩
  · obtain rfl : c₁ = [] := List.length_eq_zero_iff.1 (by omega)
    exact .pure ⟨hn, h0⟩

/-! ## `merge_low` -/

namespace Low

/-- In `s` the elements `m` have been taken, `c` are left of the left run, `d` of the right one. -/
structure At (tmp pre post : List α) (s : Low α) (m c d : List α) : Prop where
  w : ∃ gap, gap.length = c.length ∧ s.w = pre ++ m ++ gap ++ d ++ post
  tmp : ∃ used, tmp = used ++ c ∧ s.ct = used.length
  dest : s.dest = pre.length + m.length
  cb : s.cb = pre.length + m.length + c.length
  lenA : s.lenA = c.length
  lenB : s.lenB = d.length

variable {tmp pre post m f c d : List α} {s : Low α}

theorem yields_takeBs (h : At tmp pre post s m c (f ++ d)) :
    Yields R (s.takeBs f.length) fun s' => At tmp pre post s' (m ++ f) c d := by
  obtain ⟨⟨gap, hgap, hw⟩, htmp, hdest, hcb, hA, hB⟩ := h
  unfold takeBs
  refine (yields_moveWithin_left (p := pre ++ m) (g := gap) (l := f) (q := d ++ post)
    (by simp [hw]) (by simp [hdest]) (by omega) rfl).bind ?_
  rintro w' ⟨gap', hgap', rfl⟩
  simp only [List.length_append] at hB
  rw [if_neg (by omega)]
  refine .pure ⟨⟨gap', by omega, by simp⟩, htmp, ?_, ?_, hA, ?_⟩
  all_goals simp only [List.length_append]; omega

theorem yields_takeAs (h : At tmp pre post s m (f ++ c) d) :
    Yields R (s.takeAs tmp f.length) fun s' => At tmp pre post s' (m ++ f) c d := by
  obtain ⟨⟨gap, hgap, hw⟩, ⟨used, htmp, hct⟩, hdest, hcb, hA, hB⟩ := h
  simp only [List.length_append] at hgap hcb hA
  unfold takeAs
  refine Yields.then_ (yields_slice (p := used) (l := f) (q := c) (by simp [htmp]) hct rfl) ?_
  refine Yields.then_ (yields_paste (p := pre ++ m) (o := gap.take f.length)
    (q := gap.drop f.length ++ d ++ post) ?_ (by simp [hdest]) (by simp; omega)) ?_
  · simp [hw, ← List.append_assoc (gap.take _)]
  · rw [if_neg (by omega)]
    refine .pure ⟨⟨gap.drop f.length, by simp; omega, by simp⟩,
      ⟨used ++ f, by simp [htmp], by simp [hct]⟩, ?_, ?_, ?_, hB⟩
    all_goals simp only [List.length_append]; omega

theorem yields_finish {e : MergeEnd} (h : At tmp pre post s m c d) (he : e.Holds c d) :
    Yields R (s.finish tmp e) (· = pre ++ e.out m c d ++ post) := by
  obtain ⟨⟨gap, hgap, hw⟩, ⟨used, htmp, hct⟩, hdest, hcb, hA, hB⟩ := h
  cases e with
  | succeed =>
      simp only [finish]
      split
      · refine Yields.then_ (yields_slice (p := used) (l := c) (q := []) (by simp [htmp]) hct
          hA) ?_
        refine (yields_paste (p := pre ++ m) (o := gap) (q := d ++ post) (by simp [hw])
          (by simp [hdest]) hgap).mono ?_
        rintro w' rfl
        simp [MergeEnd.out]
      · obtain rfl : c = [] := List.length_eq_zero_iff.1 (by omega)
        obtain rfl : gap = [] := List.length_eq_zero_iff.1 hgap
        exact .pure (by simp [hw, MergeEnd.out])
  | copy =>
      obtain ⟨x, rfl⟩ := List.length_eq_one_iff.1 he
      simp only [finish]
      refine (yields_moveWithin_left (p := pre ++ m) (g := gap) (l := d) (q := post)
        (by simp [hw]) (by simp [hdest]) (by omega) hB).bind ?_
      rintro w' ⟨gap', hgap', rfl⟩
      obtain ⟨y, rfl⟩ := List.length_eq_one_iff.1 (hgap'.trans hgap)
      refine Yields.then_ (yields_get_at (p := used) (q := []) htmp hct) ?_
      refine (yields_put (p := pre ++ m ++ d) (q := post) (o := y) (by simp)
        (by simp [hdest, hB, Nat.add_assoc])).mono ?_
      rintro w' rfl
      simp [MergeEnd.out]

theorem sound (R : Rule α) (tmp pre post : List α) :
    (sides tmp).Sound R R.before (fun x y => R.later y x) (At tmp pre post) where
  copied h := congrArg Nat.cast h.lenA
  stayed h := congrArg Nat.cast h.lenB
  compare := by
    rintro s m x c y d ⟨⟨gap, hgap, hw⟩, ⟨used, htmp, hct⟩, hdest, hcb, hA, hB⟩ hq
    refine Yields.then_ (yields_get_at (p := pre ++ m ++ gap) (a := y) (q := d ++ post)
      (by simp [hw]) (by simp only [List.length_append]; omega)) ?_
    refine Yields.then_ (yields_get_at htmp hct) ?_
    exact yields_less hq
  takeCopied {s m x c d} h := yields_takeAs (f := [x]) h
  takeStayed {s m c y d} h := yields_takeBs (f := [y]) h
  gallopCopied := by
    rintro s m c y d h hne hc hq
    obtain ⟨⟨gap, hgap, hw⟩, ⟨used, htmp, hct⟩, hdest, hcb, hA, hB⟩ := id h
    refine Yields.then_ (yields_get_at (p := pre ++ m ++ gap) (a := y) (q := d ++ post)
      (by simp [hw]) (by simp only [List.length_append]; omega)) ?_
    refine (yields_gallopRight (q := []) (by simp [htmp]) hct hA
      (hA ▸ List.length_pos_of_ne_nil hne) hc hq).bind ?_
    rintro k ⟨hk, hbefore, hafter⟩
    have hlen : k = (c.take k).length := by simp; omega
    have htake := yields_takeAs (R := R) (f := c.take k) (c := c.drop k)
      (by simpa only [List.take_append_drop] using h)
    rw [← hlen] at htake
    refine (yields_taken (P := fun c₁ c₂ s => At tmp pre post s (m ++ c₁) c₂ (y :: d))
      (List.take_append_drop k c).symm hlen htake (by simpa using h)).mono ?_
    rintro res ⟨hn, hat⟩
    exact ⟨_, _, (List.take_append_drop k c).symm, hn, hat, hbefore, hafter⟩
  gallopStayed := by
    rintro s m x c d h hne hd hq
    obtain ⟨⟨gap, hgap, hw⟩, ⟨used, htmp, hct⟩, hdest, hcb, hA, hB⟩ := id h
    refine Yields.then_ (yields_get_at (a := x) htmp hct) ?_
    refine (yields_gallopLeft (p := pre ++ m ++ gap) (q := post) (by simp [hw])
      (by simp only [List.length_append]; omega) hB
      (hB ▸ List.length_pos_of_ne_nil hne) hd hq).bind ?_
    rintro k ⟨hk, hbefore, hafter⟩
    have hlen : k = (d.take k).length := by simp; omega
    have htake := yields_takeBs (R := R) (f := d.take k) (d := d.drop k)
      (by simpa only [List.take_append_drop] using h)
    rw [← hlen] at htake
    refine (yields_taken (P := fun d₁ d₂ s => At tmp pre post s (m ++ d₁) (x :: c) d₂)
      (List.take_append_drop k d).symm hlen htake (by simpa using h)).mono ?_
    rintro res ⟨hn, hat⟩
    exact ⟨_, _, (List.take_append_drop k d).symm, hn, hat, hbefore, hafter⟩

end Low

/-- **`merge_low` merges.** -/
theorem yields_mergeLow {pre A B post : List α} {baseA lenA baseB lenB mg : ℕ}
    (hw : w = pre ++ A ++ B ++ post) (hbaseA : baseA = pre.length) (hlenA : lenA = A.length)
    (hbaseB : baseB = pre.length + A.length) (hlenB : lenB = B.length)
    (hA : A.Pairwise R.before) (hB : B.Pairwise R.before) (hneA : A ≠ [])
    (hlater : ∀ x ∈ A, ∀ y ∈ B, R.later y x)
    (hfirst : ∃ y, B.head? = some y ∧ ∀ x ∈ A, R.before y x)
    (hlast : ∃ x, A.getLast? = some x ∧ ∀ y ∈ B, R.before y x) :
    Yields R (mergeLow w baseA lenA baseB lenB mg) fun res =>
      ∃ merged, merged.Perm (A ++ B) ∧ merged.Pairwise R.before ∧
        res.1 = pre ++ merged ++ post := by
  obtain ⟨y, hy, hfirst⟩ := hfirst
  obtain ⟨x, hx, hlast⟩ := hlast
  obtain ⟨B, rfl⟩ := List.head?_eq_some_iff.1 hy
  have hm : Merging R.before (fun x y => R.later y x) (A ++ y :: B) ([] ++ [y]) A B :=
    Merging.takeRight (f := [y])
      ⟨.refl _, .nil, hA, hB, fun _ h => absurd h List.not_mem_nil,
        fun _ h => absurd h List.not_mem_nil, hlater,
        fun z hz => Option.some_inj.1 (hx.symm.trans hz) ▸ hlast⟩
      fun z hz => by
        rw [List.mem_singleton.1 hz]
        exact hfirst
  unfold mergeLow
  refine Yields.then_ (yields_slice (p := pre) (l := A) (q := y :: B ++ post) (by simp [hw])
    hbaseA hlenA) ?_
  have hat : Low.At A pre post ⟨w, baseA, 0, baseB, lenA, lenB⟩ [] A ([y] ++ B) :=
    ⟨⟨A, rfl, by simpa using hw⟩, ⟨[], rfl, rfl⟩, hbaseA, hbaseB, hlenA, hlenB⟩
  refine (Low.yields_takeBs hat).bind fun s hat => ?_
  have hS := Low.sound R A pre post
  refine (hS.yields_block R.trans (t := Low.turn A) (fun h => ?_) hat hm hneA).bind ?_
  · refine (hS.ends_halfCopied R.trans h).bind ?_
    rintro ⟨s, c⟩ h
    refine (hS.ends_halfStayed R.trans h).bind ?_
    rintro ⟨s, d⟩ h
    exact .pure (h.mono (by omega))
  · rintro ⟨e, s, mg⟩ hbroken
    obtain ⟨m, c, d, hat, he, hperm, hsorted⟩ := hbroken.out
    refine Yields.then_ (Low.yields_finish hat he) (.pure ?_)
    exact ⟨_, hperm, hsorted, rfl⟩

/-! ## `merge_high` -/

namespace High

/-- In `s` the elements `m` have been taken, `c` are left of the right run, `d` of the left one, all
of them from the last one on. -/
structure At (tmp pre post : List α) (s : High α) (m c d : List α) : Prop where
  w : ∃ gap, gap.length = c.length ∧ s.w = pre ++ d.reverse ++ gap ++ m.reverse ++ post
  tmp : ∃ used, tmp = c.reverse ++ used
  dest : s.dest = pre.length + d.length + c.length - 1
  ct : s.ct = c.length - 1
  ca : s.ca = pre.length + d.length - 1
  lenA : s.lenA = d.length
  lenB : s.lenB = c.length

variable {tmp pre post m f c d : List α} {s : High α}

theorem yields_takeAs (h : At tmp pre post s m c (f ++ d)) :
    Yields R (s.takeAs f.length) fun s' => At tmp pre post s' (m ++ f) c d := by
  obtain ⟨⟨gap, hgap, hw⟩, htmp, hdest, hct, hca, hA, hB⟩ := h
  simp only [List.length_append] at hdest hca hA
  unfold takeAs
  refine Yields.then_ (yields_toUsize (n := pre.length + d.length) (by omega)) ?_
  refine Yields.then_ (yields_toUsize (n := pre.length + d.length + c.length) (by omega)) ?_
  refine (yields_moveWithin_right (p := pre ++ d.reverse) (l := f.reverse) (g := gap)
    (q := m.reverse ++ post) (by simp [hw]) (by simp) (by omega) (by simp)).bind ?_
  rintro w' ⟨gap', hgap', rfl⟩
  refine .pure ⟨⟨gap', by omega, by simp⟩, htmp, ?_, hct, ?_, ?_, hB⟩
  all_goals simp only; omega

theorem yields_takeBs (h : At tmp pre post s m (f ++ c) d) :
    Yields R (s.takeBs tmp f.length) fun s' => At tmp pre post s' (m ++ f) c d := by
  obtain ⟨⟨gap, hgap, hw⟩, ⟨used, htmp⟩, hdest, hct, hca, hA, hB⟩ := h
  simp only [List.length_append] at hgap hdest hct hB
  unfold takeBs
  refine Yields.then_ (yields_toUsize (n := pre.length + d.length + c.length) (by omega)) ?_
  refine Yields.then_ (yields_toUsize (n := c.length) (by omega)) ?_
  refine Yields.then_ (yields_slice (p := c.reverse) (l := f.reverse) (q := used)
    (by simp [htmp]) (by simp) (by simp)) ?_
  refine Yields.then_ (yields_paste (p := pre ++ d.reverse ++ gap.take c.length)
    (o := gap.drop c.length) (q := m.reverse ++ post) ?_ ?_ ?_) (.pure ?_)
  · simp [hw]
  · simp only [List.length_append, List.length_reverse, List.length_take]
    omega
  · simp only [List.length_reverse, List.length_drop]
    omega
  · refine ⟨⟨gap.take c.length, by simp; omega, by simp⟩, ⟨f.reverse ++ used, by simp [htmp]⟩,
      ?_, ?_, hca, hA, ?_⟩
    all_goals simp only; omega

theorem yields_finish {e : MergeEnd} (h : At tmp pre post s m c d) (he : e.Holds c d) :
    Yields R (s.finish tmp e) (· = pre ++ (e.out m c d).reverse ++ post) := by
  obtain ⟨⟨gap, hgap, hw⟩, ⟨used, htmp⟩, hdest, hct, hca, hA, hB⟩ := h
  cases e with
  | succeed =>
      simp only [finish]
      split
      · refine Yields.then_ (yields_toUsize (n := pre.length + d.length) (by omega)) ?_
        refine Yields.then_ (yields_toUsize hB) ?_
        refine Yields.then_ (yields_slice (p := []) (l := c.reverse) (q := used)
          (by simp [htmp]) rfl (by simp)) ?_
        refine (yields_paste (p := pre ++ d.reverse) (o := gap) (l := c.reverse)
          (q := m.reverse ++ post) (by simp [hw]) (by simp) (by simp [hgap])).mono ?_
        rintro w' rfl
        simp [MergeEnd.out]
      · obtain rfl : c = [] := List.length_eq_zero_iff.1 (by omega)
        obtain rfl : gap = [] := List.length_eq_zero_iff.1 hgap
        exact .pure (by simp [hw, MergeEnd.out])
  | copy =>
      obtain ⟨x, rfl⟩ := List.length_eq_one_iff.1 he
      simp only [List.length_singleton] at hgap hdest hct hB
      simp only [finish]
      refine Yields.then_ (yields_toUsize (n := pre.length) (by omega)) ?_
      refine Yields.then_ (yields_toUsize (n := pre.length + 1) (by omega)) ?_
      refine Yields.then_ (yields_toUsize hA) ?_
      refine (yields_moveWithin_right (p := pre) (l := d.reverse) (g := gap)
        (q := m.reverse ++ post) (by simp [hw]) rfl (by omega) (by simp)).bind ?_
      rintro w' ⟨gap', hgap', rfl⟩
      obtain ⟨y, rfl⟩ := List.length_eq_one_iff.1 (hgap'.trans hgap)
      refine Yields.then_ (yields_toUsize (n := pre.length) (by omega)) ?_
      refine Yields.then_ (yields_toUsize (n := 0) (by omega)) ?_
      refine Yields.then_ (yields_get_at (p := []) (a := x) (q := used) (by simp [htmp]) rfl) ?_
      refine (yields_put (p := pre) (q := d.reverse ++ m.reverse ++ post) (o := y) (by simp)
        rfl).mono ?_
      rintro w' rfl
      simp [MergeEnd.out]

/-- A list in two parts, of which the second one is its reverse up to `k`. -/
theorem eq_append_reverse (c : List α) (k : ℕ) :
    c = (c.reverse.drop k).reverse ++ (c.reverse.take k).reverse := by
  rw [← List.reverse_append, List.take_append_drop, List.reverse_reverse]

theorem sound (R : Rule α) (tmp pre post : List α) :
    (sides tmp pre.length).Sound R (fun x y => R.before y x) (fun x y => R.later x y)
      (At tmp pre post) where
  copied h := h.lenB
  stayed h := h.lenA
  compare := by
    rintro s m x c y d ⟨⟨gap, hgap, hw⟩, ⟨used, htmp⟩, hdest, hct, hca, hA, hB⟩ hq
    simp only [List.length_cons] at hct hca
    refine Yields.then_ (yields_toUsize (n := c.length) (by omega)) ?_
    refine Yields.then_ (yields_get_at (p := c.reverse) (a := x) (q := used) (by simp [htmp])
      (by simp)) ?_
    refine Yields.then_ (yields_toUsize (n := pre.length + d.length) (by omega)) ?_
    refine Yields.then_ (yields_get_at (p := pre ++ d.reverse) (a := y)
      (q := gap ++ m.reverse ++ post) (by simp [hw]) (by simp)) ?_
    exact yields_less hq
  takeCopied {s m x c d} h := yields_takeBs (f := [x]) h
  takeStayed {s m c y d} h := yields_takeAs (f := [y]) h
  gallopCopied := by
    rintro s m c y d h hne hc hq
    obtain ⟨⟨gap, hgap, hw⟩, ⟨used, htmp⟩, hdest, hct, hca, hA, hB⟩ := id h
    have hpos := List.length_pos_of_ne_nil hne
    simp only [List.length_cons] at hca
    refine Yields.then_ (yields_toUsize (n := pre.length + d.length) (by omega)) ?_
    refine Yields.then_ (yields_get_at (p := pre ++ d.reverse) (a := y)
      (q := gap ++ m.reverse ++ post) (by simp [hw]) (by simp)) ?_
    refine Yields.then_ (yields_toUsize hB) ?_
    refine Yields.then_ (yields_toUsize (n := c.length - 1) (by omega)) ?_
    refine (yields_gallopLeft (p := []) (l := c.reverse) (q := used) (by simp [htmp]) rfl
      (by simp) (by omega) (List.pairwise_reverse.2 hc) (by simpa using hq)).bind ?_
    rintro k ⟨hk, hbefore, hafter⟩
    refine Yields.then_ (yields_toUsize (n := c.length - k) (by omega)) ?_
    have hlen : c.length - k = (c.reverse.drop k).reverse.length := by simp
    have htake := yields_takeBs (R := R) (f := (c.reverse.drop k).reverse)
      (c := (c.reverse.take k).reverse) (by rwa [← eq_append_reverse])
    rw [← hlen] at htake
    refine (yields_taken (P := fun c₁ c₂ s => At tmp pre post s (m ++ c₁) c₂ (y :: d))
      (eq_append_reverse c k) hlen htake (by simpa using h)).mono ?_
    rintro res ⟨hn, hat⟩
    exact ⟨_, _, eq_append_reverse c k, hn, hat, fun x hx => hafter x (List.mem_reverse.1 hx),
      fun x hx => hbefore x (List.mem_reverse.1 hx)⟩
  gallopStayed := by
    rintro s m x c d h hne hd hq
    obtain ⟨⟨gap, hgap, hw⟩, ⟨used, htmp⟩, hdest, hct, hca, hA, hB⟩ := id h
    have hpos := List.length_pos_of_ne_nil hne
    simp only [List.length_cons] at hct
    refine Yields.then_ (yields_toUsize (n := c.length) (by omega)) ?_
    refine Yields.then_ (yields_get_at (p := c.reverse) (a := x) (q := used) (by simp [htmp])
      (by simp)) ?_
    refine Yields.then_ (yields_toUsize hA) ?_
    refine Yields.then_ (yields_toUsize (n := d.length - 1) (by omega)) ?_
    refine (yields_gallopRight (p := pre) (l := d.reverse) (q := gap ++ m.reverse ++ post)
      (by simp [hw]) rfl (by simp) (by omega) (List.pairwise_reverse.2 hd)
      (by simpa using hq)).bind ?_
    rintro k ⟨hk, hbefore, hafter⟩
    refine Yields.then_ (yields_toUsize (n := d.length - k) (by omega)) ?_
    have hlen : d.length - k = (d.reverse.drop k).reverse.length := by simp
    have htake := yields_takeAs (R := R) (f := (d.reverse.drop k).reverse)
      (d := (d.reverse.take k).reverse) (by rwa [← eq_append_reverse])
    rw [← hlen] at htake
    refine (yields_taken (P := fun d₁ d₂ s => At tmp pre post s (m ++ d₁) (x :: c) d₂)
      (eq_append_reverse d k) hlen htake (by simpa using h)).mono ?_
    rintro res ⟨hn, hat⟩
    exact ⟨_, _, eq_append_reverse d k, hn, hat, fun y hy => hafter y (List.mem_reverse.1 hy),
      fun y hy => hbefore y (List.mem_reverse.1 hy)⟩

end High

/-- **`merge_high` merges.** -/
theorem yields_mergeHigh {pre A B post : List α} {baseA lenA baseB lenB mg : ℕ}
    (hw : w = pre ++ A ++ B ++ post) (hbaseA : baseA = pre.length) (hlenA : lenA = A.length)
    (hbaseB : baseB = pre.length + A.length) (hlenB : lenB = B.length)
    (hA : A.Pairwise R.before) (hB : B.Pairwise R.before) (hneB : B ≠ [])
    (hlater : ∀ x ∈ A, ∀ y ∈ B, R.later y x)
    (hfirst : ∃ y, B.head? = some y ∧ ∀ x ∈ A, R.before y x)
    (hlast : ∃ x, A.getLast? = some x ∧ ∀ y ∈ B, R.before y x) :
    Yields R (mergeHigh w baseA lenA baseB lenB mg) fun res =>
      ∃ merged, merged.Perm (A ++ B) ∧ merged.Pairwise R.before ∧
        res.1 = pre ++ merged ++ post := by
  obtain ⟨y, hy, hfirst⟩ := hfirst
  obtain ⟨x, hx, hlast⟩ := hlast
  obtain ⟨A, rfl⟩ := List.getLast?_eq_some_iff.1 hx
  have hm : Merging (fun x y => R.before y x) (fun x y => R.later x y)
      (B.reverse ++ x :: A.reverse) ([] ++ [x]) B.reverse A.reverse :=
    Merging.takeRight (f := [x])
      ⟨.refl _, .nil, List.pairwise_reverse.2 hB, by simpa using List.pairwise_reverse.2 hA,
        fun _ h => absurd h List.not_mem_nil, fun _ h => absurd h List.not_mem_nil,
        fun y hy x hx => hlater x (by simpa [or_comm] using hx) y (List.mem_reverse.1 hy),
        fun z hz x hx => by
          rw [List.getLast?_reverse] at hz
          rw [← Option.some_inj.1 (hy.symm.trans hz)]
          exact hfirst x (by simpa [or_comm] using hx)⟩
      fun z hz y hy => by
        rw [List.mem_singleton.1 hz]
        exact hlast y (List.mem_reverse.1 hy)
  subst hbaseA
  unfold mergeHigh
  refine Yields.then_ (yields_slice (p := pre ++ (A ++ [x])) (l := B) (q := post)
    (by simp [hw]) (by simpa using hbaseB) hlenB) ?_
  have hat : High.At B pre post
      ⟨w, baseB + lenB - 1, (lenB : ℤ) - 1, pre.length + lenA - 1, lenA, lenB⟩ []
      B.reverse ([x] ++ A.reverse) := by
    refine ⟨⟨B, by simp, by simpa using hw⟩, ⟨[], by simp⟩, ?_, ?_, ?_, ?_, ?_⟩
    all_goals
      simp only [List.length_append, List.length_reverse, List.length_singleton] at *
      omega
  refine (High.yields_takeAs hat).bind fun s hat => ?_
  have hS := High.sound R B pre post
  have htrans : ∀ {x y z}, R.before y x → R.before z y → R.before z x := fun h h' => R.trans h' h
  refine (hS.yields_block htrans (t := High.turn B pre.length) (fun h => ?_) hat hm
    (by simpa using hneB)).bind ?_
  · refine (hS.ends_halfStayed htrans h).bind ?_
    rintro ⟨s, c⟩ h
    refine (hS.ends_halfCopied htrans h).bind ?_
    rintro ⟨s, d⟩ h
    exact .pure (h.mono (by omega))
  · rintro ⟨e, s, mg⟩ hbroken
    obtain ⟨m, c, d, hat, he, hperm, hsorted⟩ := hbroken.out
    refine Yields.then_ (High.yields_finish hat he) (.pure ⟨_, ?_, ?_, rfl⟩)
    · have hrev : B.reverse ++ x :: A.reverse = (A ++ [x] ++ B).reverse := by simp
      rw [hrev] at hperm
      exact (List.reverse_perm _).trans (hperm.trans (List.reverse_perm _))
    · exact List.pairwise_reverse.2 hsorted

end Timsort
end Lunar
