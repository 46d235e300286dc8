/-
# The runs of the sort

A run that is found or made by insertion is sorted (`yields_countAndMakeRun`,
`yields_binaryInsertionSort`).  The array consists of the runs of the stack and of what has not been
looked at (`Stacked`); merging two neighbours keeps that (`yields_mergeAt`), whichever of them the
sort picks.  At the end one run is left, so that the array is sorted (`yields_timsort`).
-/

import Lunar.Payload.Timsort.Merge

namespace Lunar
namespace Timsort

open Lib (Prog)

variable {α : Type} {R : Rule α} {w p c u q : List α}

/-- The array has not been looked at: what stands behind is later. -/
def Pending (R : Rule α) (u : List α) : Prop := u.Pairwise fun x y => R.later y x

/-! ## Finding a run -/

/-- The order of a run, which may be descending. -/
def Rule.dir (R : Rule α) (desc : Bool) (x y : α) : Prop :=
  if desc then R.before y x else R.before x y

theorem Rule.dir_trans {desc : Bool} {x y z : α} (h : R.dir desc x y) (h' : R.dir desc y z) :
    R.dir desc x z := by
  cases desc
  · exact R.trans h h'
  · exact R.trans h' h

theorem pairwise_snoc {r : α → α → Prop} (hr : ∀ {x y z}, r x y → r y z → r x z) {prev x : α}
    (h : (c ++ [prev]).Pairwise r) (hx : r prev x) : (c ++ [prev] ++ [x]).Pairwise r := by
  refine List.pairwise_append.2 ⟨h, List.pairwise_singleton r x, fun y hy z hz => ?_⟩
  obtain rfl := List.mem_singleton.1 hz
  rcases List.mem_append.1 hy with hy | hy
  · exact hr ((List.pairwise_append.1 h).2.2 y hy prev (List.mem_singleton.2 rfl)) hx
  · exact List.mem_singleton.1 hy ▸ hx

theorem yields_extend {desc : Bool} {idx run : ℕ} {prev : α}
    (hw : w = p ++ (c ++ [prev]) ++ u ++ q) (hidx : idx = p.length + (c.length + 1))
    (hrun : run = c.length + 1) (hc : (c ++ [prev]).Pairwise (R.dir desc))
    (hu : Pending R (c ++ [prev] ++ u)) :
    Yields R (extend w desc u.length idx prev run) fun run' => ∃ k ≤ u.length,
      run' = c.length + 1 + k ∧ (c ++ [prev] ++ u.take k).Pairwise (R.dir desc) := by
  induction u generalizing c prev idx run with
  | nil =>
      unfold extend
      exact .pure ⟨0, le_rfl, hrun, by simpa using hc⟩
  | cons cur u ih =>
      rw [List.length_cons, extend]
      refine Yields.then_ (yields_get_at (p := p ++ (c ++ [prev])) (a := cur) (q := u ++ q)
        (by simp [hw]) (by simp [hidx])) ?_
      have hlater : R.later cur prev :=
        (List.pairwise_append.1 hu).2.2 prev (by simp) cur List.mem_cons_self
      refine (yields_less hlater).bind fun b hb => ?_
      split
      · rename_i hdesc
        have hdir : R.dir desc prev cur := by
          subst hdesc
          cases b <;> exact hb
        refine (ih (c := c ++ [prev]) (by simp [hw])
          (by simp only [List.length_append, List.length_singleton]; omega) (by simp [hrun])
          (pairwise_snoc (r := R.dir desc) R.dir_trans hc hdir) (by simpa using hu)).mono ?_
        rintro run' ⟨k, hk, hrun', hsorted⟩
        refine ⟨k + 1, by omega, ?_, by simpa using hsorted⟩
        simp only [List.length_append, List.length_singleton] at hrun'
        omega
      · exact .pure ⟨0, Nat.zero_le _, hrun, by simpa using hc⟩

/-- **A run is found**: a sorted front of what is pending. -/
theorem yields_countAndMakeRun {low high : ℕ} (hw : w = p ++ u ++ q) (hlow : low = p.length)
    (hhigh : high = p.length + u.length) (hne : u ≠ []) (hu : Pending R u) :
    Yields R (countAndMakeRun w low high) fun res => ∃ x c u', u = x ++ u' ∧ c.Perm x ∧ c ≠ [] ∧
      c.Pairwise R.before ∧ res.1 = c.length ∧ res.2 = p ++ c ++ u' ++ q := by
  obtain ⟨a, u, rfl⟩ := List.exists_cons_of_ne_nil hne
  cases u with
  | nil =>
      unfold countAndMakeRun
      rw [if_pos (by simp [hhigh, hlow])]
      exact .pure ⟨[a], [a], [], rfl, .refl _, by simp, by simp, rfl, by simpa using hw⟩
  | cons b u =>
      subst hlow hhigh
      unfold countAndMakeRun
      rw [if_neg (by simp only [List.length_cons]; omega)]
      refine Yields.then_ (yields_get_at (p := p ++ [a]) (a := b) (q := u ++ q) (by simp [hw])
        (by simp)) ?_
      refine Yields.then_ (yields_get_at (p := p) (a := a) (q := b :: u ++ q) (by simp [hw])
        (by omega)) ?_
      have hlater : R.later b a := (List.pairwise_cons.1 hu).1 b List.mem_cons_self
      refine (yields_less hlater).bind fun desc hdesc => ?_
      have hdir : R.dir desc a b := by cases desc <;> exact hdesc
      have hn : p.length + (a :: b :: u).length - (p.length + 1 + 1) = u.length := by
        simp only [List.length_cons]
        omega
      rw [hn]
      refine (yields_extend (p := p) (c := [a]) (q := q) (by simp [hw]) (by simp) rfl
        (pairwise_snoc (r := R.dir desc) (c := []) R.dir_trans (by simp) hdir)
        (by simpa using hu)).bind ?_
      rintro run ⟨k, hk, rfl, hsorted⟩
      have hsplit : a :: b :: u = (a :: b :: u.take k) ++ u.drop k := by simp
      have hw' : w = p ++ (a :: b :: u.take k) ++ (u.drop k ++ q) :=
        hw.trans ((congrArg (p ++ · ++ q) hsplit).trans (by simp only [List.append_assoc]))
      have hlen : (a :: b :: u.take k).length = [a].length + 1 + k := by
        simp only [List.length_cons, List.length_take, List.length_nil]
        omega
      cases desc
      · exact .pure ⟨_, _, _, hsplit, .refl _, by simp, hsorted, hlen.symm, by simp [hw]⟩
      · refine Yields.then_ (yields_slice hw' rfl hlen.symm) ?_
        refine Yields.then_ (yields_paste (l := (a :: b :: u.take k).reverse) hw' rfl (by simp))
          (.pure ?_)
        refine ⟨_, _, _, hsplit, List.reverse_perm _, by simp, List.pairwise_reverse.2 hsorted, ?_,
          by simp⟩
        simp only [List.length_reverse]
        exact hlen.symm

/-! ## Insertion -/

/-- A binary search between places that are counted from `base` on. -/
theorem narrow_shift (behind : ℤ → Sorting α Bool) (base : ℤ) (fuel : ℕ) (last offset : ℤ) :
    narrow behind fuel (base + last) (base + offset) =
      (base + ·) <$> narrow (fun i => behind (base + i)) fuel last offset := by
  induction fuel generalizing last offset with
  | zero => rfl
  | succ fuel ih =>
      unfold narrow
      split
      · rw [if_pos (by omega)]
        have hm : base + last + (base + offset - (base + last)) / 2 =
            base + (last + (offset - last) / 2) := by omega
        simp only [hm, map_bind]
        refine bind_congr fun b => ?_
        cases b
        · exact ih last _
        · exact Int.add_assoc base _ 1 ▸ ih _ offset
      · rw [if_neg (by omega)]
        rfl

/-- The place of a key behind `base`. -/
theorem yields_narrow_from {xs : List α} {key : α} {behind : ℤ → Sorting α Bool} {base fuel : ℕ}
    {lo hi : ℤ} (ht : Tests R xs key fun i => behind (base + i)) (hlo : lo = base)
    (hhi : hi = base + xs.length) (hfuel : xs.length < fuel) :
    Yields R (narrow behind fuel lo hi) fun k => ∃ j : ℕ, k = base + j ∧ j ≤ xs.length ∧
      (∀ x ∈ xs.take j, R.before x key) ∧ ∀ x ∈ xs.drop j, R.before key x := by
  subst hlo hhi
  have hshift := narrow_shift behind base fuel 0 xs.length
  rw [Int.add_zero] at hshift
  rw [hshift]
  refine (yields_narrow ht le_rfl (by omega) le_rfl (fun j _ hj => by omega)
    (fun j x hj hx => ?_) (by omega)).bind ?_
  · have := (List.getElem?_eq_some_iff.1 hx).1
    omega
  · rintro k ⟨h0, hle, hb, ha⟩
    obtain ⟨k, rfl⟩ := Int.eq_ofNat_of_zero_le h0
    exact .pure ⟨k, rfl, by omega, take_drop_of_below hb ha⟩

/-- **Insertion keeps the front sorted.** -/
theorem yields_insertAll {low start : ℕ} (hw : w = p ++ c ++ u ++ q) (hlow : low = p.length)
    (hstart : start = p.length + c.length) (hc : c.Pairwise R.before)
    (hlater : ∀ x ∈ c, ∀ y ∈ u, R.later y x) (hu : Pending R u) :
    Yields R (insertAll w low u.length start) fun w' => ∃ c', c'.Perm (c ++ u) ∧
      c'.Pairwise R.before ∧ w' = p ++ c' ++ q := by
  induction u generalizing w c start with
  | nil =>
      unfold insertAll
      exact .pure ⟨c, by simp, hc, by simpa using hw⟩
  | cons pivot u ih =>
      subst hlow hstart
      rw [List.length_cons, insertAll]
      refine Yields.then_ (yields_get_at (p := p ++ c) (a := pivot) (q := u ++ q)
        (by simp [hw]) (by simp)) ?_
      have hpivot : ∀ x ∈ c, R.later pivot x := fun x hx => hlater x hx pivot List.mem_cons_self
      refine (yields_narrow_from (tests_right (p := p) (l := c) (q := pivot :: u ++ q)
        (by simp [hw]) rfl hc hpivot) rfl (by simp) (by omega)).bind ?_
      rintro _ ⟨k, rfl, hk, hbefore, hafter⟩
      refine Yields.then_ (yields_toUsize (n := p.length + k) (by simp)) ?_
      refine (yields_moveUp (p := p ++ c.take k) (l := c.drop k) (g := [pivot])
        (q := u ++ q) (by simp [hw]) (by simp; omega) (by simp) (by simp; omega)).bind ?_
      rintro w' ⟨gap, hgap, rfl⟩
      obtain ⟨x, rfl⟩ := List.length_eq_one_iff.1 hgap
      refine Yields.then_ (yields_put (p := p ++ c.take k) (o := x) (q := c.drop k ++ u ++ q)
        (by simp) (by simp; omega)) ?_
      have hperm : (c.take k ++ [pivot] ++ c.drop k).Perm (c ++ [pivot]) := by
        rw [List.append_assoc]
        refine (List.Perm.append_left _ List.perm_append_comm).trans ?_
        rw [← List.append_assoc, List.take_append_drop]
      have hsorted : (c.take k ++ [pivot] ++ c.drop k).Pairwise R.before := by
        rw [← List.take_append_drop k c] at hc
        obtain ⟨htake, hdrop, hcross⟩ := List.pairwise_append.1 hc
        rw [List.append_assoc]
        refine List.pairwise_append.2 ⟨htake, List.pairwise_cons.2 ⟨hafter, hdrop⟩, ?_⟩
        intro x hx y hy
        rcases List.mem_cons.1 hy with rfl | hy
        · exact hbefore x hx
        · exact hcross x hx y hy
      refine (ih (c := c.take k ++ [pivot] ++ c.drop k) (by simp) (by simp; omega) hsorted ?_
        (List.pairwise_cons.1 hu).2).mono ?_
      · intro x hx y hy
        rcases List.mem_append.1 (hperm.mem_iff.1 hx) with hx | hx
        · exact hlater x hx y (List.mem_cons_of_mem _ hy)
        · rw [List.mem_singleton.1 hx]
          exact (List.pairwise_cons.1 hu).1 y hy
      · rintro w' ⟨c', hperm', hc', rfl⟩
        refine ⟨c', hperm'.trans ?_, hc', rfl⟩
        simpa using hperm.append_right u

theorem yields_binaryInsertionSort {low start high : ℕ} (hw : w = p ++ c ++ u ++ q)
    (hlow : low = p.length) (hstart : start = low + c.length) (hhigh : high = start + u.length)
    (hne : c ≠ []) (hc : c.Pairwise R.before) (hlater : ∀ x ∈ c, ∀ y ∈ u, R.later y x)
    (hu : Pending R u) :
    Yields R (binaryInsertionSort w low start high) fun w' => ∃ c', c'.Perm (c ++ u) ∧
      c'.Pairwise R.before ∧ w' = p ++ c' ++ q := by
  have hpos := List.length_pos_of_ne_nil hne
  unfold binaryInsertionSort
  simp only [show ¬ low = start by omega, ↓reduceIte, show high - start = u.length by omega]
  exact yields_insertAll hw hlow (by omega) hc hlater hu

/-! ## The stack -/

/-- Where the runs start, and how long they are. -/
def spans (start : ℕ) : List (List α) → List Run
  | [] => []
  | g :: segs => (start, g.length) :: spans (start + g.length) segs

theorem spans_append (start : ℕ) (segs segs' : List (List α)) :
    spans start (segs ++ segs') =
      spans start segs ++ spans (start + segs.flatten.length) segs' := by
  induction segs generalizing start with
  | nil => simp [spans]
  | cons g segs ih => simp [spans, ih, Nat.add_assoc]

@[simp] theorem length_spans (start : ℕ) (segs : List (List α)) :
    (spans start segs).length = segs.length := by
  induction segs generalizing start with
  | nil => rfl
  | cons g segs ih => simp [spans, ih]

/-- Every element of the one list may be asked to come before one of the other. -/
def Apart (R : Rule α) (g g' : List α) : Prop := ∀ x ∈ g, ∀ y ∈ g', R.later y x

theorem Apart.perm {g g' h h' : List α} (ha : Apart R g h) (hg : g'.Perm g) (hh : h'.Perm h) :
    Apart R g' h' :=
  fun x hx y hy => ha x (hg.mem_iff.1 hx) y (hh.mem_iff.1 hy)

/-- The array consists of the runs `segs` of the stack, which are sorted, and of `u`, which is
pending. -/
structure Stacked (R : Rule α) (whole : List α) (s : Stack α) (segs : List (List α))
    (u : List α) : Prop where
  w : s.w = segs.flatten ++ u
  runs : s.runs = spans 0 segs
  perm : (segs.flatten ++ u).Perm whole
  sorted : ∀ g ∈ segs, g ≠ [] ∧ g.Pairwise R.before
  apart : (segs ++ [u]).Pairwise (Apart R)
  pending : Pending R u

theorem length_joinRuns (runs : List Run) (i : ℕ) (joined : Run) :
    (joinRuns runs i joined).length = runs.length - 1 := by
  unfold joinRuns
  split
  · split <;> simp
  · simp

/-- The stack after two neighbours, behind which there is at most one run, have become one. -/
theorem joinRuns_append (front : List Run) (r r' joined : Run) {rest : List Run}
    (hrest : rest.length ≤ 1) :
    joinRuns (front ++ r :: r' :: rest) front.length joined = front ++ joined :: rest := by
  have hset : (front ++ r :: r' :: rest).set front.length joined =
      front ++ joined :: r' :: rest := by simp
  unfold joinRuns
  rw [hset]
  rcases rest with _ | ⟨k, rest⟩
  · rw [List.getElem?_eq_none (by simp)]
    simp [List.dropLast_append_of_ne_nil]
  · obtain rfl : rest = [] := List.length_eq_zero_iff.1 (by simpa using hrest)
    have hget : (front ++ [r, r', k])[front.length + 2]? = some k := by
      rw [List.getElem?_append_right (by omega), Nat.add_sub_cancel_left]
      rfl
    have hset' : (front ++ [joined, r', k]).set (front.length + 1) k =
        front ++ [joined, k, k] := by
      rw [List.set_append_right _ _ (by omega), Nat.add_sub_cancel_left]
      rfl
    simp only [hget, hset', List.length_append, List.length_cons, List.length_nil, ↓reduceIte]
    rw [List.dropLast_append_of_ne_nil (by simp)]
    rfl

/-- What is merged between a front of the one run and a rest of the other one. -/
theorem sorted_between {A₁ A₂ B₁ B₂ m : List α} (hA : (A₁ ++ A₂).Pairwise R.before)
    (hB : (B₁ ++ B₂).Pairwise R.before) (hperm : m.Perm (A₂ ++ B₁)) (hm : m.Pairwise R.before)
    (h₁ : ∀ x ∈ A₁, ∀ y ∈ B₁ ++ B₂, R.before x y) (h₂ : ∀ x ∈ A₂, ∀ y ∈ B₂, R.before x y) :
    (A₁ ++ m ++ B₂).Perm (A₁ ++ A₂ ++ (B₁ ++ B₂)) ∧ (A₁ ++ m ++ B₂).Pairwise R.before := by
  constructor
  · have h := (hperm.append_left A₁).append_right B₂
    simpa only [List.append_assoc] using h
  · obtain ⟨hA₁, -, hA⟩ := List.pairwise_append.1 hA
    obtain ⟨-, hB₂, hB⟩ := List.pairwise_append.1 hB
    refine List.pairwise_append.2 ⟨List.pairwise_append.2 ⟨hA₁, hm, fun x hx y hy => ?_⟩, hB₂,
      fun x hx y hy => ?_⟩
    · rcases List.mem_append.1 (hperm.mem_iff.1 hy) with hy | hy
      · exact hA x hx y hy
      · exact h₁ x hx y (List.mem_append_left B₂ hy)
    · rcases List.mem_append.1 hx with hx | hx
      · exact h₁ x hx y (List.mem_append_right B₁ hy)
      · rcases List.mem_append.1 (hperm.mem_iff.1 hx) with hx | hx
        · exact h₂ x hx y hy
        · exact hB x hx y hy

/-- **Two neighbours in the array become one sorted run.** -/
theorem yields_mergeAt_array {s : Stack α} {i : ℕ} {A B : List α}
    (hi : s.runs[i]? = some (p.length, A.length))
    (hi' : s.runs[i + 1]? = some (p.length + A.length, B.length))
    (hw : s.w = p ++ A ++ B ++ q) (hneA : A ≠ []) (hneB : B ≠ [])
    (hA : A.Pairwise R.before) (hB : B.Pairwise R.before) (hlater : Apart R A B) :
    Yields R (mergeAt s i) fun s' => ∃ M, M.Perm (A ++ B) ∧ M.Pairwise R.before ∧
      s'.w = p ++ M ++ q ∧
      s'.runs = joinRuns s.runs i (p.length, A.length + B.length) := by
  obtain ⟨y, B, rfl⟩ := List.exists_cons_of_ne_nil hneB
  have hposA := List.length_pos_of_ne_nil hneA
  unfold mergeAt
  simp only [hi, hi']
  refine Yields.then_ (yields_get_at (p := p ++ A) (a := y) (q := B ++ q) (by simp [hw])
    (by simp)) ?_
  refine (yields_gallopRight (p := p) (l := A) (q := y :: B ++ q) (by simp [hw]) rfl rfl
    hposA hA fun x hx => hlater x hx y List.mem_cons_self).bind ?_
  rintro k ⟨hk, hbefore, hafter⟩
  have hfront : ∀ x ∈ A.take k, ∀ z ∈ y :: B, R.before x z := by
    intro x hx z hz
    rcases List.mem_cons.1 hz with rfl | hz
    · exact hbefore x hx
    · exact R.trans (hbefore x hx) ((List.pairwise_cons.1 hB).1 z hz)
  split
  · refine .pure ⟨A ++ y :: B, .refl _, List.pairwise_append.2 ⟨hA, hB, ?_⟩, by simp [hw], rfl⟩
    rwa [List.take_of_length_le (by omega)] at hfront
  · rename_i hleft
    obtain ⟨A₂, x, hx⟩ : ∃ A₂ x, A.drop k = A₂ ++ [x] :=
      ⟨_, _, (List.dropLast_concat_getLast (List.ne_nil_of_length_pos
        (l := A.drop k) (by simp; omega))).symm⟩
    have hk' : (A.take k).length = k := by simp; omega
    have hsplit : A = A.take k ++ (A₂ ++ [x]) := by rw [← hx, List.take_append_drop]
    rw [hx] at hafter
    generalize A.take k = A₁ at hsplit hk' hfront
    subst hsplit hk'
    have hlen : (A₁ ++ (A₂ ++ [x])).length - A₁.length = (A₂ ++ [x]).length := by simp
    have hcross : ∀ a ∈ A₁ ++ (A₂ ++ [x]), R.before a x ∨ a = x := fun a ha => by
      rw [← List.append_assoc] at ha hA
      rcases List.mem_append.1 ha with ha | ha
      · exact .inl ((List.pairwise_append.1 hA).2.2 a ha x (List.mem_singleton.2 rfl))
      · exact .inr (List.mem_singleton.1 ha)
    simp only [hlen]
    refine Yields.then_ (yields_get_at (p := p ++ A₁ ++ A₂) (a := x) (q := y :: B ++ q)
      (by simp [hw]) (by simp only [List.length_append, List.length_singleton]; omega)) ?_
    refine Yields.then_ (yields_toUsize (n := B.length) (by simp)) ?_
    refine (yields_gallopLeft (p := p ++ (A₁ ++ (A₂ ++ [x]))) (l := y :: B) (q := q)
      (by simp [hw]) (by simp) rfl (by simp) hB
      fun z hz => hlater x (by simp) z hz).bind ?_
    rintro j ⟨hj, hbefore', hafter'⟩
    have hback : ∀ a ∈ A₁ ++ (A₂ ++ [x]), ∀ z ∈ (y :: B).drop j, R.before a z := by
      intro a ha z hz
      rcases hcross a ha with h | rfl
      · exact R.trans h (hafter' z hz)
      · exact hafter' z hz
    split
    · rename_i h0
      refine .pure ⟨_, .refl _, List.pairwise_append.2 ⟨hA, hB, ?_⟩, by simp [hw], rfl⟩
      simpa [h0] using hback
    · rename_i h0
      obtain ⟨j, rfl⟩ := Nat.exists_eq_succ_of_ne_zero h0
      rw [List.take_succ_cons] at hbefore'
      rw [List.drop_succ_cons] at hafter' hback
      have hj' : (y :: B.take j).length = j + 1 := by
        simp only [List.length_cons] at hj ⊢
        simp
        omega
      have hBsplit : y :: B = y :: B.take j ++ B.drop j := by simp
      generalize B.take j = B₁ at hbefore' hj' hBsplit
      generalize B.drop j = B₂ at hafter' hback hBsplit
      rw [hBsplit] at hw hB hlater hfront
      have hA₂ := (List.pairwise_append.1 hA).2.1
      have hB₁ := (List.pairwise_append.1 hB).1
      have hlater' : ∀ a ∈ A₂ ++ [x], ∀ z ∈ y :: B₁, R.later z a := fun a ha z hz =>
        hlater a (List.mem_append_right _ ha) z (List.mem_append_left _ hz)
      have hend : ∀ res : List α × ℕ, (∃ m, m.Perm (A₂ ++ [x] ++ y :: B₁) ∧
          m.Pairwise R.before ∧ res.1 = p ++ A₁ ++ m ++ (B₂ ++ q)) →
          ∃ M, M.Perm (A₁ ++ (A₂ ++ [x]) ++ y :: B) ∧ M.Pairwise R.before ∧
            res.1 = p ++ M ++ q := by
        rintro res ⟨m, hm, hmsorted, hw'⟩
        obtain ⟨hperm, hsorted'⟩ := sorted_between hA hB hm hmsorted hfront
          fun a ha => hback a (List.mem_append_right A₁ ha)
        exact ⟨_, hBsplit ▸ hperm, hsorted', by simp [hw']⟩
      have hmid : s.w = (p ++ A₁) ++ (A₂ ++ [x]) ++ (y :: B₁) ++ (B₂ ++ q) := by simp [hw]
      have hbaseA : p.length + A₁.length = (p ++ A₁).length := by simp
      have hbaseB : p.length + (A₁ ++ (A₂ ++ [x])).length =
          (p ++ A₁).length + (A₂ ++ [x]).length := by
        simp only [List.length_append]
        omega
      split
      · refine (yields_mergeLow hmid hbaseA rfl hbaseB hj'.symm hA₂ hB₁
          (by simp) hlater' ⟨y, rfl, hafter⟩ ⟨x, by simp, hbefore'⟩).bind fun res hres => ?_
        obtain ⟨M, hM, hMsorted, hw'⟩ := hend res hres
        exact .pure ⟨M, hM, hMsorted, hw', rfl⟩
      · refine (yields_mergeHigh hmid hbaseA rfl hbaseB hj'.symm hA₂ hB₁
          (by simp) hlater' ⟨y, rfl, hafter⟩ ⟨x, by simp, hbefore'⟩).bind fun res hres => ?_
        obtain ⟨M, hM, hMsorted, hw'⟩ := hend res hres
        exact .pure ⟨M, hM, hMsorted, hw', rfl⟩

/-- **Two neighbours become one run.** -/
theorem yields_mergeAt {whole : List α} {s : Stack α} {segs segs' : List (List α)}
    {A B : List α} (h : Stacked R whole s (segs ++ A :: B :: segs') u) (hlen : segs'.length ≤ 1) :
    Yields R (mergeAt s segs.length) fun s' =>
      ∃ M, Stacked R whole s' (segs ++ M :: segs') u := by
  obtain ⟨hw, hruns, hperm, hsorted, hapart, hpending⟩ := h
  have hA := hsorted A (by simp)
  have hB := hsorted B (by simp)
  obtain ⟨hfront, hback, hcross⟩ := List.pairwise_append.1
    (List.append_assoc segs (A :: B :: segs') [u] ▸ hapart)
  obtain ⟨hAall, hback⟩ := List.pairwise_cons.1 hback
  obtain ⟨hBall, hback⟩ := List.pairwise_cons.1 hback
  have hspans : s.runs = spans 0 segs ++ (segs.flatten.length, A.length) ::
      (segs.flatten.length + A.length, B.length) ::
        spans (segs.flatten.length + A.length + B.length) segs' := by
    rw [hruns, spans_append, Nat.zero_add]
    rfl
  have hn : (spans 0 segs).length = segs.length := length_spans 0 segs
  refine (yields_mergeAt_array (p := segs.flatten) (A := A) (B := B)
    (q := segs'.flatten ++ u) ?_ ?_ (by simp [hw]) hA.1 hB.1 hA.2 hB.2
    (hAall B List.mem_cons_self)).mono ?_
  · rw [hspans, ← hn]
    simp
  · rw [hspans, ← hn, List.getElem?_append_right (by omega), Nat.add_sub_cancel_left]
    rfl
  · rintro s' ⟨M, hM, hMsorted, hw', hruns'⟩
    have hlenM : M.length = A.length + B.length := by simpa using hM.length_eq
    refine ⟨M, by simp [hw'], ?_, ?_, ?_, ?_, hpending⟩
    · rw [hruns', hspans, ← hn, joinRuns_append _ _ _ _ (by simpa using hlen), spans_append,
        spans, hlenM, Nat.zero_add, Nat.add_assoc]
    · refine List.Perm.trans ?_ hperm
      have h := (hM.append_left segs.flatten).append_right (segs'.flatten ++ u)
      simpa using h
    · intro g hg
      rcases List.mem_append.1 hg with hg | hg
      · exact hsorted g (List.mem_append_left _ hg)
      · rcases List.mem_cons.1 hg with rfl | hg
        · refine ⟨List.ne_nil_of_length_pos ?_, hMsorted⟩
          have := List.length_pos_of_ne_nil hA.1
          omega
        · exact hsorted g (by simp [hg])
    · have hMback : ∀ k ∈ segs' ++ [u], Apart R M k := fun k hk x hx => by
        rcases List.mem_append.1 (hM.mem_iff.1 hx) with hx | hx
        · exact hAall k (List.mem_cons_of_mem _ hk) x hx
        · exact hBall k hk x hx
      rw [List.append_assoc]
      refine List.pairwise_append.2 ⟨hfront, List.pairwise_cons.2 ⟨hMback, hback⟩, ?_⟩
      intro g hg k hk
      rcases List.mem_cons.1 hk with rfl | hk
      · intro x hx y hy
        rcases List.mem_append.1 (hM.mem_iff.1 hy) with hy | hy
        · exact hcross g hg A (by simp) x hx y hy
        · exact hcross g hg B (by simp) x hx y hy
      · exact hcross g hg k (List.mem_cons_of_mem _ (List.mem_cons_of_mem _ hk))

/-! ## The loops over the stack -/

theorem yields_runInvariant {runs : List Run} {n : ℕ} (hn : n < runs.length) :
    Yields R (runInvariant runs n : Sorting α Bool) fun b => b = true ∨ 2 ≤ n := by
  unfold runInvariant
  split
  · exact .pure (.inl rfl)
  · rw [List.getElem?_eq_getElem (show n - 2 < runs.length by omega),
      List.getElem?_eq_getElem (show n - 1 < runs.length by omega), List.getElem?_eq_getElem hn]
    exact .pure (.inr (by omega))

theorem yields_shorter {runs : List Run} {n : ℕ} (h0 : n ≠ 0) (hn : n + 1 < runs.length) :
    Yields R (shorter runs n : Sorting α ℕ) fun n' => n - 1 ≤ n' ∧ n' ≤ n := by
  unfold shorter
  rw [if_neg h0, List.getElem?_eq_getElem (show n - 1 < runs.length by omega),
    List.getElem?_eq_getElem hn]
  refine .pure ?_
  split <;> omega

/-- The sort merges among the last three runs. -/
theorem yields_mergePlace {runs : List Run} (h : 1 < runs.length) :
    Yields R (mergePlace runs : Sorting α (Option ℕ)) fun o => ∀ n, o = some n →
      n + 1 < runs.length ∧ runs.length ≤ n + 3 := by
  have hshorter : 1 ≤ runs.length - 2 → Yields R (do
      return some (← shorter runs (runs.length - 2)) : Sorting α (Option ℕ)) fun o =>
        ∀ n, o = some n → n + 1 < runs.length ∧ runs.length ≤ n + 3 := by
    intro hn
    refine (yields_shorter (by omega) (by omega)).bind fun n hn' => .pure ?_
    intro k hk
    obtain rfl := Option.some_inj.1 hk
    omega
  unfold mergePlace
  refine (yields_runInvariant (by omega)).bind fun b hb => ?_
  cases b
  · exact hshorter (by simpa using hb)
  · refine (yields_runInvariant (by omega)).bind fun b hb => ?_
    cases b
    · refine hshorter ?_
      have : 2 ≤ runs.length - 2 := by simpa using hb
      omega
    · simp only [Bool.not_true, Bool.false_eq_true, ↓reduceIte]
      rw [List.getElem?_eq_getElem (show runs.length - 2 < runs.length by omega),
        List.getElem?_eq_getElem (show runs.length - 2 + 1 < runs.length by omega)]
      refine .pure fun n hn => ?_
      split at hn
      · obtain rfl := Option.some_inj.1 hn
        omega
      · cases hn

theorem yields_lastPlace {runs : List Run} (h : 1 < runs.length) :
    Yields R (lastPlace runs : Sorting α ℕ) fun n => n + 1 < runs.length ∧ runs.length ≤ n + 3 := by
  unfold lastPlace
  simp only
  split
  · exact (yields_shorter (by omega) (by omega)).mono fun n hn => by omega
  · exact .pure (by omega)

/-- **Merging two of the last three runs.** -/
theorem yields_mergeAt_place {whole : List α} {s : Stack α} {segs : List (List α)} {n : ℕ}
    (h : Stacked R whole s segs u) (hn : n + 1 < segs.length) (hn' : segs.length ≤ n + 3) :
    Yields R (mergeAt s n) fun s' => ∃ segs', Stacked R whole s' segs' u ∧
      segs'.length + 1 = segs.length := by
  have hsplit : segs = segs.take n ++ segs[n] :: segs[n + 1] :: segs.drop (n + 2) := by
    rw [← List.drop_eq_getElem_cons, ← List.drop_eq_getElem_cons, List.take_append_drop]
  have hlen : (segs.take n).length = n := by simp; omega
  rw [hsplit] at h
  have hmerge := yields_mergeAt h (by simp; omega)
  rw [hlen] at hmerge
  refine hmerge.mono ?_
  rintro s' ⟨M, hM⟩
  refine ⟨_, hM, ?_⟩
  simp
  omega

theorem yields_collapse {whole : List α} {s : Stack α} {segs : List (List α)} {fuel : ℕ}
    (h : Stacked R whole s segs u) (hfuel : segs.length ≤ fuel) (h0 : segs ≠ []) :
    Yields R (collapse fuel s) fun s' => ∃ segs', Stacked R whole s' segs' u := by
  have hpos := List.length_pos_of_ne_nil h0
  induction fuel generalizing s segs with
  | zero => omega
  | succ fuel ih =>
      have hruns : s.runs.length = segs.length := by rw [h.runs, length_spans]
      unfold collapse
      split
      · rename_i hlen
        refine (yields_mergePlace hlen).bind fun o ho => ?_
        cases o with
        | none => exact .pure ⟨segs, h⟩
        | some n =>
            obtain ⟨hn, hn'⟩ := ho n rfl
            refine (yields_mergeAt_place h (by omega) (by omega)).bind ?_
            rintro s' ⟨segs', h', hlen'⟩
            exact ih h' (by omega) (List.ne_nil_of_length_pos (by omega)) (by omega)
      · exact .pure ⟨segs, h⟩

theorem yields_collapseAll {whole : List α} {s : Stack α} {segs : List (List α)} {fuel : ℕ}
    (h : Stacked R whole s segs u) (hfuel : segs.length < fuel) :
    Yields R (collapseAll fuel s) fun s' =>
      ∃ segs', Stacked R whole s' segs' u ∧ segs'.length ≤ 1 := by
  induction fuel generalizing s segs with
  | zero => omega
  | succ fuel ih =>
      have hruns : s.runs.length = segs.length := by rw [h.runs, length_spans]
      unfold collapseAll
      split
      · refine (yields_lastPlace (by omega)).bind fun n hn => ?_
        refine (yields_mergeAt_place h (by omega) (by omega)).bind ?_
        rintro s' ⟨segs', h', hlen'⟩
        exact ih h' (by omega)
      · exact .pure ⟨segs, h, by omega⟩

/-- A run is pushed. -/
theorem Stacked.push {whole : List α} {s : Stack α} {segs : List (List α)} {c x u' : List α}
    (h : Stacked R whole s segs (x ++ u')) (hperm : c.Perm x) (hne : c ≠ [])
    (hc : c.Pairwise R.before) :
    Stacked R whole ⟨segs.flatten ++ c ++ u', s.runs ++ [(segs.flatten.length, c.length)],
      s.minGallop⟩ (segs ++ [c]) u' := by
  obtain ⟨hw, hruns, hwhole, hsorted, hapart, hpending⟩ := h
  obtain ⟨-, hu', hcross⟩ := List.pairwise_append.1 hpending
  obtain ⟨hsegs, -, hback⟩ := List.pairwise_append.1 hapart
  refine ⟨by simp, ?_, ?_, ?_, ?_, hu'⟩
  · rw [hruns, spans_append, Nat.zero_add]
    rfl
  · refine List.Perm.trans ?_ hwhole
    have h := (hperm.append_left segs.flatten).append_right u'
    simpa using h
  · intro g hg
    rcases List.mem_append.1 hg with hg | hg
    · exact hsorted g hg
    · rw [List.mem_singleton.1 hg]
      exact ⟨hne, hc⟩
  · rw [List.append_assoc]
    refine List.pairwise_append.2 ⟨hsegs, ?_, ?_⟩
    · refine List.pairwise_cons.2 ⟨fun k hk => ?_, List.pairwise_singleton _ _⟩
      rw [List.mem_singleton.1 hk]
      exact fun y hy z hz => hcross y (hperm.mem_iff.1 hy) z hz
    · intro g hg k hk y hy z hz
      have hlater := hback g hg (x ++ u') (List.mem_singleton.2 rfl) y hy
      rcases List.mem_cons.1 hk with rfl | hk
      · exact hlater z (List.mem_append_left _ (hperm.mem_iff.1 hz))
      · rw [List.mem_singleton.1 hk] at hz
        exact hlater z (List.mem_append_right _ hz)

/-- The run that is pushed: what was found, and what has been inserted. -/
theorem yields_lengthen {whole : List α} {s : Stack α} {segs : List (List α)} {x c u' : List α}
    {minRun low remaining : ℕ} (h : Stacked R whole s segs (x ++ u')) (hperm : c.Perm x)
    (hne : c ≠ []) (hc : c.Pairwise R.before) (hw : w = segs.flatten ++ c ++ u')
    (hlow : low = segs.flatten.length) (hrem : remaining = (x ++ u').length) :
    Yields R (lengthen minRun w low c.length remaining) fun res => ∃ x' c' u'',
      x ++ u' = x' ++ u'' ∧ c'.Perm x' ∧ c' ≠ [] ∧ c'.Pairwise R.before ∧
      res.1 = c'.length ∧ res.2 = segs.flatten ++ c' ++ u'' := by
  unfold lengthen
  split
  · rename_i hmin
    simp only [List.length_append, ← hperm.length_eq] at hrem
    obtain ⟨-, hu', hcross⟩ := List.pairwise_append.1 h.pending
    have hlen : (u'.take (min minRun remaining - c.length)).length =
        min minRun remaining - c.length := by
      simp
      omega
    refine (yields_binaryInsertionSort (p := segs.flatten) (c := c)
      (u := u'.take (min minRun remaining - c.length))
      (q := u'.drop (min minRun remaining - c.length)) (by simp [hw]) hlow rfl (by omega) hne hc
      (fun y hy z hz => hcross y (hperm.mem_iff.1 hy) z (List.mem_of_mem_take hz))
      (hu'.sublist (List.take_sublist _ _))).bind ?_
    rintro w' ⟨c', hperm', hc', rfl⟩
    have hlen' := hperm'.length_eq
    rw [List.length_append, hlen] at hlen'
    refine .pure ⟨x ++ u'.take (min minRun remaining - c.length), c',
      u'.drop (min minRun remaining - c.length), by simp, hperm'.trans (hperm.append_right _),
      List.ne_nil_of_length_pos (by have := List.length_pos_of_ne_nil hne; omega), hc', ?_, rfl⟩
    simp only
    omega
  · exact .pure ⟨x, c, u', rfl, hperm, hne, hc, rfl, hw⟩

theorem yields_passes {whole : List α} {s : Stack α} {segs : List (List α)}
    {minRun fuel low remaining : ℕ} (h : Stacked R whole s segs u)
    (hlow : low = segs.flatten.length) (hrem : remaining = u.length) (hfuel : u.length < fuel) :
    Yields R (passes minRun fuel s low remaining) fun s' =>
      ∃ segs', Stacked R whole s' segs' [] := by
  induction fuel generalizing s segs u low remaining with
  | zero => omega
  | succ fuel ih =>
      unfold passes
      split
      · rename_i hne
        have hu : u ≠ [] := List.ne_nil_of_length_pos (by omega)
        refine (yields_countAndMakeRun (p := segs.flatten) (q := []) (by simp [h.w]) hlow
          (by omega) hu h.pending).bind ?_
        rintro ⟨cur, w'⟩ ⟨x, c, u', rfl, hperm, hcne, hc, rfl, hw'⟩
        refine (yields_lengthen h hperm hcne hc (by simpa using hw') hlow hrem).bind ?_
        rintro ⟨cur', w''⟩ ⟨x', c', u'', hx, hperm', hcne', hc', rfl, rfl⟩
        rw [hx] at h hfuel hrem
        simp only [List.length_append, ← hperm'.length_eq] at hfuel hrem
        have hposc := List.length_pos_of_ne_nil hcne'
        have hpush := hlow ▸ h.push hperm' hcne' hc'
        refine (yields_collapse hpush (by simp [h.runs]) (by simp)).bind ?_
        rintro s' ⟨segs', h'⟩
        rw [if_neg (by omega)]
        have hwhole := hpush.perm.length_eq.trans h'.perm.length_eq.symm
        simp only [List.flatten_append, List.flatten_singleton, List.length_append] at hwhole
        exact ih h' (by omega) (by omega) (by omega)
      · obtain rfl : u = [] := List.length_eq_zero_iff.1 (by omega)
        exact .pure ⟨segs, h⟩

/-- **The sort sorts.** -/
theorem yields_timsort (hw : Pending R w) :
    Yields R (timsort w) fun w' => w'.Perm w ∧ w'.Pairwise R.before := by
  unfold timsort
  split
  · rename_i hlen
    refine .pure ⟨.refl w, ?_⟩
    rcases w with _ | ⟨a, _ | ⟨b, w⟩⟩
    · exact .nil
    · exact List.pairwise_singleton _ _
    · simp only [List.length_cons] at hlen
      omega
  · have hstart : Stacked R w ⟨w, [], SORT_MIN_GALLOP⟩ [] w :=
      ⟨rfl, rfl, .refl w, fun _ h => absurd h List.not_mem_nil, by simp, hw⟩
    refine (yields_passes hstart rfl rfl (Nat.lt_succ_self _)).bind ?_
    rintro s ⟨segs, hs⟩
    refine (yields_collapseAll hs (by simp [hs.runs])).bind ?_
    rintro s' ⟨segs', hs', hlen⟩
    refine .pure ?_
    rcases segs' with _ | ⟨g, _ | ⟨g', segs'⟩⟩
    · rw [hs'.w]
      exact ⟨hs'.perm, .nil⟩
    · rw [hs'.w]
      refine ⟨hs'.perm, ?_⟩
      simpa using (hs'.sorted g (by simp)).2
    · simp at hlen

end Timsort
end Lunar
