/-
# What the sort may ask

A program of the sort keeps a rule (`Rule`): it compares `x` with `y` only where `x` is the later
one, and an answer says which of the two may come before the other.  `Yields R p P`: kept to the
rule, `p` does not fail and ends with `P`.

A gallop is given by a test that says of a place of a sorted run whether the key belongs behind it
(`Tests`); it finds the place of the key (`yields_gallop`).
-/

import Mathlib.Data.List.Induction
import Lunar.Lib.Contract
import Lunar.Payload.Timsort

namespace Lunar
namespace Timsort

open Lib (Prog Contract)

/-- What may be compared, and what the answers tell. -/
structure Rule (α : Type) where
  before : α → α → Prop
  later : α → α → Prop
  trans : ∀ {x y z}, before x y → before y z → before x z

variable {α β γ : Type} {R : Rule α} {w : List α}

def Rule.contract (R : Rule α) : Contract Empty Unit (fun _ : α × α => Bool) Unit where
  holds _ _ := True
  place _ := False
  asks _ q := R.later q.1 q.2
  answers _ q b _ := if b then R.before q.1 q.2 else R.before q.2 q.1

/-- Kept to the rule, the program ends with `P`. -/
def Yields (R : Rule α) (p : Sorting α β) (P : β → Prop) : Prop :=
  p.Meets R.contract (fun _ => P) ()

namespace Yields

variable {P P' : β → Prop} {Q : γ → Prop} {p : Sorting α β} {f : β → Sorting α γ}

theorem pure {b : β} (h : P b) : Yields R (pure b) P := h

theorem mono (h : Yields R p P) (hP : ∀ b, P b → P' b) : Yields R p P' :=
  Prog.Meets.mono h fun _ => hP

theorem bind (h : Yields R p P) (hf : ∀ b, P b → Yields R (f b) Q) : Yields R (p >>= f) Q :=
  Prog.Meets.bind h fun _ => hf

/-- A part of the program whose result is known. -/
theorem then_ {b : β} (h : Yields R p (· = b)) (hf : Yields R (f b) Q) : Yields R (p >>= f) Q :=
  h.bind fun _ hb => hb ▸ hf

end Yields

theorem yields_less {x y : α} (h : R.later x y) :
    Yields R (less x y) fun b => if b then R.before x y else R.before y x :=
  ⟨h, fun _ _ hb => hb⟩

theorem yields_toUsize {i : ℤ} {n : ℕ} (h : i = n) :
    Yields R (toUsize i : Sorting α ℕ) (· = n) := by
  subst h
  unfold toUsize
  simp only [Int.natCast_nonneg, ↓reduceIte, Int.toNat_natCast]
  exact .pure rfl

/-! ## Arrays -/

theorem yields_get {i : ℕ} {a : α} (h : w[i]? = some a) : Yields R (get w i) (· = a) := by
  unfold get
  rw [h]
  exact .pure rfl

theorem yields_get_at {p q : List α} {i : ℕ} {a : α} (hw : w = p ++ a :: q) (hi : i = p.length) :
    Yields R (get w i) (· = a) := by
  subst hw hi
  exact yields_get (by simp)

theorem yields_slice {p l q : List α} {i n : ℕ} (hw : w = p ++ l ++ q) (hi : i = p.length)
    (hn : n = l.length) : Yields R (slice w i n) (· = l) := by
  subst hw hi hn
  unfold slice
  rw [if_pos (by simp only [List.length_append]; omega)]
  exact .pure (by simp)

theorem yields_paste {p o l q : List α} {i : ℕ} (hw : w = p ++ o ++ q) (hi : i = p.length)
    (hlen : o.length = l.length) : Yields R (paste w i l) (· = p ++ l ++ q) := by
  subst hw hi
  unfold paste
  rw [if_pos (by simp only [List.length_append]; omega), ← hlen]
  refine .pure ?_
  simp only [List.append_assoc, List.take_left, ← List.length_append]
  rw [← List.append_assoc p o q, List.drop_left]

theorem yields_put {p q : List α} {i : ℕ} {o a : α} (hw : w = p ++ o :: q)
    (hi : i = p.length) : Yields R (put w i a) (· = p ++ a :: q) := by
  have h := yields_paste (R := R) (o := [o]) (l := [a]) (by simpa using hw) hi rfl
  simpa [put] using h

/-- **`move_within` from the first element on**: the g before the elements is behind them. -/
theorem yields_moveDown {p g l q : List α} {src dst n : ℕ} (hw : w = p ++ g ++ l ++ q)
    (hd : dst = p.length) (hs : src = dst + g.length) (hn : n = l.length) :
    Yields R (moveDown w src dst n) fun w' =>
      ∃ g', g'.length = g.length ∧ w' = p ++ l ++ g' ++ q := by
  induction l generalizing w p g src dst n with
  | nil =>
      subst hn
      unfold moveDown
      exact .pure ⟨g, rfl, by simpa using hw⟩
  | cons x l ih =>
      subst hn hs hd
      obtain ⟨y, rest, hg⟩ : ∃ y rest, g ++ [x] = y :: rest :=
        List.exists_cons_of_ne_nil (by simp)
      have hlen : rest.length = g.length := by
        simpa using (congrArg List.length hg).symm
      have hw' : w = p ++ y :: (rest ++ l ++ q) := by
        rw [hw, show p ++ g ++ x :: l ++ q = p ++ (g ++ [x]) ++ l ++ q by simp, hg]
        simp
      rw [List.length_cons, moveDown]
      refine Yields.then_ (yields_get_at (p := p ++ g) (q := l ++ q) (by simpa using hw)
        (by simp)) ?_
      refine Yields.then_ (yields_put hw' rfl) ?_
      refine (ih (p := p ++ [x]) (g := rest) (by simp) (by simp) (by omega) rfl).mono ?_
      rintro w' ⟨g', hgap, rfl⟩
      exact ⟨g', by omega, by simp⟩

/-- **`move_within` from the last element on**: the g behind the elements is before them. -/
theorem yields_moveUp {p g l q : List α} {src dst n : ℕ} (hw : w = p ++ l ++ g ++ q)
    (hs : src = p.length) (hd : dst = src + g.length) (hn : n = l.length) :
    Yields R (moveUp w src dst n) fun w' =>
      ∃ g', g'.length = g.length ∧ w' = p ++ g' ++ l ++ q := by
  induction l using List.reverseRecOn generalizing w g q dst n with
  | nil =>
      subst hn
      unfold moveUp
      exact .pure ⟨g, rfl, by simpa using hw⟩
  | append_singleton l x ih =>
      subst hn hd hs
      obtain ⟨rest, y, hg⟩ : ∃ rest y, [x] ++ g = rest ++ [y] :=
        ⟨([x] ++ g).dropLast, ([x] ++ g).getLast (by simp),
          (List.dropLast_concat_getLast (by simp)).symm⟩
      have hlen : rest.length = g.length := by
        have h := congrArg List.length hg
        simp only [List.length_append, List.length_singleton] at h
        omega
      have hw' : w = p ++ l ++ rest ++ y :: q := by
        rw [hw, show p ++ (l ++ [x]) ++ g ++ q = p ++ l ++ ([x] ++ g) ++ q by simp, hg]
        simp
      rw [List.length_append, List.length_singleton, moveUp]
      refine Yields.then_ (yields_get_at (p := p ++ l) (q := g ++ q) (by simpa using hw)
        (by simp)) ?_
      refine Yields.then_ (yields_put hw' (by simp only [List.length_append]; omega)) ?_
      refine (ih (g := rest) (q := x :: q) rfl (by omega) rfl).mono ?_
      rintro w' ⟨g', hgap, rfl⟩
      exact ⟨g', by omega, by simp⟩

/-- `move_within` to the left. -/
theorem yields_moveWithin_left {p g l q : List α} {src dst n : ℕ}
    (hw : w = p ++ g ++ l ++ q) (hd : dst = p.length) (hs : src = dst + g.length)
    (hn : n = l.length) :
    Yields R (moveWithin w src dst n) fun w' =>
      ∃ g', g'.length = g.length ∧ w' = p ++ l ++ g' ++ q := by
  unfold moveWithin
  rw [if_neg (by omega)]
  exact yields_moveDown hw hd hs hn

/-- `move_within` to the right. -/
theorem yields_moveWithin_right {p g l q : List α} {src dst n : ℕ}
    (hw : w = p ++ l ++ g ++ q) (hs : src = p.length) (hd : dst = src + g.length)
    (hn : n = l.length) :
    Yields R (moveWithin w src dst n) fun w' =>
      ∃ g', g'.length = g.length ∧ w' = p ++ g' ++ l ++ q := by
  unfold moveWithin
  split
  · exact yields_moveUp hw hs hd hn
  · obtain rfl : g = [] := List.length_eq_zero_iff.1 (by omega)
    simp only [List.length_nil] at hd
    refine (yields_moveDown (g := []) (by simpa using hw) (by omega) hd.symm hn).mono ?_
    rintro w' ⟨g', hgap, rfl⟩
    obtain rfl : g' = [] := List.length_eq_zero_iff.1 hgap
    exact ⟨[], rfl, by simp⟩

/-! ## Galloping -/

/-- The first `i` places come before the key. -/
def Below (R : Rule α) (l : List α) (key : α) (i : ℤ) : Prop :=
  ∀ (j : ℕ) (x : α), (j : ℤ) < i → l[j]? = some x → R.before x key

/-- The key comes before the places from `i` on. -/
def Above (R : Rule α) (l : List α) (key : α) (i : ℤ) : Prop :=
  ∀ (j : ℕ) (x : α), i ≤ j → l[j]? = some x → R.before key x

/-- The test says on which side of a place the key belongs. -/
def Tests (R : Rule α) (l : List α) (key : α) (behind : ℤ → Sorting α Bool) : Prop :=
  ∀ i : ℤ, 0 ≤ i → i < l.length →
    Yields R (behind i) fun b => if b then Below R l key (i + 1) else Above R l key i

section Gallop

variable {l : List α} {key : α} {behind : ℤ → Sorting α Bool}

theorem below_of_before (hxs : l.Pairwise R.before) {i : ℕ} {x : α} (hi : l[i]? = some x)
    (h : R.before x key) : Below R l key (i + 1) := by
  intro j y hj hy
  obtain rfl | hlt : j = i ∨ j < i := by omega
  · exact Option.some_inj.1 (hi.symm.trans hy) ▸ h
  · obtain ⟨hj', rfl⟩ := List.getElem?_eq_some_iff.1 hy
    obtain ⟨hi', rfl⟩ := List.getElem?_eq_some_iff.1 hi
    exact R.trans (List.pairwise_iff_getElem.1 hxs j i hj' hi' hlt) h

theorem above_of_before (hxs : l.Pairwise R.before) {i : ℕ} {x : α} (hi : l[i]? = some x)
    (h : R.before key x) : Above R l key i := by
  intro j y hj hy
  obtain rfl | hlt : j = i ∨ i < j := by omega
  · exact Option.some_inj.1 (hi.symm.trans hy) ▸ h
  · obtain ⟨hj', rfl⟩ := List.getElem?_eq_some_iff.1 hy
    obtain ⟨hi', rfl⟩ := List.getElem?_eq_some_iff.1 hi
    exact R.trans h (List.pairwise_iff_getElem.1 hxs i j hi' hj' hlt)

/-- The first loop keeps what holds of the last offset, and ends at one that fails or is beyond the
bound. -/
theorem yields_leap {go : ℤ → Sorting α Bool} {max : ℤ} {I O : ℤ → Prop}
    (hgo : ∀ o, 0 < o → o < max → Yields R (go o) fun b => if b then I o else O o)
    {fuel : ℕ} {last offset : ℤ} (hlast : I last) (h0 : 0 ≤ last) (hlt : last < offset)
    (hmax : last < max) (hfuel : (max - offset).toNat < fuel) :
    Yields R (leap go max fuel last offset) fun r =>
      I r.1 ∧ 0 ≤ r.1 ∧ r.1 < r.2 ∧ r.1 < max ∧ (r.2 < max ∧ O r.2 ∨ max ≤ r.2) := by
  induction fuel generalizing last offset with
  | zero => omega
  | succ fuel ih =>
      unfold leap
      split
      · rename_i hoff
        refine (hgo offset (by omega) hoff).bind fun b hb => ?_
        cases b
        · exact .pure ⟨hlast, h0, hlt, hmax, .inl ⟨hoff, hb⟩⟩
        · simp only [↓reduceIte]
          rw [if_neg (by omega)]
          exact ih hb (by omega) (by omega) hoff (by omega)
      · exact .pure ⟨hlast, h0, hlt, hmax, .inr (by simp only; omega)⟩

/-- The binary search ends at a place that has the key on the right side of both. -/
theorem yields_narrow (ht : Tests R l key behind) {fuel : ℕ} {last offset : ℤ}
    (h0 : 0 ≤ last) (hlo : last ≤ offset) (hn : offset ≤ l.length) (hb : Below R l key last)
    (ha : Above R l key offset) (hfuel : (offset - last).toNat < fuel) :
    Yields R (narrow behind fuel last offset) fun k =>
      last ≤ k ∧ k ≤ offset ∧ Below R l key k ∧ Above R l key k := by
  induction fuel generalizing last offset with
  | zero => omega
  | succ fuel ih =>
      unfold narrow
      split
      · rename_i hlt
        refine (ht (last + (offset - last) / 2) (by omega) (by omega)).bind fun b hm => ?_
        cases b
        · refine (ih h0 (by omega) (by omega) hb hm (by omega)).mono fun k hk => ?_
          exact ⟨hk.1, by omega, hk.2.2⟩
        · refine (ih (by omega) (by omega) hn hm ha (by omega)).mono fun k hk => ?_
          exact ⟨by omega, hk.2⟩
      · obtain rfl : last = offset := by omega
        exact .pure ⟨le_rfl, le_rfl, hb, ha⟩

theorem yields_leapFrom (ht : Tests R l key behind) {hint : ℕ} (hh : hint < l.length) :
    Yields R (leapFrom behind l.length hint) fun r =>
      -1 ≤ r.1 ∧ r.1 < r.2 ∧ r.2 ≤ l.length ∧ Below R l key (r.1 + 1) ∧ Above R l key r.2 := by
  unfold leapFrom
  refine (ht hint (by omega) (by omega)).bind fun b hb => ?_
  cases b
  · refine (yields_leap (I := fun o => Above R l key (hint - o))
      (O := fun o => Below R l key (hint - o + 1)) (fun o ho hmax => ?_)
      (by simpa using hb) le_rfl Int.zero_lt_one (by omega) (by omega)).bind ?_
    · refine (ht (hint - o) (by omega) (by omega)).bind fun b hb => .pure ?_
      cases b <;> exact hb
    · rintro ⟨last, offset⟩ ⟨hon, h0, hlt, hmax, hoff⟩
      refine .pure ⟨by simp only; omega, by simp only; omega, by simp only; omega, ?_, hon⟩
      rcases hoff with ⟨hoff, hb⟩ | hoff
      · simpa only [min_eq_left hoff.le] using hb
      · intro j x hj
        simp only [min_eq_right hoff] at hj
        omega
  · refine (yields_leap (I := fun o => Below R l key (hint + o + 1))
      (O := fun o => Above R l key (hint + o))
      (fun o ho hmax => ht (hint + o) (by omega) (by omega))
      (by simpa using hb) le_rfl Int.zero_lt_one (by omega) (by omega)).bind ?_
    rintro ⟨last, offset⟩ ⟨hon, h0, hlt, hmax, hoff⟩
    refine .pure ⟨by simp only; omega, by simp only; omega, by simp only; omega, ?_, ?_⟩
    · simpa only [Int.add_comm last] using hon
    · rcases hoff with ⟨hoff, ha⟩ | hoff
      · simpa only [min_eq_left hoff.le, Int.add_comm offset] using ha
      · intro j x hj hx
        simp only [min_eq_right hoff] at hj
        have := (List.getElem?_eq_some_iff.1 hx).1
        omega

/-- A place that has the key on the right side of both parts. -/
theorem take_drop_of_below {k : ℕ} (hb : Below R l key k) (ha : Above R l key k) :
    (∀ x ∈ l.take k, R.before x key) ∧ ∀ x ∈ l.drop k, R.before key x := by
  constructor
  · intro x hx
    obtain ⟨j, hj, rfl⟩ := List.mem_take_iff_getElem.1 hx
    exact hb j _ (by omega) (List.getElem?_eq_getElem (by omega))
  · intro x hx
    obtain ⟨j, hj, rfl⟩ := List.mem_drop_iff_getElem.1 hx
    exact ha (k + j) _ (by omega) (List.getElem?_eq_getElem (by omega))

/-- **A gallop finds the place of the key.** -/
theorem yields_gallop (ht : Tests R l key behind) {hint n : ℕ} (hn : n = l.length)
    (hh : hint < n) :
    Yields R (gallop behind n hint) fun k => k ≤ n ∧
      (∀ x ∈ l.take k, R.before x key) ∧ ∀ x ∈ l.drop k, R.before key x := by
  subst hn
  unfold gallop
  refine (yields_leapFrom ht hh).bind ?_
  rintro ⟨last, offset⟩ ⟨h0, hlt, hn, hb, ha⟩
  simp only at h0 hlt hn hb ha
  refine (yields_narrow ht (by omega) (by omega) hn hb ha (by omega)).bind ?_
  rintro k ⟨hlo, hhi, hb, ha⟩
  obtain ⟨k, rfl⟩ := Int.eq_ofNat_of_zero_le (show 0 ≤ k by omega)
  refine (yields_toUsize rfl).mono ?_
  rintro k rfl
  exact ⟨by omega, take_drop_of_below hb ha⟩

/-! The tests of a run in an array, with the key of an element before or behind it. -/

variable {p q : List α} {base n hint : ℕ}

theorem getElem?_mid (p q : List α) {i : ℕ} (hi : i < l.length) :
    (p ++ l ++ q)[p.length + i]? = some l[i] := by
  rw [List.append_assoc, List.getElem?_append_right (by omega), Nat.add_sub_cancel_left,
    List.getElem?_append_left hi, List.getElem?_eq_getElem hi]

theorem tests_left (hw : w = p ++ l ++ q) (hbase : base = p.length) (hxs : l.Pairwise R.before)
    (hlater : ∀ x ∈ l, R.later x key) :
    Tests R l key (fun i => do less (← get w (← toUsize (base + i))) key) := by
  intro i h0 hi
  obtain ⟨i, rfl⟩ := Int.eq_ofNat_of_zero_le h0
  have hi : i < l.length := by omega
  have hx := List.getElem?_eq_getElem hi
  refine Yields.then_ (yields_toUsize (n := p.length + i) (by omega)) ?_
  refine Yields.then_ (yields_get (hw ▸ getElem?_mid p q hi)) ?_
  refine (yields_less (hlater _ (List.getElem_mem hi))).mono fun b hb => ?_
  cases b
  · exact above_of_before hxs hx hb
  · exact below_of_before hxs hx hb

theorem tests_right (hw : w = p ++ l ++ q) (hbase : base = p.length)
    (hxs : l.Pairwise R.before) (hlater : ∀ x ∈ l, R.later key x) :
    Tests R l key (fun i => do return !(← less key (← get w (← toUsize (base + i))))) := by
  intro i h0 hi
  obtain ⟨i, rfl⟩ := Int.eq_ofNat_of_zero_le h0
  have hi : i < l.length := by omega
  have hx := List.getElem?_eq_getElem hi
  refine Yields.then_ (yields_toUsize (n := p.length + i) (by omega)) ?_
  refine Yields.then_ (yields_get (hw ▸ getElem?_mid p q hi)) ?_
  refine (yields_less (hlater _ (List.getElem_mem hi))).bind fun b hb => .pure ?_
  cases b
  · exact below_of_before hxs hx hb
  · exact above_of_before hxs hx hb

theorem yields_gallopLeft (hw : w = p ++ l ++ q) (hbase : base = p.length) (hn : n = l.length)
    (hh : hint < n) (hxs : l.Pairwise R.before) (hlater : ∀ x ∈ l, R.later x key) :
    Yields R (gallopLeft w key base n hint) fun k => k ≤ n ∧
      (∀ x ∈ l.take k, R.before x key) ∧ ∀ x ∈ l.drop k, R.before key x :=
  yields_gallop (tests_left hw hbase hxs hlater) hn hh

theorem yields_gallopRight (hw : w = p ++ l ++ q) (hbase : base = p.length) (hn : n = l.length)
    (hh : hint < n) (hxs : l.Pairwise R.before) (hlater : ∀ x ∈ l, R.later key x) :
    Yields R (gallopRight w key base n hint) fun k => k ≤ n ∧
      (∀ x ∈ l.take k, R.before x key) ∧ ∀ x ∈ l.drop k, R.before key x :=
  yields_gallop (tests_right hw hbase hxs hlater) hn hh

end Gallop

end Timsort
end Lunar
