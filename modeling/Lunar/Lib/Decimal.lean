/-
# Decimal spellings

Integers as a script writes them: the digits without leading zeros, as UTF-16 units, behind
a minus sign.  A text of digits without a leading zero is the spelling of its value
(`digits_value`), so different integers are spelled differently (`spell_inj`).
-/

import Mathlib.Data.Nat.Digits.Lemmas

namespace Lunar
namespace Lib
namespace Decimal

/-- The digits of a number, the highest first. -/
def digits (n : ℕ) : List ℕ :=
  if n = 0 then [48] else (Nat.digits 10 n).reverse.map (48 + ·)

/-- An integer as a script writes it. -/
def spell (i : ℤ) : List ℕ := if i < 0 then 45 :: digits i.natAbs else digits i.natAbs

/-- The number that digits denote. -/
def value (ds : List ℕ) : ℕ := ds.foldl (fun v d => v * 10 + (d - 48)) 0

/-- Digits, and no zero in front of others. -/
structure Canonical (ds : List ℕ) : Prop where
  ne : ds ≠ []
  digit : ∀ d ∈ ds, 48 ≤ d ∧ d ≤ 57
  head : ds.head? = some 48 → ds = [48]

theorem canonical_digits (n : ℕ) : Canonical (digits n) := by
  unfold digits
  by_cases hzero : n = 0
  · rw [if_pos hzero]
    refine ⟨List.cons_ne_nil _ _, fun d hd => ?_, fun _ => rfl⟩
    rw [List.mem_singleton.1 hd]
    decide
  · have hne : Nat.digits 10 n ≠ [] := Nat.digits_ne_nil_iff_ne_zero.2 hzero
    rw [if_neg hzero]
    refine ⟨?_, fun d hd => ?_, fun hhead => ?_⟩
    · simpa using hne
    · obtain ⟨k, hk, rfl⟩ := List.mem_map.1 hd
      have hlt := Nat.digits_lt_base (by decide) (List.mem_reverse.1 hk)
      omega
    · have hlast := Nat.getLast_digit_ne_zero 10 hzero
      rw [List.head?_map, List.head?_reverse, List.getLast?_eq_some_getLast hne, Option.map_some,
        Option.some.injEq] at hhead
      omega

theorem value_from (ds : List ℕ) (v : ℕ) :
    ds.foldl (fun v d => v * 10 + (d - 48)) v
      = v * 10 ^ ds.length + Nat.ofDigits 10 (ds.map (· - 48)).reverse := by
  induction ds generalizing v with
  | nil => simp
  | cons d ds ih =>
      rw [List.foldl_cons, ih, List.map_cons, Nat.ofDigits_reverse_cons, List.length_cons,
        List.length_map, Nat.pow_succ]
      ring

theorem value_eq (ds : List ℕ) : value ds = Nat.ofDigits 10 (ds.map (· - 48)).reverse := by
  rw [value, value_from, Nat.zero_mul, Nat.zero_add]

theorem value_digits (n : ℕ) : value (digits n) = n := by
  rw [value_eq, digits]
  by_cases hzero : n = 0
  · rw [if_pos hzero, hzero]
    rfl
  · have hsub : ((· - 48) ∘ (48 + ·) : ℕ → ℕ) = id := by
      funext k
      exact Nat.add_sub_cancel_left 48 k
    rw [if_neg hzero, List.map_map, hsub, List.map_id, List.reverse_reverse, Nat.ofDigits_digits]

/-- **Digits without a leading zero are the spelling of their value.** -/
theorem digits_value {ds : List ℕ} (h : Canonical ds) : digits (value ds) = ds := by
  by_cases hhead : ds.head? = some 48
  · rw [h.head hhead]
    rfl
  · have hdigits : Nat.digits 10 (value ds) = (ds.map (· - 48)).reverse := by
      rw [value_eq]
      refine Nat.digits_ofDigits 10 (by decide) _ (fun k hk => ?_) fun hne => ?_
      · obtain ⟨d, hd, rfl⟩ := List.mem_map.1 (List.mem_reverse.1 hk)
        have hdigit := h.digit d hd
        omega
      · rcases ds with _ | ⟨d, ds⟩
        · exact absurd rfl h.ne
        · have hdigit := h.digit d List.mem_cons_self
          have hd : d ≠ 48 := fun heq => hhead (congrArg some heq)
          simp only [List.map_cons, List.reverse_cons, List.getLast_append_singleton]
          omega
    have hne : value ds ≠ 0 := by
      rw [← Nat.digits_ne_nil_iff_ne_zero (b := 10), hdigits]
      simpa using h.ne
    have hback : ∀ d ∈ ds, ((48 + ·) ∘ (· - 48)) d = id d := by
      intro d hd
      have hdigit := h.digit d hd
      show 48 + (d - 48) = d
      omega
    rw [digits, if_neg hne, hdigits, List.reverse_reverse, List.map_map,
      List.map_congr_left hback, List.map_id]

theorem digits_inj {m n : ℕ} : digits m = digits n ↔ m = n := by
  constructor
  · intro h
    rw [← value_digits m, h, value_digits]
  · exact congrArg digits

theorem head_digits (n : ℕ) : (digits n).head? ≠ some 45 := by
  intro hhead
  obtain ⟨hne, hdigit, -⟩ := canonical_digits n
  have hlow := (hdigit 45 (List.mem_of_mem_head? hhead)).1
  omega

/-- **Different integers are spelled differently.** -/
theorem spell_inj {i j : ℤ} : spell i = spell j ↔ i = j := by
  refine ⟨fun h => ?_, congrArg spell⟩
  unfold spell at h
  by_cases hi : i < 0
  · by_cases hj : j < 0
    · rw [if_pos hi, if_pos hj, List.cons_inj_right, digits_inj] at h
      omega
    · rw [if_pos hi, if_neg hj] at h
      exact absurd (congrArg List.head? h).symm (head_digits _)
  · by_cases hj : j < 0
    · rw [if_neg hi, if_pos hj] at h
      exact absurd (congrArg List.head? h) (head_digits _)
    · rw [if_neg hi, if_neg hj, digits_inj] at h
      omega

end Decimal
end Lib
end Lunar
