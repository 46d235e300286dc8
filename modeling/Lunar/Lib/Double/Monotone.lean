/-
# Rounding keeps the order

A larger quotient is not rounded to a smaller double (`round53_mono`), a double is rounded to
itself (`IsDouble.round53`), and so is every quotient so close to it that no other double is
(`IsDouble.round53_near`).
-/

import Lunar.Lib.Double.Fixed

namespace Lunar
namespace Lib
namespace Double

/-- The magnitudes of the finite doubles. -/
structure IsDouble (m : ℕ) : Prop where
  lt_huge : m < HUGE
  bits : ∃ a j, a < 2 ^ 53 ∧ m = a * 2 ^ j

theorem nearest_mono {n d n' d' : ℕ} (hd : 0 < d) (hd' : 0 < d') (h : n * d' ≤ n' * d) :
    nearest n d ≤ nearest n' d' := by
  rw [← nearest_mul_right n d hd', ← nearest_mul_right n' d' hd, Nat.mul_comm d' d]
  have hpos : 0 < d * d' := Nat.mul_pos hd hd'
  generalize d * d' = c at hpos
  rcases Nat.eq_or_lt_of_le h with heq | hlt
  · rw [heq]
  · by_contra hcon
    obtain ⟨hlow, -⟩ := nearest_bounds (n * d') hpos
    obtain ⟨-, hhigh⟩ := nearest_bounds (n' * d) hpos
    have hmul : (nearest (n' * d) c + 1) * c ≤ nearest (n * d') c * c :=
      Nat.mul_le_mul_right c (Nat.not_le.1 hcon)
    rw [Nat.succ_mul] at hmul
    omega

/-- A quotient lies below the power of two that ends its binade, and so does its rounding. -/
theorem round53_le_pow (n : ℕ) {d : ℕ} (hd : 0 < d) :
    round53 n d ≤ 2 ^ (53 + ((n / d).log2 - 52)) := by
  set e := (n / d).log2 - 52 with he
  rw [round53, ← he, Nat.pow_add]
  refine Nat.mul_le_mul_right _ (nearest_le (Nat.mul_pos hd (Nat.two_pow_pos e)) ?_)
  have hlt : n / d < 2 ^ (53 + e) := by
    by_cases hzero : n / d = 0
    · rw [hzero]
      exact Nat.two_pow_pos _
    · exact (Nat.log2_lt hzero).1 (by omega)
  have hle : n ≤ 2 ^ (53 + e) * d := ((Nat.div_lt_iff_lt_mul hd).1 hlt).le
  rwa [Nat.pow_add, Nat.mul_assoc, Nat.mul_comm (2 ^ e)] at hle

/-- Rounding does not fall below the power of two that starts the binade. -/
theorem pow_le_round53 {n d : ℕ} (hd : 0 < d) (h : 52 ≤ (n / d).log2) :
    2 ^ (n / d).log2 ≤ round53 n d := by
  set e := (n / d).log2 - 52 with he
  have hne : n / d ≠ 0 := by
    intro hzero
    rw [hzero, Nat.log2_zero] at h
    omega
  have hsum : (n / d).log2 = 52 + e := by omega
  rw [round53, ← he, hsum, Nat.pow_add]
  refine Nat.mul_le_mul_right _ (le_nearest (Nat.mul_pos hd (Nat.two_pow_pos e)) ?_)
  have hle := (Nat.le_div_iff_mul_le hd).1 (Nat.log2_self_le hne)
  rwa [hsum, Nat.pow_add, Nat.mul_assoc, Nat.mul_comm (2 ^ e)] at hle

/-- **Rounding keeps the order.** -/
theorem round53_mono {n d n' d' : ℕ} (hd : 0 < d) (hd' : 0 < d') (h : n * d' ≤ n' * d) :
    round53 n d ≤ round53 n' d' := by
  have hdiv : n / d ≤ n' / d' := by
    rw [Nat.le_div_iff_mul_le hd']
    refine Nat.le_of_mul_le_mul_right ?_ hd
    calc n / d * d' * d = n / d * d * d' := Nat.mul_right_comm _ _ _
      _ ≤ n * d' := Nat.mul_le_mul_right _ (Nat.div_mul_le_self n d)
      _ ≤ n' * d := h
  have hlog : (n / d).log2 ≤ (n' / d').log2 := by
    rcases Nat.eq_zero_or_pos (n / d) with hzero | hpos
    · rw [hzero, Nat.log2_zero]
      exact Nat.zero_le _
    · exact (Nat.le_log2 (lt_of_lt_of_le hpos hdiv).ne').2
        ((Nat.log2_self_le hpos.ne').trans hdiv)
  rcases Nat.lt_or_ge ((n / d).log2 - 52) ((n' / d').log2 - 52) with hlt | hge
  · calc round53 n d ≤ 2 ^ (53 + ((n / d).log2 - 52)) := round53_le_pow n hd
      _ ≤ 2 ^ (n' / d').log2 := Nat.pow_le_pow_right Nat.two_pos (by omega)
      _ ≤ round53 n' d' := pow_le_round53 hd' (by omega)
  · have heq : (n / d).log2 - 52 = (n' / d').log2 - 52 := by omega
    rw [round53, round53, heq]
    refine Nat.mul_le_mul_right _ (nearest_mono (Nat.mul_pos hd (Nat.two_pow_pos _))
      (Nat.mul_pos hd' (Nat.two_pow_pos _)) ?_)
    rw [← Nat.mul_assoc, ← Nat.mul_assoc]
    exact Nat.mul_le_mul_right _ h

/-- A double is rounded to itself. -/
theorem IsDouble.round53 {m d : ℕ} (h : IsDouble m) (hd : 0 < d) : round53 (m * d) d = m := by
  obtain ⟨a, j, ha, rfl⟩ := h.bits
  exact round53_exact ha hd

/-- The digits of a double and its exponent. -/
theorem IsDouble.normal {m : ℕ} (h : IsDouble m) :
    ∃ a, a < 2 ^ 53 ∧ m = a * 2 ^ (m.log2 - 52) ∧ (m.log2 - 52 = 0 ∨ 2 ^ 52 ≤ a) := by
  obtain ⟨a, j, ha, hm⟩ := h.bits
  rcases Nat.eq_zero_or_pos (m.log2 - 52) with hzero | hpos
  · rw [hzero]
    refine ⟨m, ?_, (Nat.mul_one m).symm, Or.inl rfl⟩
    by_cases hm0 : m = 0
    · rw [hm0]
      exact Nat.two_pow_pos 53
    · exact (Nat.log2_lt hm0).1 (by omega)
  · have hm0 : m ≠ 0 := by
      rintro rfl
      rw [Nat.log2_zero] at hpos
      omega
    have hlt : m.log2 < 53 + j := by
      rw [Nat.log2_lt hm0, hm, Nat.pow_add]
      exact Nat.mul_lt_mul_of_pos_right ha (Nat.two_pow_pos j)
    obtain ⟨i, hi⟩ : ∃ i, j = i + (m.log2 - 52) := ⟨j - (m.log2 - 52), by omega⟩
    have heq : m = a * 2 ^ i * 2 ^ (m.log2 - 52) := by
      rw [Nat.mul_assoc, ← Nat.pow_add, ← hi]
      exact hm
    have hpow : 2 ^ m.log2 = 2 ^ 52 * 2 ^ (m.log2 - 52) := by
      rw [← Nat.pow_add]
      congr 1
      omega
    refine ⟨a * 2 ^ i, ?_, heq, Or.inr ?_⟩
    · refine Nat.lt_of_mul_lt_mul_right (a := 2 ^ (m.log2 - 52)) ?_
      rw [← heq, ← Nat.pow_add]
      exact (Nat.log2_lt hm0).1 (by omega)
    · refine Nat.le_of_mul_le_mul_right ?_ (Nat.two_pow_pos (m.log2 - 52))
      rw [← heq, ← hpow]
      exact Nat.log2_self_le hm0

/-- The unit of a rounding, when the binade is known. -/
theorem log2_sub_eq {q j : ℕ} (hlt : q < 2 ^ (53 + j)) (hle : j = 0 ∨ 2 ^ (52 + j) ≤ q) :
    q.log2 - 52 = j := by
  rcases Nat.eq_zero_or_pos q with hzero | hpos
  · rcases hle with rfl | hle
    · rw [hzero, Nat.log2_zero]
    · exact absurd hle (Nat.not_le.2 (hzero ▸ Nat.two_pow_pos _))
  · have hlog := (Nat.log2_lt hpos.ne').2 hlt
    rcases hle with rfl | hle
    · omega
    · have hge := (Nat.le_log2 hpos.ne').2 hle
      omega

/-- **A quotient next to a double** is rounded to it: the doubles around `m` are more than
`m / 2 ^ 53` away. -/
theorem IsDouble.round53_near {m n d : ℕ} (h : IsDouble m) (hd : 0 < d)
    (hlow : (2 ^ 54 - 1) * (m * d) < 2 ^ 54 * n) (hhigh : 2 ^ 54 * n < (2 ^ 54 + 1) * (m * d)) :
    Double.round53 n d = m := by
  obtain ⟨a, ha, hm, hbin⟩ := h.normal
  generalize m.log2 - 52 = j at hm hbin
  -- the multiples of the unit, and the quotient between two of them
  set u := d * 2 ^ j with hu
  have hupos : 0 < u := Nat.mul_pos hd (Nat.two_pow_pos j)
  have hmd : m * d = a * u := by rw [hm, hu, Nat.mul_assoc, Nat.mul_comm (2 ^ j)]
  rw [hmd] at hlow hhigh
  have hau : a * u ≤ (2 ^ 53 - 1) * u := Nat.mul_le_mul_right u (by omega)
  have hpow (k : ℕ) : 2 ^ (k + j) * d = 2 ^ k * u := by
    rw [hu, Nat.pow_add, Nat.mul_assoc, Nat.mul_comm d]
  have hupper : n / d < 2 ^ (53 + j) := by
    rw [Nat.div_lt_iff_lt_mul hd, hpow]
    omega
  by_cases hsame : j = 0 ∨ 2 ^ (52 + j) ≤ n / d
  · rw [Double.round53, log2_sub_eq hupper hsame, ← hu, hm]
    congr 1
    rw [nearest_eq_iff hupos]
    omega
  · -- the quotient lies below the power of two that starts the binade of `m`
    obtain ⟨hj, hbelow⟩ := not_or.1 hsame
    obtain ⟨i, rfl⟩ : ∃ i, j = i + 1 := ⟨j - 1, by omega⟩
    have hbelow' : n < 2 ^ 52 * u := by
      rwa [Nat.not_le, Nat.div_lt_iff_lt_mul hd, hpow] at hbelow
    have ha52 : a = 2 ^ 52 := by
      by_contra hne
      have hnext : (2 ^ 52 + 1) * u ≤ a * u := Nat.mul_le_mul_right u (by omega)
      omega
    set v := d * 2 ^ i with hv
    have huv : u = 2 * v := by
      rw [hu, hv, Nat.pow_succ]
      ring
    have hvpos : 0 < v := Nat.mul_pos hd (Nat.two_pow_pos i)
    have hpow' (k : ℕ) : 2 ^ (k + i) * d = 2 ^ k * v := by
      rw [hv, Nat.pow_add, Nat.mul_assoc, Nat.mul_comm d]
    rw [ha52, huv] at hlow hhigh
    have hlog : (n / d).log2 - 52 = i := by
      refine log2_sub_eq ?_ (Or.inr ?_)
      · rw [Nat.div_lt_iff_lt_mul hd, hpow']
        omega
      · rw [Nat.le_div_iff_mul_le hd, hpow']
        omega
    have hm' : m = 2 ^ 53 * 2 ^ i := by
      rw [hm, ha52, ← Nat.pow_add, ← Nat.pow_add]
      congr 1
      omega
    have hnearest : nearest n v = 2 ^ 53 := by
      rw [nearest_eq_iff hvpos]
      omega
    rw [Double.round53, hlog, ← hv, hnearest, hm']

end Double
end Lib
end Lunar
