/-
# Facts on rounding

The integer nearest to a quotient is within a half of it, and of two such integers it is the
even one (`nearest_eq_iff`).  A quotient of whole numbers below `2 ^ 53` that is no whole number
is so far below the next one that rounding does not reach it: its integer part is that of the
exact quotient (`floor_div_whole`).
-/

import Mathlib.Tactic.Ring
import Lunar.Lib.Double.Exact
import Lunar.Lib.Double.Power

namespace Lunar
namespace Lib
namespace Double

/-- **The nearest integer** is the one within a half, the even one of two. -/
theorem nearest_eq_iff {n d k : ℕ} (hd : 0 < d) :
    nearest n d = k ↔ 2 * (k * d) ≤ 2 * n + d ∧ 2 * n ≤ 2 * (k * d) + d ∧
      (2 * (k * d) = 2 * n + d ∨ 2 * n = 2 * (k * d) + d → k % 2 = 0) := by
  have hdiv := Nat.div_add_mod n d
  have hmod := Nat.mod_lt n hd
  rw [Nat.mul_comm] at hdiv
  rw [nearest]
  set q := n / d
  set s := n % d
  -- an integer other than `q` and `q + 1` is more than a half away
  have hlow (h : k + 1 ≤ q) : k * d + d ≤ q * d := by
    rw [← Nat.succ_mul]
    exact Nat.mul_le_mul_right d h
  have hhigh (h : q + 2 ≤ k) : q * d + 2 * d ≤ k * d := by
    rw [← Nat.add_mul]
    exact Nat.mul_le_mul_right d h
  have hcases : k + 1 ≤ q ∨ k = q ∨ k = q + 1 ∨ q + 2 ≤ k := by omega
  rcases hcases with h | rfl | rfl | h
  · have := hlow h
    split <;> omega
  · split <;> omega
  · rw [Nat.add_mul, Nat.one_mul]
    split <;> omega
  · have := hhigh h
    split <;> omega

theorem nearest_bounds (n : ℕ) {d : ℕ} (hd : 0 < d) :
    2 * (nearest n d * d) ≤ 2 * n + d ∧ 2 * n ≤ 2 * (nearest n d * d) + d := by
  obtain ⟨hle, hge, -⟩ := (nearest_eq_iff (n := n) hd).1 rfl
  exact ⟨hle, hge⟩

/-- A quotient of whole numbers is rounded to less than the next whole number. -/
theorem round53_whole {m r : ℕ} (hm : m < 2 ^ 53) (hr : 0 < r) (hr' : r < 2 ^ 53) :
    m / r * ONE ≤ round53 (m * ONE) r ∧ round53 (m * ONE) r < (m / r + 1) * ONE := by
  have hdiv := Nat.div_add_mod m r
  have hmod := Nat.mod_lt m hr
  rw [Nat.mul_comm] at hdiv
  rw [round53]
  set e := (m * ONE / r).log2 - 52 with he
  -- the unit of the rounded quotient, of which there are `unit` in the number one
  have hlog : (m * ONE / r).log2 < 53 + 1074 := by
    rcases Nat.eq_zero_or_pos (m * ONE / r) with h | h
    · rw [h, Nat.log2_zero]
      omega
    · refine (Nat.log2_lt h.ne').2 (lt_of_le_of_lt (Nat.div_le_self _ _) ?_)
      rw [← pow_mul_one]
      exact Nat.mul_lt_mul_of_pos_right hm ONE_pos
  obtain ⟨u, hu⟩ : ∃ u, u + e = 1074 := ⟨1074 - e, by omega⟩
  have hone : ONE = 2 ^ u * 2 ^ e := by rw [ONE, ← Nat.pow_add, hu]
  have hunit : r < 2 * 2 ^ u := by
    rcases Nat.eq_zero_or_pos e with h0 | hpos
    · have : u = 1074 := by omega
      rw [this, ← Nat.pow_succ']
      exact lt_of_lt_of_le hr' (Nat.pow_le_pow_right Nat.two_pos (by omega))
    · have hne : m * ONE / r ≠ 0 := by
        intro h
        rw [h, Nat.log2_zero] at he
        omega
      have hself := Nat.log2_self_le hne
      have hq : 2 ^ (e + 52) * r ≤ m * ONE := by
        refine le_trans (Nat.mul_le_mul_right r ?_) (Nat.div_mul_le_self _ _)
        rwa [show e + 52 = (m * ONE / r).log2 by omega]
      have hlt : 2 ^ (e + 52) * r < 2 ^ (e + 52) * (2 * 2 ^ u) := by
        refine lt_of_le_of_lt hq ?_
        have hsum : 2 ^ (e + 52) * (2 * 2 ^ u) = 2 ^ 53 * ONE := by
          rw [← Nat.pow_succ', ← Nat.pow_add, pow_mul_one, show e + 52 + (u + 1) = 53 + 1074 by omega]
        rw [hsum]
        exact Nat.mul_lt_mul_of_pos_right hm ONE_pos
      exact Nat.lt_of_mul_lt_mul_left hlt
  have hnearest : nearest (m * ONE) (r * 2 ^ e) = nearest (m * 2 ^ u) r := by
    rw [hone, ← Nat.mul_assoc, nearest_mul_right _ _ (Nat.two_pow_pos e)]
  obtain ⟨hle, hge⟩ := nearest_bounds (m * 2 ^ u) hr
  rw [hnearest, hone, ← Nat.mul_assoc, ← Nat.mul_assoc]
  constructor
  · refine Nat.mul_le_mul_right _ ?_
    have hfloor : m / r * 2 ^ u ≤ m * 2 ^ u / r := by
      rw [Nat.le_div_iff_mul_le hr, Nat.mul_right_comm]
      exact Nat.mul_le_mul_right _ (Nat.div_mul_le_self m r)
    refine le_trans hfloor ?_
    rw [nearest]
    split
    · exact le_refl _
    · exact Nat.le_succ _
  · refine Nat.mul_lt_mul_of_pos_right ?_ (Nat.two_pow_pos e)
    by_contra hcon
    have hmul : (m / r + 1) * 2 ^ u * r ≤ nearest (m * 2 ^ u) r * r :=
      Nat.mul_le_mul_right r (not_lt.1 hcon)
    have hnext : (m + 1) * 2 ^ u ≤ (m / r + 1) * 2 ^ u * r := by
      rw [Nat.mul_right_comm]
      refine Nat.mul_le_mul_right _ ?_
      rw [Nat.succ_mul]
      omega
    rw [Nat.succ_mul] at hnext
    omega

/-- **The integer part of a quotient** of whole numbers survives its rounding. -/
theorem floor_div_whole {m r : ℕ} (hm : m < 2 ^ 53) (hr : 0 < r) (hr' : r < 2 ^ 53) :
    ((fin false (m * ONE)).div (.fin false (r * ONE))).floor = .fin false (m / r * ONE) := by
  obtain ⟨hlow, hhigh⟩ := round53_whole hm hr hr'
  have hhuge : ¬ HUGE ≤ round53 (m * ONE) r := by
    have hle : (m / r + 1) * ONE ≤ 2 ^ 53 * ONE :=
      Nat.mul_le_mul_right _ (lt_of_le_of_lt (Nat.div_le_self m r) hm)
    have hpow : 2 ^ 53 * ONE < HUGE := by
      rw [ONE, HUGE, ← Nat.pow_add]
      exact Nat.pow_lt_pow_right Nat.one_lt_two (by decide)
    omega
  rw [fin_div _ _ (Nat.mul_ne_zero hr.ne' ONE_pos.ne'), ofQuot_mul_right _ _ _ ONE_pos, ofQuot,
    if_neg hhuge, floor]
  have hdiv : round53 (m * ONE) r / ONE = m / r :=
    Nat.div_eq_of_lt_le hlow hhigh
  simp [hdiv]

end Double
end Lib
end Lunar
