/-
# Powers with whole exponents

`powi` multiplies a double with itself again and again, and takes the reciprocal at the end
when the exponent is negative.  The powers of two are exact as long as the product is
finite; a product of 1024 factors is infinite, so its reciprocal is zero and not the
smallest doubles that it stands for (`powi_two_neg`).
-/

import Lunar.Lib.Double

namespace Lunar
namespace Lib
namespace Double

/-- The product of so many factors. -/
def powNat (x : Double) : ℕ → Double
  | 0 => one
  | n + 1 => (powNat x n).mul x

/-- `f64::powi`. -/
def powi (x : Double) (n : ℤ) : Double :=
  if n < 0 then one.div (x.powNat n.natAbs) else x.powNat n.natAbs

def two : Double := .fin false (2 * ONE)

/-- The magnitude of a power of two. -/
theorem pow_mul_one (k : ℕ) : 2 ^ k * ONE = 2 ^ (k + 1074) := (Nat.pow_add 2 k 1074).symm

theorem inf_mul {n : ℕ} (a b : Bool) (hn : n ≠ 0) :
    (Double.inf a).mul (.fin b n) = .inf (a != b) := if_neg hn

theorem fin_div {m n : ℕ} (a b : Bool) (hn : n ≠ 0) :
    (Double.fin a m).div (.fin b n) = ofQuot (a != b) (m * ONE) n := if_neg hn

/-- One more factor two, rounded. -/
theorem mul_two (k : ℕ) : (Double.fin false (2 ^ k * ONE)).mul two =
    if 1024 ≤ k + 1 then .inf false else .fin false (2 ^ (k + 1) * ONE) := by
  have hprod : 2 ^ k * ONE * (2 * ONE) = 1 * 2 ^ (k + 1 + 1074) * ONE := by
    rw [Nat.one_mul, ← pow_mul_one (k + 1), Nat.pow_succ, ← Nat.mul_assoc,
      Nat.mul_right_comm _ ONE 2]
  have hhuge : HUGE ≤ 1 * 2 ^ (k + 1 + 1074) ↔ 1024 ≤ k + 1 := by
    rw [Nat.one_mul, HUGE, Nat.pow_le_pow_iff_right Nat.one_lt_two]
    omega
  show ofQuot (false != false) _ _ = _
  rw [hprod, ofQuot, round53_exact (by decide) ONE_pos, pow_mul_one (k + 1), Nat.one_mul]
  rw [Nat.one_mul] at hhuge
  exact if_congr hhuge rfl rfl

/-- **The powers of two** are exact below the exponent 1024, and infinite from there on. -/
theorem powNat_two (k : ℕ) :
    two.powNat k = if 1024 ≤ k then .inf false else .fin false (2 ^ k * ONE) := by
  induction k with
  | zero =>
      rw [powNat, if_neg (by omega), Nat.pow_zero, Nat.one_mul]
      rfl
  | succ k ih =>
      rw [powNat, ih]
      by_cases hk : 1024 ≤ k
      · rw [if_pos hk, if_pos (Nat.le_succ_of_le hk)]
        exact inf_mul false false (Nat.mul_pos Nat.two_pos ONE_pos).ne'
      · rw [if_neg hk, mul_two]

theorem powi_two {k : ℕ} (hk : k < 1024) : two.powi k = .fin false (2 ^ k * ONE) := by
  rw [powi, if_neg (by omega), Int.natAbs_natCast, powNat_two, if_neg (by omega)]

/-- **The reciprocals** are exact above the exponent -1024, and zero from there on. -/
theorem powi_two_neg {k : ℕ} (hk : k < 1074) :
    two.powi ((k : ℤ) - 1074) = if 51 ≤ k then .fin false (2 ^ k) else .zero := by
  have habs : ((k : ℤ) - 1074).natAbs = 1074 - k := by omega
  rw [powi, if_pos (by omega), habs, powNat_two]
  by_cases hlow : 51 ≤ k
  · have hone : 2 ^ k * 2 ^ (1074 - k) = ONE := by
      rw [← Nat.pow_add, Nat.add_sub_cancel' hk.le, ONE]
    have hquot : ONE * ONE = 1 * 2 ^ k * (2 ^ (1074 - k) * ONE) := by
      rw [Nat.one_mul, ← Nat.mul_assoc, hone]
    have hhuge : 1 * 2 ^ k < HUGE := by
      rw [Nat.one_mul, HUGE]
      exact Nat.pow_lt_pow_right Nat.one_lt_two (by omega)
    have hpos : 0 < 2 ^ (1074 - k) * ONE := Nat.mul_pos (Nat.two_pow_pos _) ONE_pos
    have hdiv : one.div (.fin false (2 ^ (1074 - k) * ONE)) =
        ofQuot false (ONE * ONE) (2 ^ (1074 - k) * ONE) := fin_div false false hpos.ne'
    rw [if_neg (by omega), if_pos hlow, hdiv, hquot, ofQuot_exact _ (by decide) hpos hhuge,
      Nat.one_mul]
  · rw [if_pos (by omega), if_neg hlow]
    rfl

end Double
end Lib
end Lunar
