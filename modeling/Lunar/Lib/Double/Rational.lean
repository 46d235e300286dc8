/-
# Doubles of rationals

The double nearest to a rational.  It depends on the rational alone and not on the fraction that
is rounded (`ofQuot_eq`), so a decimal that reads back as a double is a rational that rounds to it
(`ofRat_decimal`).
-/

import Mathlib.Algebra.Order.Field.Rat
import Lunar.Lib.Double.Bounds
import Lunar.Lib.Double.Shortest

namespace Lunar
namespace Lib
namespace Double

/-- The double nearest to a rational. -/
def ofRat (q : ℚ) : Double := ofQuot (decide (q < 0)) (q.num.natAbs * ONE) q.den

/-- A quotient is rounded alike however it is written. -/
theorem ofQuot_eq (neg : Bool) {n d n' d' : ℕ} (hd : 0 < d) (hd' : 0 < d') (h : n * d' = n' * d) :
    ofQuot neg n d = ofQuot neg n' d' := by
  rw [← ofQuot_mul_right neg n d hd', h, Nat.mul_comm d, ofQuot_mul_right neg n' d' hd]

theorem ofQuot_sign {n d m : ℕ} (neg : Bool) (h : ofQuot false n d = .fin false m) :
    ofQuot neg n d = .fin neg m := by
  rw [ofQuot] at h ⊢
  split at h
  · cases h
  · next hlt => rw [if_neg hlt, (Double.fin.inj h).2]

/-- The double of a fraction. -/
theorem ofRat_div {q : ℚ} {n d : ℕ} (hd : 0 < d) (h : |q| * d = n) :
    ofRat q = ofQuot (decide (q < 0)) (n * ONE) d := by
  have hden : (q.den : ℚ) ≠ 0 := Nat.cast_ne_zero.2 q.den_nz
  have habs : |q| * q.den = q.num.natAbs := by
    rw [Nat.cast_natAbs, Int.cast_abs, ← Rat.mul_den_eq_num, abs_mul, Nat.abs_cast]
  have hcross : q.num.natAbs * d = n * q.den := by
    have hq : (q.num.natAbs : ℚ) * d = n * q.den := by
      rw [← habs, ← h, mul_right_comm]
    exact_mod_cast hq
  refine ofQuot_eq _ q.den_pos hd ?_
  rw [Nat.mul_right_comm, hcross, Nat.mul_right_comm]

/-- **A rational that is a double** rounds to it. -/
theorem ofRat_exact {q : ℚ} {m : ℕ} (hm : IsDouble m) (h : |q| * ONE = m) :
    ofRat q = .fin (decide (q < 0)) m := by
  have hround := hm.round53 ONE_pos
  rw [ofRat_div ONE_pos h, ofQuot_lt (by rw [hround]; exact hm.1), hround]

/-- **A decimal that reads back** rounds to the double. -/
theorem ofRat_decimal {q : ℚ} {m c : ℕ} {e : ℤ} (hreads : Reads m c e) (h : |q| = c * 10 ^ e) :
    ofRat q = .fin (decide (q < 0)) m := by
  have hq : |q| * ((10 ^ (-e).toNat : ℕ) : ℚ) = ((c * 10 ^ e.toNat : ℕ) : ℚ) := by
    have hpow : (10 : ℚ) ^ (-e).toNat ≠ 0 := pow_ne_zero _ (by norm_num)
    rw [ten_zpow] at h
    push_cast
    rw [h, mul_assoc, div_mul_cancel₀ _ hpow]
  rw [Reads, ofDecimal] at hreads
  rw [ofRat_div (ten_pow_pos _) hq]
  exact ofQuot_sign _ hreads

end Double
end Lib
end Lunar
