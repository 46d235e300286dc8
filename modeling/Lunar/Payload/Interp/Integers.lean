/-
# Integers as the interpreter prints them

`num_to_str` prints a double that is an integer below `10 ^ 21` through an `i128`, with all its
digits (`numToStr_whole`).
-/

import Lunar.Lib.Double.Power
import Lunar.Lib.Double.Words
import Lunar.Payload.Interp.Value

namespace Lunar
namespace Interp

open Lib (Double)
open Lib.Double (ONE ONE_pos signed)

/-- The bound from which on the printer uses the shortest digits. -/
theorem ofNat_limit : Double.ofNat (10 ^ 21) = .fin false (10 ^ 21 * ONE) := by
  have hm : 5 ^ 21 < 2 ^ 53 := by decide
  have hj : 21 + 1074 ≤ 2045 := by decide
  have hpow : 10 ^ 21 * ONE = 5 ^ 21 * 2 ^ (21 + 1074) := by
    rw [← Double.pow_mul_one 21, ← Nat.mul_assoc, ← Nat.mul_pow]
  rw [Double.ofNat, hpow, Double.ofQuot_pow false hm hj]

theorem abs_lt_limit (a : Bool) (m : ℕ) :
    (Double.fin a m).abs.lt (.ofNat (10 ^ 21)) = decide (m < 10 ^ 21 * ONE) := by
  rw [ofNat_limit, Double.abs, Double.lt, Double.cmp_fin, Bool.eq_iff_iff, beq_iff_eq,
    decide_eq_true_iff, Option.some_inj, Int.compare_eq_lt]
  simp only [signed, Bool.false_eq_true, if_false, Int.ofNat_lt]

theorem isInt_whole (a : Bool) (k : ℕ) : (Double.fin a (k * ONE)).isInt = true := by
  rw [Double.isInt, Nat.mul_mod_left]
  rfl

theorem toI_whole (a : Bool) {k : ℕ} (hk : k < 10 ^ 21) :
    (Double.fin a (k * ONE)).toI 128 = signed a k := by
  rw [Double.toI, Double.cast, Nat.mul_div_cancel _ ONE_pos, signed]
  split <;> omega

theorem toString_signed (a : Bool) {k : ℕ} (hk : k ≠ 0) :
    toString (signed a k) = String.ofList (if a then '-' :: Nat.toDigits 10 k
      else Nat.toDigits 10 k) := by
  cases a with
  | false => rfl
  | true =>
      obtain ⟨j, rfl⟩ := Nat.exists_eq_succ_of_ne_zero hk
      change "-" ++ Nat.repr (j + 1) = _
      rw [← String.toList_inj]
      simp [Nat.toList_repr]

/-- **An integer below `10 ^ 21`** is printed with all its digits. -/
theorem numToStr_whole (a : Bool) {k : ℕ} (hk : k ≠ 0) (hlt : k < 10 ^ 21) :
    numToStr (.fin a (k * ONE)) = String.ofList (if a then '-' :: Nat.toDigits 10 k
      else Nat.toDigits 10 k) := by
  have hne : k * ONE ≠ 0 := Nat.mul_ne_zero hk ONE_pos.ne'
  have hnan : (Double.fin a (k * ONE)).isNan = false := rfl
  have hinf : (Double.fin a (k * ONE)).isInfinite = false := rfl
  have hsmall : k * ONE < 10 ^ 21 * ONE := Nat.mul_lt_mul_of_pos_right hlt ONE_pos
  rw [numToStr, hnan, hinf, Double.eq_zero_fin, decide_eq_false hne, isInt_whole, abs_lt_limit,
    decide_eq_true hsmall, toI_whole a hlt, toString_signed a hk]
  rfl

theorem numToStr_zero (a : Bool) : numToStr (.fin a 0) = "0" := by
  have hnan : (Double.fin a 0).isNan = false := rfl
  rw [numToStr, Double.eq_zero_fin, hnan, if_neg Bool.false_ne_true, if_pos (by decide)]

end Interp
end Lunar
