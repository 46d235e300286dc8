/-
# Bounds of doubles

`f64::max`, the bounds that the results of roundings keep, and the doubles of given bits.
-/

import Lunar.Lib.Double.Monotone
import Lunar.Lib.Double.Power

namespace Lunar
namespace Lib
namespace Double

/-- `f64::max`. -/
def fmax (x y : Double) : Double :=
  if x.isNan then y else if y.isNan then x else if x.gt y then x else y

theorem fmax_fin (m : ℕ) : fmax (.fin false m) .zero = .fin false m := by
  rw [fmax, if_neg (by simp [isNan]), if_neg (by simp [isNan, zero])]
  split
  · rfl
  · next h =>
      rw [zero, gt, cmp_fin, beq_iff_eq, Option.some.injEq, compare_gt_iff_gt, signed, signed,
        if_neg Bool.false_ne_true, if_neg Bool.false_ne_true] at h
      obtain rfl : m = 0 := by omega
      rfl

theorem fmax_neg (m : ℕ) : fmax (.fin true m) .zero = .zero := by
  rw [fmax, if_neg (by simp [isNan]), if_neg (by simp [isNan, zero])]
  split
  · next h =>
      rw [zero, gt, cmp_fin, beq_iff_eq, Option.some.injEq, compare_gt_iff_gt, signed, signed,
        if_neg Bool.false_ne_true, if_pos rfl] at h
      omega
  · rfl

theorem ofQuot_lt {neg : Bool} {n d : ℕ} (h : round53 n d < HUGE) :
    ofQuot neg n d = .fin neg (round53 n d) := if_neg (Nat.not_le.2 h)

theorem whole_lt_huge {n : ℕ} (h : n ≤ 2 ^ 53) : n * ONE < HUGE :=
  (Nat.mul_le_mul_right ONE h).trans_lt (by
    rw [pow_mul_one, HUGE]
    exact Nat.pow_lt_pow_right Nat.one_lt_two (by omega))

theorem pow_lt_huge {j : ℕ} (hj : j < 2098) : 2 ^ j < HUGE :=
  Nat.pow_lt_pow_right Nat.one_lt_two hj

/-- A quotient up to an integer rounds to no more. -/
theorem round53_le_whole {n d k : ℕ} (hd : 0 < d) (hk : k < 2 ^ 53) (h : n ≤ k * ONE * d) :
    round53 n d ≤ k * ONE := by
  have hexact := round53_exact (j := 1074) hk hd
  rw [← ONE] at hexact
  exact (round53_mono hd hd (Nat.mul_le_mul_right d h)).trans hexact.le

/-- What lies between two finite doubles is finite. -/
theorem finite_of_between {a b : Bool} {m n : ℕ} {x : Double} (h : (fin a m).le x = true)
    (h' : x.le (.fin b n) = true) : x.isFinite = true := by
  cases x with
  | nan => cases h
  | inf neg =>
      cases neg
      · cases h'
      · cases h
  | fin _ _ => rfl

theorem le_trans_fin {a : Bool} {m : ℕ} {x y : Double} (hx : x.isFinite = true)
    (hy : y.isFinite = true) (h : x.le (.fin a m) = true) (h' : (fin a m).le y = true) :
    x.le y = true := by
  cases x with
  | nan => cases hx
  | inf _ => cases hx
  | fin _ _ =>
      cases y with
      | nan => cases hy
      | inf _ => cases hy
      | fin _ _ =>
          rw [le_fin, decide_eq_true_iff] at h h' ⊢
          exact h.trans h'

/-- The difference of two magnitudes is positive. -/
theorem sub_gt_zero {m n : ℕ} (h : n < m) : ((fin false m).sub (.fin false n)).gt .zero = true := by
  have hsum : signed false m + signed true n = ((m - n : ℕ) : ℤ) := by
    simp only [signed, if_true, Bool.false_eq_true, if_false]
    omega
  have hone : round53 1 1 = 1 := by decide
  have hpos : 1 ≤ round53 (m - n) 1 :=
    hone.ge.trans (round53_mono Nat.one_pos Nat.one_pos (by omega))
  have hneg : decide (((m - n : ℕ) : ℤ) < 0) = false := decide_eq_false (by omega)
  rw [sub, neg, add, Bool.not_false, addFin, hsum]
  rw [if_neg (by omega), hneg, Int.natAbs_natCast, ofQuot]
  split
  · rfl
  · rw [zero, gt, cmp_fin, beq_iff_eq, Option.some.injEq, compare_gt_iff_gt]
    simp only [signed, Bool.false_eq_true, if_false]
    omega

/-- A difference of 53 bits is exact. -/
theorem sub_exact {m n a j : ℕ} (h : m = n + a * 2 ^ j) (ha : a < 2 ^ 53)
    (hhuge : a * 2 ^ j < HUGE) : (fin false m).sub (.fin false n) = .fin false (a * 2 ^ j) := by
  have hsum : signed false m + signed true n = ((a * 2 ^ j : ℕ) : ℤ) := by
    simp only [signed, if_true, Bool.false_eq_true, if_false]
    omega
  have hneg : decide (((a * 2 ^ j : ℕ) : ℤ) < 0) = false := decide_eq_false (by omega)
  have hexact := ofQuot_exact false ha Nat.one_pos hhuge
  rw [Nat.mul_one] at hexact
  rw [sub, neg, add, Bool.not_false, addFin, hsum]
  split
  · next hzero =>
      have hzero' : a * 2 ^ j = 0 := by omega
      rw [hzero']
      rfl
  · rw [hneg, Int.natAbs_natCast, hexact]

theorem cmp_pos (m n : ℕ) : (fin false m).cmp (.fin false n) = some (compare m n) := by
  rw [cmp_fin]
  simp only [signed, Bool.false_eq_true, if_false]
  rcases Nat.lt_trichotomy m n with h | h | h
  · rw [Int.compare_eq_lt.2 (by omega), Nat.compare_eq_lt.2 h]
  · rw [Int.compare_eq_eq.2 (by omega), Nat.compare_eq_eq.2 h]
  · rw [Int.compare_eq_gt.2 (by omega), Nat.compare_eq_gt.2 h]

theorem lt_pos {m n : ℕ} : (fin false m).lt (.fin false n) = true ↔ m < n := by
  rw [lt, cmp_pos, beq_iff_eq, Option.some.injEq, Nat.compare_eq_lt]

theorem gt_pos {m n : ℕ} : (fin false m).gt (.fin false n) = true ↔ n < m := by
  rw [gt, cmp_pos, beq_iff_eq, Option.some.injEq, Nat.compare_eq_gt]

theorem ge_pos {m n : ℕ} : (fin false m).ge (.fin false n) = true ↔ n ≤ m := by
  rw [ge_fin, decide_eq_true_iff, signed, signed, if_neg Bool.false_ne_true,
    if_neg Bool.false_ne_true, Int.ofNat_le]

theorem eq_pos {m n : ℕ} : (fin false m).eq (.fin false n) = true ↔ m = n := by
  rw [eq, cmp_pos, beq_iff_eq, Option.some.injEq, Nat.compare_eq_eq]

theorem toU_fin {bits m : ℕ} (h : m / ONE < 2 ^ bits) : (fin false m).toU bits = m / ONE := by
  have hcast : ((2 ^ bits : ℕ) : ℤ) = 2 ^ bits := by push_cast; rfl
  rw [toU, Double.cast, signed, if_neg Bool.false_ne_true, ← hcast, min_eq_right (by omega),
    max_eq_right (Int.natCast_nonneg _), Int.toNat_natCast]

/-! ## The fields of the bits -/

/-- The magnitude of some bits. -/
theorem isDouble_ofBits {b : BitVec 64} {neg : Bool} {m : ℕ} (h : ofBits b = .fin neg m) :
    IsDouble m := by
  have hfrac : b.toNat % 2 ^ 52 < 2 ^ 52 := Nat.mod_lt _ (Nat.two_pow_pos 52)
  have hexp : b.toNat / 2 ^ 52 % 2 ^ 11 < 2 ^ 11 := Nat.mod_lt _ (Nat.two_pow_pos 11)
  have hhuge : 2 ^ 53 * 2 ^ 2045 = HUGE := by rw [← Nat.pow_add, HUGE]
  rw [ofBits] at h
  generalize b.toNat % 2 ^ 52 = frac at *
  generalize b.toNat / 2 ^ 52 % 2 ^ 11 = exp at *
  split at h
  · split at h <;> cases h
  split at h
  · obtain ⟨-, rfl⟩ := Double.fin.inj h
    refine ⟨?_, frac, 0, by omega, by rw [Nat.pow_zero, Nat.mul_one]⟩
    rw [← hhuge]
    exact (hfrac.trans (by omega)).trans_le (Nat.le_mul_of_pos_right _ (Nat.two_pow_pos 2045))
  · obtain ⟨-, rfl⟩ := Double.fin.inj h
    refine ⟨?_, 2 ^ 52 + frac, exp - 1, by omega, rfl⟩
    rw [← hhuge]
    exact (Nat.mul_lt_mul_of_pos_right (by omega) (Nat.two_pow_pos _)).trans_le
      (Nat.mul_le_mul_left _ (Nat.pow_le_pow_right Nat.two_pos (by omega)))

/-- The fields of bits without a sign. -/
theorem ofBits_ofNat (exp frac : ℕ) (hexp : exp < 2047) (hfrac : frac < 2 ^ 52) :
    ofBits (.ofNat 64 (exp * 2 ^ 52 + frac)) =
      .fin false (if exp = 0 then frac else (2 ^ 52 + frac) * 2 ^ (exp - 1)) := by
  have hlt : exp * 2 ^ 52 + frac < 2 ^ 63 := by omega
  have hnat : (BitVec.ofNat 64 (exp * 2 ^ 52 + frac)).toNat = exp * 2 ^ 52 + frac := by
    rw [BitVec.toNat_ofNat, Nat.mod_eq_of_lt (by omega)]
  have hmsb : (BitVec.ofNat 64 (exp * 2 ^ 52 + frac)).msb = false := by
    rw [BitVec.msb_eq_decide, hnat]
    exact decide_eq_false (by omega)
  have hexp' : (exp * 2 ^ 52 + frac) / 2 ^ 52 % 2 ^ 11 = exp := by omega
  have hfrac' : (exp * 2 ^ 52 + frac) % 2 ^ 52 = frac := by omega
  rw [ofBits, hnat, hmsb, hexp', hfrac', if_neg (by omega)]
  split
  · rfl
  · rfl

end Double
end Lib
end Lunar
