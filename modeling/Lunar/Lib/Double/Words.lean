/-
# Doubles from their words

The bits of a double come as two words of 32 bits, and the double is put together by
arithmetic: the fields are masked out, the fraction is joined from its two pieces, and a
power of two scales it.  Every step but the last is exact, so the result is the double with
these bits whenever the power is (`ofWords_bits`).
-/

import Mathlib.Data.Nat.Bitwise
import Lunar.Lib.Double

namespace Lunar
namespace Lib
namespace Double

/-- The double of two words, with `pow` for the powers of two. -/
def ofWords (pow : ℤ → Double) (hi lo : BitVec 32) : Double :=
  let sign := if hi &&& BitVec.ofInt 32 (-2147483648) ≠ 0 then one.neg else one
  let exp := ((hi &&& 2146435072).sshiftRight 20).toInt
  let x := ((ofInt (hi &&& 1048575).toInt).mul (ofInt 4294967296)).add (ofInt lo.toNat)
  if exp = 2047 then
    if ¬ x.eq .zero then .nan else sign.mul (.inf false)
  else
    let (x, exp) := if exp ≠ 0 then (x.add (ofInt 4503599627370496), exp) else (x, exp + 1)
    (sign.mul x).mul (pow (exp - 1075))

/-! ## The fields of the first word -/

theorem sign_word (hi : BitVec 32) : hi &&& BitVec.ofInt 32 (-2147483648) ≠ 0 ↔ hi.msb = true := by
  have hand : (hi &&& BitVec.ofInt 32 (-2147483648)).toNat = hi.msb.toNat * 2 ^ 31 := by
    rw [BitVec.toNat_and, BitVec.msb_eq_getLsbD_last]
    exact Nat.and_two_pow hi.toNat 31
  constructor
  · intro h
    by_contra hno
    refine h (BitVec.eq_of_toNat_eq ?_)
    rw [hand, Bool.eq_false_iff.2 hno]
    rfl
  · intro h hzero
    rw [hzero, h] at hand
    exact absurd hand (by decide)

theorem exp_word (hi : BitVec 32) :
    ((hi &&& 2146435072).sshiftRight 20).toInt = (hi.toNat / 2 ^ 20 % 2 ^ 11 : ℕ) := by
  have hand : (hi &&& 2146435072).toNat / 2 ^ 20 = hi.toNat / 2 ^ 20 % 2 ^ 11 := by
    rw [BitVec.toNat_and, ← Nat.shiftRight_eq_div_pow, Nat.shiftRight_and_distrib,
      Nat.shiftRight_eq_div_pow, ← Nat.and_two_pow_sub_one_eq_mod]
    rfl
  have hlt : (hi &&& 2146435072).toNat < 2 ^ 31 := by
    rw [BitVec.toNat_and]
    exact Nat.lt_of_le_of_lt Nat.and_le_right (by decide)
  rw [BitVec.toInt_sshiftRight, BitVec.toInt_eq_toNat_of_lt (by omega), Int.shiftRight_eq_div_pow]
  show ((hi &&& 2146435072).toNat : ℤ) / ((2 ^ 20 : ℕ) : ℤ) = _
  rw [← Int.natCast_ediv, hand]

theorem mant_word (hi : BitVec 32) : (hi &&& 1048575).toInt = (hi.toNat % 2 ^ 20 : ℕ) := by
  have hand : (hi &&& 1048575).toNat = hi.toNat % 2 ^ 20 := by
    rw [BitVec.toNat_and]
    exact Nat.and_two_pow_sub_one_eq_mod hi.toNat 20
  rw [BitVec.toInt_eq_toNat_of_lt (by rw [hand]; omega), hand]

/-! ## Exact steps -/

theorem ofInt_natCast (n : ℕ) : ofInt n = .fin false (n * ONE) := by
  rw [ofInt, Int.natAbs_natCast, decide_eq_false (Int.not_lt.2 (Int.natCast_nonneg n))]

/-- Numbers of 53 bits times a power of two are finite. -/
theorem mul_pow_lt {m j : ℕ} (hm : m < 2 ^ 53) (hj : j ≤ 2045) : m * 2 ^ j < HUGE := by
  have hlt : m * 2 ^ j < 2 ^ (53 + j) := by
    rw [Nat.pow_add]
    exact Nat.mul_lt_mul_of_pos_right hm (Nat.two_pow_pos j)
  rw [HUGE]
  exact Nat.lt_of_lt_of_le hlt (Nat.pow_le_pow_right Nat.two_pos (by omega))

theorem ofQuot_pow (neg : Bool) {m j : ℕ} (hm : m < 2 ^ 53) (hj : j ≤ 2045) :
    ofQuot neg (m * 2 ^ j) 1 = .fin neg (m * 2 ^ j) := by
  have hexact := ofQuot_exact neg hm Nat.one_pos (mul_pow_lt hm hj)
  rwa [Nat.mul_one] at hexact

theorem add_whole {a b : ℕ} (h : a + b < 2 ^ 53) :
    (fin false (a * ONE)).add (.fin false (b * ONE)) = .fin false ((a + b) * ONE) := by
  have hsum : signed false (a * ONE) + signed false (b * ONE)
      = ((a + b) * ONE : ℕ) := by
    show ((a * ONE : ℕ) : ℤ) + ((b * ONE : ℕ) : ℤ) = _
    rw [← Int.natCast_add, Nat.add_mul]
  show addFin false (a * ONE) false (b * ONE) = _
  unfold addFin
  dsimp only
  rw [hsum]
  by_cases hzero : (a + b) * ONE = 0
  · rw [hzero]
    rfl
  · rw [if_neg (by exact_mod_cast hzero), Int.natAbs_natCast,
      decide_eq_false (Int.not_lt.2 (Int.natCast_nonneg _))]
    exact ofQuot_pow false h (by decide)

theorem mul_whole {a b : ℕ} (neg neg' : Bool) (h : a * b < 2 ^ 53) :
    (fin neg (a * ONE)).mul (.fin neg' (b * ONE)) = .fin (neg != neg') (a * b * ONE) := by
  have hprod : a * ONE * (b * ONE) = a * b * ONE * ONE := by
    rw [Nat.mul_mul_mul_comm, Nat.mul_assoc (a * b)]
  show ofQuot _ _ _ = _
  rw [hprod]
  exact ofQuot_exact _ h ONE_pos (mul_pow_lt h (by decide))

theorem mul_inf {m : ℕ} (neg neg' : Bool) (hm : m ≠ 0) :
    (fin neg m).mul (.inf neg') = .inf (neg != neg') := if_neg hm

theorem eq_zero (m : ℕ) : (fin false (m * ONE)).eq .zero ↔ m = 0 := by
  have hcmp : (fin false (m * ONE)).cmp .zero
      = some (compare ((m * ONE : ℕ) : ℤ) ((0 : ℕ) : ℤ)) := rfl
  rw [eq, hcmp, beq_iff_eq, Option.some.injEq, compare_eq_iff_eq, Int.natCast_inj,
    Nat.mul_eq_zero]
  have hone := ONE_pos
  omega

/-- A whole number times a power of two. -/
theorem mul_pow {a k : ℕ} (neg neg' : Bool) (ha : a < 2 ^ 53) (hk : a * 2 ^ k < HUGE) :
    (fin neg (a * ONE)).mul (.fin neg' (2 ^ k)) = .fin (neg != neg') (a * 2 ^ k) := by
  have hprod : a * ONE * 2 ^ k = a * 2 ^ k * ONE := Nat.mul_right_comm _ _ _
  show ofQuot _ _ _ = _
  rw [hprod]
  exact ofQuot_exact _ ha ONE_pos hk

/-- The bits of two words. -/
theorem toNat_words (hi lo : BitVec 32) : (hi ++ lo).toNat = hi.toNat * 2 ^ 32 + lo.toNat := by
  rw [BitVec.toNat_append, ← Nat.shiftLeft_add_eq_or_of_lt lo.isLt, Nat.shiftLeft_eq]

theorem msb_words (hi lo : BitVec 32) : (hi ++ lo).msb = hi.msb := by
  have hnat := toNat_words hi lo
  have hlo := lo.isLt
  rw [BitVec.msb_eq_decide, BitVec.msb_eq_decide]
  exact decide_eq_decide.2 (by omega)

/-- The exponent of a double: the steps that its last bit stands for, as a power of two. -/
def scale (b : BitVec 64) : ℕ := b.toNat / 2 ^ 52 % 2 ^ 11 - 1

/-- The digits of a double, with the bit that the exponent implies. -/
def significand (b : BitVec 64) : ℕ :=
  if b.toNat / 2 ^ 52 % 2 ^ 11 = 0 then b.toNat % 2 ^ 52 else 2 ^ 52 + b.toNat % 2 ^ 52

theorem significand_lt (b : BitVec 64) : significand b < 2 ^ 53 := by
  rw [significand]
  have hlt : b.toNat % 2 ^ 52 < 2 ^ 52 := Nat.mod_lt _ (Nat.two_pow_pos 52)
  split <;> omega

/-- The finite doubles. -/
theorem ofBits_fin {b : BitVec 64} (h : b.toNat / 2 ^ 52 % 2 ^ 11 ≠ 2047) :
    ofBits b = .fin b.msb (significand b * 2 ^ scale b) := by
  unfold ofBits significand scale
  dsimp only
  rw [if_neg h]
  split
  · next hzero => rw [hzero, Nat.zero_sub, Nat.pow_zero, Nat.mul_one]
  · rfl

/-- The sign as a double. -/
theorem sign_one (hi lo : BitVec 32) :
    (if hi &&& BitVec.ofInt 32 (-2147483648) ≠ 0 then one.neg else one)
      = fin (hi ++ lo).msb (1 * ONE) := by
  rw [if_congr (sign_word hi) rfl rfl, Nat.one_mul, msb_words]
  cases hi.msb
  · rfl
  · rfl

theorem exp_words (hi lo : BitVec 32) :
    ((hi &&& 2146435072).sshiftRight 20).toInt
      = ((hi ++ lo).toNat / 2 ^ 52 % 2 ^ 11 : ℕ) := by
  have hnat := toNat_words hi lo
  have hlo := lo.isLt
  have hexp : (hi ++ lo).toNat / 2 ^ 52 % 2 ^ 11 = hi.toNat / 2 ^ 20 % 2 ^ 11 := by omega
  rw [exp_word, hexp]

/-- The fraction, joined from its two pieces. -/
theorem frac_words (hi lo : BitVec 32) :
    ((ofInt (hi &&& 1048575).toInt).mul (ofInt 4294967296)).add (ofInt lo.toNat)
      = fin false ((hi ++ lo).toNat % 2 ^ 52 * ONE) := by
  have hhi := hi.isLt
  have hlo := lo.isLt
  have hnat := toNat_words hi lo
  have hfrac : (hi ++ lo).toNat % 2 ^ 52 = hi.toNat % 2 ^ 20 * 2 ^ 32 + lo.toNat := by omega
  have htwo : ofInt 4294967296 = .fin false (2 ^ 32 * ONE) :=
    (congrArg ofInt (by decide)).trans (ofInt_natCast (2 ^ 32))
  rw [mant_word, ofInt_natCast, ofInt_natCast, htwo, mul_whole _ _ (by omega), hfrac]
  exact add_whole (by omega)

theorem one_mul_whole {m : ℕ} (neg : Bool) (hm : m < 2 ^ 53) :
    (fin neg (1 * ONE)).mul (.fin false (m * ONE)) = .fin neg (m * ONE) := by
  rw [mul_whole _ _ (by omega), Nat.one_mul, Bool.bne_false]

/-- The infinities and the NaNs do not meet the power. -/
theorem ofWords_special (pow : ℤ → Double) {hi lo : BitVec 32}
    (h : (hi ++ lo).toNat / 2 ^ 52 % 2 ^ 11 = 2047) :
    ofWords pow hi lo = .ofBits (hi ++ lo) := by
  unfold ofWords ofBits
  dsimp only
  rw [exp_words hi lo, frac_words, sign_one hi lo, if_pos (by omega), if_pos h]
  by_cases hzero : (hi ++ lo).toNat % 2 ^ 52 = 0
  · have hone : 1 * ONE ≠ 0 := (Nat.mul_pos Nat.one_pos ONE_pos).ne'
    rw [if_pos hzero, if_neg (not_not.2 ((eq_zero _).2 hzero)), mul_inf _ _ hone, Bool.bne_false]
  · rw [if_neg hzero, if_pos (mt (eq_zero _).1 hzero)]

/-- The finite doubles are their digits times the power. -/
theorem ofWords_fin (pow : ℤ → Double) {hi lo : BitVec 32}
    (h : (hi ++ lo).toNat / 2 ^ 52 % 2 ^ 11 ≠ 2047) :
    ofWords pow hi lo = (fin (hi ++ lo).msb (significand (hi ++ lo) * ONE)).mul
      (pow (scale (hi ++ lo) - 1074)) := by
  have hlt : (hi ++ lo).toNat % 2 ^ 52 < 2 ^ 52 := Nat.mod_lt _ (Nat.two_pow_pos 52)
  unfold ofWords significand scale
  dsimp only
  rw [exp_words hi lo, frac_words, sign_one hi lo, if_neg (by omega)]
  by_cases hzero : (hi ++ lo).toNat / 2 ^ 52 % 2 ^ 11 = 0
  · rw [if_neg (by omega), if_pos hzero, hzero]
    dsimp only
    rw [one_mul_whole _ (by omega)]
    rfl
  · have htwo : ofInt 4503599627370496 = .fin false (2 ^ 52 * ONE) :=
      (congrArg ofInt (by decide)).trans (ofInt_natCast (2 ^ 52))
    have hscale : (((hi ++ lo).toNat / 2 ^ 52 % 2 ^ 11 : ℕ) : ℤ) - 1075
        = (((hi ++ lo).toNat / 2 ^ 52 % 2 ^ 11 - 1 : ℕ) : ℤ) - 1074 := by omega
    rw [if_pos (by omega), if_neg hzero]
    dsimp only
    rw [htwo, add_whole (by omega), one_mul_whole _ (by omega), hscale,
      Nat.add_comm _ (2 ^ 52)]

theorem scale_le {b : BitVec 64} (h : b.toNat / 2 ^ 52 % 2 ^ 11 ≠ 2047) : scale b ≤ 2045 := by
  have hlt : b.toNat / 2 ^ 52 % 2 ^ 11 < 2 ^ 11 := Nat.mod_lt _ (Nat.two_pow_pos 11)
  rw [scale]
  omega

/-- **The double of two words has them as its bits**, when the powers of two are exact. -/
theorem ofWords_bits {pow : ℤ → Double}
    (hpow : ∀ k : ℕ, k ≤ 2045 → pow ((k : ℤ) - 1074) = .fin false (2 ^ k)) (hi lo : BitVec 32) :
    ofWords pow hi lo = .ofBits (hi ++ lo) := by
  by_cases h : (hi ++ lo).toNat / 2 ^ 52 % 2 ^ 11 = 2047
  · exact ofWords_special pow h
  · have hscale := scale_le h
    rw [ofWords_fin pow h, ofBits_fin h, hpow _ hscale, mul_pow _ _ (significand_lt _)
      (mul_pow_lt (significand_lt _) hscale), Bool.bne_false]

end Double
end Lib
end Lunar
