/-
# The doubles of the payload

The payload scales a double with `powi`, which multiplies twos and takes the reciprocal at
the end.  From 1024 factors on the product is infinite and the reciprocal zero, so the
doubles with an exponent field below 52 come out as zeros: the subnormals, and the
smallest normal ones with them.  The worktime disassembler takes its powers of two from
their bits and is right on all of them.
-/

import Lunar.Lib.Double.Words
import Lunar.Payload.Disasm
import Lunar.Worktime.Disassembler.Doubles

namespace Lunar
namespace Disasm

open Lib (Double)
open Lib.Double (ONE ONE_pos HUGE ofQuot_exact ofWords ofWords_special ofWords_fin ofBits_fin
  scale scale_le significand significand_lt mul_pow mul_pow_lt powi_two powi_two_neg two)

theorem double_words (hi lo : BitVec 32) :
    double hi.toInt lo.toInt = ofWords two.powi hi lo := by
  have hdouble (hi lo : ℤ) :
      double hi lo = ofWords two.powi (.ofInt 32 hi) (.ofInt 32 lo) := rfl
  rw [hdouble, BitVec.ofInt_toInt, BitVec.ofInt_toInt]

/-- The powers of two that `double` asks for. -/
theorem powi_scale {k : ℕ} (hk : k ≤ 2045) :
    two.powi ((k : ℤ) - 1074) = if 51 ≤ k then .fin false (2 ^ k) else .zero := by
  by_cases hneg : k < 1074
  · exact powi_two_neg hneg
  · have hexp : (k : ℤ) - 1074 = ((k - 1074 : ℕ) : ℤ) := by omega
    have hsum : k - 1074 + 1074 = k := by omega
    rw [hexp, powi_two (by omega), if_pos (by omega), Lib.Double.pow_mul_one, hsum]

/-- A zero leaves nothing of the digits. -/
theorem mul_zero (neg : Bool) (m : ℕ) : (Double.fin neg (m * ONE)).mul .zero = .fin neg 0 := by
  have hzero : m * ONE * 0 = 0 * 2 ^ 0 * ONE := by
    rw [Nat.mul_zero, Nat.zero_mul, Nat.zero_mul]
  show Double.ofQuot (neg != false) (m * ONE * 0) ONE = _
  rw [hzero, ofQuot_exact _ (by decide) ONE_pos (by rw [HUGE]; exact Nat.two_pow_pos _),
    Nat.zero_mul, Bool.bne_false]

/-- What the payload reads for the finite doubles. -/
theorem double_fin {hi lo : BitVec 32} (h : (hi ++ lo).toNat / 2 ^ 52 % 2 ^ 11 ≠ 2047) :
    double hi.toInt lo.toInt =
      if 51 ≤ scale (hi ++ lo) then .ofBits (hi ++ lo) else .fin (hi ++ lo).msb 0 := by
  have hscale := scale_le h
  rw [double_words, ofWords_fin _ h, powi_scale hscale]
  by_cases hlow : 51 ≤ scale (hi ++ lo)
  · rw [if_pos hlow, if_pos hlow, ofBits_fin h, mul_pow _ _ (significand_lt _)
      (mul_pow_lt (significand_lt _) hscale), Bool.bne_false]
  · rw [if_neg hlow, if_neg hlow, mul_zero]

theorem mul_scale_eq_zero (b : BitVec 64) :
    significand b * 2 ^ scale b = 0 ↔ b.toNat % 2 ^ 63 = 0 := by
  have hpos := (Nat.two_pow_pos (scale b)).ne'
  rw [Nat.mul_eq_zero, or_iff_left hpos, significand]
  split <;> omega

/-- **The double decoders against the bits.**  The worktime disassembler reads every pair of
words as the double with these bits.  The payload agrees exactly on the zeros and on the
doubles with an exponent field from 52 on; the other small doubles it reads as zeros. -/
theorem doubles_agree (hi lo : BitVec 32) :
    Worktime.double hi lo = .ofBits (hi ++ lo)
      ∧ ((double hi.toInt lo.toInt = .ofBits (hi ++ lo)
          ∧ double hi.toInt lo.toInt = Worktime.double hi lo)
        ↔ 52 ≤ (hi ++ lo).toNat / 2 ^ 52 % 2 ^ 11 ∨ (hi ++ lo).toNat % 2 ^ 63 = 0) := by
  have hworktime := Worktime.double_eq hi lo
  refine ⟨hworktime, ?_⟩
  rw [hworktime, and_self_iff]
  by_cases h : (hi ++ lo).toNat / 2 ^ 52 % 2 ^ 11 = 2047
  · have hspecial := ofWords_special two.powi h
    rw [double_words, hspecial]
    exact iff_of_true rfl (.inl (by omega))
  · rw [double_fin h]
    by_cases hlow : 51 ≤ scale (hi ++ lo)
    · rw [if_pos hlow]
      rw [scale] at hlow
      exact iff_of_true rfl (.inl (by omega))
    · rw [if_neg hlow, ofBits_fin h, Double.fin.injEq, eq_comm (a := 0), mul_scale_eq_zero]
      rw [scale] at hlow
      constructor
      · rintro ⟨-, hzero⟩
        exact .inr hzero
      · rintro (hhigh | hzero)
        · omega
        · exact ⟨rfl, hzero⟩

/-- The smallest double is read as zero. -/
theorem doubles_differ :
    double (0 : BitVec 32).toInt (1 : BitVec 32).toInt = .fin false 0
      ∧ Worktime.double 0 1 = .fin false 1
      ∧ double (0 : BitVec 32).toInt (1 : BitVec 32).toInt
        ≠ .ofBits ((0 : BitVec 32) ++ (1 : BitVec 32)) := by
  have hbits : Double.ofBits ((0 : BitVec 32) ++ (1 : BitVec 32)) = .fin false 1 := by decide
  have hpayload : double (0 : BitVec 32).toInt (1 : BitVec 32).toInt = .fin false 0 := by
    rw [double_fin (by decide)]
    decide
  refine ⟨hpayload, ?_, ?_⟩
  · rw [Worktime.double_eq]
    exact hbits
  · rw [hpayload, hbits]
    decide

end Disasm
end Lunar
