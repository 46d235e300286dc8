/-
# The doubles of the worktime bytecode

`double` puts a double together by arithmetic on doubles, with the powers of two from their
bits (`pow2`).  Every step is exact, so the result is the double that has the two words as
its bits (`double_eq`), and no double but a NaN changes on the way to its words and back.
-/

import Lunar.Lib.Double.Words
import Lunar.Worktime.Disassembler

namespace Lunar
namespace Worktime

open Lib (Double)
open Lib.Double (ofWords ofWords_bits)

/-- A double of bits below the exponent. -/
theorem ofBits_low {n : ℕ} (hn : n < 2 ^ 52) : Double.ofBits (.ofNat 64 n) = .fin false n := by
  have hnat : (BitVec.ofNat 64 n).toNat = n := by
    rw [BitVec.toNat_ofNat, Nat.mod_eq_of_lt (by omega)]
  have hmsb : (BitVec.ofNat 64 n).msb = false := by
    rw [BitVec.msb_eq_decide, hnat]
    exact decide_eq_false (by omega)
  unfold Double.ofBits
  dsimp only
  rw [hnat, hmsb, Nat.div_eq_of_lt hn, Nat.mod_eq_of_lt hn, if_neg (by decide), if_pos (by decide)]

/-- A double of an exponent alone. -/
theorem ofBits_high {e : ℕ} (hpos : 0 < e) (he : e < 2047) :
    Double.ofBits (.ofNat 64 (e * 2 ^ 52)) = .fin false (2 ^ 52 * 2 ^ (e - 1)) := by
  have hnat : (BitVec.ofNat 64 (e * 2 ^ 52)).toNat = e * 2 ^ 52 := by
    rw [BitVec.toNat_ofNat, Nat.mod_eq_of_lt (by omega)]
  have hmsb : (BitVec.ofNat 64 (e * 2 ^ 52)).msb = false := by
    rw [BitVec.msb_eq_decide, hnat]
    exact decide_eq_false (by omega)
  have hexp : e * 2 ^ 52 / 2 ^ 52 % 2 ^ 11 = e := by omega
  unfold Double.ofBits
  dsimp only
  rw [hnat, hmsb, hexp, Nat.mul_mod_left, if_neg (by omega), if_neg (by omega), Nat.add_zero]

/-- A power of two. -/
theorem pow2_eq {k : ℕ} (hk : k ≤ 2045) : pow2 ((k : ℤ) - 1074) = .fin false (2 ^ k) := by
  have hlow : MIN_NORMAL_EXP = -1022 := rfl
  have hshift : SUBNORMAL_SHIFT = 1074 := rfl
  have hbias : IEEE_BIAS = 1023 := rfl
  unfold pow2
  rw [hlow, hshift, hbias]
  by_cases hsub : k < 52
  · have hbits : (1 : BitVec 64) <<< k = BitVec.ofNat 64 (2 ^ k) :=
      BitVec.eq_of_toNat_eq (by
        rw [BitVec.toNat_shiftLeft, BitVec.toNat_ofNat, Nat.shiftLeft_eq]
        show 1 * 2 ^ k % 2 ^ 64 = _
        rw [Nat.one_mul])
    have hk' : ((k : ℤ) - 1074 + 1074).toNat = k := by omega
    rw [if_neg (by omega), hk', hbits]
    exact ofBits_low (Nat.pow_lt_pow_right (by decide) hsub)
  · have hk' : (k : ℤ) - 1074 + 1023 = (k - 51 : ℕ) := by omega
    have hbits : BitVec.ofInt 64 ((k - 51 : ℕ) : ℤ) <<< MANT_BITS
        = BitVec.ofNat 64 ((k - 51) * 2 ^ 52) :=
      BitVec.eq_of_toNat_eq (by
        rw [BitVec.toNat_shiftLeft, BitVec.ofInt_natCast, BitVec.toNat_ofNat, BitVec.toNat_ofNat,
          Nat.shiftLeft_eq]
        show (k - 51) % 2 ^ 64 * 2 ^ 52 % 2 ^ 64 = _
        rw [Nat.mod_mul_mod])
    have hone : k - 51 - 1 = k - 52 := by omega
    have hsum : 52 + (k - 52) = k := by omega
    rw [if_pos (by omega), hk', hbits, ofBits_high (by omega) (by omega), hone, ← Nat.pow_add,
      hsum]

/-- **The double of two words has them as its bits.** -/
theorem double_eq (hi lo : Word) : double hi lo = .ofBits (hi ++ lo) := by
  have hwords : double hi lo = ofWords pow2 hi lo := rfl
  rw [hwords]
  exact ofWords_bits (fun _ => pow2_eq) hi lo

end Worktime
end Lunar
