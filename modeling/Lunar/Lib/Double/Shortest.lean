/-
# The fewest digits of a double

The decimals that read back as a double form an interval (`reads_between`), so of the decimals
with `k` digits one of the two next to the double reads back if any does (`withDigits_isSome`).
Seventeen digits always suffice (`withDigits_seventeen`), and so `fewest` finds the least number of
digits with which the double can be written at all (`fewest_spec`).
-/

import Mathlib.Algebra.Order.Field.Rat
import Mathlib.Algebra.Order.Field.Power
import Mathlib.Tactic.Linarith
import Mathlib.Tactic.FieldSimp
import Mathlib.Tactic.Positivity
import Lunar.Lib.Double.Monotone

namespace Lunar
namespace Lib
namespace Double

/-- The magnitude of a decimal, not rounded. -/
def decimal (c : ℕ) (e : ℤ) : ℚ := c * 10 ^ e * ONE

/-- A decimal reads back as a magnitude. -/
def Reads (m c : ℕ) (e : ℤ) : Prop := ofDecimal false c e = .fin false m

theorem ten_zpow (e : ℤ) : (10 : ℚ) ^ e = 10 ^ e.toNat / 10 ^ (-e).toNat := by
  rcases Int.le_total 0 e with h | h
  · obtain ⟨n, rfl⟩ := Int.eq_ofNat_of_zero_le h
    have hneg : (-(n : ℤ)).toNat = 0 := by omega
    rw [hneg, Int.toNat_natCast, zpow_natCast, pow_zero, div_one]
  · obtain ⟨n, hn⟩ := Int.exists_eq_neg_ofNat h
    subst hn
    have hpos : (-(n : ℤ)).toNat = 0 := by omega
    rw [hpos, neg_neg, Int.toNat_natCast, pow_zero, zpow_neg, zpow_natCast, one_div]

theorem ONE_cast_pos : (0 : ℚ) < (ONE : ℕ) := Nat.cast_pos.2 ONE_pos

theorem decimal_eq (c : ℕ) (e : ℤ) :
    decimal c e = ((c * (ONE * 10 ^ e.toNat) : ℕ) : ℚ) / ((10 ^ (-e).toNat : ℕ) : ℚ) := by
  rw [decimal, ten_zpow]
  generalize ONE = one
  push_cast
  ring

theorem decimal_le_iff {c m : ℕ} {e : ℤ} :
    decimal c e ≤ m ↔ c * (ONE * 10 ^ e.toNat) ≤ m * 10 ^ (-e).toNat := by
  have hpos : (0 : ℚ) < ((10 ^ (-e).toNat : ℕ) : ℚ) := Nat.cast_pos.2 (Nat.pow_pos (by decide))
  rw [decimal_eq, div_le_iff₀ hpos, ← Nat.cast_mul, Nat.cast_le]

theorem le_decimal_iff {c m : ℕ} {e : ℤ} :
    (m : ℚ) ≤ decimal c e ↔ m * 10 ^ (-e).toNat ≤ c * (ONE * 10 ^ e.toNat) := by
  have hpos : (0 : ℚ) < ((10 ^ (-e).toNat : ℕ) : ℚ) := Nat.cast_pos.2 (Nat.pow_pos (by decide))
  rw [decimal_eq, le_div_iff₀ hpos, ← Nat.cast_mul, Nat.cast_le]

theorem lt_decimal_iff {c m : ℕ} {e : ℤ} :
    (m : ℚ) < decimal c e ↔ m * 10 ^ (-e).toNat < c * (ONE * 10 ^ e.toNat) := by
  rw [← not_le, decimal_le_iff, not_le]

theorem decimal_mono {c c' : ℕ} (h : c ≤ c') (e : ℤ) : decimal c e ≤ decimal c' e := by
  have hle : (c : ℚ) ≤ c' := Nat.cast_le.2 h
  have hpow : (0 : ℚ) < 10 ^ e := by positivity
  rw [decimal, decimal]
  exact mul_le_mul_of_nonneg_right (mul_le_mul_of_nonneg_right hle hpow.le) ONE_cast_pos.le

/-- A decimal with a smaller exponent is one with any larger one, when its digits are so few. -/
theorem decimal_lt {c k c' : ℕ} {e e' : ℤ} (hc : c < 10 ^ k) (hc' : 10 ^ (k - 1) ≤ c') (hk : 1 ≤ k)
    (he : e < e') : decimal c e < decimal c' e' := by
  have hone := ONE_cast_pos
  have hlt : (c : ℚ) < 10 ^ k := by exact_mod_cast hc
  have hle : (10 : ℚ) ^ (k - 1) ≤ c' := by exact_mod_cast hc'
  have hpow : (10 : ℚ) ^ k * 10 ^ e ≤ 10 ^ (k - 1) * 10 ^ e' := by
    rw [← zpow_natCast, ← zpow_natCast, ← zpow_add₀ (by norm_num), ← zpow_add₀ (by norm_num)]
    refine zpow_le_zpow_right₀ (by norm_num) ?_
    omega
  rw [decimal, decimal]
  refine mul_lt_mul_of_pos_right ?_ hone
  calc (c : ℚ) * 10 ^ e < 10 ^ k * 10 ^ e := by gcongr
    _ ≤ 10 ^ (k - 1) * 10 ^ e' := hpow
    _ ≤ c' * 10 ^ e' := by gcongr

theorem decimal_shift {c : ℕ} {e e' : ℤ} (h : e' ≤ e) :
    decimal c e = decimal (c * 10 ^ (e - e').toNat) e' := by
  have hsum : e = ((e - e').toNat : ℤ) + e' := by omega
  rw [decimal, decimal]
  nth_rewrite 1 [hsum]
  rw [zpow_add₀ (by norm_num), zpow_natCast]
  push_cast
  ring

/-- The magnitude of a decimal, rounded. -/
def rounded (c : ℕ) (e : ℤ) : ℕ := round53 (c * 10 ^ e.toNat * ONE) (10 ^ (-e).toNat)

theorem rounded_eq (c : ℕ) (e : ℤ) :
    rounded c e = round53 (c * (ONE * 10 ^ e.toNat)) (10 ^ (-e).toNat) := by
  rw [rounded, Nat.mul_assoc, Nat.mul_comm ONE]

theorem ten_pow_pos (n : ℕ) : 0 < 10 ^ n := Nat.pow_pos (by decide)

theorem rounded_mono {c c' : ℕ} {e e' : ℤ} (h : decimal c e ≤ decimal c' e') :
    rounded c e ≤ rounded c' e' := by
  have hcast (e : ℤ) : (0 : ℚ) < ((10 ^ (-e).toNat : ℕ) : ℚ) := Nat.cast_pos.2 (ten_pow_pos _)
  rw [rounded_eq, rounded_eq]
  refine round53_mono (ten_pow_pos _) (ten_pow_pos _) ?_
  rwa [decimal_eq, decimal_eq, div_le_div_iff₀ (hcast e) (hcast e'), ← Nat.cast_mul,
    ← Nat.cast_mul, Nat.cast_le] at h

variable {m c k : ℕ} {e : ℤ}

theorem rounded_le (hm : IsDouble m) (h : decimal c e ≤ m) : rounded c e ≤ m := by
  rw [rounded_eq]
  conv_rhs => rw [← hm.round53 (ten_pow_pos (-e).toNat)]
  exact round53_mono (ten_pow_pos _) (ten_pow_pos _)
    (Nat.mul_le_mul_right _ (decimal_le_iff.1 h))

theorem le_rounded (hm : IsDouble m) (h : (m : ℚ) ≤ decimal c e) : m ≤ rounded c e := by
  rw [rounded_eq]
  conv_lhs => rw [← hm.round53 (ten_pow_pos (-e).toNat)]
  exact round53_mono (ten_pow_pos _) (ten_pow_pos _)
    (Nat.mul_le_mul_right _ (le_decimal_iff.1 h))

theorem reads_iff (hm : IsDouble m) : Reads m c e ↔ rounded c e = m := by
  have hhuge := hm.lt_huge
  rw [Reads, ofDecimal, ofQuot, rounded]
  split
  · refine iff_of_false (by simp) ?_
    omega
  · rw [Double.fin.injEq]
    exact and_iff_right rfl

/-- **The decimals that read back** as a double are an interval around it. -/
theorem reads_between {c' : ℕ} {e' : ℤ} (hm : IsDouble m) (h : Reads m c e)
    (hbetween : decimal c e ≤ decimal c' e' ∧ decimal c' e' ≤ m ∨
      m ≤ decimal c' e' ∧ decimal c' e' ≤ decimal c e) : Reads m c' e' := by
  rw [reads_iff hm] at h ⊢
  rcases hbetween with ⟨hlow, hhigh⟩ | ⟨hlow, hhigh⟩
  · exact le_antisymm (rounded_le hm hhigh) (h ▸ rounded_mono hlow)
  · exact le_antisymm (h ▸ rounded_mono hhigh) (le_rounded hm hlow)

/-! ## The place of the first digit -/

/-- A magnitude lies between two powers of ten. -/
theorem place_spec (hm : 0 < m) :
    (10 : ℚ) ^ (place m - 1) * ONE ≤ m ∧ (m : ℚ) < 10 ^ place m * ONE := by
  have hone : ONE ≤ 10 ^ 400 * m := by
    have hpow : ONE ≤ 10 ^ 400 := by
      calc ONE ≤ 2 ^ (3 * 400) := Nat.pow_le_pow_right Nat.two_pos (by decide)
        _ = 8 ^ 400 := Nat.pow_mul 2 3 400
        _ ≤ 10 ^ 400 := Nat.pow_le_pow_left (by decide) 400
    exact hpow.trans (Nat.le_mul_of_pos_right _ hm)
  have hpos : 10 ^ 400 * m / ONE ≠ 0 := (Nat.div_pos hone ONE_pos).ne'
  have hlow := Nat.pow_log_le_self 10 hpos
  have hhigh := Nat.lt_pow_succ_log_self (b := 10) (by decide) (10 ^ 400 * m / ONE)
  rw [place]
  generalize Nat.log 10 (10 ^ 400 * m / ONE) = l at hlow hhigh
  rw [Nat.le_div_iff_mul_le ONE_pos] at hlow
  rw [Nat.div_lt_iff_lt_mul ONE_pos] at hhigh
  have hlow' : (10 : ℚ) ^ l * (ONE : ℕ) ≤ 10 ^ 400 * m := by exact_mod_cast hlow
  have hhigh' : (10 : ℚ) ^ 400 * m < 10 ^ (l + 1) * (ONE : ℕ) := by exact_mod_cast hhigh
  generalize ((ONE : ℕ) : ℚ) = one at hlow' hhigh'
  have hten : (0 : ℚ) < 10 ^ 400 := by positivity
  have hsplit (n : ℕ) : (10 : ℚ) ^ ((n : ℤ) - 400) * 10 ^ 400 = 10 ^ n := by
    rw [← zpow_natCast, ← zpow_natCast, ← zpow_add₀ (by norm_num)]
    congr 1
    push_cast
    ring
  have hexp : (l : ℤ) + 1 - 400 - 1 = (l : ℤ) - 400 := by ring
  have hexp' : (l : ℤ) + 1 - 400 = ((l + 1 : ℕ) : ℤ) - 400 := by
    push_cast
    ring
  rw [hexp, hexp']
  constructor
  · refine le_of_mul_le_mul_right ?_ hten
    rw [mul_right_comm, hsplit, mul_comm (m : ℚ)]
    exact hlow'
  · refine lt_of_mul_lt_mul_right ?_ hten.le
    rw [mul_right_comm, hsplit, mul_comm (m : ℚ)]
    exact hhigh'

/-! ## The candidates with some digits -/

/-- The number of `k` digits next to a magnitude from below. -/
def below (m k : ℕ) : ℕ :=
  m * 10 ^ (-(place m - k)).toNat / (ONE * 10 ^ (place m - k).toNat)

theorem below_spec (m k : ℕ) :
    decimal (below m k) (place m - k) ≤ m ∧ (m : ℚ) < decimal (below m k + 1) (place m - k) := by
  have hpos : 0 < ONE * 10 ^ (place m - k).toNat :=
    Nat.mul_pos ONE_pos (Nat.pow_pos (by decide))
  rw [decimal_le_iff, lt_decimal_iff, below]
  exact ⟨Nat.div_mul_le_self _ _, (Nat.div_lt_iff_lt_mul hpos).1 (Nat.lt_succ_self _)⟩

theorem lt_of_decimal_lt {c' : ℕ} (h : decimal c e < decimal c' e) : c < c' := by
  by_contra hle
  exact absurd h (not_lt.2 (decimal_mono (not_lt.1 hle) e))

theorem decimal_pow (j : ℕ) (e : ℤ) : decimal (10 ^ j) e = 10 ^ (e + j) * ONE := by
  rw [decimal, zpow_add₀ (by norm_num), zpow_natCast, Nat.cast_pow, mul_comm ((10 : ℚ) ^ e)]
  rfl

/-- It has `k` digits. -/
theorem below_digits (hm : 0 < m) (hk : 1 ≤ k) : 10 ^ (k - 1) ≤ below m k ∧ below m k < 10 ^ k := by
  obtain ⟨hle, hlt⟩ := below_spec m k
  obtain ⟨hlow, hhigh⟩ := place_spec hm
  have hexp : place m - k + ((k - 1 : ℕ) : ℤ) = place m - 1 := by omega
  have hexp' : place m - k + (k : ℤ) = place m := by omega
  constructor
  · refine Nat.lt_succ_iff.1 (lt_of_decimal_lt (e := place m - k) ?_)
    rw [decimal_pow, hexp]
    exact lt_of_le_of_lt hlow hlt
  · refine lt_of_decimal_lt (e := place m - k) ?_
    rw [decimal_pow, hexp']
    exact lt_of_le_of_lt hle hhigh

theorem withDigits_spec (h : withDigits m k = some c) :
    Reads m c (place m - k) ∧ (c = below m k ∨ c = below m k + 1) := by
  rw [withDigits] at h
  dsimp only at h
  split at h
  · next hreads =>
      rw [← Option.some.inj h]
      exact ⟨hreads.1, Or.inl rfl⟩
  · split at h
    · next hreads =>
        rw [← Option.some.inj h]
        exact ⟨hreads, Or.inr rfl⟩
    · cases h

theorem withDigits_isSome
    (h : Reads m (below m k) (place m - k) ∨ Reads m (below m k + 1) (place m - k)) :
    ∃ c, withDigits m k = some c := by
  rw [withDigits]
  dsimp only
  split
  · exact ⟨_, rfl⟩
  · next hreads =>
      split
      · exact ⟨_, rfl⟩
      · next hsucc =>
          rcases h with h | h
          · exact absurd ⟨h, Or.inr hsucc⟩ hreads
          · exact absurd h hsucc

/-- If any decimal with so few digits reads back, one of the two next to the double does. -/
theorem exists_withDigits {c₀ : ℕ} {e₀ : ℤ} (hm : IsDouble m) (hpos : 0 < m) (hk : 1 ≤ k)
    (h : Reads m c₀ e₀) (hc₀ : c₀ < 10 ^ k) : ∃ c, withDigits m k = some c := by
  obtain ⟨hle, hlt⟩ := below_spec m k
  obtain ⟨hdigits, -⟩ := below_digits hpos hk
  refine withDigits_isSome ?_
  rcases Int.lt_or_le e₀ (place m - k) with he | he
  · -- its digits end behind those of the candidates, so it lies below both
    have hbelow := decimal_lt hc₀ hdigits hk he
    exact Or.inl (reads_between hm h (Or.inl ⟨hbelow.le, hle⟩))
  · have hshift := decimal_shift (c := c₀) he
    rcases le_or_gt (decimal c₀ e₀) m with hside | hside
    · left
      refine reads_between hm h (Or.inl ⟨?_, hle⟩)
      rw [hshift] at hside ⊢
      exact decimal_mono (Nat.lt_succ_iff.1 (lt_of_decimal_lt (lt_of_le_of_lt hside hlt))) _
    · right
      refine reads_between hm h (Or.inr ⟨hlt.le, ?_⟩)
      rw [hshift] at hside ⊢
      exact decimal_mono (Nat.succ_le_of_lt (lt_of_decimal_lt (lt_of_le_of_lt hle hside))) _

/-- What is so close to a double reads back as it. -/
theorem reads_of_near (hm : IsDouble m) (hlow : (2 ^ 54 - 1) * (m : ℚ) < 2 ^ 54 * decimal c e)
    (hhigh : 2 ^ 54 * decimal c e < (2 ^ 54 + 1) * m) : Reads m c e := by
  have hpos : (0 : ℚ) < ((10 ^ (-e).toNat : ℕ) : ℚ) := Nat.cast_pos.2 (ten_pow_pos _)
  rw [decimal_eq, ← mul_div_assoc] at hlow hhigh
  rw [lt_div_iff₀ hpos, mul_assoc] at hlow
  rw [div_lt_iff₀ hpos, mul_assoc] at hhigh
  rw [reads_iff hm, rounded_eq]
  refine hm.round53_near (ten_pow_pos _) ?_ ?_
  · have hcast : ((2 ^ 54 - 1 : ℕ) : ℚ) = 2 ^ 54 - 1 := by norm_num
    rw [← Nat.cast_lt (α := ℚ), Nat.cast_mul, Nat.cast_mul, Nat.cast_mul, hcast]
    exact_mod_cast hlow
  · exact_mod_cast hhigh

/-- **Seventeen digits suffice** for every double. -/
theorem withDigits_seventeen (hm : IsDouble m) (hpos : 0 < m) : ∃ c, withDigits m 17 = some c := by
  obtain ⟨hle, hlt⟩ := below_spec m 17
  obtain ⟨hplace, -⟩ := place_spec hpos
  refine withDigits_isSome ?_
  have hstep : decimal (below m 17 + 1) (place m - (17 : ℕ))
      = decimal (below m 17) (place m - (17 : ℕ)) + decimal 1 (place m - (17 : ℕ)) := by
    rw [decimal, decimal, decimal]
    push_cast
    ring
  have hunit : 10 ^ 16 * decimal 1 (place m - (17 : ℕ)) ≤ m := by
    refine le_trans (le_of_eq ?_) hplace
    have hexp : place m - 1 = 16 + (place m - (17 : ℕ)) := by
      push_cast
      ring
    rw [hexp, zpow_add₀ (by norm_num), decimal, Nat.cast_one, one_mul, ← mul_assoc]
    rfl
  have hm0 : (0 : ℚ) < m := Nat.cast_pos.2 hpos
  rw [hstep] at hlt
  generalize decimal 1 (place m - (17 : ℕ)) = u at hstep hunit hlt
  by_cases hnear : 2 * (m - decimal (below m 17) (place m - (17 : ℕ))) ≤ u
  · exact Or.inl (reads_of_near hm (by linarith) (by linarith))
  · refine Or.inr (reads_of_near hm ?_ ?_) <;> rw [hstep] <;> linarith

/-- **The fewest digits**: no decimal with fewer reads back. -/
theorem fewest_spec (hm : IsDouble m) (hpos : 0 < m) :
    ∃ c k, fewest m = some (c, k) ∧ 1 ≤ k ∧ k ≤ 17 ∧ withDigits m k = some c ∧
      ∀ k₀ c₀ e₀, 1 ≤ k₀ → Reads m c₀ e₀ → c₀ < 10 ^ k₀ → k ≤ k₀ := by
  obtain ⟨c₁, hc₁⟩ := withDigits_seventeen hm hpos
  have hsome : (fewest m).isSome := by
    rw [fewest, List.findSome?_isSome_iff]
    exact ⟨17, List.mem_range'_1.2 (by decide), by rw [hc₁]; rfl⟩
  obtain ⟨⟨c, k⟩, hck⟩ := Option.isSome_iff_exists.1 hsome
  obtain ⟨l₁, k', l₂, hsplit, hk', hfirst⟩ := List.findSome?_eq_some_iff.1 hck
  obtain ⟨c', hc', heq⟩ := Option.map_eq_some_iff.1 hk'
  obtain ⟨rfl, rfl⟩ := Prod.mk.inj heq
  have hmem : k' ∈ List.range' 1 17 := by
    rw [hsplit]
    simp
  obtain ⟨hk1, hk17⟩ := List.mem_range'_1.1 hmem
  refine ⟨c', k', hck, hk1, by omega, hc', fun k₀ c₀ e₀ hk₀ hreads hc₀ => ?_⟩
  by_contra hlt
  obtain ⟨c₂, hc₂⟩ := exists_withDigits hm hpos hk₀ hreads hc₀
  have hsorted : (l₁ ++ k' :: l₂).Pairwise (· < ·) := by
    rw [← hsplit]
    exact List.pairwise_lt_range'
  have hmem₀ : k₀ ∈ l₁ := by
    have hall : k₀ ∈ l₁ ++ k' :: l₂ := by
      rw [← hsplit]
      exact List.mem_range'_1.2 (by omega)
    rcases List.mem_append.1 hall with h | h
    · exact h
    · rcases List.mem_cons.1 h with rfl | h
      · omega
      · have := (List.pairwise_cons.1 (List.pairwise_append.1 hsorted).2.1).1 k₀ h
        omega
  have hnone := hfirst k₀ hmem₀
  rw [hc₂] at hnone
  exact absurd hnone (by simp)

end Double
end Lib
end Lunar
