/-
# Natural numbers as doubles

A natural number of at most `2 ^ 53` is a double, and so are the sum and the product
of two such numbers while they are as small.  `ofNat_mul` says more: the product of two
such numbers is rounded once, so it is the double nearest to the exact product.
-/

import Lunar.Lib.Double

namespace Lunar
namespace Lib
namespace Double

/-! ## Integers -/

theorem cast_ofInt (lo hi i : ℤ) : (ofInt i).cast lo hi = max lo (min hi i) :=
  congrArg (fun j => max lo (min hi j)) (toInt_ofInt i)

theorem eq_ofInt (i j : ℤ) : (ofInt i).eq (.ofInt j) = decide (i = j) := by
  rcases Int.lt_trichotomy i j with h | rfl | h
  · rw [decide_eq_false (Int.ne_of_lt h)]
    have hlt := lt_ofInt h
    rw [lt, beq_iff_eq] at hlt
    rw [eq, hlt]
    rfl
  · rw [decide_eq_true rfl, eq, ofInt, cmp_fin, Std.compare_self]
    rfl
  · rw [decide_eq_false (Int.ne_of_gt h)]
    have hlt := lt_ofInt h
    rw [ofInt, ofInt, lt, cmp_fin, beq_iff_eq, Option.some_inj,
      Int.compare_eq_lt] at hlt
    rw [ofInt, ofInt, eq, cmp_fin, Int.compare_eq_gt.2 hlt]
    rfl

/-! ## Rounding -/

/-- Rounding does not see a common factor of the two parts of a quotient. -/
theorem nearest_mul_right (n d : ℕ) {k : ℕ} (hk : 0 < k) :
    nearest (n * k) (d * k) = nearest n d := by
  have hlt : 2 * (n * k % (d * k)) < d * k ↔ 2 * (n % d) < d := by
    rw [Nat.mul_mod_mul_right, ← Nat.mul_assoc, Nat.mul_lt_mul_right hk]
  have heq : 2 * (n * k % (d * k)) = d * k ↔ 2 * (n % d) = d := by
    rw [Nat.mul_mod_mul_right, ← Nat.mul_assoc, Nat.mul_left_inj hk.ne']
  simp only [nearest, Nat.mul_div_mul_right _ _ hk, hlt, heq]

theorem ofQuot_mul_right (neg : Bool) (n d : ℕ) {k : ℕ} (hk : 0 < k) :
    ofQuot neg (n * k) (d * k) = ofQuot neg n d := by
  have hround : round53 (n * k) (d * k) = round53 n d := by
    rw [round53, round53, Nat.mul_div_mul_right _ _ hk, Nat.mul_right_comm d k,
      nearest_mul_right _ _ hk]
  rw [ofQuot, ofQuot, hround]

/-- Rounding at most doubles a number. -/
theorem round53_le (n : ℕ) : round53 n 1 ≤ 2 * n := by
  rw [round53, Nat.div_one, Nat.one_mul]
  rcases Nat.eq_zero_or_pos n with rfl | hn
  · decide
  · have hpow : 2 ^ (n.log2 - 52) ≤ n :=
      (Nat.pow_le_pow_right Nat.two_pos (Nat.sub_le _ _)).trans (Nat.log2_self_le hn.ne')
    generalize 2 ^ (n.log2 - 52) = d at hpow ⊢
    have hnearest : nearest n d ≤ n / d + 1 := by
      rw [nearest]
      split
      · exact Nat.le_succ _
      · exact Nat.le_refl _
    calc nearest n d * d ≤ (n / d + 1) * d := Nat.mul_le_mul_right d hnearest
      _ = n / d * d + d := Nat.succ_mul _ _
      _ ≤ 2 * n := by
        have hdiv := Nat.div_mul_le_self n d
        omega

theorem ofNat_fin {n : ℕ} (h : n < 2 ^ 1000) : ∃ k, ofNat n = .fin false k := by
  have hhuge : ¬ HUGE ≤ round53 (n * ONE) 1 := by
    have hround := round53_le (n * ONE)
    have hmul : 2 * (n * ONE) < 2 * (2 ^ 1000 * ONE) :=
      Nat.mul_lt_mul_of_pos_left (Nat.mul_lt_mul_of_pos_right h ONE_pos) Nat.two_pos
    have hle : 2 * (2 ^ 1000 * ONE) ≤ HUGE := by
      rw [ONE, HUGE, ← Nat.pow_add, ← Nat.pow_succ']
      exact Nat.pow_le_pow_right Nat.two_pos (by omega)
    omega
  refine ⟨round53 (n * ONE) 1, ?_⟩
  rw [ofNat, ofQuot, if_neg hhuge]

theorem ofNat_exact {n : ℕ} (h : n ≤ 2 ^ 53) : ofNat n = .fin false (n * ONE) := by
  have hhuge : 2 ^ 1127 < HUGE := Nat.pow_lt_pow_right Nat.one_lt_two (by omega)
  rcases Nat.lt_or_ge n (2 ^ 53) with hlt | hge
  · have hmul : n * 2 ^ 1074 < HUGE := by
      have hpow : n * 2 ^ 1074 < 2 ^ 53 * 2 ^ 1074 :=
        Nat.mul_lt_mul_of_pos_right hlt (Nat.two_pow_pos _)
      have hsum : (2 : ℕ) ^ 1127 = 2 ^ 53 * 2 ^ 1074 := by
        rw [show 1127 = 53 + 1074 from rfl, Nat.pow_add]
      rw [hsum] at hhuge
      exact hpow.trans hhuge
    have hexact := ofQuot_exact false hlt Nat.one_pos hmul
    rw [Nat.mul_one] at hexact
    exact hexact
  · have heq : n = 2 ^ 53 := Nat.le_antisymm h hge
    have hone : 1 * 2 ^ 1127 < HUGE := by
      rw [Nat.one_mul]
      exact hhuge
    have hexact := ofQuot_exact false (Nat.one_lt_two_pow (by decide)) Nat.one_pos hone
    have hpow : (2 : ℕ) ^ 53 * 2 ^ 1074 = 1 * 2 ^ 1127 * 1 := by
      rw [← Nat.pow_add, Nat.one_mul, Nat.mul_one]
    rw [ofNat, heq, ONE, hpow, hexact, Nat.mul_one]

theorem ofNat_zero : ofNat 0 = zero := by
  rw [ofNat_exact (by omega), Nat.zero_mul]
  rfl

/-- A product of exact numbers is rounded once. -/
theorem ofNat_mul {a b : ℕ} (ha : a ≤ 2 ^ 53) (hb : b ≤ 2 ^ 53) :
    (ofNat a).mul (ofNat b) = ofNat (a * b) := by
  rw [ofNat_exact ha, ofNat_exact hb, mul]
  have hprod : a * ONE * (b * ONE) = a * b * ONE * ONE := by
    rw [Nat.mul_mul_mul_comm, Nat.mul_assoc (a * b)]
  have h := ofQuot_mul_right false (a * b * ONE) 1 ONE_pos
  rw [Nat.one_mul] at h
  rw [hprod, bne_self_eq_false, h, ofNat]

/-- A product by zero is zero, also when the other factor is not exact. -/
theorem ofNat_mul_zero {n : ℕ} (h : n < 2 ^ 1000) : (ofNat n).mul (ofNat 0) = ofNat 0 := by
  obtain ⟨k, hk⟩ := ofNat_fin h
  have hquot := ofQuot_mul_right false 0 1 ONE_pos
  have hzero : ofQuot false 0 1 = ofNat 0 := by rw [ofNat, Nat.zero_mul]
  rw [Nat.zero_mul, Nat.one_mul, hzero] at hquot
  rw [hk, ofNat_zero, zero, mul, Nat.mul_zero, bne_self_eq_false, hquot, ofNat_zero, zero]

/-- A sum of exact numbers is rounded once. -/
theorem ofNat_add {a b : ℕ} (ha : a ≤ 2 ^ 53) (hb : b ≤ 2 ^ 53) :
    (ofNat a).add (ofNat b) = ofNat (a + b) := by
  rw [ofNat_exact ha, ofNat_exact hb, add, addFin]
  have hsum : signed false (a * ONE) + signed false (b * ONE) = ((a + b) * ONE : ℕ) := by
    simp only [signed, Bool.false_eq_true, if_false]
    rw [Nat.add_mul, Int.natCast_add]
  rw [hsum, Int.natAbs_natCast]
  split
  · next hzero =>
      have hz : a + b = 0 := by
        have hmul : (a + b) * ONE = 0 := by exact_mod_cast hzero
        exact (Nat.mul_eq_zero.1 hmul).resolve_right ONE_pos.ne'
      rw [hz, ofNat_zero]
      rfl
  · have hneg : decide ((((a + b) * ONE : ℕ) : ℤ) < 0) = false :=
      decide_eq_false (Int.not_lt.2 (Int.natCast_nonneg _))
    rw [hneg, ofNat]

/-! ## Comparison and casts -/

theorem cmp_ofNat {a b : ℕ} (ha : a ≤ 2 ^ 53) (hb : b ≤ 2 ^ 53) :
    (ofNat a).cmp (ofNat b) = some (compare a b) := by
  have hsigned (n : ℕ) : signed false (n * ONE) = (n : ℤ) * ONE := by
    rw [signed, if_neg Bool.false_ne_true, Int.natCast_mul]
  have hone : (0 : ℤ) < ONE := Int.natCast_pos.2 ONE_pos
  rw [ofNat_exact ha, ofNat_exact hb, cmp_fin, hsigned, hsigned]
  rcases Nat.lt_trichotomy a b with h | h | h
  · rw [Nat.compare_eq_lt.2 h, Int.compare_eq_lt.2 (Int.mul_lt_mul_of_pos_right (by omega) hone)]
  · rw [h, Nat.compare_eq_eq.2 rfl, Int.compare_eq_eq.2 rfl]
  · rw [Nat.compare_eq_gt.2 h, Int.compare_eq_gt.2 (Int.mul_lt_mul_of_pos_right (by omega) hone)]

theorem le_ofNat {a b : ℕ} (ha : a ≤ 2 ^ 53) (hb : b ≤ 2 ^ 53) :
    (ofNat a).le (ofNat b) = decide (a ≤ b) := by
  rw [le, cmp_ofNat ha hb]
  rcases Nat.lt_trichotomy a b with h | h | h
  · rw [Nat.compare_eq_lt.2 h, decide_eq_true h.le]
    rfl
  · rw [Nat.compare_eq_eq.2 h, decide_eq_true h.le]
    rfl
  · rw [Nat.compare_eq_gt.2 h, decide_eq_false (Nat.not_le.2 h)]
    rfl

theorem ge_ofNat {a b : ℕ} (ha : a ≤ 2 ^ 53) (hb : b ≤ 2 ^ 53) :
    (ofNat a).ge (ofNat b) = decide (b ≤ a) := by
  rw [ge, cmp_ofNat ha hb]
  rcases Nat.lt_trichotomy a b with h | h | h
  · rw [Nat.compare_eq_lt.2 h, decide_eq_false (Nat.not_le.2 h)]
    rfl
  · rw [Nat.compare_eq_eq.2 h, decide_eq_true h.ge]
    rfl
  · rw [Nat.compare_eq_gt.2 h, decide_eq_true h.le]
    rfl

theorem fract_ofNat {n : ℕ} (h : n ≤ 2 ^ 53) : (ofNat n).fract = zero := by
  have htrunc : (fin false (n * ONE)).trunc = fin false (n * ONE) := by
    rw [trunc, Nat.mul_div_cancel _ ONE_pos]
  have hsum : signed false (n * ONE) + signed true (n * ONE) = 0 := by
    simp only [signed, Bool.false_eq_true, if_false, if_true]
    omega
  rw [ofNat_exact h, fract, htrunc, sub, neg, add, addFin, Bool.not_false, hsum]
  rfl

theorem toU_ofNat {n bits : ℕ} (h : n ≤ 2 ^ 53) (hlt : n < 2 ^ bits) : (ofNat n).toU bits = n := by
  have hofInt : ofNat n = .ofInt n := by
    rw [ofNat_exact h, ofInt, Int.natAbs_natCast,
      decide_eq_false (Int.not_lt.2 (Int.natCast_nonneg n))]
  rw [hofInt, toU_ofInt (Int.natCast_nonneg n) (by exact_mod_cast hlt), Int.toNat_natCast]

theorem toI_ofNat {n : ℕ} (h : n ≤ 2 ^ 53) : (ofNat n).toI 64 = n := by
  rw [ofNat_exact h, toI, cast, Nat.mul_div_cancel _ ONE_pos, signed]
  simp only [Bool.false_eq_true, if_false]
  omega

theorem lt_ofNat {n m : ℕ} (hn : n ≤ 2 ^ 53) (h : n < m) : (ofNat n).abs.lt (.ofInt m) = true := by
  have hofInt : (ofNat n).abs = .ofInt n := by
    rw [ofNat_exact hn, ofInt, Int.natAbs_natCast, decide_eq_false (Int.not_lt.2 (Int.natCast_nonneg n))]
    rfl
  rw [hofInt]
  exact lt_ofInt (Int.ofNat_lt.2 h)

/-! ## Doubles that are natural numbers -/

theorem ge_fin (a : Bool) (m : ℕ) (b : Bool) (n : ℕ) :
    (fin a m).ge (.fin b n) = decide (signed b n ≤ signed a m) := by
  rw [ge, cmp_fin]
  rcases Int.lt_trichotomy (signed a m) (signed b n) with h | h | h
  · rw [Int.compare_eq_lt.2 h, decide_eq_false (Int.not_le.2 h)]
    rfl
  · rw [Int.compare_eq_eq.2 h, decide_eq_true h.ge]
    rfl
  · rw [Int.compare_eq_gt.2 h, decide_eq_true h.le]
    rfl

theorem le_fin (a : Bool) (m : ℕ) (b : Bool) (n : ℕ) :
    (fin a m).le (.fin b n) = decide (signed a m ≤ signed b n) := by
  rw [le, cmp_fin]
  rcases Int.lt_trichotomy (signed a m) (signed b n) with h | h | h
  · rw [Int.compare_eq_lt.2 h, decide_eq_true h.le]
    rfl
  · rw [Int.compare_eq_eq.2 h, decide_eq_true h.le]
    rfl
  · rw [Int.compare_eq_gt.2 h, decide_eq_false (Int.not_le.2 h)]
    rfl

/-- An integer double from one to `n` is a natural number. -/
theorem exists_ofNat {x : Double} {n : ℕ} (hint : x.isInt = true) (hge : x.ge .one = true)
    (hle : x.le (.ofNat n) = true) (hn : n ≤ 2 ^ 53) : ∃ k, 1 ≤ k ∧ k ≤ n ∧ x = .ofNat k := by
  cases x with
  | nan => cases hint
  | inf a => cases hint
  | fin a m =>
      rw [isInt, decide_eq_true_iff] at hint
      obtain ⟨k, hm⟩ : ∃ k, m = ONE * k := by
        have hdm := Nat.div_add_mod m ONE
        rw [hint, Nat.add_zero] at hdm
        exact ⟨m / ONE, hdm.symm⟩
      rw [one, ge_fin, decide_eq_true_iff, hm] at hge
      rw [ofNat_exact hn, le_fin, decide_eq_true_iff, hm] at hle
      have hone := ONE_pos
      cases a with
      | true =>
          simp only [signed, Bool.false_eq_true, if_false, if_true] at hge
          omega
      | false =>
          simp only [signed, Bool.false_eq_true, if_false] at hge hle
          have hk : 1 ≤ k := by
            refine Nat.pos_of_ne_zero fun hzero => ?_
            rw [hzero, Nat.mul_zero] at hge
            omega
          have hkn : ONE * k ≤ n * ONE := by omega
          rw [Nat.mul_comm n] at hkn
          have hkn' : k ≤ n := Nat.le_of_mul_le_mul_left hkn hone
          refine ⟨k, hk, hkn', ?_⟩
          rw [ofNat_exact (hkn'.trans hn), Nat.mul_comm k, hm]

end Double
end Lib
end Lunar
