/-
# Numerals read digit by digit

A numeral in a radix `2 ^ k` is read by taking the radix times what has been read, and the next
digit to it, in doubles.  Below `2 ^ 53` this is exact.  The first prefix from `2 ^ 53` on is
rounded, and the digits behind it are too small to change the result; so the numeral is rounded
once, unless that prefix lies halfway between two doubles and the digits behind it would have
decided (`readDigits_iff`).
-/

import Lunar.Lib.Double.Monotone
import Lunar.Lib.Double.Script
import Lunar.Lib.Double.Words

namespace Lunar
namespace Lib
namespace Double

/-- The number that digits in the radix `2 ^ k` denote. -/
def value (k : ℕ) (ds : List ℕ) : ℕ := ds.foldl (fun n d => n * 2 ^ k + d) 0

/-- What reading them one after the other gives, from `x` on. -/
def readDigits (k : ℕ) (ds : List ℕ) (x : Double) : Double :=
  ds.foldl (fun x d => (x.mul (.ofNat (2 ^ k))).add (.ofNat d)) x

/-- The first prefix from `2 ^ 53` on lies halfway between two doubles of which the lower one is
even, and a digit behind it is not zero. -/
def Cut (k : ℕ) (ds : List ℕ) : Prop :=
  ∃ a d b q i, ds = a ++ d :: b ∧ value k a < 2 ^ 53 ∧ value k (a ++ [d]) = (2 * q + 1) * 2 ^ i ∧
    q % 2 = 0 ∧ 2 ^ 52 ≤ q ∧ q < 2 ^ 53 ∧ (∃ x ∈ b, x ≠ 0) ∧
    value k (a ++ [d]) * 2 ^ (k * b.length) < 2 ^ 1024

variable {k : ℕ}

/-! ## The numbers of digits -/

theorem value_snoc (a : List ℕ) (d : ℕ) : value k (a ++ [d]) = value k a * 2 ^ k + d := by
  rw [value, List.foldl_append]
  rfl

theorem value_append (a b : List ℕ) :
    value k (a ++ b) = value k a * 2 ^ (k * b.length) + value k b := by
  induction b using List.reverseRecOn with
  | nil =>
      rw [List.append_nil, List.length_nil, Nat.mul_zero, Nat.pow_zero, Nat.mul_one]
      rfl
  | append_singleton b d ih =>
      rw [← List.append_assoc, value_snoc, ih, value_snoc, List.length_append,
        List.length_singleton, Nat.mul_succ, Nat.pow_add]
      ring

theorem value_lt {ds : List ℕ} (h : ∀ d ∈ ds, d < 2 ^ k) : value k ds < 2 ^ (k * ds.length) := by
  induction ds using List.reverseRecOn with
  | nil => exact Nat.two_pow_pos _
  | append_singleton ds d ih =>
      have hd := h d (by simp)
      have hds := ih fun d' hd' => h d' (List.mem_append_left _ hd')
      rw [value_snoc, List.length_append, List.length_singleton, Nat.mul_succ, Nat.pow_add]
      calc value k ds * 2 ^ k + d < (value k ds + 1) * 2 ^ k := by
            rw [Nat.succ_mul]
            omega
        _ ≤ 2 ^ (k * ds.length) * 2 ^ k := Nat.mul_le_mul_right _ hds

theorem value_pos_iff (ds : List ℕ) : 0 < value k ds ↔ ∃ x ∈ ds, x ≠ 0 := by
  induction ds using List.reverseRecOn with
  | nil => simp [value]
  | append_singleton ds d ih =>
      have hpos := Nat.two_pow_pos k
      rw [value_snoc]
      constructor
      · intro h
        rcases Nat.eq_zero_or_pos d with hd | hd
        · rw [hd, Nat.add_zero] at h
          obtain ⟨x, hx, hne⟩ := ih.1 (Nat.pos_of_mul_pos_right h)
          exact ⟨x, List.mem_append_left _ hx, hne⟩
        · exact ⟨d, by simp, hd.ne'⟩
      · rintro ⟨x, hx, hne⟩
        rcases List.mem_append.1 hx with hx | hx
        · exact Nat.add_pos_left (Nat.mul_pos (ih.2 ⟨x, hx, hne⟩) hpos) _
        · rw [List.mem_singleton.1 hx] at hne
          exact Nat.add_pos_right _ (Nat.pos_of_ne_zero hne)

/-! ## Steps of the reader -/

theorem add_fin_fin (x y : ℕ) : (fin false x).add (.fin false y) = ofQuot false (x + y) 1 := by
  have hsum : signed false x + signed false y = ((x + y : ℕ) : ℤ) := by
    simp only [signed, Bool.false_eq_true, if_false]
    exact (Int.natCast_add x y).symm
  show addFin false x false y = _
  unfold addFin
  dsimp only
  rw [hsum]
  by_cases hzero : x + y = 0
  · rw [hzero]
    have h := ofQuot_pow false (m := 0) (j := 0) (by decide) (by decide)
    rw [Nat.zero_mul] at h
    rw [h]
    rfl
  · rw [if_neg (by exact_mod_cast hzero), Int.natAbs_natCast,
      decide_eq_false (Int.not_lt.2 (Int.natCast_nonneg _))]

theorem ofNat_radix (hk : k ≤ 52) : ofNat (2 ^ k) = .fin false (2 ^ k * ONE) :=
  ofNat_exact (Nat.pow_le_pow_right Nat.two_pos (by omega))

theorem ofNat_digit (hk : k ≤ 52) {d : ℕ} (hd : d < 2 ^ k) : ofNat d = .fin false (d * ONE) :=
  ofNat_exact (hd.le.trans (Nat.pow_le_pow_right Nat.two_pos (by omega)))

/-- A magnitude times the radix. -/
theorem mul_radix (hk : k ≤ 52) {m : ℕ} (hm : ∃ a j, a < 2 ^ 53 ∧ m = a * 2 ^ j) :
    (fin false m).mul (.ofNat (2 ^ k))
      = if HUGE ≤ m * 2 ^ k then .inf false else .fin false (m * 2 ^ k) := by
  obtain ⟨a, j, ha, rfl⟩ := hm
  have hprod : a * 2 ^ j * (2 ^ k * ONE) = a * 2 ^ (j + k) * ONE := by
    rw [Nat.pow_add]
    ring
  have hpow : a * 2 ^ j * 2 ^ k = a * 2 ^ (j + k) := by rw [Nat.mul_assoc, Nat.pow_add]
  rw [ofNat_radix hk]
  show ofQuot false _ ONE = _
  rw [hprod, ofQuot, round53_exact ha ONE_pos, hpow]

/-- Below `2 ^ 53` a step is rounded once. -/
theorem step_small (hk : k ≤ 52) {n d : ℕ} (hn : n < 2 ^ 53) (hd : d < 2 ^ k) :
    ((fin false (n * ONE)).mul (.ofNat (2 ^ k))).add (.ofNat d) = ofNat (n * 2 ^ k + d) := by
  have hmul := mul_radix hk (m := n * ONE) ⟨n, 1074, hn, by rw [ONE]⟩
  have hpow : n * ONE * 2 ^ k = n * 2 ^ (k + 1074) := by
    rw [← pow_mul_one, Nat.mul_assoc, Nat.mul_comm ONE]
  have hhuge : ¬ HUGE ≤ n * ONE * 2 ^ k := by
    rw [hpow]
    exact Nat.not_le.2 (mul_pow_lt hn (by omega))
  rw [hmul, if_neg hhuge, ofNat_digit hk hd, add_fin_fin, Nat.mul_right_comm, ← Nat.add_mul]
  rfl

theorem readDigits_append (a b : List ℕ) (x : Double) :
    readDigits k (a ++ b) x = readDigits k b (readDigits k a x) := List.foldl_append

theorem readDigits_cons (d : ℕ) (ds : List ℕ) (x : Double) :
    readDigits k (d :: ds) x = readDigits k ds ((x.mul (.ofNat (2 ^ k))).add (.ofNat d)) := rfl

/-- **The exact part** of the reading. -/
theorem readDigits_small (hk : k ≤ 52) {ds : List ℕ} (h : ∀ d ∈ ds, d < 2 ^ k)
    (hlt : value k ds < 2 ^ 53) : readDigits k ds .zero = .fin false (value k ds * ONE) := by
  induction ds using List.reverseRecOn with
  | nil =>
      rw [value, List.foldl_nil, Nat.zero_mul]
      rfl
  | append_singleton ds d ih =>
      have hd := h d (by simp)
      have hpos := Nat.two_pow_pos k
      rw [value_snoc] at hlt
      have hle : value k ds ≤ value k ds * 2 ^ k := Nat.le_mul_of_pos_right _ hpos
      have hds := ih (fun d' hd' => h d' (List.mem_append_left _ hd')) (by omega)
      rw [readDigits_append, hds, readDigits_cons, step_small hk (by omega) hd, value_snoc,
        ofNat_exact hlt.le]
      rfl

/-- Less than half a unit above a double, rounding goes back to it. -/
theorem round53_up {a j x : ℕ} (ha : 2 ^ 52 ≤ a) (ha' : a < 2 ^ 53) (hx : 2 * x < 2 ^ j) :
    round53 (a * 2 ^ j + x) 1 = a * 2 ^ j := by
  have hpos := Nat.two_pow_pos j
  have hlow : 2 ^ 52 * 2 ^ j ≤ a * 2 ^ j := Nat.mul_le_mul_right _ ha
  have hhigh : (a + 1) * 2 ^ j ≤ 2 ^ 53 * 2 ^ j := Nat.mul_le_mul_right _ ha'
  rw [Nat.succ_mul] at hhigh
  have hlog : (a * 2 ^ j + x).log2 - 52 = j := by
    refine log2_sub_eq ?_ (Or.inr ?_)
    · rw [Nat.pow_add]
      omega
    · rw [Nat.pow_add]
      omega
  have hnearest : nearest (a * 2 ^ j + x) (2 ^ j) = a := by
    rw [nearest_eq_iff hpos]
    omega
  rw [round53, Nat.div_one, hlog, Nat.one_mul, hnearest]

theorem le_log2_whole {c m : ℕ} (h : 2 ^ c * ONE ≤ m) : c + 1074 ≤ m.log2 := by
  rw [pow_mul_one] at h
  exact (Nat.le_log2 (lt_of_lt_of_le (Nat.two_pow_pos _) h).ne').2 h

/-- From `2 ^ 53` on, a step only multiplies. -/
theorem step_large (hk : k ≤ 52) {m d : ℕ} (hm : IsDouble m) (hlarge : 2 ^ 53 * ONE ≤ m)
    (hd : d < 2 ^ k) : ((fin false m).mul (.ofNat (2 ^ k))).add (.ofNat d)
      = if HUGE ≤ m * 2 ^ k then .inf false else .fin false (m * 2 ^ k) := by
  rw [mul_radix hk hm.bits, ofNat_digit hk hd]
  by_cases hhuge : HUGE ≤ m * 2 ^ k
  · rw [if_pos hhuge]
    rfl
  obtain ⟨a, ha, hma, hbin⟩ := hm.normal
  rw [if_neg hhuge, add_fin_fin]
  have hlog : 53 + 1074 ≤ m.log2 := le_log2_whole hlarge
  generalize hj : m.log2 - 52 = j at hma hbin
  have hj' : 1075 ≤ j := by omega
  have hj0 : j ≠ 0 := Nat.ne_of_gt (lt_of_lt_of_le (by decide) hj')
  have ha52 : 2 ^ 52 ≤ a := hbin.resolve_left hj0
  have hmul : m * 2 ^ k = a * 2 ^ (j + k) := by rw [hma, Nat.mul_assoc, Nat.pow_add]
  have hhalf : 2 * (d * ONE) < 2 ^ (j + k) := by
    calc 2 * (d * ONE) < 2 * (2 ^ k * ONE) :=
          Nat.mul_lt_mul_of_pos_left (Nat.mul_lt_mul_of_pos_right hd ONE_pos) Nat.two_pos
      _ = 2 ^ (k + 1074 + 1) := by rw [pow_mul_one, Nat.mul_comm, ← Nat.pow_succ]
      _ ≤ 2 ^ (j + k) := Nat.pow_le_pow_right Nat.two_pos (by omega)
  rw [ofQuot, hmul, round53_up ha52 ha hhalf, ← hmul, if_neg hhuge]

theorem step_inf (hk : k ≤ 52) {d : ℕ} (hd : d < 2 ^ k) :
    ((inf false).mul (.ofNat (2 ^ k))).add (.ofNat d) = .inf false := by
  rw [ofNat_radix hk, ofNat_digit hk hd,
    inf_mul false false (Nat.mul_pos (Nat.two_pow_pos k) ONE_pos).ne']
  rfl

theorem readDigits_inf (hk : k ≤ 52) {ds : List ℕ} (h : ∀ d ∈ ds, d < 2 ^ k) :
    readDigits k ds (.inf false) = .inf false := by
  induction ds with
  | nil => rfl
  | cons d ds ih =>
      rw [readDigits_cons, step_inf hk (h d List.mem_cons_self)]
      exact ih fun d' hd' => h d' (List.mem_cons_of_mem _ hd')

/-- **The rest of the reading** only multiplies. -/
theorem readDigits_large (hk : k ≤ 52) {ds : List ℕ} (h : ∀ d ∈ ds, d < 2 ^ k) {m : ℕ}
    (hm : IsDouble m) (hlarge : 2 ^ 53 * ONE ≤ m) :
    readDigits k ds (.fin false m) = if HUGE ≤ m * 2 ^ (k * ds.length) then .inf false
      else .fin false (m * 2 ^ (k * ds.length)) := by
  induction ds generalizing m with
  | nil =>
      have hlt := hm.lt_huge
      rw [List.length_nil, Nat.mul_zero, Nat.pow_zero, Nat.mul_one, if_neg (Nat.not_le.2 hlt)]
      rfl
  | cons d ds ih =>
      have hrest := fun d' hd' => h d' (List.mem_cons_of_mem d hd')
      have hmul : m * 2 ^ (k * (d :: ds).length) = m * 2 ^ k * 2 ^ (k * ds.length) := by
        rw [List.length_cons, Nat.mul_succ, Nat.add_comm, Nat.pow_add, Nat.mul_assoc]
      rw [readDigits_cons, step_large hk hm hlarge (h d List.mem_cons_self), hmul]
      by_cases hhuge : HUGE ≤ m * 2 ^ k
      · have hover := hhuge.trans (Nat.le_mul_of_pos_right (m * 2 ^ k) (Nat.two_pow_pos (k * ds.length)))
        rw [if_pos hhuge, if_pos hover]
        exact readDigits_inf hk hrest
      · obtain ⟨a, j, ha, hma⟩ := hm.bits
        have hdouble : IsDouble (m * 2 ^ k) :=
          ⟨Nat.not_le.1 hhuge, a, j + k, ha, by rw [hma, Nat.mul_assoc, Nat.pow_add]⟩
        rw [if_neg hhuge]
        exact ih hrest hdouble (hlarge.trans (Nat.le_mul_of_pos_right m (Nat.two_pow_pos k)))

/-! ## Rounding once -/

/-- A whole number from `2 ^ 53` on, in the units of its binade. -/
theorem round53_unit {n e : ℕ} (hlow : 2 ^ (52 + e) ≤ n) (hhigh : n < 2 ^ (53 + e)) :
    round53 (n * ONE) 1 = nearest n (2 ^ e) * (2 ^ e * ONE) := by
  have hlog : (n * ONE).log2 - 52 = e + 1074 := by
    refine log2_sub_eq ?_ (Or.inr ?_)
    · rw [← Nat.add_assoc, ← pow_mul_one]
      exact Nat.mul_lt_mul_of_pos_right hhigh ONE_pos
    · rw [← Nat.add_assoc, ← pow_mul_one]
      exact Nat.mul_le_mul_right _ hlow
  rw [round53, Nat.div_one, hlog, Nat.one_mul, ← pow_mul_one, nearest_mul_right _ _ ONE_pos]

theorem nearest_parts (q : ℕ) {s u : ℕ} (hs : s < 2 * u) :
    nearest (q * (2 * u) + s) (2 * u) = if s < u ∨ s = u ∧ q % 2 = 0 then q else q + 1 := by
  have hdiv : (q * (2 * u) + s) / (2 * u) = q := by
    rw [Nat.mul_comm, Nat.mul_add_div (Nat.zero_lt_of_lt hs), Nat.div_eq_of_lt hs, Nat.add_zero]
  have hmod : (q * (2 * u) + s) % (2 * u) = s := by
    rw [Nat.mul_comm, Nat.mul_add_mod, Nat.mod_eq_of_lt hs]
  have hiff : 2 * s < 2 * u ∨ 2 * s = 2 * u ∧ q % 2 = 0 ↔ s < u ∨ s = u ∧ q % 2 = 0 := by omega
  rw [nearest, hdiv, hmod]
  exact if_congr hiff rfl rfl

/-- **The digits behind a prefix** change its rounding exactly when it lies halfway over an even
number of units and one of them is not zero. -/
theorem nearest_tail (q : ℕ) {s u r t : ℕ} (hs : s < 2 * u) (ht : t < r) :
    nearest ((q * (2 * u) + s) * r + t) (2 * u * r) = nearest (q * (2 * u) + s) (2 * u) ↔
      ¬ (s = u ∧ q % 2 = 0 ∧ 0 < t) := by
  have hsum : (q * (2 * u) + s) * r + t = q * (2 * (u * r)) + (s * r + t) := by ring
  have hs' : s * r + t < 2 * (u * r) := by
    calc s * r + t < (s + 1) * r := by
          rw [Nat.succ_mul]
          omega
      _ ≤ 2 * u * r := Nat.mul_le_mul_right r hs
      _ = 2 * (u * r) := Nat.mul_assoc 2 u r
  rw [hsum, Nat.mul_assoc 2 u r, nearest_parts q hs, nearest_parts q hs']
  rcases Nat.lt_trichotomy s u with hlt | heq | hgt
  · have hle : (s + 1) * r ≤ u * r := Nat.mul_le_mul_right r hlt
    rw [Nat.succ_mul] at hle
    rw [if_pos (Or.inl hlt), if_pos (Or.inl (by omega))]
    exact iff_of_true rfl (by omega)
  · subst heq
    by_cases hq : q % 2 = 0
    · by_cases hzero : t = 0
      · rw [if_pos (Or.inr ⟨by omega, hq⟩), if_pos (Or.inr ⟨rfl, hq⟩)]
        exact iff_of_true rfl (by omega)
      · rw [if_neg (by omega), if_pos (Or.inr ⟨rfl, hq⟩)]
        exact iff_of_false (by omega) (by omega)
    · rw [if_neg (by omega), if_neg (by omega)]
      exact iff_of_true rfl (by omega)
  · have hle : (u + 1) * r ≤ s * r := Nat.mul_le_mul_right r hgt
    rw [Nat.succ_mul] at hle
    rw [if_neg (by omega), if_neg (by omega)]
    exact iff_of_true rfl (by omega)

/-- What is rounded is a double, unless it is too large. -/
theorem isDouble_round53 (n : ℕ) {d : ℕ} (hd : 0 < d) (h : round53 n d < HUGE) :
    IsDouble (round53 n d) := by
  have hle := round53_le_pow n hd
  refine ⟨h, ?_⟩
  rw [round53] at hle ⊢
  generalize (n / d).log2 - 52 = e at hle ⊢
  generalize nearest n (d * 2 ^ e) = a at hle ⊢
  rw [Nat.pow_add] at hle
  rcases Nat.eq_or_lt_of_le (Nat.le_of_mul_le_mul_right hle (Nat.two_pow_pos e)) with heq | hlt
  · refine ⟨2 ^ 52, e + 1, by decide, ?_⟩
    rw [heq, Nat.pow_succ]
    ring
  · exact ⟨a, e, hlt, rfl⟩

/-- A number in units, or the infinity that it is rounded to. -/
def inUnits (a w : ℕ) : Double :=
  if HUGE ≤ a * (2 ^ w * ONE) then .inf false else .fin false (a * (2 ^ w * ONE))

theorem inUnits_succ (a w : ℕ) : inUnits a w = inUnits (a + 1) w ↔ HUGE ≤ a * (2 ^ w * ONE) := by
  have hpos : 0 < 2 ^ w * ONE := Nat.mul_pos (Nat.two_pow_pos w) ONE_pos
  have hle : a * (2 ^ w * ONE) < (a + 1) * (2 ^ w * ONE) :=
    Nat.mul_lt_mul_of_pos_right (Nat.lt_succ_self a) hpos
  rw [inUnits, inUnits]
  generalize 2 ^ w * ONE = u at hle
  by_cases h : HUGE ≤ a * u
  · rw [if_pos h, if_pos (h.trans hle.le)]
    exact iff_of_true rfl h
  · rw [if_neg h]
    refine iff_of_false ?_ h
    split
    · exact Double.noConfusion
    · intro heq
      injection heq with _ heq
      exact hle.ne heq

/-- A number that starts in some binade is finite, rounded down, exactly when it is so itself. -/
theorem huge_le_iff {q w n : ℕ} (hq : 2 ^ 52 ≤ q) (hq' : q < 2 ^ 53) (hlow : q * 2 ^ w ≤ n)
    (hhigh : n < (q + 1) * 2 ^ w) : HUGE ≤ q * (2 ^ w * ONE) ↔ 2 ^ 1024 ≤ n := by
  have hhuge : HUGE = 2 ^ 1024 * ONE := by rw [pow_mul_one, HUGE]
  rw [hhuge, ← Nat.mul_assoc, Nat.mul_le_mul_right_iff ONE_pos]
  refine ⟨fun h => h.trans hlow, fun h => ?_⟩
  have hlt : 2 ^ 1024 < 2 ^ (53 + w) := by
    rw [Nat.pow_add]
    exact lt_of_le_of_lt h (lt_of_lt_of_le hhigh (Nat.mul_le_mul_right _ hq'))
  have hw : 1024 < 53 + w := (Nat.pow_lt_pow_iff_right Nat.one_lt_two).1 hlt
  calc 2 ^ 1024 ≤ 2 ^ (52 + w) := Nat.pow_le_pow_right Nat.two_pos (by omega)
    _ = 2 ^ 52 * 2 ^ w := Nat.pow_add 2 52 w
    _ ≤ q * 2 ^ w := Nat.mul_le_mul_right _ hq

/-- A whole number from `2 ^ 53` on, as a double. -/
theorem ofNat_units {n e : ℕ} (hlow : 2 ^ (52 + e) ≤ n) (hhigh : n < 2 ^ (53 + e)) :
    ofNat n = inUnits (nearest n (2 ^ e)) e := by
  rw [ofNat, ofQuot, round53_unit hlow hhigh]
  rfl

theorem readDigits_units (hk : k ≤ 52) {b : List ℕ} (h : ∀ d ∈ b, d < 2 ^ k) {n e : ℕ}
    (he : 1 ≤ e) (he' : e ≤ 52) (hlow : 2 ^ (52 + e) ≤ n) (hhigh : n < 2 ^ (53 + e)) :
    readDigits k b (ofNat n) = inUnits (nearest n (2 ^ e)) (e + k * b.length) := by
  have hunit := round53_unit hlow hhigh
  have hle : nearest n (2 ^ e) ≤ 2 ^ 53 := by
    refine nearest_le (Nat.two_pow_pos e) ?_
    rw [← Nat.pow_add]
    exact hhigh.le
  have hge : 2 ^ 52 ≤ nearest n (2 ^ e) := by
    refine le_nearest (Nat.two_pow_pos e) ?_
    rw [← Nat.pow_add]
    exact hlow
  generalize nearest n (2 ^ e) = a at hunit hle hge
  have hhuge : a * (2 ^ e * ONE) < HUGE := by
    have hpow : 2 ^ (53 + e + 1074) < HUGE :=
      Nat.pow_lt_pow_right Nat.one_lt_two (by omega)
    refine lt_of_le_of_lt ?_ hpow
    rw [← pow_mul_one, Nat.pow_add, Nat.mul_assoc]
    exact Nat.mul_le_mul_right _ hle
  have hdouble : IsDouble (a * (2 ^ e * ONE)) := by
    rw [← hunit] at hhuge ⊢
    exact isDouble_round53 (n * ONE) Nat.one_pos hhuge
  have hlarge : 2 ^ 53 * ONE ≤ a * (2 ^ e * ONE) := by
    rw [← Nat.mul_assoc]
    refine Nat.mul_le_mul_right _ ?_
    calc 2 ^ 53 = 2 ^ 52 * 2 ^ 1 := by decide
      _ ≤ a * 2 ^ e := Nat.mul_le_mul hge (Nat.pow_le_pow_right Nat.two_pos he)
  have hmul : a * (2 ^ e * ONE) * 2 ^ (k * b.length) = a * (2 ^ (e + k * b.length) * ONE) := by
    rw [Nat.pow_add]
    ring
  rw [ofNat, ofQuot, hunit, if_neg (Nat.not_le.2 hhuge), readDigits_large hk h hdouble hlarge, hmul]
  rfl

/-- A number halfway between two doubles. -/
theorem halfway_iff {n e : ℕ} (he : 1 ≤ e) (hlow : 2 ^ (52 + e) ≤ n) (hhigh : n < 2 ^ (53 + e)) :
    (∃ q i, n = (2 * q + 1) * 2 ^ i ∧ q % 2 = 0 ∧ 2 ^ 52 ≤ q ∧ q < 2 ^ 53) ↔
      n % 2 ^ e = 2 ^ (e - 1) ∧ n / 2 ^ e % 2 = 0 := by
  obtain ⟨i, rfl⟩ : ∃ i, e = i + 1 := ⟨e - 1, by omega⟩
  rw [Nat.add_sub_cancel]
  have hpos := Nat.two_pow_pos i
  have hpos' := Nat.two_pow_pos (i + 1)
  constructor
  · rintro ⟨q, i', hn, heven, hq, hq'⟩
    have hi : i' = i := by
      have h1 : 2 ^ (53 + i') ≤ n := by
        rw [hn, Nat.pow_add]
        exact Nat.mul_le_mul_right _ (by omega)
      have h2 : n < 2 ^ (54 + i') := by
        rw [hn, Nat.pow_add]
        exact Nat.mul_lt_mul_of_pos_right (by omega) (Nat.two_pow_pos i')
      have h3 := (Nat.pow_lt_pow_iff_right Nat.one_lt_two).1 (lt_of_le_of_lt h1 hhigh)
      have h4 := (Nat.pow_lt_pow_iff_right Nat.one_lt_two).1 (lt_of_le_of_lt hlow h2)
      omega
    subst hi
    have hsplit : n = 2 ^ (i' + 1) * q + 2 ^ i' := by
      rw [hn, Nat.pow_succ]
      ring
    have hlt : 2 ^ i' < 2 ^ (i' + 1) := Nat.pow_lt_pow_right Nat.one_lt_two (Nat.lt_succ_self i')
    rw [hsplit, Nat.mul_add_mod, Nat.mod_eq_of_lt hlt, Nat.mul_add_div hpos', Nat.div_eq_of_lt hlt]
    exact ⟨rfl, heven⟩
  · rintro ⟨hmod, heven⟩
    refine ⟨n / 2 ^ (i + 1), i, ?_, heven, ?_, ?_⟩
    · have hdiv := Nat.div_add_mod n (2 ^ (i + 1))
      rw [hmod, Nat.pow_succ] at hdiv
      rw [← hdiv, Nat.pow_succ, hdiv]
      rw [Nat.pow_succ] at hmod
      conv_lhs => rw [← hdiv]
      ring
    · rw [Nat.le_div_iff_mul_le hpos', ← Nat.pow_add]
      exact hlow
    · rw [Nat.div_lt_iff_lt_mul hpos', ← Nat.pow_add]
      exact hhigh

/-- **A numeral** whose prefix `a ++ [d]` is the first one from `2 ^ 53` on. -/
theorem readDigits_front (hk : k ≤ 52) {a b : List ℕ} {d : ℕ}
    (h : ∀ x ∈ a ++ d :: b, x < 2 ^ k) (ha : value k a < 2 ^ 53)
    (hd : 2 ^ 53 ≤ value k (a ++ [d])) :
    readDigits k (a ++ d :: b) .zero = ofNat (value k (a ++ d :: b)) ↔
      ¬ ((∃ q i, value k (a ++ [d]) = (2 * q + 1) * 2 ^ i ∧ q % 2 = 0 ∧ 2 ^ 52 ≤ q ∧ q < 2 ^ 53) ∧
        (∃ x ∈ b, x ≠ 0) ∧ value k (a ++ [d]) * 2 ^ (k * b.length) < 2 ^ 1024) := by
  have hdigit : d < 2 ^ k := h d (by simp)
  have hrest : ∀ x ∈ b, x < 2 ^ k := fun x hx => h x (by simp [hx])
  have hall : value k (a ++ d :: b)
      = value k (a ++ [d]) * 2 ^ (k * b.length) + value k b := by
    rw [← value_append, List.append_assoc]
    rfl
  have hread : readDigits k (a ++ d :: b) .zero = readDigits k b (ofNat (value k (a ++ [d]))) := by
    rw [readDigits_append, readDigits_cons,
      readDigits_small hk (fun x hx => h x (List.mem_append_left _ hx)) ha,
      step_small hk ha hdigit, value_snoc]
  have hupper : value k (a ++ [d]) < 2 ^ (53 + k) := by
    rw [value_snoc, Nat.pow_add]
    calc value k a * 2 ^ k + d < (value k a + 1) * 2 ^ k := by
          rw [Nat.succ_mul]
          omega
      _ ≤ 2 ^ 53 * 2 ^ k := Nat.mul_le_mul_right _ ha
  have htail := value_lt hrest
  rw [hall, hread, ← value_pos_iff (k := k) b]
  generalize value k (a ++ [d]) = n at hd hupper
  generalize value k b = t at htail
  have hne : n ≠ 0 := Nat.ne_of_gt (lt_of_lt_of_le (Nat.two_pow_pos 53) hd)
  have hlog : 53 ≤ n.log2 := (Nat.le_log2 hne).2 hd
  have hlog' : n.log2 < 53 + k := (Nat.log2_lt hne).2 hupper
  obtain ⟨i, hi⟩ : ∃ i, n.log2 = 53 + i := ⟨n.log2 - 53, by omega⟩
  have hlow : 2 ^ (52 + (i + 1)) ≤ n := by
    have hself := Nat.log2_self_le hne
    rwa [hi, show 53 + i = 52 + (i + 1) by omega] at hself
  have hhigh : n < 2 ^ (53 + (i + 1)) := (Nat.log2_lt hne).1 (by omega)
  have hi1 : 1 ≤ i + 1 := Nat.succ_pos i
  rw [halfway_iff hi1 hlow hhigh, readDigits_units hk hrest hi1 (by omega) hlow hhigh,
    Nat.add_sub_cancel]
  generalize hr : k * b.length = j at htail ⊢
  -- the two roundings, in units of the binade of the whole numeral
  have hlow' : 2 ^ (52 + (i + 1 + j)) ≤ n * 2 ^ j + t := by
    rw [← Nat.add_assoc, Nat.pow_add]
    exact (Nat.mul_le_mul_right _ hlow).trans (Nat.le_add_right _ _)
  have hhigh' : n * 2 ^ j + t < 2 ^ (53 + (i + 1 + j)) := by
    rw [← Nat.add_assoc, Nat.pow_add]
    calc n * 2 ^ j + t < (n + 1) * 2 ^ j := by
          rw [Nat.succ_mul]
          omega
      _ ≤ 2 ^ (53 + (i + 1)) * 2 ^ j := Nat.mul_le_mul_right _ hhigh
  rw [ofNat_units hlow' hhigh']
  have hpos := Nat.two_pow_pos (i + 1)
  have hdouble : 2 ^ (i + 1) = 2 * 2 ^ i := by rw [Nat.pow_succ, Nat.mul_comm]
  have hunits : 2 ^ (i + 1 + j) = 2 * 2 ^ i * 2 ^ j := by rw [Nat.pow_add, hdouble]
  have hdiv : n / 2 ^ (i + 1) * (2 * 2 ^ i) + n % 2 ^ (i + 1) = n := by
    rw [← hdouble, Nat.mul_comm]
    exact Nat.div_add_mod n _
  have hmod : n % 2 ^ (i + 1) < 2 * 2 ^ i := hdouble ▸ Nat.mod_lt n hpos
  have hq : 2 ^ 52 ≤ n / 2 ^ (i + 1) := by
    rw [Nat.le_div_iff_mul_le hpos, ← Nat.pow_add]
    exact hlow
  have hq' : n / 2 ^ (i + 1) < 2 ^ 53 := by
    rw [Nat.div_lt_iff_lt_mul hpos, ← Nat.pow_add]
    exact hhigh
  have hnear := nearest_tail (n / 2 ^ (i + 1)) (t := t) (r := 2 ^ j) hmod htail
  have hparts := nearest_parts (n / 2 ^ (i + 1)) hmod
  rw [hdiv] at hnear hparts
  rw [← hdouble] at hparts
  rw [← hunits, ← hdouble] at hnear
  by_cases hcut : n % 2 ^ (i + 1) = 2 ^ i ∧ n / 2 ^ (i + 1) % 2 = 0 ∧ 0 < t
  · -- the prefix is rounded down, and the numeral up
    obtain ⟨hs, heven, htpos⟩ := hcut
    rw [hparts, if_pos (Or.inr ⟨hs, heven⟩)]
    generalize n / 2 ^ (i + 1) = q at hdiv hq hq' heven
    rw [hs] at hdiv
    have hn : n * 2 ^ j + t = q * (2 * (2 ^ i * 2 ^ j)) + (2 ^ i * 2 ^ j + t) := by
      rw [← hdiv]
      ring
    have hle : 2 ^ j ≤ 2 ^ i * 2 ^ j := Nat.le_mul_of_pos_left _ (Nat.two_pow_pos i)
    have hup : nearest (n * 2 ^ j + t) (2 ^ (i + 1 + j)) = q + 1 := by
      rw [hn, hunits, Nat.mul_assoc, nearest_parts q (by omega), if_neg (by omega)]
    have hlow'' : q * 2 ^ (i + 1 + j) ≤ n * 2 ^ j := by
      rw [hunits, ← Nat.mul_assoc]
      exact Nat.mul_le_mul_right _ (by omega)
    have hhigh'' : n * 2 ^ j < (q + 1) * 2 ^ (i + 1 + j) := by
      rw [hunits, ← Nat.mul_assoc]
      refine Nat.mul_lt_mul_of_pos_right ?_ (Nat.two_pow_pos j)
      rw [Nat.succ_mul]
      have := Nat.two_pow_pos i
      omega
    rw [hup, inUnits_succ, huge_le_iff hq hq' hlow'' hhigh'', ← Nat.not_lt]
    exact not_congr ⟨fun hlt => ⟨⟨hs, heven⟩, htpos, hlt⟩, fun h => h.2.2⟩
  · rw [hnear.2 hcut]
    exact iff_of_true rfl fun hfail => hcut ⟨hfail.1.1, hfail.1.2, hfail.2.1⟩

theorem exists_prefix {ds : List ℕ} (h : 2 ^ 53 ≤ value k ds) :
    ∃ a d b, ds = a ++ d :: b ∧ value k a < 2 ^ 53 ∧ 2 ^ 53 ≤ value k (a ++ [d]) := by
  induction ds using List.reverseRecOn with
  | nil =>
      have hzero : value k [] = 0 := rfl
      rw [hzero] at h
      exact absurd h (by decide)
  | append_singleton ds d ih =>
      rcases Nat.lt_or_ge (value k ds) (2 ^ 53) with hlt | hge
      · exact ⟨ds, d, [], rfl, hlt, h⟩
      · obtain ⟨a, d', b, rfl, ha, hd⟩ := ih hge
        exact ⟨a, d', b ++ [d], by simp, ha, hd⟩

/-- **A numeral is rounded once** unless its first prefix from `2 ^ 53` on is cut halfway. -/
theorem readDigits_iff (hk : k ≤ 52) {ds : List ℕ} (h : ∀ x ∈ ds, x < 2 ^ k) :
    readDigits k ds .zero = ofNat (value k ds) ↔ ¬ Cut k ds := by
  constructor
  · rintro heq ⟨a, d, b, q, i, rfl, ha, hhalf, heven, hq, hq', hrest⟩
    have hd : 2 ^ 53 ≤ value k (a ++ [d]) := by
      rw [hhalf]
      calc 2 ^ 53 ≤ 2 * q + 1 := by omega
        _ ≤ (2 * q + 1) * 2 ^ i := Nat.le_mul_of_pos_right _ (Nat.two_pow_pos i)
    exact (readDigits_front hk h ha hd).1 heq ⟨⟨q, i, hhalf, heven, hq, hq'⟩, hrest⟩
  · intro hcut
    rcases Nat.lt_or_ge (value k ds) (2 ^ 53) with hlt | hge
    · rw [readDigits_small hk h hlt, ofNat_exact hlt.le]
    · obtain ⟨a, d, b, rfl, ha, hd⟩ := exists_prefix hge
      refine (readDigits_front hk h ha hd).2 ?_
      rintro ⟨⟨q, i, hhalf, heven, hq, hq'⟩, hrest⟩
      exact hcut ⟨a, d, b, q, i, rfl, ha, hhalf, heven, hq, hq', hrest⟩

end Double
end Lib
end Lunar
