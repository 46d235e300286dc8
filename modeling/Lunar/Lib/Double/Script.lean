/-
# Numbers as a script writes them

`Number::toString` of the language writes the shortest digits of a double that read back,
with zeros behind them up to the point, or with an exponent when the point is far away.  A
whole number below `2 ^ 53` has no shorter digits than its own without the last zeros: other
multiples of a power of ten are other doubles.  So it is written in full (`script_whole`).
-/

import Mathlib.Data.Nat.Log
import Mathlib.Data.Nat.Multiplicity
import Lunar.Lib.Decimal
import Lunar.Lib.Double.Exact

namespace Lunar
namespace Lib
namespace Double

open Decimal (spell)

/-- Digits with their point at `n`, as a script writes them. -/
def scriptLayout (ds : List Char) (n : ℤ) : List Char :=
  if ds.length ≤ n ∧ n ≤ 21 then ds ++ List.replicate (n.toNat - ds.length) '0'
  else if 0 < n ∧ n ≤ 21 then ds.take n.toNat ++ ['.'] ++ ds.drop n.toNat
  else if -6 < n ∧ n ≤ 0 then ['0', '.'] ++ List.replicate (-n).toNat '0' ++ ds
  else
    let exp := ['e', if n - 1 < 0 then '-' else '+'] ++ Nat.toDigits 10 (n - 1).natAbs
    match ds with
    | [d] => d :: exp
    | ds => ds.take 1 ++ ['.'] ++ ds.drop 1 ++ exp

/-- `Number::toString`, in UTF-16 units. -/
def script (x : Double) : List ℕ :=
  let chars :=
    match x with
    | .nan => "NaN".toList
    | .inf neg => if neg then "-Infinity".toList else "Infinity".toList
    | .fin neg m =>
      if m = 0 then ['0']
      else
        let body := scriptLayout (shortest m).1 (shortest m).2
        if neg then '-' :: body else body
  chars.map Char.toNat

/-! ## Digits -/

theorem toNat_digitChar {d : ℕ} (h : d < 10) : (Nat.digitChar d).toNat = 48 + d := by
  have hall : ∀ d < 10, (Nat.digitChar d).toNat = 48 + d := by decide
  exact hall d h

theorem map_toDigits {n : ℕ} (hn : n ≠ 0) :
    (Nat.toDigits 10 n).map Char.toNat = Decimal.digits n := by
  have hdigits (n : ℕ) : n ≠ 0 → (Nat.toDigits 10 n).map Char.toNat
      = (Nat.digits 10 n).reverse.map (48 + ·) := by
    induction n using Nat.strong_induction_on with
    | h n ih =>
        intro hn
        rw [Nat.toDigits_eq_if (by decide), Nat.digits_def' (by decide) (Nat.pos_of_ne_zero hn),
          List.reverse_cons, List.map_append, List.map_singleton]
        have hmod : n % 10 < 10 := Nat.mod_lt n (by decide)
        by_cases hlt : n < 10
        · have hdiv : n / 10 = 0 := Nat.div_eq_of_lt hlt
          rw [if_pos hlt, List.map_singleton, toNat_digitChar hlt, hdiv, Nat.mod_eq_of_lt hlt]
          rfl
        · have hdiv : n / 10 ≠ 0 := by omega
          rw [if_neg hlt, List.map_append, List.map_singleton, toNat_digitChar hmod,
            ih (n / 10) (by omega) hdiv]
  rw [Decimal.digits, if_neg hn, hdigits n hn]

/-- Zeros behind the digits. -/
theorem toDigits_mul_pow {c : ℕ} (hc : c ≠ 0) (z : ℕ) :
    Nat.toDigits 10 (c * 10 ^ z) = Nat.toDigits 10 c ++ List.replicate z '0' := by
  induction z with
  | zero => simp
  | succ z ih =>
      have hpos : 0 < c * 10 ^ z := Nat.mul_pos (Nat.pos_of_ne_zero hc) (Nat.pow_pos (by decide))
      have hmul : c * 10 ^ (z + 1) = 10 * (c * 10 ^ z) + 0 := by ring
      rw [hmul, ← Nat.toDigits_append_toDigits (by decide) hpos (by decide), ih,
        List.append_assoc, List.replicate_succ']
      rfl

/-- The number of digits. -/
theorem length_toDigits {n : ℕ} (hn : n ≠ 0) : (Nat.toDigits 10 n).length = Nat.log 10 n + 1 := by
  have hle : (Nat.toDigits 10 n).length ≤ Nat.log 10 n + 1 :=
    (Nat.length_toDigits_le_iff (by decide) (Nat.succ_pos _)).2
      (Nat.lt_pow_succ_log_self (by decide) n)
  have hge : Nat.log 10 n < (Nat.toDigits 10 n).length := by
    rcases Nat.eq_zero_or_pos (Nat.log 10 n) with hzero | hpos
    · rw [hzero]
      exact Nat.length_toDigits_pos
    · refine Nat.lt_of_not_le fun hlen => ?_
      have hlt := (Nat.length_toDigits_le_iff (b := 10) (by decide) hpos).1 hlen
      exact absurd (Nat.pow_log_le_self 10 hn) (Nat.not_le.2 hlt)
  omega

/-! ## Reading back -/

/-- Rounding does not pass a power of two. -/
theorem le_round53 {y j : ℕ} (hj : 52 ≤ j) (hy : 2 ^ j ≤ y) : 2 ^ j ≤ round53 y 1 := by
  have hpos : y ≠ 0 := (Nat.lt_of_lt_of_le (Nat.two_pow_pos j) hy).ne'
  have hlog : j ≤ y.log2 := (Nat.le_log2 hpos).2 hy
  have hself := Nat.log2_self_le hpos
  rw [round53, Nat.div_one, Nat.one_mul]
  generalize hd : 2 ^ (y.log2 - 52) = d
  have hsplit : 2 ^ y.log2 = 2 ^ 52 * d := by
    rw [← hd, ← Nat.pow_add, Nat.add_sub_cancel' (hj.trans hlog)]
  have hdpos : 0 < d := hd ▸ Nat.two_pow_pos _
  have hdiv : 2 ^ 52 ≤ y / d := by
    rw [Nat.le_div_iff_mul_le hdpos, ← hsplit]
    exact hself
  have hnearest : y / d ≤ nearest y d := by
    rw [nearest]
    split
    · exact Nat.le_refl _
    · exact Nat.le_succ _
  calc 2 ^ j ≤ 2 ^ y.log2 := Nat.pow_le_pow_right Nat.two_pos hlog
    _ = 2 ^ 52 * d := hsplit
    _ ≤ nearest y d * d := Nat.mul_le_mul_right d (hdiv.trans hnearest)

/-- A number from `2 ^ 53` on is no double below. -/
theorem ofNat_large {x n : ℕ} (hx : 2 ^ 53 ≤ x) (hn : n < 2 ^ 53) :
    ofNat x ≠ .fin false (n * ONE) := by
  have hone : 2 ^ 53 * ONE = 2 ^ (53 + 1074) := by
    rw [ONE, ← Nat.pow_add]
  have hround : 2 ^ 53 * ONE ≤ round53 (x * ONE) 1 := by
    rw [hone]
    refine le_round53 (by omega) ?_
    rw [← hone]
    exact Nat.mul_le_mul_right ONE hx
  have hlt : n * ONE < 2 ^ 53 * ONE := Nat.mul_lt_mul_of_pos_right hn ONE_pos
  rw [ofNat, ofQuot]
  split
  · intro heq
    cases heq
  · intro heq
    injection heq with _ heq
    omega

/-- A natural number reads back as a whole number below `2 ^ 53` only if it is this number. -/
theorem ofNat_eq_iff {x n : ℕ} (hn : n < 2 ^ 53) : ofNat x = .fin false (n * ONE) ↔ x = n := by
  rcases Nat.lt_or_ge x (2 ^ 53) with hx | hx
  · rw [ofNat_exact hx.le, Double.fin.injEq, Nat.mul_left_inj ONE_pos.ne']
    exact and_iff_right rfl
  · refine iff_of_false (ofNat_large hx hn) (by omega)

/-- The place of the point of a whole number. -/
theorem place_whole {n : ℕ} (hn : n ≠ 0) : place (n * ONE) = Nat.log 10 n + 1 := by
  have hmul : 10 ^ 400 * (n * ONE) / ONE = n * 10 ^ 400 := by
    rw [← Nat.mul_assoc, Nat.mul_div_cancel _ ONE_pos, Nat.mul_comm]
  have hlog (k : ℕ) : Nat.log 10 (n * 10 ^ k) = Nat.log 10 n + k := by
    induction k with
    | zero => rw [Nat.pow_zero, Nat.mul_one, Nat.add_zero]
    | succ k ih =>
        rw [Nat.pow_succ, ← Nat.mul_assoc, Nat.log_mul_base (by decide), ih, Nat.add_assoc]
        exact Nat.mul_ne_zero hn (Nat.pow_pos (by decide)).ne'
  rw [place, hmul, hlog]
  push_cast
  ring

/-- With fewer digits than a whole number has, only the number itself is written. -/
theorem withDigits_whole {n e k : ℕ} (hzero : n ≠ 0) (hn : n < 2 ^ 53)
    (hk : k + e = Nat.log 10 n + 1) :
    withDigits (n * ONE) k = if 10 ^ e ∣ n then some (n / 10 ^ e) else none := by
  have hpos : 0 < 10 ^ e := Nat.pow_pos (by decide)
  have he : place (n * ONE) - k = (e : ℤ) := by
    rw [place_whole hzero]
    omega
  have hdec (c : ℕ) : ofDecimal false c (e : ℤ) = .fin false (n * ONE) ↔ c * 10 ^ e = n := by
    have hnat : ofDecimal false c (e : ℤ) = ofNat (c * 10 ^ e) := by
      have hneg : (-(e : ℤ)).toNat = 0 := by omega
      rw [ofDecimal, hneg, Int.toNat_natCast, Nat.pow_zero, ofNat]
    rw [hnat, ofNat_eq_iff hn]
  have hneg : (-(e : ℤ)).toNat = 0 := by omega
  have hdiv : n * ONE / (ONE * 10 ^ e) = n / 10 ^ e := by
    rw [Nat.mul_comm ONE, Nat.mul_div_mul_right _ _ ONE_pos]
  have hmod : n * ONE % (ONE * 10 ^ e) = n % 10 ^ e * ONE := by
    rw [Nat.mul_comm ONE, Nat.mul_mod_mul_right]
  have hsucc : (n / 10 ^ e + 1) * 10 ^ e ≠ n := by
    have hlt := Nat.lt_div_mul_add hpos (a := n)
    rw [Nat.succ_mul]
    omega
  rw [withDigits]
  dsimp only
  rw [he, hneg, Int.toNat_natCast, Nat.pow_zero, Nat.mul_one, hdiv, hmod]
  simp only [hdec]
  by_cases hdvd : 10 ^ e ∣ n
  · have hself : n / 10 ^ e * 10 ^ e = n := Nat.div_mul_cancel hdvd
    have hrem : n % 10 ^ e = 0 := Nat.mod_eq_zero_of_dvd hdvd
    rw [if_pos hdvd, if_pos]
    refine ⟨hself, .inl ?_⟩
    rw [hrem, Nat.zero_mul, Nat.mul_zero]
    exact Nat.mul_pos ONE_pos hpos
  · have hself : n / 10 ^ e * 10 ^ e ≠ n := fun heq => hdvd ⟨n / 10 ^ e, by rw [Nat.mul_comm, heq]⟩
    rw [if_neg hdvd, if_neg fun h => hself h.1, if_neg hsucc]

/-- **The shortest digits of a whole number** are its own without the last zeros. -/
theorem shortest_whole {c z : ℕ} (hc : ¬ 10 ∣ c) (hn : c * 10 ^ z < 2 ^ 53) :
    shortest (c * 10 ^ z * ONE)
      = (Nat.toDigits 10 c, ((Nat.log 10 (c * 10 ^ z) + 1 : ℕ) : ℤ)) := by
  have hc0 : c ≠ 0 := fun h => hc (h ▸ Nat.dvd_zero 10)
  have hpos : 0 < 10 ^ z := Nat.pow_pos (by decide)
  have hzero : c * 10 ^ z ≠ 0 := Nat.mul_ne_zero hc0 hpos.ne'
  have hdigits := toDigits_mul_pow hc0 z
  have hlen : (Nat.toDigits 10 c).length + z = Nat.log 10 (c * 10 ^ z) + 1 := by
    rw [← length_toDigits hzero, hdigits, List.length_append, List.length_replicate]
  have hlog : Nat.log 10 (c * 10 ^ z) < 16 := by
    refine (Nat.log_lt_iff_lt_pow (by decide) hzero).2 ?_
    omega
  have hpow : c < 10 ^ (Nat.toDigits 10 c).length :=
    (Nat.length_toDigits_le_iff (by decide) Nat.length_toDigits_pos).1 (Nat.le_refl _)
  have hlenpos : 0 < (Nat.toDigits 10 c).length := Nat.length_toDigits_pos
  have hfewest : fewest (c * 10 ^ z * ONE) = some (c, (Nat.toDigits 10 c).length) := by
    generalize (Nat.toDigits 10 c).length = k at hlen hlenpos
    refine List.findSome?_eq_some_iff.2 ⟨List.range' 1 (k - 1), k, List.range' (k + 1) (17 - k),
      ?_, ?_, fun k' hk' => ?_⟩
    · have hk : 1 + (k - 1) = k := by omega
      have hsplit : List.range' 1 17
          = List.range' 1 (k - 1) ++ List.range' (1 + (k - 1)) (18 - k) := by
        rw [List.range'_append_1]
        congr 1
        omega
      have hrest : 18 - k = 17 - k + 1 := by omega
      rw [hsplit, hk, hrest]
      rfl
    · rw [withDigits_whole hzero hn hlen, if_pos (Nat.dvd_mul_left _ _),
        Nat.mul_div_cancel _ hpos]
      rfl
    · obtain ⟨hk₁, hk₂⟩ := List.mem_range'_1.1 hk'
      have he : k' + (z + (k - k')) = Nat.log 10 (c * 10 ^ z) + 1 := by omega
      rw [withDigits_whole hzero hn he, if_neg]
      · rfl
      · intro hdvd
        have hle : 10 ^ (z + 1) ∣ c * 10 ^ z :=
          (Nat.pow_dvd_pow 10 (by omega)).trans hdvd
        rw [Nat.pow_succ, Nat.mul_comm (10 ^ z)] at hle
        exact hc (Nat.dvd_of_mul_dvd_mul_right hpos hle)
  have hlast : (Nat.toDigits 10 c).rdropWhile (· = '0') = Nat.toDigits 10 c := by
    have hdigit : ∀ d < 10, Nat.digitChar d = '0' → d = 0 := by decide
    refine List.rdropWhile_eq_self_iff.2 fun _ hchar => ?_
    have hchar := of_decide_eq_true hchar
    have heq := Nat.toDigits_eq_if (n := c) (b := 10) (by decide)
    by_cases hlt : c < 10
    · simp only [Nat.toDigits_of_lt_base hlt, List.getLast_singleton] at hchar
      exact hc0 (hdigit c hlt hchar)
    · rw [if_neg hlt] at heq
      simp only [heq, List.getLast_append_singleton] at hchar
      have hmod := hdigit _ (Nat.mod_lt c (by decide)) hchar
      exact hc (Nat.dvd_of_mod_eq_zero hmod)
  rw [shortest, hfewest, written, hlast, if_neg hpow.ne, place_whole hzero]
  rfl

theorem natAbs_signed (neg : Bool) (n : ℕ) : (signed neg n).natAbs = n := by
  cases neg <;> simp [signed]

theorem script_zero (neg : Bool) : script (.fin neg 0) = spell 0 := by
  cases neg <;> decide

/-- **A whole number below `2 ^ 53` is written in full.** -/
theorem script_whole (neg : Bool) {n : ℕ} (hn : n < 2 ^ 53) :
    script (.fin neg (n * ONE)) = spell (signed neg n) := by
  by_cases hzero : n = 0
  · subst hzero
    rw [Nat.zero_mul, script_zero]
    cases neg <;> rfl
  obtain ⟨z, c, hc, heq⟩ := Nat.exists_eq_pow_mul_and_not_dvd hzero 10 (by decide)
  rw [Nat.mul_comm] at heq
  subst heq
  have hc0 : c ≠ 0 := fun h => hc (h ▸ Nat.dvd_zero 10)
  have hdigits := toDigits_mul_pow hc0 z
  have hlen : (Nat.toDigits 10 c).length + z = Nat.log 10 (c * 10 ^ z) + 1 := by
    rw [← length_toDigits hzero, hdigits, List.length_append, List.length_replicate]
  have hlog : Nat.log 10 (c * 10 ^ z) < 16 := by
    refine (Nat.log_lt_iff_lt_pow (by decide) hzero).2 ?_
    omega
  have hmag : c * 10 ^ z * ONE ≠ 0 := Nat.mul_ne_zero hzero ONE_pos.ne'
  have hbody : scriptLayout (shortest (c * 10 ^ z * ONE)).1 (shortest (c * 10 ^ z * ONE)).2
      = Nat.toDigits 10 (c * 10 ^ z) := by
    have hz : (((Nat.log 10 (c * 10 ^ z) + 1 : ℕ) : ℤ)).toNat - (Nat.toDigits 10 c).length = z := by
      omega
    rw [shortest_whole hc hn, scriptLayout]
    dsimp only
    rw [if_pos ⟨by omega, by omega⟩, hz, hdigits]
  have hchars := map_toDigits hzero
  unfold script
  dsimp only
  rw [if_neg hmag, hbody]
  cases neg with
  | true =>
      have hneg : signed true (c * 10 ^ z) < 0 := by
        simp only [signed, if_true]
        omega
      rw [spell, if_pos hneg, if_pos rfl, List.map_cons, hchars, natAbs_signed]
      rfl
  | false =>
      have hneg : ¬ signed false (c * 10 ^ z) < 0 := by
        simp only [signed, Bool.false_eq_true, if_false]
        omega
      rw [spell, if_neg hneg, if_neg Bool.false_ne_true, hchars, natAbs_signed]

end Double
end Lib
end Lunar
