/-
# Two printers of decimals

`toFixed` of `payload/exec.rs` and `js_to_fixed` of `payload/values.rs`.  The first leaves the
rounding to the formatter of the runtime, which takes the even one of two decimals that are as
close, and keeps the sign of a zero.  The second prints 80 digits and rounds these half up, which
is what a script does unless the 80 digits end in a halfway case that the number is below.
`toFixed_iff` says where both print what a script prints.
-/

import Lunar.Lib.Double.Fixed
import Lunar.Payload.Interp.Integers

namespace Lunar

open Lib (Double)
open Lib.Double (ONE ONE_pos HUGE nearest halfUp pointed low bump fixed ScriptFixed)
open Lib.Numeral (fromDigit)
open Interp (numToStr)

/-- `Nat::ToFixed`, for the number of digits `d`. -/
def Interp.toFixed (x : Double) (d : ℕ) : String :=
  if x.abs.ge (.ofNat (10 ^ 21)) || !x.isFinite then numToStr x else String.ofList (fixed d x)

namespace Values

def FIXED_PRECISION : ℕ := 80

/-- The digits of a decimal, rounded to `d` of them behind the point. -/
def roundDigits (s : List Char) (d : ℕ) : List Char :=
  let int := s.takeWhile (· ≠ '.')
  let frac := (s.dropWhile (· ≠ '.')).drop 1
  let digits := int ++ frac.take (min d frac.length)
  let up :=
    match frac.drop (min d frac.length) with
    | c :: _ => decide ('5' < c) || decide (c = '5')
    | [] => false
  if up then (bump digits.reverse).reverse else digits

/-- `js_to_fixed`; `none` is a panic. -/
def jsToFixed (x : Double) (d : ℕ) : Option String :=
  if !x.isFinite || x.abs.ge (.ofNat (10 ^ 21)) then some (numToStr x)
  else
    let neg := x.lt .zero
    let digits := roundDigits (fixed FIXED_PRECISION x.abs) d
    if digits.length < d then none
    else
      let split := digits.length - d
      let out := digits.take split ++ if 0 < d then '.' :: digits.drop split else []
      some (String.ofList (if neg then '-' :: out else out))

/-! ## Numbers below the bound -/

theorem ge_limit (a : Bool) (m : ℕ) :
    (Double.fin a m).abs.ge (.ofNat (10 ^ 21)) = decide (10 ^ 21 * ONE ≤ m) := by
  rw [Interp.ofNat_limit, Double.abs, Double.ge_fin]
  simp only [Double.signed, Bool.false_eq_true, if_false, Int.ofNat_le]

variable {a : Bool} {m d : ℕ}

theorem toFixed_fin (hm : m < 10 ^ 21 * ONE) : Interp.toFixed (.fin a m) d
    = String.ofList (if a then '-' :: pointed d (nearest (m * 10 ^ d) ONE)
      else pointed d (nearest (m * 10 ^ d) ONE)) := by
  rw [Interp.toFixed, ge_limit, decide_eq_false (not_le.2 hm)]
  rfl

theorem pointed_inj {n n' : ℕ} (h : pointed d n = pointed d n') : n = n' := by
  rw [Double.pointed_eq, Double.pointed_eq] at h
  have hlen (n : ℕ) : (((low (d + 1) n).map fromDigit).take d).length = d := by
    rw [List.length_take, List.length_map, Double.low_length]
    omega
  refine Double.low_inj (d + 1) (d + 1) ?_
  by_cases hd : d = 0
  · simp only [if_pos hd, List.append_nil, List.reverse_inj] at h
    simpa [hd] using h
  · simp only [if_neg hd] at h
    obtain ⟨hint, hfrac⟩ := List.append_inj' h (by
      rw [List.length_cons, List.length_cons, List.length_reverse, List.length_reverse, hlen, hlen])
    rw [List.reverse_inj] at hint
    rw [List.cons_inj_right, List.reverse_inj] at hfrac
    rw [← List.take_append_drop d ((low (d + 1) n).map fromDigit), hint, hfrac,
      List.take_append_drop]

/-- **The formatter** prints what a script prints, but for a negative zero and the halfway cases
above an even integer. -/
theorem toFixed_script (hm : m < 10 ^ 21 * ONE) :
    ScriptFixed (.fin a m) d (Interp.toFixed (.fin a m) d) ↔
      ¬ (a = true ∧ m = 0) ∧ ¬ ∃ k, k % 2 = 0 ∧ 2 * (m * 10 ^ d) = (2 * k + 1) * ONE := by
  rw [Double.scriptFixed_iff, toFixed_fin hm, String.ofList_inj,
    ← Double.nearest_eq_halfUp_iff ONE_pos]
  cases a with
  | false =>
      simp only [Bool.false_eq_true, if_false, Bool.false_and, false_and, not_false_eq_true,
        true_and]
      exact ⟨pointed_inj, fun h => by rw [h]⟩
  | true =>
      by_cases hzero : m = 0
      · have hnearest : nearest (m * 10 ^ d) ONE = halfUp (m * 10 ^ d) ONE := by
          have hhalf : halfUp 0 ONE = 0 := (Double.halfUp_eq_iff ONE_pos).2 (by
            have := ONE_pos
            omega)
          rw [hzero, Nat.zero_mul, hhalf]
          exact Nat.le_zero.1 (Double.nearest_le ONE_pos (Nat.zero_le _))
        rw [hnearest]
        refine iff_of_false (fun h => ?_) (fun h => h.1 ⟨rfl, hzero⟩)
        have hlen := congrArg List.length h
        simp [hzero] at hlen
      · simp only [hzero, decide_not, decide_false, Bool.not_false, Bool.and_true, if_true,
          and_false, not_false_eq_true, true_and, List.cons_inj_right]
        exact ⟨pointed_inj, fun h => by rw [h]⟩

/-! ## The printer with 80 digits -/

theorem ne_point {n w : ℕ} {c : Char} (hc : c ∈ (low w n).map fromDigit) : c ≠ '.' := by
  obtain ⟨x, hx, rfl⟩ := List.mem_map.1 hc
  have hall : ∀ x < 10, fromDigit x ≠ '.' := by decide
  exact hall x (Double.low_lt hx)

/-- The parts of a decimal before and behind its point. -/
theorem split_pointed {p : ℕ} (hp : 0 < p) (n : ℕ) :
    (pointed p n).takeWhile (· ≠ '.') = (((low (p + 1) n).map fromDigit).drop p).reverse ∧
      ((pointed p n).dropWhile (· ≠ '.')).drop 1
        = (((low (p + 1) n).map fromDigit).take p).reverse := by
  have hint : ∀ c ∈ (((low (p + 1) n).map fromDigit).drop p).reverse, decide (c ≠ '.') = true :=
    fun c hc => decide_eq_true (ne_point (List.mem_of_mem_drop (List.mem_reverse.1 hc)))
  rw [Double.pointed_eq, if_neg hp.ne']
  constructor
  · rw [List.takeWhile_append_of_pos hint]
    simp
  · rw [List.dropWhile_append_of_pos hint]
    simp

/-- What the digits behind the last one printed decide. -/
theorem carry_halfUp {n k : ℕ} :
    (if 5 ≤ n / 10 ^ k % 10 then n / 10 ^ (k + 1) + 1 else n / 10 ^ (k + 1))
      = halfUp n (10 ^ (k + 1)) := by
  have hpos : 0 < 10 ^ k := Nat.pow_pos (by decide)
  have hpow : 10 ^ (k + 1) = 10 * 10 ^ k := Nat.pow_succ'
  have hdiv := Nat.div_add_mod n (10 ^ k)
  have hmod := Nat.mod_lt n hpos
  have hdigit : n / 10 ^ (k + 1) = n / 10 ^ k / 10 := by
    rw [Nat.div_div_eq_div_mul, Nat.pow_succ]
  symm
  rw [Double.halfUp_eq_iff (Nat.pow_pos (by decide)), hdigit, hpow]
  set q := n / 10 ^ k with hq
  set t := 10 ^ k with ht
  have hqdiv := Nat.div_add_mod q 10
  have hqmod := Nat.mod_lt q (show 0 < 10 by decide)
  have hn : n = (10 * (q / 10) + q % 10) * t + n % t := by
    rw [hqdiv, Nat.mul_comm q]
    exact hdiv.symm
  generalize q / 10 = b at *
  generalize q % 10 = c at *
  generalize n % t = s at *
  have hbt : (10 * b + c) * t = 10 * (b * t) + c * t := by ring
  have hbt' : b * (10 * t) = 10 * (b * t) := by ring
  have hct : (b + 1) * (10 * t) = 10 * (b * t) + 10 * t := by ring
  split
  · rename_i h
    have hlow : 5 * t ≤ c * t := Nat.mul_le_mul_right t h
    have hhigh : c * t ≤ 9 * t := Nat.mul_le_mul_right t (by omega)
    rw [hct]
    omega
  · rename_i h
    have hhigh : c * t ≤ 4 * t := Nat.mul_le_mul_right t (by omega)
    rw [hbt']
    omega

theorem five_le {x : ℕ} (hx : x < 10) :
    (decide ('5' < fromDigit x) || decide (fromDigit x = '5')) = decide (5 ≤ x) := by
  have hall : ∀ x < 10, (decide ('5' < fromDigit x) || decide (fromDigit x = '5'))
      = decide (5 ≤ x) := by decide
  exact hall x hx

/-- The integer whose digits `js_to_fixed` prints. -/
def shown (n d : ℕ) : ℕ := if d = FIXED_PRECISION then n else halfUp n (10 ^ (FIXED_PRECISION - d))

theorem roundDigits_pointed {n : ℕ} (hd : d ≤ FIXED_PRECISION) :
    roundDigits (pointed FIXED_PRECISION n) d
      = ((low (d + 1) (shown n d)).map fromDigit).reverse := by
  obtain ⟨hint, hfrac⟩ := split_pointed (p := FIXED_PRECISION) (by decide) n
  obtain ⟨k, hk⟩ := Nat.exists_eq_add_of_le hd
  set L := (low (FIXED_PRECISION + 1) n).map fromDigit with hL
  have hlen : FIXED_PRECISION < L.length := by
    rw [hL, List.length_map, Double.low_length]
    omega
  have hfraclen : (L.take FIXED_PRECISION).reverse.length = FIXED_PRECISION := by
    rw [List.length_reverse, List.length_take]
    omega
  have htake : (L.drop FIXED_PRECISION).reverse ++ (L.take FIXED_PRECISION).reverse.take d
      = ((low (d + 1) (n / 10 ^ k)).map fromDigit).reverse := by
    have hlow : (low (d + 1) (n / 10 ^ k)).map fromDigit = L.drop k := by
      rw [hL, ← List.map_drop, hk, Nat.add_comm d k, Nat.add_assoc, Double.low_add]
    have hsub : (L.take FIXED_PRECISION).length - d = k := by
      rw [List.length_take]
      omega
    have hdrop : (L.take FIXED_PRECISION).drop k ++ L.drop FIXED_PRECISION = L.drop k := by
      rw [← List.drop_append_of_le_length (by rw [List.length_take]; omega),
        List.take_append_drop]
    rw [hlow, List.take_reverse, hsub, ← List.reverse_append, hdrop]
  have hrest : (L.take FIXED_PRECISION).reverse.drop d = (L.take k).reverse := by
    have hsub : (L.take FIXED_PRECISION).length - d = k := by
      rw [List.length_take]
      omega
    rw [List.drop_reverse, hsub, List.take_take, Nat.min_eq_left (by omega)]
  have hmin : min d FIXED_PRECISION = d := by omega
  rw [roundDigits, hint, hfrac, hfraclen]
  simp only [hmin, hrest, htake]
  rcases k with _ | k
  · have hshown : shown n d = n := if_pos (by omega)
    rw [hshown]
    simp
  · have hdigit : (L.take (k + 1)).reverse
        = fromDigit (n / 10 ^ k % 10) :: (L.take k).reverse := by
      have hget : L[k]? = some (fromDigit (n / 10 ^ k % 10)) := by
        rw [hL, List.getElem?_map, Double.low_get (by omega), Option.map_some]
      rw [List.take_add_one, hget, List.reverse_append]
      rfl
    have hshown : shown n d = halfUp n (10 ^ (k + 1)) := by
      rw [shown, if_neg (by omega), hk, Nat.add_sub_cancel_left]
    rw [hshown, ← carry_halfUp]
    simp only [hdigit, five_le (Nat.mod_lt _ (show 0 < 10 by decide)), List.reverse_reverse,
      Double.bump_low, decide_eq_true_eq]
    split <;> rfl

/-- **The printer with 80 digits** rounds these half up. -/
theorem jsToFixed_fin (hm : m < 10 ^ 21 * ONE) (hd : d ≤ FIXED_PRECISION) :
    jsToFixed (.fin a m) d = some (String.ofList (if a && decide (m ≠ 0) then
      '-' :: pointed d (shown (nearest (m * 10 ^ FIXED_PRECISION) ONE) d)
      else pointed d (shown (nearest (m * 10 ^ FIXED_PRECISION) ONE) d))) := by
  have habs : fixed FIXED_PRECISION (Double.fin a m).abs
      = pointed FIXED_PRECISION (nearest (m * 10 ^ FIXED_PRECISION) ONE) := by
    rw [Double.abs, fixed, if_neg Bool.false_ne_true]
  have hfin : (Double.fin a m).isFinite = true := by rw [Double.isFinite]
  rw [jsToFixed, ge_limit, decide_eq_false (not_le.2 hm), hfin, Double.lt_zero_iff]
  simp only [habs, roundDigits_pointed hd]
  generalize shown (nearest (m * 10 ^ FIXED_PRECISION) ONE) d = n
  have hlen : d < ((low (d + 1) n).map fromDigit).length := by
    rw [List.length_map, Double.low_length]
    omega
  have hsub : ((low (d + 1) n).map fromDigit).length
      - (((low (d + 1) n).map fromDigit).length - d) = d := by omega
  have hbody : (((low (d + 1) n).map fromDigit).drop d).reverse
      ++ (if 0 < d then '.' :: (((low (d + 1) n).map fromDigit).take d).reverse else [])
      = pointed d n := by
    rw [Double.pointed_eq]
    rcases Nat.eq_zero_or_pos d with hd | hd
    · rw [if_neg hd.not_gt, if_pos hd]
    · rw [if_pos hd, if_neg hd.ne']
  simp only [List.length_reverse, List.take_reverse, List.drop_reverse, hsub, hbody]
  rw [if_neg (by simp), if_neg hlen.not_gt]

/-! ## More digits than 80 -/

/-- The digits of a decimal with more places than are printed are all those printed. -/
theorem roundDigits_more {n : ℕ} (hd : FIXED_PRECISION < d) :
    roundDigits (pointed FIXED_PRECISION n) d
      = ((low (FIXED_PRECISION + 1) n).map fromDigit).reverse := by
  obtain ⟨hint, hfrac⟩ := split_pointed (p := FIXED_PRECISION) (by decide) n
  have hlen : (((low (FIXED_PRECISION + 1) n).map fromDigit).take FIXED_PRECISION).reverse.length
      = FIXED_PRECISION := by
    rw [List.length_reverse, List.length_take, List.length_map, Double.low_length]
    omega
  have hmin : min d FIXED_PRECISION = FIXED_PRECISION := by omega
  have htake := List.take_of_length_le hlen.le
  have hdrop := List.drop_of_length_le hlen.le
  rw [roundDigits, hint, hfrac, hlen]
  simp only [hmin, htake, hdrop, ← List.reverse_append, List.take_append_drop]
  rfl

/-- The 80 digits do not show a number with more places. -/
theorem nearest_ne_halfUp (hd : FIXED_PRECISION < d)
    (hpos : 0 < nearest (m * 10 ^ FIXED_PRECISION) ONE) :
    nearest (m * 10 ^ FIXED_PRECISION) ONE ≠ halfUp (m * 10 ^ d) ONE := by
  intro heq
  obtain ⟨hle, -⟩ := Double.nearest_bounds (m * 10 ^ FIXED_PRECISION) ONE_pos
  obtain ⟨-, hlt⟩ := Double.halfUp_bounds (m * 10 ^ d) ONE_pos
  rw [← heq] at hlt
  have hmul : m * 10 ^ FIXED_PRECISION * 10 ≤ m * 10 ^ d := by
    rw [Nat.mul_assoc, ← Nat.pow_succ]
    exact Nat.mul_le_mul_left m (Nat.pow_le_pow_right (by decide) hd)
  have hone := Nat.mul_le_mul_right ONE hpos
  generalize nearest (m * 10 ^ FIXED_PRECISION) ONE * ONE = t at *
  generalize m * 10 ^ FIXED_PRECISION = u at *
  generalize m * 10 ^ d = v at *
  omega

theorem jsToFixed_more (hm : m < 10 ^ 21 * ONE) (hd : FIXED_PRECISION < d) {s : String}
    (hs : jsToFixed (.fin a m) d = some s) : ¬ ScriptFixed (.fin a m) d s := by
  have habs : fixed FIXED_PRECISION (Double.fin a m).abs
      = pointed FIXED_PRECISION (nearest (m * 10 ^ FIXED_PRECISION) ONE) := by
    rw [Double.abs, fixed, if_neg Bool.false_ne_true]
  have hfin : (Double.fin a m).isFinite = true := by rw [Double.isFinite]
  rw [jsToFixed, ge_limit, decide_eq_false (not_le.2 hm), hfin, Double.lt_zero_iff] at hs
  simp only [habs, roundDigits_more hd] at hs
  rw [Double.scriptFixed_iff]
  rintro rfl
  have hne := nearest_ne_halfUp (m := m) hd
  generalize nearest (m * 10 ^ FIXED_PRECISION) ONE = n at hs hne
  generalize halfUp (m * 10 ^ d) ONE = k at hs hne
  set L := (low (FIXED_PRECISION + 1) n).map fromDigit with hL
  set M := (low (d + 1) k).map fromDigit with hM
  rw [if_neg (by simp)] at hs
  split at hs
  · cases hs
  · rename_i hlen
    rw [List.length_reverse] at hlen
    have hsub : L.length - (L.length - d) = d := by omega
    simp only [List.length_reverse, List.take_reverse, List.drop_reverse, hsub] at hs
    have hlist := String.ofList_inj.1 (Option.some_inj.1 hs)
    have hbody : (L.drop d).reverse ++ '.' :: (L.take d).reverse = pointed d k := by
      rw [if_pos (show 0 < d by omega)] at hlist
      by_cases hneg : (a && decide (m ≠ 0)) = true
      · rw [if_pos hneg, if_pos hneg, List.cons_inj_right] at hlist
        exact hlist
      · rw [if_neg hneg, if_neg hneg] at hlist
        exact hlist
    have hMlen : d ≤ M.length := by
      rw [hM, List.length_map, Double.low_length]
      omega
    rw [Double.pointed_eq, if_neg (show d ≠ 0 by omega), ← hM] at hbody
    obtain ⟨hint, hfrac⟩ := List.append_inj' hbody (by
      rw [List.length_cons, List.length_cons, List.length_reverse, List.length_reverse,
        List.length_take, List.length_take, Nat.min_eq_left (not_lt.1 hlen),
        Nat.min_eq_left hMlen])
    rw [List.reverse_inj] at hint
    rw [List.cons_inj_right, List.reverse_inj] at hfrac
    have hLM : L = M := by
      rw [← List.take_append_drop d L, hint, hfrac, List.take_append_drop]
    have hnk : n = k := Double.low_inj _ _ hLM
    have hlens := congrArg List.length hLM
    rw [hL, hM, List.length_map, List.length_map, Double.low_length, Double.low_length, ← hnk] at hlens
    rcases Nat.eq_zero_or_pos n with h0 | hpos
    · rw [h0, Nat.digits_zero, List.length_nil] at hlens
      omega
    · exact hne hpos hnk

/-! ## Both printers -/

/-- The numbers that both printers print as a script does. -/
structure Clear (a : Bool) (m d : ℕ) : Prop where
  sign : ¬ (a = true ∧ m = 0)
  /-- It is not halfway above an even last digit. -/
  tie : ¬ ∃ k, k % 2 = 0 ∧ 2 * (m * 10 ^ d) = (2 * k + 1) * ONE
  digits : d ≤ FIXED_PRECISION
  /-- It is not so little below a halfway case that 80 digits show the latter. -/
  below : d < FIXED_PRECISION → ¬ ∃ k, 2 * (m * 10 ^ d) < (2 * k + 1) * ONE ∧
    2 * nearest (m * 10 ^ FIXED_PRECISION) ONE = (2 * k + 1) * 10 ^ (FIXED_PRECISION - d)

theorem jsToFixed_script (hm : m < 10 ^ 21 * ONE) (hd : d ≤ FIXED_PRECISION) :
    (∃ s, jsToFixed (.fin a m) d = some s ∧ ScriptFixed (.fin a m) d s) ↔
      shown (nearest (m * 10 ^ FIXED_PRECISION) ONE) d = halfUp (m * 10 ^ d) ONE := by
  rw [jsToFixed_fin hm hd]
  simp only [Option.some_inj, exists_eq_left', Double.scriptFixed_iff, String.ofList_inj]
  constructor
  · intro h
    by_cases hneg : (a && decide (m ≠ 0)) = true
    · rw [if_pos hneg, if_pos hneg, List.cons_inj_right] at h
      exact pointed_inj h
    · rw [if_neg hneg, if_neg hneg] at h
      exact pointed_inj h
  · intro h
    rw [h]

theorem shown_halfUp (hd : d < FIXED_PRECISION) :
    shown (nearest (m * 10 ^ FIXED_PRECISION) ONE) d = halfUp (m * 10 ^ d) ONE ↔
      ¬ ∃ k, 2 * (m * 10 ^ d) < (2 * k + 1) * ONE ∧
        2 * nearest (m * 10 ^ FIXED_PRECISION) ONE = (2 * k + 1) * 10 ^ (FIXED_PRECISION - d) := by
  obtain ⟨k, hk⟩ := Nat.exists_eq_add_of_lt hd
  have hsub : FIXED_PRECISION - d = k + 1 := by omega
  have hpow : 10 ^ (k + 1) = 2 * (5 * 10 ^ k) := by
    rw [Nat.pow_succ]
    omega
  have hmul : m * 10 ^ FIXED_PRECISION = m * 10 ^ d * (2 * (5 * 10 ^ k)) := by
    rw [← hpow, Nat.mul_assoc, ← Nat.pow_add, hk, Nat.add_assoc]
  have hhalf (x : ℕ) (j : ℕ) : 2 * x = (2 * j + 1) * (2 * (5 * 10 ^ k))
      ↔ x = (2 * j + 1) * (5 * 10 ^ k) := by
    rw [Nat.mul_left_comm]
    exact Nat.mul_right_inj two_ne_zero
  rw [shown, if_neg hd.ne, hsub, hpow, hmul,
    Double.halfUp_nearest_iff ONE_pos (show 0 < 5 * 10 ^ k by positivity)]
  simp only [hhalf]

/-- **The two printers of decimals** both print what a script prints exactly for the numbers and
places that are clear. -/
theorem toFixed_iff (hm : m < 10 ^ 21 * ONE) :
    (ScriptFixed (.fin a m) d (Interp.toFixed (.fin a m) d) ∧
        ∃ s, jsToFixed (.fin a m) d = some s ∧ ScriptFixed (.fin a m) d s) ↔ Clear a m d := by
  rw [toFixed_script hm]
  constructor
  · rintro ⟨⟨hsign, htie⟩, s, hs, hscript⟩
    have hd : d ≤ FIXED_PRECISION := by
      by_contra hd
      exact jsToFixed_more hm (not_le.1 hd) hs hscript
    refine ⟨hsign, htie, hd, fun hlt => ?_⟩
    exact (shown_halfUp hlt).1 ((jsToFixed_script hm hd).1 ⟨s, hs, hscript⟩)
  · rintro ⟨hsign, htie, hd, hbelow⟩
    refine ⟨⟨hsign, htie⟩, (jsToFixed_script hm hd).2 ?_⟩
    rcases Nat.lt_or_eq_of_le hd with hlt | rfl
    · exact (shown_halfUp hlt).2 (hbelow hlt)
    · rw [shown, if_pos rfl]
      exact (Double.nearest_eq_halfUp_iff ONE_pos).2 htie

/-- One and a half, with one digit. -/
theorem toFixed_iff_half :
    (ScriptFixed (.fin false (3 * 2 ^ 1073)) 1 (Interp.toFixed (.fin false (3 * 2 ^ 1073)) 1) ∧
        ∃ s, jsToFixed (.fin false (3 * 2 ^ 1073)) 1 = some s ∧
          ScriptFixed (.fin false (3 * 2 ^ 1073)) 1 s) ↔ Clear false (3 * 2 ^ 1073) 1 :=
  toFixed_iff (by decide +kernel)

/-- Two and a half without digits is 2 for the formatter and 3 for a script. -/
theorem toFixed_tie : Interp.toFixed (.fin false (5 * 2 ^ 1073)) 0 = "2" ∧
    jsToFixed (.fin false (5 * 2 ^ 1073)) 0 = some "3" ∧
    ¬ ScriptFixed (.fin false (5 * 2 ^ 1073)) 0 (Interp.toFixed (.fin false (5 * 2 ^ 1073)) 0) := by
  have htwo : Interp.toFixed (.fin false (5 * 2 ^ 1073)) 0 = "2" := by decide +kernel
  refine ⟨htwo, by decide +kernel, ?_⟩
  rw [htwo, Double.scriptFixed_iff]
  decide +kernel

end Values
end Lunar
