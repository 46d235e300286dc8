/-
# Integers in a radix

`payload/exec.rs`: `radix_str` and `parse_int`.  The printer takes a digit and divides by the
radix until nothing is left, all in doubles.  For whole numbers below `2 ^ 53` no step rounds
across an integer, so it ends with the numeral, and the parser reads this back
(`radixStr_parseInt`).

A loop has as many turns as `fuel` says, and no result when these do not suffice.
-/

import Mathlib.Data.Nat.Digits.Lemmas
import Lunar.Lib.Double.Nearest
import Lunar.Lib.Numeral
import Lunar.Payload.Interp.Integers

namespace Lunar
namespace Interp

open Lib (Double)
open Lib.Numeral (fromDigit numeral)

/-- The loop of `radix_str`.  The last digit pushed is the first of `out`, which is how it is
printed. -/
def radixLoop (r : ℕ) : ℕ → Double → List Char → Option (List Char)
  | fuel, v, out =>
    if v.ge .one then
      match fuel with
      | 0 => none
      | fuel + 1 =>
        let d := (v.rem (.ofNat r)).toU 32
        radixLoop r fuel (v.div (.ofNat r)).floor ((if d < r then fromDigit d else '0') :: out)
    else some out

/-- `radix_str`. -/
def radixStr (fuel : ℕ) (n : Double) (r : ℕ) : Option String :=
  if r = 10 ∨ !n.isInt then some (numToStr n)
  else
    let v := n.abs
    (radixLoop r fuel v (if v.eq .zero then ['0'] else [])).map fun out =>
      String.ofList (if n.lt .zero then '-' :: out else out)

/-- The digits of `parse_int`, up to the first character that is none. -/
def leadingDigits (r : ℕ) : List Char → Double → Bool → Double × Bool
  | [], acc, any => (acc, any)
  | c :: t, acc, any =>
    match Lib.Text.digit r c with
    | some d => leadingDigits r t ((acc.mul (.ofNat r)).add (.ofNat d)) true
    | none => (acc, any)

/-- The sign of a text and what follows it. -/
def signOf : List Char → Bool × List Char
  | '-' :: t => (true, t)
  | '+' :: t => (false, t)
  | t => (false, t)

/-- The radix of the digits, and the text without the prefix that says it. -/
def radixOf (radix : ℤ) (t : List Char) : ℤ × List Char :=
  let (r, t) :=
    if radix = 0 ∨ radix = 16 then
      match prefixed 'x' 'X' t with
      | some rest => (16, rest)
      | none => (radix, t)
    else (radix, t)
  (if r = 0 then 10 else r, t)

/-- `parse_int`. -/
def parseInt (s : String) (radix : ℤ) : Double :=
  let (neg, t) := signOf (s.toList.dropWhile isWs)
  let (r, t) := radixOf radix t
  if ¬ (2 ≤ r ∧ r ≤ 36) then .nan
  else
    let (acc, any) := leadingDigits r.toNat t .zero false
    if !any then .nan else if neg then acc.neg else acc

/-! ## Printing -/

open Lib.Double (ONE ONE_pos)

theorem whole_ge_one (m : ℕ) : (Double.fin false (m * ONE)).ge .one = decide (1 ≤ m) := by
  have hone : Double.one = .fin false (1 * ONE) := by rw [Nat.one_mul, Double.one]
  rw [hone, Double.ge_fin]
  refine decide_eq_decide.2 ?_
  simp only [Double.signed, Bool.false_eq_true, if_false, Int.ofNat_le]
  exact Nat.mul_le_mul_right_iff ONE_pos

theorem whole_rem {m r : ℕ} (hr : 0 < r) :
    (Double.fin false (m * ONE)).rem (.fin false (r * ONE)) = .fin false (m % r * ONE) := by
  rw [Double.rem, if_neg (Nat.mul_ne_zero hr.ne' ONE_pos.ne'), Nat.mul_mod_mul_right]

theorem whole_toU {d : ℕ} (hd : d < 2 ^ 32) : (Double.fin false (d * ONE)).toU 32 = d := by
  rw [Double.toU, Double.cast, Nat.mul_div_cancel _ ONE_pos, Double.signed]
  simp only [Bool.false_eq_true, if_false]
  omega

/-- **The loop ends** with the digits, when it has a turn for each. -/
theorem radixLoop_whole {r fuel m : ℕ} (hr : 2 ≤ r) (hr' : r ≤ 36) (hm : m < 2 ^ 53)
    (hfuel : (Nat.digits r m).length ≤ fuel) (out : List Char) :
    radixLoop r fuel (.fin false (m * ONE)) out
      = some ((Nat.digits r m).reverse.map fromDigit ++ out) := by
  have hradix : Double.ofNat r = .fin false (r * ONE) := Double.ofNat_exact (by omega)
  induction fuel generalizing m out with
  | zero =>
      have hzero : m = 0 := by
        by_contra hne
        exact absurd (List.length_eq_zero_iff.1 (Nat.le_zero.1 hfuel))
          (Nat.digits_ne_nil_iff_ne_zero.2 hne)
      rw [radixLoop, whole_ge_one, hzero]
      simp
  | succ fuel ih =>
      rw [radixLoop, whole_ge_one]
      by_cases hzero : m = 0
      · rw [hzero]
        simp
      · have hmod : m % r < r := Nat.mod_lt _ (by omega)
        have hdigits := Lib.Numeral.digits_eq hr hzero
        have hlen : (Nat.digits r (m / r)).length ≤ fuel := by
          rw [Nat.digits_def' hr (Nat.pos_of_ne_zero hzero), List.length_cons] at hfuel
          omega
        rw [if_pos (decide_eq_true (show 1 ≤ m by omega))]
        simp only [hradix, whole_rem (show 0 < r by omega), whole_toU (show m % r < 2 ^ 32 by omega),
          if_pos hmod, Double.floor_div_whole hm (show 0 < r by omega) (show r < 2 ^ 53 by omega)]
        rw [ih (lt_of_le_of_lt (Nat.div_le_self m r) hm) hlen, hdigits, List.append_assoc]
        rfl

/-- The canonical text of an integer in a radix. -/
def radixText (r : ℕ) (n : ℤ) : List Char :=
  if n < 0 then '-' :: numeral r n.natAbs else numeral r n.natAbs

theorem numToStr_ofInt {n : ℤ} (hn : n.natAbs < 2 ^ 53) :
    numToStr (.ofInt n) = String.ofList (radixText 10 n) := by
  rcases eq_or_ne n 0 with rfl | hzero
  · rw [Double.ofInt, Int.natAbs_zero, Nat.zero_mul, numToStr_zero]
    rfl
  · rw [Double.ofInt, numToStr_whole _ (Int.natAbs_ne_zero.2 hzero) (by omega),
      Lib.Numeral.toDigits_eq, radixText]
    simp only [decide_eq_true_eq]

theorem whole_eq_zero (m : ℕ) : (Double.fin false (m * ONE)).eq .zero = decide (m = 0) := by
  rw [Double.eq_zero_fin]
  exact decide_eq_decide.2 (by rw [Nat.mul_eq_zero, or_iff_left ONE_pos.ne'])

theorem ofInt_lt_zero (n : ℤ) : (Double.ofInt n).lt .zero = decide (n < 0) := by
  rcases eq_or_ne n 0 with rfl | hn
  · simp [Double.ofInt, Double.lt, Double.cmp, Double.zero, Double.signed]
  · rw [Double.ofInt, Double.lt_zero_fin (Nat.mul_ne_zero (Int.natAbs_ne_zero.2 hn) ONE_pos.ne')]

/-- **The printer** ends with the numeral. -/
theorem radixStr_ofInt {r fuel : ℕ} {n : ℤ} (hr : 2 ≤ r) (hr' : r ≤ 36) (hn : n.natAbs < 2 ^ 53)
    (hfuel : 53 ≤ fuel) : radixStr fuel (.ofInt n) r = some (String.ofList (radixText r n)) := by
  rw [radixStr, Double.isInt_ofInt]
  by_cases hten : r = 10
  · rw [if_pos (.inl hten), hten, numToStr_ofInt hn]
  · have hlen : (Nat.digits r n.natAbs).length ≤ fuel := by
      refine le_trans ((Nat.digits_length_le_iff (by omega) _).2 ?_) hfuel
      exact lt_of_lt_of_le hn (Nat.pow_le_pow_left hr 53)
    have habs : (Double.ofInt n).abs = .fin false (n.natAbs * ONE) := rfl
    rw [if_neg (by simp [hten])]
    simp only [habs, radixLoop_whole hr hr' hn hlen, whole_eq_zero, ofInt_lt_zero, Option.map_some,
      radixText, numeral]
    by_cases hzero : n.natAbs = 0
    · simp [hzero]
    · simp [hzero]

/-! ## Parsing -/

/-- The number that digits denote behind `v`. -/
def digitsValue (r v : ℕ) (ds : List ℕ) : ℕ := ds.foldl (fun v d => v * r + d) v

theorem le_digitsValue {r : ℕ} (hr : 0 < r) (ds : List ℕ) (v : ℕ) : v ≤ digitsValue r v ds := by
  induction ds generalizing v with
  | nil => exact le_refl v
  | cons d ds ih =>
      refine le_trans ?_ (ih (v * r + d))
      exact le_trans (Nat.le_mul_of_pos_right v hr) (Nat.le_add_right _ _)

theorem digitsValue_reverse (r n : ℕ) : digitsValue r 0 (Nat.digits r n).reverse = n := by
  rw [digitsValue, List.foldl_reverse]
  conv_rhs => rw [← Nat.ofDigits_digits r n, Nat.ofDigits_eq_foldr]
  simp only [Nat.cast_id, Nat.mul_comm r, Nat.add_comm]

/-- **The digits are added up exactly** while their number is below `2 ^ 53`. -/
theorem leadingDigits_whole {r : ℕ} (hr : 0 < r) (hr' : r ≤ 36) (ds : List ℕ)
    (hds : ∀ d ∈ ds, d < r) {v : ℕ} (hv : digitsValue r v ds < 2 ^ 53) (any : Bool) :
    leadingDigits r (ds.map fromDigit) (.fin false (v * ONE)) any
      = (.fin false (digitsValue r v ds * ONE), any || !ds.isEmpty) := by
  induction ds generalizing v any with
  | nil => simp [leadingDigits, digitsValue]
  | cons d ds ih =>
      have hd : d < r := hds d List.mem_cons_self
      have hstep : v * r + d < 2 ^ 53 := lt_of_le_of_lt (le_digitsValue hr ds (v * r + d)) hv
      have hradix : Double.ofNat r = .fin false (r * ONE) := Double.ofNat_exact (by omega)
      have hdigit : Double.ofNat d = .fin false (d * ONE) := Double.ofNat_exact (by omega)
      rw [List.map_cons, leadingDigits, Lib.Numeral.digit_fromDigit hd hr']
      simp only [hradix, hdigit, Double.mul_whole false false (show v * r < 2 ^ 53 by omega),
        bne_self_eq_false, Double.add_whole hstep]
      rw [ih (fun d' hd' => hds d' (List.mem_cons_of_mem d hd')) hv]
      simp [digitsValue]

theorem prefixed_none {t : List Char} {lower upper : Char} (hl : lower ∉ t) (hu : upper ∉ t) :
    prefixed lower upper t = none := by
  have hstrip (c : Char) (hc : c ∉ t) : Lib.Text.stripPrefix ['0', c] t = none := by
    rw [Lib.Text.stripPrefix]
    refine if_neg fun h => hc ?_
    exact h.subset (List.mem_cons_of_mem '0' List.mem_cons_self)
  rw [prefixed, hstrip lower hl, hstrip upper hu]
  rfl

theorem isWs_fromDigit {d : ℕ} (hd : d < 36) : isWs (fromDigit d) = false := by
  have hall : ∀ d < 36, isWs (fromDigit d) = false := by decide
  exact hall d hd

/-- A numeral begins with no sign and no blank. -/
theorem numeral_plain {r n : ℕ} (hr : 2 ≤ r) (hr' : r ≤ 36) :
    (numeral r n).dropWhile isWs = numeral r n ∧ signOf (numeral r n) = (false, numeral r n) := by
  rcases hnum : numeral r n with _ | ⟨c, cs⟩
  · exact absurd hnum (Lib.Numeral.numeral_ne_nil r n)
  · obtain ⟨d, hd, rfl⟩ := Lib.Numeral.exists_of_mem_numeral hr (hnum ▸ List.mem_cons_self)
    obtain ⟨hminus, hplus, -⟩ := Lib.Numeral.fromDigit_ne (show d < 36 by omega)
    refine ⟨?_, ?_⟩
    · rw [List.dropWhile_cons, isWs_fromDigit (by omega)]
      rfl
    · unfold signOf
      split
      · rename_i heq
        exact absurd (List.cons.inj heq).1 hminus
      · rename_i heq
        exact absurd (List.cons.inj heq).1 hplus
      · rfl

theorem numeral_no_prefix {r n : ℕ} (hr : 2 ≤ r) (hr' : r < 33) :
    prefixed 'x' 'X' (numeral r n) = none := by
  refine prefixed_none (fun hx => ?_) fun hx => ?_
  · obtain ⟨d, hd, heq⟩ := Lib.Numeral.exists_of_mem_numeral hr hx
    exact Lib.Numeral.fromDigit_ne_x (by omega) heq.symm
  · obtain ⟨d, hd, heq⟩ := Lib.Numeral.exists_of_mem_numeral hr hx
    exact (Lib.Numeral.fromDigit_ne (by omega)).2.2 heq.symm

theorem leadingDigits_numeral {r n : ℕ} (hr : 2 ≤ r) (hr' : r ≤ 36) (hn : n < 2 ^ 53) :
    leadingDigits r (numeral r n) .zero false = (.fin false (n * ONE), true) := by
  have hzero : Double.zero = .fin false (0 * ONE) := by rw [Nat.zero_mul, Double.zero]
  rw [hzero, numeral]
  split
  · rename_i h
    have hone := leadingDigits_whole (r := r) (by omega) hr' [0] (v := 0)
      (by simp; omega) (by simp [digitsValue]) false
    rw [h]
    simpa [digitsValue, fromDigit] using hone
  · rename_i h
    have hds : ∀ d ∈ (Nat.digits r n).reverse, d < r := fun d hd =>
      Nat.digits_lt_base hr (List.mem_reverse.1 hd)
    rw [leadingDigits_whole (by omega) hr' _ hds (by rwa [digitsValue_reverse]), digitsValue_reverse]
    simp [Nat.digits_ne_nil_iff_ne_zero.2 h]

/-- **The parser** reads a numeral back. -/
theorem parseInt_radixText {r : ℕ} {n : ℤ} (hr : 2 ≤ r) (hr' : r ≤ 36) (hn : n.natAbs < 2 ^ 53) :
    parseInt (String.ofList (radixText r n)) r = .ofInt n := by
  obtain ⟨hws, hsign⟩ := numeral_plain (n := n.natAbs) hr hr'
  have hleading := leadingDigits_numeral (n := n.natAbs) hr hr' hn
  have hradix : radixOf r (numeral r n.natAbs) = ((r : ℤ), numeral r n.natAbs) := by
    unfold radixOf
    by_cases h : (r : ℤ) = 0 ∨ (r : ℤ) = 16
    · simp only [if_pos h, numeral_no_prefix (n := n.natAbs) hr (show r < 33 by omega)]
      rw [if_neg (by omega)]
    · simp only [if_neg h]
      rw [if_neg (by omega)]
  rw [parseInt, String.toList_ofList, radixText, Double.ofInt]
  by_cases hneg : n < 0
  · have hws' : ('-' :: numeral r n.natAbs).dropWhile isWs = '-' :: numeral r n.natAbs := rfl
    simp only [if_pos hneg, hws', signOf, hradix]
    rw [if_neg (by omega), Int.toNat_natCast, hleading]
    simp [hneg, Double.neg]
  · simp only [if_neg hneg, hws, hsign, hradix]
    rw [if_neg (by omega), Int.toNat_natCast, hleading]
    simp [hneg]

/-- **Radix printing and parsing are inverse** on the integers below `2 ^ 53`, in every radix:
the printer ends with the canonical numeral, and the parser reads it back. -/
theorem radixStr_parseInt {r fuel : ℕ} {n : ℤ} (hr : 2 ≤ r) (hr' : r ≤ 36)
    (hn : n.natAbs < 2 ^ 53) (hfuel : 53 ≤ fuel) :
    radixStr fuel (.ofInt n) r = some (String.ofList (radixText r n)) ∧
      ((numeral r n.natAbs).head? = some '0' → n = 0) ∧
      parseInt (String.ofList (radixText r n)) r = .ofInt n :=
  ⟨radixStr_ofInt hr hr' hn hfuel,
    fun h => Int.natAbs_eq_zero.1 (Lib.Numeral.numeral_head hr hr' h),
    parseInt_radixText hr hr' hn⟩

/-- The least integer there is, in radix 36. -/
theorem radixStr_parseInt_least :
    radixStr 53 (.ofInt (-9007199254740991)) 36 = some "-2gosa7pa2gv" ∧
      parseInt "-2gosa7pa2gv" 36 = .ofInt (-9007199254740991) := by
  have htext : String.ofList (radixText 36 (-9007199254740991)) = "-2gosa7pa2gv" := by
    decide +kernel
  obtain ⟨hprint, -, hparse⟩ := radixStr_parseInt (r := 36) (n := -9007199254740991)
    (by decide) (by decide) (by decide) (le_refl 53)
  rw [htext] at hprint hparse
  exact ⟨hprint, hparse⟩

end Interp
end Lunar
