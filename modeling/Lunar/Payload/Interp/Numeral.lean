/-
# Numerals of the interpreter

What `num_to_str` prints of a finite double is a numeral of JSON: an integer without a needless
zero, a fraction and an exponent (`numeral_valid`).  The digits are those of `shortest`, so the
numeral reads back as the double (`numToStr_reads`).
-/

import Lunar.Lib.Double.Rational
import Lunar.Lib.Double.Script
import Lunar.Lib.Json
import Lunar.Payload.Interp.Integers
import Mathlib.Tactic.Ring

namespace Lunar
namespace Interp

open Lib
open Lib.Double (ONE ONE_pos isDigit ofDigits ofRat IsDouble)
open Lib.Json (decimal)

/-! ## Digits -/

theorem ofDigits_eq (cs : List Char) : ofDigits cs = Nat.ofDigitChars 10 cs 0 := by
  rw [Nat.ofDigitChars_eq_foldl]
  rfl

theorem ofDigits_append (cs ds : List Char) :
    ofDigits (cs ++ ds) = ofDigits cs * 10 ^ ds.length + ofDigits ds := by
  rw [ofDigits_eq, Nat.ofDigitChars_append, Nat.ofDigitChars_eq_ofDigitChars_zero, ← ofDigits_eq,
    ← ofDigits_eq, Nat.mul_comm]

theorem ofDigits_zeros (z : ℕ) : ofDigits (List.replicate z '0') = 0 := by
  rw [ofDigits_eq, Nat.ofDigitChars_replicate_zero, Nat.mul_zero]

theorem ofDigits_toDigits (n : ℕ) : ofDigits (Nat.toDigits 10 n) = n := by
  rw [ofDigits_eq, Nat.ofDigitChars_ten_toDigits]

theorem isDigit_of_mem_toDigits {n : ℕ} {c : Char} (h : c ∈ Nat.toDigits 10 n) :
    isDigit c = true :=
  Nat.isDigit_of_mem_toDigits (by decide) (by decide) h

theorem toDigits_head {n : ℕ} (hn : n ≠ 0) : (Nat.toDigits 10 n).head? ≠ some '0' := by
  rw [Numeral.toDigits_eq]
  exact fun h => hn (Numeral.numeral_head (by omega) (by omega) h)

theorem isDigit_zero : ∀ c ∈ ['0'], isDigit c = true := List.forall_mem_singleton.2 rfl

/-- Digits that start a number. -/
structure Leading (ds : List Char) : Prop where
  digits : ∀ c ∈ ds, isDigit c = true
  ne_nil : ds ≠ []
  head : ds.head? ≠ some '0'

theorem leading_toDigits {n : ℕ} (hn : n ≠ 0) : Leading (Nat.toDigits 10 n) :=
  ⟨fun _ => isDigit_of_mem_toDigits, Nat.toDigits_ne_nil, toDigits_head hn⟩

theorem Leading.take {ds : List Char} (h : Leading ds) {i : ℕ} (hi : 0 < i) :
    Leading (ds.take i) := by
  obtain ⟨c, cs, rfl⟩ := List.exists_cons_of_ne_nil h.ne_nil
  obtain ⟨i, rfl⟩ := Nat.exists_eq_succ_of_ne_zero hi.ne'
  exact ⟨fun x hx => h.digits x (List.mem_of_mem_take hx), List.cons_ne_nil _ _, h.head⟩

/-! ## The numeral of some digits -/

/-- The numeral that `num_to_str` lays digits out as. -/
def numeralOf (neg : Bool) (ds : List Char) (e10 : ℤ) : Json.Numeral :=
  if ds.length ≤ e10 ∧ e10 ≤ 21 then
    ⟨neg, ds ++ List.replicate (e10 - ds.length).toNat '0', [], none⟩
  else if 0 < e10 ∧ e10 ≤ 21 then ⟨neg, ds.take e10.toNat, ds.drop e10.toNat, none⟩
  else if -6 < e10 ∧ e10 ≤ 0 then ⟨neg, ['0'], List.replicate (-e10).toNat '0' ++ ds, none⟩
  else
    ⟨neg, ds.take 1, ds.drop 1, some (decide (e10 - 1 < 0), Nat.toDigits 10 (e10 - 1).natAbs)⟩

theorem numeralOf_text (neg : Bool) {ds : List Char} (hne : ds ≠ []) (e10 : ℤ) :
    (numeralOf neg ds e10).text =
      if neg then '-' :: numLayout ds e10 else numLayout ds e10 := by
  have hbody : (numeralOf neg ds e10).text = (if neg then ['-'] else []) ++ numLayout ds e10 := by
    have hlen := List.length_pos_iff.2 hne
    rw [numeralOf, numLayout]
    split
    · simp [Json.Numeral.text, Json.Numeral.fracText, Json.Numeral.expText]
    split
    · have hdrop : ds.drop e10.toNat ≠ [] := by
        rw [Ne, List.drop_eq_nil_iff]
        omega
      simp [Json.Numeral.text, Json.Numeral.fracText, Json.Numeral.expText, hdrop]
    split
    · simp [Json.Numeral.text, Json.Numeral.fracText, Json.Numeral.expText, hne]
    · obtain ⟨d, rest, rfl⟩ := List.exists_cons_of_ne_nil hne
      cases rest with
      | nil => simp [Json.Numeral.text, Json.Numeral.fracText, Json.Numeral.expText]
      | cons _ _ => simp [Json.Numeral.text, Json.Numeral.fracText, Json.Numeral.expText]
  rw [hbody]
  cases neg <;> rfl

theorem numeralOf_valid (neg : Bool) {ds : List Char} (h : Leading ds) (e10 : ℤ) :
    (numeralOf neg ds e10).Valid := by
  have hzeros (z : ℕ) : ∀ c ∈ List.replicate z '0', isDigit c = true := by
    intro c hc
    rw [List.eq_of_mem_replicate hc]
    decide
  have hexp (n : Bool) (es : List Char) (hes : none = some (n, es)) :
      es ≠ [] ∧ ∀ c ∈ es, isDigit c = true := nomatch hes
  rw [numeralOf]
  split
  · refine ⟨fun c hc => ?_, List.append_ne_nil_of_left_ne_nil h.ne_nil _, fun _ => ?_, by simp,
      hexp⟩
    · rcases List.mem_append.1 hc with hc | hc
      · exact h.digits c hc
      · exact hzeros _ c hc
    · rw [List.head?_append_of_ne_nil _ h.ne_nil]
      exact h.head
  split
  · next hpos =>
      have htake := h.take (i := e10.toNat) (by omega)
      exact ⟨htake.digits, htake.ne_nil, fun _ => htake.head,
        fun c hc => h.digits c (List.mem_of_mem_drop hc), hexp⟩
  split
  · refine ⟨isDigit_zero, List.cons_ne_nil _ _, fun hlen => absurd hlen (by simp),
      fun c hc => ?_, hexp⟩
    rcases List.mem_append.1 hc with hc | hc
    · exact hzeros _ c hc
    · exact h.digits c hc
  · have htake := h.take Nat.one_pos
    refine ⟨htake.digits, htake.ne_nil, fun _ => htake.head,
      fun c hc => h.digits c (List.mem_of_mem_drop hc), fun n es hes => ?_⟩
    obtain ⟨-, rfl⟩ := Prod.mk.inj (Option.some.inj hes)
    exact ⟨Nat.toDigits_ne_nil, fun _ => isDigit_of_mem_toDigits⟩

/-- **The value of the numeral** is that of the digits behind the point. -/
theorem numeralOf_value (neg : Bool) {ds : List Char} (hne : ds ≠ []) (e10 : ℤ) :
    (numeralOf neg ds e10).value =
      (if neg then -1 else 1) * (ofDigits ds : ℚ) * 10 ^ (e10 - ds.length) := by
  have hten : (10 : ℚ) ≠ 0 := by norm_num
  rw [numeralOf]
  split
  · next h =>
      have hz : (e10 - ds.length : ℤ) = ((e10 - ds.length).toNat : ℤ) := by omega
      rw [Json.Numeral.value, decimal, List.append_nil, ofDigits_append, ofDigits_zeros,
        Nat.add_zero, List.length_replicate, hz, zpow_natCast, Json.Numeral.exponent,
        List.length_nil, Nat.cast_zero, sub_zero, zpow_zero, mul_one, mul_assoc]
      push_cast
      rfl
  split
  · next h =>
      have hexp : (0 - (ds.drop e10.toNat).length : ℤ) = e10 - ds.length := by
        rw [List.length_drop]
        omega
      rw [Json.Numeral.value, decimal, List.take_append_drop, Json.Numeral.exponent, hexp]
  split
  · next h =>
      have hexp : (0 - (List.replicate (-e10).toNat '0' ++ ds).length : ℤ) = e10 - ds.length := by
        rw [List.length_append, List.length_replicate]
        omega
      have hzero : ofDigits ['0'] = 0 := rfl
      rw [Json.Numeral.value, decimal, ofDigits_append, ofDigits_append, ofDigits_zeros, hzero,
        Nat.zero_mul, Nat.zero_mul, Nat.zero_add, Nat.zero_add, Json.Numeral.exponent, hexp]
  · have hlen := List.length_pos_iff.2 hne
    have hexp : (Json.Numeral.exponent (some (decide (e10 - 1 < 0),
        Nat.toDigits 10 (e10 - 1).natAbs)) - (ds.drop 1).length : ℤ) = e10 - ds.length := by
      rw [Json.Numeral.exponent, ofDigits_toDigits, List.length_drop]
      by_cases hlt : e10 - 1 < 0
      · rw [decide_eq_true hlt, if_pos rfl]
        omega
      · rw [decide_eq_false hlt, if_neg Bool.false_ne_true]
        omega
    rw [Json.Numeral.value, decimal, List.take_append_drop, hexp]

/-! ## The shortest digits -/

/-- Digits without the zeros at their end. -/
theorem rdropWhile_zeros_eq (ds : List Char) :
    ∃ z, ds = ds.rdropWhile (· = '0') ++ List.replicate z '0' := by
  induction ds using List.reverseRecOn with
  | nil => exact ⟨0, rfl⟩
  | append_singleton ds c ih =>
      by_cases hc : c = '0'
      · obtain ⟨z, hz⟩ := ih
        refine ⟨z + 1, ?_⟩
        rw [List.rdropWhile_concat_pos _ _ _ (by simpa using hc), List.replicate_succ',
          ← List.append_assoc, ← hz, hc]
      · refine ⟨0, ?_⟩
        rw [List.rdropWhile_concat_neg _ _ _ (by simpa using hc), List.replicate_zero,
          List.append_nil]

/-- **The shortest digits** start a number, and what they denote reads back. -/
theorem shortest_reads {m : ℕ} (hm : IsDouble m) (hpos : 0 < m) :
    Leading (Double.shortest m).1 ∧ ∃ c e, c ≠ 0 ∧ Double.Reads m c e ∧
      (ofDigits (Double.shortest m).1 : ℚ) *
        10 ^ ((Double.shortest m).2 - (Double.shortest m).1.length) = c * 10 ^ e := by
  obtain ⟨c, k, hfew, hk, -, hwith, -⟩ := Double.fewest_spec hm hpos
  obtain ⟨hreads, hc⟩ := Double.withDigits_spec hwith
  obtain ⟨hlow, hhigh⟩ := Double.below_digits hpos hk
  have hc0 : c ≠ 0 := Double.withDigits_ne_zero hpos.ne' hwith
  have hlead := leading_toDigits hc0
  obtain ⟨hne, -⟩ := Double.shortest_spec hpos.ne'
  obtain ⟨z, hz⟩ := rdropWhile_zeros_eq (Nat.toDigits 10 c)
  have hlen := congrArg List.length hz
  have hval := congrArg ofDigits hz
  rw [Double.shortest, hfew, Double.written] at hne ⊢
  dsimp only at hne ⊢
  generalize (Nat.toDigits 10 c).rdropWhile (· = '0') = ds at *
  have hds : Leading ds := by
    refine ⟨fun x hx => hlead.digits x (hz ▸ List.mem_append_left _ hx), hne, ?_⟩
    have hhead := hlead.head
    rwa [hz, List.head?_append_of_ne_nil _ hne] at hhead
  rw [ofDigits_append, ofDigits_zeros, ofDigits_toDigits, List.length_replicate,
    Nat.add_zero] at hval
  rw [List.length_append, List.length_replicate, Double.length_toDigits hc0] at hlen
  have hlog : (Nat.log 10 c : ℤ) + 1 = k + if c = 10 ^ k then 1 else 0 := by
    split
    · next hck => rw [hck, Nat.log_pow (by omega)]
    · next hck =>
        have hlt : c < 10 ^ k := by rcases hc with rfl | rfl <;> omega
        have hle : 10 ^ (k - 1) ≤ c := by rcases hc with rfl | rfl <;> omega
        have hlog := Nat.log_eq_of_pow_le_of_lt_pow hle (by rwa [Nat.sub_add_cancel hk])
        omega
  refine ⟨hds, c, Double.place m - k, hc0, hreads, ?_⟩
  have hexp : (if c = 10 ^ k then Double.place m + 1 else Double.place m) - (ds.length : ℤ) =
      z + (Double.place m - k) := by
    split at hlog <;> rename_i hck
    · rw [if_pos hck]
      omega
    · rw [if_neg hck]
      omega
  rw [hexp, zpow_add₀ (by norm_num), zpow_natCast, ← mul_assoc, hval]
  push_cast
  rfl

/-! ## Integers -/

/-- The numeral of an integer. -/
def wholeNumeral (neg : Bool) (n : ℕ) : Json.Numeral := ⟨neg, Nat.toDigits 10 n, [], none⟩

theorem wholeNumeral_valid (neg : Bool) (n : ℕ) : (wholeNumeral neg n).Valid := by
  refine ⟨fun _ => isDigit_of_mem_toDigits, Nat.toDigits_ne_nil, fun hlen => ?_,
    fun _ hc => absurd hc List.not_mem_nil, nofun⟩
  rcases Nat.eq_zero_or_pos n with rfl | hn
  · exact absurd hlen (Nat.lt_irrefl 1)
  · exact toDigits_head hn.ne'

theorem wholeNumeral_text (neg : Bool) (n : ℕ) :
    (wholeNumeral neg n).text = if neg then '-' :: Nat.toDigits 10 n else Nat.toDigits 10 n := by
  cases neg <;>
    simp [wholeNumeral, Json.Numeral.text, Json.Numeral.fracText, Json.Numeral.expText]

theorem wholeNumeral_value (neg : Bool) (n : ℕ) :
    (wholeNumeral neg n).value = (if neg then -1 else 1) * (n : ℚ) := by
  rw [wholeNumeral, Json.Numeral.value, decimal, List.append_nil, ofDigits_toDigits]
  simp [Json.Numeral.exponent]

/-- **An integer is printed as its numeral.** -/
theorem writes_int (i : ℤ) : Json.Writes (.num i) (toString i).toList := by
  have hwrites := Json.Writes.num (wholeNumeral_valid (decide (i < 0)) i.natAbs)
  rw [wholeNumeral_value, wholeNumeral_text] at hwrites
  cases i with
  | ofNat n =>
      have hsign : decide (Int.ofNat n < 0) = false :=
        decide_eq_false (Int.not_lt.2 (Int.natCast_nonneg n))
      rw [hsign, if_neg Bool.false_ne_true, if_neg Bool.false_ne_true,
        one_mul] at hwrites
      have htext : (toString (Int.ofNat n)).toList = Nat.toDigits 10 n := Nat.toList_repr
      rw [htext]
      exact hwrites
  | negSucc n =>
      rw [decide_eq_true (Int.negSucc_lt_zero n), if_pos rfl, if_pos rfl] at hwrites
      have htext : (toString (Int.negSucc n)).toList = '-' :: Nat.toDigits 10 (n + 1) :=
        (congrArg String.toList (toString_signed true (Nat.succ_ne_zero n))).trans
          String.toList_ofList
      rw [htext, Int.cast_negSucc, ← neg_one_mul]
      exact hwrites

/-! ## The numeral of a double -/

/-- The sign of a numeral. -/
theorem value_spec (neg : Bool) {a b q : ℚ} (ha : 0 < a) (hb : 0 < b)
    (hq : q = (if neg then -1 else 1) * a * b) : decide (q < 0) = neg ∧ |q| = a * b := by
  have hpos := mul_pos ha hb
  cases neg with
  | true =>
      rw [if_pos rfl, mul_assoc, neg_one_mul] at hq
      rw [hq, abs_neg, abs_of_pos hpos]
      exact ⟨decide_eq_true (neg_lt_zero.2 hpos), rfl⟩
  | false =>
      rw [if_neg Bool.false_ne_true, one_mul] at hq
      rw [hq, abs_of_pos hpos]
      exact ⟨decide_eq_false (not_lt.2 hpos.le), rfl⟩

/-- The shortest digits are printed of what is no integer below the bound. -/
theorem numToStr_layout (neg : Bool) {m : ℕ} (hm : m ≠ 0)
    (hlarge : ¬(m % ONE = 0 ∧ m < 10 ^ 21 * ONE)) :
    (numToStr (.fin neg m)).toList =
      if neg then '-' :: numLayout (Double.shortest m).1 (Double.shortest m).2
      else numLayout (Double.shortest m).1 (Double.shortest m).2 := by
  have hcond : ((Double.fin neg m).isInt && (Double.fin neg m).abs.lt (.ofNat (10 ^ 21))) =
      false := by
    rw [abs_lt_limit, Double.isInt, ← Bool.decide_and, decide_eq_false_iff_not]
    exact hlarge
  rw [numToStr, hcond, Double.eq_zero_fin, decide_eq_false hm, Double.lt_zero_fin hm]
  exact String.toList_ofList

/-- **What is printed of a double reads back** as a number equal to it. -/
theorem numToStr_reads (neg : Bool) {m : ℕ} (hm : IsDouble m) :
    ∃ n : Json.Numeral, n.Valid ∧ n.text = (numToStr (.fin neg m)).toList ∧
      (ofRat n.value).eq (.fin neg m) = true := by
  have hself : (Double.fin neg m).eq (.fin neg m) = true := by
    rw [Double.eq, Double.cmp_fin, Int.compare_eq_eq.2 rfl]
    rfl
  rcases Nat.eq_zero_or_pos m with rfl | hpos
  · refine ⟨wholeNumeral false 0, wholeNumeral_valid _ _, ?_, ?_⟩
    · rw [wholeNumeral_text, numToStr_zero]
      rfl
    · have hval : (wholeNumeral false 0).value = 0 := by
        rw [wholeNumeral_value, Nat.cast_zero, mul_zero]
      rw [hval, Double.ofRat_exact hm (by rw [abs_zero, zero_mul, Nat.cast_zero])]
      cases neg <;> rfl
  by_cases hwhole : m % ONE = 0 ∧ m < 10 ^ 21 * ONE
  · -- all digits of an integer
    obtain ⟨k, hk⟩ := Nat.dvd_of_mod_eq_zero hwhole.1
    rw [Nat.mul_comm] at hk
    have hk0 : k ≠ 0 := fun h => hpos.ne' (by rw [hk, h, Nat.zero_mul])
    refine ⟨wholeNumeral neg k, wholeNumeral_valid _ _, ?_, ?_⟩
    · rw [wholeNumeral_text, hk,
        numToStr_whole neg hk0 (Nat.lt_of_mul_lt_mul_right (hk ▸ hwhole.2)), String.toList_ofList]
    · have hkpos : (0 : ℚ) < k := Nat.cast_pos.2 (Nat.pos_of_ne_zero hk0)
      obtain ⟨hsign, habs⟩ := value_spec neg hkpos one_pos
        ((wholeNumeral_value neg k).trans (mul_one _).symm)
      rw [mul_one] at habs
      rw [Double.ofRat_exact hm (by rw [habs, hk, Nat.cast_mul]), hsign]
      exact hself
  · obtain ⟨hlead, c, e, hc, hreads, hval⟩ := shortest_reads hm hpos
    refine ⟨_, numeralOf_valid neg hlead (Double.shortest m).2, ?_, ?_⟩
    · rw [numeralOf_text neg hlead.ne_nil, numToStr_layout neg hpos.ne' hwhole]
    · have hvalue : (numeralOf neg (Double.shortest m).1 (Double.shortest m).2).value =
          (if neg then -1 else 1) * (c : ℚ) * 10 ^ e := by
        rw [numeralOf_value neg hlead.ne_nil, mul_assoc, hval, mul_assoc]
      have hpow : (0 : ℚ) < 10 ^ e := zpow_pos (by norm_num) e
      have hcpos : (0 : ℚ) < c := Nat.cast_pos.2 (Nat.pos_of_ne_zero hc)
      obtain ⟨hsign, habs⟩ := value_spec neg hcpos hpow hvalue
      rw [Double.ofRat_decimal hreads habs, hsign]
      exact hself

end Interp
end Lunar
