/-
# Numerals in a radix up to 36

The numeral of a number: its digits, the highest first, as `char::from_digit` writes them.  It
has no zero in front of other digits, and the runtime's `to_digit` reads it back, digit by
digit.
-/

import Mathlib.Data.Nat.Digits.Lemmas
import Lunar.Lib.Text

namespace Lunar
namespace Lib
namespace Numeral

/-- `char::from_digit`, for a digit below 36. -/
def fromDigit (d : ℕ) : Char := if d < 10 then Char.ofNat (48 + d) else Char.ofNat (87 + d)

/-- The numeral of `n` in radix `b`. -/
def numeral (b n : ℕ) : List Char :=
  if n = 0 then ['0'] else (Nat.digits b n).reverse.map fromDigit

theorem digit_fromDigit {b d : ℕ} (hd : d < b) (hb : b ≤ 36) :
    Text.digit b (fromDigit d) = some d := by
  have hall : ∀ d < 36, (let c := fromDigit d
      if '0' ≤ c ∧ c ≤ '9' then c.toNat - '0'.toNat
      else if 'a' ≤ c ∧ c ≤ 'z' then c.toNat - 'a'.toNat + 10
      else if 'A' ≤ c ∧ c ≤ 'Z' then c.toNat - 'A'.toNat + 10 else b) = d := by
    intro d hd
    interval_cases d <;> rfl
  rw [Text.digit]
  dsimp only at hall ⊢
  rw [hall d (by omega), if_pos hd]

theorem fromDigit_eq_zero {d : ℕ} (hd : d < 36) : fromDigit d = '0' ↔ d = 0 := by
  have hall : ∀ d < 36, fromDigit d = '0' ↔ d = 0 := by decide
  exact hall d hd

theorem fromDigit_ne {d : ℕ} (hd : d < 36) :
    fromDigit d ≠ '-' ∧ fromDigit d ≠ '+' ∧ fromDigit d ≠ 'X' := by
  have hall : ∀ d < 36, fromDigit d ≠ '-' ∧ fromDigit d ≠ '+' ∧ fromDigit d ≠ 'X' := by decide
  exact hall d hd

theorem fromDigit_ne_x {d : ℕ} (hd : d < 33) : fromDigit d ≠ 'x' := by
  have hall : ∀ d < 33, fromDigit d ≠ 'x' := by decide
  exact hall d hd

/-- The last digit of a numeral. -/
theorem digits_eq {b n : ℕ} (hb : 2 ≤ b) (hn : n ≠ 0) :
    (Nat.digits b n).reverse.map fromDigit
      = (Nat.digits b (n / b)).reverse.map fromDigit ++ [fromDigit (n % b)] := by
  rw [Nat.digits_def' hb (Nat.pos_of_ne_zero hn), List.reverse_cons, List.map_append,
    List.map_singleton]

/-- A numeral is made of digits. -/
theorem exists_of_mem_numeral {b n : ℕ} (hb : 2 ≤ b) {c : Char} (hc : c ∈ numeral b n) :
    ∃ d < b, c = fromDigit d := by
  rw [numeral] at hc
  split at hc
  · exact ⟨0, by omega, List.mem_singleton.1 hc⟩
  · obtain ⟨d, hd, rfl⟩ := List.mem_map.1 hc
    exact ⟨d, Nat.digits_lt_base hb (List.mem_reverse.1 hd), rfl⟩

theorem numeral_ne_nil (b n : ℕ) : numeral b n ≠ [] := by
  rw [numeral]
  split
  · simp
  · rename_i hn
    rw [Ne, List.map_eq_nil_iff, List.reverse_eq_nil_iff]
    exact Nat.digits_ne_nil_iff_ne_zero.2 hn

/-- **No zero stands in front** of other digits. -/
theorem numeral_head {b n : ℕ} (hb : 2 ≤ b) (hb' : b ≤ 36) (h : (numeral b n).head? = some '0') :
    n = 0 := by
  rw [numeral] at h
  split at h
  · assumption
  · rename_i hn
    have hne : Nat.digits b n ≠ [] := Nat.digits_ne_nil_iff_ne_zero.2 hn
    rw [List.head?_map, List.head?_reverse, List.getLast?_eq_some_getLast hne, Option.map_some,
      Option.some_inj] at h
    have hlt := Nat.digits_lt_base hb (List.getLast_mem hne)
    exact absurd ((fromDigit_eq_zero (by omega)).1 h) (Nat.getLast_digit_ne_zero b hn)

/-- **Digits read back**, the last one first in the list. -/
theorem ofDigits_map {b : ℕ} (hb : b ≤ 36) {ds : List ℕ} (h : ∀ d ∈ ds, d < b) :
    Text.ofDigits b (ds.reverse.map fromDigit) = some (Nat.ofDigits b ds) := by
  induction ds with
  | nil => rfl
  | cons d ds ih =>
      obtain ⟨hd, hds⟩ := List.forall_mem_cons.1 h
      have hrec := ih hds
      rw [Text.ofDigits] at hrec
      rw [List.reverse_cons, List.map_append, List.map_singleton, Text.ofDigits,
        List.foldlM_append, hrec, Option.bind_eq_bind, Option.bind_some, List.foldlM_cons,
        digit_fromDigit hd hb, Nat.ofDigits_cons]
      exact congrArg some (Nat.add_comm _ _)

/-- **A numeral reads back.** -/
theorem ofDigits_numeral {b : ℕ} (hb : 2 ≤ b) (hb' : b ≤ 36) (n : ℕ) :
    Text.ofDigits b (numeral b n) = some n := by
  rw [numeral]
  split
  · next hn =>
      have h := ofDigits_map hb' (show ∀ d ∈ [0], d < b by simpa using by omega)
      rw [hn]
      exact h
  · have h := ofDigits_map hb' fun d => Nat.digits_lt_base (m := n) hb
    rwa [Nat.ofDigits_digits] at h

/-- The numeral in radix 10 is the one that the runtime prints. -/
theorem toDigits_eq (n : ℕ) : Nat.toDigits 10 n = numeral 10 n := by
  have hdigit : ∀ d < 10, Nat.digitChar d = fromDigit d := by decide
  have hpos (n : ℕ) (hn : n ≠ 0) :
      Nat.toDigits 10 n = (Nat.digits 10 n).reverse.map fromDigit := by
    induction n using Nat.strong_induction_on with
    | h n ih =>
        rw [Nat.toDigits_eq_if (by decide), digits_eq (by decide) hn]
        by_cases hlt : n < 10
        · rw [if_pos hlt, Nat.div_eq_of_lt hlt, Nat.mod_eq_of_lt hlt, hdigit n hlt]
          rfl
        · rw [if_neg hlt, ih (n / 10) (by omega) (by omega), hdigit (n % 10) (by omega)]
  rw [numeral]
  split
  · rename_i hn
    rw [hn]
    rfl
  · rename_i hn
    exact hpos n hn

end Numeral
end Lib
end Lunar
