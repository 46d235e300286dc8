/-
# Numbers as bits

The low bits of a number, the highest first, and the number that bits denote.  A number put
above the bits of another has the bits of both (`bits_add`), so fields of fixed width that are
put one after the other are read back by cutting the bits (`fields_flatMap`).
-/

import Mathlib.Data.List.TakeDrop
import Mathlib.Data.Nat.Notation
import Mathlib.Tactic.Ring

namespace Lunar
namespace Lib

/-- The `w` low bits of a number, the highest first. -/
def bits : ℕ → ℕ → List Bool
  | 0, _ => []
  | w + 1, n => bits w (n / 2) ++ [decide (n % 2 = 1)]

/-- The number that bits denote. -/
def ofBits (bs : List Bool) : ℕ := bs.foldl (fun n b => 2 * n + b.toNat) 0

/-- The first `n` fields of `w` bits. -/
def fields (w : ℕ) : ℕ → List Bool → List ℕ
  | 0, _ => []
  | n + 1, bs => ofBits (bs.take w) :: fields w n (bs.drop w)

@[simp] theorem length_bits (w n : ℕ) : (bits w n).length = w := by
  induction w generalizing n with
  | zero => rfl
  | succ w ih => simp [bits, ih]

theorem ofBits_concat (bs : List Bool) (b : Bool) : ofBits (bs ++ [b]) = 2 * ofBits bs + b.toNat := by
  simp [ofBits]

theorem ofBits_bits {w n : ℕ} (h : n < 2 ^ w) : ofBits (bits w n) = n := by
  induction w generalizing n with
  | zero =>
      obtain rfl : n = 0 := by omega
      rfl
  | succ w ih =>
      have hlow : (decide (n % 2 = 1)).toNat = n % 2 := by
        rcases Nat.mod_two_eq_zero_or_one n with h | h <;> simp [h]
      rw [bits, ofBits_concat, ih (by omega), hlow]
      omega

/-- **The bits of a number above another** are those of the two. -/
theorem bits_add (a b x : ℕ) {y : ℕ} (h : y < 2 ^ b) :
    bits (a + b) (x * 2 ^ b + y) = bits a x ++ bits b y := by
  induction b generalizing y with
  | zero =>
      obtain rfl : y = 0 := by omega
      simp [bits]
  | succ b ih =>
      have heven : x * 2 ^ (b + 1) + y = 2 * (x * 2 ^ b) + y := by ring
      have hhalf : (2 * (x * 2 ^ b) + y) / 2 = x * 2 ^ b + y / 2 := by omega
      have hlow : (2 * (x * 2 ^ b) + y) % 2 = y % 2 := by omega
      rw [← Nat.add_assoc, bits, heven, hhalf, hlow, ih (by omega), bits, List.append_assoc]

/-- A number shifted up, with another below it. -/
theorem shiftLeft_or {x y k : ℕ} (h : y < 2 ^ k) : (x <<< k) ||| y = x * 2 ^ k + y := by
  rw [← Nat.shiftLeft_add_eq_or_of_lt h, Nat.shiftLeft_eq]

/-- **Fields put one after the other** are read back. -/
theorem fields_flatMap {w : ℕ} {xs : List ℕ} (h : ∀ x ∈ xs, x < 2 ^ w) (rest : List Bool) :
    fields w xs.length (xs.flatMap (bits w) ++ rest) = xs := by
  induction xs with
  | nil => rfl
  | cons x xs ih =>
      rw [List.forall_mem_cons] at h
      rw [List.flatMap_cons, List.append_assoc, List.length_cons, fields,
        List.take_left' (length_bits w x), List.drop_left' (length_bits w x), ofBits_bits h.1,
        ih h.2]

theorem length_flatMap_bits (w : ℕ) (xs : List ℕ) :
    (xs.flatMap (bits w)).length = w * xs.length := by
  induction xs with
  | nil => rfl
  | cons x xs ih =>
      rw [List.flatMap_cons, List.length_append, length_bits, ih, List.length_cons]
      ring

end Lib
end Lunar
