/-
# Slices of a text by byte offsets

A text is a list of characters, and an offset counts the bytes of its encoding.  A slice exists
only when its ends lie between two characters.
-/

import Mathlib.Tactic.SplitIfs
import Mathlib.Data.List.Basic

namespace Lunar
namespace Lib
namespace Slice

/-- The bytes of a text. -/
def bytes (cs : List Char) : List UInt8 := cs.flatMap String.utf8EncodeChar

/-- The number of its bytes, `str::len`. -/
def size (cs : List Char) : ℕ := (bytes cs).length

/-- The text before the offset `i` and from it on. -/
def cutAt : List Char → ℕ → Option (List Char × List Char)
  | cs, 0 => some ([], cs)
  | [], _ + 1 => none
  | c :: cs, i + 1 =>
    if c.utf8Size ≤ i + 1 then
      (cutAt cs (i + 1 - c.utf8Size)).map fun (before, after) => (c :: before, after)
    else none

/-- `&s[..i]`. -/
def upTo (cs : List Char) (i : ℕ) : Option (List Char) := (cutAt cs i).map (·.1)

/-- `&s[i..]`. -/
def onFrom (cs : List Char) (i : ℕ) : Option (List Char) := (cutAt cs i).map (·.2)

/-- `&s[i..j]`. -/
def slice (cs : List Char) (i j : ℕ) : Option (List Char) :=
  if j < i then none else (onFrom cs i).bind fun rest => upTo rest (j - i)

@[simp] theorem bytes_nil : bytes [] = [] := rfl

@[simp] theorem bytes_cons (c : Char) (cs : List Char) :
    bytes (c :: cs) = String.utf8EncodeChar c ++ bytes cs := List.flatMap_cons

@[simp] theorem size_nil : size [] = 0 := rfl

@[simp] theorem size_cons (c : Char) (cs : List Char) : size (c :: cs) = c.utf8Size + size cs := by
  rw [size, bytes_cons, List.length_append, String.length_utf8EncodeChar, size]

@[simp] theorem size_append (xs ys : List Char) : size (xs ++ ys) = size xs + size ys := by
  rw [size, bytes, List.flatMap_append, List.length_append]
  rfl

/-- A text is cut at the end of any of its beginnings. -/
@[simp] theorem cutAt_append (xs ys : List Char) : cutAt (xs ++ ys) (size xs) = some (xs, ys) := by
  induction xs with
  | nil => cases ys <;> rfl
  | cons c xs ih =>
      have hpos := c.utf8Size_pos
      obtain ⟨k, hk⟩ : ∃ k, size (c :: xs) = k + 1 := by
        rw [size_cons]
        exact ⟨c.utf8Size + size xs - 1, by omega⟩
      have hle : c.utf8Size ≤ k + 1 := by
        rw [← hk, size_cons]
        omega
      have hrest : k + 1 - c.utf8Size = size xs := by
        rw [← hk, size_cons]
        omega
      rw [hk, List.cons_append, cutAt, if_pos hle, hrest, ih]
      rfl

@[simp] theorem upTo_append (xs ys : List Char) : upTo (xs ++ ys) (size xs) = some xs := by
  rw [upTo, cutAt_append]
  rfl

@[simp] theorem onFrom_append (xs ys : List Char) : onFrom (xs ++ ys) (size xs) = some ys := by
  rw [onFrom, cutAt_append]
  rfl

theorem slice_append (xs ys zs : List Char) :
    slice (xs ++ ys ++ zs) (size xs) (size xs + size ys) = some ys := by
  have hle : ¬ size xs + size ys < size xs := by omega
  rw [slice, if_neg hle, List.append_assoc, onFrom_append, Nat.add_sub_cancel_left]
  exact upTo_append ys zs

/-- No text is cut inside a character. -/
theorem cutAt_inside {k : ℕ} {c : Char} (hk : 0 < k) (hc : k < c.utf8Size) (xs zs : List Char) :
    cutAt (xs ++ c :: zs) (size xs + k) = none := by
  induction xs with
  | nil =>
      obtain ⟨k, rfl⟩ : ∃ k', k = k' + 1 := ⟨k - 1, by omega⟩
      rw [size_nil, Nat.zero_add, List.nil_append, cutAt, if_neg (by omega)]
  | cons x xs ih =>
      have hpos := x.utf8Size_pos
      obtain ⟨i, hi⟩ : ∃ i, size (x :: xs) + k = i + 1 := ⟨size (x :: xs) + k - 1, by omega⟩
      have hsize := size_cons x xs
      have hrest : i + 1 - x.utf8Size = size xs + k := by omega
      rw [hi, List.cons_append, cutAt, if_pos (by omega), hrest, ih]
      rfl

theorem slice_inside {k : ℕ} {c : Char} (hk : 0 < k) (hc : k < c.utf8Size)
    (xs ys zs : List Char) :
    slice (xs ++ (ys ++ c :: zs)) (size xs) (size xs + (size ys + k)) = none := by
  have hle : ¬ size xs + (size ys + k) < size xs := by omega
  rw [slice, if_neg hle, onFrom_append, Nat.add_sub_cancel_left, Option.bind_some, upTo,
    cutAt_inside hk hc]
  rfl

/-! ## The bytes of a character -/

/-- A character of one byte is this byte. -/
theorem encode_ascii {c : Char} (h : c.toNat < 128) :
    String.utf8EncodeChar c = [UInt8.ofNat c.toNat] := by
  have hle : c.val.toNat ≤ 127 := Nat.le_of_lt_succ h
  rw [String.utf8EncodeChar, if_pos hle]
  rfl

/-- The bytes of any other character are none of those. -/
theorem le_encode {c : Char} (h : 128 ≤ c.toNat) :
    ∀ b ∈ String.utf8EncodeChar c, 128 ≤ b.toNat := by
  intro b hb
  have hval : c.val.toNat = c.toNat := rfl
  rw [String.utf8EncodeChar, hval] at hb
  split_ifs at hb
  · omega
  all_goals
    simp only [List.mem_cons, List.not_mem_nil, or_false] at hb
    rcases hb with rfl | rfl | rfl | rfl <;> rw [UInt8.toNat_ofNat'] <;> omega

theorem one_lt_utf8Size {c : Char} (h : 128 ≤ c.toNat) : 1 < c.utf8Size := by
  have hpos := c.utf8Size_pos
  have hne : c.utf8Size ≠ 1 := fun hone => by
    have hle := UInt32.le_iff_toNat_le.1 (Char.utf8Size_eq_one_iff.1 hone)
    have hval : c.val.toNat = c.toNat := rfl
    have h127 : (127 : UInt32).toNat = 127 := rfl
    omega
  omega

theorem utf8Size_ascii {c : Char} (h : c.toNat < 128) : c.utf8Size = 1 :=
  Char.utf8Size_eq_one_iff.2 (UInt32.le_iff_toNat_le.2 (Nat.le_of_lt_succ h))

end Slice
end Lib
end Lunar
