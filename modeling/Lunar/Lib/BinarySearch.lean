/-
# Binary search

`slice::binary_search_by_key` halves a window until one place is left (`narrow`).  In a
list whose keys increase it finds a key if and only if the key is there
(`binarySearch_eq_some`).
-/

import Mathlib.Algebra.Ring.Nat
import Mathlib.Data.Nat.Basic
import Mathlib.Order.Lattice

namespace Lunar
namespace Lib

variable {κ : Type*} [LinearOrder κ]

/-- The place that is left of a window, within `n` turns. -/
def narrow (keys : List κ) (x : κ) : ℕ → ℕ → ℕ → ℕ
  | 0, base, _ => base
  | n + 1, base, size =>
    if 1 < size then
      let half := size / 2
      let mid := base + half
      let base := if ∀ y ∈ keys[mid]?, x < y then base else mid
      narrow keys x n base (size - half)
    else base

/-- The place of a key. -/
def binarySearch (keys : List κ) (x : κ) : Option ℕ :=
  let base := narrow keys x keys.length 0 keys.length
  if keys[base]? = some x then some base else none

/-- A place of the window that holds the key is the one that is left. -/
theorem narrow_eq {keys : List κ} (hs : keys.Pairwise (· < ·)) {x : κ} {k : ℕ}
    (hk : keys[k]? = some x) (n : ℕ) : ∀ {base size : ℕ}, size ≤ n → base ≤ k → k < base + size →
      base + size ≤ keys.length → narrow keys x n base size = k := by
  induction n with
  | zero =>
      intro base size hn hbase hlt _
      omega
  | succ n ih =>
      intro base size hn hbase hlt hlen
      rw [narrow]
      by_cases hsize : 1 < size
      · rw [if_pos hsize]
        dsimp only
        have hmid : base + size / 2 < keys.length := by omega
        obtain ⟨hklen, rfl⟩ := List.getElem?_eq_some_iff.1 hk
        rw [List.getElem?_eq_getElem hmid]
        by_cases hy : keys[k] < keys[base + size / 2]
        · have hlow : k < base + size / 2 := by
            by_contra hge
            rcases Nat.lt_or_eq_of_le (Nat.not_lt.1 hge) with hgt | heq
            · exact lt_asymm hy (List.pairwise_iff_getElem.1 hs _ _ hmid hklen hgt)
            · simp only [heq] at hy
              exact lt_irrefl _ hy
          rw [if_pos fun z hz => Option.mem_some.1 hz ▸ hy]
          exact ih (by omega) hbase (by omega) (by omega)
        · have hhigh : base + size / 2 ≤ k := by
            by_contra hlt'
            exact hy (List.pairwise_iff_getElem.1 hs _ _ hklen hmid (Nat.not_le.1 hlt'))
          rw [if_neg fun h => hy (h _ rfl)]
          exact ih (by omega) hhigh (by omega) (by omega)
      · rw [if_neg hsize]
        omega

/-- **The search finds the place of a key.** -/
theorem binarySearch_eq_some {keys : List κ} (hs : keys.Pairwise (· < ·)) {x : κ} {i : ℕ} :
    binarySearch keys x = some i ↔ keys[i]? = some x := by
  unfold binarySearch
  constructor
  · intro h
    dsimp only at h
    split at h
    · rename_i hbase
      cases h
      exact hbase
    · cases h
  · intro h
    have hlt := (List.getElem?_eq_some_iff.1 h).1
    have hbase := narrow_eq hs h keys.length (Nat.le_refl _) (Nat.zero_le i) (by omega) (by omega)
    dsimp only
    rw [hbase, if_pos h]

end Lib
end Lunar
