/-
# Stability

The sort of elements with their places.  A comparison that orders the elements, where those that are
equal go by their places, is a rule the sort keeps (`stable`), so that it sorts and leaves the order
of equal elements as it was (`yields_stable`).
-/

import Mathlib.Data.List.Sort
import Lunar.Payload.Timsort.Runs

namespace Lunar
namespace Timsort

variable {α : Type}

/-- `lt` orders the elements of a list, some of which may be equal. -/
structure Orders (lt : α → α → Prop) (work : List α) : Prop where
  asymm : ∀ x ∈ work, ∀ y ∈ work, lt x y → ¬ lt y x
  trans : ∀ x ∈ work, ∀ y ∈ work, ∀ z ∈ work, ¬ lt y x → ¬ lt z y → ¬ lt z x

/-- Elements with their places, none of which is before another one that is less, nor before an
earlier one that is not greater. -/
def Precedes (lt : α → α → Prop) (work : List α) (p q : α × ℕ) : Prop :=
  p.1 ∈ work ∧ q.1 ∈ work ∧ (lt p.1 q.1 ∨ ¬ lt q.1 p.1 ∧ p.2 < q.2)

variable {lt : α → α → Prop} {work : List α}

namespace Precedes

variable {p q r : α × ℕ}

theorem not_lt (ho : Orders lt work) (h : Precedes lt work p q) : ¬ lt q.1 p.1 := by
  obtain ⟨hp, hq, h | h⟩ := h
  · exact ho.asymm _ hp _ hq h
  · exact h.1

theorem trans (ho : Orders lt work) (h : Precedes lt work p q) (h' : Precedes lt work q r) :
    Precedes lt work p r := by
  have hqp := h.not_lt ho
  have hrq := h'.not_lt ho
  obtain ⟨hp, hq, h⟩ := h
  obtain ⟨-, hr, h'⟩ := h'
  refine ⟨hp, hr, ?_⟩
  rcases h with h | ⟨-, h⟩
  · exact .inl (by_contra fun hn => ho.trans _ hq _ hr _ hp hrq hn h)
  · rcases h' with h' | ⟨-, h'⟩
    · exact .inl (by_contra fun hn => ho.trans _ hr _ hp _ hq hn hqp h')
    · exact .inr ⟨ho.trans _ hp _ hq _ hr hqp hrq, h.trans h'⟩

theorem asymm (ho : Orders lt work) (h : Precedes lt work p q) : ¬ Precedes lt work q p := by
  intro h'
  have hqp := h.not_lt ho
  have hpq := h'.not_lt ho
  rcases h.2.2 with h | ⟨-, h⟩
  · exact hpq h
  · rcases h'.2.2 with h' | ⟨-, h'⟩
    · exact hqp h'
    · omega

end Precedes

/-- Only elements of the list are compared, and the later one with the earlier one. -/
def Rule.stable (ho : Orders lt work) : Rule (α × ℕ) where
  before := Precedes lt work
  later p q := p.1 ∈ work ∧ q.1 ∈ work ∧ q.2 < p.2
  trans := Precedes.trans ho

/-- Elements with their places are pending. -/
theorem pairwise_zipIdx (work : List α) :
    work.zipIdx.Pairwise fun p q => q.1 ∈ work ∧ p.1 ∈ work ∧ p.2 < q.2 := by
  have hplaces : work.zipIdx.Pairwise fun p q => p.2 < q.2 := by
    have h : (work.zipIdx.map Prod.snd).Pairwise (· < ·) := by
      rw [List.zipIdx_map_snd]
      exact List.pairwise_lt_range'
    exact List.pairwise_map.1 h
  refine hplaces.imp_of_mem fun hp hq h => ⟨?_, ?_, h⟩
  · exact List.fst_mem_of_mem_zipIdx hq
  · exact List.fst_mem_of_mem_zipIdx hp

/-- **The sort is stable.** -/
theorem yields_stable (ho : Orders lt work) :
    Yields (Rule.stable ho) (timsort work.zipIdx) fun out => (out.map Prod.fst).Perm work ∧
      (out.map Prod.fst).Pairwise (fun x y => ¬ lt y x) ∧
      ∀ c : List α, c.Sublist work → c.Pairwise (fun x y => ¬ lt y x) →
        c.Sublist (out.map Prod.fst) := by
  refine (yields_timsort (R := Rule.stable ho) (pairwise_zipIdx work)).mono ?_
  rintro out ⟨hperm, hsorted⟩
  refine ⟨?_, ?_, fun c hc hcs => ?_⟩
  · have h := hperm.map Prod.fst
    rwa [List.zipIdx_map_fst] at h
  · exact List.pairwise_map.2 (hsorted.imp fun h => Precedes.not_lt ho h)
  · -- the elements with their places are in order, and that order has no ties
    rw [← List.zipIdx_map_fst 0 work] at hc
    obtain ⟨d, hd, rfl⟩ := List.sublist_map_iff.1 hc
    refine List.Sublist.map Prod.fst ?_
    have hds : d.Pairwise (Precedes lt work) := by
      refine ((List.pairwise_map.1 hcs).and ((pairwise_zipIdx work).sublist hd)).imp ?_
      rintro p q ⟨hle, hq, hp, hlt⟩
      exact ⟨hp, hq, .inr ⟨hle, hlt⟩⟩
    have : Std.Antisymm (Precedes lt work) :=
      ⟨fun p q h h' => absurd h' (h.asymm ho)⟩
    exact List.sublist_of_subperm_of_pairwise (hd.subperm.trans hperm.symm.subperm) hds hsorted

/-- Any answers at all. -/
def Rule.any (work : List α) : Rule (α × ℕ) where
  before _ _ := True
  later p q := p.1 ∈ work ∧ q.1 ∈ work
  trans _ _ := trivial

/-- **Whatever the answers are**, the sort permutes. -/
theorem yields_any (work : List α) :
    Yields (Rule.any work) (timsort work.zipIdx) fun out => (out.map Prod.fst).Perm work := by
  have hpending : Pending (Rule.any work) work.zipIdx :=
    (pairwise_zipIdx work).imp fun h => ⟨h.1, h.2.1⟩
  refine (yields_timsort hpending).mono ?_
  rintro out ⟨hperm, -⟩
  have h := hperm.map Prod.fst
  rwa [List.zipIdx_map_fst] at h

end Timsort
end Lunar
