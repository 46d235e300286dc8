/-
# Sweeps over a graph with stamps

A sweep takes nodes from a stack of work, drops those that bear its stamp, stamps the others,
collects something of each and puts what follows it on the stack.  Stamps stay after a sweep;
one that starts with a stamp that no node bears visits each node that its work leads to, and
once (`sweep_fresh`).
-/

import Mathlib.Algebra.BigOperators.Group.Finset.Basic
import Mathlib.Data.Finset.Range
import Mathlib.Logic.Relation

namespace Lunar
namespace Lib

variable {κ σ : Type} [DecidableEq κ]

/-- The loop of a sweep, for at most `fuel` nodes taken.  The stack of work has its top in
front. -/
def sweep (next : ℕ → List ℕ) (collect : σ → ℕ → σ) (stamp : κ) :
    ℕ → List ℕ → (ℕ → κ) → σ → Option ((ℕ → κ) × σ)
  | _, [], seen, acc => some (seen, acc)
  | 0, _ :: _, _, _ => none
  | fuel + 1, a :: work, seen, acc =>
    if seen a = stamp then sweep next collect stamp fuel work seen acc
    else sweep next collect stamp fuel ((next a).reverse ++ work) (Function.update seen a stamp)
      (collect acc a)

/-- What a node leads to. -/
abbrev Leads (next : ℕ → List ℕ) : ℕ → ℕ → Prop := Relation.ReflTransGen fun a b => b ∈ next a

/-- The nodes that are still to be taken from the stack, at most. -/
def ahead (next : ℕ → List ℕ) (stamp : κ) (n : ℕ) (seen : ℕ → κ) : ℕ :=
  ∑ a ∈ Finset.range n, if seen a = stamp then 0 else (next a).length

theorem ahead_update (next : ℕ → List ℕ) {stamp : κ} {n a : ℕ} {seen : ℕ → κ} (ha : a < n)
    (hseen : seen a ≠ stamp) :
    ahead next stamp n (Function.update seen a stamp) + (next a).length
      = ahead next stamp n seen := by
  have hmem : a ∈ Finset.range n := Finset.mem_range.2 ha
  have hrest : ∑ b ∈ (Finset.range n).erase a,
      (if Function.update seen a stamp b = stamp then 0 else (next b).length)
      = ∑ b ∈ (Finset.range n).erase a, if seen b = stamp then 0 else (next b).length := by
    refine Finset.sum_congr rfl fun b hb => ?_
    rw [Function.update_of_ne (Finset.ne_of_mem_erase hb)]
  rw [ahead, ahead, ← Finset.add_sum_erase _ _ hmem, ← Finset.add_sum_erase _ _ hmem, hrest,
    Function.update_self, if_pos rfl, if_neg hseen]
  omega

/-- What a sweep has done. -/
structure Swept (next : ℕ → List ℕ) (stamp : κ) (work : List ℕ) (seen seen' : ℕ → κ)
    (visited : List ℕ) : Prop where
  nodup : visited.Nodup
  fresh : ∀ a ∈ visited, seen a ≠ stamp
  marks : ∀ a, seen' a = if a ∈ visited then stamp else seen a
  leads : ∀ a ∈ visited, ∃ b ∈ work, Leads next b a
  taken : ∀ a ∈ work, seen' a = stamp
  closed : ∀ a, seen' a = stamp → ∀ b ∈ next a, seen' b = stamp

theorem sweep_spec (next : ℕ → List ℕ) (collect : σ → ℕ → σ) (stamp : κ) {n : ℕ}
    (hnext : ∀ a, ∀ b ∈ next a, b < n) {fuel : ℕ} (work : List ℕ) (seen : ℕ → κ) (acc : σ)
    (hwork : ∀ a ∈ work, a < n) (hfuel : work.length + ahead next stamp n seen ≤ fuel)
    (hclosed : ∀ a, seen a = stamp → ∀ b ∈ next a, seen b = stamp ∨ b ∈ work) :
    ∃ (seen' : ℕ → κ) (visited : List ℕ), sweep next collect stamp fuel work seen acc
        = some (seen', visited.foldl collect acc) ∧
      Swept next stamp work seen seen' visited := by
  induction fuel generalizing work seen acc with
  | zero =>
      obtain rfl : work = [] := List.length_eq_zero_iff.1 (by omega)
      refine ⟨seen, [], rfl, .nil, by simp, by simp, by simp, by simp, fun a ha b hb => ?_⟩
      exact (hclosed a ha b hb).resolve_right (by simp)
  | succ fuel ih =>
      rcases work with _ | ⟨a, work⟩
      · refine ⟨seen, [], rfl, .nil, by simp, by simp, by simp, by simp, fun a ha b hb => ?_⟩
        exact (hclosed a ha b hb).resolve_right (by simp)
      have ha : a < n := hwork a List.mem_cons_self
      rw [List.length_cons] at hfuel
      rw [sweep]
      by_cases hseen : seen a = stamp
      · rw [if_pos hseen]
        obtain ⟨seen', visited, hrun, hs⟩ := ih work seen acc
          (fun b hb => hwork b (List.mem_cons_of_mem a hb)) (by omega) fun b hb c hc => by
            rcases hclosed b hb c hc with h | h
            · exact .inl h
            · rcases List.mem_cons.1 h with rfl | h
              · exact .inl hseen
              · exact .inr h
        refine ⟨seen', visited, hrun, hs.nodup, hs.fresh, hs.marks, fun b hb => ?_, fun b hb => ?_,
          hs.closed⟩
        · obtain ⟨c, hc, hlead⟩ := hs.leads b hb
          exact ⟨c, List.mem_cons_of_mem a hc, hlead⟩
        · rcases List.mem_cons.1 hb with rfl | hb
          · rw [hs.marks]
            split
            · rfl
            · exact hseen
          · exact hs.taken b hb
      · rw [if_neg hseen]
        have hahead := ahead_update next ha hseen
        have hupdate (b : ℕ) : Function.update seen a stamp b = stamp ↔ b = a ∨ seen b = stamp := by
          by_cases hb : b = a
          · simp [hb]
          · simp [hb]
        obtain ⟨seen', visited, hrun, hs⟩ := ih ((next a).reverse ++ work)
          (Function.update seen a stamp) (collect acc a)
          (fun b hb => by
            rcases List.mem_append.1 hb with hb | hb
            · exact hnext a b (List.mem_reverse.1 hb)
            · exact hwork b (List.mem_cons_of_mem a hb))
          (by
            rw [List.length_append, List.length_reverse]
            omega)
          (fun b hb c hc => by
            rw [hupdate, List.mem_append, List.mem_reverse]
            rcases (hupdate b).1 hb with rfl | hb
            · exact .inr (.inl hc)
            · rcases hclosed b hb c hc with h | h
              · exact .inl (.inr h)
              · rcases List.mem_cons.1 h with rfl | h
                · exact .inl (.inl rfl)
                · exact .inr (.inr h))
        have hnot : a ∉ visited := fun h => hs.fresh a h (Function.update_self ..)
        refine ⟨seen', a :: visited, hrun, List.nodup_cons.2 ⟨hnot, hs.nodup⟩, fun b hb => ?_,
          fun b => ?_, fun b hb => ?_, fun b hb => ?_, hs.closed⟩
        · rcases List.mem_cons.1 hb with rfl | hb
          · exact hseen
          · intro heq
            exact hs.fresh b hb ((hupdate b).2 (.inr heq))
        · rw [hs.marks b]
          by_cases hb : b = a
          · subst hb
            rw [if_neg hnot, Function.update_self, if_pos List.mem_cons_self]
          · rw [Function.update_of_ne hb]
            simp only [List.mem_cons, hb, false_or]
        · rcases List.mem_cons.1 hb with rfl | hb
          · exact ⟨b, List.mem_cons_self, .refl⟩
          · obtain ⟨c, hc, hlead⟩ := hs.leads b hb
            rcases List.mem_append.1 hc with hc | hc
            · exact ⟨a, List.mem_cons_self, .head (List.mem_reverse.1 hc) hlead⟩
            · exact ⟨c, List.mem_cons_of_mem a hc, hlead⟩
        · rcases List.mem_cons.1 hb with rfl | hb
          · rw [hs.marks, if_neg hnot, Function.update_self]
          · exact hs.taken b (List.mem_append_right _ hb)

/-- **A sweep with a fresh stamp** visits exactly the nodes that its work leads to, and each
once. -/
theorem sweep_fresh (next : ℕ → List ℕ) (collect : σ → ℕ → σ) (stamp : κ) {n : ℕ}
    (hnext : ∀ a, ∀ b ∈ next a, b < n) (fuel : ℕ) (work : List ℕ) (seen : ℕ → κ) (acc : σ)
    (hwork : ∀ a ∈ work, a < n) (hfuel : work.length + ahead next stamp n seen ≤ fuel)
    (hfresh : ∀ a, seen a ≠ stamp) :
    ∃ (seen' : ℕ → κ) (visited : List ℕ), sweep next collect stamp fuel work seen acc
        = some (seen', visited.foldl collect acc) ∧ visited.Nodup ∧
      (∀ a, a ∈ visited ↔ ∃ b ∈ work, Leads next b a) ∧
      ∀ a, seen' a = if a ∈ visited then stamp else seen a := by
  obtain ⟨seen', visited, hrun, hs⟩ := sweep_spec next collect stamp hnext work seen acc hwork hfuel
    fun a ha => absurd ha (hfresh a)
  have hmem (a : ℕ) : seen' a = stamp ↔ a ∈ visited := by
    rw [hs.marks]
    by_cases ha : a ∈ visited
    · simp [ha]
    · simp [ha, hfresh a]
  refine ⟨seen', visited, hrun, hs.nodup, fun a => ⟨hs.leads a, ?_⟩, hs.marks⟩
  rintro ⟨b, hb, hlead⟩
  induction hlead with
  | refl => exact (hmem b).1 (hs.taken b hb)
  | tail _ hstep ih => exact (hmem _).1 (hs.closed _ ((hmem _).2 ih) _ hstep)

end Lib
end Lunar
