/-
# The search of a function

The search of `decompile` goes along the exits of the instructions (`Edge`).  It ends with
the instructions that the root reaches, each once, with the number of edges to each and
the mark of those that a forced edge leads to (`search_found`).
-/

import Mathlib.Data.List.Nodup
import Mathlib.Data.List.Perm.Subperm
import Lunar.Lib.Search
import Lunar.Payload.Decompile

namespace Lunar
namespace Decompile

open Ir
open Disasm (Instr NO_INSTR BAD_INSTR)
open Lib (Searched Reach)

/-- What a disassembly is: the index names instructions at their places, it is shorter than
its mark for a bad place, and the entries are sorted. -/
structure WellFormed (dis : Disasm) : Prop where
  index : ∀ p i, at_ dis p = some i → ∃ ins, dis.instrs[i]? = some ins ∧ ins.pc = p
  length : dis.index.length < BAD_INSTR
  entries : dis.entries.Pairwise (· < ·)

section Search

variable {dis : Disasm} {templates : List (Except String Template)}

variable (dis templates) in
/-- An exit of `i` leads to `j`. -/
def Edge (i j : ℕ) : Prop := ∃ e ∈ exits dis templates i, at_ dis e.1 = some j

theorem put_self {α : Type} (f : ℕ → α) (i : ℕ) (v : α) : put f i v i = v := if_pos rfl

theorem put_ne {α : Type} (f : ℕ → α) {i j : ℕ} (v : α) (h : j ≠ i) : put f i v j = f j := if_neg h

/-- The arrays say what the edges taken so far, `es`, lead to. -/
structure Counted (dis : Disasm) (stamp root : ℕ) (owner₀ : ℕ → ℕ) (s : Search)
    (es : List (ℕ × Bool)) : Prop where
  owner : ∀ j, s.owner j = stamp ↔ j ∈ s.members ++ s.work
  nodup : (s.members ++ s.work).Nodup
  preds : ∀ j, s.owner j = stamp → s.preds j = es.countP fun e => at_ dis e.1 = some j
  leader : ∀ j, s.owner j = stamp →
    (s.leader j = true ↔ j = root ∨ ∃ e ∈ es, at_ dis e.1 = some j ∧ e.2 = true)
  seen : ∀ e ∈ es, ∀ j, at_ dis e.1 = some j → s.owner j = stamp
  rooted : s.owner root = stamp
  others : ∀ j, s.owner j = stamp ∨ s.owner j = owner₀ j

variable {stamp root : ℕ} {owner₀ : ℕ → ℕ} {s : Search} {es : List (ℕ × Bool)}

theorem Counted.begin {s : Search} (hs : ∀ j, s.owner j ≠ stamp) :
    Counted dis stamp root s.owner (begin stamp root s) [] where
  owner j := by
    show put s.owner root stamp j = stamp ↔ j ∈ [root]
    rw [List.mem_singleton]
    by_cases hj : j = root
    · rw [hj, put_self]
      exact ⟨fun _ => rfl, fun _ => rfl⟩
    · rw [put_ne _ _ hj]
      exact ⟨fun h => absurd h (hs j), fun h => absurd h hj⟩
  nodup := List.nodup_singleton root
  preds j hj := by
    have heq : j = root := by
      by_contra hne
      exact hs j ((put_ne s.owner stamp hne).symm.trans hj)
    rw [heq]
    exact put_self _ _ _
  leader j hj := by
    have heq : j = root := by
      by_contra hne
      exact hs j ((put_ne s.owner stamp hne).symm.trans hj)
    rw [heq]
    exact ⟨fun _ => .inl rfl, fun _ => put_self _ _ _⟩
  seen e he := by cases he
  rooted := put_self _ _ _
  others j := by
    by_cases hj : j = root
    · exact .inl (hj ▸ put_self _ _ _)
    · exact .inr (put_ne _ _ hj)

/-- The instruction that an exit leads to has its stamp, and no counts yet if it is new. -/
theorem Counted.stamped (h : Counted dis stamp root owner₀ s es) (j : ℕ) (hj : s.owner j ≠ stamp) :
    Counted dis stamp root owner₀
      { s with
        owner := put s.owner j stamp
        preds := put s.preds j 0
        leader := put s.leader j .false
        work := j :: s.work } es := by
  have hnone : ∀ e ∈ es, at_ dis e.1 ≠ some j := fun e he hat => hj (h.seen e he j hat)
  have hroot : j ≠ root := fun heq => hj (heq ▸ h.rooted)
  have hmem : j ∉ s.members ++ s.work := fun hmem => hj ((h.owner j).2 hmem)
  refine ⟨fun i => ?_, ?_, fun i hi => ?_, fun i hi => ?_, fun e he i hat => ?_, ?_, fun i => ?_⟩
  · show put s.owner j stamp i = stamp ↔ i ∈ s.members ++ j :: s.work
    rw [List.mem_append, List.mem_cons]
    by_cases hij : i = j
    · rw [hij, put_self]
      exact ⟨fun _ => .inr (.inl rfl), fun _ => rfl⟩
    · rw [put_ne _ _ hij, h.owner i, List.mem_append, or_iff_right hij]
  · show (s.members ++ j :: s.work).Nodup
    rw [List.nodup_middle]
    exact List.nodup_cons.2 ⟨hmem, h.nodup⟩
  · show put s.preds j 0 i = _
    by_cases hij : i = j
    · rw [hij, put_self]
      refine (List.countP_eq_zero.2 fun e he => ?_).symm
      rw [decide_eq_true_eq]
      exact hnone e he
    · rw [put_ne _ _ hij]
      exact h.preds i ((put_ne s.owner stamp hij).symm.trans hi)
  · show put s.leader j .false i = true ↔ _
    by_cases hij : i = j
    · rw [hij, put_self]
      constructor
      · intro hfalse
        cases hfalse
      · rintro (heq | ⟨e, he, hat, -⟩)
        · exact absurd heq hroot
        · exact absurd hat (hnone e he)
    · rw [put_ne _ _ hij]
      exact h.leader i ((put_ne s.owner stamp hij).symm.trans hi)
  · show put s.owner j stamp i = stamp
    by_cases hij : i = j
    · rw [hij, put_self]
    · rw [put_ne _ _ hij, h.seen e he i hat]
  · show put s.owner j stamp root = stamp
    rw [put_ne _ _ hroot.symm, h.rooted]
  · show put s.owner j stamp i = stamp ∨ put s.owner j stamp i = owner₀ i
    by_cases hij : i = j
    · exact .inl (hij ▸ put_self _ _ _)
    · rw [put_ne _ _ hij]
      exact h.others i

/-- An exit to an instruction with the stamp is counted. -/
theorem Counted.counted (h : Counted dis stamp root owner₀ s es) {e : ℕ × Bool} {j : ℕ}
    (hat : at_ dis e.1 = some j) (hj : s.owner j = stamp) :
    Counted dis stamp root owner₀
      { s with
        preds := put s.preds j (s.preds j + 1)
        leader := if e.2 then put s.leader j .true else s.leader } (es ++ [e]) := by
  refine ⟨h.owner, h.nodup, fun i hi => ?_, fun i hi => ?_, fun e' he' i hat' => ?_, h.rooted,
    h.others⟩
  · show put s.preds j (s.preds j + 1) i = _
    rw [List.countP_append, List.countP_singleton]
    by_cases hij : i = j
    · rw [hij, put_self, h.preds j hj, if_pos (decide_eq_true hat)]
    · have hne : ¬ at_ dis e.1 = some i := fun hi' => hij (Option.some.inj (hi'.symm.trans hat))
      rw [put_ne _ _ hij, h.preds i hi, decide_eq_false hne]
      rfl
  · have hold := h.leader i hi
    simp only [List.mem_append, List.mem_singleton, or_and_right, exists_or, exists_eq_left,
      ← or_assoc]
    rw [← hold]
    by_cases he : e.2 = true
    · rw [if_pos he]
      by_cases hij : i = j
      · rw [hij, put_self]
        exact ⟨fun _ => .inr ⟨hat, he⟩, fun _ => rfl⟩
      · have hne : ¬ at_ dis e.1 = some i := fun hi' => hij (Option.some.inj (hi'.symm.trans hat))
        rw [put_ne _ _ hij]
        exact ⟨.inl, fun h' => h'.resolve_right fun h'' => hne h''.1⟩
    · rw [if_neg he]
      exact ⟨.inl, fun h' => h'.resolve_right fun h'' => he h''.2⟩
  · rcases List.mem_append.1 he' with he' | he'
    · exact h.seen e' he' i hat'
    · rw [List.mem_singleton.1 he'] at hat'
      exact Option.some.inj (hat.symm.trans hat') ▸ hj

/-- A visit counts its exit. -/
theorem Counted.visit (h : Counted dis stamp root owner₀ s es) (e : ℕ × Bool) :
    Counted dis stamp root owner₀ (visit dis stamp s e) (es ++ [e]) := by
  unfold Decompile.visit
  cases hat : at_ dis e.1 with
  | none =>
      have hno : ∀ j, decide (at_ dis e.1 = some j) = false := fun j => by
        rw [hat]
        rfl
      refine ⟨h.owner, h.nodup, fun j hj => ?_, fun j hj => ?_, fun e' he' j hat' => ?_, h.rooted,
        h.others⟩
      · rw [List.countP_append, List.countP_singleton, hno j, h.preds j hj]
        rfl
      · rw [h.leader j hj]
        simp only [List.mem_append, List.mem_singleton, or_and_right, exists_or, exists_eq_left]
        rw [hat]
        simp
      · rcases List.mem_append.1 he' with he' | he'
        · exact h.seen e' he' j hat'
        · rw [List.mem_singleton.1 he', hat] at hat'
          cases hat'
  | some j =>
      dsimp only
      by_cases hj : s.owner j = stamp
      · rw [if_neg (not_not_intro hj)]
        exact h.counted hat hj
      · rw [if_pos hj]
        exact (h.stamped j hj).counted hat (put_self _ _ _)

theorem visit_members (dis : Disasm) (stamp : ℕ) (s : Search) (e : ℕ × Bool) :
    (visit dis stamp s e).members = s.members := by
  unfold Decompile.visit
  split
  · rfl
  · dsimp only
    split <;> rfl

theorem visit_work (dis : Disasm) (stamp : ℕ) (s : Search) (e : ℕ × Bool) :
    s.work ⊆ (visit dis stamp s e).work ∧
      ∀ j ∈ (visit dis stamp s e).work, j ∈ s.work ∨ at_ dis e.1 = some j := by
  unfold Decompile.visit
  cases hat : at_ dis e.1 with
  | none => exact ⟨List.Subset.refl _, fun j hj => .inl hj⟩
  | some i =>
      dsimp only
      split
      · refine ⟨List.subset_cons_self _ _, fun j hj => ?_⟩
        rcases List.mem_cons.1 hj with rfl | hj
        · exact .inr rfl
        · exact .inl hj
      · exact ⟨List.Subset.refl _, fun j hj => .inl hj⟩

/-- The visits of a list of exits. -/
theorem Counted.visits (l : List (ℕ × Bool)) : ∀ {s : Search} {es : List (ℕ × Bool)},
    Counted dis stamp root owner₀ s es →
    Counted dis stamp root owner₀ (l.foldl (Decompile.visit dis stamp) s) (es ++ l) := by
  induction l with
  | nil => exact fun h => (List.append_nil _).symm ▸ h
  | cons e l ih =>
      intro s es h
      rw [List.append_cons]
      exact ih (h.visit e)

theorem visits_members (dis : Disasm) (stamp : ℕ) (l : List (ℕ × Bool)) : ∀ s : Search,
    (l.foldl (visit dis stamp) s).members = s.members := by
  induction l with
  | nil => exact fun s => rfl
  | cons e l ih => exact fun s => (ih _).trans (visit_members dis stamp s e)

theorem visits_work (dis : Disasm) (stamp : ℕ) (l : List (ℕ × Bool)) : ∀ s : Search,
    s.work ⊆ (l.foldl (visit dis stamp) s).work ∧
      ∀ j ∈ (l.foldl (visit dis stamp) s).work, j ∈ s.work ∨ ∃ e ∈ l, at_ dis e.1 = some j := by
  induction l with
  | nil => exact fun s => ⟨List.Subset.refl _, fun j hj => .inl hj⟩
  | cons e l ih =>
      intro s
      obtain ⟨hkeep, hnew⟩ := visit_work dis stamp s e
      obtain ⟨hkeep', hnew'⟩ := ih (visit dis stamp s e)
      refine ⟨fun j hj => hkeep' (hkeep hj), fun j hj => ?_⟩
      rcases hnew' j hj with hj | ⟨e', he', hat⟩
      · rcases hnew j hj with hj | hat
        · exact .inl hj
        · exact .inr ⟨e, List.mem_cons_self, hat⟩
      · exact .inr ⟨e', List.mem_cons_of_mem e he', hat⟩

/-- The edges taken for the members. -/
abbrev taken (dis : Disasm) (templates : List (Except String Template)) (s : Search) :
    List (ℕ × Bool) := s.members.flatMap (exits dis templates)

/-- The invariant of the search. -/
structure Inv (dis : Disasm) (templates : List (Except String Template)) (stamp root : ℕ)
    (owner₀ : ℕ → ℕ) (s : Search) : Prop where
  counted : Counted dis stamp root owner₀ s (taken dis templates s)
  search : Searched (Edge dis templates) root {i | i ∈ s.members} s.work
  bound : ∀ i ∈ s.members ++ s.work, i < dis.instrs.length

theorem at_lt (hw : WellFormed dis) {p i : ℕ} (h : at_ dis p = some i) : i < dis.instrs.length := by
  obtain ⟨ins, hins, -⟩ := hw.index p i h
  exact (List.getElem?_eq_some_iff.1 hins).1

/-- **A turn keeps the invariant**, and takes one instruction more. -/
theorem Inv.turn (hw : WellFormed dis) {s' : Search}
    (h : Inv dis templates stamp root owner₀ s) (ht : turn dis templates stamp s = some s') :
    Inv dis templates stamp root owner₀ s' ∧
      dis.instrs.length - s'.members.length < dis.instrs.length - s.members.length := by
  unfold Decompile.turn at ht
  cases hwork : s.work with
  | nil =>
      rw [hwork] at ht
      cases ht
  | cons i work =>
      rw [hwork] at ht
      cases ht
      have hperm : (s.members ++ [i]) ++ work = s.members ++ s.work := by
        rw [hwork, List.append_assoc]
        rfl
      have hpop : Counted dis stamp root owner₀ { s with members := s.members ++ [i], work }
          (taken dis templates s) :=
        ⟨fun j => hperm ▸ h.counted.owner j, hperm ▸ h.counted.nodup, h.counted.preds,
          h.counted.leader, h.counted.seen, h.counted.rooted, h.counted.others⟩
      have hcounted := hpop.visits (exits dis templates i)
      have htaken : taken dis templates s ++ exits dis templates i
          = (s.members ++ [i]).flatMap (exits dis templates) := by
        rw [List.flatMap_append, List.flatMap_singleton]
      rw [htaken] at hcounted
      have hmembers := visits_members dis stamp (exits dis templates i)
        { s with members := s.members ++ [i], work }
      obtain ⟨hkeep, hnew⟩ := visits_work dis stamp (exits dis templates i)
        { s with members := s.members ++ [i], work }
      refine ⟨⟨?_, ?_, ?_⟩, ?_⟩
      · rw [taken, hmembers]
        exact hcounted
      · have hset : {j | j ∈ (List.foldl (visit dis stamp) { s with members := s.members ++ [i], work }
            (exits dis templates i)).members} = insert i {j | j ∈ s.members} := by
          ext j
          rw [hmembers, Set.mem_insert_iff, Set.mem_ofPred_eq, List.mem_append, List.mem_singleton,
            or_comm]
          rfl
        rw [hset]
        have hsearch := h.search
        rw [hwork] at hsearch
        refine hsearch.visit (fun b hb => ?_) hkeep (fun b hb => ?_)
        · rcases hnew b hb with hb | ⟨e, he, hat⟩
          · exact .inr hb
          · exact .inl ⟨e, he, hat⟩
        · obtain ⟨e, he, hat⟩ := hb
          have hstamp := hcounted.seen e (List.mem_flatMap.2
            ⟨i, List.mem_append_right _ (List.mem_singleton.2 rfl), he⟩) b hat
          rcases List.mem_append.1 ((hcounted.owner b).1 hstamp) with hb | hb
          · rw [← hset]
            exact .inl hb
          · exact .inr hb
      · intro j hj
        rw [hmembers, List.mem_append] at hj
        rcases hj with hj | hj
        · exact h.bound j (hperm ▸ List.mem_append_left _ hj)
        · rcases hnew j hj with hj | ⟨e, -, hat⟩
          · exact h.bound j (hperm ▸ List.mem_append_right _ hj)
          · exact at_lt hw hat
      · have hnodup : (s.members ++ [i]).Nodup := by
          have := h.counted.nodup
          rw [← hperm] at this
          exact (List.nodup_append.1 this).1
        have hsub : s.members ++ [i] ⊆ List.range dis.instrs.length := fun j hj =>
          List.mem_range.2 (h.bound j (hperm ▸ List.mem_append_left _ hj))
        have hle := (List.Nodup.subperm hnodup hsub).length_le
        rw [List.length_range, List.length_append, List.length_singleton] at hle
        rw [hmembers, List.length_append, List.length_singleton]
        omega

/-- What the search of a function finds. -/
structure Found (dis : Disasm) (templates : List (Except String Template)) (stamp root : ℕ)
    (owner₀ : ℕ → ℕ) (s : Search) : Prop where
  nodup : s.members.Nodup
  mem : ∀ i, i ∈ s.members ↔ Reach (Edge dis templates) root i
  counted : Counted dis stamp root owner₀ s (taken dis templates s)
  work : s.work = []

/-- **The search finds the instructions that the root reaches.** -/
theorem search_found (templates : List (Except String Template)) (hw : WellFormed dis)
    (hroot : root < dis.instrs.length) {s₀ : Search}
    (hs : ∀ j, s₀.owner j ≠ stamp) :
    ∃ s, Found dis templates stamp root s₀.owner s ∧ ∀ n, dis.instrs.length < n →
      Lib.loop (turn dis templates stamp) n (begin stamp root s₀) = some s := by
  have hstart : Inv dis templates stamp root s₀.owner (begin stamp root s₀) := by
    refine ⟨Counted.begin hs, ?_, fun i hi => ?_⟩
    · have hempty : {i | i ∈ (begin stamp root s₀).members} = ∅ := by
        ext i
        rw [Set.mem_ofPred_eq]
        exact ⟨fun h => (by cases h), fun h => absurd h (Set.notMem_empty i)⟩
      rw [hempty]
      exact Searched.start
    · rw [List.mem_singleton.1 hi]
      exact hroot
  obtain ⟨s, hinv, hend, hloop⟩ := Lib.loop_spec (fun s s' h ht => Inv.turn hw h ht) hstart
  have hwork : s.work = [] := by
    cases hwork : s.work with
    | nil => rfl
    | cons i work =>
        rw [Decompile.turn, hwork] at hend
        cases hend
  refine ⟨s, ⟨?_, fun i => ?_, hinv.counted, hwork⟩, fun n hn => hloop n (by
    show dis.instrs.length - 0 < n
    omega)⟩
  · have := hinv.counted.nodup
    rwa [hwork, List.append_nil] at this
  · have hsearch := hinv.search
    rw [hwork] at hsearch
    exact hsearch.done i

end Search
end Decompile
end Lunar
