/-
# A queue that a mask picks from

Values wait in a queue.  A mask moves the place in the queue, the value there is picked,
and the next value to come takes its place (`Queue.pick`).  Where the mask is the last
output of an invertible function of the picked value, the outputs alone say which value
each of them came from (`replay_emit`).
-/

import Mathlib.Data.Int.Notation
import Mathlib.Data.List.InsertIdx
import Mathlib.Data.List.Perm.Basic

namespace Lunar
namespace Lib

/-- The values that wait, those still to come, and the place of the last pick. -/
structure Queue (α : Type*) where
  held : List α
  rest : List α
  idx : ℤ

namespace Queue

variable {α ι : Type*}

def values (q : Queue α) : List α := q.held ++ q.rest

def map (f : ι → α) (q : Queue ι) : Queue α := ⟨q.held.map f, q.rest.map f, q.idx⟩

/-- The place that a mask leads to. -/
def place (q : Queue α) (mask : ℤ) : ℤ := (q.idx + mask) % (q.held.length : ℤ)

/-- The queue after the value at a place was picked. -/
def step (q : Queue α) (idx : ℤ) : Queue α where
  held := match q.rest with
    | [] => q.held.eraseIdx idx.toNat
    | b :: _ => q.held.set idx.toNat b
  rest := q.rest.tail
  idx

/-- The value that a mask picks, and the queue after it. -/
def pick (q : Queue α) (mask : ℤ) : Option (α × Queue α) :=
  (q.held[(q.place mask).toNat]?).map fun a => (a, q.step (q.place mask))

theorem place_lt {q : Queue α} (h : q.held ≠ []) (mask : ℤ) :
    (q.place mask).toNat < q.held.length := by
  have hpos : (0 : ℤ) < q.held.length := Int.ofNat_lt.2 (List.length_pos_iff.2 h)
  have hlow := Int.emod_nonneg (q.idx + mask) (Int.ne_of_gt hpos)
  have hhigh := Int.emod_lt_of_pos (q.idx + mask) hpos
  unfold place
  omega

theorem pick_none {q : Queue α} {mask : ℤ} (h : q.pick mask = none) : q.held = [] := by
  by_contra hne
  have hge := List.getElem?_eq_none_iff.1 (Option.map_eq_none_iff.1 h)
  have hlt := place_lt hne mask
  omega

theorem pick_some {q q' : Queue α} {mask : ℤ} {a : α} (h : q.pick mask = some (a, q')) :
    q.held[(q.place mask).toNat]? = some a ∧ q' = q.step (q.place mask) := by
  obtain ⟨b, hb, heq⟩ := Option.map_eq_some_iff.1 h
  cases heq
  exact ⟨hb, rfl⟩

/-- A pick takes one value. -/
theorem pick_perm {q q' : Queue α} {mask : ℤ} {a : α} (h : q.pick mask = some (a, q')) :
    q.values.Perm (a :: q'.values) := by
  obtain ⟨ha, rfl⟩ := pick_some h
  obtain ⟨hlt, rfl⟩ := List.getElem?_eq_some_iff.1 ha
  have hheld := (List.getElem_cons_eraseIdx_perm hlt).symm
  unfold values step
  cases q.rest with
  | nil => exact hheld.append_right []
  | cons b rest =>
      have hset : (q.held.set (q.place mask).toNat b).Perm
          (b :: q.held.eraseIdx (q.place mask).toNat) := by
        have hlt' : (q.place mask).toNat < (q.held.set (q.place mask).toNat b).length := by
          rwa [List.length_set]
        have := (List.getElem_cons_eraseIdx_perm hlt').symm
        rwa [List.getElem_set_self, List.eraseIdx_set_eq] at this
      have hmiddle : (q.held ++ b :: rest).Perm (b :: (q.held ++ rest)) := List.perm_middle
      refine hmiddle.trans ((hheld.append_right rest).cons b |>.trans ?_)
      exact (List.Perm.swap _ _ _).trans ((hset.symm.append_right rest).cons _)

/-- A queue is empty only when nothing is to come. -/
def Fed (q : Queue α) : Prop := q.held = [] → q.rest = []

theorem Fed.pick {q q' : Queue α} {mask : ℤ} {a : α} (h : q.Fed)
    (hpick : q.pick mask = some (a, q')) : q'.Fed := by
  obtain ⟨ha, rfl⟩ := pick_some hpick
  unfold Fed step
  cases hrest : q.rest with
  | nil => exact fun _ => rfl
  | cons b rest =>
      intro hnil
      have hlen : (q.held.set (q.place mask).toNat b).length = 0 := List.length_eq_zero_iff.2 hnil
      rw [List.length_set] at hlen
      rw [h (List.length_eq_zero_iff.1 hlen)] at hrest
      cases hrest

/-- The place of a pick does not depend on the values. -/
theorem pick_map (f : ι → α) (q : Queue ι) (mask : ℤ) :
    (q.map f).pick mask = (q.pick mask).map fun (i, q') => (f i, q'.map f) := by
  have hplace : (q.map f).place mask = q.place mask := by
    unfold place map
    rw [List.length_map]
  have hstep : ∀ idx, (q.map f).step idx = (q.step idx).map f := by
    intro idx
    unfold step map
    cases q.rest with
    | nil =>
        show (⟨(q.held.map f).eraseIdx idx.toNat, [], idx⟩ : Queue α) = _
        rw [List.eraseIdx_map]
        rfl
    | cons b rest =>
        show (⟨(q.held.map f).set idx.toNat (f b), rest.map f, idx⟩ : Queue α) = _
        rw [← List.map_set]
        rfl
  have hget : ∀ k, (q.map f).held[k]? = (q.held[k]?).map f := fun k => List.getElem?_map
  unfold pick
  rw [hplace, hstep, hget, Option.map_map, Option.map_map]
  rfl

end Queue

section Shuffle

variable {α β ι : Type*} (enc : β → α → β) (dec : β → β → α) (mask : β → ℤ)

/-- The picked values with their outputs, each output the mask of the next pick. -/
def emit : ℕ → β → Queue α → List (α × β)
  | 0, _, _ => []
  | n + 1, s, q =>
    match q.pick (mask s) with
    | none => []
    | some (a, q') => (a, enc s a) :: emit n (enc s a) q'

/-- The names of the picked values and the values, from the outputs. -/
def replay : List β → β → Queue ι → List (ι × α)
  | [], _, _ => []
  | c :: cs, s, q =>
    match q.pick (mask s) with
    | none => []
    | some (i, q') => (i, dec s c) :: replay cs c q'

/-- The outputs for values in the order in which they are picked. -/
def chained : β → List α → List β
  | _, [] => []
  | s, a :: as => enc s a :: chained (enc s a) as

theorem length_chained (as : List α) : ∀ s : β, (chained enc s as).length = as.length := by
  induction as with
  | nil => exact fun s => rfl
  | cons a as ih => exact fun s => congrArg Nat.succ (ih (enc s a))

theorem snd_emit (n : ℕ) : ∀ (s : β) (q : Queue α),
    (emit enc mask n s q).map Prod.snd = chained enc s ((emit enc mask n s q).map Prod.fst) := by
  induction n with
  | zero => exact fun s q => rfl
  | succ n ih =>
      intro s q
      rw [emit]
      cases q.pick (mask s) with
      | none => rfl
      | some r =>
          show enc s r.1 :: _ = enc s r.1 :: _
          rw [ih]

/-- **The outputs determine the values**: every value is picked once, and the replay names
each value that it finds. -/
theorem replay_emit (hdec : ∀ s a, dec s (enc s a) = a) (f : ι → α) (n : ℕ) :
    ∀ (s : β) (q : Queue ι), q.Fed → q.values.length ≤ n →
      ∃ is : List ι, is.Perm q.values ∧
        (emit enc mask n s (q.map f)).map Prod.fst = is.map f ∧
        replay dec mask ((emit enc mask n s (q.map f)).map Prod.snd) s q
          = is.map fun i => (i, f i) := by
  induction n with
  | zero =>
      intro s q _ hn
      have hnil : q.values = [] := List.length_eq_zero_iff.1 (Nat.le_zero.1 hn)
      exact ⟨[], hnil ▸ List.Perm.refl [], rfl, rfl⟩
  | succ n ih =>
      intro s q hfed hn
      rw [emit, Queue.pick_map]
      cases hpick : q.pick (mask s) with
      | none =>
          have hheld := Queue.pick_none hpick
          have hnil : q.values = [] := by
            rw [Queue.values, hheld, hfed hheld]
            rfl
          exact ⟨[], hnil ▸ List.Perm.refl [], rfl, rfl⟩
      | some r =>
          obtain ⟨i, q'⟩ := r
          have hperm := Queue.pick_perm hpick
          have hlen : q'.values.length ≤ n := by
            have := hperm.length_eq
            rw [List.length_cons] at this
            omega
          obtain ⟨is, his, hfst, hreplay⟩ := ih (enc s (f i)) q' (hfed.pick hpick) hlen
          refine ⟨i :: is, (his.cons i).trans hperm.symm, ?_, ?_⟩
          · show f i :: _ = f i :: _
            rw [hfst]
          · show replay dec mask (enc s (f i) :: _) s q = (i, f i) :: _
            rw [replay, hpick]
            dsimp only
            rw [hdec, hreplay]

end Shuffle

end Lib
end Lunar
