/-
# Places that are filled

A list of places is permuted and written to.  A write takes at most one free place, so if
the free places that are left are as many as writes without a loss leave, no write hit a
place twice and everything that was written is still there (`Filled.once`).
-/

import Mathlib.Data.List.Perm.Basic
import Mathlib.Data.Nat.Notation

namespace Lunar
namespace Lib

variable {α : Type*} {free : α → Bool}

/-- `cur` are `n` places after the writes of `done`, the last one first. -/
structure Filled (free : α → Bool) (n : ℕ) (cur done : List α) : Prop where
  length : cur.length = n
  room : n ≤ cur.countP free + done.length
  once : cur.countP free + done.length = n → (cur.filter fun a => !free a).Perm done

variable {n : ℕ} {cur cur' done done' : List α}

theorem Filled.start (h : ∀ a ∈ cur, free a = true) : Filled free cur.length cur [] where
  length := rfl
  room := by
    rw [List.countP_eq_length.2 h]
    exact Nat.le_add_right _ _
  once _ := by
    have hnil : (cur.filter fun a => !free a) = [] := by
      refine List.filter_eq_nil_iff.2 fun a ha => ?_
      rw [h a ha]
      exact Bool.false_ne_true
    rw [hnil]

/-- The places may be permuted. -/
theorem Filled.perm (h : Filled free n cur done) (hp : cur'.Perm cur) : Filled free n cur' done where
  length := hp.length_eq.trans h.length
  room := by
    rw [hp.countP_eq]
    exact h.room
  once hn := by
    rw [hp.countP_eq] at hn
    exact (hp.filter _).trans (h.once hn)

/-- The order of the writes does not matter. -/
theorem Filled.perm_done (h : Filled free n cur done) (hp : done.Perm done') :
    Filled free n cur done' where
  length := h.length
  room := by
    rw [← hp.length_eq]
    exact h.room
  once hn := by
    rw [← hp.length_eq] at hn
    exact (h.once hn).trans hp

/-- **A write takes a free place or loses a place.** -/
theorem Filled.write (h : Filled free n cur done) {i : ℕ} (hi : i < n) {a : α}
    (ha : free a = false) : Filled free n (cur.set i a) (a :: done) := by
  have hlt : i < cur.length := h.length ▸ hi
  have hcur : cur = cur.take i ++ cur[i] :: cur.drop (i + 1) := by
    rw [List.getElem_cons_drop, List.take_append_drop]
  have hset : cur.set i a = cur.take i ++ a :: cur.drop (i + 1) := List.set_eq_take_append_cons_drop ..
    |>.trans (if_pos hlt)
  have hcount : cur.countP free = (cur.take i).countP free + (cur.drop (i + 1)).countP free
      + (if free cur[i] then 1 else 0) := by
    conv_lhs => rw [hcur]
    rw [List.countP_append, List.countP_cons, Nat.add_assoc]
  have hcount' : (cur.set i a).countP free
      = (cur.take i).countP free + (cur.drop (i + 1)).countP free := by
    rw [hset, List.countP_append, List.countP_cons_of_neg (by rw [ha]; exact Bool.false_ne_true)]
  have hroom := h.room
  refine ⟨(List.length_set ..).trans h.length, ?_, fun hn => ?_⟩
  · rw [hcount', List.length_cons]
    split at hcount
    all_goals omega
  · rw [hcount', List.length_cons] at hn
    have hfree : free cur[i] = true := by
      by_contra hno
      rw [if_neg hno] at hcount
      omega
    rw [if_pos hfree] at hcount
    have honce := h.once (by omega)
    have hfilter : (cur.filter fun a => !free a)
        = (cur.take i).filter (fun a => !free a) ++ (cur.drop (i + 1)).filter fun a => !free a := by
      conv_lhs => rw [hcur]
      rw [List.filter_append, List.filter_cons_of_neg (by rw [hfree]; exact Bool.false_ne_true)]
    have hfilter' : ((cur.set i a).filter fun a => !free a) = (cur.take i).filter (fun a => !free a)
        ++ a :: (cur.drop (i + 1)).filter fun a => !free a := by
      rw [hset, List.filter_append, List.filter_cons_of_pos (by rw [ha]; rfl)]
    rw [hfilter']
    rw [hfilter] at honce
    exact List.perm_middle.trans (honce.cons a)

/-- **The last free place**: when it is written to as well, each write is there once. -/
theorem Filled.last (h : Filled free n cur done) (hn : done.length + 1 = n)
    (hone : cur.countP free = 1) {i : ℕ} {x : α} (hi : cur[i]? = some x) (hx : free x = true) (a : α) :
    (cur.set i a).Perm (a :: done) := by
  obtain ⟨hlt, rfl⟩ := List.getElem?_eq_some_iff.1 hi
  have hcur : cur = cur.take i ++ cur[i] :: cur.drop (i + 1) := by
    rw [List.getElem_cons_drop, List.take_append_drop]
  have hset : cur.set i a = cur.take i ++ a :: cur.drop (i + 1) :=
    List.set_eq_take_append_cons_drop.trans (if_pos hlt)
  have honce := h.once (by omega)
  rw [hcur, List.countP_append, List.countP_cons, if_pos hx] at hone
  have hkeep : ∀ l : List α, l.countP free = 0 → (l.filter fun a => !free a) = l := by
    intro l hl
    refine List.filter_eq_self.2 fun b hb => ?_
    rw [Bool.not_eq_true']
    exact Bool.eq_false_iff.2 (List.countP_eq_zero.1 hl b hb)
  rw [hcur, List.filter_append, List.filter_cons_of_neg (by rw [hx]; exact Bool.false_ne_true),
    hkeep _ (by omega), hkeep _ (by omega)] at honce
  rw [hset]
  exact List.perm_middle.trans (honce.cons a)

end Lib
end Lunar
