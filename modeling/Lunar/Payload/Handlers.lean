/-
# The varints of the payload's handlers

`payload/handlers.rs`: `varint`, with the table `lut` of the places of the alphabet that
`decode` makes for it.  A unit outside the alphabet counts as place zero, and so does what
is read past the end of the word; the inner loop would not end if a zero did not end a
number, and `none` stands for that.
-/

import Lunar.Lib.Varint
import Lunar.Payload.Fold
import Lunar.Payload.Blob.Parse

namespace Lunar
namespace Trap

open Lib (Double Digit)
open Lib.Varint (completed digit digits unitDigit Finished Fits Holds)
open Fold (toInt32)

/-- The table `lut`. -/
def lut (alphabet : List ℕ) : List (ℕ × ℕ) :=
  alphabet.zipIdx.foldl (fun xs e => Lib.put xs e.1 e.2) []

section Varint

variable (lut : List (ℕ × ℕ)) (radix : ℕ) (base : Double)

/-- The inner loop of `varint`: the number pushed, and the units after it. -/
def number : List ℕ → Double → Double → Option (BitVec 32 × List ℕ)
  | [], m, w => if 0 < radix then some (toInt32 (m.add (w.mul (.ofNat 0))), []) else none
  | u :: us, m, w =>
    let l := (Lib.get lut u).getD 0
    if l < radix then some (toInt32 (m.add (w.mul (.ofNat l))), us)
    else number us (m.add (w.mul (.ofNat (l % radix + radix)))) (w.mul base)

/-- The outer loop of `varint`, which takes as many turns as there are units at most. -/
def varintLoop : ℕ → List ℕ → List (BitVec 32) → Option (List (BitVec 32))
  | _, [], out => some out
  | 0, _ :: _, _ => none
  | fuel + 1, u :: us, out => do
    let (x, rest) ← number lut radix base (u :: us) .zero .one
    varintLoop fuel rest (out ++ [x])

end Varint

def varint (word : List ℕ) (lut : List (ℕ × ℕ)) (radix : ℕ) (base : Double) :
    Option (List (BitVec 32)) :=
  varintLoop lut radix base word.length word []

/-! ## The numbers read -/

section Numbers

variable {alphabet : List ℕ} {radix base : ℕ}

/-- A unit stands for its digit. -/
def StandsUnit (alphabet : List ℕ) (radix u : ℕ) (d : Digit) : Prop :=
  d = unitDigit alphabet radix u

theorem get_lut (u : ℕ) :
    digit radix ((Lib.get (lut alphabet) u).getD 0) = unitDigit alphabet radix u := by
  rw [lut, Lib.get_foldl_put, unitDigit]

theorem number_eq (hradix : 0 < radix) (hbase : 0 < base) (hbase' : base ≤ 2 ^ 53) :
    ∀ {us : List ℕ} {mf wf : Double} {m w : ℕ}, Holds base m w mf wf →
      Fits base m w (digits alphabet radix us) →
      ∃ x us', number (lut alphabet) radix (.ofNat base) us mf wf = some (.ofNat 32 x, us') ∧
        Finished (StandsUnit alphabet radix) base m w us (digits alphabet radix us) x us'
          (digits alphabet radix us') := by
  intro us
  induction us with
  | nil =>
      intro mf wf m w hholds _
      have hle : m + w * 0 ≤ 2 ^ 53 := hholds.sum_le
      refine ⟨m, [], ?_, .nil⟩
      rw [number, if_pos hradix, hholds.add hbase' hle, Blob.toInt32_ofNat hle]
      rfl
  | cons u us ih =>
      intro mf wf m w hholds hfits
      have hdigit := @get_lut alphabet radix u
      have hstands : List.Forall₂ (StandsUnit alphabet radix) us (digits alphabet radix us) := by
        rw [digits, List.forall₂_map_right_iff, List.forall₂_same]
        exact fun _ _ => rfl
      have hle := hfits.head_le
      have hcons : digits alphabet radix (u :: us) =
        unitDigit alphabet radix u :: digits alphabet radix us := rfl
      rw [number]
      rw [hcons, ← hdigit] at hfits ⊢
      rw [← hdigit] at hle
      generalize (Lib.get (lut alphabet) u).getD 0 = l at hfits hle ⊢
      rw [digit] at hfits hle ⊢
      split
      · next hlt =>
          rw [if_pos hlt] at hfits hle
          refine ⟨_, _, ?_, .last hstands hfits rfl⟩
          rw [hholds.add hbase' hle, Blob.toInt32_ofNat hle]
      · next hlt =>
          rw [if_neg hlt] at hfits hle
          have hpos : 0 < l % radix + radix := Nat.add_pos_right _ hradix
          obtain ⟨x, us', hnumber, hfinished⟩ :=
            ih (hholds.more hbase hbase' hle hpos) (hfits.next rfl)
          exact ⟨x, us', hnumber, hfinished.cons rfl⟩

theorem varintLoop_eq (hradix : 0 < radix) (hbase : 0 < base) (hbase' : base ≤ 2 ^ 53) :
    ∀ {fuel : ℕ} {us : List ℕ} {out : List (BitVec 32)}, us.length ≤ fuel →
      Fits base 0 1 (digits alphabet radix us) →
      varintLoop (lut alphabet) radix (.ofNat base) fuel us out =
        some (out ++ (completed base 0 1 false (digits alphabet radix us)).map (.ofNat 32)) := by
  intro fuel
  induction fuel with
  | zero =>
      intro us out hfuel _
      obtain rfl := List.eq_nil_of_length_eq_zero (Nat.le_zero.1 hfuel)
      exact congrArg some (List.append_nil out).symm
  | succ fuel ih =>
      intro us out hfuel hfits
      cases us with
      | nil => exact congrArg some (List.append_nil out).symm
      | cons u us =>
          obtain ⟨x, us', hnumber, hfinished⟩ :=
            number_eq hradix hbase hbase' (Holds.start hbase) hfits
          have hlen : us'.length ≤ fuel :=
            hfinished.length_le.trans (Nat.le_of_succ_le_succ hfuel)
          have hcompleted : completed base 0 1 false (digits alphabet radix (u :: us)) =
              x :: completed base 0 1 false (digits alphabet radix us') :=
            hfinished.completed_eq
          rw [varintLoop, hnumber, hcompleted]
          exact (ih hlen hfinished.fits).trans (by rw [List.append_assoc]; rfl)

/-- **`varint` comes back**, with the numbers of the word completed. -/
theorem varint_eq (hradix : 0 < radix) (hbase : 0 < base) (hbase' : base ≤ 2 ^ 53)
    {word : List ℕ} (hfits : Fits base 0 1 (digits alphabet radix word)) :
    varint word (lut alphabet) radix (.ofNat base) =
      some ((completed base 0 1 false (digits alphabet radix word)).map (.ofNat 32)) :=
  varintLoop_eq hradix hbase hbase' (Nat.le_refl _) hfits

end Numbers

end Trap
end Lunar
