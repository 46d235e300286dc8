/-
# The blob of the worktime script

`worktime/decoder.rs`: `decode_blob`.  The digits of the blob are the units of its
UTF-16 form, each looked up in a table made from the charset; a number is summed as a
double and kept as 32 bits.  The blob has to end a number, and to hold three.

`decodeBlob_eq` says that while the sums are exact the result is that of the numbers of
the stream of digits.
-/

import Lunar.Lib.Text
import Lunar.Lib.Varint
import Lunar.Payload.Fold

namespace Lunar
namespace Worktime
namespace Decoder

open Lib (Double Digit Table)
open Lib.Varint (numbers isOpen sums digit digits unitDigit Fits Holds Stands)
open Fold (remEuclid TWO_32)

def ASCII_LEN : ℕ := 128

def CONTINUE : ℕ := 2 ^ 31

/-- `!CONTINUE`. -/
def VALUE_MASK : ℕ := 2 ^ 31 - 1

def TWO_63 : Double := .ofInt (2 ^ 63)

def MIN_INTS : ℕ := 3

/-- What `decode_blob` reads of the model of a build. -/
structure BuildModel where
  charset : List ℕ
  radix : ℕ
  blob : String

/-- The errors of `decode_blob`. -/
inductive DecodeError
  | radix (radix charsetLen : ℕ)
  | truncated (unit decoded : ℕ)
  | tooShort (ints : ℕ)
  deriving DecidableEq, Repr

def toInt32 (x : Double) : BitVec 32 :=
  if x.abs.lt TWO_63 then .ofInt 32 (x.toI 64)
  else if !x.isFinite then 0
  else .ofNat 32 ((remEuclid x TWO_32).toU 32)

/-- The entry of the unit at an index of the charset. -/
def entryOf (radix index : ℕ) : ℕ :=
  let p := index % 2 ^ 32
  if p < radix then p else CONTINUE ||| (p % radix + radix)

/-- The tables `ascii` and `wide`. -/
def table (model : BuildModel) : Table ℕ :=
  Table.build ASCII_LEN 0 (model.charset.zipIdx.map fun e => (e.1, entryOf model.radix e.2))

/-- The variables of the loop over the units of the blob. -/
structure Reader where
  out : List (BitVec 32)
  n : Double
  w : Double
  opened : Bool

/-- One turn of the loop. -/
def Reader.step (base : Double) (s : Reader) (entry : ℕ) : Reader :=
  if entry &&& CONTINUE = 0 then
    { out := s.out ++ [toInt32 (s.n.add (s.w.mul (.ofNat entry)))],
      n := .zero, w := .one, opened := false }
  else
    { s with
      n := s.n.add (s.w.mul (.ofNat (entry &&& VALUE_MASK))), w := s.w.mul base, opened := true }

def decodeBlob (model : BuildModel) : Except DecodeError (List (BitVec 32)) :=
  let charsetLen := model.charset.length
  if model.radix = 0 ∨ charsetLen ≤ model.radix then .error (.radix model.radix charsetLen)
  else
    let base := Double.ofNat (charsetLen - model.radix)
    let units := Lib.Text.encodeUtf16 model.blob
    let entries := units.map (Table.lookup ASCII_LEN 0 (table model))
    let s := entries.foldl (Reader.step base) ⟨[], .zero, .one, false⟩
    if s.opened then .error (.truncated units.length s.out.length)
    else if s.out.length < MIN_INTS then .error (.tooShort s.out.length)
    else .ok s.out

theorem toInt32_ofNat {n : ℕ} (h : n ≤ 2 ^ 53) : toInt32 (.ofNat n) = .ofNat 32 n := by
  have hlt : n < 2 ^ 63 := by omega
  have hcast : ((2 ^ 63 : ℕ) : ℤ) = 2 ^ 63 := Int.natCast_pow 2 63
  rw [toInt32, TWO_63, ← hcast, if_pos (Double.lt_ofNat h hlt), Double.toI_ofNat h]
  exact BitVec.ofInt_natCast 32 n

/-! ## The loop -/

section Loop

variable {base : ℕ}

/-- **The loop reads the numbers of the stream**, from any number begun. -/
theorem foldl_step (hbase : 0 < base) (hbase' : base ≤ 2 ^ 53) :
    ∀ {ds : List Digit} {entries : List ℕ} {s : Reader} {m w : ℕ},
      List.Forall₂ (Stands 31) entries ds → Holds base m w s.n s.w → Fits base m w ds →
      (entries.foldl (Reader.step (.ofNat base)) s).out =
          s.out ++ (numbers base m w ds).map (.ofNat 32) ∧
        (entries.foldl (Reader.step (.ofNat base)) s).opened = isOpen s.opened ds := by
  intro ds
  induction ds with
  | nil =>
      intro entries s m w hstands _ _
      cases hstands
      exact ⟨(List.append_nil _).symm, rfl⟩
  | cons d ds ih =>
      intro entries s m w hstands hholds hfits
      obtain ⟨entry, entries, hentry, hrest, rfl⟩ := List.forall₂_cons_right_iff.1 hstands
      have hle := hfits.head_le
      rw [List.foldl_cons, numbers, isOpen, Reader.step, CONTINUE]
      rcases hmore : d.more with _ | _
      · rw [if_pos (hentry.ends.2 hmore), hentry.value_of_ends hmore, hholds.add hbase' hle,
          toInt32_ofNat hle]
        obtain ⟨hout, hopen⟩ :=
          ih (s := ⟨s.out ++ [.ofNat 32 (m + w * d.value)], .zero, .one, false⟩) hrest
            (Holds.start hbase) (hfits.ends hmore)
        refine ⟨?_, hopen⟩
        rw [hout, List.append_assoc]
        rfl
      · rw [if_neg (hentry.continues hmore), VALUE_MASK, hentry.value]
        have hnext := hholds.more hbase hbase' hle (hfits.head_pos hmore)
        exact ih (s := { s with
            n := s.n.add (s.w.mul (.ofNat d.value)), w := s.w.mul (.ofNat base), opened := true })
          hrest hnext (hfits.next hmore)

end Loop

/-! ## The entries -/

theorem entryOf_stands {radix p : ℕ} (hradix : 0 < radix) (h : p < 2 ^ 31) :
    Stands 31 (entryOf radix p) (digit radix p) := by
  have hmod : p % 2 ^ 32 = p := Nat.mod_eq_of_lt (by omega)
  rw [entryOf, hmod]
  exact Lib.Varint.stands_digit hradix h

/-- The entry looked up for a unit stands for its digit. -/
theorem lookup_stands {model : BuildModel} (hradix : 0 < model.radix)
    (hlen : model.charset.length < 2 ^ 31) (u : ℕ) :
    Stands 31 (Table.lookup ASCII_LEN 0 (table model) u)
      (unitDigit model.charset model.radix u) := by
  have hzero : entryOf model.radix 0 = 0 := if_pos hradix
  have hentry (p : ℕ) (hp : p ≤ model.charset.length) :=
    entryOf_stands hradix (Nat.lt_of_le_of_lt hp hlen)
  have h := @Lib.Varint.stands_lookup _ _ _ ASCII_LEN _ hentry u
  rw [hzero] at h
  exact h

/-- **What `decode_blob` returns** while the sums are exact: the numbers of the stream of
digits, unless the stream leaves a number open or holds fewer than three. -/
theorem decodeBlob_eq {model : BuildModel} {base : ℕ} {ds : List Digit}
    (hradix : 0 < model.radix) (hlt : model.radix < model.charset.length)
    (hlen : model.charset.length < 2 ^ 31)
    (hbase : base = model.charset.length - model.radix)
    (hds : ds = digits model.charset model.radix (Lib.Text.encodeUtf16 model.blob))
    (hsums : ∀ x ∈ sums base 0 1 ds, x ≤ 2 ^ 53) :
    decodeBlob model =
      if isOpen false ds then
        .error (.truncated (Lib.Text.encodeUtf16 model.blob).length (numbers base 0 1 ds).length)
      else if (numbers base 0 1 ds).length < MIN_INTS then
        .error (.tooShort (numbers base 0 1 ds).length)
      else .ok ((numbers base 0 1 ds).map (.ofNat 32)) := by
  have hpos : 0 < base := by omega
  have hguard : ¬ (model.radix = 0 ∨ model.charset.length ≤ model.radix) := by omega
  have hstands := Lib.Varint.stands_map (@lookup_stands model hradix hlen)
    (Lib.Text.encodeUtf16 model.blob)
  rw [← hds] at hstands
  obtain ⟨hout, hopen⟩ := foldl_step (s := ⟨[], .zero, .one, false⟩) hpos (by omega) hstands
    (Holds.start hpos) ⟨hds ▸ Lib.Varint.digits_positive _ hradix _, hsums⟩
  rw [List.nil_append] at hout
  rw [decodeBlob]
  dsimp only
  rw [if_neg hguard, ← hbase, hout, hopen, List.length_map]

end Decoder
end Worktime
end Lunar
