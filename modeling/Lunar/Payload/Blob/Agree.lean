/-
# The three decoders agree

`decode_blob` of the worktime, `decode` of the payload's blob and `varint` of the payload's
handlers read the same digits and, while the sums are exact, the same numbers.  They part
where the source checks: `decode_blob` refuses a blob that ends inside a number or holds
fewer than `MIN_INTS`, which the other two complete or accept, and `decode` refuses an
alphabet of `DIGIT` units or more.
-/

import Lunar.Payload.Handlers
import Lunar.Worktime.Decoder

namespace Lunar
namespace Blob

open Lib (Double Digit Table lastOf)
open Lib.Text (encodeUtf16)
open Lib.Varint (numbers completed isOpen sums digit unitDigit Fits Stands)

section Table

variable {alpha : List ℕ} {radix : ℕ}

theorem packed_stands {p : ℕ} (hradix : 0 < radix) (h : p < 2 ^ 15) :
    Stands 15 (packed p radix) (digit radix p) := by
  have hstands := Lib.Varint.stands_digit hradix h
  have hvalue := Lib.Varint.digit_value_le (p := p) hradix
  rw [packed]
  rw [digit] at hvalue
  split
  · next hlt =>
      rw [if_pos hlt] at hstands
      rw [Nat.mod_eq_of_lt (by omega)]
      exact hstands
  · next hlt =>
      rw [if_neg hlt] at hstands hvalue
      have hmod : (p % radix + radix) % 2 ^ 16 = p % radix + radix :=
        Nat.mod_eq_of_lt (Nat.lt_of_le_of_lt hvalue (by omega))
      rw [hmod]
      exact hstands

theorem packed_zero (hradix : 0 < radix) : packed 0 radix = 0 := if_pos hradix

/-- The code looked up for a unit stands for its digit. -/
theorem lookup_stands (hradix : 0 < radix) (hlen : alpha.length < 2 ^ 15) (u : ℕ) :
    Stands 15 (Table.lookup ASCII 0 (table alpha radix) u) (unitDigit alpha radix u) := by
  have hentry (p : ℕ) (hp : p ≤ alpha.length) :=
    packed_stands hradix (Nat.lt_of_le_of_lt hp hlen)
  have h := @Lib.Varint.stands_lookup _ _ _ ASCII _ hentry u
  rw [packed_zero hradix] at h
  rw [table, packed_zero hradix]
  exact h

/-- The array of the table serves the units below its limit. -/
theorem table_ascii (dflt : ℕ) {u : ℕ} (h : u < 0x80) :
    (table alpha radix).ascii u = Table.lookup ASCII dflt (table alpha radix) u := by
  have hlt : u < ASCII := Nat.lt_trans h (by decide)
  exact (if_pos hlt).symm

/-- **The bytes of an ASCII text, looked up in the array, give the codes of its units**, as
the general path gives them. -/
theorem ascii_codes (dflt : ℕ) {text : String} (h : isAscii text = true) :
    (asBytes text).map (table alpha radix).ascii =
      (encodeUtf16 text).map (Table.lookup ASCII dflt (table alpha radix)) := by
  have hbytes (b : ℕ) (hb : b ∈ asBytes text) : b < 0x80 :=
    of_decide_eq_true (List.all_eq_true.1 h b hb)
  rw [← codes_eq (fun u hu => table_ascii dflt hu) text, codes_ascii (Nat.le_refl _) hbytes]

end Table

section Raw

variable {blob alphabet : String} {radix : ℕ}

/-- The check of the radix. -/
theorem guard_eq (n : ℕ) (hradix : radix ≤ 2 ^ 53) (hn : n ≤ 2 ^ 53) :
    (!(Double.ofNat radix).fract.eq .zero || (Double.ofNat radix).le .zero ||
        (Double.ofNat radix).ge (.ofNat n)) = decide (radix = 0 ∨ n ≤ radix) := by
  have hfract : (Double.ofNat radix).fract.eq .zero = true := by
    rw [Double.fract_ofNat hradix]
    rfl
  rw [hfract, ← Double.ofNat_zero, Double.le_ofNat hradix (Nat.zero_le _),
    Double.ge_ofNat hradix hn]
  simp

/-- **What `decode` hands on** while the sums are exact. -/
theorem raw_eq {base : ℕ} {alpha : List ℕ} {ds : List Digit}
    (halpha : alpha = encodeUtf16 alphabet) (hradix : 0 < radix) (hlt : radix < alpha.length)
    (hlen : alpha.length < DIGIT) (hbase : base = alpha.length - radix)
    (hds : ds = Lib.Varint.digits alpha radix (encodeUtf16 blob)) (hfits : Fits base 0 1 ds) :
    raw blob alphabet (.ofNat radix) = .ok (some ((completed base 0 1 false ds).map asI32)) := by
  have hdigit : alpha.length < 2 ^ 15 - 1 := hlen
  have hguard := @guard_eq radix alpha.length (by omega) (by omega)
  have hno : ¬ (radix = 0 ∨ alpha.length ≤ radix) := by omega
  have hstands := Lib.Varint.stands_map (@lookup_stands alpha _ hradix (by omega))
    (encodeUtf16 blob)
  rw [← hds] at hstands
  have hparse := @parse_eq base (by omega) (by omega) _ _ hstands hfits
  rw [raw, ← halpha]
  dsimp only
  rw [hguard, decide_eq_false hno, Bool.false_or, decide_eq_false (Nat.not_le.2 hlen),
    if_neg Bool.false_ne_true, Double.toU_ofNat (by omega) (by omega), packed_zero hradix, ← hbase]
  split
  · next hascii => rw [ascii_codes 0 hascii, hparse]
  · rw [codes_eq (fun u hu => table_ascii 0 hu), hparse]

theorem raw_radix {alpha : List ℕ} (halpha : alpha = encodeUtf16 alphabet)
    (hradix : radix < 2 ^ 32) (hlen : alpha.length < 2 ^ 31)
    (h : radix = 0 ∨ alpha.length ≤ radix ∨ DIGIT ≤ alpha.length) :
    raw blob alphabet (.ofNat radix) = .error (.radix (.ofNat radix) alpha.length) := by
  have hguard := @guard_eq radix alpha.length (by omega) (by omega)
  rw [raw, ← halpha]
  dsimp only
  rw [hguard, if_pos]
  simpa [or_assoc] using h

end Raw

/-- In every table the last place of a unit in the alphabet wins, and a unit outside it is
given the entry of place zero. -/
def LastWins (alpha : List ℕ) (radix : ℕ) (blob : String) : Prop :=
  ∀ u, Table.lookup Worktime.Decoder.ASCII_LEN 0 (Worktime.Decoder.table ⟨alpha, radix, blob⟩) u =
      Worktime.Decoder.entryOf radix ((lastOf alpha.zipIdx u).getD 0) ∧
    Table.lookup ASCII (packed 0 radix) (table alpha radix) u =
      packed ((lastOf alpha.zipIdx u).getD 0) radix ∧
    (Lib.get (Trap.lut alpha) u).getD 0 = (lastOf alpha.zipIdx u).getD 0

theorem lastWins (alpha : List ℕ) {radix : ℕ} (hradix : 0 < radix) (blob : String) :
    LastWins alpha radix blob := by
  intro u
  have hzero : Worktime.Decoder.entryOf radix 0 = 0 := if_pos hradix
  refine ⟨?_, ?_, ?_⟩
  · rw [Worktime.Decoder.table, Table.lookup_build, Lib.lastOf_map]
    cases lastOf alpha.zipIdx u with
    | none => exact hzero.symm
    | some p => rfl
  · rw [table, Table.lookup_build, Lib.lastOf_map (f := fun p => packed p radix)]
    cases lastOf alpha.zipIdx u with
    | none => rfl
    | some p => rfl
  · rw [Trap.lut, Lib.get_foldl_put]

/-- **The decoders agree** on every blob whose sums are exact: the numbers are `ints`, and
each decoder returns them or refuses the blob by a check of its own.  A radix that leaves
no digit is refused.  In each table the last place of a character wins, and the codes
that the array gives the bytes of an ASCII blob are those of the general path. -/
theorem decoders_agree (blob alphabet : String) (radix : ℕ) (alpha units : List ℕ) (base : ℕ)
    (ds : List Digit) (halpha : alpha = encodeUtf16 alphabet) (hunits : units = encodeUtf16 blob)
    (hbase : base = alpha.length - radix) (hds : ds = Lib.Varint.digits alpha radix units)
    (hradix : radix < 2 ^ 32) (hlen : alpha.length < 2 ^ 31)
    (hsums : ∀ x ∈ sums base 0 1 ds, x ≤ 2 ^ 53) :
    if radix = 0 ∨ alpha.length ≤ radix then
      Worktime.Decoder.decodeBlob ⟨alpha, radix, blob⟩ = .error (.radix radix alpha.length) ∧
        raw blob alphabet (.ofNat radix) = .error (.radix (.ofNat radix) alpha.length)
    else
      (∃ ints : List (BitVec 32),
        Trap.varint units (Trap.lut alpha) radix (.ofNat base) = some ints ∧
          Worktime.Decoder.decodeBlob ⟨alpha, radix, blob⟩ =
            (if isOpen false ds then .error (.truncated units.length (ints.length - 1))
            else if ints.length < Worktime.Decoder.MIN_INTS then .error (.tooShort ints.length)
            else .ok ints) ∧
          raw blob alphabet (.ofNat radix) =
            if DIGIT ≤ alpha.length then .error (.radix (.ofNat radix) alpha.length)
            else .ok (some ints)) ∧
        LastWins alpha radix blob ∧
        (isAscii blob = true → (asBytes blob).map (table alpha radix).ascii =
          codes (table alpha radix).ascii (Table.lookup ASCII (packed 0 radix) (table alpha radix))
            (asBytes blob).length (asBytes blob)) := by
  split
  · next hno =>
      refine ⟨if_pos hno, raw_radix halpha hradix hlen ?_⟩
      exact hno.imp_right .inl
  · next hno =>
      have hpos : 0 < radix := by omega
      have hlt : radix < alpha.length := by omega
      have hfits : Fits base 0 1 ds := ⟨hds ▸ Lib.Varint.digits_positive _ hpos _, hsums⟩
      have hvarint := @Trap.varint_eq _ _ base hpos (by omega) (by omega) _ (hds ▸ hfits)
      have hblob := @Worktime.Decoder.decodeBlob_eq ⟨alpha, radix, blob⟩ _ _ hpos hlt hlen
        hbase (hunits ▸ hds) hsums
      refine ⟨⟨_, hvarint, ?_, ?_⟩, lastWins alpha hpos blob, fun hascii => ?_⟩
      · rw [hblob, ← hds, ← hunits, List.length_map]
        split
        · next hopen => rw [Lib.Varint.length_completed_of_open hopen, Nat.add_sub_cancel]
        · next hopen => rw [Lib.Varint.completed_of_closed (eq_false_of_ne_true hopen)]
      · split
        · next hdigit => exact raw_radix halpha hradix hlen (.inr (.inr hdigit))
        · next hdigit =>
            rw [← hds]
            exact raw_eq halpha hpos hlt (Nat.not_le.1 hdigit) hbase (hunits ▸ hds) hfits
      · rw [ascii_codes (packed 0 radix) hascii, codes_eq fun u hu => table_ascii _ hu]

theorem decoders_agree_small :
    ∃ ints : List (BitVec 32),
      Trap.varint [97, 98, 99, 97] (Trap.lut [97, 98, 99, 100]) 2 (.ofNat 2) = some ints ∧
        raw "abca" "abcd" (.ofNat 2) = .ok (some ints) := by
  have hsums : ∀ x ∈ sums 2 0 1 (Lib.Varint.digits [97, 98, 99, 100] 2 [97, 98, 99, 97]),
      x ≤ 2 ^ 53 := by
    decide
  have h := decoders_agree "abca" "abcd" 2 [97, 98, 99, 100] [97, 98, 99, 97] 2 _ (by decide)
    (by decide) rfl rfl (by decide) (by decide) hsums
  rw [if_neg (by decide)] at h
  obtain ⟨⟨ints, hvarint, -, hraw⟩, -⟩ := h
  rw [if_neg (by decide)] at hraw
  exact ⟨ints, hvarint, hraw⟩

/-- A blob that ends inside a number is completed by two of the decoders and refused by the
third. -/
theorem decodeBlob_truncated :
    Worktime.Decoder.decodeBlob ⟨[97, 98, 99, 100], 2, "abac"⟩ = .error (.truncated 4 3) ∧
      raw "abac" "abcd" (.ofNat 2) = .ok (some [0, 1, 0, 2]) ∧
      Trap.varint [97, 98, 97, 99] (Trap.lut [97, 98, 99, 100]) 2 (.ofNat 2) =
        some [0, 1, 0, 2] := by
  decide +kernel

end Blob
end Lunar
