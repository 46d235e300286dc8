/-
# What `parse` and `codes` of the payload blob do

`parse_eq`: while the sums are exact `parse` comes back with the numbers of the stream of
digits, one left open completed by a zero.  The weights in `pow` are the powers of the
base (`fillPow_getD`), all but the last below `EXACT`, and `finish` reads the rest of one
number (`finish_eq`).

`codes_eq`: the codes that come from the bytes of a text are those of its units.
-/

import Lunar.Payload.Blob

namespace Lunar
namespace Blob

open Lib (Double Digit)
open Lib.Varint (completed Finished Fits Holds Stands)

theorem toInt32_ofNat {n : ℕ} (h : n ≤ 2 ^ 53) : Fold.toInt32 (.ofNat n) = .ofNat 32 n := by
  have hlt : n < 2 ^ 63 := by omega
  have hcast : ((2 ^ 63 : ℕ) : ℤ) = 2 ^ 63 := Int.natCast_pow 2 63
  have hfin : (Double.ofNat n).isFinite = true := by
    rw [Double.ofNat_exact h]
    rfl
  rw [Fold.toInt32, hfin, ← hcast, Double.lt_ofNat h hlt, Bool.and_self, if_pos rfl,
    Double.toI_ofNat h]
  exact BitVec.ofInt_natCast 32 n

/-! ## The powers -/

section Pow

variable {base : ℕ}

theorem saturatingMul_eq (hbase : base < 2 ^ 15) {w : ℕ} (hw : w < EXACT) :
    saturatingMul w base = w * base := by
  have hle : w * base ≤ 2 ^ 40 * 2 ^ 15 := Nat.mul_le_mul hw.le hbase.le
  rw [saturatingMul]
  exact Nat.min_eq_left (hle.trans (by omega))

/-- The weights filled are powers, and all but the last are below `EXACT`. -/
theorem fillPow_getD (hbase : base < 2 ^ 15) {slots w k : ℕ}
    (hk : k < (fillPow base slots w).length) :
    (fillPow base slots w).getD k 0 = w * base ^ k ∧
      (k + 1 < (fillPow base slots w).length → w * base ^ k < EXACT) := by
  induction slots generalizing w k with
  | zero => exact absurd hk (Nat.not_lt_zero k)
  | succ slots ih =>
      rw [fillPow] at hk ⊢
      split at hk
      · next hw =>
          have hzero : k = 0 := Nat.lt_one_iff.1 hk
          rw [if_pos hw, hzero, Nat.pow_zero, Nat.mul_one]
          exact ⟨rfl, fun h => absurd h (Nat.lt_irrefl 1)⟩
      · next hw =>
          rw [if_neg hw]
          rw [saturatingMul_eq hbase (Nat.not_le.1 hw)] at hk ⊢
          cases k with
          | zero =>
              rw [Nat.pow_zero, Nat.mul_one]
              exact ⟨rfl, fun _ => Nat.not_le.1 hw⟩
          | succ k =>
              obtain ⟨hget, hlt⟩ := ih (Nat.lt_of_succ_lt_succ hk)
              rw [Nat.mul_assoc, ← Nat.pow_succ'] at hget hlt
              exact ⟨hget, fun h => hlt (Nat.lt_of_succ_lt_succ h)⟩

theorem one_lt_length_fillPow : 1 < (fillPow base POW_CAP 1).length := by
  have hone : ¬ EXACT ≤ 1 := by decide
  rw [POW_CAP, fillPow, if_neg hone, fillPow]
  split
  · exact Nat.lt_succ_self 1
  · exact Nat.succ_lt_succ (Nat.succ_pos _)

/-- The weight at a place of `pow` leaves room for one digit more. -/
theorem weight_le (hbase : base < 2 ^ 15) (hpos : 0 < base) {k : ℕ}
    (hk : k < (fillPow base POW_CAP 1).length) : base ^ k ≤ 2 ^ 53 * base := by
  cases k with
  | zero =>
      rw [Nat.pow_zero]
      exact Nat.mul_pos (Nat.two_pow_pos 53) hpos
  | succ k =>
      have hlt := (fillPow_getD hbase (Nat.lt_of_succ_lt hk)).2 hk
      rw [Nat.one_mul, EXACT] at hlt
      rw [Nat.pow_succ]
      exact Nat.mul_le_mul_right base (by omega)

end Pow

/-! ## One long number -/

section Finish

variable {base : ℕ}

theorem finishFloat_eq (hbase : 0 < base) (hbase' : base ≤ 2 ^ 53) :
    ∀ {ds : List Digit} {cs : List ℕ} {mf wf : Double} {m w : ℕ},
      List.Forall₂ (Stands 15) cs ds → Holds base m w mf wf → Fits base m w ds →
      ∃ x cs' ds', finishFloat base 0 cs mf wf = some (asI32 x, cs') ∧
        Finished (Stands 15) base m w cs ds x cs' ds' := by
  intro ds
  induction ds with
  | nil =>
      intro cs mf wf m w hstands hholds _
      cases hstands
      have hle : m + w * 0 ≤ 2 ^ 53 := hholds.sum_le
      refine ⟨m, [], [], ?_, .nil⟩
      rw [finishFloat, Nat.zero_and, if_pos rfl, hholds.add hbase' hle, toInt32_ofNat hle]
      rfl
  | cons d ds ih =>
      intro cs mf wf m w hstands hholds hfits
      obtain ⟨c, cs, hcode, hrest, rfl⟩ := List.forall₂_cons_right_iff.1 hstands
      have hle := hfits.head_le
      rw [finishFloat, CONT]
      rcases hmore : d.more with _ | _
      · refine ⟨_, _, _, ?_, .last hrest hfits hmore⟩
        rw [if_pos (hcode.ends.2 hmore), hcode.value_of_ends hmore, hholds.add hbase' hle,
          toInt32_ofNat hle, asI32]
      · have hnext := hholds.more hbase hbase' hle (hfits.head_pos hmore)
        obtain ⟨x, cs', ds', hfinish, hfinished⟩ := ih hrest hnext (hfits.next hmore)
        refine ⟨x, cs', ds', ?_, hfinished.cons hmore⟩
        rw [if_neg (hcode.continues hmore), DIGIT, CONT, hcode.value]
        exact hfinish

/-- **`finish` reads one number**, whichever of the two sums it ends in. -/
theorem finish_eq (hbase : 0 < base) (hbase' : base ≤ 2 ^ 53) :
    ∀ {ds : List Digit} {cs : List ℕ} {m w : ℕ}, List.Forall₂ (Stands 15) cs ds →
      m ≤ 2 ^ 53 → 0 < w → w ≤ 2 ^ 53 * base → Fits base m w ds →
      ∃ x cs' ds', finish base 0 cs m w = some (asI32 x, cs') ∧
        Finished (Stands 15) base m w cs ds x cs' ds' := by
  intro ds
  induction ds with
  | nil =>
      intro cs m w hstands hm hw hwle hfits
      cases hstands
      rw [finish]
      split
      · exact ⟨m, [], [], rfl, .nil⟩
      · exact finishFloat_eq hbase hbase' .nil ⟨rfl, hm, rfl, hw, hwle⟩ hfits
  | cons d ds ih =>
      intro cs m w hstands hm hw hwle hfits
      obtain ⟨c, cs, hcode, hrest, rfl⟩ := List.forall₂_cons_right_iff.1 hstands
      rw [finish]
      by_cases hexact : w < EXACT
      · rw [if_pos hexact, CONT]
        rcases hmore : d.more with _ | _
        · refine ⟨_, _, _, ?_, .last hrest hfits hmore⟩
          rw [if_pos (hcode.ends.2 hmore), hcode.value_of_ends hmore]
        · have hwle' : w * base ≤ 2 ^ 53 * base := by
            refine Nat.mul_le_mul_right base ?_
            rw [EXACT] at hexact
            omega
          obtain ⟨x, cs', ds', hfinish, hfinished⟩ :=
            ih hrest hfits.head_le (Nat.mul_pos hw hbase) hwle' (hfits.next hmore)
          refine ⟨x, cs', ds', ?_, hfinished.cons hmore⟩
          rw [if_neg (hcode.continues hmore), DIGIT, CONT, hcode.value]
          exact hfinish
      · rw [if_neg hexact]
        exact finishFloat_eq hbase hbase' hstands ⟨rfl, hm, rfl, hw, hwle⟩ hfits

end Finish

/-! ## All numbers -/

section Parse

variable {base : ℕ}

/-- **The loop of `parse`**, at the digit `k` of a number whose first digits give `m`. -/
theorem parseLoop_eq (hpos : 0 < base) (hbase : base < 2 ^ 15) :
    ∀ {fuel : ℕ} {cs : List ℕ} {ds : List Digit} {m k : ℕ} {out : List (BitVec 32)},
      cs.length ≤ fuel → List.Forall₂ (Stands 15) cs ds →
      k + 1 < (fillPow base POW_CAP 1).length → Fits base m (base ^ k) ds →
      parseLoop base 0 (fillPow base POW_CAP 1) fuel cs m k out =
        some (out ++ (completed base m (base ^ k) (k ≠ 0) ds).map asI32) := by
  have hbase' : base ≤ 2 ^ 53 := by omega
  have hstart := @one_lt_length_fillPow base
  intro fuel
  induction fuel with
  | zero =>
      intro cs ds m k out hfuel hstands hk hfits
      obtain rfl := List.eq_nil_of_length_eq_zero (Nat.le_zero.1 hfuel)
      cases hstands
      rw [parseLoop, Nat.mul_zero, completed]
      by_cases hzero : k = 0
      · simp [hzero]
      · simp [hzero]
  | succ fuel ih =>
      intro cs ds m k out hfuel hstands hk hfits
      cases hstands with
      | nil =>
          rw [parseLoop, Nat.mul_zero, completed]
          by_cases hzero : k = 0
          · simp [hzero]
          · simp [hzero]
      | @cons c d cs ds hcode hrest =>
          have hfuel' : cs.length ≤ fuel := Nat.le_of_succ_le_succ hfuel
          have hget := (fillPow_getD hbase (Nat.lt_of_succ_lt hk)).1
          rw [Nat.one_mul] at hget
          rw [parseLoop, hget, DIGIT, CONT, hcode.value, completed]
          rcases hmore : d.more with _ | _
          · have hturn : ¬ (fillPow base POW_CAP 1).length - 1 ≤ 0 := by omega
            have hnext := @ih _ _ _ 0 (out ++ [asI32 (m + base ^ k * d.value)]) hfuel' hrest hstart
              (hfits.ends hmore)
            simp only [hcode.ends.2 hmore, ne_eq, not_true_eq_false, if_false, if_neg hturn]
            rw [hnext, List.append_assoc]
            rfl
          · have hfits' := hfits.next hmore
            rw [← Nat.pow_succ] at hfits'
            simp only [hcode.continues hmore, ne_eq, not_false_eq_true, if_true]
            rw [← Nat.pow_succ]
            by_cases hturn : (fillPow base POW_CAP 1).length - 1 ≤ k + 1
            · have hget' := (fillPow_getD hbase hk).1
              rw [Nat.one_mul] at hget'
              obtain ⟨x, cs', ds', hfinish, hfinished⟩ := finish_eq hpos hbase' hrest
                hfits.head_le (Nat.pow_pos hpos) (weight_le hbase hpos hk) hfits'
              have hlen : cs'.length ≤ fuel := (hfinished.length_le.trans (Nat.sub_le _ _)).trans hfuel'
              have hnext := @ih _ _ _ 0 (out ++ [asI32 x]) hlen hfinished.stands hstart hfinished.fits
              rw [if_pos hturn, hget', hfinish, hfinished.completed_eq]
              exact hnext.trans (by rw [List.append_assoc]; rfl)
            · rw [if_neg hturn]
              have hnext := @ih _ _ _ _ out hfuel' hrest (by omega : k + 1 + 1 < _) hfits'
              rw [hnext]
              rfl

/-- **`parse` comes back**, with the numbers of the stream completed. -/
theorem parse_eq (hpos : 0 < base) (hbase : base < 2 ^ 15) {cs : List ℕ} {ds : List Digit}
    (hstands : List.Forall₂ (Stands 15) cs ds) (hfits : Fits base 0 1 ds) :
    parse cs base 0 = some ((completed base 0 1 false ds).map asI32) :=
  parseLoop_eq (k := 0) hpos hbase (Nat.le_refl _) hstands one_lt_length_fillPow hfits

end Parse

/-! ## From bytes to units -/

section Codes

/-- The bytes of a character. -/
theorem charBytes (c : Char) :
    (String.utf8EncodeChar c).map UInt8.toNat =
      if c.toNat < 0x80 then [c.toNat]
      else if c.toNat < 0x800 then [0xc0 + c.toNat / 64, 0x80 + c.toNat % 64]
      else if c.toNat < 0x10000 then
        [0xe0 + c.toNat / 4096, 0x80 + c.toNat / 64 % 64, 0x80 + c.toNat % 64]
      else
        [0xf0 + c.toNat / 262144, 0x80 + c.toNat / 4096 % 64, 0x80 + c.toNat / 64 % 64,
          0x80 + c.toNat % 64] := by
  have hmax : c.toNat < 0x110000 := by
    have hvalid := c.valid
    rw [UInt32.isValidChar, Nat.isValidChar] at hvalid
    show c.val.toNat < 0x110000
    omega
  have hval : c.val.toNat = c.toNat := rfl
  rw [String.utf8EncodeChar, hval]
  split_ifs
  all_goals
    simp only [List.map_cons, List.map_nil, UInt8.toNat_ofNat', List.cons.injEq, and_true]
    omega

theorem and_63 (n : ℕ) : n &&& 0x3f = n % 2 ^ 6 := Nat.and_two_pow_sub_one_eq_mod n 6

theorem shift_or (a : ℕ) {b bits : ℕ} (h : b < 2 ^ bits) : a <<< bits ||| b = 2 ^ bits * a + b := by
  rw [Nat.shiftLeft_eq, Nat.mul_comm, Nat.two_pow_add_eq_or_of_lt h]

variable {ascii wideCode : ℕ → ℕ}

/-- The code points that `codes` puts together from two, three and four bytes. -/
theorem codePoint_two {n : ℕ} (h : n < 0x800) :
    ((0xc0 + n / 64 &&& 0x1f) <<< 6 ||| (0x80 + n % 64 &&& 0x3f)) = n := by
  have h5 : 0xc0 + n / 64 &&& 0x1f = (0xc0 + n / 64) % 2 ^ 5 := Nat.and_two_pow_sub_one_eq_mod _ 5
  rw [and_63, h5, shift_or _ (Nat.mod_lt _ (by decide))]
  omega

theorem codePoint_three {n : ℕ} (h : n < 0x10000) :
    (((0xe0 + n / 4096 &&& 0x0f) <<< 12 ||| (0x80 + n / 64 % 64 &&& 0x3f) <<< 6) |||
      (0x80 + n % 64 &&& 0x3f)) = n := by
  have h4 : 0xe0 + n / 4096 &&& 0x0f = (0xe0 + n / 4096) % 2 ^ 4 :=
    Nat.and_two_pow_sub_one_eq_mod _ 4
  rw [and_63, and_63, h4, Nat.or_assoc, shift_or _ (Nat.mod_lt _ (by decide)), shift_or]
  · omega
  · omega

theorem codePoint_four {n : ℕ} (h : n < 0x200000) :
    ((((0xf0 + n / 262144 &&& 0x07) <<< 18 ||| (0x80 + n / 4096 % 64 &&& 0x3f) <<< 12) |||
      (0x80 + n / 64 % 64 &&& 0x3f) <<< 6) ||| (0x80 + n % 64 &&& 0x3f)) = n := by
  have h3 : 0xf0 + n / 262144 &&& 0x07 = (0xf0 + n / 262144) % 2 ^ 3 :=
    Nat.and_two_pow_sub_one_eq_mod _ 3
  rw [and_63, and_63, and_63, h3, Nat.or_assoc, Nat.or_assoc, shift_or _ (Nat.mod_lt _ (by decide)),
    shift_or ((0x80 + n / 4096 % 64) % 2 ^ 6), shift_or]
  · omega
  · omega
  · omega

/-- The codes of a character and of what follows it. -/
theorem codes_char (hascii : ∀ u < 0x80, ascii u = wideCode u) (c : Char) (fuel : ℕ)
    (rest : List ℕ) :
    codes ascii wideCode (fuel + 1) ((String.utf8EncodeChar c).map UInt8.toNat ++ rest) =
      (Lib.Text.units c).map wideCode ++ codes ascii wideCode fuel rest := by
  have hmax : c.toNat < 0x110000 := by
    have hvalid := c.valid
    rw [UInt32.isValidChar, Nat.isValidChar] at hvalid
    show c.val.toNat < 0x110000
    omega
  rw [charBytes, Lib.Text.units]
  generalize c.toNat = n at hmax ⊢
  by_cases h1 : n < 0x80
  · have h2 : n < 0x10000 := by omega
    rw [if_pos h1, if_pos h2, List.singleton_append, codes, if_pos h1, hascii n h1]
    rfl
  rw [if_neg h1]
  by_cases h2 : n < 0x800
  · have h3 : n < 0x10000 := by omega
    have hb0 : ¬ 0xc0 + n / 64 < 0x80 := by omega
    have hb1 : 0xc0 + n / 64 < 0xe0 := by omega
    rw [if_pos h2, if_pos h3, List.cons_append, List.singleton_append, codes, if_neg hb0]
    simp only [if_pos hb1, List.getD_cons_succ, List.getD_cons_zero, codePoint_two h2, if_pos h3]
    rfl
  rw [if_neg h2]
  by_cases h3 : n < 0x10000
  · have hb0 : ¬ 0xe0 + n / 4096 < 0x80 := by omega
    have hb1 : ¬ 0xe0 + n / 4096 < 0xe0 := by omega
    have hb2 : 0xe0 + n / 4096 < 0xf0 := by omega
    rw [if_pos h3, if_pos h3, List.cons_append, List.cons_append, List.singleton_append, codes,
      if_neg hb0]
    simp only [if_neg hb1, if_pos hb2, List.getD_cons_succ, List.getD_cons_zero,
      codePoint_three h3, if_pos h3]
    rfl
  · have hb0 : ¬ 0xf0 + n / 262144 < 0x80 := by omega
    have hb1 : ¬ 0xf0 + n / 262144 < 0xe0 := by omega
    have hb2 : ¬ 0xf0 + n / 262144 < 0xf0 := by omega
    have hn : n < 0x200000 := by omega
    rw [if_neg h3, if_neg h3, List.cons_append, List.cons_append, List.cons_append,
      List.singleton_append, codes, if_neg hb0]
    simp only [if_neg hb1, if_neg hb2, List.getD_cons_succ, List.getD_cons_zero,
      codePoint_four hn, if_neg h3]
    have hhigh : 0xd800 ||| ((n - 0x10000) >>> 10) % 2 ^ 16 = 0xD800 + (n - 0x10000) / 0x400 := by
      have hlt : ((n - 0x10000) >>> 10) % 2 ^ 16 < 2 ^ 10 := by
        rw [Nat.shiftRight_eq_div_pow]
        omega
      have hor := Nat.two_pow_add_eq_or_of_lt hlt 54
      rw [← hor, Nat.shiftRight_eq_div_pow]
      omega
    have hlow : 0xdc00 ||| (n - 0x10000 &&& 0x3ff) % 2 ^ 16 = 0xDC00 + (n - 0x10000) % 0x400 := by
      have hand : n - 0x10000 &&& 0x3ff = (n - 0x10000) % 2 ^ 10 :=
        Nat.and_two_pow_sub_one_eq_mod _ 10
      have hlt : (n - 0x10000) % 2 ^ 10 % 2 ^ 16 < 2 ^ 10 := by omega
      have hor := Nat.two_pow_add_eq_or_of_lt hlt 55
      rw [hand, ← hor]
      omega
    rw [hhigh, hlow]
    rfl

theorem codes_flatMap (hascii : ∀ u < 0x80, ascii u = wideCode u) {cs : List Char} {fuel : ℕ}
    (h : cs.length ≤ fuel) :
    codes ascii wideCode fuel (cs.flatMap fun c => (String.utf8EncodeChar c).map UInt8.toNat) =
      (cs.flatMap Lib.Text.units).map wideCode := by
  induction cs generalizing fuel with
  | nil =>
      rw [List.flatMap_nil, List.flatMap_nil, List.map_nil]
      cases fuel with
      | zero => rfl
      | succ fuel => rfl
  | cons c cs ih =>
      obtain ⟨fuel, rfl⟩ : ∃ n, fuel = n + 1 := ⟨fuel - 1, by rw [List.length_cons] at h; omega⟩
      rw [List.flatMap_cons, List.flatMap_cons, codes_char hascii, List.map_append,
        ih (Nat.le_of_succ_le_succ h)]

/-- **The codes of a text are those of its units.** -/
theorem codes_eq (hascii : ∀ u < 0x80, ascii u = wideCode u) (text : String) :
    codes ascii wideCode (asBytes text).length (asBytes text) =
      (Lib.Text.encodeUtf16 text).map wideCode := by
  refine codes_flatMap hascii ?_
  rw [asBytes]
  induction text.toList with
  | nil => exact Nat.le_refl 0
  | cons c cs ih =>
      have hpos : 0 < ((String.utf8EncodeChar c).map UInt8.toNat).length := by
        rw [List.length_map]
        exact List.length_pos_iff.2 String.utf8EncodeChar_ne_nil
      rw [List.flatMap_cons, List.length_append, List.length_cons]
      omega

/-- On bytes below `0x80` the codes are those of the array. -/
theorem codes_ascii {bytes : List ℕ} {fuel : ℕ} (hfuel : bytes.length ≤ fuel)
    (h : ∀ b ∈ bytes, b < 0x80) : codes ascii wideCode fuel bytes = bytes.map ascii := by
  induction bytes generalizing fuel with
  | nil =>
      cases fuel with
      | zero => rfl
      | succ fuel => rfl
  | cons b bytes ih =>
      obtain ⟨fuel, rfl⟩ : ∃ n, fuel = n + 1 :=
        ⟨fuel - 1, by rw [List.length_cons] at hfuel; omega⟩
      rw [codes, if_pos (h b List.mem_cons_self), List.map_cons,
        ih (Nat.le_of_succ_le_succ hfuel) fun x hx => h x (List.mem_cons_of_mem _ hx)]

end Codes

end Blob
end Lunar
