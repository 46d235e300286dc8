/-
# Codes of 16 bits

`payload/values.rs`: `xkq`.  Four random bits and seven bits for each number are packed into
codes of 16 bits, and random bits fill the last code.  `occupied` bits of the code under way
are in `next`.

The bits of the codes are those bits in order (`xkq_bits`), so the numbers are read back when
it is known how many there are; the codes alone do not say it, since the padding may hold a
number or two.
-/

import Lunar.Lib.Bits
import Lunar.Lib.Double.Exact

namespace Lunar
namespace Values

open Lib (Double bits fields length_bits bits_add shiftLeft_or)

def XKQ_BITS : ℕ := 16

def XKQ_LEAD : ℕ := 4

def XKQ_WIDTH : ℕ := 7

def XKQ_MAX : Double := .ofNat 127

/-- `f64::clamp`. -/
def clamp (x lo hi : Double) : Double := if x.lt lo then lo else if x.gt hi then hi else x

/-- The seven bits of a number. -/
def clamped (v : Double) : ℕ := (clamp v .zero XKQ_MAX).toU 32

/-- `<<` of `u32`. -/
def shl (x k : ℕ) : ℕ := (x <<< k) % 2 ^ 32

/-- The variables of `xkq`. -/
structure Packer where
  occupied : ℕ
  next : ℕ
  codes : List ℕ

/-- The body of the loop of `xkq`. -/
def Packer.push (s : Packer) (v : ℕ) : Packer :=
  let occupied := s.occupied + XKQ_WIDTH
  if XKQ_BITS < occupied then
    let over_ := occupied - XKQ_BITS
    let mask := shl 1 over_ - 1
    let hi := shl s.next (XKQ_WIDTH - over_)
    let lo := v >>> over_
    { occupied := over_, next := mask &&& v, codes := s.codes ++ [hi ||| lo] }
  else { s with occupied, next := shl s.next XKQ_WIDTH ||| v }

/-- `xkq`: the codes, with the random numbers that start and end them. -/
def xkq (values : List Double) (lead : Fin (2 ^ XKQ_LEAD)) (pad : ∀ free, Fin (2 ^ free)) :
    List ℕ :=
  let s := (values.map clamped).foldl Packer.push ⟨XKQ_LEAD, lead, []⟩
  let free := XKQ_BITS - s.occupied
  s.codes ++ [if 0 < free then shl s.next free ||| pad free else s.next]

/-! ## The bits of the codes -/

theorem zero_gt (m : ℕ) : Double.zero.gt (.fin false m) = false := by
  have hle : ¬ Double.signed false m < Double.signed false 0 := by
    rw [Double.signed, Double.signed]
    simp
  rw [Double.zero, Double.gt, Double.cmp_fin, beq_eq_false_iff_ne, ne_eq, Option.some.injEq,
    compare_gt_iff_gt]
  exact hle

theorem clamped_zero : clamped .zero = 0 := by
  have hzero : Double.zero.toU 32 = 0 := by
    rw [← Double.ofNat_zero, Double.toU_ofNat (by omega) (by omega)]
  have hclamp : clamp .zero .zero XKQ_MAX = .zero := by
    rw [clamp]
    split
    · rfl
    split
    · next hgt =>
        rw [XKQ_MAX, Double.ofNat_exact (by omega), zero_gt] at hgt
        cases hgt
    · rfl
  rw [clamped, hclamp, hzero]

theorem clamped_lt (v : Double) : clamped v < 2 ^ XKQ_WIDTH := by
  have hmax : XKQ_MAX = .fin false (127 * Double.ONE) := Double.ofNat_exact (by omega)
  have hzero : Double.zero.toU 32 = 0 := by
    rw [← Double.ofNat_zero, Double.toU_ofNat (by omega) (by omega)]
  rw [clamped, clamp, XKQ_WIDTH]
  split
  · rw [hzero]
    omega
  split
  · rw [XKQ_MAX, Double.toU_ofNat (by omega) (by omega)]
    omega
  · next hgt =>
      rcases v with _ | a | ⟨a, m⟩
      · simp [Double.toU, Double.cast]
      · rcases a with _ | _
        · rw [hmax] at hgt
          exact absurd rfl hgt
        · simp [Double.toU, Double.cast]
      · rw [hmax, Double.gt, Double.cmp_fin] at hgt
        simp only [beq_iff_eq, Option.some.injEq, compare_gt_iff_gt, not_lt] at hgt
        have hle : Double.signed a (m / Double.ONE) ≤ 127 := by
          rcases a with _ | _
          · simp only [Double.signed, Bool.false_eq_true, if_false, Nat.cast_le] at hgt ⊢
            rw [Nat.mul_comm] at hgt
            exact_mod_cast Nat.div_le_of_le_mul hgt
          · rw [Double.signed, if_pos rfl]
            generalize m / Double.ONE = q
            omega
        rw [Double.toU, Double.cast]
        omega

theorem shl_or {x y a k : ℕ} (hx : x < 2 ^ a) (hy : y < 2 ^ k) (h : a + k ≤ 32) :
    shl x k ||| y = x * 2 ^ k + y := by
  have hlt : x <<< k < 2 ^ 32 := by
    rw [Nat.shiftLeft_eq]
    calc x * 2 ^ k < 2 ^ a * 2 ^ k := Nat.mul_lt_mul_of_pos_right hx (Nat.two_pow_pos k)
      _ = 2 ^ (a + k) := (Nat.pow_add ..).symm
      _ ≤ 2 ^ 32 := Nat.pow_le_pow_right Nat.two_pos h
  rw [shl, Nat.mod_eq_of_lt hlt, shiftLeft_or hy]

theorem add_lt {x y a k : ℕ} (hx : x < 2 ^ a) (hy : y < 2 ^ k) : x * 2 ^ k + y < 2 ^ (a + k) := by
  have hle : (x + 1) * 2 ^ k ≤ 2 ^ a * 2 ^ k := Nat.mul_le_mul_right _ hx
  rw [Nat.pow_add]
  rw [Nat.add_mul, Nat.one_mul] at hle
  omega

/-- The codes so far and the bits under way are those of the lead and of the numbers `vs`. -/
structure Packed (lead : ℕ) (vs : List ℕ) (s : Packer) : Prop where
  pos : 0 < s.occupied
  le : s.occupied ≤ XKQ_BITS
  next : s.next < 2 ^ s.occupied
  codes : ∀ c ∈ s.codes, c < 2 ^ XKQ_BITS
  stream : s.codes.flatMap (bits XKQ_BITS) ++ bits s.occupied s.next
    = bits XKQ_LEAD lead ++ vs.flatMap (bits XKQ_WIDTH)

theorem Packed.push {lead v : ℕ} {vs : List ℕ} {s : Packer} (h : Packed lead vs s)
    (hv : v < 2 ^ XKQ_WIDTH) : Packed lead (vs ++ [v]) (s.push v) := by
  obtain ⟨hpos, hle, hnext, hcodes, hbits⟩ := h
  rw [XKQ_BITS] at hle
  have htarget : bits XKQ_LEAD lead ++ (vs ++ [v]).flatMap (bits XKQ_WIDTH)
      = s.codes.flatMap (bits XKQ_BITS) ++ (bits s.occupied s.next ++ bits XKQ_WIDTH v) := by
    rw [List.flatMap_append, List.flatMap_singleton, ← List.append_assoc, ← hbits,
      List.append_assoc]
  rw [Packer.push]
  dsimp only
  split
  · next hover =>
      obtain ⟨over_, hocc⟩ : ∃ over_, s.occupied + XKQ_WIDTH = XKQ_BITS + over_ :=
        ⟨_, (Nat.add_sub_cancel' hover.le).symm⟩
      rw [hocc, Nat.add_sub_cancel_left]
      rw [XKQ_WIDTH, XKQ_BITS] at hocc hover
      have hwidth : XKQ_WIDTH = XKQ_WIDTH - over_ + over_ := by
        rw [XKQ_WIDTH]
        omega
      have hmask : shl 1 over_ - 1 &&& v = v % 2 ^ over_ := by
        have hone : shl 1 over_ = 2 ^ over_ := by
          rw [shl, Nat.shiftLeft_eq, Nat.one_mul,
            Nat.mod_eq_of_lt (Nat.pow_lt_pow_right (by decide) (by omega))]
        rw [hone, Nat.and_comm, Nat.and_two_pow_sub_one_eq_mod]
      have hlow : v % 2 ^ over_ < 2 ^ over_ := Nat.mod_lt _ (Nat.two_pow_pos _)
      have hhigh : v / 2 ^ over_ < 2 ^ (XKQ_WIDTH - over_) := by
        rw [Nat.div_lt_iff_lt_mul (Nat.two_pow_pos _), ← Nat.pow_add, ← hwidth]
        exact hv
      have hcode : shl s.next (XKQ_WIDTH - over_) ||| v >>> over_
          = s.next * 2 ^ (XKQ_WIDTH - over_) + v / 2 ^ over_ := by
        rw [Nat.shiftRight_eq_div_pow, shl_or hnext hhigh (by rw [XKQ_WIDTH]; omega)]
      have hfull : s.occupied + (XKQ_WIDTH - over_) = XKQ_BITS := by
        rw [XKQ_WIDTH, XKQ_BITS]
        omega
      refine ⟨?_, ?_, ?_, fun c hc => ?_, ?_⟩
      · dsimp only
        omega
      · dsimp only
        rw [XKQ_BITS]
        omega
      · dsimp only
        rw [hmask]
        exact hlow
      · rcases List.mem_append.1 hc with hc | hc
        · exact hcodes c hc
        · rw [List.mem_singleton.1 hc, hcode, ← hfull]
          exact add_lt hnext hhigh
      · dsimp only
        have hsplit : bits XKQ_WIDTH v
            = bits (XKQ_WIDTH - over_) (v / 2 ^ over_) ++ bits over_ (v % 2 ^ over_) := by
          rw [← bits_add _ _ _ hlow, ← hwidth, Nat.div_add_mod']
        rw [htarget, hmask, hcode, List.flatMap_append, List.flatMap_singleton, ← hfull,
          bits_add _ _ _ hhigh, hsplit]
        simp only [List.append_assoc]
  · next hover =>
      rw [XKQ_BITS, XKQ_WIDTH] at hover
      have hcode : shl s.next XKQ_WIDTH ||| v = s.next * 2 ^ XKQ_WIDTH + v :=
        shl_or hnext hv (by rw [XKQ_WIDTH]; omega)
      refine ⟨?_, ?_, ?_, hcodes, ?_⟩
      · dsimp only
        omega
      · dsimp only
        rw [XKQ_BITS, XKQ_WIDTH]
        omega
      · dsimp only
        rw [hcode]
        exact add_lt hnext hv
      · dsimp only
        rw [htarget, hcode, bits_add _ _ _ hv]

theorem packed {lead : ℕ} {vs : List ℕ} {s : Packer} (h : Packed lead vs s) (ws : List ℕ)
    (hw : ∀ v ∈ ws, v < 2 ^ XKQ_WIDTH) : Packed lead (vs ++ ws) (ws.foldl Packer.push s) := by
  induction ws generalizing vs s with
  | nil => rwa [List.append_nil]
  | cons w ws ih =>
      rw [List.forall_mem_cons] at hw
      have hrest := ih (h.push hw.1) hw.2
      rwa [List.append_assoc] at hrest

/-- **The bits of the codes** are the lead, the numbers in order and less than a code of
padding. -/
theorem xkq_bits (values : List Double) (lead : Fin (2 ^ XKQ_LEAD))
    (pad : ∀ free, Fin (2 ^ free)) :
    (∀ c ∈ xkq values lead pad, c < 2 ^ XKQ_BITS) ∧
      ∃ padding, padding.length < XKQ_BITS ∧ (xkq values lead pad).flatMap (bits XKQ_BITS)
        = bits XKQ_LEAD lead ++ (values.map clamped).flatMap (bits XKQ_WIDTH) ++ padding := by
  have hstart : Packed lead [] ⟨XKQ_LEAD, lead, []⟩ :=
    ⟨by simp [XKQ_LEAD], by simp [XKQ_LEAD, XKQ_BITS], lead.isLt, by simp, by simp⟩
  obtain ⟨hpos, hle, hnext, hcodes, hbits⟩ := packed hstart (values.map clamped) (by
    intro v hv
    obtain ⟨x, -, rfl⟩ := List.mem_map.1 hv
    exact clamped_lt x)
  rw [List.nil_append] at hbits
  rw [xkq]
  set s := (values.map clamped).foldl Packer.push ⟨XKQ_LEAD, lead, []⟩
  by_cases hfree : 0 < XKQ_BITS - s.occupied
  · have hfull : s.occupied + (XKQ_BITS - s.occupied) = XKQ_BITS := by omega
    have hpad := (pad (XKQ_BITS - s.occupied)).isLt
    have hcode := shl_or hnext hpad (by rw [hfull, XKQ_BITS]; omega)
    rw [if_pos hfree, hcode]
    refine ⟨fun c hc => ?_, bits (XKQ_BITS - s.occupied) (pad (XKQ_BITS - s.occupied)), ?_, ?_⟩
    · rcases List.mem_append.1 hc with hc | hc
      · exact hcodes c hc
      · have hlt := add_lt hnext hpad
        rw [hfull] at hlt
        rw [List.mem_singleton.1 hc]
        exact hlt
    · rw [length_bits]
      omega
    · have hlast := bits_add s.occupied (XKQ_BITS - s.occupied) s.next hpad
      rw [hfull] at hlast
      rw [List.flatMap_append, List.flatMap_singleton, hlast, ← hbits, List.append_assoc]
  · have hfull : s.occupied = XKQ_BITS := by omega
    rw [if_neg hfree]
    rw [hfull] at hnext hbits
    refine ⟨fun c hc => ?_, [], by decide, ?_⟩
    · rcases List.mem_append.1 hc with hc | hc
      · exact hcodes c hc
      · rw [List.mem_singleton.1 hc]
        exact hnext
    · rw [List.flatMap_append, List.flatMap_singleton, hbits, List.append_nil]

/-! ## Reading the codes -/

/-- The first `n` numbers of codes. -/
def unpack (n : ℕ) (codes : List ℕ) : List ℕ :=
  fields XKQ_WIDTH n ((codes.flatMap (bits XKQ_BITS)).drop XKQ_LEAD)

/-- **The codes are decodable** by who knows the number of values.  They are 16-bit numbers,
their bits are the lead, the values and less than a code of padding, and the number of codes
leaves open a few numbers of values at most. -/
theorem xkq_decodes (values : List Double) (lead : Fin (2 ^ XKQ_LEAD))
    (pad : ∀ free, Fin (2 ^ free)) :
    (∀ c ∈ xkq values lead pad, c < 65536) ∧
      (∃ padding, padding.length < XKQ_BITS ∧ (xkq values lead pad).flatMap (bits XKQ_BITS)
        = bits XKQ_LEAD lead ++ (values.map clamped).flatMap (bits XKQ_WIDTH) ++ padding) ∧
      unpack values.length (xkq values lead pad) = values.map clamped ∧
      XKQ_LEAD + XKQ_WIDTH * values.length ≤ XKQ_BITS * (xkq values lead pad).length ∧
      XKQ_BITS * (xkq values lead pad).length
        < XKQ_LEAD + XKQ_WIDTH * values.length + XKQ_BITS := by
  obtain ⟨hcodes, padding, hpadding, hbits⟩ := xkq_bits values lead pad
  have hlength := congrArg List.length hbits
  simp only [List.length_append, Lib.length_flatMap_bits, length_bits, List.length_map] at hlength
  refine ⟨hcodes, ⟨padding, hpadding, hbits⟩, ?_, by omega, by omega⟩
  rw [unpack, hbits, List.append_assoc, List.drop_left' (length_bits _ _), ← values.length_map]
  refine Lib.fields_flatMap (fun v hv => ?_) padding
  obtain ⟨x, -, rfl⟩ := List.mem_map.1 hv
  exact clamped_lt x

/-- A code of the list `[0]` is one of the empty list too. -/
theorem xkq_ambiguous : ¬ ∃ decode : List ℕ → List ℕ, ∀ values lead pad,
    decode (xkq values lead pad) = values.map clamped := by
  rintro ⟨decode, h⟩
  have hpad (free : ℕ) : 0 < 2 ^ free := Nat.two_pow_pos free
  have hnone := h [] 0 fun free => ⟨0, hpad free⟩
  have hone := h [.zero] 0 fun free => ⟨0, hpad free⟩
  have hsame : xkq [] 0 (fun free => ⟨0, hpad free⟩) = xkq [.zero] 0 fun free => ⟨0, hpad free⟩ := by
    simp only [xkq, List.map_cons, List.map_nil, clamped_zero]
    rfl
  rw [hsame, hone] at hnone
  cases hnone

end Values
end Lunar
