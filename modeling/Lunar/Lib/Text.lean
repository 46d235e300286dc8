/-
# Text

The functions of the runtime on strings that the evaluators use: trimming, the
UTF-16 units of a string and back, and the parsing of natural numbers.
-/

import Mathlib.Algebra.Ring.Nat
import Mathlib.Data.List.DropRight
import Mathlib.Data.Nat.Notation

namespace Lunar
namespace Lib
namespace Text

/-- `char::is_whitespace`. -/
def isWhitespace (c : Char) : Bool :=
  let n := c.toNat
  (9 ≤ n && n ≤ 13) || n = 0x20 || n = 0x85 || n = 0xA0 || n = 0x1680 ||
    (0x2000 ≤ n && n ≤ 0x200A) || n = 0x2028 || n = 0x2029 || n = 0x202F || n = 0x205F || n = 0x3000

/-- `str::trim_matches`. -/
def trimMatches (p : Char → Bool) (s : String) : String :=
  String.ofList ((s.toList.dropWhile p).rdropWhile p)

/-- `str::trim`. -/
def trim (s : String) : String := trimMatches isWhitespace s

/-- `str::strip_prefix`. -/
def stripPrefix (p : List Char) (cs : List Char) : Option (List Char) :=
  if p <+: cs then some (cs.drop p.length) else none

/-! ## UTF-16 -/

/-- `char::encode_utf16`. -/
def units (c : Char) : List ℕ :=
  let n := c.toNat
  if n < 0x10000 then [n] else [0xD800 + (n - 0x10000) / 0x400, 0xDC00 + (n - 0x10000) % 0x400]

/-- `str::encode_utf16`. -/
def encodeUtf16 (s : String) : List ℕ := s.toList.flatMap units

theorem encodeUtf16_of_lt {s : String} (h : ∀ c ∈ s.toList, c.toNat < 0x10000) :
    encodeUtf16 s = s.toList.map Char.toNat := by
  rw [encodeUtf16, List.map_eq_flatMap]
  refine List.flatMap_congr fun c hc => ?_
  rw [units]
  exact if_pos (h c hc)

/-- The order of lists by `compare` is that by `<`. -/
theorem compare_eq (xs ys : List ℕ) :
    compare xs ys = if xs < ys then .lt else if ys < xs then .gt else .eq := by
  induction xs generalizing ys with
  | nil =>
      cases ys with
      | nil => rfl
      | cons y ys => rw [List.compare_nil_cons, if_pos (List.nil_lt_cons y ys)]
  | cons x xs ih =>
      cases ys with
      | nil =>
          rw [List.compare_cons_nil, if_neg (List.not_lt_nil _), if_pos (List.nil_lt_cons x xs)]
      | cons y ys =>
          rw [List.compare_cons_cons, ih]
          simp only [List.cons_lt_cons_iff]
          rcases Nat.lt_trichotomy x y with h | rfl | h
          · rw [Nat.compare_eq_lt.2 h, if_pos (Or.inl h)]
            rfl
          · have hlt : ¬ x < x := Nat.lt_irrefl x
            simp only [Nat.compare_eq_eq.2 rfl, hlt, false_or, true_and]
            rfl
          · have hne : ¬ (x < y ∨ x = y ∧ xs < ys) := by omega
            rw [Nat.compare_eq_gt.2 h, if_neg hne, if_pos (Or.inl h)]
            rfl

def isLead (u : ℕ) : Bool := 0xD800 ≤ u && u < 0xDC00

def isTrail (u : ℕ) : Bool := 0xDC00 ≤ u && u < 0xE000

/-- The characters of units; a surrogate without its other half becomes U+FFFD. -/
def decodeLossy : List ℕ → List Char
  | [] => []
  | [u] => [if isLead u || isTrail u then '\uFFFD' else Char.ofNat u]
  | u :: v :: us =>
    if isLead u && isTrail v then
      Char.ofNat (0x10000 + (u - 0xD800) * 0x400 + (v - 0xDC00)) :: decodeLossy us
    else (if isLead u || isTrail u then '\uFFFD' else Char.ofNat u) :: decodeLossy (v :: us)

/-- `String::from_utf16_lossy`. -/
def fromUtf16Lossy (us : List ℕ) : String := String.ofList (decodeLossy us)

/-- A unit that is no surrogate is a character. -/
theorem decodeLossy_cons {u : ℕ} (h : isLead u = false) (h' : isTrail u = false) (us : List ℕ) :
    decodeLossy (u :: us) = Char.ofNat u :: decodeLossy us := by
  cases us with
  | nil => simp [decodeLossy, h, h']
  | cons v us => simp [decodeLossy, h, h']

/-- **The units of a character** are read as the character. -/
theorem decodeLossy_units (c : Char) (us : List ℕ) :
    decodeLossy (units c ++ us) = c :: decodeLossy us := by
  have hvalid : c.toNat < 0xD800 ∨ 0xDFFF < c.toNat ∧ c.toNat < 0x110000 := c.valid
  rw [units]
  split
  · have hlead : isLead c.toNat = false := by
      rw [isLead, Bool.and_eq_false_iff, decide_eq_false_iff_not, decide_eq_false_iff_not]
      omega
    have htrail : isTrail c.toNat = false := by
      rw [isTrail, Bool.and_eq_false_iff, decide_eq_false_iff_not, decide_eq_false_iff_not]
      omega
    rw [List.singleton_append, decodeLossy_cons hlead htrail, Char.ofNat_toNat]
  · generalize hu : 0xD800 + (c.toNat - 0x10000) / 0x400 = u
    generalize hv : 0xDC00 + (c.toNat - 0x10000) % 0x400 = v
    have hlead : isLead u = true := by
      rw [isLead, Bool.and_eq_true, decide_eq_true_iff, decide_eq_true_iff]
      omega
    have htrail : isTrail v = true := by
      rw [isTrail, Bool.and_eq_true, decide_eq_true_iff, decide_eq_true_iff]
      omega
    have hchar : 0x10000 + (u - 0xD800) * 0x400 + (v - 0xDC00) = c.toNat := by omega
    show decodeLossy (u :: v :: us) = _
    rw [decodeLossy, hlead, htrail, hchar, Char.ofNat_toNat]
    rfl

/-- **A string reads back** from its units. -/
theorem fromUtf16Lossy_encodeUtf16 (s : String) : fromUtf16Lossy (encodeUtf16 s) = s := by
  have hchars (cs : List Char) : decodeLossy (cs.flatMap units) = cs := by
    induction cs with
    | nil => rfl
    | cons c cs ih => rw [List.flatMap_cons, decodeLossy_units, ih]
  rw [fromUtf16Lossy, encodeUtf16, hchars, String.ofList_toList]

theorem encodeUtf16_inj {s t : String} : encodeUtf16 s = encodeUtf16 t ↔ s = t := by
  refine ⟨fun h => ?_, congrArg encodeUtf16⟩
  rw [← fromUtf16Lossy_encodeUtf16 s, h, fromUtf16Lossy_encodeUtf16]

/-! ## Natural numbers -/

/-- The value of a digit in a radix up to 36. -/
def digit (radix : ℕ) (c : Char) : Option ℕ :=
  let d := if '0' ≤ c ∧ c ≤ '9' then c.toNat - '0'.toNat
    else if 'a' ≤ c ∧ c ≤ 'z' then c.toNat - 'a'.toNat + 10
    else if 'A' ≤ c ∧ c ≤ 'Z' then c.toNat - 'A'.toNat + 10 else radix
  if d < radix then some d else none

/-- The number that digits denote. -/
def ofDigits (radix : ℕ) (cs : List Char) : Option ℕ :=
  cs.foldlM (fun n c => (digit radix c).map (radix * n + ·)) 0

/-- `from_str_radix` for an unsigned type of 64 bits. -/
def fromRadix (radix : ℕ) (cs : List Char) : Option ℕ :=
  let cs := match cs with
    | '+' :: cs => cs
    | cs => cs
  if cs.isEmpty then none else (ofDigits radix cs).filter (· < 2 ^ 64)

/-- `str::parse::<usize>`. -/
def parseUsize (s : String) : Option ℕ := fromRadix 10 s.toList

end Text
end Lib
end Lunar
