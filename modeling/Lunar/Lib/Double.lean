/-
# Doubles

Binary64 as the runtime computes with it.  A finite double is a sign and a
magnitude counted in the smallest step between doubles, `2 ^ -1074`, so what is
exact is exact on natural numbers, and what is rounded is rounded once, to 53
bits with ties to even.

The functions keep the names of the runtime's: `trunc`, `fract`, saturating casts,
`parse`, and `display`, which prints the fewest digits that read back as the same
double.
-/

import Mathlib.Algebra.Ring.Int.Defs
import Mathlib.Algebra.Ring.Nat
import Mathlib.Data.List.DropRight
import Mathlib.Data.Nat.Log
import Mathlib.Data.Nat.Notation

namespace Lunar
namespace Lib

/-- A double: not a number, an infinity, or a finite one.  All NaNs are one. -/
inductive Double
  | nan
  | inf (neg : Bool)
  | fin (neg : Bool) (mag : ℕ)
  deriving DecidableEq, Repr

namespace Double

/-- The magnitude of the number one. -/
def ONE : ℕ := 2 ^ 1074

/-- The magnitude from which on a double is infinite. -/
def HUGE : ℕ := 2 ^ 2098

/-! ## Rounding -/

/-- The integer nearest to `n / d`, of two the even one. -/
def nearest (n d : ℕ) : ℕ :=
  if 2 * (n % d) < d ∨ 2 * (n % d) = d ∧ n / d % 2 = 0 then n / d else n / d + 1

/-- `n / d` with 53 bits. -/
def round53 (n d : ℕ) : ℕ :=
  let e := (n / d).log2 - 52
  nearest n (d * 2 ^ e) * 2 ^ e

/-- The double nearest to a quotient of magnitudes. -/
def ofQuot (neg : Bool) (n d : ℕ) : Double :=
  if HUGE ≤ round53 n d then .inf neg else .fin neg (round53 n d)

/-- `c * 10 ^ e`, rounded. -/
def ofDecimal (neg : Bool) (c : ℕ) (e : ℤ) : Double :=
  ofQuot neg (c * 10 ^ e.toNat * ONE) (10 ^ (-e).toNat)

/-- An integer of at most 53 bits, which is exact. -/
def ofInt (i : ℤ) : Double := .fin (i < 0) (i.natAbs * ONE)

/-- An integer of any size. -/
def ofNat (n : ℕ) : Double := ofQuot false (n * ONE) 1

/-- The double with the given bits. -/
def ofBits (b : BitVec 64) : Double :=
  let neg := b.msb
  let exp := b.toNat / 2 ^ 52 % 2 ^ 11
  let frac := b.toNat % 2 ^ 52
  if exp = 2047 then if frac = 0 then .inf neg else .nan
  else if exp = 0 then .fin neg frac
  else .fin neg ((2 ^ 52 + frac) * 2 ^ (exp - 1))

/-- The bits of a double. -/
def toBits : Double → BitVec 64
  | .nan => 0x7FF8000000000000
  | .inf neg => if neg then 0xFFF0000000000000 else 0x7FF0000000000000
  | .fin neg m =>
      let e := Nat.log2 m - 52
      let mag := if m < 2 ^ 52 then m else (e + 1) * 2 ^ 52 + (m / 2 ^ e - 2 ^ 52)
      .ofNat 64 (if neg then 2 ^ 63 + mag else mag)

def zero : Double := .fin false 0

def one : Double := .fin false ONE

/-! ## Sign and order -/

def isNan : Double → Bool
  | .nan => true
  | _ => false

def isInfinite : Double → Bool
  | .inf _ => true
  | _ => false

def isFinite : Double → Bool
  | .fin _ _ => true
  | _ => false

def isSignNegative : Double → Bool
  | .nan => false
  | .inf neg | .fin neg _ => neg

def neg : Double → Double
  | .nan => .nan
  | .inf n => .inf !n
  | .fin n m => .fin (!n) m

def abs : Double → Double
  | .nan => .nan
  | .inf _ => .inf false
  | .fin _ m => .fin false m

/-- The magnitude with its sign. -/
def signed (neg : Bool) (mag : ℕ) : ℤ := if neg then -mag else mag

/-- `f64::partial_cmp`. -/
def cmp : Double → Double → Option Ordering
  | .nan, _ | _, .nan => none
  | .inf a, .inf b => some (compare b.toNat a.toNat)
  | .inf a, .fin _ _ => some (if a then .lt else .gt)
  | .fin _ _, .inf b => some (if b then .gt else .lt)
  | .fin a m, .fin b n => some (compare (signed a m) (signed b n))

def lt (x y : Double) : Bool := x.cmp y == some .lt

def gt (x y : Double) : Bool := x.cmp y == some .gt

def le (x y : Double) : Bool := x.cmp y == some .lt || x.cmp y == some .eq

def ge (x y : Double) : Bool := x.cmp y == some .gt || x.cmp y == some .eq

/-- `==`: zeros are equal, a NaN equals nothing. -/
def eq (x y : Double) : Bool := x.cmp y == some .eq

/-- The sum of two finite doubles.  A sum of zero is positive unless both are
negative. -/
def addFin (a : Bool) (m : ℕ) (b : Bool) (n : ℕ) : Double :=
  let s := signed a m + signed b n
  if s = 0 then .fin (a && b) 0 else ofQuot (s < 0) s.natAbs 1

def add : Double → Double → Double
  | .nan, _ | _, .nan => .nan
  | .inf a, .inf b => if a = b then .inf a else .nan
  | .inf a, _ => .inf a
  | _, .inf b => .inf b
  | .fin a m, .fin b n => addFin a m b n

def sub (x y : Double) : Double := x.add y.neg

def mul : Double → Double → Double
  | .nan, _ | _, .nan => .nan
  | .inf a, .inf b => .inf (a != b)
  | .inf a, .fin b n => if n = 0 then .nan else .inf (a != b)
  | .fin a m, .inf b => if m = 0 then .nan else .inf (a != b)
  | .fin a m, .fin b n => ofQuot (a != b) (m * n) ONE

def div : Double → Double → Double
  | .nan, _ | _, .nan => .nan
  | .inf _, .inf _ => .nan
  | .inf a, .fin b _ => .inf (a != b)
  | .fin a _, .inf b => .fin (a != b) 0
  | .fin a m, .fin b n =>
    if n = 0 then if m = 0 then .nan else .inf (a != b) else ofQuot (a != b) (m * ONE) n

/-- `%`: the remainder has the sign of the dividend. -/
def rem : Double → Double → Double
  | .nan, _ | _, .nan => .nan
  | .inf _, _ => .nan
  | .fin a m, .inf _ => .fin a m
  | .fin a m, .fin _ n => if n = 0 then .nan else .fin a (m % n)

def trunc : Double → Double
  | .fin a m => .fin a (m / ONE * ONE)
  | x => x

def fract (x : Double) : Double := x.sub x.trunc

/-- `fract() == 0.0`. -/
def isInt : Double → Bool
  | .fin _ m => m % ONE = 0
  | _ => false

def floor : Double → Double
  | .fin a m => .fin a ((if a ∧ m % ONE ≠ 0 then m / ONE + 1 else m / ONE) * ONE)
  | x => x

def ceil : Double → Double
  | .fin a m => .fin a ((if ¬ a ∧ m % ONE ≠ 0 then m / ONE + 1 else m / ONE) * ONE)
  | x => x

/-! ## Casts -/

/-- The integer part of a finite double. -/
def toInt : Double → ℤ
  | .fin a m => signed a (m / ONE)
  | _ => 0

/-- A cast to the integers from `lo` to `hi`, which saturates. -/
def cast (lo hi : ℤ) : Double → ℤ
  | .nan => 0
  | .inf a => if a then lo else hi
  | .fin a m => max lo (min hi (signed a (m / ONE)))

/-- `as uN`. -/
def toU (bits : ℕ) (x : Double) : ℕ := (x.cast 0 (2 ^ bits - 1)).toNat

/-- `as iN`. -/
def toI (bits : ℕ) (x : Double) : ℤ := x.cast (-2 ^ (bits - 1)) (2 ^ (bits - 1) - 1)

/-! ## Integers -/

theorem ONE_pos : 0 < ONE := by
  rw [ONE]
  exact Nat.two_pow_pos 1074

theorem toInt_ofInt (i : ℤ) : (ofInt i).toInt = i := by
  rw [ofInt, toInt, Nat.mul_div_cancel _ ONE_pos, signed]
  split
  · next h =>
      have h' := of_decide_eq_true h
      omega
  · next h =>
      have h' : ¬ i < 0 := fun hlt => h (decide_eq_true hlt)
      omega

theorem isInt_ofInt (i : ℤ) : (ofInt i).isInt = true := by
  rw [ofInt, isInt, Nat.mul_mod_left]
  rfl

theorem cmp_fin (a : Bool) (m : ℕ) (b : Bool) (n : ℕ) :
    (fin a m).cmp (.fin b n) = some (compare (signed a m) (signed b n)) := rfl

theorem signed_inj {a : Bool} {m n : ℕ} : signed a m = signed a n ↔ m = n := by
  rw [signed, signed]
  split <;> omega

theorem eq_zero_fin (a : Bool) (m : ℕ) : (fin a m).eq zero = decide (m = 0) := by
  rw [eq, zero, cmp_fin, Bool.eq_iff_iff, beq_iff_eq, decide_eq_true_iff, Option.some_inj,
    Int.compare_eq_eq, signed, signed]
  split <;> omega

theorem lt_zero_fin {a : Bool} {m : ℕ} (h : m ≠ 0) : (fin a m).lt zero = a := by
  rw [lt, zero, cmp_fin]
  cases a with
  | true =>
      have hlt : signed true m < signed false 0 := by
        simp only [signed, if_true, Bool.false_eq_true, if_false]
        omega
      rw [Int.compare_eq_lt.2 hlt]
      rfl
  | false =>
      have hgt : signed false 0 < signed false m := by
        simp only [signed, Bool.false_eq_true, if_false]
        omega
      rw [Int.compare_eq_gt.2 hgt]
      rfl

theorem ge_zero_ofInt {i : ℤ} (h : 0 ≤ i) : (ofInt i).ge zero = true := by
  have hneg : decide (i < 0) = false := decide_eq_false (by omega)
  rw [ofInt, ge, zero, cmp, hneg, signed, signed]
  simp only [Bool.false_eq_true, if_false]
  rcases Nat.eq_zero_or_pos (i.natAbs * ONE) with h0 | h0
  · rw [h0]
    rfl
  · have hgt : compare ((i.natAbs * ONE : ℕ) : ℤ) ((0 : ℕ) : ℤ) = .gt :=
      Int.compare_eq_gt.2 (by omega)
    rw [hgt]
    rfl

theorem lt_ofInt {i j : ℤ} (h : i < j) : (ofInt i).lt (ofInt j) = true := by
  have hsigned (k : ℤ) : signed (decide (k < 0)) (k.natAbs * ONE) = k * ONE := by
    rw [signed]
    rcases Int.lt_or_le k 0 with hk | hk
    · rw [if_pos (decide_eq_true hk), Int.natCast_mul, Int.ofNat_natAbs_of_nonpos hk.le, Int.neg_mul,
        Int.neg_neg]
    · rw [decide_eq_false hk.not_gt, if_neg Bool.false_ne_true, Int.natCast_mul,
        Int.natAbs_of_nonneg hk]
  have hlt : compare (i * (ONE : ℤ)) (j * ONE) = .lt :=
    Int.compare_eq_lt.2 (Int.mul_lt_mul_of_pos_right h (by exact_mod_cast ONE_pos))
  rw [ofInt, ofInt, lt, cmp, hsigned, hsigned, hlt]
  rfl

theorem toU_ofInt {bits : ℕ} {i : ℤ} (h : 0 ≤ i) (hlt : i < 2 ^ bits) :
    (ofInt i).toU bits = i.toNat := by
  have hneg : decide (i < 0) = false := decide_eq_false (by omega)
  rw [ofInt, toU, cast, hneg, Nat.mul_div_cancel _ ONE_pos, signed]
  simp only [Bool.false_eq_true, if_false]
  omega

/-- A cast to fewer bits that does not saturate. -/
theorem toU_of_le {a b : ℕ} (h : a ≤ b) {x : Double} (hx : x.toU b < 2 ^ a) : x.toU a = x.toU b := by
  have hpow : 2 ^ a ≤ 2 ^ b := Nat.pow_le_pow_right Nat.two_pos h
  have ha : ((2 ^ a : ℕ) : ℤ) = 2 ^ a := Int.natCast_pow 2 a
  have hb : ((2 ^ b : ℕ) : ℤ) = 2 ^ b := Int.natCast_pow 2 b
  unfold toU at hx ⊢
  rw [← hb] at hx ⊢
  rw [← ha]
  generalize 2 ^ a = m at *
  generalize 2 ^ b = n at *
  cases x with
  | nan => rfl
  | inf neg =>
      cases neg
      · simp only [cast, Bool.false_eq_true, if_false] at hx ⊢
        omega
      · rfl
  | fin neg k =>
      simp only [cast] at hx ⊢
      omega

/-! ## Exact results -/

/-- Rounding keeps a magnitude of at most 53 bits. -/
theorem round53_exact {m j d : ℕ} (hm : m < 2 ^ 53) (hd : 0 < d) :
    round53 (m * 2 ^ j * d) d = m * 2 ^ j := by
  unfold round53
  dsimp only
  rw [Nat.mul_div_cancel _ hd]
  have hdvd : 2 ^ ((m * 2 ^ j).log2 - 52) ∣ m * 2 ^ j := by
    refine Nat.dvd_mul_left_of_dvd (Nat.pow_dvd_pow 2 ?_) m
    by_cases hzero : m = 0
    · rw [hzero, Nat.zero_mul, Nat.log2_zero]
      exact Nat.zero_le j
    · have hlog : (m * 2 ^ j).log2 < 53 + j := by
        refine (Nat.log2_lt (Nat.mul_ne_zero hzero (Nat.ne_of_gt (Nat.two_pow_pos j)))).2 ?_
        rw [Nat.pow_add]
        exact Nat.mul_lt_mul_of_pos_right hm (Nat.two_pow_pos j)
      omega
  obtain ⟨k, hk⟩ := hdvd
  generalize (m * 2 ^ j).log2 - 52 = e at hk ⊢
  have hpos : 0 < d * 2 ^ e := Nat.mul_pos hd (Nat.two_pow_pos e)
  have hquot : m * 2 ^ j * d = k * (d * 2 ^ e) := by
    rw [hk, Nat.mul_comm (2 ^ e) k, Nat.mul_assoc, Nat.mul_comm (2 ^ e) d]
  have hnearest : nearest (m * 2 ^ j * d) (d * 2 ^ e) = k := by
    rw [nearest, hquot, Nat.mul_mod_left, Nat.mul_div_cancel _ hpos, Nat.mul_zero,
      if_pos (.inl hpos)]
  rw [hnearest, hk, Nat.mul_comm]

/-- A magnitude of at most 53 bits is its own quotient. -/
theorem ofQuot_exact (neg : Bool) {m j d : ℕ} (hm : m < 2 ^ 53) (hd : 0 < d)
    (hhuge : m * 2 ^ j < HUGE) : ofQuot neg (m * 2 ^ j * d) d = .fin neg (m * 2 ^ j) := by
  rw [ofQuot, round53_exact hm hd, if_neg (Nat.not_le.2 hhuge)]

/-- The sign, the exponent and the fraction of some bits. -/
theorem toNat_bits (b : BitVec 64) :
    b.toNat = (if b.msb then 2 ^ 63 else 0) + b.toNat / 2 ^ 52 % 2 ^ 11 * 2 ^ 52
      + b.toNat % 2 ^ 52 := by
  have hlt := b.isLt
  rw [BitVec.msb_eq_decide]
  by_cases h : 2 ^ 63 ≤ b.toNat
  · rw [decide_eq_true h, if_pos rfl]
    omega
  · rw [decide_eq_false h, if_neg Bool.false_ne_true]
    omega

/-- The bits of the double with given bits. -/
theorem toBits_ofBits {b : BitVec 64} (h : ofBits b ≠ .nan) : (ofBits b).toBits = b := by
  have hbits := toNat_bits b
  have hfrac : b.toNat % 2 ^ 52 < 2 ^ 52 := Nat.mod_lt _ (Nat.two_pow_pos 52)
  have hfin : ∀ mag, b.toNat = (if b.msb then 2 ^ 63 else 0) + mag →
      BitVec.ofNat 64 (if b.msb then 2 ^ 63 + mag else mag) = b := by
    intro mag hmag
    have hsum : (if b.msb then 2 ^ 63 + mag else mag) = b.toNat := by
      rw [hmag]
      split
      · rfl
      · exact (Nat.zero_add mag).symm
    rw [hsum, BitVec.ofNat_toNat, BitVec.setWidth_eq]
  unfold ofBits at h ⊢
  dsimp only at h ⊢
  generalize b.toNat % 2 ^ 52 = frac at *
  generalize b.toNat / 2 ^ 52 % 2 ^ 11 = exp at *
  by_cases hspecial : exp = 2047
  · rw [if_pos hspecial] at h ⊢
    by_cases hzero : frac = 0
    · rw [if_pos hzero]
      rw [hspecial, hzero] at hbits
      refine Eq.trans ?_ (hfin (2047 * 2 ^ 52) hbits)
      unfold toBits
      dsimp only
      cases b.msb
      · rfl
      · rfl
    · rw [if_neg hzero] at h
      exact absurd rfl h
  · rw [if_neg hspecial] at h ⊢
    by_cases hsub : exp = 0
    · rw [if_pos hsub]
      rw [hsub, Nat.zero_mul, Nat.add_zero] at hbits
      unfold toBits
      dsimp only
      rw [if_pos hfrac]
      exact hfin frac hbits
    · rw [if_neg hsub]
      obtain ⟨k, rfl⟩ := Nat.exists_eq_succ_of_ne_zero hsub
      rw [Nat.succ_sub_one]
      have hpos := Nat.two_pow_pos k
      have hlow : 2 ^ 52 * 2 ^ k ≤ (2 ^ 52 + frac) * 2 ^ k :=
        Nat.mul_le_mul_right _ (Nat.le_add_right _ _)
      have hhigh : (2 ^ 52 + frac) * 2 ^ k < 2 ^ 53 * 2 ^ k :=
        Nat.mul_lt_mul_of_pos_right (by omega) hpos
      have hlog : ((2 ^ 52 + frac) * 2 ^ k).log2 = 52 + k := by
        refine (Nat.log2_eq_iff (by omega)).2 ⟨?_, ?_⟩
        · rw [Nat.pow_add]
          exact hlow
        · have hexp : 52 + k + 1 = 53 + k := by omega
          rw [hexp, Nat.pow_add]
          exact hhigh
      have hbig : ¬ (2 ^ 52 + frac) * 2 ^ k < 2 ^ 52 :=
        Nat.not_lt.2 (Nat.le_trans (Nat.le_mul_of_pos_right _ hpos) hlow)
      unfold toBits
      dsimp only
      rw [hlog, if_neg hbig, Nat.add_sub_cancel_left, Nat.mul_div_cancel _ hpos,
        Nat.add_sub_cancel_left]
      exact hfin _ (by rw [hbits, Nat.add_assoc])

/-! ## Text -/

def isDigit (c : Char) : Bool := '0' ≤ c && c ≤ '9'

/-- The number that digits denote. -/
def ofDigits (ds : List Char) : ℕ := ds.foldl (fun n c => 10 * n + (c.toNat - '0'.toNat)) 0

/-- An exponent: nothing, or `e`, a sign and at least one digit. -/
def parseExp : List Char → Option ℤ
  | [] => some 0
  | c :: cs =>
    if c = 'e' ∨ c = 'E' then
      match cs with
      | '-' :: ds => if ds.isEmpty || !ds.all isDigit then none else some (-(ofDigits ds : ℤ))
      | '+' :: ds => if ds.isEmpty || !ds.all isDigit then none else some (ofDigits ds : ℤ)
      | ds => if ds.isEmpty || !ds.all isDigit then none else some (ofDigits ds : ℤ)
    else none

/-- The digits after the point, if there is one, and what follows. -/
def parseFrac : List Char → List Char × List Char
  | '.' :: cs => cs.span isDigit
  | cs => ([], cs)

/-- A number without its sign. -/
def parseMag (neg : Bool) (cs : List Char) : Option Double :=
  let lower := cs.map Char.toLower
  if lower = ['i', 'n', 'f'] ∨ lower = ['i', 'n', 'f', 'i', 'n', 'i', 't', 'y'] then
    some (.inf neg)
  else if lower = ['n', 'a', 'n'] then some .nan
  else
    let (whole, cs) := cs.span isDigit
    let (frac, cs) := parseFrac cs
    if whole.isEmpty && frac.isEmpty then none
    else (parseExp cs).map fun e => ofDecimal neg (ofDigits (whole ++ frac)) (e - frac.length)

/-- `str::parse::<f64>`. -/
def parse (s : String) : Option Double :=
  match s.toList with
  | '-' :: cs => parseMag true cs
  | '+' :: cs => parseMag false cs
  | cs => parseMag false cs

/-- The place of the first digit of a magnitude before the decimal point. -/
def place (mag : ℕ) : ℤ := (Nat.log 10 (10 ^ 400 * mag / ONE) : ℤ) + 1 - 400

/-- Of the numbers with `k` digits next to a magnitude, the nearest that reads back. -/
def withDigits (mag k : ℕ) : Option ℕ :=
  let e := place mag - k
  let n := mag * 10 ^ (-e).toNat
  let d := ONE * 10 ^ e.toNat
  let reads (c : ℕ) := ofDecimal false c e = .fin false mag
  if reads (n / d) ∧ (2 * (n % d) < d ∨ ¬ reads (n / d + 1)) then some (n / d)
  else if reads (n / d + 1) then some (n / d + 1)
  else none

/-- The fewest digits that read back as the magnitude. -/
def fewest (mag : ℕ) : Option (ℕ × ℕ) :=
  (List.range' 1 17).findSome? fun k => (withDigits mag k).map (·, k)

/-- A number of `k` digits without its last zeros, and the place of the first. -/
def written (mag : ℕ) : Option (ℕ × ℕ) → List Char × ℤ
  | some (c, k) =>
    ((Nat.toDigits 10 c).rdropWhile (· = '0'), if c = 10 ^ k then place mag + 1 else place mag)
  | none => (['0'], 1)

/-- The shortest digits that read back as the magnitude, and the place of the first:
the number is `0.d₁d₂… * 10 ^ e`. -/
def shortest (mag : ℕ) : List Char × ℤ := written mag (fewest mag)

theorem exists_digit {c : ℕ} (h : c ≠ 0) : ∃ d ∈ Nat.toDigits 10 c, d ≠ '0' := by
  induction c using Nat.strong_induction_on with
  | h c ih =>
      rw [Nat.toDigits_eq_if (by decide)]
      split
      · next hlt =>
          refine ⟨_, List.mem_singleton_self _, ?_⟩
          have hall : ∀ n < 10, n ≠ 0 → Nat.digitChar n ≠ '0' := by decide
          exact hall c hlt h
      · next hge =>
          obtain ⟨d, hd, hne⟩ := ih (c / 10) (by omega) (by omega)
          exact ⟨d, List.mem_append_left _ hd, hne⟩

/-- Zero reads back as no other magnitude. -/
theorem withDigits_ne_zero {mag k c : ℕ} (hmag : mag ≠ 0) (h : withDigits mag k = some c) :
    c ≠ 0 := by
  rintro rfl
  have hzero (e : ℤ) : ofDecimal false 0 e ≠ .fin false mag := by
    intro heq
    have hnearest (d : ℕ) : nearest 0 d = 0 := by
      rw [nearest, Nat.zero_div, Nat.zero_mod, Nat.mul_zero]
      refine if_pos ?_
      rcases Nat.eq_zero_or_pos d with hd | hd
      · exact .inr ⟨hd.symm, rfl⟩
      · exact .inl hd
    have hround (d : ℕ) : round53 0 d = 0 := by
      rw [round53, hnearest, Nat.zero_mul]
    have hhuge : ¬ HUGE ≤ 0 := by
      rw [HUGE]
      exact Nat.not_le.2 (Nat.two_pow_pos 2098)
    rw [ofDecimal, Nat.zero_mul, Nat.zero_mul, ofQuot, hround, if_neg hhuge] at heq
    injection heq with _ heq
    exact hmag heq.symm
  rw [withDigits] at h
  dsimp only at h
  split at h
  · next hreads =>
      rw [Option.some.inj h] at hreads
      exact hzero _ hreads.1
  · split at h
    · next hreads =>
        rw [Option.some.inj h] at hreads
        exact hzero _ hreads
    · cases h

theorem fewest_ne_zero {mag c k : ℕ} (hmag : mag ≠ 0) (h : fewest mag = some (c, k)) : c ≠ 0 := by
  obtain ⟨k', -, hk⟩ := List.exists_of_findSome?_eq_some h
  obtain ⟨c', hc', heq⟩ := Option.map_eq_some_iff.1 hk
  obtain ⟨rfl, rfl⟩ := Prod.mk.inj heq
  exact withDigits_ne_zero hmag hc'

theorem written_spec {mag : ℕ} {found : Option (ℕ × ℕ)} (h : ∀ c k, found = some (c, k) → c ≠ 0) :
    (written mag found).1 ≠ [] ∧ ∀ c ∈ (written mag found).1, c.isDigit = true := by
  cases found with
  | none =>
      have hdigits : ∀ c ∈ ['0'], c.isDigit = true := by
        intro c hc
        rw [List.mem_singleton.1 hc]
        rfl
      exact ⟨List.cons_ne_nil _ _, hdigits⟩
  | some ck =>
      refine ⟨fun hnil => ?_, fun x hx => ?_⟩
      · obtain ⟨d, hd, hd0⟩ := exists_digit (h _ _ rfl)
        exact hd0 (of_decide_eq_true (List.rdropWhile_eq_nil_iff.1 hnil d hd))
      · have hx' := (List.rdropWhile_prefix _ _).mem hx
        exact Nat.isDigit_of_mem_toDigits (by decide) (by decide) hx'

/-- The digits of a magnitude are some, and digits. -/
theorem shortest_spec {mag : ℕ} (h : mag ≠ 0) :
    (shortest mag).1 ≠ [] ∧ ∀ c ∈ (shortest mag).1, c.isDigit = true :=
  written_spec fun _ _ hc => fewest_ne_zero h hc

/-- Digits written with a decimal point and no exponent. -/
def layout (ds : List Char) (e : ℤ) : List Char :=
  if e ≤ 0 then ['0', '.'] ++ List.replicate (-e).toNat '0' ++ ds
  else if ds.length ≤ e then ds ++ List.replicate (e.toNat - ds.length) '0'
  else ds.take e.toNat ++ ['.'] ++ ds.drop e.toNat

/-- `format!("{x}")`. -/
def display : Double → String
  | .nan => "NaN"
  | .inf a => if a then "-inf" else "inf"
  | .fin a m =>
    let body := if m = 0 then ['0'] else layout (shortest m).1 (shortest m).2
    String.ofList (if a then '-' :: body else body)

end Double
end Lib
end Lunar
