/-
# Hexadecimal numerals of doubles

`payload/values.rs` (`next_double`, `hex_radix`).  The digits of the fraction are taken one after
the other until what is left is less than half the distance to the next double.  A double is a
multiple of that distance, so nothing is left in the end, no rounding happens on the way, and the
numeral is that of the double itself (`hexRadix_reads`).
-/

import Lunar.Lib.Double.Digits
import Lunar.Lib.Double.Rational
import Lunar.Lib.Double.Words
import Lunar.Lib.Numeral
import Lunar.Payload.Interp.Value
import Mathlib.Data.Rat.Defs
import Mathlib.Tactic.Ring

namespace Lunar
namespace Values

open Lib Double

def RADIX : Double := .ofNat 16

def RADIX_DIGITS : List Char := "0123456789abcdef".toList

/-- `next_double`. -/
def nextDouble (x : Double) : Double := ofBits (x.toBits + 1)

/-- One half. -/
def HALF : Double := .fin false (2 ^ 1073)

/-- The loop that adds one to the last of the digits, here the first: those of value `f` go. -/
def carry (integer : Double) : List ℕ → Double × List ℕ
  | [] => (integer.add .one, [])
  | last :: digits =>
    if ((Double.ofNat last).add .one).lt RADIX then (integer, (last + 1) :: digits)
    else carry integer digits

/-- The loop over the digits, the last one first. -/
def digitLoop : ℕ → Double → Double → Double → List ℕ → Option (Double × List ℕ)
  | 0, _, _, _, _ => none
  | fuel + 1, integer, fraction, delta, digits =>
    let fraction := fraction.mul RADIX
    let delta := delta.mul RADIX
    let d := fraction.toU 8
    let digits := d :: digits
    let fraction := fraction.sub (.ofNat d)
    if (fraction.gt HALF || fraction.eq HALF && d % 2 = 1) && (fraction.add delta).gt .one then
      some (carry integer digits)
    else if fraction.lt delta then some (integer, digits)
    else digitLoop fuel integer fraction delta digits

/-- `hex_radix`; `none` when the loop has not ended, or at a digit that is none. -/
def hexRadix (fuel : ℕ) (value : Double) : Option (List Char) :=
  if !value.isFinite || value.lt .zero then some (Interp.numToStr value).toList
  else do
    let integer := value.floor
    let fraction := value.sub integer
    let delta := Double.fmax (HALF.mul ((nextDouble value).sub value)) (nextDouble .zero)
    let (integer, digits) ←
      if fraction.ge delta then digitLoop fuel integer fraction delta [] else some (integer, [])
    let whole := Numeral.numeral 16 (integer.toU 64)
    if digits = [] then return whole
    else
      let ds ← digits.reverse.mapM fun d => RADIX_DIGITS[d]?
      return whole ++ '.' :: ds

/-! ## Reading a numeral -/

/-- The number that a numeral with a point denotes. -/
def hexValue (s : List Char) : Option ℚ :=
  match s.splitOn '.' with
  | [whole] => (Text.ofDigits 16 whole).map Nat.cast
  | [whole, part] => do
    let n ← Text.ofDigits 16 whole
    let k ← Text.ofDigits 16 part
    return n + k / 16 ^ part.length
  | _ => none

/-! ## The distance to the next double -/

/-- **The next double** is one unit further. -/
theorem nextDouble_fin {m : ℕ} (hm : IsDouble m) (hlt : m < 2 ^ 2000) :
    nextDouble (.fin false m) = .fin false (m + 2 ^ (m.log2 - 52)) := by
  obtain ⟨a, ha, hma, hbin⟩ := hm.normal
  have he : m.log2 - 52 < 1948 := by
    by_cases hzero : m = 0
    · rw [hzero, Nat.log2_zero]
      omega
    · have := (Nat.log2_lt hzero).2 hlt
      omega
  have hadd (n : ℕ) : BitVec.ofNat 64 n + 1 = BitVec.ofNat 64 (n + 1) := (BitVec.ofNat_add n 1).symm
  rw [nextDouble, toBits, if_neg Bool.false_ne_true, hadd]
  generalize m.log2 - 52 = e at *
  split
  · next hsmall =>
      -- below the least normal double the unit is one
      have hzero : e = 0 := by
        rcases hbin with hbin | hbin
        · exact hbin
        · have hlow : 2 ^ 52 * 1 ≤ a * 2 ^ e := Nat.mul_le_mul hbin (Nat.two_pow_pos e)
          omega
      subst hzero
      rcases Nat.lt_or_ge (m + 1) (2 ^ 52) with hlt' | hge
      · have h := ofBits_ofNat 0 _ (by omega) hlt'
        rw [Nat.zero_mul, Nat.zero_add, if_pos rfl] at h
        exact h
      · obtain rfl : m = 2 ^ 52 - 1 := by omega
        exact ofBits_ofNat 1 0 (by omega) (by omega)
  · next hlarge =>
      have hpos := Nat.two_pow_pos e
      have hbin' : 2 ^ 52 ≤ a := by
        rcases hbin with rfl | hbin
        · omega
        · exact hbin
      have hdiv : m / 2 ^ e = a := by rw [hma, Nat.mul_div_cancel _ hpos]
      rw [hdiv]
      rcases Nat.lt_or_ge (a + 1) (2 ^ 53) with hlt' | hge
      · have h := ofBits_ofNat (e + 1) (a + 1 - 2 ^ 52) (by omega) (by omega)
        have hmag : (e + 1) * 2 ^ 52 + (a - 2 ^ 52) + 1 = (e + 1) * 2 ^ 52 + (a + 1 - 2 ^ 52) := by
          omega
        have hsum : 2 ^ 52 + (a + 1 - 2 ^ 52) = a + 1 := by omega
        rw [hmag, h, if_neg (by omega), hsum, Nat.add_sub_cancel, hma, Nat.succ_mul]
      · have h := ofBits_ofNat (e + 2) 0 (by omega) (by omega)
        have hmag : (e + 1) * 2 ^ 52 + (a - 2 ^ 52) + 1 = (e + 2) * 2 ^ 52 + 0 := by omega
        obtain rfl : a = 2 ^ 53 - 1 := by omega
        have hexp : e + 2 - 1 = e + 1 := rfl
        rw [hmag, h, if_neg (by omega), hma, hexp, Nat.pow_succ]
        congr 1
        omega

/-- Half of a unit, of which the least rounds to nothing. -/
theorem half_mul (e : ℕ) (he : e < 2000) : HALF.mul (.fin false (2 ^ e)) =
    .fin false (if e = 0 then 0 else 2 ^ (e - 1)) := by
  have hone : ONE = 2 ^ 1073 * 2 := by rw [ONE, Nat.pow_succ]
  rw [HALF, mul, bne_self_eq_false]
  rcases e with _ | i
  · have hpos := Nat.two_pow_pos 1073
    have hdiv : 2 ^ 1073 / ONE = 0 := by
      rw [hone]
      exact Nat.div_eq_of_lt (by omega)
    have hmod : 2 ^ 1073 % ONE = 2 ^ 1073 := by
      rw [hone]
      exact Nat.mod_eq_of_lt (by omega)
    have hround : round53 (2 ^ 1073 * 2 ^ 0) ONE = 0 := by
      rw [round53, Nat.pow_zero, Nat.mul_one, hdiv, Nat.log2_zero, Nat.zero_sub, Nat.pow_zero,
        Nat.mul_one, Nat.mul_one, nearest, hdiv, hmod,
        if_pos (Or.inr ⟨(Nat.mul_comm _ _).trans hone.symm, rfl⟩)]
    rw [ofQuot_lt (by rw [hround]; exact Nat.two_pow_pos 2098), hround, if_pos rfl]
  · have hquot : 2 ^ 1073 * 2 ^ (i + 1) = 1 * 2 ^ i * ONE := by
      rw [hone, Nat.pow_succ 2 i]
      generalize 2 ^ 1073 = u
      generalize 2 ^ i = v
      ring
    have hhuge : 1 * 2 ^ i < HUGE := by
      rw [Nat.one_mul]
      exact pow_lt_huge (by omega)
    rw [hquot, ofQuot_exact false (by omega) ONE_pos hhuge, Nat.one_mul, if_neg (by omega),
      Nat.add_sub_cancel]

theorem nextDouble_zero : nextDouble .zero = .fin false 1 := by
  have h := nextDouble_fin (m := 0) ⟨Nat.two_pow_pos 2098, 0, 0, by omega, rfl⟩ (Nat.two_pow_pos 2000)
  rw [Nat.log2_zero] at h
  exact h

/-- **What the digits may leave** is half of a unit, or the least double. -/
theorem delta_eq {m : ℕ} (hm : IsDouble m) (hlt : m < 2 ^ 2000) :
    Double.fmax (HALF.mul ((nextDouble (.fin false m)).sub (.fin false m))) (nextDouble .zero) =
      .fin false (2 ^ (m.log2 - 53)) := by
  have he : m.log2 - 52 < 2000 := by
    by_cases hzero : m = 0
    · rw [hzero, Nat.log2_zero]
      omega
    · have := (Nat.log2_lt hzero).2 hlt
      omega
  have hsub : (nextDouble (.fin false m)).sub (.fin false m) = .fin false (2 ^ (m.log2 - 52)) := by
    have h := sub_exact (m := m + 2 ^ (m.log2 - 52)) (n := m) (a := 1) (j := m.log2 - 52)
      (by rw [Nat.one_mul]) (by omega) (by rw [Nat.one_mul]; exact pow_lt_huge (by omega))
    rw [Nat.one_mul] at h
    rw [nextDouble_fin hm hlt, h]
  have hexp : m.log2 - 53 = m.log2 - 52 - 1 := by omega
  rw [hsub, half_mul _ he, nextDouble_zero, hexp]
  generalize m.log2 - 52 = e at *
  rw [Double.fmax, if_neg (by simp [isNan]), if_neg (by simp [isNan])]
  rcases e with _ | i
  · rfl
  · rw [if_neg (Nat.succ_ne_zero i), Nat.add_sub_cancel]
    have hpos := Nat.two_pow_pos i
    split
    · rfl
    · next hle =>
        rw [gt_pos] at hle
        congr 1
        omega

/-! ## The digits -/

/-- What is left of some units above a multiple of one are units. -/
theorem mod_units {c i : ℕ} (hc : c < 2 ^ 53) :
    ∃ c' < 2 ^ 53, c * 2 ^ i % ONE = c' * 2 ^ i := by
  rcases Nat.lt_or_ge 1074 i with hbig | hsmall
  · -- a unit is a multiple of one
    have hdvd : ONE ∣ c * 2 ^ i := Nat.dvd_mul_left_of_dvd (Nat.pow_dvd_pow 2 hbig.le) c
    exact ⟨0, by omega, by rw [Nat.mod_eq_zero_of_dvd hdvd, Nat.zero_mul]⟩
  · have hone : ONE = 2 ^ (1074 - i) * 2 ^ i := by
      rw [ONE, ← Nat.pow_add]
      congr 1
      omega
    exact ⟨c % 2 ^ (1074 - i), (Nat.mod_le _ _).trans_lt hc, by rw [hone, Nat.mul_mod_mul_right]⟩

/-- A digit of a fraction, and what it leaves. -/
theorem digit_step {c i : ℕ} (hc : c < 2 ^ 53) (hlt : c * 2 ^ i < ONE) :
    ∃ d < 16, ∃ c' < 2 ^ 53, c * 2 ^ i * 16 = d * ONE + c' * 2 ^ (i + 4) ∧
      c' * 2 ^ (i + 4) < ONE := by
  have hpow : c * 2 ^ i * 16 = c * 2 ^ (i + 4) := by
    rw [Nat.pow_add]
    ring
  have hd : c * 2 ^ i * 16 / ONE < 16 := by
    rw [Nat.div_lt_iff_lt_mul ONE_pos, Nat.mul_comm 16]
    exact Nat.mul_lt_mul_of_pos_right hlt (by omega)
  rw [hpow] at hd ⊢
  have hdiv := Nat.div_add_mod (c * 2 ^ (i + 4)) ONE
  have hmod := Nat.mod_lt (c * 2 ^ (i + 4)) ONE_pos
  obtain ⟨c', hc', hrest⟩ := mod_units (i := i + 4) hc
  rw [hrest, Nat.mul_comm ONE] at hdiv
  rw [hrest] at hmod
  exact ⟨_, hd, c', hc', hdiv.symm, hmod⟩

/-- **No digit is rounded up**: what is left and half a unit make no more than one. -/
theorem no_carry {c i j d : ℕ} (hlt : c * 2 ^ i < ONE) (hji : j ≤ i) :
    (((Double.fin false (c * 2 ^ i)).gt HALF || (Double.fin false (c * 2 ^ i)).eq HALF && d % 2 = 1)
      && ((Double.fin false (c * 2 ^ i)).add (.fin false (2 ^ j))).gt .one) = false := by
  rcases Nat.eq_zero_or_pos c with rfl | hpos
  · have hhalf := Nat.two_pow_pos 1073
    have hgt : (Double.fin false (0 * 2 ^ i)).gt HALF = false := by
      rw [HALF, Bool.eq_false_iff, Ne, gt_pos, Nat.zero_mul]
      omega
    have heq : (Double.fin false (0 * 2 ^ i)).eq HALF = false := by
      rw [HALF, Bool.eq_false_iff, Ne, eq_pos, Nat.zero_mul]
      omega
    rw [hgt, heq]
    rfl
  · have hi : i < 1074 := (Nat.pow_lt_pow_iff_right Nat.one_lt_two).1
      ((Nat.le_mul_of_pos_left _ hpos).trans_lt hlt)
    have hunit : 2 ^ j ∣ c * 2 ^ i := Nat.dvd_mul_left_of_dvd (Nat.pow_dvd_pow 2 hji) c
    have hone : 2 ^ j ∣ ONE := Nat.pow_dvd_pow 2 (hji.trans hi.le)
    have hle : c * 2 ^ i + 2 ^ j ≤ ONE := by
      obtain ⟨u, hu⟩ := hunit
      obtain ⟨v, hv⟩ := hone
      rw [hu, hv] at hlt ⊢
      rw [← Nat.mul_succ]
      exact Nat.mul_le_mul_left _ (Nat.lt_of_mul_lt_mul_left hlt)
    have hround := round53_le_whole (n := c * 2 ^ i + 2 ^ j) (k := 1) Nat.one_pos (by omega)
      (by rwa [Nat.one_mul, Nat.mul_one])
    rw [Nat.one_mul] at hround
    have hhuge : ONE < HUGE := pow_lt_huge (by omega)
    rw [add_fin_fin, ofQuot_lt (hround.trans_lt hhuge), Bool.and_eq_false_iff]
    right
    rw [one, Bool.eq_false_iff, Ne, gt_pos]
    exact Nat.not_lt.2 hround

/-- A magnitude of few bits times sixteen. -/
theorem mul_sixteen {c i : ℕ} (hc : c < 2 ^ 53) (hi : i < 1074) :
    (Double.fin false (c * 2 ^ i)).mul RADIX = .fin false (c * 2 ^ i * 16) := by
  have hhuge : c * 2 ^ i * 2 ^ 4 < HUGE := by
    rw [Nat.mul_assoc, ← Nat.pow_add]
    exact mul_pow_lt hc (by omega)
  rw [RADIX, show (16 : ℕ) = 2 ^ 4 from rfl, mul_radix (by omega) ⟨c, i, hc, rfl⟩,
    if_neg (Nat.not_le.2 hhuge)]

/-- **The loop takes the digits of a fraction** until nothing is left. -/
theorem digitLoop_spec {fuel c i j : ℕ} (hc : c < 2 ^ 53) (hpos : 0 < c) (hlt : c * 2 ^ i < ONE)
    (hji : j ≤ i) (hfuel : 1074 ≤ i + 4 * fuel) (integer : Double) (acc : List ℕ) :
    ∃ ds, digitLoop fuel integer (.fin false (c * 2 ^ i)) (.fin false (2 ^ j)) acc =
        some (integer, ds ++ acc) ∧ ds ≠ [] ∧ (∀ d ∈ ds, d < 16) ∧
      Nat.ofDigits 16 ds * ONE = c * 2 ^ i * 16 ^ ds.length := by
  induction fuel generalizing c i j acc with
  | zero =>
      have hi : i < 1074 := (Nat.pow_lt_pow_iff_right Nat.one_lt_two).1
        ((Nat.le_mul_of_pos_left _ hpos).trans_lt hlt)
      omega
  | succ fuel ih =>
      have hi : i < 1074 := (Nat.pow_lt_pow_iff_right Nat.one_lt_two).1
        ((Nat.le_mul_of_pos_left _ hpos).trans_lt hlt)
      obtain ⟨d, hd, c', hc', hstep, hlt'⟩ := digit_step hc hlt
      have hdelta : (Double.fin false (2 ^ j)).mul RADIX = .fin false (2 ^ (j + 4)) := by
        have h := mul_sixteen (c := 1) (i := j) (by omega) (by omega)
        rw [Nat.one_mul] at h
        rw [h, Nat.pow_add]
      have hdigit : (Double.fin false (d * ONE + c' * 2 ^ (i + 4))).toU 8 = d := by
        have hdiv : (d * ONE + c' * 2 ^ (i + 4)) / ONE = d := by
          rw [Nat.add_comm, Nat.add_mul_div_right _ _ ONE_pos, Nat.div_eq_of_lt hlt', Nat.zero_add]
        rw [toU_fin (by omega), hdiv]
      have hsub := sub_exact (m := d * ONE + c' * 2 ^ (i + 4)) rfl hc'
        (hlt'.trans (pow_lt_huge (by omega)))
      have hwhole : Double.ofNat d = .fin false (d * ONE) := ofNat_exact (by omega)
      rw [digitLoop]
      simp only [mul_sixteen hc hi, hdelta, hstep, hdigit, hwhole, hsub,
        no_carry hlt' (show j + 4 ≤ i + 4 by omega), Bool.false_eq_true, if_false]
      split
      · next hdone =>
          -- nothing is left
          rw [lt_pos] at hdone
          have hzero : c' = 0 := by
            by_contra hne
            have hle := Nat.pow_le_pow_right Nat.two_pos (show j + 4 ≤ i + 4 by omega)
            have := Nat.le_mul_of_pos_left (2 ^ (i + 4)) (Nat.pos_of_ne_zero hne)
            omega
          rw [hzero, Nat.zero_mul, Nat.add_zero] at hstep
          refine ⟨[d], rfl, by simp, by simpa using hd, ?_⟩
          rw [Nat.ofDigits_singleton, List.length_singleton, Nat.pow_one, hstep]
      · next hmore =>
          rw [lt_pos, Nat.not_lt] at hmore
          have hpos' : 0 < c' := by
            rcases Nat.eq_zero_or_pos c' with rfl | h
            · rw [Nat.zero_mul] at hmore
              exact absurd hmore (Nat.not_le.2 (Nat.two_pow_pos _))
            · exact h
          obtain ⟨ds, hrun, hne, hds, hval⟩ :=
            ih hc' hpos' hlt' (show j + 4 ≤ i + 4 by omega) (by omega) (d :: acc)
          refine ⟨ds ++ [d], ?_, by simp, ?_, ?_⟩
          · rw [hrun, List.append_assoc, List.singleton_append]
          · intro x hx
            rcases List.mem_append.1 hx with hx | hx
            · exact hds x hx
            · exact List.mem_singleton.1 hx ▸ hd
          · rw [Nat.ofDigits_append, Nat.ofDigits_singleton, List.length_append,
              List.length_singleton, Nat.add_mul, hval]
            generalize ONE = u at hstep ⊢
            calc c' * 2 ^ (i + 4) * 16 ^ ds.length + 16 ^ ds.length * d * u
                = 16 ^ ds.length * (d * u + c' * 2 ^ (i + 4)) := by ring
              _ = 16 ^ ds.length * (c * 2 ^ i * 16) := by rw [hstep]
              _ = c * 2 ^ i * 16 ^ (ds.length + 1) := by ring

/-! ## The numeral -/

theorem getElem_digits {d : ℕ} (h : d < 16) : RADIX_DIGITS[d]? = some (Numeral.fromDigit d) := by
  have hall : ∀ d < 16, RADIX_DIGITS[d]? = some (Numeral.fromDigit d) := by decide
  exact hall d h

theorem fromDigit_mem {d : ℕ} (h : d < 16) : Numeral.fromDigit d ∈ RADIX_DIGITS :=
  List.mem_of_getElem? (getElem_digits h)

theorem mapM_digits {ds : List ℕ} (h : ∀ d ∈ ds, d < 16) :
    (ds.mapM fun d => RADIX_DIGITS[d]?) = some (ds.map Numeral.fromDigit) := by
  induction ds with
  | nil => rfl
  | cons d ds ih =>
      obtain ⟨hd, hds⟩ := List.forall_mem_cons.1 h
      rw [List.mapM_cons, getElem_digits hd, ih hds]
      rfl

theorem point_not_mem {s : List Char} (h : ∀ c ∈ s, c ∈ RADIX_DIGITS) : '.' ∉ s :=
  fun hmem => absurd (h '.' hmem) (by decide)

/-- The text of an integer part and of the digits behind the point, the last one first. -/
def text (n : ℕ) (digits : List ℕ) : List Char :=
  if digits = [] then Numeral.numeral 16 n
  else Numeral.numeral 16 n ++ '.' :: digits.reverse.map Numeral.fromDigit

theorem numeral_mem {n : ℕ} {c : Char} (h : c ∈ Numeral.numeral 16 n) : c ∈ RADIX_DIGITS := by
  obtain ⟨d, hd, rfl⟩ := Numeral.exists_of_mem_numeral (by omega) h
  exact fromDigit_mem hd

theorem map_fromDigit_mem {ds : List ℕ} (h : ∀ d ∈ ds, d < 16) {c : Char}
    (hc : c ∈ ds.map Numeral.fromDigit) : c ∈ RADIX_DIGITS := by
  obtain ⟨d, hd, rfl⟩ := List.mem_map.1 hc
  exact fromDigit_mem (h d hd)

/-- **A text reads back.** -/
theorem hexValue_text (n : ℕ) {ds : List ℕ} (h : ∀ d ∈ ds, d < 16) :
    hexValue (text n ds) = some ((n : ℚ) + ((Nat.ofDigits 16 ds : ℕ) : ℚ) / 16 ^ ds.length) := by
  have hwhole := Numeral.ofDigits_numeral (b := 16) (by omega) (by omega) n
  have hpoint : '.' ∉ Numeral.numeral 16 n := point_not_mem fun c => numeral_mem
  rw [text]
  split
  · next hnil =>
      rw [hexValue, List.splitOn_eq_singleton hpoint]
      dsimp only
      rw [hwhole, hnil, Nat.ofDigits_nil, Nat.cast_zero, zero_div, add_zero, Option.map_some]
  · have hrev : ∀ d ∈ ds.reverse, d < 16 := fun d hd => h d (List.mem_reverse.1 hd)
    have hpoint' : '.' ∉ ds.reverse.map Numeral.fromDigit :=
      point_not_mem fun c => map_fromDigit_mem hrev
    rw [hexValue, List.splitOn_append_cons_self_of_not_mem hpoint,
      List.splitOn_eq_singleton hpoint']
    dsimp only
    rw [hwhole, Numeral.ofDigits_map (by omega) h, List.length_map, List.length_reverse]
    rfl

theorem text_mem {n : ℕ} {ds : List ℕ} (h : ∀ d ∈ ds, d < 16) {c : Char} (hc : c ∈ text n ds) :
    c = '.' ∨ c ∈ RADIX_DIGITS := by
  rw [text] at hc
  split at hc
  · exact Or.inr (numeral_mem hc)
  · rcases List.mem_append.1 hc with hc | hc
    · exact Or.inr (numeral_mem hc)
    · rcases List.mem_cons.1 hc with rfl | hc
      · exact Or.inl rfl
      · exact Or.inr (map_fromDigit_mem (fun d hd => h d (List.mem_reverse.1 hd)) hc)

/-- What is done with the digits. -/
theorem text_eq {n : ℕ} {ds : List ℕ} (h : ∀ d ∈ ds, d < 16) :
    (if ds = [] then some (Numeral.numeral 16 n)
      else (ds.reverse.mapM fun d => RADIX_DIGITS[d]?).bind fun s =>
        some (Numeral.numeral 16 n ++ '.' :: s)) = some (text n ds) := by
  rw [text]
  split
  · rfl
  · rw [mapM_digits fun d hd => h d (List.mem_reverse.1 hd), Option.bind_some]

/-- A double that is not below zero. -/
theorem plain {neg : Bool} {m : ℕ} (h : neg = true → m = 0) :
    (!(Double.fin neg m).isFinite || (Double.fin neg m).lt .zero) = false := by
  rw [isFinite, Bool.not_true, Bool.false_or, Bool.eq_false_iff, Ne, lt, zero, cmp_fin,
    beq_iff_eq, Option.some.injEq, Int.compare_eq_lt, signed, signed]
  rcases neg with _ | _
  · rw [if_neg Bool.false_ne_true]
    omega
  · rw [h rfl]
    simp

/-- Nothing is left of a double that is zero. -/
theorem zero_ge_fmax (x : Double) :
    (Double.fin false 0).ge (Double.fmax x (.fin false 1)) = false := by
  have hone : (Double.fin false 0).ge (.fin false 1) = false := by
    rw [Bool.eq_false_iff, Ne, ge_pos]
    omega
  rw [Double.fmax, if_neg (show ¬(Double.fin false 1).isNan = true by simp [isNan])]
  split
  · exact hone
  split
  · next hgt =>
      rcases x with - | (- | -) | ⟨a, m⟩
      · cases hgt
      · rfl
      · cases hgt
      · rw [gt, cmp_fin, beq_iff_eq, Option.some.injEq, Int.compare_eq_gt] at hgt
        rw [ge_fin, decide_eq_false_iff_not]
        simp only [signed, Bool.false_eq_true, if_false] at hgt ⊢
        omega
  · exact hone

/-- The numeral of the negative zero. -/
theorem hexRadix_neg_zero (fuel : ℕ) : hexRadix fuel (.fin true 0) = some (text 0 []) := by
  have hfloor : (Double.fin true 0).floor = .fin true 0 := by
    rw [floor, Nat.zero_mod, Nat.zero_div, if_neg (by simp), Nat.zero_mul]
  have hsub : (Double.fin true 0).sub (.fin true 0) = .fin false 0 := rfl
  have hint : (Double.fin true 0).toU 64 = 0 := by
    rw [toU, Double.cast, signed, if_pos rfl, Nat.zero_div]
    rfl
  rw [hexRadix, plain (fun _ => rfl), if_neg Bool.false_ne_true]
  simp only [hfloor, hsub, nextDouble_zero, zero_ge_fmax, Bool.false_eq_true, if_false]
  rw [Option.bind_eq_bind, Option.bind_some]
  simp only [hint, if_true]
  rfl

/-- **The numeral** is made of the whole part and of the digits of the rest. -/
theorem hexRadix_fin {m fuel : ℕ} (hm : IsDouble m) (hlt : m < 2 ^ 64 * ONE) (hfuel : 269 ≤ fuel) :
    ∃ ds, hexRadix fuel (.fin false m) = some (text (m / ONE) ds) ∧ (∀ d ∈ ds, d < 16) ∧
      Nat.ofDigits 16 ds * ONE = m % ONE * 16 ^ ds.length := by
  obtain ⟨a, ha, hma, -⟩ := hm.normal
  have hwhole : m / ONE < 2 ^ 64 := (Nat.div_lt_iff_lt_mul ONE_pos).2 hlt
  have hbound : m < 2 ^ 2000 := by
    refine hlt.trans_le ?_
    rw [pow_mul_one]
    exact Nat.pow_le_pow_right Nat.two_pos (by omega)
  obtain ⟨c, hc, hrest⟩ := mod_units (i := m.log2 - 52) ha
  rw [← hma] at hrest
  have hmod := Nat.mod_lt m ONE_pos
  have hfloor : (Double.fin false m).floor = .fin false (m / ONE * ONE) := rfl
  have hsplit : m = m / ONE * ONE + c * 2 ^ (m.log2 - 52) := by
    rw [← hrest, Nat.mul_comm]
    exact (Nat.div_add_mod m ONE).symm
  have hsub : (Double.fin false m).sub (.fin false (m / ONE * ONE)) = .fin false (m % ONE) := by
    have h := sub_exact hsplit hc (hrest ▸ hmod.trans (pow_lt_huge (by omega)))
    rw [h, hrest]
  have hint : (Double.fin false (m / ONE * ONE)).toU 64 = m / ONE := by
    have hdiv := Nat.mul_div_cancel (m / ONE) ONE_pos
    rw [toU_fin (by rwa [hdiv]), hdiv]
  rw [hexRadix, plain (fun h => Bool.noConfusion h), if_neg Bool.false_ne_true]
  simp only [hfloor, hsub, delta_eq hm hbound]
  split
  · next hge =>
      have hpos : 0 < c := by
        rw [ge_pos, hrest] at hge
        exact Nat.pos_of_mul_pos_right ((Nat.two_pow_pos _).trans_le hge)
      rw [hrest]
      obtain ⟨ds, hrun, hne, hds, hval⟩ := digitLoop_spec (j := m.log2 - 53) hc hpos (hrest ▸ hmod)
        (by omega) (show 1074 ≤ m.log2 - 52 + 4 * fuel by omega)
        (.fin false (m / ONE * ONE)) []
      refine ⟨ds, ?_, hds, hval⟩
      rw [hrun, Option.bind_eq_bind, Option.bind_some, List.append_nil]
      simp only [hint]
      exact text_eq hds
  · next hge =>
      have hzero : m % ONE = 0 := by
        rw [ge_pos, hrest, Nat.not_le] at hge
        rw [hrest, Nat.mul_eq_zero]
        left
        have hle : 2 ^ (m.log2 - 53) ≤ 2 ^ (m.log2 - 52) :=
          Nat.pow_le_pow_right Nat.two_pos (by omega)
        exact Nat.lt_one_iff.1 (Nat.lt_of_mul_lt_mul_right
          (hge.trans_le (hle.trans_eq (Nat.one_mul _).symm)))
      refine ⟨[], ?_, by simp, by rw [hzero, Nat.zero_mul, Nat.ofDigits_nil, Nat.zero_mul]⟩
      rw [Option.bind_eq_bind, Option.bind_some]
      simp only [hint]
      rfl

/-- The rational that a numeral denotes. -/
theorem value_eq {m k len : ℕ} (h : k * ONE = m % ONE * 16 ^ len) :
    (((m / ONE : ℕ) : ℚ) + (k : ℚ) / 16 ^ len) * ONE = m := by
  have hpow : (16 : ℚ) ^ len ≠ 0 := pow_ne_zero _ (by norm_num)
  have hfrac : (k : ℚ) / 16 ^ len * ONE = ((m % ONE : ℕ) : ℚ) := by
    rw [div_mul_eq_mul_div, div_eq_iff hpow]
    exact_mod_cast h
  have hdiv := congrArg (Nat.cast (R := ℚ)) (Nat.div_add_mod' m ONE)
  rw [Nat.cast_add, Nat.cast_mul] at hdiv
  rw [add_mul, hfrac, hdiv]

/-- **A numeral is of the double it was printed for**: it has the digits of an alphabet only, and
what it denotes rounds to the double. -/
theorem hexRadix_reads {b : BitVec 64} {fuel : ℕ} (hge : (ofBits b).ge .zero = true)
    (hlt : (ofBits b).lt (.fin false (2 ^ 64 * ONE)) = true) (hfuel : 269 ≤ fuel) :
    ∃ s q, hexRadix fuel (ofBits b) = some s ∧ hexValue s = some q ∧ ofRat q = (ofBits b).abs ∧
      ∀ c ∈ s, c = '.' ∨ c ∈ RADIX_DIGITS := by
  -- the digits of the magnitude
  obtain ⟨neg, m, ds, hb, hrun, hds, hval⟩ : ∃ neg m ds, ofBits b = .fin neg m ∧
      hexRadix fuel (ofBits b) = some (text (m / ONE) ds) ∧ (∀ d ∈ ds, d < 16) ∧
      Nat.ofDigits 16 ds * ONE = m % ONE * 16 ^ ds.length := by
    rcases hx : ofBits b with - | (- | -) | ⟨- | -, m⟩
    · rw [hx] at hge
      cases hge
    · rw [hx] at hlt
      cases hlt
    · rw [hx] at hge
      cases hge
    · rw [hx, lt_pos] at hlt
      obtain ⟨ds, hds⟩ := hexRadix_fin (isDouble_ofBits hx) hlt hfuel
      exact ⟨false, m, ds, rfl, hds⟩
    · rw [hx, zero, ge_fin, decide_eq_true_iff, signed, signed, if_pos rfl,
        if_neg Bool.false_ne_true] at hge
      obtain rfl : m = 0 := by omega
      refine ⟨true, 0, [], rfl, ?_, by simp, by rw [Nat.zero_mod, Nat.ofDigits_nil]; simp⟩
      rw [hexRadix_neg_zero, Nat.zero_div]
  refine ⟨_, _, hrun, hexValue_text (m / ONE) hds, ?_, fun c => text_mem hds⟩
  have hpos : (0 : ℚ) ≤ ((m / ONE : ℕ) : ℚ) + ((Nat.ofDigits 16 ds : ℕ) : ℚ) / 16 ^ ds.length :=
    add_nonneg (Nat.cast_nonneg _) (div_nonneg (Nat.cast_nonneg _) (pow_nonneg (by norm_num) _))
  have hexact := ofRat_exact (isDouble_ofBits hb) (by rw [abs_of_nonneg hpos]; exact value_eq hval)
  rw [decide_eq_false (not_lt.2 hpos)] at hexact
  rw [hb, Double.abs]
  exact hexact

/-- A bound on few bits. -/
theorem units_lt {c i : ℕ} (hc : c < 2 ^ 53) (hi : i ≤ 1085) : c * 2 ^ i < 2 ^ 64 * ONE := by
  refine (Nat.mul_lt_mul_of_pos_right hc (Nat.two_pow_pos i)).trans_le ?_
  rw [pow_mul_one, ← Nat.pow_add]
  exact Nat.pow_le_pow_right Nat.two_pos (by omega)

theorem hexRadix_reads_three_halves :
    ∃ s q, hexRadix 269 (ofBits (.ofNat 64 (1023 * 2 ^ 52 + 2 ^ 51))) = some s ∧
      hexValue s = some q ∧
      ofRat q = (ofBits (.ofNat 64 (1023 * 2 ^ 52 + 2 ^ 51))).abs ∧
      ∀ c ∈ s, c = '.' ∨ c ∈ RADIX_DIGITS := by
  have hb := ofBits_ofNat 1023 (2 ^ 51) (by omega) (by omega)
  rw [if_neg (by omega)] at hb
  refine hexRadix_reads ?_ ?_ le_rfl
  · rw [hb, zero, ge_pos]
    exact Nat.zero_le _
  · rw [hb, lt_pos]
    exact units_lt (by omega) (by omega)

end Values
end Lunar
