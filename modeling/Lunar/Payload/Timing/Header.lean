/-
# The timing header

`payload/timing.rs` (`push_radix32`, `js_round`, `header`): fourteen spans of a timeline, each
under its number, in an order and with separators that are drawn.  The separators are no digits,
so the header can be cut at them and every field read back (`header_decodes`).

The bytes are ASCII and stand as characters.  `none` is a panic.
-/

import Lunar.Payload.Timing
import Lunar.Lib.Numeral
import Mathlib.Data.List.Perm.Basic
import Mathlib.Tactic.Ring
import Mathlib.Algebra.Ring.Nat

namespace Lunar
namespace Timing

open Lib Double

def MARKER : Char := '1'

def ALPHABET : List Char := "0123456789abcdefghijklmnopqrstuv".toList

def DELIMS : List Char := "wxyz".toList

/-- A number of `rng.random`: a multiple of `2 ^ -53` below one. -/
structure Uniform where
  steps : ℕ
  lt : steps < 2 ^ 53

def Uniform.value (u : Uniform) : Double := .fin false (u.steps * 2 ^ 1021)

/-- `js_round`. -/
def jsRound (x : Double) : Double := (x.add (.fin false (2 ^ 1073))).floor

/-- The loop of `push_radix32`, from place `i` of its buffer on. -/
def pushDigits : ℕ → ℕ → List Char → Option (List Char)
  | i, v, buf =>
    if v = 0 then some buf
    else match i with
      | 0 => none
      | i + 1 => do
        let c ← ALPHABET[v % 32]?
        pushDigits i (v / 32) (c :: buf)

def pushRadix32 (out : List Char) (n : ℤ) : Option (List Char) :=
  if n = 0 then some (out ++ ['0'])
  else do
    let out := if n < 0 then out ++ ['-'] else out
    let buf ← pushDigits 16 n.natAbs []
    return out ++ buf

/-- `Vec::swap_remove`: the last entry takes the place. -/
def swapRemove {α : Type} (l : List α) (i : Fin l.length) : α × List α :=
  (l.get i, (l.set i (l.getLast (List.length_pos_iff.1 (i.val.zero_le.trans_lt i.isLt)))).dropLast)

theorem length_swapRemove {α : Type} (l : List α) (i : Fin l.length) :
    (swapRemove l i).2.length < l.length := by
  have hi := i.isLt
  rw [swapRemove, List.length_dropLast, List.length_set]
  omega

/-- Where the next field is taken from. -/
def pick {α : Type} (u : Uniform) (l : List α) (hne : l ≠ []) : Fin l.length where
  val := min ((u.value.mul (.ofNat l.length)).floor.toU 64) (l.length - 1)
  isLt := by
    have := List.length_pos_iff.2 hne
    omega

/-- The separator in front of a field. -/
def delim (u : Uniform) : Option Char :=
  DELIMS[((u.value.mul (.ofNat DELIMS.length)).floor).toU 64]?

/-- The loop of `header`; `n` numbers have been drawn. -/
def headerLoop (rng : ℕ → Uniform) (fields : List (ℕ × Double)) (out : List Char) (first : Bool)
    (n : ℕ) : Option (List Char) :=
  if hne : fields = [] then some out
  else
    let removed := swapRemove fields (pick (rng n) fields hne)
    let v := jsRound removed.1.2
    if v.isFinite = false then headerLoop rng removed.2 out first (n + 1)
    else if first then do
      let c ← ALPHABET[removed.1.1]?
      let out ← pushRadix32 (out ++ [c]) (v.toI 64)
      headerLoop rng removed.2 out false (n + 1)
    else do
      let d ← delim (rng (n + 1))
      let c ← ALPHABET[removed.1.1]?
      let out ← pushRadix32 (out ++ [d, c]) (v.toI 64)
      headerLoop rng removed.2 out false (n + 2)
  termination_by fields.length
  decreasing_by all_goals exact length_swapRemove _ _

def Timeline.header (t : Timeline) (rng : ℕ → Uniform) : Option (List Char) :=
  headerLoop rng t.fields [MARKER] true 0

/-! ## Reading a header -/

/-- A signed number in base 32. -/
def readSigned : List Char → Option ℤ
  | '-' :: ds => if ds = [] then none else (Text.ofDigits 32 ds).map fun n : ℕ => -(n : ℤ)
  | ds => if ds = [] then none else (Text.ofDigits 32 ds).map Int.ofNat

/-- A field: its number, and a signed number in base 32. -/
def readField : List Char → Option (ℕ × ℤ)
  | c :: ds => do
    let id ← Text.digit 32 c
    let v ← readSigned ds
    return (id, v)
  | [] => none

/-- A header: the marker, and fields between separators. -/
def readHeader : List Char → Option (List (ℕ × ℤ))
  | c :: cs => if c = MARKER then (cs.splitOnP (· ∈ DELIMS)).mapM readField else none
  | [] => none

/-! ## Numbers in base 32 -/

theorem alphabet_get {d : ℕ} (h : d < 32) : ALPHABET[d]? = some (Numeral.fromDigit d) := by
  have hall : ∀ d < 32, ALPHABET[d]? = some (Numeral.fromDigit d) := by decide
  exact hall d h

theorem pushDigits_eq {i v : ℕ} (h : v < 32 ^ i) (buf : List Char) :
    pushDigits i v buf = some ((Nat.digits 32 v).reverse.map Numeral.fromDigit ++ buf) := by
  induction i generalizing v buf with
  | zero =>
      obtain rfl : v = 0 := by omega
      rfl
  | succ i ih =>
      rw [pushDigits]
      split
      · next hv =>
          rw [hv]
          rfl
      · next hv =>
          rw [alphabet_get (Nat.mod_lt v (by omega)), Option.bind_eq_bind, Option.bind_some,
            ih (by omega), Numeral.digits_eq (by omega) hv, List.append_assoc]
          rfl

/-- The text of a signed number. -/
def signedText (n : ℤ) : List Char :=
  (if n < 0 then ['-'] else []) ++ Numeral.numeral 32 n.natAbs

theorem pushRadix32_eq (out : List Char) {n : ℤ} (h : n.natAbs < 2 ^ 64) :
    pushRadix32 out n = some (out ++ signedText n) := by
  rw [pushRadix32, signedText, Numeral.numeral]
  split
  · next hn =>
      subst hn
      rfl
  · next hn =>
      have habs : n.natAbs ≠ 0 := by omega
      rw [pushDigits_eq (by omega), Option.bind_eq_bind, Option.bind_some, if_neg habs,
        List.append_nil]
      by_cases hneg : n < 0
      · rw [if_pos hneg, if_pos hneg, ← List.append_assoc]
        rfl
      · rw [if_neg hneg, if_neg hneg, List.nil_append]
        rfl

theorem numeral_head {n : ℕ} {b : ℕ} (hb : 2 ≤ b) (hb' : b ≤ 36) (cs : List Char) :
    Numeral.numeral b n ≠ '-' :: cs := by
  intro h
  have hmem : '-' ∈ Numeral.numeral b n := h ▸ List.mem_cons_self
  obtain ⟨d, hd, hc⟩ := Numeral.exists_of_mem_numeral hb hmem
  exact (Numeral.fromDigit_ne (by omega)).1 hc.symm

/-- **A signed number reads back.** -/
theorem readSigned_signedText (n : ℤ) : readSigned (signedText n) = some n := by
  have hread := Numeral.ofDigits_numeral (b := 32) (by omega) (by omega) n.natAbs
  have hne := Numeral.numeral_ne_nil 32 n.natAbs
  rw [signedText]
  by_cases hneg : n < 0
  · rw [if_pos hneg, List.singleton_append, readSigned, if_neg hne, hread, Option.map_some]
    congr 1
    omega
  · rw [if_neg hneg, List.nil_append, readSigned.eq_2 _ (numeral_head (by omega) (by omega)),
      if_neg hne, hread, Option.map_some]
    congr 1
    exact Int.natAbs_of_nonneg (by omega)

/-! ## Spans are finite -/

/-- Finite, of a magnitude up to `2 ^ j`. -/
def Within (j : ℕ) (x : Double) : Prop := ∃ neg m, x = .fin neg m ∧ m ≤ 2 ^ (1074 + j)

theorem Within.mono {j k : ℕ} {x : Double} (h : Within j x) (hjk : j ≤ k) : Within k x := by
  obtain ⟨neg, m, rfl, hm⟩ := h
  exact ⟨neg, m, rfl, hm.trans (Nat.pow_le_pow_right Nat.two_pos (by omega))⟩

theorem within_ofQuot (neg : Bool) {n d j : ℕ} (hd : 0 < d) (hj : j < 1024)
    (h : n ≤ 2 ^ (1074 + j) * d) : Within j (ofQuot neg n d) := by
  have hexact := round53_exact (m := 1) (j := 1074 + j) (by omega) hd
  rw [Nat.one_mul] at hexact
  have hle := (round53_mono hd hd (Nat.mul_le_mul_right d h)).trans hexact.le
  have hhuge : 2 ^ (1074 + j) < HUGE := Nat.pow_lt_pow_right Nat.one_lt_two (by omega)
  rw [ofQuot, if_neg (Nat.not_le.2 (hle.trans_lt hhuge))]
  exact ⟨neg, _, rfl, hle⟩

theorem Within.add {j : ℕ} {x y : Double} (hx : Within j x) (hy : Within j y) (hj : j < 1023) :
    Within (j + 1) (x.add y) := by
  obtain ⟨a, m, rfl, hm⟩ := hx
  obtain ⟨b, n, rfl, hn⟩ := hy
  have hsum : (signed a m + signed b n).natAbs ≤ 2 ^ (1074 + (j + 1)) * 1 := by
    rw [← Nat.add_assoc, Nat.pow_succ]
    generalize 2 ^ (1074 + j) = u at *
    rw [signed, signed]
    split <;> split <;> omega
  rw [Double.add, addFin]
  split
  · exact ⟨_, 0, rfl, Nat.zero_le _⟩
  · exact within_ofQuot _ Nat.one_pos (by omega) hsum

theorem Within.neg {j : ℕ} {x : Double} (h : Within j x) : Within j x.neg := by
  obtain ⟨a, m, rfl, hm⟩ := h
  exact ⟨!a, m, rfl, hm⟩

theorem Within.fmax {j : ℕ} {x y : Double} (hx : Within j x) (hy : Within j y) :
    Within j (fmax x y) := by
  rw [Double.fmax]
  split
  · exact hy
  split
  · exact hx
  split
  · exact hx
  · exact hy

/-- A stamp in milliseconds. -/
theorem within_stamp (n : ℕ) : Within 64 ((ofNat (n % 2 ^ 64)).div (.ofNat 1000)) := by
  have hn : n % 2 ^ 64 < 2 ^ 64 := Nat.mod_lt _ (Nat.two_pow_pos 64)
  obtain ⟨neg, m, hm, hle⟩ : Within 64 (ofNat (n % 2 ^ 64)) := by
    refine within_ofQuot false Nat.one_pos (by omega) ?_
    rw [Nat.mul_one, Nat.add_comm, ← pow_mul_one]
    exact Nat.mul_le_mul_right _ hn.le
  have hne : 1000 * ONE ≠ 0 := Nat.mul_ne_zero (by omega) ONE_pos.ne'
  rw [hm, ofNat_exact (by omega), div, if_neg hne]
  exact within_ofQuot _ (Nat.pos_of_ne_zero hne) (by omega)
    (Nat.mul_le_mul hle (Nat.le_mul_of_pos_left _ (by omega)))

theorem within_span (t : Timeline) (a b : ℕ) : Within 65 (t.span a b) := by
  rw [Timeline.span, sub]
  exact (within_stamp (t.uptimeUs + b)).add (within_stamp (t.uptimeUs + a)).neg (by omega)

theorem within_half : Within 0 (.fin false (2 ^ 1073)) :=
  ⟨false, _, rfl, Nat.pow_le_pow_right Nat.two_pos (by omega)⟩

/-- Rounding keeps a double finite. -/
theorem Within.jsRound {j : ℕ} {x : Double} (h : Within j x) (hj : j < 1023) :
    (jsRound x).isFinite = true := by
  obtain ⟨neg, m, hm, -⟩ := h.add (within_half.mono (Nat.zero_le j)) hj
  rw [Timing.jsRound, hm]
  rfl

/-- **No field is dropped.** -/
theorem fields_finite (t : Timeline) : ∀ f ∈ t.fields, (jsRound f.2).isFinite = true := by
  have hspan (a b : ℕ) : Within 66 (t.span a b) := (within_span t a b).mono (by omega)
  have hone : Within 66 MIN_COLLECT_FIELD :=
    ⟨false, _, rfl, Nat.pow_le_pow_right Nat.two_pos (by omega)⟩
  have hall : ∀ f ∈ t.fields, Within 66 f.2 := by
    simp only [Timeline.fields, List.flatMap_cons, List.flatMap_nil, List.append_nil,
      List.cons_append, List.nil_append, List.forall_mem_cons, hspan, hone, Within.fmax, true_and]
    exact ⟨(within_span t _ _).add (within_span t _ _) (by omega), by simp⟩
  exact fun f hf => (hall f hf).jsRound (by omega)

theorem fields_ids (t : Timeline) : t.fields.map Prod.fst = List.range 14 := rfl

/-! ## The loop -/

/-- What a reader gets of a field. -/
def reading (f : ℕ × Double) : ℕ × ℤ := (f.1, (jsRound f.2).toI 64)

/-- The text of a field. -/
def piece (f : ℕ × ℤ) : List Char := Numeral.fromDigit f.1 :: signedText f.2

/-- An entry and the list with another in its place. -/
theorem set_perm {α : Type} (l : List α) {i : ℕ} (hi : i < l.length) (x : α) :
    (l[i] :: l.set i x).Perm (x :: l) := by
  induction l generalizing i with
  | nil => cases hi
  | cons y l ih =>
      cases i with
      | zero => exact List.Perm.swap x y l
      | succ i =>
          have hperm := ih (Nat.lt_of_succ_lt_succ hi)
          exact (List.Perm.swap y _ _).trans ((hperm.cons y).trans (List.Perm.swap x y l))

theorem swapRemove_perm {α : Type} (l : List α) (i : Fin l.length) :
    ((swapRemove l i).1 :: (swapRemove l i).2).Perm l := by
  have hne : l ≠ [] := List.length_pos_iff.1 (i.val.zero_le.trans_lt i.isLt)
  obtain ⟨front, last, rfl⟩ : ∃ front last, l = front ++ [last] :=
    ⟨_, _, (List.dropLast_append_getLast hne).symm⟩
  obtain ⟨i, hi⟩ := i
  rw [swapRemove, List.get_eq_getElem]
  simp only [List.getLast_append_singleton]
  rw [List.length_append, List.length_singleton] at hi
  rcases Nat.lt_or_ge i front.length with hlt | hge
  · rw [List.set_append_left _ _ hlt, List.dropLast_concat, List.getElem_append_left hlt]
    exact (set_perm front hlt last).trans (List.perm_append_singleton last front).symm
  · obtain rfl : i = front.length := by omega
    rw [List.set_append_right _ _ le_rfl, Nat.sub_self, List.set_cons_zero, List.dropLast_concat,
      List.getElem_concat_length rfl]
    exact (List.perm_append_singleton last front).symm

/-- There is a separator for every number that is drawn. -/
theorem delim_spec (u : Uniform) : ∃ d ∈ DELIMS, delim u = some d := by
  have hfour : DELIMS.length = 4 := rfl
  have hlt := u.lt
  have hquot : u.steps * 2 ^ 1021 * (4 * ONE) = u.steps * 2 ^ 1023 * ONE := by
    rw [Nat.pow_succ 2 1022, Nat.pow_succ 2 1021]
    generalize 2 ^ 1021 = w
    ring
  have hhuge : u.steps * 2 ^ 1023 < HUGE := by
    have hpow : 2 ^ 53 * 2 ^ 1023 < HUGE := by
      rw [← Nat.pow_add, HUGE]
      exact Nat.pow_lt_pow_right Nat.one_lt_two (by omega)
    exact (Nat.mul_le_mul_right _ hlt.le).trans_lt hpow
  have hsteps : u.steps * 2 ^ 1023 / ONE = u.steps / 2 ^ 51 := by
    have hone : ONE = 2 ^ 51 * 2 ^ 1023 := by rw [ONE, ← Nat.pow_add]
    rw [hone, Nat.mul_div_mul_right _ _ (Nat.two_pow_pos 1023)]
  have hindex : ((u.value.mul (.ofNat DELIMS.length)).floor).toU 64 = u.steps / 2 ^ 51 := by
    rw [hfour, Uniform.value, ofNat_exact (by omega), mul, hquot, bne_self_eq_false,
      ofQuot_exact false hlt ONE_pos hhuge, floor, if_neg (by simp), hsteps, toU, Double.cast,
      Nat.mul_div_cancel _ ONE_pos, signed, if_neg Bool.false_ne_true]
    omega
  have hbound : u.steps / 2 ^ 51 < DELIMS.length := by
    rw [hfour]
    omega
  rw [delim, hindex, List.getElem?_eq_getElem hbound]
  exact ⟨_, List.getElem_mem hbound, rfl⟩

theorem toI_bounds (x : Double) : (x.toI 64).natAbs < 2 ^ 64 := by
  rw [toI, Double.cast.eq_def]
  split
  · omega
  · split <;> omega
  · omega

/-- **The loop writes every field once**, each after a separator. -/
theorem headerLoop_spec (rng : ℕ → Uniform) {fields : List (ℕ × Double)}
    (hfin : ∀ f ∈ fields, (jsRound f.2).isFinite = true) (hid : ∀ f ∈ fields, f.1 < 32)
    (out : List Char) (n : ℕ) :
    ∃ rest : List (Char × (ℕ × ℤ)),
      headerLoop rng fields out false n = some (out ++ rest.flatMap fun r => r.1 :: piece r.2) ∧
      (rest.map Prod.snd).Perm (fields.map reading) ∧ ∀ r ∈ rest, r.1 ∈ DELIMS := by
  induction hlen : fields.length using Nat.strong_induction_on generalizing fields out n with
  | h k ih =>
      rw [headerLoop]
      split
      · next hnil =>
          subst hnil
          exact ⟨[], by rw [List.flatMap_nil, List.append_nil], List.Perm.refl _, by simp⟩
      · next hne =>
          have hperm := swapRemove_perm fields (pick (rng n) fields hne)
          have hlt := length_swapRemove fields (pick (rng n) fields hne)
          generalize swapRemove fields (pick (rng n) fields hne) = removed at *
          have hmem : ∀ f ∈ removed.2, f ∈ fields := fun f hf =>
            hperm.mem_iff.1 (List.mem_cons_of_mem _ hf)
          have hhead : removed.1 ∈ fields := hperm.mem_iff.1 List.mem_cons_self
          obtain ⟨d, hd, hdelim⟩ := delim_spec (rng (n + 1))
          obtain ⟨rest, hrest, hreads, hdelims⟩ := ih _ (hlen ▸ hlt)
            (fun f hf => hfin f (hmem f hf)) (fun f hf => hid f (hmem f hf))
            (out ++ d :: piece (reading removed.1)) (n + 2) rfl
          refine ⟨(d, reading removed.1) :: rest, ?_, ?_, ?_⟩
          · rw [if_neg (by rw [hfin _ hhead]; decide), if_neg Bool.false_ne_true,
              hdelim, alphabet_get (hid _ hhead)]
            simp only [Option.bind_eq_bind, Option.bind_some, pushRadix32_eq _ (toI_bounds _)]
            have happ : out ++ [d, Numeral.fromDigit removed.1.1] ++
                signedText ((jsRound removed.1.2).toI 64) =
                  out ++ d :: piece (reading removed.1) := by
              rw [List.append_assoc]
              rfl
            rw [happ, hrest, List.append_assoc]
            rfl
          · rw [List.map_cons]
            exact (hreads.cons _).trans (hperm.map reading)
          · exact List.forall_mem_cons.2 ⟨hd, hdelims⟩

/-- The first field has no separator. -/
theorem headerLoop_first (rng : ℕ → Uniform) {fields : List (ℕ × Double)}
    (hfin : ∀ f ∈ fields, (jsRound f.2).isFinite = true) (hid : ∀ f ∈ fields, f.1 < 32)
    (hne : fields ≠ []) (out : List Char) (n : ℕ) :
    ∃ f, ∃ rest : List (Char × (ℕ × ℤ)),
      headerLoop rng fields out true n =
        some (out ++ (piece f ++ rest.flatMap fun r => r.1 :: piece r.2)) ∧
      (f :: rest.map Prod.snd).Perm (fields.map reading) ∧ ∀ r ∈ rest, r.1 ∈ DELIMS := by
  rw [headerLoop, dif_neg hne]
  have hperm := swapRemove_perm fields (pick (rng n) fields hne)
  generalize swapRemove fields (pick (rng n) fields hne) = removed at *
  have hmem : ∀ f ∈ removed.2, f ∈ fields := fun f hf =>
    hperm.mem_iff.1 (List.mem_cons_of_mem _ hf)
  have hhead : removed.1 ∈ fields := hperm.mem_iff.1 List.mem_cons_self
  obtain ⟨rest, hrest, hreads, hdelims⟩ := headerLoop_spec rng
    (fun f hf => hfin f (hmem f hf)) (fun f hf => hid f (hmem f hf))
    (out ++ piece (reading removed.1)) (n + 1)
  refine ⟨reading removed.1, rest, ?_, (hreads.cons _).trans (hperm.map reading), hdelims⟩
  rw [if_neg (by rw [hfin _ hhead]; decide), if_pos rfl, alphabet_get (hid _ hhead)]
  simp only [Option.bind_eq_bind, Option.bind_some, pushRadix32_eq _ (toI_bounds _)]
  have happ : out ++ [Numeral.fromDigit removed.1.1] ++ signedText ((jsRound removed.1.2).toI 64) =
      out ++ piece (reading removed.1) := by
    rw [List.append_assoc]
    rfl
  rw [happ, hrest, List.append_assoc]

/-! ## The header -/

/-- A field holds no separator. -/
theorem piece_delims {f : ℕ × ℤ} (hf : f.1 < 32) : ∀ c ∈ piece f, decide (c ∈ DELIMS) = false := by
  have hdigit : ∀ d < 32, decide (Numeral.fromDigit d ∈ DELIMS) = false := by decide
  intro c hc
  rw [piece, signedText] at hc
  rcases List.mem_cons.1 hc with rfl | hc
  · exact hdigit _ hf
  rcases List.mem_append.1 hc with hc | hc
  · split at hc
    · obtain rfl := List.mem_singleton.1 hc
      decide
    · cases hc
  · obtain ⟨d, hd, rfl⟩ := Numeral.exists_of_mem_numeral (by omega) hc
    exact hdigit d hd

theorem readField_piece {f : ℕ × ℤ} (hf : f.1 < 32) : readField (piece f) = some f := by
  rw [piece, readField, Numeral.digit_fromDigit hf (by omega), readSigned_signedText]
  rfl

/-- Cutting at the separators gives the fields. -/
theorem splitOnP_pieces {f : ℕ × ℤ} (hf : f.1 < 32) {rest : List (Char × (ℕ × ℤ))}
    (hrest : ∀ r ∈ rest, r.1 ∈ DELIMS ∧ r.2.1 < 32) :
    (piece f ++ rest.flatMap fun r => r.1 :: piece r.2).splitOnP (· ∈ DELIMS) =
      (f :: rest.map Prod.snd).map piece := by
  induction rest generalizing f with
  | nil =>
      rw [List.flatMap_nil, List.append_nil, List.splitOnP_eq_singleton (piece_delims hf)]
      rfl
  | cons r rest ih =>
      obtain ⟨hr, hrest⟩ := List.forall_mem_cons.1 hrest
      rw [List.flatMap_cons, List.cons_append,
        List.splitOnP_append_cons_of_forall_mem (piece_delims hf) _ (decide_eq_true hr.1),
        ih hr.2 hrest]
      rfl

theorem mapM_readField {fs : List (ℕ × ℤ)} (h : ∀ f ∈ fs, f.1 < 32) :
    (fs.map piece).mapM readField = some fs := by
  induction fs with
  | nil => rfl
  | cons f fs ih =>
      rw [List.map_cons, List.mapM_cons, readField_piece (h f List.mem_cons_self),
        ih fun g hg => h g (List.mem_cons_of_mem _ hg)]
      rfl

/-- **The header is read back**: whatever is drawn, it is written, holds each of the fourteen
fields once, and a reader gets their numbers and values; and every signed number of 64 bits is
read back from its digits. -/
theorem header_decodes (t : Timeline) (rng : ℕ → Uniform) :
    (∃ text fs, t.header rng = some text ∧ readHeader text = some fs ∧
      fs.Perm (t.fields.map reading) ∧ (fs.map Prod.fst).Perm (List.range 14)) ∧
    ∀ n : BitVec 64, (pushRadix32 [] n.toInt).bind readSigned = some n.toInt := by
  refine ⟨?_, fun n => ?_⟩
  · have hfin := fields_finite t
    have hid : ∀ f ∈ t.fields, f.1 < 32 := fun f hf => by
      have hmem : f.1 ∈ t.fields.map Prod.fst := List.mem_map_of_mem hf
      rw [fields_ids, List.mem_range] at hmem
      omega
    obtain ⟨f, rest, hloop, hreads, hdelims⟩ :=
      headerLoop_first rng hfin hid (List.cons_ne_nil _ _) [MARKER] 0
    have hids : ((f :: rest.map Prod.snd).map Prod.fst).Perm (List.range 14) := by
      have hmap := hreads.map Prod.fst
      rw [List.map_map] at hmap
      exact hmap
    have hsmall : ∀ g ∈ f :: rest.map Prod.snd, g.1 < 32 := fun g hg => by
      have := List.mem_range.1 (hids.mem_iff.1 (List.mem_map_of_mem hg))
      omega
    have hrest : ∀ r ∈ rest, r.1 ∈ DELIMS ∧ r.2.1 < 32 := fun r hr =>
      ⟨hdelims r hr, hsmall _ (List.mem_cons_of_mem _ (List.mem_map_of_mem hr))⟩
    refine ⟨_, f :: rest.map Prod.snd, hloop, ?_, hreads, hids⟩
    rw [List.singleton_append, readHeader, if_pos rfl,
      splitOnP_pieces (hsmall f List.mem_cons_self) hrest, mapM_readField hsmall]
  · have hlow := n.le_toInt
    have hhigh := n.toInt_lt
    rw [pushRadix32_eq [] (by omega), Option.bind_some, List.nil_append, readSigned_signedText]

end Timing
end Lunar
