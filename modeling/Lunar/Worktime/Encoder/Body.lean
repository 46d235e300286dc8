/-
# The body of the answer

The text that `encode_cd` writes is a JSON text of its fields, and `wrap_payload` makes of
it a JSON text of an object whose payload is that text (`body_round_trip`).  The numbers
are numerals because `write_u64` writes the digits of its argument without a leading zero
(`writeU64_spec`); the quotes are the only characters of the text that a string of JSON
cannot hold as they are (`Plain`).
-/

import Mathlib.Data.Bool.AllAny
import Mathlib.Data.Rat.Cast.Order
import Mathlib.Tactic.FieldSimp
import Mathlib.Tactic.IntervalCases
import Lunar.Lib.Json
import Lunar.Worktime.Encoder

namespace Lunar
namespace Worktime
namespace Encoder

open Lib (Json)
open Lib.Double (isDigit ofDigits)
open Lib.Json (Numeral Writes WritesElems WritesMembers Escaped decimal)

/-! ## Numerals -/

theorem ofDigits_concat (ds : List Char) (c : Char) :
    ofDigits (ds ++ [c]) = 10 * ofDigits ds + (c.toNat - '0'.toNat) := by
  rw [ofDigits, List.foldl_append]
  rfl

/-- The character of a digit. -/
theorem digit_spec {d : ℕ} (h : d < 10) :
    isDigit (Char.ofNat ('0'.toNat + d)) = true ∧
      (Char.ofNat ('0'.toNat + d)).toNat - '0'.toNat = d ∧
      (Char.ofNat ('0'.toNat + d) = '0' → d = 0) := by
  interval_cases d <;> decide

/-- The digits of a number: all of them, and no zero before them. -/
structure IsDecimal (ds : List Char) (v : ℕ) : Prop where
  digits : ∀ c ∈ ds, isDigit c = true
  ne_nil : ds ≠ []
  value : ofDigits ds = v
  no_leading_zero : ds.head? = some '0' → v = 0 ∧ ds.length = 1

theorem IsDecimal.single {d : ℕ} (h : d < 10) : IsDecimal [Char.ofNat ('0'.toNat + d)] d := by
  obtain ⟨hdigit, hvalue, hzero⟩ := digit_spec h
  refine ⟨?_, List.cons_ne_nil _ _, ?_, fun hhead => ⟨hzero (Option.some_inj.1 hhead), rfl⟩⟩
  · intro c hc
    rw [List.mem_singleton.1 hc]
    exact hdigit
  · rw [← List.nil_append [_], ofDigits_concat, hvalue]
    exact Nat.zero_add d

theorem IsDecimal.concat {ds : List Char} {v d : ℕ} (h : IsDecimal ds v) (hv : v ≠ 0)
    (hd : d < 10) : IsDecimal (ds ++ [Char.ofNat ('0'.toNat + d)]) (10 * v + d) := by
  obtain ⟨hdigit, hvalue, -⟩ := digit_spec hd
  refine ⟨?_, List.append_ne_nil_of_left_ne_nil h.ne_nil _, ?_, fun hhead => ?_⟩
  · intro c hc
    rcases List.mem_append.1 hc with hc | hc
    · exact h.digits c hc
    · rw [List.mem_singleton.1 hc]
      exact hdigit
  · rw [ofDigits_concat, h.value, hvalue]
  · rw [List.head?_append_of_ne_nil _ h.ne_nil] at hhead
    exact absurd (h.no_leading_zero hhead).1 hv

/-- `write_u64` puts the digits of the number in front of what the buffer holds. -/
theorem writeLoop_spec {slots v : ℕ} (h : v < 10 ^ (slots + 1)) (buf : List Char) :
    ∃ ds, writeLoop (slots + 1) v buf = ds ++ buf ∧ IsDecimal ds v := by
  have hmod : v % 10 < 10 := Nat.mod_lt v (by decide)
  induction slots generalizing v buf with
  | zero =>
      have hdiv : v / 10 = 0 := by omega
      have hv : v % 10 = v := by omega
      rw [writeLoop, if_pos hdiv, hv]
      exact ⟨_, rfl, .single (hv ▸ hmod)⟩
  | succ slots ih =>
      rw [writeLoop]
      split
      · next hdiv =>
          have hv : v % 10 = v := by omega
          rw [hv]
          exact ⟨_, rfl, .single (hv ▸ hmod)⟩
      · next hdiv =>
          have hlt : v / 10 < 10 ^ (slots + 1) := by
            rw [Nat.div_lt_iff_lt_mul (by decide), ← Nat.pow_succ]
            exact h
          obtain ⟨ds, hds, hdec⟩ := ih hlt (Char.ofNat ('0'.toNat + v % 10) :: buf)
            (Nat.mod_lt _ (by decide))
          have hconcat := hdec.concat hdiv hmod
          rw [Nat.div_add_mod] at hconcat
          refine ⟨_, ?_, hconcat⟩
          rw [hds, List.append_assoc]
          rfl

theorem writeU64_spec {v : ℕ} (h : v < 2 ^ 64) : IsDecimal (writeU64 v) v := by
  obtain ⟨ds, hds, hdec⟩ := @writeLoop_spec 19 v (by omega) []
  rw [List.append_nil] at hds
  rw [writeU64, INT_BUF_LEN, hds]
  exact hdec

/-- Digits and the digits of a fraction are a numeral. -/
theorem IsDecimal.valid {ds frac : List Char} {v : ℕ} (h : IsDecimal ds v)
    (hfrac : ∀ c ∈ frac, isDigit c = true) (neg : Bool) :
    (Numeral.mk neg ds frac none).Valid where
  int_digits := h.digits
  int_ne_nil := h.ne_nil
  no_leading_zero := fun hlen hzero => by
    have hone := (h.no_leading_zero hzero).2
    dsimp only at hlen
    omega
  frac_digits := hfrac
  exp_digits := fun _ _ hexp => by cases hexp

theorem writes_int {ds : List Char} {v : ℕ} (h : IsDecimal ds v) (neg : Bool) :
    Writes (.num (if neg then -(v : ℚ) else v)) ((if neg then ['-'] else []) ++ ds) := by
  have hwrites := Writes.num (@IsDecimal.valid _ [] _ h (fun _ hc => absurd hc List.not_mem_nil) neg)
  have hvalue : (Numeral.mk neg ds [] none).value = if neg then -(v : ℚ) else v := by
    rw [Numeral.value, decimal, List.append_nil, h.value]
    cases neg <;> simp [Numeral.exponent]
  have htext : (Numeral.mk neg ds [] none).text = (if neg then ['-'] else []) ++ ds := by
    simp [Numeral.text, Numeral.fracText, Numeral.expText]
  rw [hvalue, htext] at hwrites
  exact hwrites

theorem writes_u64 {v : ℕ} (h : v < 2 ^ 64) : Writes (.num v) (writeU64 v) :=
  writes_int (writeU64_spec h) false

theorem writes_i64 (v : Int64) : Writes (.num v.toInt) (writeI64 v) := by
  have hle := v.le_toInt
  have hlt := v.toInt_lt
  have hwrites := writes_int (writeU64_spec (v := v.toInt.natAbs) (by omega)) (decide (v < 0))
  have hneg : v < 0 ↔ v.toInt < 0 := Int64.lt_iff_toInt_lt
  have hvalue : (if decide (v < 0) = true then -((v.toInt.natAbs : ℕ) : ℚ) else (v.toInt.natAbs : ℕ))
      = (v.toInt : ℚ) := by
    by_cases h : v.toInt < 0
    · have habs : (v.toInt.natAbs : ℤ) = -v.toInt := by omega
      rw [if_pos (decide_eq_true (hneg.2 h)), ← Int.cast_natCast, habs, Int.cast_neg, neg_neg]
    · have habs : (v.toInt.natAbs : ℤ) = v.toInt := by omega
      rw [if_neg (by simpa [hneg] using h), ← Int.cast_natCast, habs]
  rw [hvalue] at hwrites
  rw [writeI64]
  simpa using hwrites

/-! ## The fields -/

/-- The duration as `encode_cd` writes it. -/
def durationText (tenths : ℕ) : List Char :=
  writeU64 (tenths / 10) ++
    if tenths % 10 ≠ 0 then ['.', Char.ofNat ('0'.toNat + tenths % 10)] else []

theorem writes_duration {tenths : ℕ} (h : tenths < 2 ^ 64) :
    Writes (.num ((tenths : ℚ) / 10)) (durationText tenths) := by
  have hint := writeU64_spec (v := tenths / 10) (by omega)
  have hmod : tenths % 10 < 10 := Nat.mod_lt _ (by decide)
  have hdm : (tenths : ℚ) = 10 * (tenths / 10 : ℕ) + (tenths % 10 : ℕ) := by
    exact_mod_cast (Nat.div_add_mod tenths 10).symm
  rw [durationText]
  split
  · next hne =>
      obtain ⟨hdigit, hvalue, -⟩ := digit_spec hmod
      have hwrites := Writes.num (@IsDecimal.valid _ [Char.ofNat ('0'.toNat + tenths % 10)] _ hint
        (fun c hc => by rw [List.mem_singleton.1 hc]; exact hdigit) false)
      have heq : (Numeral.mk false (writeU64 (tenths / 10))
          [Char.ofNat ('0'.toNat + tenths % 10)] none).value = (tenths : ℚ) / 10 := by
        rw [Numeral.value, decimal, ofDigits_concat, hvalue, hint.value, hdm]
        simp [Numeral.exponent, div_eq_mul_inv]
      rw [heq] at hwrites
      exact hwrites
  · next hzero =>
      have hwrites := writes_int hint false
      have heq : ((tenths / 10 : ℕ) : ℚ) = (tenths : ℚ) / 10 := by
        rw [hdm, not_not.1 hzero]
        simp
      rw [if_neg Bool.false_ne_true, heq] at hwrites
      rw [List.append_nil]
      exact hwrites

/-- The answers as `encode_cd` writes them. -/
theorem writes_answers (answer : UInt32) (answers : List UInt32) :
    WritesElems ((answer :: answers).map fun a => .num a.toNat)
      (writeU64 answer.toNat ++ pushAnswers answers) := by
  have hlt (a : UInt32) : a.toNat < 2 ^ 64 := a.toNat_lt.trans (by decide)
  induction answers generalizing answer with
  | nil =>
      rw [pushAnswers, List.append_nil]
      exact .last (writes_u64 (hlt answer))
  | cons next answers ih =>
      rw [pushAnswers, List.cons_append]
      exact .more (writes_u64 (hlt answer)) (ih next)

/-- A character that a string of JSON holds as it is. -/
structure Plain (c : Char) : Prop where
  not_quote : c ≠ '"'
  not_backslash : c ≠ '\\'
  printable : 0x20 ≤ c.toNat

theorem escaped_plain {s : List Char} (h : ∀ c ∈ s, Plain c) : Escaped s s := by
  induction s with
  | nil => exact .nil
  | cons c s ih =>
      have hc := h c List.mem_cons_self
      exact .plain hc.not_quote hc.not_backslash hc.printable
        (ih fun x hx => h x (List.mem_cons_of_mem _ hx))

theorem plain_hex : ∀ c ∈ HEX, Plain c := by
  intro c hc
  have h : ∀ c ∈ HEX, c ≠ '"' ∧ c ≠ '\\' ∧ 0x20 ≤ c.toNat :=
    List.all_iff_forall_prop.1 (by decide)
  exact ⟨(h c hc).1, (h c hc).2.1, (h c hc).2.2⟩

theorem hex_mem (n : ℕ) : HEX.getD n '0' ∈ HEX := by
  rw [List.getD_eq_getElem?_getD]
  rcases h : HEX[n]? with _ | c
  · decide
  · exact List.mem_of_getElem? h

theorem hexEncode_plain (src : List UInt8) : ∀ c ∈ hexEncode src, Plain c := by
  intro c hc
  obtain ⟨b, -, hb⟩ := List.mem_flatMap.1 hc
  rcases List.mem_pair.1 hb with rfl | rfl
  · exact plain_hex _ (hex_mem _)
  · exact plain_hex _ (hex_mem _)

/-! ## The text -/

section Text

variable {workTime st rst : Int64} {id : List Char} {answer : UInt32} {answers : List UInt32}
  {tenths : UInt32}

/-- What the body carries. -/
def fields (workTime : Int64) (id : List Char) (answers : List UInt32) (tenths : UInt32)
    (st rst : Int64) : Json :=
  .obj [("workTime".toList, .num workTime.toInt), ("id".toList, .str id),
    ("answers".toList, .arr (answers.map fun a => .num a.toNat)),
    ("duration".toList, .num ((tenths.toNat : ℚ) / 10)),
    ("d".toList, .num ((rst.toInt - st.toInt : ℤ) : ℚ)), ("st".toList, .num st.toInt),
    ("rst".toList, .num rst.toInt)]

/-- The difference of two positive times does not wrap. -/
theorem toInt_sub (hst : 0 < st) (hrst : 0 < rst) :
    (rst - st).toInt = rst.toInt - st.toInt := by
  have hst' : 0 < st.toInt := Int64.lt_iff_toInt_lt.1 hst
  have hrst' : 0 < rst.toInt := Int64.lt_iff_toInt_lt.1 hrst
  have hlt := st.toInt_lt
  have hlt' := rst.toInt_lt
  rw [Int64.toInt_sub, Int.bmod_eq_of_le]
  · omega
  · omega

/-- The names of the fields hold no character to escape. -/
theorem plain_names : ∀ name ∈ ["workTime", "id", "answers", "duration", "d", "st", "rst"],
    ∀ c ∈ name.toList, Plain c := by
  have h : ∀ c ∈ ["workTime", "id", "answers", "duration", "d", "st", "rst"].flatMap String.toList,
      c ≠ '"' ∧ c ≠ '\\' ∧ 0x20 ≤ c.toNat := List.all_iff_forall_prop.1 (by decide)
  intro name hname c hc
  obtain ⟨hquote, hbackslash, hprint⟩ := h c (List.mem_flatMap.2 ⟨name, hname, hc⟩)
  exact ⟨hquote, hbackslash, hprint⟩

theorem encodeCd_writes (hid : ∀ c ∈ id, Plain c) (hst : 0 < st) (hrst : 0 < rst) :
    ∃ cd, encodeCd workTime id (answer :: answers) tenths st rst = .ok cd ∧
      Writes (fields workTime id (answer :: answers) tenths st rst) cd := by
  have hname (name : String) (h : name ∈ ["workTime", "id", "answers", "duration", "d", "st",
      "rst"]) : Escaped name.toList name.toList := escaped_plain (plain_names name h)
  have hd := writes_i64 (rst - st)
  rw [toInt_sub hst hrst] at hd
  have htenths : tenths.toNat < 2 ^ 64 := tenths.toNat_lt.trans (by decide)
  have hwrites : Writes (fields workTime id (answer :: answers) tenths st rst) _ :=
    .obj (.more (hname "workTime" (by decide)) (writes_i64 workTime)
      (.more (hname "id" (by decide)) (.str (escaped_plain hid))
      (.more (hname "answers" (by decide)) (.arr (writes_answers answer answers))
      (.more (hname "duration" (by decide)) (writes_duration htenths)
      (.more (hname "d" (by decide)) hd
      (.more (hname "st" (by decide)) (writes_i64 st)
      (.last (hname "rst" (by decide)) (writes_i64 rst))))))))
  refine ⟨_, ?_, hwrites⟩
  have hst' : ¬ st ≤ 0 := Int64.not_le.2 hst
  have hrst' : ¬ rst ≤ 0 := Int64.not_le.2 hrst
  rw [encodeCd, if_neg hst', if_neg hrst']
  have h1 : J_WORK_TIME = '\x7b' :: '"' :: ("workTime".toList ++ ['"', ':']) := by decide
  have h2 : J_ID = ',' :: '"' :: ("id".toList ++ ['"', ':', '"']) := by decide
  have h3 : J_ANSWERS = '"' :: ',' :: '"' :: ("answers".toList ++ ['"', ':', '[']) := by decide
  have h4 : J_DURATION = ']' :: ',' :: '"' :: ("duration".toList ++ ['"', ':']) := by decide
  have h5 : J_D = ',' :: '"' :: ("d".toList ++ ['"', ':']) := by decide
  have h6 : J_ST = ',' :: '"' :: ("st".toList ++ ['"', ':']) := by decide
  have h7 : J_RST = ',' :: '"' :: ("rst".toList ++ ['"', ':']) := by decide
  simp only [h1, h2, h3, h4, h5, h6, h7, J_END, durationText, List.append_assoc, List.cons_append,
    List.nil_append]

/-- A character that may stand in the text: a quote, or one that a string can hold. -/
def Simple (c : Char) : Prop := c ≠ '\\' ∧ 0x20 ≤ c.toNat

instance (c : Char) : Decidable (Simple c) := instDecidableAnd

theorem simple_of_digit {c : Char} (h : isDigit c = true) : Simple c := by
  rw [isDigit, Bool.and_eq_true, decide_eq_true_eq, decide_eq_true_eq] at h
  have hle : '0'.toNat ≤ c.toNat := h.1
  refine ⟨?_, Nat.le_trans (by decide) hle⟩
  rintro rfl
  exact absurd h.2 (by decide)

theorem simple_u64 {v : ℕ} (h : v < 2 ^ 64) : ∀ c ∈ writeU64 v, Simple c :=
  fun c hc => simple_of_digit ((writeU64_spec h).digits c hc)

theorem simple_i64 (v : Int64) : ∀ c ∈ writeI64 v, Simple c := by
  have hle := v.le_toInt
  have hlt := v.toInt_lt
  refine List.forall_mem_append.2 ⟨?_, simple_u64 (by omega)⟩
  split
  · exact List.all_iff_forall_prop.1 (by decide)
  · exact fun c hc => absurd hc List.not_mem_nil

theorem simple_answers : ∀ answers : List UInt32, ∀ c ∈ pushAnswers answers, Simple c
  | [] => fun c hc => absurd hc List.not_mem_nil
  | a :: answers => by
      rw [pushAnswers, List.cons_append, List.forall_mem_cons, List.forall_mem_append]
      exact ⟨by decide, simple_u64 (a.toNat_lt.trans (by decide)), simple_answers answers⟩

theorem simple_duration {tenths : ℕ} (h : tenths < 2 ^ 64) :
    ∀ c ∈ durationText tenths, Simple c := by
  have hmod : tenths % 10 < 10 := Nat.mod_lt _ (by decide)
  refine List.forall_mem_append.2 ⟨simple_u64 (by omega), ?_⟩
  split
  · rw [List.forall_mem_cons, List.forall_mem_singleton]
    exact ⟨by decide, simple_of_digit (digit_spec hmod).1⟩
  · exact fun c hc => absurd hc List.not_mem_nil

theorem encodeCd_simple {cd : List Char} (hid : ∀ c ∈ id, Plain c)
    (h : encodeCd workTime id answers tenths st rst = .ok cd) : ∀ c ∈ cd, Simple c := by
  have hlt (a : UInt32) : a.toNat < 2 ^ 64 := a.toNat_lt.trans (by decide)
  have hid' : ∀ c ∈ id, Simple c := fun c hc => ⟨(hid c hc).not_backslash, (hid c hc).printable⟩
  rw [encodeCd.eq_def] at h
  split at h
  · cases h
  split at h
  · cases h
  cases answers with
  | nil => cases h
  | cons answer answers =>
      have hduration := simple_duration (hlt tenths)
      rw [durationText] at hduration
      rw [← Except.ok.inj h]
      simp only [List.forall_mem_append] at hduration ⊢
      have hconst : (∀ c ∈ J_WORK_TIME, Simple c) ∧ (∀ c ∈ J_ID, Simple c) ∧
          (∀ c ∈ J_ANSWERS, Simple c) ∧ (∀ c ∈ J_DURATION, Simple c) ∧ (∀ c ∈ J_D, Simple c) ∧
          (∀ c ∈ J_ST, Simple c) ∧ (∀ c ∈ J_RST, Simple c) ∧ ∀ c ∈ [J_END], Simple c := by
        simp only [← List.all_iff_forall_prop]
        decide
      obtain ⟨hwork, hidc, hanswers, hdur, hd, hst, hrst, hend⟩ := hconst
      exact ⟨⟨⟨⟨⟨⟨⟨⟨⟨⟨⟨⟨⟨⟨⟨⟨hwork, simple_i64 _⟩, hidc⟩, hid'⟩, hanswers⟩,
        simple_u64 (hlt answer)⟩, simple_answers answers⟩, hdur⟩, hduration.1⟩, hduration.2⟩, hd⟩,
        simple_i64 _⟩, hst⟩, simple_i64 _⟩, hrst⟩, simple_i64 _⟩, hend⟩

/-! ## The payload -/

theorem splitOn_quotes (cd : List Char) :
    ∃ first segments, cd.splitOn '"' = first :: segments ∧
      first ++ segments.flatMap (ESCAPED_QUOTE ++ ·) =
        cd.flatMap fun c => if c = '"' then ESCAPED_QUOTE else [c] := by
  induction cd with
  | nil => exact ⟨[], [], rfl, rfl⟩
  | cons c cd ih =>
      obtain ⟨first, segments, hsplit, hflat⟩ := ih
      rw [List.splitOn, List.splitOnP_cons_eq_if_modifyHead]
      rw [List.splitOn] at hsplit
      rw [hsplit, List.flatMap_cons, ← hflat]
      by_cases hc : c = '"'
      · rw [if_pos hc, if_pos (by simpa using hc)]
        exact ⟨[], first :: segments, rfl, by simp⟩
      · rw [if_neg hc, if_neg (by simpa using hc)]
        exact ⟨c :: first, segments, rfl, rfl⟩

theorem escaped_quotes {cd : List Char} (h : ∀ c ∈ cd, Simple c) :
    Escaped cd (cd.flatMap fun c => if c = '"' then ESCAPED_QUOTE else [c]) := by
  induction cd with
  | nil => exact .nil
  | cons c cd ih =>
      have hrest := ih fun x hx => h x (List.mem_cons_of_mem _ hx)
      rw [List.flatMap_cons]
      by_cases hc : c = '"'
      · rw [if_pos hc]
        exact .escape (by rw [hc]; rfl) hrest
      · rw [if_neg hc]
        exact .plain hc (h c List.mem_cons_self).1 (h c List.mem_cons_self).2 hrest

theorem wrapPayload_writes {cd : List Char} (h : ∀ c ∈ cd, Simple c) :
    Writes (.obj [("payload".toList, .str cd)]) (wrapPayload cd) := by
  have hname : Escaped "payload".toList "payload".toList := by
    refine escaped_plain fun c hc => ?_
    have hplain : ∀ c ∈ "payload".toList, c ≠ '"' ∧ c ≠ '\\' ∧ 0x20 ≤ c.toNat :=
      List.all_iff_forall_prop.1 (by decide)
    exact ⟨(hplain c hc).1, (hplain c hc).2.1, (hplain c hc).2.2⟩
  have hwrites := Writes.obj (.last hname (.str (escaped_quotes h)))
  have hprefix : PAYLOAD_PREFIX = '\x7b' :: '"' :: ("payload".toList ++ ['"', ':', '"']) := by decide
  have hsuffix : PAYLOAD_SUFFIX = ['"', '\x7d'] := by decide
  obtain ⟨first, segments, hsplit, hflat⟩ := splitOn_quotes cd
  rw [wrapPayload, hsplit, hprefix, hsuffix]
  dsimp only
  rw [hflat]
  simpa only [List.append_assoc, List.cons_append, List.nil_append] using hwrites

/-- **The body reads back, both times.**  The text that `encode_cd` writes for admitted
fields is a JSON text of them, and `wrap_payload` makes of it a JSON text of an object
whose payload is that text.  The difference `d` is that of the two times. -/
theorem body_round_trip (workTime : Int64) (raw : Vector UInt8 ID_BYTES) (answers : List UInt32)
    (tenths : UInt32) (st rst : Int64) (hanswers : answers ≠ []) (hst : 0 < st) (hrst : 0 < rst) :
    ∃ cd, encodeCd workTime (hexEncode raw.toList) answers tenths st rst = .ok cd ∧
      Json.parse (wrapPayload cd) = some (.obj [("payload".toList, .str cd)]) ∧
      Json.parse cd = some (.obj [("workTime".toList, .num workTime.toInt),
        ("id".toList, .str (hexEncode raw.toList)),
        ("answers".toList, .arr (answers.map fun a => .num a.toNat)),
        ("duration".toList, .num ((tenths.toNat : ℚ) / 10)),
        ("d".toList, .num ((rst.toInt - st.toInt : ℤ) : ℚ)), ("st".toList, .num st.toInt),
        ("rst".toList, .num rst.toInt)]) ∧
      (rst - st).toInt = rst.toInt - st.toInt := by
  have hid := hexEncode_plain raw.toList
  cases answers with
  | nil => exact absurd rfl hanswers
  | cons answer answers =>
      obtain ⟨cd, hcd, hwrites⟩ := @encodeCd_writes workTime _ _ _ answer answers tenths hid hst hrst
      exact ⟨cd, hcd, Lib.Json.parse_of_writes (wrapPayload_writes (encodeCd_simple hid hcd)),
        Lib.Json.parse_of_writes hwrites, toInt_sub hst hrst⟩

theorem body_round_trip_one :
    ∃ cd, encodeCd 7 (hexEncode (Vector.replicate ID_BYTES 0).toList) [5] 123 100 250 = .ok cd ∧
      Json.parse (wrapPayload cd) = some (.obj [("payload".toList, .str cd)]) := by
  obtain ⟨cd, hcd, hparse, -⟩ := body_round_trip 7 (Vector.replicate ID_BYTES 0) [5] 123 100 250
    (by decide) (by decide) (by decide)
  exact ⟨cd, hcd, hparse⟩

end Text

end Encoder
end Worktime
end Lunar
