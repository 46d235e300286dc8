/-
# Names of keys against the keys of the language

`ToPropertyKey` turns a constant key into a text.  `worktime/fc.rs` (`key_name`) gives keys
names of its own: a number or the spelling of one is the number, another string its units,
and `true`, `false`, `null` and `undefined` are four names beside them.  Two keys of one name
are one property key.  The other direction fails in three ways (`Apart`): the four names are
not those of the strings `"true"` and so on; doubles from `2 ^ 53` on have no name; and
spellings of more than 15 digits are not recognised as numbers.  Elsewhere a name is property
key identity (`keyName_identity`).
-/

import Lunar.Lib.Double.Script
import Lunar.Worktime.Fc.Build

namespace Lunar
namespace Fc

open Lib (Double)
open Lib.Decimal (digits spell value Canonical)
open Worktime (Operand)

/-- The number of a constant: an integer or an integral double. -/
def number : Operand → Option ℤ
  | .int i => some i
  | .dbl bits =>
    let d := Double.ofBits bits
    if d.isInt then some d.toInt else none
  | _ => none

/-- `true`, `false`, `null`, `undefined`, as texts. -/
def literal : Operand → Option (List ℕ)
  | .true => some ("true".toList.map Char.toNat)
  | .false => some ("false".toList.map Char.toNat)
  | .null => some ("null".toList.map Char.toNat)
  | .undef => some ("undefined".toList.map Char.toNat)
  | _ => none

/-- `ToPropertyKey` of a constant, in UTF-16 units. -/
def propertyKey (pool : List UInt16) : Operand → Option (List ℕ)
  | .str r => some ((r.units pool).map UInt16.toNat)
  | .int i => some (spell i)
  | .dbl bits => some (Double.ofBits bits).script
  | .reg _ => none
  | op => literal op

/-- The constants that are keys: strings, integers, integral doubles and the four others. -/
def Constant : Operand → Prop
  | .dbl bits => (Double.ofBits bits).isInt = true
  | .reg _ => False
  | _ => True

/-- The two keys have one name. -/
def Named (pool : List UInt16) (a b : Operand) : Prop :=
  ∃ name, keyName a pool = some name ∧ keyName b pool = some name

/-- A string. -/
def IsStr : Operand → Prop
  | .str _ => True
  | _ => False

/-- A double too large for a name. -/
def Large : Operand → Prop
  | .dbl bits => 2 ^ 53 ≤ (Double.ofBits bits).toInt.natAbs
  | _ => False

/-- A number of more than 15 digits. -/
def Long (op : Operand) : Prop := ∃ i, number op = some i ∧ 10 ^ 15 ≤ i.natAbs

/-- Keys that may be the same with different names. -/
def Apart (a b : Operand) : Prop :=
  (Large a ∨ IsStr b ∧ ((literal a).isSome ∨ Long a))
    ∨ Large b ∨ IsStr a ∧ ((literal b).isSome ∨ Long b)

/-! ## The spelling of a number -/

theorem indexDigits_eq_some {ds : List UInt16} {v : ℕ} {i : ℤ} :
    indexDigits ds v = some i ↔ (∀ d ∈ ds.map UInt16.toNat, 48 ≤ d ∧ d ≤ 57)
      ∧ i = ((ds.map UInt16.toNat).foldl (fun v d => v * 10 + (d - 48)) v : ℕ) := by
  induction ds generalizing v with
  | nil =>
      rw [indexDigits, Option.some.injEq]
      simp [eq_comm]
  | cons d ds ih =>
      rw [indexDigits, List.map_cons, List.forall_mem_cons, List.foldl_cons]
      have hdigit : (0x30 ≤ d ∧ d ≤ 0x39) ↔ 48 ≤ d.toNat ∧ d.toNat ≤ 57 := Iff.rfl
      by_cases h : 0x30 ≤ d ∧ d ≤ 0x39
      · have hnat := hdigit.1 h
        have hcast : (v : ℤ) * 10 + ((d.toNat : ℤ) - 0x30)
            = ((v * 10 + (d.toNat - 48) : ℕ) : ℤ) := by
          omega
        rw [if_pos h, hcast, ih, and_assoc]
        exact (and_iff_right hnat).symm
      · rw [if_neg h]
        exact iff_of_false nofun fun hall => h (hdigit.2 hall.1.1)

theorem map_toNat_inj {u v : List UInt16} : u.map UInt16.toNat = v.map UInt16.toNat ↔ u = v :=
  (List.map_injective_iff.2 fun _ _ => UInt16.toNat_inj.1).eq_iff

theorem length_digits_le {n : ℕ} : (digits n).length ≤ 15 ↔ n < 10 ^ 15 := by
  rw [digits]
  by_cases hzero : n = 0
  · rw [if_pos hzero, hzero]
    decide
  · rw [if_neg hzero, List.length_map, List.length_reverse, Nat.digits_length_le_iff (by decide)]

/-- The digits behind the sign. -/
theorem digits_index {ds : List UInt16} (neg : Bool) {i : ℤ} :
    (if ds = [] ∨ 15 < ds.length then none
      else if ds.head? = some 0x30 ∧ (1 < ds.length ∨ neg) then none
      else (indexDigits ds 0).map fun v => if neg then -v else v) = some i
    ↔ ∃ n, ds.map UInt16.toNat = digits n ∧ n < 10 ^ 15 ∧ (neg → n ≠ 0)
        ∧ i = if neg then -(n : ℤ) else n := by
  have hhead : ds.head? = some 0x30 ↔ (ds.map UInt16.toNat).head? = some 48 := by
    rw [List.head?_map, Option.map_eq_some_iff]
    constructor
    · intro h
      exact ⟨0x30, h, rfl⟩
    · rintro ⟨d, hd, hnat⟩
      rw [hd, Option.some.injEq, ← UInt16.toNat_inj]
      exact hnat
  constructor
  · intro h
    by_cases hlen : ds = [] ∨ 15 < ds.length
    · rw [if_pos hlen] at h
      cases h
    by_cases hzero : ds.head? = some 0x30 ∧ (1 < ds.length ∨ neg)
    · rw [if_neg hlen, if_pos hzero] at h
      cases h
    rw [if_neg hlen, if_neg hzero, Option.map_eq_some_iff] at h
    obtain ⟨v, hv, rfl⟩ := h
    obtain ⟨hdigit, rfl⟩ := (indexDigits_eq_some (v := 0)).1 hv
    rw [not_or] at hlen
    have hcanon : Canonical (ds.map UInt16.toNat) := by
      refine ⟨by simpa using hlen.1, hdigit, fun h48 => ?_⟩
      have hds : ¬ 1 < ds.length := fun hlt => hzero ⟨hhead.2 h48, .inl hlt⟩
      rcases ds with _ | ⟨d, _ | ⟨_, _⟩⟩
      · exact absurd rfl hlen.1
      · simpa using h48
      · exact absurd (by simp) hds
    have hdigits := Lib.Decimal.digits_value hcanon
    refine ⟨value (ds.map UInt16.toNat), hdigits.symm, ?_, fun hneg hn => ?_, rfl⟩
    · rw [← length_digits_le, hdigits, List.length_map]
      omega
    · rw [hn] at hdigits
      refine hzero ⟨hhead.2 ?_, .inr hneg⟩
      rw [← hdigits]
      rfl
  · rintro ⟨n, hds, hn, hneg, rfl⟩
    obtain ⟨hne, hdigit, h48⟩ := Lib.Decimal.canonical_digits n
    have hlen : ds.length = (digits n).length := by
      rw [← hds, List.length_map]
    have hshort : ¬ (ds = [] ∨ 15 < ds.length) := by
      rintro (rfl | hlt)
      · exact hne hds.symm
      · have hle := length_digits_le.2 hn
        omega
    have hzero : ¬ (ds.head? = some 0x30 ∧ (1 < ds.length ∨ neg)) := by
      rintro ⟨h, hlt⟩
      rw [hhead, hds] at h
      have hone := h48 h
      rcases hlt with hlt | hlt
      · rw [hlen, hone] at hlt
        exact absurd hlt (by decide)
      · have hval := congrArg value hone
        rw [Lib.Decimal.value_digits] at hval
        exact hneg hlt hval
    have hindex : indexDigits ds 0 = some (n : ℤ) := by
      refine (indexDigits_eq_some (v := 0)).2 ⟨hds ▸ hdigit, ?_⟩
      rw [hds]
      exact congrArg Nat.cast (Lib.Decimal.value_digits n).symm
    rw [if_neg hshort, if_neg hzero, hindex]
    rfl

/-- **The numbers are recognised by their spelling**, up to 15 digits. -/
theorem canonicalIndex_iff {u : List UInt16} {i : ℤ} :
    canonicalIndex u = some i ↔ u.map UInt16.toNat = spell i ∧ i.natAbs < 10 ^ 15 := by
  by_cases hminus : u.head? = some 0x2d
  · obtain ⟨ds, rfl⟩ : ∃ ds, u = 0x2d :: ds := ⟨u.tail, (List.cons_head?_tail hminus).symm⟩
    rw [canonicalIndex, if_pos hminus]
    dsimp only [List.tail_cons]
    rw [digits_index true, List.map_cons]
    constructor
    · rintro ⟨n, hds, hn, hne, rfl⟩
      have hneg : -(n : ℤ) < 0 := by
        have := hne rfl
        omega
      rw [if_pos rfl, spell, if_pos hneg, hds, Int.natAbs_neg, Int.natAbs_natCast]
      exact ⟨rfl, hn⟩
    · rintro ⟨hspell, hn⟩
      rw [spell] at hspell
      by_cases hneg : i < 0
      · rw [if_pos hneg, List.cons.injEq] at hspell
        refine ⟨i.natAbs, hspell.2, hn, fun _ => by omega, ?_⟩
        rw [if_pos rfl]
        omega
      · rw [if_neg hneg] at hspell
        exact absurd (congrArg List.head? hspell).symm (Lib.Decimal.head_digits _)
  · rw [canonicalIndex, if_neg hminus]
    dsimp only
    rw [digits_index false]
    constructor
    · rintro ⟨n, hds, hn, -, rfl⟩
      have hpos : ¬ (n : ℤ) < 0 := by omega
      simp only [Bool.false_eq_true, if_false]
      rw [spell, if_neg hpos, Int.natAbs_natCast]
      exact ⟨hds, hn⟩
    · rintro ⟨hspell, hn⟩
      rw [spell] at hspell
      by_cases hneg : i < 0
      · rw [if_pos hneg] at hspell
        have hhead := congrArg List.head? hspell
        rw [List.head?_map, List.head?_cons, Option.map_eq_some_iff] at hhead
        obtain ⟨d, hd, hnat⟩ := hhead
        have hdash : d = 0x2d := UInt16.toNat_inj.1 hnat
        exact absurd (hdash ▸ hd) hminus
      · rw [if_neg hneg] at hspell
        refine ⟨i.natAbs, hspell, hn, fun h => absurd h Bool.false_ne_true, ?_⟩
        simp only [Bool.false_eq_true, if_false]
        omega

/-! ## The two keys of a constant -/

/-- The text that a name stands for. -/
def KeyName.text : KeyName → Option (List ℕ)
  | .units u => some (u.map UInt16.toNat)
  | .index i => some (spell i)
  | .lit 0 => literal .true
  | .lit 1 => literal .false
  | .lit 2 => literal .null
  | .lit 3 => literal .undef
  | .lit _ => none

theorem eq_fin {x : Double} (h : x.isInt = true) : ∃ neg n, x = .fin neg (n * Double.ONE) := by
  match x, h with
  | .fin neg m, h =>
    refine ⟨neg, m / Double.ONE, ?_⟩
    rw [Nat.div_mul_cancel (Nat.dvd_of_mod_eq_zero (of_decide_eq_true h))]

theorem toInt_fin (neg : Bool) (n : ℕ) :
    (Double.fin neg (n * Double.ONE)).toInt = Double.signed neg n := by
  rw [Double.toInt, Nat.mul_div_cancel _ Double.ONE_pos]

/-- An integral double has a name just below `2 ^ 53`. -/
theorem keyName_dbl {bits : BitVec 64} (h : (Double.ofBits bits).isInt = true)
    (pool : List UInt16) :
    keyName (.dbl bits) pool
      = if 2 ^ 53 ≤ (Double.ofBits bits).toInt.natAbs then none
        else some (.index (Double.ofBits bits).toInt) := by
  obtain ⟨neg, n, hfin⟩ := eq_fin h
  have hlt : (Double.ofBits bits).abs.lt (.ofNat (2 ^ 53)) = true ↔ n < 2 ^ 53 := by
    have hone := Double.ONE_pos
    rw [hfin, Double.ofNat_exact (Nat.le_refl _), Double.lt, Double.abs, Double.cmp_fin]
    simp only [Double.signed, Bool.false_eq_true, if_false, beq_iff_eq, Option.some.injEq,
      compare_lt_iff_lt, Nat.cast_lt]
    exact Nat.mul_lt_mul_right hone
  have hlarge : 2 ^ 53 ≤ (Double.ofBits bits).toInt.natAbs ↔ ¬ n < 2 ^ 53 := by
    rw [hfin, toInt_fin, Double.natAbs_signed, Nat.not_lt]
  rw [keyName]
  by_cases hn : n < 2 ^ 53
  · have hfinite : (Double.ofBits bits).isFinite = true := by
      rw [hfin]
      rfl
    have hcast : (Double.ofBits bits).toI 64 = (Double.ofBits bits).toInt := by
      rw [hfin, toInt_fin, Double.toI, Double.cast, Nat.mul_div_cancel _ Double.ONE_pos]
      cases neg <;> simp only [Double.signed, if_true, Bool.false_eq_true, if_false] <;> omega
    rw [if_pos ⟨hfinite, h, hlt.2 hn⟩, if_neg (fun hl => hlarge.1 hl hn), hcast]
  · rw [if_neg (fun hall => hn (hlt.1 hall.2.2)), if_pos (hlarge.2 hn)]

/-- The text of an integral double below `2 ^ 53`. -/
theorem script_dbl {x : Double} (h : x.isInt = true) (hlt : x.toInt.natAbs < 2 ^ 53) :
    x.script = spell x.toInt := by
  obtain ⟨neg, n, rfl⟩ := eq_fin h
  rw [toInt_fin, Double.natAbs_signed] at hlt
  rw [toInt_fin, Double.script_whole neg hlt]

/-- **A name stands for the property key.** -/
theorem propertyKey_of_keyName {pool : List UInt16} {op : Operand} {name : KeyName}
    (h : keyName op pool = some name) : propertyKey pool op = name.text := by
  cases op with
  | str r =>
      rw [keyName, Option.some.injEq] at h
      cases hindex : canonicalIndex (r.units pool) with
      | some i =>
          simp only [hindex] at h
          subst h
          exact congrArg some (canonicalIndex_iff.1 hindex).1
      | none =>
          simp only [hindex] at h
          subst h
          rfl
  | int i =>
      rw [keyName, Option.some.injEq] at h
      subst h
      rfl
  | dbl bits =>
      have hint : (Double.ofBits bits).isInt = true := by
        by_contra hint
        rw [keyName, if_neg (fun hall => hint hall.2.1)] at h
        cases h
      rw [keyName_dbl hint] at h
      by_cases hlarge : 2 ^ 53 ≤ (Double.ofBits bits).toInt.natAbs
      · rw [if_pos hlarge] at h
        cases h
      · rw [if_neg hlarge, Option.some.injEq] at h
        subst h
        exact congrArg some (script_dbl hint (Nat.lt_of_not_le hlarge))
  | reg r => cases h
  | true | false | null | undef =>
      rw [keyName, Option.some.injEq] at h
      subst h
      rfl

/-- A number that is not too large has its value for a name. -/
theorem keyName_number {op : Operand} {i : ℤ} (h : number op = some i) (hlarge : ¬ Large op)
    (pool : List UInt16) : keyName op pool = some (.index i) := by
  cases op with
  | int j =>
      rw [number, Option.some.injEq] at h
      subst h
      rfl
  | dbl bits =>
      by_cases hint : (Double.ofBits bits).isInt = true
      · rw [number, if_pos hint, Option.some.injEq] at h
        subst h
        exact (keyName_dbl hint pool).trans (if_neg hlarge)
      · rw [number, if_neg hint] at h
        cases h
  | _ => cases h

/-- What is spelled has no letters. -/
theorem spell_low (i : ℤ) : ∀ d ∈ spell i, d ≤ 57 := by
  have hdigit := (Lib.Decimal.canonical_digits i.natAbs).digit
  intro d hd
  unfold spell at hd
  by_cases hneg : i < 0
  · rw [if_pos hneg, List.mem_cons] at hd
    rcases hd with rfl | hd
    · decide
    · exact (hdigit d hd).2
  · rw [if_neg hneg] at hd
    exact (hdigit d hd).2

theorem literal_ne_spell {op : Operand} {text : List ℕ} (h : literal op = some text) (i : ℤ) :
    text ≠ spell i := by
  rintro rfl
  have hlow := spell_low i
  have hletter : ∃ d ∈ spell i, 57 < d := by
    cases op with
    | true | false | null | undef =>
        rw [literal, Option.some.injEq] at h
        rw [← h]
        decide
    | _ => cases h
  obtain ⟨d, hd, hlt⟩ := hletter
  have hle := hlow d hd
  omega

/-- The first letter tells them apart. -/
theorem eq_of_literal {op : Operand} {text : List ℕ} (h : literal op = some text) :
    op = match text.head? with
      | some 116 => .true
      | some 102 => .false
      | some 110 => .null
      | _ => .undef := by
  cases op with
  | true | false | null | undef =>
      rw [literal, Option.some.injEq] at h
      rw [← h]
      rfl
  | _ => cases h

/-! ## Identity -/

/-- The sorts of constant keys. -/
theorem Constant.sort {op : Operand} (h : Constant op) :
    (∃ r, op = .str r) ∨ (∃ text, literal op = some text) ∨ ∃ i, number op = some i := by
  cases op with
  | str r => exact .inl ⟨r, rfl⟩
  | int i => exact .inr (.inr ⟨i, rfl⟩)
  | dbl bits => exact .inr (.inr ⟨_, if_pos h⟩)
  | reg r => cases h
  | true | false | null | undef => exact .inr (.inl ⟨_, rfl⟩)

theorem propertyKey_literal {op : Operand} {text : List ℕ} (h : literal op = some text)
    (pool : List UInt16) : propertyKey pool op = some text := by
  cases op with
  | true | false | null | undef => exact h
  | _ => cases h

theorem keyName_literal {op : Operand} {text : List ℕ} (h : literal op = some text)
    (pool : List UInt16) : ∃ l, keyName op pool = some (.lit l) := by
  cases op with
  | true | false | null | undef => exact ⟨_, rfl⟩
  | _ => cases h

/-- A string against the others. -/
theorem named_str {pool : List UInt16} {r : Worktime.PoolRef} {b : Operand} (hb : Constant b)
    (hsame : propertyKey pool (.str r) = propertyKey pool b) (hapart : ¬ Apart (.str r) b) :
    Named pool (.str r) b := by
  rcases hb.sort with ⟨r', rfl⟩ | ⟨text, htext⟩ | ⟨i, hi⟩
  · rw [propertyKey, propertyKey, Option.some.injEq, map_toNat_inj] at hsame
    refine ⟨_, rfl, ?_⟩
    rw [keyName, hsame]
  · exact absurd (.inr (.inr ⟨trivial, .inl (htext ▸ rfl)⟩)) hapart
  · have hlarge : ¬ Large b := fun h => hapart (.inr (.inl h))
    have hlong : ¬ 10 ^ 15 ≤ i.natAbs := fun h =>
      hapart (.inr (.inr ⟨trivial, .inr ⟨i, hi, h⟩⟩))
    have hname := keyName_number hi hlarge pool
    rw [propertyKey_of_keyName hname, propertyKey, KeyName.text, Option.some.injEq] at hsame
    have hindex := canonicalIndex_iff.2 ⟨hsame, Nat.lt_of_not_le hlong⟩
    refine ⟨_, ?_, hname⟩
    rw [keyName]
    simp only [hindex]

theorem Named.symm {pool : List UInt16} {a b : Operand} (h : Named pool a b) : Named pool b a := by
  obtain ⟨name, ha, hb⟩ := h
  exact ⟨name, hb, ha⟩

/-- **Names are property key identity.**  Constant keys of one name are one property key, and
keys that are one property key have one name, unless they are of the kinds of `Apart`. -/
theorem keyName_identity (pool : List UInt16) {a b : Operand} (ha : Constant a)
    (hb : Constant b) :
    (Named pool a b → propertyKey pool a = propertyKey pool b)
      ∧ (propertyKey pool a = propertyKey pool b → ¬ Apart a b → Named pool a b) := by
  refine ⟨fun ⟨name, hna, hnb⟩ => ?_, fun hsame hapart => ?_⟩
  · rw [propertyKey_of_keyName hna, propertyKey_of_keyName hnb]
  have hapart' : ¬ Apart b a := fun h => hapart h.symm
  rcases ha.sort with ⟨r, rfl⟩ | ⟨text, htext⟩ | ⟨i, hi⟩
  · exact named_str hb hsame hapart
  · have hkey := propertyKey_literal htext pool
    rcases hb.sort with ⟨r, rfl⟩ | ⟨text', htext'⟩ | ⟨j, hj⟩
    · exact (named_str ha hsame.symm hapart').symm
    · rw [hkey, propertyKey_literal htext' pool, Option.some.injEq] at hsame
      subst hsame
      have heq : a = b := (eq_of_literal htext).trans (eq_of_literal htext').symm
      rw [heq]
      obtain ⟨l, hl⟩ := keyName_literal htext' pool
      exact ⟨_, hl, hl⟩
    · have hname := keyName_number hj (fun h => hapart (.inr (.inl h))) pool
      rw [hkey, propertyKey_of_keyName hname, KeyName.text, Option.some.injEq] at hsame
      exact absurd hsame (literal_ne_spell htext j)
  · have hname := keyName_number hi (fun h => hapart (.inl (.inl h))) pool
    rcases hb.sort with ⟨r, rfl⟩ | ⟨text', htext'⟩ | ⟨j, hj⟩
    · exact (named_str ha hsame.symm hapart').symm
    · rw [propertyKey_literal htext' pool, propertyKey_of_keyName hname, KeyName.text,
        Option.some.injEq] at hsame
      exact absurd hsame.symm (literal_ne_spell htext' i)
    · have hname' := keyName_number hj (fun h => hapart (.inr (.inl h))) pool
      rw [propertyKey_of_keyName hname, propertyKey_of_keyName hname', KeyName.text, KeyName.text,
        Option.some.injEq, Lib.Decimal.spell_inj] at hsame
      exact ⟨_, hname, hsame ▸ hname'⟩

/-- The hypotheses of `keyName_identity` are satisfiable: `"12"` and `12`. -/
theorem keyName_identity_twelve : Named [49, 50] (.str ⟨0, 2⟩) (.int 12) := by
  refine (keyName_identity [49, 50] (a := .str ⟨0, 2⟩) (b := .int 12) trivial trivial).2
    (by decide) ?_
  rintro ((hlarge | ⟨hstr, -⟩) | hlarge | ⟨-, hlit | ⟨i, hi, hlong⟩⟩)
  · exact hlarge
  · exact hstr
  · exact hlarge
  · cases hlit
  · cases hi
    exact absurd hlong (by decide)

/-- `true` is the property key of the string `"true"`, and has another name. -/
theorem keyName_true_apart :
    propertyKey [116, 114, 117, 101] .true = propertyKey [116, 114, 117, 101] (.str ⟨0, 4⟩)
      ∧ ¬ Named [116, 114, 117, 101] .true (.str ⟨0, 4⟩) := by
  refine ⟨by decide, ?_⟩
  rintro ⟨name, ha, hb⟩
  rw [← ha] at hb
  exact absurd hb (by decide)

end Fc
end Lunar
