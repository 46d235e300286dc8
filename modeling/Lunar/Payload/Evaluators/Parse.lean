/-
# The number of a string in the four evaluators

A string is the same number in all four when both ways to trim it give one text, and
that text has no prefix of a radix and spells infinity as a script does or not at all
(`number_plain`).
-/

import Lunar.Payload.Evaluators.Reading
import Mathlib.Data.List.TakeDrop

namespace Lunar
namespace Evaluators

open Lib (Double)
open Interp (isDecimal decimalNum prefixed)

theorem isDecimal_of_isDigit {c : Char} (h : Double.isDigit c = true) : isDecimal c = true := by
  simp only [isDecimal, h, Bool.true_or]

theorem all_isDecimal {cs : List Char} (h : cs.all Double.isDigit = true) :
    cs.all isDecimal = true :=
  List.all_eq_true.2 fun c hc => isDecimal_of_isDigit (List.all_eq_true.1 h c hc)

theorem parseExp_decimal {cs : List Char} {x : ℤ} (h : Double.parseExp cs = some x) :
    cs.all isDecimal = true := by
  cases cs with
  | nil => rfl
  | cons c cs =>
      unfold Double.parseExp at h
      dsimp only at h
      split at h
      · next hc =>
          have hc' : isDecimal c = true := by
            rcases hc with rfl | rfl <;> decide
          rw [List.all_cons, hc', Bool.true_and]
          have hdigits {ds : List Char} {y : ℤ}
              (hy : (if (ds.isEmpty || !ds.all Double.isDigit) = true then none else some y) =
                some x) : ds.all isDecimal = true := by
            split at hy
            · cases hy
            · next hnot =>
                simp only [Bool.or_eq_true, Bool.not_eq_true', not_or, Bool.not_eq_false] at hnot
                exact all_isDecimal hnot.2
          split at h
          · rw [List.all_cons, hdigits h]
            rfl
          · rw [List.all_cons, hdigits h]
            rfl
          · exact hdigits h
      · cases h

theorem span_decimal {cs : List Char} (h : (cs.span Double.isDigit).2.all isDecimal = true) :
    cs.all isDecimal = true := by
  rw [List.span_eq_takeWhile_dropWhile] at h
  rw [← List.takeWhile_append_dropWhile (p := Double.isDigit) (l := cs), List.all_append,
    all_isDecimal List.all_takeWhile, h]
  rfl

theorem parseFrac_decimal {cs : List Char} (h : (Double.parseFrac cs).2.all isDecimal = true) :
    cs.all isDecimal = true := by
  unfold Double.parseFrac at h
  split at h
  · rw [List.all_cons, span_decimal h]
    rfl
  · exact h

/-- A text that spells infinity. -/
def spellsInf (cs : List Char) : Bool :=
  cs.map Char.toLower = ['i', 'n', 'f'] ∨
    cs.map Char.toLower = ['i', 'n', 'f', 'i', 'n', 'i', 't', 'y']

theorem parseMag_decimal {neg : Bool} {cs : List Char} (hinf : spellsInf cs = false)
    (h : cs.all isDecimal = false) : (Double.parseMag neg cs).getD .nan = .nan := by
  rw [Double.parseMag]
  dsimp only
  rw [if_neg (of_decide_eq_false hinf)]
  split
  · rfl
  · split
    · rfl
    · cases hexp : Double.parseExp (Double.parseFrac (cs.span Double.isDigit).2).2 with
      | none => rfl
      | some x =>
          have hall := span_decimal (parseFrac_decimal (parseExp_decimal hexp))
          rw [hall] at h
          cases h

/-- The text after its sign. -/
def unsigned : List Char → List Char
  | '-' :: cs | '+' :: cs => cs
  | cs => cs

theorem parse_decimal {t : String} (hinf : spellsInf (unsigned t.toList) = false)
    (h : t.toList.all isDecimal = false) : (Double.parse t).getD .nan = .nan := by
  rw [Double.parse]
  generalize t.toList = cs at hinf h ⊢
  match cs, hinf, h with
  | [], _, h => cases h
  | c :: cs, hinf, h =>
      by_cases hminus : c = '-'
      · subst hminus
        exact parseMag_decimal hinf h
      · by_cases hplus : c = '+'
        · subst hplus
          exact parseMag_decimal hinf h
        · have hcs : unsigned (c :: cs) = c :: cs := by
            unfold unsigned
            split
            · next heq => exact absurd (List.cons.inj heq).1 hminus
            · next heq => exact absurd (List.cons.inj heq).1 hplus
            · rfl
          rw [hcs] at hinf
          split
          · next heq => exact absurd (List.cons.inj heq).1 hminus
          · next heq => exact absurd (List.cons.inj heq).1 hplus
          · exact parseMag_decimal hinf h

/-- A text that spells infinity as a script does, or not at all. -/
def PlainInf (t : String) : Prop :=
  t = "Infinity" ∨ t = "+Infinity" ∨ t = "-Infinity" ∨ spellsInf (unsigned t.toList) = false

theorem decimalNum_eq {t : String} (h : PlainInf t) :
    decimalNum t = (Double.parse t).getD .nan := by
  rcases h with rfl | rfl | rfl | h
  · decide +kernel
  · decide +kernel
  · decide +kernel
  · have hinf {u : String} (hu : spellsInf (unsigned u.toList) = true) : t ≠ u := by
      rintro rfl
      rw [h] at hu
      cases hu
    have hplain : ¬ (t = "Infinity" ∨ t = "+Infinity") := by
      rintro (heq | heq)
      · exact hinf (by decide) heq
      · exact hinf (by decide) heq
    have hminus : t ≠ "-Infinity" := hinf (by decide)
    rw [decimalNum, if_neg hplain, if_neg hminus]
    split
    · next hall => exact (parse_decimal h (by simpa using hall)).symm
    · rfl

/-- A string that is trimmed alike by both sets of blanks, without a prefix of a radix,
and that spells infinity as a script does or not at all. -/
structure Plain (s : String) : Prop where
  trim : Lib.Text.trimMatches Interp.isWs s = Lib.Text.trim s
  hex : prefixed 'x' 'X' (Lib.Text.trim s).toList = none
  octal : prefixed 'o' 'O' (Lib.Text.trim s).toList = none
  binary : prefixed 'b' 'B' (Lib.Text.trim s).toList = none
  inf : PlainInf (Lib.Text.trim s)

theorem opaque_number_plain {s : String} (h : Plain s) : Opaque.strNum s = Emulate.strNum s := by
  rw [Opaque.strNum, Emulate.strNum]
  rw [h.hex, decimalNum_eq h.inf]

theorem exec_number_plain {s : String} (h : Plain s) : Interp.strToNum s = Emulate.strNum s := by
  rw [Interp.strToNum, Emulate.strNum]
  rw [h.trim, h.hex, h.octal, h.binary, decimalNum_eq h.inf]

/-- **A plain string** is the same number in all four. -/
theorem number_plain (e : Env) {s : String} (h : Plain s) {R : Reading} (hR : R ∈ others e) :
    R.ofStr s = (foldReading e).ofStr s := by
  rcases mem_others e hR with rfl | rfl | rfl
  · dsimp only [opaqueReading, foldReading]
    exact opaque_number_plain h
  · dsimp only [emulateReading, foldReading]
  · dsimp only [execReading, foldReading]
    exact exec_number_plain h

end Evaluators
end Lunar
