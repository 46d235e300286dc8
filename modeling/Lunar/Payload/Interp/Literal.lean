/-
# The number of a string

`str_to_num` of `payload/exec.rs` against the grammar of the language: `Literal` is the
`StringNumericLiteral` without its white space, with the double that its value is rounded to.
The function returns this double, and NaN for every other string, unless the digits of a literal
with a radix are rounded before the last of them that matters (`strToNum_iff`).
-/

import Lunar.Lib.Double.Digits
import Lunar.Payload.Evaluators.Parse

namespace Lunar
namespace Interp

open Lib (Double)
open Lib.Double (isDigit ofDigits)

/-! ## The grammar -/

/-- `DecimalDigits`. -/
def IsDigits (ds : List Char) : Prop := ds ≠ [] ∧ ds.all isDigit = true

/-- `ExponentPart`, if there is one, and the exponent. -/
inductive Exponent : List Char → ℤ → Prop
  | absent : Exponent [] 0
  | plain {e : Char} {ds : List Char} (he : e = 'e' ∨ e = 'E') (hds : IsDigits ds) :
    Exponent (e :: ds) (ofDigits ds)
  | plus {e : Char} {ds : List Char} (he : e = 'e' ∨ e = 'E') (hds : IsDigits ds) :
    Exponent (e :: '+' :: ds) (ofDigits ds)
  | minus {e : Char} {ds : List Char} (he : e = 'e' ∨ e = 'E') (hds : IsDigits ds) :
    Exponent (e :: '-' :: ds) (-(ofDigits ds : ℤ))

/-- `StrUnsignedDecimalLiteral` other than `Infinity`: a decimal `c * 10 ^ e`. -/
inductive Unsigned : List Char → ℕ → ℤ → Prop
  | digits {ds ex : List Char} {e : ℤ} (hds : IsDigits ds) (hex : Exponent ex e) :
    Unsigned (ds ++ ex) (ofDigits ds) e
  | point {ds fs ex : List Char} {e : ℤ} (hds : IsDigits ds) (hfs : fs.all isDigit = true)
    (hex : Exponent ex e) : Unsigned (ds ++ '.' :: (fs ++ ex)) (ofDigits (ds ++ fs)) (e - fs.length)
  | fraction {fs ex : List Char} {e : ℤ} (hfs : IsDigits fs) (hex : Exponent ex e) :
    Unsigned ('.' :: (fs ++ ex)) (ofDigits fs) (e - fs.length)

/-- The letters behind the zero of a `NonDecimalIntegerLiteral`, and the bits of its digits. -/
inductive RadixLetter : Char → ℕ → Prop
  | hex {x : Char} (hx : x = 'x' ∨ x = 'X') : RadixLetter x 4
  | octal {x : Char} (hx : x = 'o' ∨ x = 'O') : RadixLetter x 3
  | binary {x : Char} (hx : x = 'b' ∨ x = 'B') : RadixLetter x 1

/-- The digits of a literal with a radix. -/
structure RadixLiteral (t : List Char) (k : ℕ) (ds : List ℕ) : Prop where
  nonempty : ds ≠ []
  spelled : ∃ x body, RadixLetter x k ∧ t = '0' :: x :: body ∧
    body.mapM (Lib.Text.digit (2 ^ k)) = some ds

/-- `StringNumericLiteral` without white space around it, and the number of it. -/
inductive Literal : List Char → Double → Prop
  | empty : Literal [] .zero
  | decimal {cs : List Char} {c : ℕ} {e : ℤ} (h : Unsigned cs c e) :
    Literal cs (.ofDecimal false c e)
  | plus {cs : List Char} {c : ℕ} {e : ℤ} (h : Unsigned cs c e) :
    Literal ('+' :: cs) (.ofDecimal false c e)
  | minus {cs : List Char} {c : ℕ} {e : ℤ} (h : Unsigned cs c e) :
    Literal ('-' :: cs) (.ofDecimal true c e)
  | infinity : Literal "Infinity".toList (.inf false)
  | plusInfinity : Literal "+Infinity".toList (.inf false)
  | minusInfinity : Literal "-Infinity".toList (.inf true)
  | radix {t : List Char} {k : ℕ} {ds : List ℕ} (h : RadixLiteral t k ds) :
    Literal t (.ofNat (Double.value k ds))

/-- `x` is the number of the trimmed string `t`. -/
def NumberOf (t : List Char) (x : Double) : Prop :=
  (∀ v, Literal t v → x = v) ∧ ((∀ v, ¬ Literal t v) → x = .nan)

/-- The number of a literal is not NaN, so NaN stands for the strings that are none. -/
theorem literal_ne_nan {t : List Char} {v : Double} (h : Literal t v) : v ≠ .nan := by
  have hquot (neg : Bool) (n d : ℕ) : Double.ofQuot neg n d ≠ .nan := by
    rw [Double.ofQuot]
    split
    · exact Double.noConfusion
    · exact Double.noConfusion
  cases h with
  | empty => exact Double.noConfusion
  | decimal hu => exact hquot _ _ _
  | plus hu => exact hquot _ _ _
  | minus hu => exact hquot _ _ _
  | infinity => exact Double.noConfusion
  | plusInfinity => exact Double.noConfusion
  | minusInfinity => exact Double.noConfusion
  | radix hr => exact hquot _ _ _

/-! ## Characters -/

/-- The characters of a decimal. -/
theorem mem_of_isDecimal {c : Char} (h : isDecimal c = true) :
    c ∈ ['0', '1', '2', '3', '4', '5', '6', '7', '8', '9', '.', 'e', 'E', '+', '-'] := by
  simp only [isDecimal, Bool.or_eq_true, decide_eq_true_eq] at h
  rcases h with ((((h | rfl) | rfl) | rfl) | rfl) | rfl
  · simp only [Double.isDigit, Bool.and_eq_true, decide_eq_true_eq] at h
    have hle (a b : Char) : a ≤ b ↔ a.toNat ≤ b.toNat := UInt32.le_iff_toNat_le
    rw [hle, hle] at h
    have h0 : '0'.toNat = 48 := rfl
    have h9 : '9'.toNat = 57 := rfl
    have hc := Char.ofNat_toNat c
    obtain ⟨n, hn⟩ : ∃ n, c.toNat = 48 + n := ⟨c.toNat - 48, by omega⟩
    rw [hn] at hc
    have hn10 : n < 10 := by omega
    have hall : ∀ n < 10, Char.ofNat (48 + n)
        ∈ ['0', '1', '2', '3', '4', '5', '6', '7', '8', '9', '.', 'e', 'E', '+', '-'] := by decide
    exact hc ▸ hall n hn10
  all_goals decide

/-- No decimal is spelled by letters. -/
theorem toLower_decimal {c : Char} (h : isDecimal c = true) :
    c.toLower ≠ 'i' ∧ c.toLower ≠ 'n' := by
  have hall : ['0', '1', '2', '3', '4', '5', '6', '7', '8', '9', '.', 'e', 'E', '+', '-'].all
      (fun c => decide (c.toLower ≠ 'i' ∧ c.toLower ≠ 'n')) = true := by decide
  exact of_decide_eq_true (List.all_eq_true.1 hall c (mem_of_isDecimal h))

theorem radixLetter_not_decimal {x : Char} {k : ℕ} (h : RadixLetter x k) : isDecimal x = false := by
  rcases h with ⟨rfl | rfl⟩ | ⟨rfl | rfl⟩ | ⟨rfl | rfl⟩ <;> decide

/-! ## Decimals -/

theorem isDigits_iff {ds : List Char} :
    (ds.isEmpty || !ds.all isDigit) = false ↔ IsDigits ds := by
  rw [IsDigits, Bool.or_eq_false_iff, Bool.not_eq_false', List.isEmpty_eq_false_iff]

theorem exponent_decimal {ex : List Char} {e : ℤ} (h : Exponent ex e) :
    ex.all isDecimal = true := by
  have hletter {e : Char} (he : e = 'e' ∨ e = 'E') : isDecimal e = true := by
    rcases he with rfl | rfl <;> decide
  cases h with
  | absent => rfl
  | plain he hds =>
      rw [List.all_cons, hletter he, Evaluators.all_isDecimal hds.2]
      rfl
  | plus he hds =>
      rw [List.all_cons, List.all_cons, hletter he, Evaluators.all_isDecimal hds.2]
      rfl
  | minus he hds =>
      rw [List.all_cons, List.all_cons, hletter he, Evaluators.all_isDecimal hds.2]
      rfl

theorem unsigned_decimal {cs : List Char} {c : ℕ} {e : ℤ} (h : Unsigned cs c e) :
    cs.all isDecimal = true ∧ cs ≠ [] := by
  cases h with
  | digits hds hex =>
      refine ⟨?_, by simp [hds.1]⟩
      rw [List.all_append, Evaluators.all_isDecimal hds.2, exponent_decimal hex]
      rfl
  | point hds hfs hex =>
      refine ⟨?_, by simp⟩
      rw [List.all_append, List.all_cons, List.all_append, Evaluators.all_isDecimal hds.2,
        Evaluators.all_isDecimal hfs, exponent_decimal hex]
      rfl
  | fraction hfs hex =>
      refine ⟨?_, by simp⟩
      rw [List.all_cons, List.all_append, Evaluators.all_isDecimal hfs.2, exponent_decimal hex]
      rfl

/-- The parser of an exponent accepts the exponents. -/
theorem parseExp_iff {cs : List Char} {e : ℤ} : Double.parseExp cs = some e ↔ Exponent cs e := by
  constructor
  · intro h
    match cs, h with
    | [], h =>
        obtain rfl : (0 : ℤ) = e := Option.some.inj h
        exact .absent
    | x :: cs, h =>
        unfold Double.parseExp at h
        dsimp only at h
        split at h
        · next hx =>
            have hcase {ds : List Char} {y : ℤ}
                (hy : (if (ds.isEmpty || !ds.all isDigit) = true then none else some y) = some e) :
                IsDigits ds ∧ y = e := by
              split at hy
              · cases hy
              · next hnot => exact ⟨isDigits_iff.1 (by simpa using hnot), Option.some.inj hy⟩
            split at h
            · obtain ⟨hds, rfl⟩ := hcase h
              exact .minus hx hds
            · obtain ⟨hds, rfl⟩ := hcase h
              exact .plus hx hds
            · obtain ⟨hds, rfl⟩ := hcase h
              exact .plain hx hds
        · cases h
  · intro h
    cases h with
    | absent => rfl
    | @plain x ds hx hds =>
        unfold Double.parseExp
        dsimp only
        rw [if_pos hx]
        split
        · next rest =>
            exact absurd hds.2 (by simp [Double.isDigit])
        · next rest =>
            exact absurd hds.2 (by simp [Double.isDigit])
        · rw [isDigits_iff.2 hds]
          rfl
    | @plus x ds hx hds =>
        unfold Double.parseExp
        dsimp only
        rw [if_pos hx]
        show (if (ds.isEmpty || !ds.all isDigit) = true then none else some (ofDigits ds : ℤ)) = _
        rw [isDigits_iff.2 hds]
        rfl
    | @minus x ds hx hds =>
        unfold Double.parseExp
        dsimp only
        rw [if_pos hx]
        show (if (ds.isEmpty || !ds.all isDigit) = true then none else some (-(ofDigits ds : ℤ))) = _
        rw [isDigits_iff.2 hds]
        rfl

theorem span_digits {ds ex : List Char} (hds : ds.all isDigit = true)
    (hex : ∀ c, ex.head? = some c → isDigit c = false) :
    (ds ++ ex).span isDigit = (ds, ex) := by
  have hdrop : ex.takeWhile isDigit = [] ∧ ex.dropWhile isDigit = ex := by
    cases ex with
    | nil => exact ⟨rfl, rfl⟩
    | cons c ex =>
        have hc := hex c rfl
        exact ⟨List.takeWhile_cons_of_neg (by simp [hc]), List.dropWhile_cons_of_neg (by simp [hc])⟩
  rw [List.span_eq_takeWhile_dropWhile,
    List.takeWhile_append_of_pos (List.all_eq_true.1 hds),
    List.dropWhile_append_of_pos (List.all_eq_true.1 hds), hdrop.1, hdrop.2, List.append_nil]

theorem exponent_head {ex : List Char} {e : ℤ} (h : Exponent ex e) :
    ∀ c, ex.head? = some c → isDigit c = false ∧ c ≠ '.' := by
  have hletter {x : Char} (he : x = 'e' ∨ x = 'E') : ∀ c, some x = some c →
      isDigit c = false ∧ c ≠ '.' := by
    intro c hc
    obtain rfl := Option.some.inj hc
    rcases he with rfl | rfl <;> decide
  cases h with
  | absent => simp
  | plain he hds => exact hletter he
  | plus he hds => exact hletter he
  | minus he hds => exact hletter he

theorem parseFrac_of_ne {cs : List Char} (h : ∀ c, cs.head? = some c → c ≠ '.') :
    Double.parseFrac cs = ([], cs) := by
  unfold Double.parseFrac
  split
  · exact absurd rfl (h '.' rfl)
  · rfl

/-- The parts that the parser finds are those of a decimal. -/
theorem unsigned_of_parts {ds rest fs ex : List Char} {e : ℤ} (hds : ds.all isDigit = true)
    (hfrac : Double.parseFrac rest = (fs, ex)) (hsome : (ds.isEmpty && fs.isEmpty) = false)
    (hex : Exponent ex e) : Unsigned (ds ++ rest) (ofDigits (ds ++ fs)) (e - fs.length) := by
  unfold Double.parseFrac at hfrac
  split at hfrac
  · next rest =>
      rw [List.span_eq_takeWhile_dropWhile] at hfrac
      obtain ⟨rfl, rfl⟩ := Prod.mk.inj hfrac
      have hsplit := List.takeWhile_append_dropWhile (p := isDigit) (l := rest)
      have hfs : (rest.takeWhile isDigit).all isDigit = true := List.all_takeWhile
      rw [← hsplit]
      by_cases hnil : ds = []
      · subst hnil
        have hne : rest.takeWhile isDigit ≠ [] := by simpa using hsome
        have h := Unsigned.fraction ⟨hne, hfs⟩ hex
        simpa using h
      · have h := Unsigned.point ⟨hnil, hds⟩ hfs hex
        simpa using h
  · obtain ⟨rfl, rfl⟩ := Prod.mk.inj hfrac
    have hnil : ds ≠ [] := by simpa using hsome
    have h := Unsigned.digits ⟨hnil, hds⟩ hex
    simpa using h

/-- The parts of a decimal are those that the parser finds. -/
theorem parts_of_unsigned {cs : List Char} {c : ℕ} {e : ℤ} (h : Unsigned cs c e) :
    ∃ ds rest fs ex x, cs.span isDigit = (ds, rest) ∧ Double.parseFrac rest = (fs, ex) ∧
      (ds.isEmpty && fs.isEmpty) = false ∧ Exponent ex x ∧ c = ofDigits (ds ++ fs) ∧
      e = x - fs.length := by
  cases h with
  | @digits ds ex e hds hex =>
      refine ⟨ds, ex, [], ex, e, span_digits hds.2 fun c hc => (exponent_head hex c hc).1,
        parseFrac_of_ne fun c hc => (exponent_head hex c hc).2, ?_, hex, ?_, ?_⟩
      · simp [hds.1]
      · rw [List.append_nil]
      · simp
  | @point ds fs ex e hds hfs hex =>
      have hpoint : ∀ c, ('.' :: (fs ++ ex)).head? = some c → isDigit c = false := by
        intro c hc
        obtain rfl := Option.some.inj hc
        decide
      refine ⟨ds, '.' :: (fs ++ ex), fs, ex, e, span_digits hds.2 hpoint, ?_, ?_, hex, rfl, rfl⟩
      · exact span_digits hfs fun c hc => (exponent_head hex c hc).1
      · simp [hds.1]
  | @fraction fs ex e hfs hex =>
      have hpoint : ∀ c, ('.' :: (fs ++ ex)).head? = some c → isDigit c = false := by
        intro c hc
        obtain rfl := Option.some.inj hc
        decide
      refine ⟨[], '.' :: (fs ++ ex), fs, ex, e, span_digits (List.all_nil) hpoint, ?_, ?_, hex, rfl,
        rfl⟩
      · exact span_digits hfs.2 fun c hc => (exponent_head hex c hc).1
      · simp [hfs.1]

/-- **The parser of a decimal** accepts the decimals and rounds them. -/
theorem parseMag_iff {neg : Bool} {cs : List Char} {v : Double} (hall : cs.all isDecimal = true) :
    Double.parseMag neg cs = some v ↔ ∃ c e, Unsigned cs c e ∧ Double.ofDecimal neg c e = v := by
  have hlower {x : Char} {xs : List Char} (hx : x = 'i' ∨ x = 'n') :
      cs.map Char.toLower ≠ x :: xs := by
    cases cs with
    | nil => simp
    | cons c cs =>
        rw [List.all_cons, Bool.and_eq_true] at hall
        obtain ⟨hi, hn⟩ := toLower_decimal hall.1
        intro heq
        rw [List.map_cons] at heq
        obtain ⟨rfl, -⟩ := List.cons.inj heq
        rcases hx with hx | hx
        · exact hi hx
        · exact hn hx
  have hinf : ¬ (cs.map Char.toLower = ['i', 'n', 'f'] ∨
      cs.map Char.toLower = ['i', 'n', 'f', 'i', 'n', 'i', 't', 'y']) := by
    rintro (heq | heq)
    · exact hlower (Or.inl rfl) heq
    · exact hlower (Or.inl rfl) heq
  have hnan : ¬ cs.map Char.toLower = ['n', 'a', 'n'] := hlower (Or.inr rfl)
  rw [Double.parseMag]
  dsimp only
  rw [if_neg hinf, if_neg hnan]
  constructor
  · intro h
    split at h
    · cases h
    · next hsome =>
        obtain ⟨x, hx, hv⟩ := Option.map_eq_some_iff.1 h
        have hspan := List.span_eq_takeWhile_dropWhile (p := isDigit) (l := cs)
        have hsplit := List.takeWhile_append_dropWhile (p := isDigit) (l := cs)
        rw [hspan] at hsome hx hv
        have hunsigned := unsigned_of_parts (List.all_takeWhile (p := isDigit) (l := cs))
          (Prod.mk.eta (p := Double.parseFrac _)).symm (by simpa using hsome) (parseExp_iff.1 hx)
        rw [hsplit] at hunsigned
        exact ⟨_, _, hunsigned, hv⟩
  · rintro ⟨c, e, h, hv⟩
    obtain ⟨ds, rest, fs, ex, x, hspan, hfrac, hsome, hex, hc, he⟩ := parts_of_unsigned h
    rw [hspan]
    dsimp only
    rw [hfrac]
    dsimp only
    rw [hsome, if_neg Bool.false_ne_true, parseExp_iff.2 hex, Option.map_some, ← hc, ← he, hv]

theorem unsigned_head {cs : List Char} {c : ℕ} {e : ℤ} (h : Unsigned cs c e) :
    ∃ x xs, cs = x :: xs ∧ x ≠ '+' ∧ x ≠ '-' := by
  have hdigit {ds rest : List Char} (hds : IsDigits ds) :
      ∃ x xs, ds ++ rest = x :: xs ∧ x ≠ '+' ∧ x ≠ '-' := by
    obtain ⟨x, xs, rfl⟩ := List.exists_cons_of_ne_nil hds.1
    have hx := List.all_eq_true.1 hds.2 x List.mem_cons_self
    refine ⟨x, xs ++ rest, rfl, ?_, ?_⟩
    · rintro rfl
      exact absurd hx (by decide)
    · rintro rfl
      exact absurd hx (by decide)
  cases h with
  | digits hds hex => exact hdigit hds
  | point hds hfs hex => exact hdigit hds
  | fraction hfs hex => exact ⟨'.', _, rfl, by decide, by decide⟩

/-- The strings of decimal characters that are literals are those that are parsed. -/
theorem parse_iff {t : String} {v : Double} (hall : t.toList.all isDecimal = true) :
    Double.parse t = some v ↔
      (∃ c e, Unsigned t.toList c e ∧ Double.ofDecimal false c e = v) ∨
      (∃ cs c e, t.toList = '+' :: cs ∧ Unsigned cs c e ∧ Double.ofDecimal false c e = v) ∨
      ∃ cs c e, t.toList = '-' :: cs ∧ Unsigned cs c e ∧ Double.ofDecimal true c e = v := by
  rw [Double.parse]
  generalize t.toList = l at hall
  split
  · next cs =>
      rw [List.all_cons, Bool.and_eq_true] at hall
      rw [parseMag_iff hall.2]
      constructor
      · rintro ⟨c, e, h⟩
        exact Or.inr (Or.inr ⟨cs, c, e, rfl, h⟩)
      · rintro (⟨c, e, h, -⟩ | ⟨cs', c, e, heq, h⟩ | ⟨cs', c, e, heq, h⟩)
        · obtain ⟨x, xs, heq, -, hne⟩ := unsigned_head h
          exact absurd (List.cons.inj heq).1.symm hne
        · exact absurd (List.cons.inj heq).1 (by decide)
        · obtain ⟨-, rfl⟩ := List.cons.inj heq
          exact ⟨c, e, h⟩
  · next cs =>
      rw [List.all_cons, Bool.and_eq_true] at hall
      rw [parseMag_iff hall.2]
      constructor
      · rintro ⟨c, e, h⟩
        exact Or.inr (Or.inl ⟨cs, c, e, rfl, h⟩)
      · rintro (⟨c, e, h, -⟩ | ⟨cs', c, e, heq, h⟩ | ⟨cs', c, e, heq, h⟩)
        · obtain ⟨x, xs, heq, hne, -⟩ := unsigned_head h
          exact absurd (List.cons.inj heq).1.symm hne
        · obtain ⟨-, rfl⟩ := List.cons.inj heq
          exact ⟨c, e, h⟩
        · exact absurd (List.cons.inj heq).1 (by decide)
  · next hminus hplus =>
      rw [parseMag_iff hall]
      constructor
      · exact Or.inl
      · rintro (h | ⟨cs', c, e, heq, h⟩ | ⟨cs', c, e, heq, h⟩)
        · exact h
        · exact absurd heq (hplus cs')
        · exact absurd heq (hminus cs')

/-! ## Literals with a radix -/

theorem digit_lt {r d : ℕ} {c : Char} (h : Lib.Text.digit r c = some d) : d < r := by
  unfold Lib.Text.digit at h
  extract_lets x at h
  split at h
  · next hlt => exact Option.some.inj h ▸ hlt
  · cases h

theorem mapM_digit_lt {r : ℕ} {body : List Char} {ds : List ℕ}
    (h : body.mapM (Lib.Text.digit r) = some ds) : ∀ d ∈ ds, d < r := by
  induction body generalizing ds with
  | nil =>
      obtain rfl : [] = ds := Option.some.inj h
      simp
  | cons c body ih =>
      rw [List.mapM_cons] at h
      obtain ⟨d, hd, h⟩ := Option.bind_eq_some_iff.1 h
      obtain ⟨ds', hds', h⟩ := Option.bind_eq_some_iff.1 h
      obtain rfl : d :: ds' = ds := Option.some.inj h
      intro x hx
      rcases List.mem_cons.1 hx with rfl | hx
      · exact digit_lt hd
      · exact ih hds' x hx

/-- The digits of a literal, one after the other. -/
theorem radixNum_eq {k : ℕ} {body : List Char} (hne : body ≠ []) :
    radixNum (2 ^ k) body
      = ((body.mapM (Lib.Text.digit (2 ^ k))).map fun ds => Double.readDigits k ds .zero).getD
        .nan := by
  have hfold (body : List Char) (x : Double) :
      body.foldlM (fun acc c => (Lib.Text.digit (2 ^ k) c).map fun d =>
          (acc.mul (.ofNat (2 ^ k))).add (.ofNat d)) x
        = (body.mapM (Lib.Text.digit (2 ^ k))).map fun ds => Double.readDigits k ds x := by
    induction body generalizing x with
    | nil => rfl
    | cons c body ih =>
        rw [List.foldlM_cons, List.mapM_cons]
        cases Lib.Text.digit (2 ^ k) c with
        | none => rfl
        | some d =>
            show List.foldlM _ _ body = _
            rw [ih]
            cases List.mapM (Lib.Text.digit (2 ^ k)) body <;> rfl
  rw [radixNum, if_neg hne, hfold]

theorem radixLetter_inj {x : Char} {k k' : ℕ} (h : RadixLetter x k) (h' : RadixLetter x k') :
    k = k' := by
  rcases h with ⟨rfl | rfl⟩ | ⟨rfl | rfl⟩ | ⟨rfl | rfl⟩ <;>
    rcases h' with ⟨h' | h'⟩ | ⟨h' | h'⟩ | ⟨h' | h'⟩ <;>
    first
      | rfl
      | exact absurd h' (by decide)

theorem literal_radix {x : Char} {k : ℕ} (hx : RadixLetter x k) {body : List Char} {v : Double}
    (h : Literal ('0' :: x :: body) v) :
    ∃ ds, ds ≠ [] ∧ body.mapM (Lib.Text.digit (2 ^ k)) = some ds ∧
      Double.ofNat (Double.value k ds) = v := by
  have hdecimal {c : ℕ} {e : ℤ} (hu : Unsigned ('0' :: x :: body) c e) : False := by
    have hall := (unsigned_decimal hu).1
    rw [List.all_cons, List.all_cons, radixLetter_not_decimal hx] at hall
    simp at hall
  generalize hl : '0' :: x :: body = l at h
  cases h with
  | empty => cases hl
  | decimal hu =>
      subst hl
      exact (hdecimal hu).elim
  | plus hu => exact absurd (List.cons.inj hl).1 (by decide)
  | minus hu => exact absurd (List.cons.inj hl).1 (by decide)
  | infinity => exact absurd (List.cons.inj hl).1 (by decide)
  | plusInfinity => exact absurd (List.cons.inj hl).1 (by decide)
  | minusInfinity => exact absurd (List.cons.inj hl).1 (by decide)
  | @radix _ k' ds hr =>
      obtain ⟨x', body', hx', heq, hds⟩ := hr.spelled
      rw [← hl] at heq
      obtain ⟨-, heq⟩ := List.cons.inj heq
      obtain ⟨rfl, rfl⟩ := List.cons.inj heq
      obtain rfl := radixLetter_inj hx hx'
      exact ⟨ds, hr.nonempty, hds, rfl⟩

theorem mapM_nil_iff {r : ℕ} {body : List Char} {ds : List ℕ}
    (h : body.mapM (Lib.Text.digit r) = some ds) : ds = [] ↔ body = [] := by
  cases body with
  | nil =>
      obtain rfl : [] = ds := Option.some.inj h
      simp
  | cons c body =>
      rw [List.mapM_cons] at h
      obtain ⟨d, -, h⟩ := Option.bind_eq_some_iff.1 h
      obtain ⟨ds', -, h⟩ := Option.bind_eq_some_iff.1 h
      obtain rfl : d :: ds' = ds := Option.some.inj h
      simp

/-- **A literal with a radix** is read right unless its digits are cut. -/
theorem radixNum_iff {x : Char} {k : ℕ} (hx : RadixLetter x k) (body : List Char) :
    NumberOf ('0' :: x :: body) (radixNum (2 ^ k) body) ↔
      ¬ ∃ ds, body.mapM (Lib.Text.digit (2 ^ k)) = some ds ∧ Double.Cut k ds := by
  have hk : k ≤ 52 := by rcases hx with _ | _ | _ <;> decide
  have hcut : ¬ Double.Cut k [] := by
    rintro ⟨a, d, b, q, i, heq, -⟩
    simp at heq
  by_cases hbody : body = []
  · subst hbody
    refine iff_of_true ⟨fun v hv => ?_, fun _ => rfl⟩ ?_
    · obtain ⟨ds, hne, hds, -⟩ := literal_radix hx hv
      exact absurd ((mapM_nil_iff hds).2 rfl) hne
    · rintro ⟨ds, hds, hc⟩
      rw [(mapM_nil_iff hds).2 rfl] at hc
      exact hcut hc
  rw [radixNum_eq hbody]
  cases hmap : body.mapM (Lib.Text.digit (2 ^ k)) with
  | none =>
      refine iff_of_true ⟨fun v hv => ?_, fun _ => rfl⟩ (by simp)
      obtain ⟨ds, -, hds, -⟩ := literal_radix hx hv
      rw [hmap] at hds
      cases hds
  | some ds =>
      have hne : ds ≠ [] := fun h => hbody ((mapM_nil_iff hmap).1 h)
      have hlit : Literal ('0' :: x :: body) (.ofNat (Double.value k ds)) :=
        .radix ⟨hne, x, body, hx, rfl, hmap⟩
      have hread := Double.readDigits_iff hk (mapM_digit_lt hmap)
      show NumberOf _ (Double.readDigits k ds .zero) ↔ _
      constructor
      · rintro ⟨h, -⟩ ⟨ds', hds', hc⟩
        obtain rfl := Option.some.inj hds'
        exact hread.1 (h _ hlit) hc
      · intro h
        have hexact := hread.2 fun hc => h ⟨ds, rfl, hc⟩
        refine ⟨fun v hv => ?_, fun hnone => absurd hlit (hnone _)⟩
        obtain ⟨ds', -, hds', hv⟩ := literal_radix hx hv
        rw [hmap] at hds'
        obtain rfl := Option.some.inj hds'
        rw [hexact, hv]

/-! ## The function -/

theorem prefixed_iff {lower upper : Char} {t body : List Char} :
    prefixed lower upper t = some body → t = '0' :: lower :: body ∨ t = '0' :: upper :: body := by
  have hstrip {c : Char} (h : Lib.Text.stripPrefix ['0', c] t = some body) :
      t = '0' :: c :: body := by
    rw [Lib.Text.stripPrefix] at h
    split at h
    · next hpre =>
        obtain ⟨rest, rfl⟩ := hpre
        obtain rfl : rest = body := Option.some.inj h
        rfl
    · cases h
  intro h
  rw [prefixed] at h
  cases hl : Lib.Text.stripPrefix ['0', lower] t with
  | some b =>
      rw [hl] at h
      obtain rfl : b = body := Option.some.inj h
      exact Or.inl (hstrip hl)
  | none =>
      rw [hl] at h
      exact Or.inr (hstrip h)

theorem prefixed_cons {lower upper x : Char} (hx : x = lower ∨ x = upper) (body : List Char) :
    prefixed lower upper ('0' :: x :: body) = some body := by
  have hstrip (c : Char) : Lib.Text.stripPrefix ['0', c] ('0' :: x :: body)
      = if c = x then some body else none := by
    rw [Lib.Text.stripPrefix]
    simp [List.cons_prefix_cons]
  rw [prefixed, hstrip, hstrip]
  rcases hx with rfl | rfl
  · rw [if_pos rfl]
    rfl
  · split <;> simp

/-- A text that has no prefix of a radix. -/
theorem prefixed_none_of {t : List Char} {lower upper : Char}
    (h : prefixed lower upper t = none) {x : Char} (hx : x = lower ∨ x = upper)
    (body : List Char) : t ≠ '0' :: x :: body := by
  rintro rfl
  rw [prefixed_cons hx] at h
  cases h

/-- **The texts without a prefix of a radix** are read right. -/
theorem decimalNum_number {t : String} (hne : t.toList ≠ [])
    (hradix : ∀ x k body, RadixLetter x k → t.toList ≠ '0' :: x :: body) :
    NumberOf t.toList (decimalNum t) := by
  have htoList (u : String) : t = u ↔ t.toList = u.toList := String.toList_inj.symm
  have hnoradix {k : ℕ} {ds : List ℕ} (h : RadixLiteral t.toList k ds) : False := by
    obtain ⟨x, body, hx, heq, -⟩ := h.spelled
    exact hradix x k body hx heq
  -- what a literal can be
  have hcases {v : Double} (h : Literal t.toList v) :
      t.toList = "Infinity".toList ∧ .inf false = v ∨ t.toList = "+Infinity".toList ∧ .inf false = v ∨
        t.toList = "-Infinity".toList ∧ .inf true = v ∨
        t.toList.all isDecimal = true ∧ Double.parse t = some v := by
    generalize hl : t.toList = l at h
    rw [hl] at hne
    cases h with
    | empty => exact absurd rfl hne
    | decimal hu =>
        subst hl
        have hall := (unsigned_decimal hu).1
        exact Or.inr (Or.inr (Or.inr ⟨hall, (parse_iff hall).2 (Or.inl ⟨_, _, hu, rfl⟩)⟩))
    | plus hu =>
        have hall : t.toList.all isDecimal = true := by
          rw [hl, List.all_cons, (unsigned_decimal hu).1]
          rfl
        rw [hl] at hall
        refine Or.inr (Or.inr (Or.inr ⟨hall, ?_⟩))
        exact (parse_iff (hl ▸ hall)).2 (Or.inr (Or.inl ⟨_, _, _, hl, hu, rfl⟩))
    | minus hu =>
        have hall : t.toList.all isDecimal = true := by
          rw [hl, List.all_cons, (unsigned_decimal hu).1]
          rfl
        rw [hl] at hall
        refine Or.inr (Or.inr (Or.inr ⟨hall, ?_⟩))
        exact (parse_iff (hl ▸ hall)).2 (Or.inr (Or.inr ⟨_, _, _, hl, hu, rfl⟩))
    | infinity => exact Or.inl ⟨rfl, rfl⟩
    | plusInfinity => exact Or.inr (Or.inl ⟨rfl, rfl⟩)
    | minusInfinity => exact Or.inr (Or.inr (Or.inl ⟨rfl, rfl⟩))
    | radix h => exact (hnoradix (hl ▸ h)).elim
  rw [decimalNum]
  by_cases hinf : t = "Infinity" ∨ t = "+Infinity"
  · have hlit : Literal t.toList (.inf false) := by
      rcases hinf with rfl | rfl
      · exact .infinity
      · exact .plusInfinity
    have hnot : t.toList.all isDecimal = false ∧ t.toList ≠ "-Infinity".toList := by
      rcases hinf with rfl | rfl <;> decide
    rw [if_pos hinf]
    refine ⟨fun v hv => ?_, fun hnone => absurd hlit (hnone _)⟩
    rcases hcases hv with ⟨-, h⟩ | ⟨-, h⟩ | ⟨h, -⟩ | ⟨h, -⟩
    · exact h
    · exact h
    · exact absurd h hnot.2
    · rw [hnot.1] at h
      cases h
  rw [if_neg hinf]
  obtain ⟨hplain, hplus⟩ := not_or.1 hinf
  by_cases hminus : t = "-Infinity"
  · have hlit : Literal t.toList (.inf true) := by
      rw [hminus]
      exact .minusInfinity
    have hnot : t.toList.all isDecimal = false := by
      rw [hminus]
      decide
    rw [if_pos hminus]
    refine ⟨fun v hv => ?_, fun hnone => absurd hlit (hnone _)⟩
    rcases hcases hv with ⟨h, -⟩ | ⟨h, -⟩ | ⟨-, h⟩ | ⟨h, -⟩
    · exact absurd ((htoList _).2 h) hplain
    · exact absurd ((htoList _).2 h) hplus
    · exact h
    · rw [hnot] at h
      cases h
  rw [if_neg hminus]
  have hparsed {v : Double} (h : Literal t.toList v) :
      t.toList.all isDecimal = true ∧ Double.parse t = some v := by
    rcases hcases h with ⟨h, -⟩ | ⟨h, -⟩ | ⟨h, -⟩ | h
    · exact absurd ((htoList _).2 h) hplain
    · exact absurd ((htoList _).2 h) hplus
    · exact absurd ((htoList _).2 h) hminus
    · exact h
  cases hall : t.toList.all isDecimal with
  | false =>
      refine ⟨fun v hv => ?_, fun _ => rfl⟩
      rw [(hparsed hv).1] at hall
      cases hall
  | true =>
      cases hparse : Double.parse t with
      | none =>
          refine ⟨fun v hv => ?_, fun _ => rfl⟩
          rw [(hparsed hv).2] at hparse
          cases hparse
      | some x =>
          have hlit : Literal t.toList x := by
            rcases (parse_iff hall).1 hparse with ⟨c, e, h, hx⟩ | ⟨cs, c, e, heq, h, hx⟩ |
              ⟨cs, c, e, heq, h, hx⟩
            · rw [← hx]
              exact .decimal h
            · rw [← hx, heq]
              exact .plus h
            · rw [← hx, heq]
              exact .minus h
          refine ⟨fun v hv => ?_, fun hnone => absurd hlit (hnone _)⟩
          have hv := (hparsed hv).2
          rw [hparse] at hv
          exact Option.some.inj hv

theorem literal_nil {v : Double} (h : Literal [] v) : v = .zero := by
  generalize hl : [] = l at h
  cases h with
  | empty => rfl
  | decimal hu => exact absurd hl.symm (unsigned_decimal hu).2
  | plus hu => cases hl
  | minus hu => cases hl
  | infinity => exact absurd hl (by decide)
  | plusInfinity => exact absurd hl (by decide)
  | minusInfinity => exact absurd hl (by decide)
  | radix h =>
      obtain ⟨x, body, -, heq, -⟩ := h.spelled
      rw [← hl] at heq
      cases heq

/-- **`str_to_num` is the number of a string**, or NaN where there is none, unless the digits of a
literal with a radix are cut. -/
theorem strToNum_iff (s : String) :
    NumberOf (Lib.Text.trimMatches isWs s).toList (strToNum s) ↔
      ¬ ∃ k ds, RadixLiteral (Lib.Text.trimMatches isWs s).toList k ds ∧ Double.Cut k ds := by
  rw [strToNum]
  generalize Lib.Text.trimMatches isWs s = t
  have hcut {x : Char} {k : ℕ} {body : List Char} (hx : RadixLetter x k)
      (heq : t.toList = '0' :: x :: body) :
      (∃ k ds, RadixLiteral t.toList k ds ∧ Double.Cut k ds) ↔
        ∃ ds, body.mapM (Lib.Text.digit (2 ^ k)) = some ds ∧ Double.Cut k ds := by
    constructor
    · rintro ⟨k', ds, ⟨-, x', body', hx', heq', hds⟩, hc⟩
      rw [heq] at heq'
      obtain ⟨-, heq'⟩ := List.cons.inj heq'
      obtain ⟨rfl, rfl⟩ := List.cons.inj heq'
      obtain rfl := radixLetter_inj hx hx'
      exact ⟨ds, hds, hc⟩
    · rintro ⟨ds, hds, hc⟩
      refine ⟨k, ds, ⟨?_, x, body, hx, heq, hds⟩, hc⟩
      rintro rfl
      obtain ⟨a, d, b, q, i, hnil, -⟩ := hc
      simp at hnil
  have hprefix {x : Char} {k r : ℕ} {body : List Char} (hr : 2 ^ k = r) (hx : RadixLetter x k)
      (heq : t.toList = '0' :: x :: body) :
      NumberOf t.toList (radixNum r body) ↔
        ¬ ∃ k ds, RadixLiteral t.toList k ds ∧ Double.Cut k ds := by
    rw [hcut hx heq, heq, ← hr]
    exact radixNum_iff hx body
  by_cases hempty : t = ""
  · rw [if_pos hempty, hempty]
    refine iff_of_true ⟨fun v hv => (literal_nil hv).symm, fun hnone => absurd .empty (hnone _)⟩ ?_
    rintro ⟨k, ds, ⟨-, x, body, -, heq, -⟩, -⟩
    cases heq
  rw [if_neg hempty]
  cases hhex : prefixed 'x' 'X' t.toList with
  | some body =>
      rcases prefixed_iff hhex with heq | heq
      · exact hprefix (by decide) (.hex (Or.inl rfl)) heq
      · exact hprefix (by decide) (.hex (Or.inr rfl)) heq
  | none =>
      dsimp only
      cases hoct : prefixed 'o' 'O' t.toList with
      | some body =>
          rcases prefixed_iff hoct with heq | heq
          · exact hprefix (by decide) (.octal (Or.inl rfl)) heq
          · exact hprefix (by decide) (.octal (Or.inr rfl)) heq
      | none =>
          dsimp only
          cases hbin : prefixed 'b' 'B' t.toList with
          | some body =>
              rcases prefixed_iff hbin with heq | heq
              · exact hprefix (by decide) (.binary (Or.inl rfl)) heq
              · exact hprefix (by decide) (.binary (Or.inr rfl)) heq
          | none =>
              have hne : t.toList ≠ [] := fun h => hempty (String.toList_inj.1 h)
              have hradix : ∀ x k body, RadixLetter x k → t.toList ≠ '0' :: x :: body := by
                intro x k body hx
                cases hx with
                | hex hx => exact prefixed_none_of hhex hx body
                | octal hx => exact prefixed_none_of hoct hx body
                | binary hx => exact prefixed_none_of hbin hx body
              refine iff_of_true (decimalNum_number hne hradix) ?_
              rintro ⟨k, ds, ⟨-, x, body, hx, heq, -⟩, -⟩
              exact hradix x k body hx heq

/-- The prefix `0x20000000000001` lies halfway over an even double, and a digit behind it is one. -/
theorem strToNum_cut :
    ¬ NumberOf (Lib.Text.trimMatches isWs "0x200000000000011").toList
      (strToNum "0x200000000000011") := by
  have htrim : Lib.Text.trimMatches isWs "0x200000000000011" = "0x200000000000011" := by decide
  have hpre : prefixed 'x' 'X' "0x200000000000011".toList
      = some "200000000000011".toList := by decide
  have hdigits : "200000000000011".toList.mapM (Lib.Text.digit (2 ^ 4))
      = some ([2, 0, 0, 0, 0, 0, 0, 0, 0, 0, 0, 0, 0] ++ 1 :: [1]) := by decide
  have hlt : Double.value 4 ([2, 0, 0, 0, 0, 0, 0, 0, 0, 0, 0, 0, 0] ++ [1]) * 2 ^ (4 * 1)
      < 2 ^ 60 := by decide
  have hfinite := hlt.trans (Nat.pow_lt_pow_right Nat.one_lt_two (by decide : 60 < 1024))
  rw [strToNum, htrim, if_neg (by decide), hpre]
  intro h
  refine (radixNum_iff (.hex (Or.inl rfl)) "200000000000011".toList).1 h ⟨_, hdigits, ?_⟩
  exact ⟨[2, 0, 0, 0, 0, 0, 0, 0, 0, 0, 0, 0, 0], 1, [1], 2 ^ 52, 0, rfl, by decide, by decide,
    by decide, by decide, by decide, ⟨1, by simp⟩, hfinite⟩

end Interp
end Lunar
