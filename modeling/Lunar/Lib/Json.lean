/-
# JSON

A parser of JSON texts and the texts it reads.  A number is its value, an object the list
of its members in order.  `Writes j t` says that `t` is a text of `j` without white space;
a value has several such texts, since a character may be escaped and a number be written
in more than one way.  `parse_of_writes` says that each of them reads as the value.
-/

import Mathlib.Algebra.Order.Field.Rat
import Mathlib.Data.List.TakeDrop
import Lunar.Lib.Double

namespace Lunar
namespace Lib

inductive Json
  | null
  | bool (b : Bool)
  | num (value : ℚ)
  | str (s : List Char)
  | arr (elems : List Json)
  | obj (members : List (List Char × Json))

namespace Json

open Double (isDigit ofDigits)

/-! ## The parser -/

def isWs (c : Char) : Bool := c = ' ' || c = '\t' || c = '\n' || c = '\r'

def skipWs (cs : List Char) : List Char := cs.dropWhile isWs

/-- The characters that a backslash stands before, and what the two stand for. -/
def unescape (c : Char) : Option Char :=
  if c = '"' then some '"' else if c = '\\' then some '\\' else if c = '/' then some '/'
  else if c = 'b' then some '\x08' else if c = 'f' then some '\x0c'
  else if c = 'n' then some '\n' else if c = 'r' then some '\r'
  else if c = 't' then some '\t' else none

def hexDigit (c : Char) : Option ℕ :=
  if isDigit c then some (c.toNat - '0'.toNat)
  else if 'a' ≤ c && c ≤ 'f' then some (c.toNat - 'a'.toNat + 10)
  else if 'A' ≤ c && c ≤ 'F' then some (c.toNat - 'A'.toNat + 10)
  else none

def hex4 (a b c d : Char) : Option ℕ := do
  let a ← hexDigit a
  let b ← hexDigit b
  let c ← hexDigit c
  let d ← hexDigit d
  return ((a * 16 + b) * 16 + c) * 16 + d

/-- Puts a character before a string that was read. -/
def cons (c : Char) (res : Option (List Char × List Char)) : Option (List Char × List Char) :=
  res.map fun (s, r) => (c :: s, r)

/-- The string whose opening quote was read, and what follows its closing quote. -/
def parseString : List Char → Option (List Char × List Char)
  | [] => none
  | c :: r =>
    if c = '"' then some ([], r)
    else if c = '\\' then
      match r with
      | [] => none
      | e :: r =>
        if e = 'u' then
          match r with
          | h1 :: h2 :: h3 :: h4 :: r =>
            match hex4 h1 h2 h3 h4 with
            | none => none
            | some n =>
              if n < 0xD800 ∨ 0xE000 ≤ n then cons (Char.ofNat n) (parseString r)
              else
                -- a high surrogate and the low one after it are one character
                match r with
                | s :: u :: l1 :: l2 :: l3 :: l4 :: r =>
                  match hex4 l1 l2 l3 l4 with
                  | none => none
                  | some m =>
                    if s = '\\' ∧ u = 'u' ∧ n < 0xDC00 ∧ 0xDC00 ≤ m ∧ m < 0xE000 then
                      cons (Char.ofNat (0x10000 + (n - 0xD800) * 0x400 + (m - 0xDC00)))
                        (parseString r)
                    else none
                | _ => none
          | _ => none
        else
          match unescape e with
          | none => none
          | some c => cons c (parseString r)
    else if c.toNat < 0x20 then none
    else cons c (parseString r)

/-- The digits at the head of a text, and what follows them. -/
def digits (cs : List Char) : List Char × List Char := cs.span isDigit

/-- The fraction of a number: its digits, and what follows them. -/
def parseFraction : List Char → Option (List Char × List Char)
  | [] => some ([], [])
  | c :: r =>
    if c = '.' then
      let (ds, r) := digits r
      if ds = [] then none else some (ds, r)
    else some ([], c :: r)

/-- The exponent of a number, and what follows it. -/
def parseExponent : List Char → Option (ℤ × List Char)
  | [] => some (0, [])
  | c :: r =>
    if c = 'e' ∨ c = 'E' then
      let (neg, r) :=
        match r with
        | [] => (false, [])
        | s :: r => if s = '-' then (true, r) else if s = '+' then (false, r) else (false, s :: r)
      let (ds, r) := digits r
      if ds = [] then none
      else some (if neg then -(ofDigits ds : ℤ) else ofDigits ds, r)
    else some (0, c :: r)

/-- The value of a number with the given sign, digits and exponent. -/
def decimal (neg : Bool) (int frac : List Char) (e : ℤ) : ℚ :=
  (if neg then -1 else 1) * (ofDigits (int ++ frac) : ℚ) * 10 ^ (e - frac.length)

/-- A number without its sign. -/
def parseMagnitude (neg : Bool) (cs : List Char) : Option (ℚ × List Char) := do
  let (int, r) := digits cs
  if int = [] ∨ (1 < int.length ∧ int.head? = some '0') then none
  else
    let (frac, r) ← parseFraction r
    let (e, r) ← parseExponent r
    some (decimal neg int frac e, r)

def parseNumber : List Char → Option (ℚ × List Char)
  | [] => none
  | c :: r => if c = '-' then parseMagnitude true r else parseMagnitude false (c :: r)

/-- The rest of a keyword whose value is `j`. -/
def keyword (word : List Char) (j : Json) (cs : List Char) : Option (Json × List Char) :=
  if word <+: cs then some (j, cs.drop word.length) else none

mutual

def parseValue : ℕ → List Char → Option (Json × List Char)
  | 0, _ => none
  | fuel + 1, cs =>
    match skipWs cs with
    | [] => none
    | c :: r =>
      if c = '"' then (parseString r).map fun (s, r) => (.str s, r)
      else if c = '[' then
        if (skipWs r).head? = some ']' then some (.arr [], (skipWs r).tail)
        else (parseElems fuel r).map fun (js, r) => (.arr js, r)
      else if c = '\x7b' then
        if (skipWs r).head? = some '\x7d' then some (.obj [], (skipWs r).tail)
        else (parseMembers fuel r).map fun (ms, r) => (.obj ms, r)
      else if c = 'n' then keyword ['u', 'l', 'l'] .null r
      else if c = 't' then keyword ['r', 'u', 'e'] (.bool true) r
      else if c = 'f' then keyword ['a', 'l', 's', 'e'] (.bool false) r
      else (parseNumber (c :: r)).map fun (q, r) => (.num q, r)

/-- The elements of an array up to its closing bracket. -/
def parseElems : ℕ → List Char → Option (List Json × List Char)
  | 0, _ => none
  | fuel + 1, cs =>
    match parseValue fuel cs with
    | none => none
    | some (j, r) =>
      match skipWs r with
      | [] => none
      | c :: r =>
        if c = ',' then (parseElems fuel r).map fun (js, r) => (j :: js, r)
        else if c = ']' then some ([j], r)
        else none

/-- The members of an object up to its closing brace. -/
def parseMembers : ℕ → List Char → Option (List (List Char × Json) × List Char)
  | 0, _ => none
  | fuel + 1, cs =>
    match skipWs cs with
    | [] => none
    | q :: r =>
      if q = '"' then
        match parseString r with
        | none => none
        | some (k, r) =>
          match skipWs r with
          | [] => none
          | d :: r =>
            if d = ':' then
              match parseValue fuel r with
              | none => none
              | some (j, r) =>
                match skipWs r with
                | [] => none
                | c :: r =>
                  if c = ',' then (parseMembers fuel r).map fun (ms, r) => ((k, j) :: ms, r)
                  else if c = '\x7d' then some ([(k, j)], r)
                  else none
            else none
      else none

end

/-- The value of a JSON text. -/
def parse (cs : List Char) : Option Json :=
  match parseValue (cs.length + 1) cs with
  | none => none
  | some (j, r) => if skipWs r = [] then some j else none

/-! ## Texts -/

/-- A numeral: its sign, the digits of its integer and of its fraction, and its exponent. -/
structure Numeral where
  neg : Bool
  int : List Char
  frac : List Char
  exp : Option (Bool × List Char)

namespace Numeral

/-- The fraction of a numeral as text. -/
def fracText (frac : List Char) : List Char := if frac = [] then [] else '.' :: frac

/-- The exponent of a numeral as text. -/
def expText : Option (Bool × List Char) → List Char
  | none => []
  | some (neg, ds) => 'e' :: (if neg then '-' else '+') :: ds

def text (n : Numeral) : List Char :=
  (if n.neg then ['-'] else []) ++ (n.int ++ (fracText n.frac ++ expText n.exp))

def exponent : Option (Bool × List Char) → ℤ
  | none => 0
  | some (neg, ds) => if neg then -(ofDigits ds : ℤ) else ofDigits ds

def value (n : Numeral) : ℚ := decimal n.neg n.int n.frac (exponent n.exp)

/-- All parts are digits, none that has to be there is missing, and the integer does not
start with a zero that it could do without. -/
structure Valid (n : Numeral) : Prop where
  int_digits : ∀ c ∈ n.int, isDigit c = true
  int_ne_nil : n.int ≠ []
  no_leading_zero : 1 < n.int.length → n.int.head? ≠ some '0'
  frac_digits : ∀ c ∈ n.frac, isDigit c = true
  exp_digits : ∀ neg ds, n.exp = some (neg, ds) → ds ≠ [] ∧ ∀ c ∈ ds, isDigit c = true

end Numeral

/-- What the characters of a string are written as. -/
inductive Escaped : List Char → List Char → Prop
  | nil : Escaped [] []
  | plain {c : Char} {s t : List Char} (hquote : c ≠ '"') (hback : c ≠ '\\')
      (hctl : 0x20 ≤ c.toNat) (h : Escaped s t) : Escaped (c :: s) (c :: t)
  | escape {c e : Char} {s t : List Char} (he : unescape e = some c) (h : Escaped s t) :
      Escaped (c :: s) ('\\' :: e :: t)
  | unicode {a b c d : Char} {n : ℕ} {s t : List Char} (hn : hex4 a b c d = some n)
      (hscalar : n < 0xD800 ∨ 0xE000 ≤ n) (h : Escaped s t) :
      Escaped (Char.ofNat n :: s) ('\\' :: 'u' :: a :: b :: c :: d :: t)

mutual

/-- A text is a text of a value. -/
inductive Writes : Json → List Char → Prop
  | null : Writes .null ['n', 'u', 'l', 'l']
  | boolTrue : Writes (.bool true) ['t', 'r', 'u', 'e']
  | boolFalse : Writes (.bool false) ['f', 'a', 'l', 's', 'e']
  | num {n : Numeral} (h : n.Valid) : Writes (.num n.value) n.text
  | str {s t : List Char} (h : Escaped s t) : Writes (.str s) ('"' :: (t ++ ['"']))
  | arrNil : Writes (.arr []) ['[', ']']
  | arr {js : List Json} {t : List Char} (h : WritesElems js t) :
      Writes (.arr js) ('[' :: (t ++ [']']))
  | objNil : Writes (.obj []) ['\x7b', '\x7d']
  | obj {ms : List (List Char × Json)} {t : List Char} (h : WritesMembers ms t) :
      Writes (.obj ms) ('\x7b' :: (t ++ ['\x7d']))

/-- A text is one of some elements, with commas between them. -/
inductive WritesElems : List Json → List Char → Prop
  | last {j : Json} {t : List Char} (h : Writes j t) : WritesElems [j] t
  | more {j : Json} {js : List Json} {t u : List Char} (h : Writes j t)
      (hrest : WritesElems js u) : WritesElems (j :: js) (t ++ ',' :: u)

/-- A text is one of some members, with commas between them. -/
inductive WritesMembers : List (List Char × Json) → List Char → Prop
  | last {k kt : List Char} {j : Json} {t : List Char} (hk : Escaped k kt) (h : Writes j t) :
      WritesMembers [(k, j)] ('"' :: (kt ++ '"' :: ':' :: t))
  | more {k kt : List Char} {j : Json} {ms : List (List Char × Json)} {t u : List Char}
      (hk : Escaped k kt) (h : Writes j t) (hrest : WritesMembers ms u) :
      WritesMembers ((k, j) :: ms) ('"' :: (kt ++ '"' :: ':' :: (t ++ ',' :: u)))

end

/-! ## Reading a text back -/

theorem parseString_of_escaped {s t : List Char} (h : Escaped s t) (rest : List Char) :
    parseString (t ++ '"' :: rest) = some (s, rest) := by
  induction h with
  | nil =>
      rw [List.nil_append, parseString.eq_def]
      exact if_pos rfl
  | plain hquote hback hctl h ih =>
      rw [List.cons_append, parseString.eq_def]
      simp only [if_neg hquote, if_neg hback, if_neg (Nat.not_lt.2 hctl), ih]
      rfl
  | @escape c e s t he h ih =>
      have hu : e ≠ 'u' := by
        rintro rfl
        cases he
      have hquote : '\\' ≠ '"' := by decide
      rw [List.cons_append, List.cons_append, parseString.eq_def]
      simp only [if_neg hquote, if_pos, if_neg hu, he, ih]
      rfl
  | unicode hn hscalar h ih =>
      have hquote : '\\' ≠ '"' := by decide
      simp only [List.cons_append]
      rw [parseString.eq_def]
      simp only [if_neg hquote, if_pos, hn, if_pos hscalar, ih]
      rfl

/-- What does not go on with a number. -/
def Ends (rest : List Char) : Prop :=
  ∀ c r, rest = c :: r → isDigit c = false ∧ c ≠ '.' ∧ c ≠ 'e' ∧ c ≠ 'E'

theorem digits_append {ds rest : List Char} (hds : ∀ c ∈ ds, isDigit c = true)
    (hrest : ∀ c r, rest = c :: r → isDigit c = false) : digits (ds ++ rest) = (ds, rest) := by
  have htake : (ds ++ rest).takeWhile isDigit = ds := by
    rw [List.takeWhile_append_of_pos hds]
    cases rest with
    | nil => simp
    | cons c r => simp [hrest c r rfl]
  have hdrop : (ds ++ rest).dropWhile isDigit = rest := by
    rw [List.dropWhile_append_of_pos hds]
    cases rest with
    | nil => rfl
    | cons c r => simp [hrest c r rfl]
  rw [digits, List.span_eq_takeWhile_dropWhile, htake, hdrop]

theorem parseExponent_expText {exp : Option (Bool × List Char)} {rest : List Char}
    (hexp : ∀ neg ds, exp = some (neg, ds) → ds ≠ [] ∧ ∀ c ∈ ds, isDigit c = true)
    (hrest : Ends rest) :
    parseExponent (Numeral.expText exp ++ rest) = some (Numeral.exponent exp, rest) := by
  rcases exp with _ | ⟨neg, ds⟩
  · cases rest with
    | nil => rfl
    | cons c r =>
        obtain ⟨-, -, he, hE⟩ := hrest c r rfl
        have hno : ¬ (c = 'e' ∨ c = 'E') := not_or.2 ⟨he, hE⟩
        show parseExponent (c :: r) = _
        rw [parseExponent.eq_def]
        exact if_neg hno
  · obtain ⟨hne, hds⟩ := hexp neg ds rfl
    have hdigits := digits_append hds fun c r h => (hrest c r h).1
    cases neg with
    | true => simp [Numeral.expText, parseExponent, hdigits, hne, Numeral.exponent]
    | false => simp [Numeral.expText, parseExponent, hdigits, hne, Numeral.exponent]

theorem expText_head {exp : Option (Bool × List Char)} {rest : List Char} (hrest : Ends rest) :
    ∀ c r, Numeral.expText exp ++ rest = c :: r → isDigit c = false ∧ c ≠ '.' := by
  intro c r h
  rcases exp with _ | ⟨neg, ds⟩
  · exact ⟨(hrest c r h).1, (hrest c r h).2.1⟩
  · obtain ⟨rfl, -⟩ := List.cons.inj h
    exact ⟨by decide, by decide⟩

theorem parseFraction_fracText {frac rest : List Char} (hfrac : ∀ c ∈ frac, isDigit c = true)
    (hrest : ∀ c r, rest = c :: r → isDigit c = false ∧ c ≠ '.') :
    parseFraction (Numeral.fracText frac ++ rest) = some (frac, rest) := by
  rw [Numeral.fracText]
  split
  · next hnil =>
      rw [hnil, List.nil_append]
      cases rest with
      | nil => rfl
      | cons c r => rw [parseFraction, if_neg (hrest c r rfl).2]
  · next hne =>
      have hdigits := digits_append hfrac fun c r h => (hrest c r h).1
      rw [List.cons_append, parseFraction, if_pos rfl, hdigits]
      dsimp only
      rw [if_neg hne]

theorem parseMagnitude_text {n : Numeral} (h : n.Valid) {rest : List Char} (hrest : Ends rest)
    (neg : Bool) :
    parseMagnitude neg (n.int ++ (Numeral.fracText n.frac ++ Numeral.expText n.exp) ++ rest) =
      some (decimal neg n.int n.frac (Numeral.exponent n.exp), rest) := by
  have hexp := @expText_head n.exp _ hrest
  have hint : ∀ c r, Numeral.fracText n.frac ++ (Numeral.expText n.exp ++ rest) = c :: r →
      isDigit c = false := by
    intro c r heq
    rw [Numeral.fracText] at heq
    split at heq
    · exact (hexp c r heq).1
    · obtain ⟨rfl, -⟩ := List.cons.inj heq
      decide
  have hlead : ¬ (n.int = [] ∨ 1 < n.int.length ∧ n.int.head? = some '0') := by
    rintro (hnil | ⟨hlen, hzero⟩)
    · exact h.int_ne_nil hnil
    · exact h.no_leading_zero hlen hzero
  rw [parseMagnitude, List.append_assoc, List.append_assoc, digits_append h.int_digits hint]
  dsimp only
  rw [if_neg hlead, parseFraction_fracText h.frac_digits hexp]
  simp only [Option.bind_eq_bind, Option.bind_some, parseExponent_expText h.exp_digits hrest]

/-- **A numeral reads as its value.** -/
theorem parseNumber_text {n : Numeral} (h : n.Valid) {rest : List Char} (hrest : Ends rest) :
    parseNumber (n.text ++ rest) = some (n.value, rest) := by
  have hmag := parseMagnitude_text h hrest n.neg
  obtain ⟨d, ds, hint⟩ := List.exists_cons_of_ne_nil h.int_ne_nil
  have hd : d ≠ '-' := by
    rintro rfl
    have hdigit := h.int_digits '-' (hint ▸ List.mem_cons_self)
    exact absurd hdigit (by decide)
  rw [Numeral.text, Numeral.value]
  cases hneg : n.neg with
  | true =>
      rw [hneg] at hmag
      rw [if_pos rfl, List.singleton_append, List.cons_append, parseNumber, if_pos rfl, hmag]
  | false =>
      rw [hneg] at hmag
      rw [if_neg Bool.false_ne_true, List.nil_append, hint, List.cons_append, List.cons_append,
        parseNumber, if_neg hd, ← List.cons_append, ← List.cons_append, ← hint, hmag]

theorem skipWs_cons {c : Char} (h : isWs c = false) (cs : List Char) :
    skipWs (c :: cs) = c :: cs := by
  rw [skipWs, List.dropWhile_cons, h, if_neg Bool.false_ne_true]

theorem keyword_append (word : List Char) (j : Json) (rest : List Char) :
    keyword word j (word ++ rest) = some (j, rest) := by
  rw [keyword, if_pos (List.prefix_append word rest), List.drop_left]

/-! ### How texts begin and end -/

/-- A sign or a digit, with which a numeral begins, is no other character. -/
theorem ne_of_sign_or_digit {c x : Char} (h : c = '-' ∨ isDigit c = true) (hsign : x ≠ '-')
    (hdigit : isDigit x = false) : c ≠ x := by
  rintro rfl
  rcases h with h | h
  · exact hsign h
  · exact Bool.false_ne_true (hdigit.symm.trans h)

theorem Numeral.Valid.head {n : Numeral} (h : n.Valid) :
    ∃ c r, n.text = c :: r ∧ (c = '-' ∨ isDigit c = true) := by
  obtain ⟨d, ds, hint⟩ := List.exists_cons_of_ne_nil h.int_ne_nil
  have hdigit : isDigit d = true := h.int_digits d (hint ▸ List.mem_cons_self)
  rw [Numeral.text]
  cases n.neg with
  | true => exact ⟨'-', _, rfl, .inl rfl⟩
  | false => exact ⟨d, _, by rw [hint]; rfl, .inr hdigit⟩

theorem isWs_of_sign_or_digit {c : Char} (h : c = '-' ∨ isDigit c = true) : isWs c = false := by
  have hne (x : Char) (hsign : x ≠ '-') (hdigit : isDigit x = false) : decide (c = x) = false :=
    decide_eq_false (ne_of_sign_or_digit h hsign hdigit)
  rw [isWs, hne ' ' (by decide) (by decide), hne '\t' (by decide) (by decide),
    hne '\n' (by decide) (by decide), hne '\r' (by decide) (by decide)]
  rfl

/-- A text of a value starts with a character that is not white space and that does not
close an array. -/
theorem Writes.head {j : Json} {t : List Char} (h : Writes j t) :
    ∃ c r, t = c :: r ∧ isWs c = false ∧ c ≠ ']' := by
  cases h with
  | num h =>
      obtain ⟨c, r, htext, hc⟩ := h.head
      exact ⟨c, r, htext, isWs_of_sign_or_digit hc, ne_of_sign_or_digit hc (by decide) (by decide)⟩
  | null | boolTrue | boolFalse | arrNil | objNil => exact ⟨_, _, rfl, by decide, by decide⟩
  | str | arr | obj => exact ⟨_, _, rfl, by decide, by decide⟩

theorem WritesElems.head {js : List Json} {t : List Char} (h : WritesElems js t) :
    ∃ c r, t = c :: r ∧ isWs c = false ∧ c ≠ ']' := by
  cases h with
  | last h => exact h.head
  | more h hrest =>
      obtain ⟨c, r, rfl, hc⟩ := h.head
      exact ⟨c, _, rfl, hc⟩

theorem WritesMembers.head {ms : List (List Char × Json)} {t : List Char}
    (h : WritesMembers ms t) : ∃ r, t = '"' :: r := by
  cases h with
  | last | more => exact ⟨_, rfl⟩

theorem ends_cons {c : Char} (h : isDigit c = false ∧ c ≠ '.' ∧ c ≠ 'e' ∧ c ≠ 'E')
    (rest : List Char) : Ends (c :: rest) := by
  intro d r heq
  obtain ⟨rfl, -⟩ := List.cons.inj heq
  exact h

theorem ends_nil : Ends [] := fun _ _ h => absurd h (List.cons_ne_nil _ _).symm

/-! ### Values -/

mutual

theorem parseValue_of_writes {j : Json} {t : List Char} (h : Writes j t) {fuel : ℕ}
    {rest : List Char} (hfuel : t.length ≤ fuel) (hrest : Ends rest) :
    parseValue fuel (t ++ rest) = some (j, rest) := by
  obtain ⟨c, r, ht, hws, -⟩ := h.head
  obtain ⟨fuel, rfl⟩ : ∃ n, fuel = n + 1 :=
    ⟨fuel - 1, by rw [ht, List.length_cons] at hfuel; omega⟩
  have hskip : skipWs (t ++ rest) = t ++ rest := by
    rw [ht]
    exact skipWs_cons hws _
  rw [parseValue, hskip]
  cases h with
  | null => exact keyword_append ['u', 'l', 'l'] .null rest
  | boolTrue => exact keyword_append ['r', 'u', 'e'] (.bool true) rest
  | boolFalse => exact keyword_append ['a', 'l', 's', 'e'] (.bool false) rest
  | @num n hn =>
      obtain ⟨c, r, htext, hc⟩ := hn.head
      have hnumber := parseNumber_text hn hrest
      have hne (x : Char) (hsign : x ≠ '-') (hdigit : isDigit x = false) : ¬ c = x :=
        ne_of_sign_or_digit hc hsign hdigit
      rw [htext, List.cons_append] at hnumber ⊢
      dsimp only
      rw [if_neg (hne _ (by decide) (by decide)), if_neg (hne _ (by decide) (by decide)),
        if_neg (hne _ (by decide) (by decide)), if_neg (hne _ (by decide) (by decide)),
        if_neg (hne _ (by decide) (by decide)), if_neg (hne _ (by decide) (by decide)), hnumber]
      rfl
  | @str s t h =>
      have hstring := parseString_of_escaped h rest
      rw [List.cons_append, List.append_assoc, List.singleton_append]
      dsimp only
      rw [if_pos rfl, hstring]
      rfl
  | arrNil => rfl
  | @arr js t h =>
      have helems := @parseElems_of_writes _ _ h fuel rest (by
        rw [List.length_cons, List.length_append, List.length_singleton] at hfuel
        omega)
      obtain ⟨c, r, ht, hws, hc⟩ := h.head
      have hhead : ¬ (skipWs (t ++ ']' :: rest)).head? = some ']' := by
        rw [ht, List.cons_append, skipWs_cons hws, List.head?_cons, Option.some_inj]
        exact hc
      rw [List.cons_append, List.append_assoc, List.singleton_append]
      dsimp only
      rw [if_neg (by decide), if_pos rfl, if_neg hhead, helems]
      rfl
  | objNil => rfl
  | @obj ms t h =>
      have hmembers := @parseMembers_of_writes _ _ h fuel rest (by
        rw [List.length_cons, List.length_append, List.length_singleton] at hfuel
        omega)
      obtain ⟨r, ht⟩ := h.head
      have hhead : ¬ (skipWs (t ++ '\x7d' :: rest)).head? = some '\x7d' := by
        rw [ht, List.cons_append, skipWs_cons (by decide), List.head?_cons, Option.some_inj]
        decide
      rw [List.cons_append, List.append_assoc, List.singleton_append]
      dsimp only
      rw [if_neg (by decide), if_neg (by decide), if_pos rfl, if_neg hhead, hmembers]
      rfl

theorem parseElems_of_writes {js : List Json} {t : List Char} (h : WritesElems js t) {fuel : ℕ}
    {rest : List Char} (hfuel : t.length + 1 ≤ fuel) :
    parseElems fuel (t ++ ']' :: rest) = some (js, rest) := by
  obtain ⟨fuel, rfl⟩ : ∃ n, fuel = n + 1 := ⟨fuel - 1, by omega⟩
  rw [parseElems]
  cases h with
  | last h =>
      have hends : Ends (']' :: rest) := ends_cons (by decide) rest
      rw [parseValue_of_writes h (by omega) hends]
      rfl
  | @more j js t u h hrest =>
      rw [List.length_append, List.length_cons] at hfuel
      have hends : Ends (',' :: (u ++ ']' :: rest)) := ends_cons (by decide) _
      have hvalue := @parseValue_of_writes _ _ h fuel _ (by omega) hends
      have helems := @parseElems_of_writes _ _ hrest fuel rest (by omega)
      rw [List.append_assoc, List.cons_append, hvalue]
      dsimp only
      rw [skipWs_cons (by decide)]
      dsimp only
      rw [if_pos rfl, helems]
      rfl

theorem parseMembers_of_writes {ms : List (List Char × Json)} {t : List Char}
    (h : WritesMembers ms t) {fuel : ℕ} {rest : List Char} (hfuel : t.length + 1 ≤ fuel) :
    parseMembers fuel (t ++ '\x7d' :: rest) = some (ms, rest) := by
  obtain ⟨fuel, rfl⟩ : ∃ n, fuel = n + 1 := ⟨fuel - 1, by omega⟩
  rw [parseMembers]
  cases h with
  | @last k kt j t hk h =>
      rw [List.length_cons, List.length_append, List.length_cons, List.length_cons] at hfuel
      have hends : Ends ('\x7d' :: rest) := ends_cons (by decide) rest
      have hvalue := @parseValue_of_writes _ _ h fuel _ (by omega) hends
      rw [List.cons_append, List.append_assoc, List.cons_append, List.cons_append,
        skipWs_cons (by decide)]
      dsimp only
      rw [if_pos rfl, parseString_of_escaped hk]
      dsimp only
      rw [skipWs_cons (by decide)]
      dsimp only
      rw [if_pos rfl, hvalue]
      rfl
  | @more k kt j ms t u hk h hrest =>
      rw [List.length_cons, List.length_append, List.length_cons, List.length_cons,
        List.length_append, List.length_cons] at hfuel
      have hends : Ends (',' :: (u ++ '\x7d' :: rest)) := ends_cons (by decide) _
      have hvalue := @parseValue_of_writes _ _ h fuel _ (by omega) hends
      have hmembers := @parseMembers_of_writes _ _ hrest fuel rest (by omega)
      rw [List.cons_append, List.append_assoc, List.cons_append, List.cons_append,
        List.append_assoc, List.cons_append, skipWs_cons (by decide)]
      dsimp only
      rw [if_pos rfl, parseString_of_escaped hk]
      dsimp only
      rw [skipWs_cons (by decide)]
      dsimp only
      rw [if_pos rfl, hvalue]
      dsimp only
      rw [skipWs_cons (by decide)]
      dsimp only
      rw [if_pos rfl, hmembers]
      rfl

end

/-- **Every text of a value reads as the value.** -/
theorem parse_of_writes {j : Json} {t : List Char} (h : Writes j t) : parse t = some j := by
  have hvalue := parseValue_of_writes h (Nat.le_succ t.length) ends_nil
  rw [List.append_nil] at hvalue
  rw [parse, hvalue]
  rfl

end Json

end Lib
end Lunar
