/-
# Replacement templates

`expand_template` of `payload/exec.rs`, which walks over the bytes of a template and cuts it at
byte offsets.  A dollar in front of a character that starts no reference is copied with the byte
behind it; when that character has more bytes than one, the slice ends inside it and the program
panics.  Everywhere else the template expands to what a script expands it to (`expand_iff`).

A text is a list of characters, a match is given by the text before it, the matched text and the
text after it, and `none` is a panic.
-/

import Lunar.Lib.Slice
import Lunar.Lib.Text

namespace Lunar
namespace Interp

open Lib.Slice (bytes size slice upTo onFrom)

/-- `u8::is_ascii_digit` with `d - b'0'`. -/
def byteDigit (b : UInt8) : Option ℕ :=
  if 48 ≤ b.toNat ∧ b.toNat ≤ 57 then some (b.toNat - 48) else none

/-- What is pushed for the bytes `c` and `d` behind the dollar at `i`, and how many bytes are
used. -/
def reference (tpl s : List Char) (start end_ : ℕ) (groups : List (Option (List Char))) (i : ℕ)
    (c : UInt8) (d : Option UInt8) : Option (List Char × ℕ) :=
  if c = 36 then some (['$'], 2)
  else if c = 38 then (slice s start end_).map fun text => (text, 2)
  else if c = 96 then (upTo s start).map fun text => (text, 2)
  else if c = 39 then (onFrom s end_).map fun text => (text, 2)
  else
    match byteDigit c with
    | some one =>
      let two := ((d.bind byteDigit).map fun x => one * 10 + x).filter
        fun n => decide (1 ≤ n) && decide (n < groups.length)
      match two with
      | some n => some (((groups[n]?).join).getD [], 3)
      | none =>
        if 1 ≤ one ∧ one < groups.length then some (((groups[one]?).join).getD [], 2)
        else (slice tpl i (i + 2)).map fun text => (text, 2)
    | none => (slice tpl i (i + 2)).map fun text => (text, 2)

/-- The loop of `expand_template`, at the bytes from `i` on.  What the template has from `run` on
is not copied yet. -/
def expandLoop (tpl s : List Char) (start end_ : ℕ) (groups : List (Option (List Char))) :
    List UInt8 → ℕ → ℕ → List Char → Option (List Char)
  | c0 :: c :: rest, i, run, out =>
    if c0 ≠ 36 then expandLoop tpl s start end_ groups (c :: rest) (i + 1) run out
    else
      (slice tpl run i).bind fun text =>
        (reference tpl s start end_ groups i c rest.head?).bind fun (pushed, used) =>
          expandLoop tpl s start end_ groups (rest.drop (used - 2)) (i + used) (i + used)
            (out ++ text ++ pushed)
  | _, _, run, out => (onFrom tpl run).map fun text => out ++ text
termination_by b => b.length
decreasing_by
  all_goals simp only [List.length_cons, List.length_drop]
  all_goals omega

/-- `expand_template`. -/
def expandTemplate (tpl s : List Char) (start end_ : ℕ) (groups : List (Option (List Char)))
    (out : List Char) : Option (List Char) :=
  expandLoop tpl s start end_ groups (bytes tpl) 0 0 out

/-! ## What a script does -/

section Script

variable (before matched after : List Char) (captures : List (Option (List Char)))

/-- A numbered reference to a capture; an unmatched one is empty, and what refers to none stands
for itself. -/
def captured (n : ℕ) (self : List Char) : List Char :=
  match n with
  | 0 => self
  | n + 1 =>
    match captures[n]? with
    | some text => text.getD []
    | none => self

/-- What the text behind a dollar refers to, and how many of its characters do. -/
def refersTo : List Char → List Char × ℕ
  | [] => (['$'], 0)
  | c :: rest =>
    if c = '$' then (['$'], 1)
    else if c = '&' then (matched, 1)
    else if c = '\x60' then (before, 1)
    else if c = '\x27' then (after, 1)
    else
      match Lib.Text.digit 10 c, rest.head?.bind (Lib.Text.digit 10) with
      | none, _ => (['$'], 0)
      | some x, none => (captured captures x ['$', c], 1)
      | some x, some y =>
        if captures.length < 10 * x + y then (captured captures x ['$', c], 1)
        else (captured captures (10 * x + y) ('$' :: c :: rest.head?.toList), 2)

/-- `GetSubstitution`, when the first characters of the template are to be left out. -/
def substitutionFrom : ℕ → List Char → List Char
  | _, [] => []
  | skip + 1, _ :: rest => substitutionFrom skip rest
  | 0, c :: rest =>
    if c = '$' then
      (refersTo before matched after captures rest).1 ++
        substitutionFrom (refersTo before matched after captures rest).2 rest
    else c :: substitutionFrom 0 rest

/-- `GetSubstitution`, without named captures. -/
def substitution (tpl : List Char) : List Char :=
  substitutionFrom before matched after captures 0 tpl

end Script

/-- Every longest run of dollars in front of a character of more bytes than one is even. -/
def EvenRuns (tpl : List Char) : Prop :=
  ∀ pre n c post, tpl = pre ++ List.replicate n '$' ++ c :: post → pre.getLast? ≠ some '$' →
    128 ≤ c.toNat → n % 2 = 0

/-! ## Bytes and characters -/

open Lib (Slice.size_append Slice.size_cons Slice.encode_ascii Slice.le_encode)

theorem ofNat_eq_iff {c d : Char} (hc : c.toNat < 128) (hd : d.toNat < 128) :
    UInt8.ofNat c.toNat = UInt8.ofNat d.toNat ↔ c = d := by
  rw [← UInt8.toNat_inj, UInt8.toNat_ofNat', UInt8.toNat_ofNat', Nat.mod_eq_of_lt (by omega),
    Nat.mod_eq_of_lt (by omega), Char.toNat_inj]

theorem digit_eq (c : Char) : Lib.Text.digit 10 c =
    if 48 ≤ c.toNat ∧ c.toNat ≤ 57 then some (c.toNat - 48) else none := by
  have hle (a b : Char) : a ≤ b ↔ a.toNat ≤ b.toNat := UInt32.le_iff_toNat_le
  have h0 : '0'.toNat = 48 := rfl
  have h9 : '9'.toNat = 57 := rfl
  have ha : 'a'.toNat = 97 := rfl
  have hA : 'A'.toNat = 65 := rfl
  rw [Lib.Text.digit]
  simp only [hle, h0, h9, ha, hA]
  by_cases h : 48 ≤ c.toNat ∧ c.toNat ≤ 57
  · rw [if_pos h, if_pos h, if_pos (by omega)]
  · rw [if_neg h, if_neg h]
    split_ifs <;> first | rfl | omega

theorem byteDigit_ascii {c : Char} (hc : c.toNat < 128) :
    byteDigit (UInt8.ofNat c.toNat) = Lib.Text.digit 10 c := by
  rw [byteDigit, digit_eq, UInt8.toNat_ofNat', Nat.mod_eq_of_lt (by omega)]

theorem head_digit (rest : List Char) :
    (bytes rest).head?.bind byteDigit = rest.head?.bind (Lib.Text.digit 10) := by
  cases rest with
  | nil => rfl
  | cons c rest =>
      rcases Nat.lt_or_ge c.toNat 128 with hc | hc
      · rw [Lib.Slice.bytes_cons, Slice.encode_ascii hc]
        exact byteDigit_ascii hc
      · obtain ⟨b, bs, hbs⟩ := List.exists_cons_of_ne_nil (String.utf8EncodeChar_ne_nil (c := c))
        have hb := Slice.le_encode hc b (by rw [hbs]; exact List.mem_cons_self)
        rw [Lib.Slice.bytes_cons, hbs, List.cons_append, List.head?_cons, List.head?_cons,
          Option.bind_some, Option.bind_some, byteDigit, digit_eq, if_neg (by omega),
          if_neg (by omega)]

/-! ## One reference -/

theorem join_getD (whole : List Char) (captures : List (Option (List Char))) {n : ℕ} (h1 : 1 ≤ n)
    (hn : n ≤ captures.length) (self : List Char) :
    (((some whole :: captures)[n]?).join).getD [] = captured captures n self := by
  obtain ⟨k, rfl⟩ : ∃ k, n = k + 1 := ⟨n - 1, by omega⟩
  rw [List.getElem?_cons_succ, captured, List.getElem?_eq_getElem (by omega)]
  rfl

theorem captured_none (captures : List (Option (List Char))) {n : ℕ}
    (hn : ¬ (1 ≤ n ∧ n ≤ captures.length)) (self : List Char) :
    captured captures n self = self := by
  cases n with
  | zero => rfl
  | succ n => rw [captured, List.getElem?_eq_none (by omega)]

section Template

variable {before matched after tpl : List Char} {captures : List (Option (List Char))}

theorem substitution_of_ne {c : Char} (hc : c ≠ '$') (rest : List Char) :
    substitution before matched after captures (c :: rest)
      = c :: substitution before matched after captures rest := by
  rw [substitution, substitutionFrom, if_neg hc]
  rfl

theorem slice_dollar {c : Char} (hc : c.toNat < 128) {pre rest : List Char}
    (htpl : tpl = pre ++ '$' :: c :: rest) :
    slice tpl (size pre) (size pre + 2) = some ['$', c] := by
  have hsize : size ['$', c] = 2 := by
    rw [Slice.size_cons, Slice.size_cons, Lib.Slice.utf8Size_ascii hc]
    rfl
  have htpl' : tpl = pre ++ ['$', c] ++ rest := by rw [htpl, List.append_assoc]; rfl
  rw [htpl', ← hsize]
  exact Lib.Slice.slice_append pre ['$', c] rest

theorem one_digit (matched : List Char) (captures : List (Option (List Char))) {c : Char}
    (hc : c.toNat < 128) {pre rest : List Char} (htpl : tpl = pre ++ '$' :: c :: rest) (x : ℕ) :
    (if 1 ≤ x ∧ x < (some matched :: captures).length then
        some ((((some matched :: captures)[x]?).join).getD [], 2)
      else (slice tpl (size pre) (size pre + 2)).map fun text => (text, 2))
      = some (captured captures x ['$', c], 2) := by
  rw [List.length_cons, slice_dollar hc htpl]
  split
  · next h => rw [join_getD matched captures h.1 (by omega)]
  · next h =>
      rw [captured_none captures (by omega)]
      rfl

theorem digit_range {c : Char} {x : ℕ} (h : Lib.Text.digit 10 c = some x) :
    c.toNat < 128 ∧ c ≠ '$' := by
  rw [digit_eq] at h
  split at h
  · next hrange => exact ⟨by omega, by rintro rfl; exact absurd hrange.1 (by decide)⟩
  · exact absurd h (by simp)

/-- What is pushed for a reference of ASCII characters is what a script puts in its place. -/
theorem reference_eq {c : Char} (hc : c.toNat < 128) {pre rest : List Char}
    (htpl : tpl = pre ++ '$' :: c :: rest) :
    ∃ pushed used,
      reference tpl (before ++ matched ++ after) (size before) (size before + size matched)
        (some matched :: captures) (size pre) (UInt8.ofNat c.toNat) (bytes rest).head?
          = some (pushed, used) ∧
      (used = 2 ∧ substitution before matched after captures ('$' :: c :: rest)
          = pushed ++ substitution before matched after captures rest ∨
        used = 3 ∧ ∃ d rest', rest = d :: rest' ∧ d.toNat < 128 ∧ d ≠ '$' ∧
          substitution before matched after captures ('$' :: c :: rest)
            = pushed ++ substitution before matched after captures rest') := by
  have hupTo : upTo (before ++ matched ++ after) (size before) = some before := by
    rw [List.append_assoc]
    exact Lib.Slice.upTo_append before _
  have honFrom : onFrom (before ++ matched ++ after) (size before + size matched) = some after := by
    rw [← Slice.size_append]
    exact Lib.Slice.onFrom_append _ after
  have hstep : substitution before matched after captures ('$' :: c :: rest) =
      (refersTo before matched after captures (c :: rest)).1 ++
        substitutionFrom before matched after captures
          (refersTo before matched after captures (c :: rest)).2 (c :: rest) := by
    rw [substitution, substitutionFrom, if_pos rfl]
  have hdollar : UInt8.ofNat c.toNat = 36 ↔ c = '$' :=
    ofNat_eq_iff (d := '$') hc (by decide)
  have hamp : UInt8.ofNat c.toNat = 38 ↔ c = '&' :=
    ofNat_eq_iff (d := '&') hc (by decide)
  have hgrave : UInt8.ofNat c.toNat = 96 ↔ c = '\x60' :=
    ofNat_eq_iff (d := '\x60') hc (by decide)
  have hquote : UInt8.ofNat c.toNat = 39 ↔ c = '\x27' :=
    ofNat_eq_iff (d := '\x27') hc (by decide)
  rw [hstep, reference, refersTo, head_digit, byteDigit_ascii hc]
  simp only [hdollar, hamp, hgrave, hquote]
  split_ifs with h1 h2 h3 h4
  · exact ⟨_, _, rfl, Or.inl ⟨rfl, rfl⟩⟩
  · rw [Lib.Slice.slice_append]
    exact ⟨_, _, rfl, Or.inl ⟨rfl, rfl⟩⟩
  · rw [hupTo]
    exact ⟨_, _, rfl, Or.inl ⟨rfl, rfl⟩⟩
  · rw [honFrom]
    exact ⟨_, _, rfl, Or.inl ⟨rfl, rfl⟩⟩
  cases hx : Lib.Text.digit 10 c with
  | none =>
      simp only [slice_dollar hc htpl, Option.map_some]
      refine ⟨_, _, rfl, Or.inl ⟨rfl, ?_⟩⟩
      exact congrArg ('$' :: ·) (substitution_of_ne h1 rest)
  | some x =>
      cases hy : rest.head?.bind (Lib.Text.digit 10) with
      | none =>
          simp only [Option.map_none, Option.filter_none, one_digit matched captures hc htpl]
          exact ⟨_, _, rfl, Or.inl ⟨rfl, rfl⟩⟩
      | some y =>
          obtain ⟨d, hd, hdigit⟩ := Option.bind_eq_some_iff.1 hy
          obtain ⟨rest', rfl⟩ : ∃ rest', rest = d :: rest' := by
            cases rest with
            | nil => simp at hd
            | cons d' rest' => exact ⟨rest', by simpa using hd⟩
          obtain ⟨hd128, hd36⟩ := digit_range hdigit
          simp only [Option.map_some, List.length_cons, List.head?_cons]
          by_cases hn : captures.length < 10 * x + y
          · have hfilter : decide (x * 10 + y < captures.length + 1) = false :=
              decide_eq_false (by omega)
            have hone := one_digit matched captures hc htpl x
            rw [List.length_cons] at hone
            simp only [Option.filter, hfilter, Bool.and_false, Bool.false_eq_true, if_false, hone,
              if_pos hn]
            exact ⟨_, _, rfl, Or.inl ⟨rfl, rfl⟩⟩
          · by_cases hzero : 10 * x + y = 0
            · -- `$00` refers to nothing, its zeros are ordinary characters
              have hfilter : decide (1 ≤ x * 10 + y) = false := decide_eq_false (by omega)
              have hx0 : ¬ (1 ≤ x ∧ x < captures.length + 1) := by omega
              simp only [Option.filter, hfilter, Bool.false_and, Bool.false_eq_true, if_false,
                if_neg hx0, slice_dollar hc htpl, Option.map_some, hzero]
              refine ⟨_, _, rfl, Or.inl ⟨rfl, ?_⟩⟩
              exact congrArg (['$', c] ++ ·) (substitution_of_ne hd36 rest').symm
            · have hfilter : (decide (1 ≤ x * 10 + y) &&
                  decide (x * 10 + y < captures.length + 1)) = true := by
                rw [decide_eq_true (by omega), decide_eq_true (by omega)]
                rfl
              simp only [Option.filter, hfilter, if_true, if_neg hn]
              refine ⟨_, _, rfl, Or.inr ⟨rfl, d, rest', rfl, hd128, hd36, ?_⟩⟩
              rw [join_getD matched captures (n := x * 10 + y) (by omega) (by omega),
                Nat.mul_comm 10 x]
              rfl

/-! ## The loop -/

/-- Whether every run of dollars in front of a character of more bytes than one is even, the first
one counted with one dollar more when `odd`. -/
def evenRuns : Bool → List Char → Bool
  | _, [] => true
  | odd, c :: rest =>
    if c = '$' then evenRuns (!odd) rest
    else !(odd && decide (128 ≤ c.toNat)) && evenRuns false rest

variable {s : List Char} {start end_ : ℕ} {groups : List (Option (List Char))}

theorem expandLoop_skip {xs : List UInt8} (h : ∀ b ∈ xs, b ≠ 36) (ys : List UInt8) (i run : ℕ)
    (out : List Char) : expandLoop tpl s start end_ groups (xs ++ ys) i run out
      = expandLoop tpl s start end_ groups ys (i + xs.length) run out := by
  induction xs generalizing i with
  | nil => rfl
  | cons b xs ih =>
      have hb := h b List.mem_cons_self
      have hlen : i + (b :: xs).length = i + 1 + xs.length := by
        rw [List.length_cons]
        omega
      rw [hlen, ← ih (fun b' hb' => h b' (List.mem_cons_of_mem _ hb'))]
      rcases hys : xs ++ ys with _ | ⟨c, rest⟩
      · rw [List.cons_append, hys, expandLoop, expandLoop]
        · simp
        · simp
      · rw [List.cons_append, hys, expandLoop, if_pos hb]

theorem ne_dollar {c : Char} (hc : c ≠ '$') : ∀ b ∈ String.utf8EncodeChar c, b ≠ 36 := by
  intro b hb
  rcases Nat.lt_or_ge c.toNat 128 with h | h
  · rw [Slice.encode_ascii h, List.mem_singleton] at hb
    rw [hb]
    exact fun h36 => hc ((ofNat_eq_iff (d := '$') h (by decide)).1 h36)
  · have hle := Slice.le_encode h b hb
    rintro rfl
    exact absurd hle (by decide)

theorem evenRuns_ascii {c : Char} (hc : c.toNat < 128) (rest : List Char) :
    evenRuns false ('$' :: c :: rest) = evenRuns false rest := by
  rw [evenRuns, if_pos rfl, evenRuns]
  split
  · rfl
  · rw [decide_eq_false (by omega)]
    rfl

theorem size_ascii (cs : List Char) (h : ∀ c ∈ cs, c.toNat < 128) : size cs = cs.length := by
  induction cs with
  | nil => rfl
  | cons c cs ih =>
      rw [Slice.size_cons, Lib.Slice.utf8Size_ascii (h c List.mem_cons_self),
        ih fun c' hc' => h c' (List.mem_cons_of_mem _ hc'), List.length_cons, Nat.add_comm]

/-- A dollar in front of a character of more bytes is a panic. -/
theorem reference_wide {c : Char} (hc : 128 ≤ c.toNat) {pre rest : List Char} {b : UInt8}
    (hb : b ∈ String.utf8EncodeChar c) (htpl : tpl = pre ++ '$' :: c :: rest) (d : Option UInt8) :
    reference tpl s start end_ groups (size pre) b d = none := by
  have hle := Slice.le_encode hc b hb
  have hne (n : UInt8) (hn : n.toNat < 128) : b ≠ n := by
    rintro rfl
    omega
  have hslice : slice tpl (size pre) (size pre + 2) = none := by
    rw [htpl]
    exact Lib.Slice.slice_inside Nat.one_pos (Lib.Slice.one_lt_utf8Size hc) pre ['$'] rest
  have hdigit : byteDigit b = none := if_neg (by omega)
  rw [reference, if_neg (hne 36 (by decide)), if_neg (hne 38 (by decide)),
    if_neg (hne 96 (by decide)), if_neg (hne 39 (by decide)), hdigit, hslice]
  rfl

/-- Where the loop is, the text from `run` on being `lit ++ rest` and `i` the end of `lit`. -/
theorem expandLoop_eq (n : ℕ) : ∀ {rest : List Char}, rest.length ≤ n → ∀ (pre lit : List Char)
    (out : List Char), tpl = pre ++ lit ++ rest →
    expandLoop tpl (before ++ matched ++ after) (size before) (size before + size matched)
        (some matched :: captures) (bytes rest) (size pre + size lit) (size pre) out
      = if evenRuns false rest then
          some (out ++ lit ++ substitution before matched after captures rest)
        else none := by
  have hend {pre lit : List Char} (rest : List Char) (out : List Char)
      (htpl : tpl = pre ++ lit ++ rest) :
      ((onFrom tpl (size pre)).map fun text => out ++ text) = some (out ++ lit ++ rest) := by
    rw [htpl, List.append_assoc, Lib.Slice.onFrom_append, Option.map_some, ← List.append_assoc]
  induction n with
  | zero =>
      intro rest hlen pre lit out htpl
      obtain rfl := List.eq_nil_of_length_eq_zero (Nat.le_zero.1 hlen)
      rw [Lib.Slice.bytes_nil, expandLoop, hend [] out htpl]
      · rfl
      · simp
  | succ n ih =>
      intro rest hlen pre lit out htpl
      match rest, hlen, htpl with
      | [], _, htpl =>
          rw [Lib.Slice.bytes_nil, expandLoop, hend [] out htpl]
          · rfl
          · simp
      | c :: rest, hlen, htpl =>
          have hrest : rest.length ≤ n := by simpa using hlen
          by_cases hc : c = '$'
          · subst hc
            have hbyte : String.utf8EncodeChar '$' = [36] := by decide
            match rest, hrest, htpl with
            | [], _, htpl =>
                rw [Lib.Slice.bytes_cons, hbyte, Lib.Slice.bytes_nil, List.append_nil, expandLoop,
                  hend ['$'] out htpl]
                · rfl
                · simp
            | c :: rest, hrest, htpl =>
                have hrest' : rest.length + 1 ≤ n := by simpa using hrest
                have hslice : slice tpl (size pre) (size pre + size lit) = some lit := by
                  rw [htpl]
                  exact Lib.Slice.slice_append pre lit _
                have hsize : size pre + size lit = size (pre ++ lit) :=
                  (Slice.size_append pre lit).symm
                rw [Lib.Slice.bytes_cons, hbyte, Lib.Slice.bytes_cons]
                rcases Nat.lt_or_ge c.toNat 128 with hc | hc
                · obtain ⟨pushed, used, href, hsub⟩ :=
                    @reference_eq before matched after tpl captures c hc _ rest htpl
                  rw [Slice.encode_ascii hc, List.cons_append, List.nil_append, List.cons_append,
                    List.nil_append, expandLoop, if_neg (by simp), hslice, Option.bind_some, hsize,
                    href, Option.bind_some, evenRuns_ascii hc]
                  rcases hsub with ⟨rfl, hsub⟩ | ⟨rfl, d, rest', rfl, hd, hd36, hsub⟩
                  · have hat : size (pre ++ lit ++ ['$', c]) = size (pre ++ lit) + 2 := by
                      rw [Slice.size_append, size_ascii ['$', c] (by simp [hc])]
                      rfl
                    have hnext := ih (Nat.le_of_succ_le hrest') (pre ++ lit ++ ['$', c]) []
                      (out ++ lit ++ pushed) (by simp [htpl])
                    rw [hat, Lib.Slice.size_nil] at hnext
                    dsimp only
                    rw [Nat.sub_self, List.drop_zero, ← Nat.add_zero (size (pre ++ lit) + 2), hnext,
                      hsub]
                    simp
                  · have hat : size (pre ++ lit ++ ['$', c, d]) = size (pre ++ lit) + 3 := by
                      rw [Slice.size_append, size_ascii ['$', c, d] (by simp [hc, hd])]
                      rfl
                    have hnext := ih (Nat.le_of_succ_le (Nat.le_of_succ_le hrest'))
                      (pre ++ lit ++ ['$', c, d]) [] (out ++ lit ++ pushed) (by simp [htpl])
                    rw [hat, Lib.Slice.size_nil] at hnext
                    have hdrop : (bytes (d :: rest')).drop (3 - 2) = bytes rest' := by
                      rw [Lib.Slice.bytes_cons, Slice.encode_ascii hd]
                      rfl
                    have heven : evenRuns false (d :: rest') = evenRuns false rest' := by
                      rw [evenRuns, if_neg hd36]
                      rfl
                    dsimp only
                    rw [hdrop, ← Nat.add_zero (size (pre ++ lit) + 3), hnext, hsub, heven]
                    simp
                · obtain ⟨b, bs, hbs⟩ :=
                    List.exists_cons_of_ne_nil (String.utf8EncodeChar_ne_nil (c := c))
                  have hb : b ∈ String.utf8EncodeChar c := by
                    rw [hbs]
                    exact List.mem_cons_self
                  have hne : c ≠ '$' := by
                    rintro rfl
                    exact absurd hc (by decide)
                  rw [hbs, List.cons_append, List.nil_append, List.cons_append, expandLoop,
                    if_neg (by simp), hslice, Option.bind_some, hsize, reference_wide hc hb htpl,
                    evenRuns, if_pos rfl, evenRuns, if_neg hne, decide_eq_true hc]
                  rfl
          · have hnext := ih hrest pre (lit ++ [c]) out (by
              rw [htpl]
              simp only [List.append_assoc, List.singleton_append])
            have hsize : size pre + size (lit ++ [c])
                = size pre + size lit + (String.utf8EncodeChar c).length := by
              rw [Slice.size_append, String.length_utf8EncodeChar, Slice.size_cons,
                Lib.Slice.size_nil]
              omega
            rw [Lib.Slice.bytes_cons, expandLoop_skip (ne_dollar hc), ← hsize, hnext,
              substitution_of_ne hc, evenRuns, if_neg hc]
            simp

/-! ## The condition -/

/-- The condition of `EvenRuns`, the first run with one dollar more when `odd`. -/
def EvenFrom (odd : Bool) (tpl : List Char) : Prop :=
  ∀ pre n c post, tpl = pre ++ List.replicate n '$' ++ c :: post → pre.getLast? ≠ some '$' →
    128 ≤ c.toNat → (n + if odd && pre.isEmpty then 1 else 0) % 2 = 0

theorem getLast_cons {pre : List Char} (hpre : pre ≠ []) (p : Char) :
    (p :: pre).getLast? = pre.getLast? := by
  obtain ⟨y, ys, rfl⟩ := List.exists_cons_of_ne_nil hpre
  exact List.getLast?_cons_cons

/-- A dollar turns the parity. -/
theorem evenFrom_dollar (odd : Bool) (rest : List Char) :
    EvenFrom odd ('$' :: rest) ↔ EvenFrom (!odd) rest := by
  constructor
  · intro h pre n c post hsplit hpre hc
    rcases hcase : pre with _ | ⟨p, pre'⟩
    · subst hcase
      have hn := h [] (n + 1) c post (congrArg ('$' :: ·) hsplit) (by simp) hc
      cases odd
      · exact hn
      · simp only [List.isEmpty_nil, Bool.and_self, if_true] at hn
        simp only [Bool.not_true, Bool.false_and, Bool.false_eq_true, if_false]
        omega
    · have hne : pre ≠ [] := by simp [hcase]
      have hn := h ('$' :: pre) n c post (congrArg ('$' :: ·) hsplit)
        (by rwa [getLast_cons hne]) hc
      rw [List.isEmpty_cons, Bool.and_false] at hn ⊢
      exact hn
  · intro h pre n c post hsplit hpre hc
    rcases pre with _ | ⟨p, pre⟩
    · rcases n with _ | n
      · obtain ⟨rfl, -⟩ := List.cons.inj hsplit
        exact absurd hc (by decide)
      · have hn := h [] n c post (List.cons.inj hsplit).2 (by simp) hc
        cases odd
        · exact hn
        · simp only [Bool.not_true, Bool.false_and, Bool.false_eq_true, if_false] at hn
          simp only [List.isEmpty_nil, Bool.and_self, if_true]
          omega
    · obtain ⟨rfl, hrest⟩ := List.cons.inj hsplit
      have hne : pre ≠ [] := by
        rintro rfl
        exact hpre rfl
      have hn := h pre n c post hrest (by rwa [getLast_cons hne] at hpre) hc
      have hempty : pre.isEmpty = false := by simpa using hne
      rw [hempty, Bool.and_false] at hn
      rw [List.isEmpty_cons, Bool.and_false]
      exact hn

/-- Any other character ends the run in front of it. -/
theorem evenFrom_of_ne {x : Char} (hx : x ≠ '$') (odd : Bool) (rest : List Char) :
    EvenFrom odd (x :: rest) ↔ ¬ (odd = true ∧ 128 ≤ x.toNat) ∧ EvenFrom false rest := by
  have hlast (pre : List Char) :
      (x :: pre).getLast? ≠ some '$' ↔ pre.getLast? ≠ some '$' := by
    by_cases hpre : pre = []
    · simpa [hpre] using hx
    · rw [getLast_cons hpre]
  constructor
  · intro h
    refine ⟨?_, fun pre n c post hsplit hpre hc => ?_⟩
    · rintro ⟨rfl, hwide⟩
      exact absurd (h [] 0 x rest rfl (by simp) hwide) (by decide)
    · have hn := h (x :: pre) n c post (congrArg (x :: ·) hsplit) ((hlast pre).2 hpre) hc
      rw [List.isEmpty_cons, Bool.and_false] at hn
      rw [Bool.false_and]
      exact hn
  · rintro ⟨hodd, h⟩ pre n c post hsplit hpre hc
    rcases pre with _ | ⟨p, pre⟩
    · rcases n with _ | n
      · obtain ⟨rfl, -⟩ := List.cons.inj hsplit
        cases odd
        · rfl
        · exact absurd ⟨rfl, hc⟩ hodd
      · exact absurd (List.cons.inj hsplit).1 hx
    · obtain ⟨rfl, hrest⟩ := List.cons.inj hsplit
      have hn := h pre n c post hrest ((hlast pre).1 hpre) hc
      rw [Bool.false_and] at hn
      rw [List.isEmpty_cons, Bool.and_false]
      exact hn

theorem evenRuns_iff (odd : Bool) (tpl : List Char) :
    evenRuns odd tpl = true ↔ EvenFrom odd tpl := by
  induction tpl generalizing odd with
  | nil =>
      refine iff_of_true rfl fun pre n c post h => ?_
      simp at h
  | cons x rest ih =>
      rw [evenRuns]
      split
      · next hx => rw [hx, ih, evenFrom_dollar]
      · next hx =>
          rw [Bool.and_eq_true, ih, evenFrom_of_ne hx]
          cases odd <;> simp

end Template

/-- **A template expands to what a script puts in its place** exactly when every longest run of
dollars in front of a character of more bytes than one is even; otherwise the program panics. -/
theorem expand_iff (before matched after tpl out : List Char)
    (captures : List (Option (List Char))) :
    expandTemplate tpl (before ++ matched ++ after) (size before) (size before + size matched)
        (some matched :: captures) out
      = some (out ++ substitution before matched after captures tpl) ↔ EvenRuns tpl := by
  have hloop := @expandLoop_eq before matched after tpl captures tpl.length tpl (Nat.le_refl _)
    [] [] out (List.nil_append tpl).symm
  have heven : evenRuns false tpl = true ↔ EvenRuns tpl := by
    rw [evenRuns_iff]
    simp [EvenRuns, EvenFrom]
  rw [expandTemplate, ← heven]
  rw [List.append_nil] at hloop
  refine ⟨fun h => ?_, fun h => ?_⟩
  · by_contra hne
    rw [if_neg hne] at hloop
    exact Option.some_ne_none _ (h.symm.trans hloop)
  · rwa [if_pos h] at hloop

/-- A dollar in front of a letter that is not ASCII. -/
theorem expand_letter :
    expandTemplate ['$', '\u00e9'] ['a'] 0 1 [some ['a']] [] = none ∧
      substitution [] ['a'] [] [] ['$', '\u00e9'] = ['$', '\u00e9'] := by
  refine ⟨?_, by decide⟩
  have hbytes : bytes ['$', '\u00e9'] = [36, 195, 169] := by decide
  have hslice : slice ['$', '\u00e9'] 0 0 = some [] := by decide
  have href : reference ['$', '\u00e9'] ['a'] 0 1 [some ['a']] 0 195 [(169 : UInt8)].head?
      = none := by decide
  rw [expandTemplate, hbytes, expandLoop, if_neg (by simp), hslice, Option.bind_some, href]
  rfl

end Interp
end Lunar
