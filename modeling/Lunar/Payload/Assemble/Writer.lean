/-
# Writing a payload

`payload/assemble.rs` (`write_str`, `write_num`, `write_value`, `write_init`, `plaintext`).  The
writers append bytes of JSON.  A string is copied in stretches between the bytes that are escaped
(`writeStr_eq`), and what is written of a tree reads back as the tree (`writeValue_spec`).

A tree is that of `serde_json`.  A double is printed by `num_to_str`, whose text reads back as the
double, and what is no number is written as null.
-/

import Lunar.Lib.Slice
import Lunar.Payload.Compute
import Lunar.Payload.Interp.Numeral
import Lunar.Worktime.Fc.Apply

namespace Lunar
namespace Assemble

open Lib
open Lib.Double (IsDouble ofRat)
open Lib.Json (Writes WritesElems WritesMembers Escaped)
open Fc (Value Number)
open Compute (Cell Init Layout)
open Interp (numToStr)

/-- `as_bytes`. -/
def text (s : String) : List UInt8 := Slice.bytes s.toList

def HEX : Vector Char 16 :=
  #v['0', '1', '2', '3', '4', '5', '6', '7', '8', '9', 'a', 'b', 'c', 'd', 'e', 'f']

/-- A digit of a byte below `0x20`. -/
def hex (n : ℕ) : Char := HEX.get (Fin.ofNat 16 n)

/-- What is written of a byte that does not stand for itself. -/
def escape (c : UInt8) : Option (List UInt8) :=
  if c = 0x22 then some (text "\\\"")
  else if c = 0x5c then some (text "\\\\")
  else if c = 0x08 then some (text "\\b")
  else if c = 0x0c then some (text "\\f")
  else if c = 0x0a then some (text "\\n")
  else if c = 0x0d then some (text "\\r")
  else if c = 0x09 then some (text "\\t")
  else if c ≤ 0x1f then
    some (Slice.bytes ['\\', 'u', '0', '0', hex (c.toNat / 16), hex (c.toNat % 16)])
  else none

/-- The loop of `write_str` over the bytes from place `i` on; those from `start` on are not copied
yet. -/
def writeStretches (b : List UInt8) : List UInt8 → ℕ → ℕ → List UInt8 → List UInt8
  | [], _, start, out => out ++ b.drop start
  | c :: cs, i, start, out =>
    match escape c with
    | some esc => writeStretches b cs (i + 1) (i + 1) (out ++ (b.take i).drop start ++ esc)
    | none => writeStretches b cs (i + 1) start out

/-- `write_str`. -/
def writeStr (out : List UInt8) (s : String) : List UInt8 :=
  writeStretches (text s) (text s) 0 0 (out ++ text "\"") ++ text "\""

/-- `write_num`. -/
def writeNum (out : List UInt8) (n : Double) : List UInt8 :=
  if n.isFinite then out ++ text (numToStr n) else out ++ text "null"

/-- `as_i64`. -/
def asI64 : Number → Option Int64
  | .posInt n => if n.toNat < 2 ^ 63 then some (.ofNat n.toNat) else none
  | .negInt n => some n
  | .float _ => none

/-- A number of `write_value`. -/
def writeNumber (out : List UInt8) (n : Number) : List UInt8 :=
  match asI64 n with
  | some i => out ++ text (toString i.toInt)
  | none =>
    match n.asU64 with
    | some u => out ++ text (toString u.toNat)
    | none => writeNum out n.asF64

/-- A comma in front of all but the first entry. -/
def comma (out : List UInt8) (i : ℕ) : List UInt8 := if 0 < i then out ++ text "," else out

mutual

/-- `write_value`. -/
def writeValue (out : List UInt8) : Value → List UInt8
  | .null => out ++ text "null"
  | .bool true => out ++ text "true"
  | .bool false => out ++ text "false"
  | .number n => writeNumber out n
  | .string s => writeStr out s
  | .array items => writeItems (out ++ text "[") 0 items ++ text "]"
  | .object map => writeEntries (out ++ text "\x7b") 0 map ++ text "\x7d"

/-- The loop over the entries of an array. -/
def writeItems (out : List UInt8) (i : ℕ) : List Value → List UInt8
  | [] => out
  | x :: items => writeItems (writeValue (comma out i) x) (i + 1) items

/-- The loop over the entries of an object. -/
def writeEntries (out : List UInt8) (i : ℕ) : List (String × Value) → List UInt8
  | [] => out
  | (k, x) :: map =>
    writeEntries (writeValue (writeStr (comma out i) k ++ text ":") x) (i + 1) map

end

/-- `write_init`. -/
def writeInit (out : List UInt8) : Init → List UInt8
  | .undef | .null => out ++ text "null"
  | .bool true => out ++ text "true"
  | .bool false => out ++ text "false"
  | .num n => writeNum out n
  | .str s => writeStr out s

/-- The errors of `plaintext`. -/
inductive AssembleError
  | unfilled (i : ℕ)
  | prefixK (k : ℕ)
  | init (j : ℕ)
  | metadata (i cell : ℕ)
  deriving DecidableEq, Repr

structure ProbeValue where
  cell : ℕ
  head : Value
  dt : Option Double

structure Values where
  probes : List ProbeValue
  metadataCell : ℕ
  metadata : Value

/-- The probe of each cell. -/
def byCell (n : ℕ) (probes : List ProbeValue) : List (Option ProbeValue) :=
  probes.foldl (fun cells p => cells.set p.cell (some p)) (List.replicate n none)

/-- A cell of `plaintext`. -/
def writeCell (layout : Layout) (values : Values) (out : List UInt8) (i : ℕ) :
    Cell → Except AssembleError (List UInt8)
  | .prefixK k =>
    match layout.prefixes[k]? with
    | some s => .ok (writeStr out s)
    | none => .error (.prefixK k)
  | .init j =>
    match layout.template[j]? with
    | some v => .ok (writeInit out v)
    | none => .error (.init j)
  | .probe _ _ =>
    match (byCell layout.cells.length values.probes)[i]? with
    | some (some p) =>
      let out := writeValue (out ++ text "[") p.head
      let out := match p.dt with
        | some d => writeNum (out ++ text ",") d
        | none => out
      .ok (out ++ text "]")
    | _ => .error (.unfilled (i % 2 ^ 32))
  | .metadata =>
    if values.metadataCell ≠ i then .error (.metadata (i % 2 ^ 32) values.metadataCell)
    else .ok (writeValue out values.metadata)

/-- The loop of `plaintext` over the cells. -/
def writeCells (layout : Layout) (values : Values) (out : List UInt8) (i : ℕ) :
    List Cell → Except AssembleError (List UInt8)
  | [] => .ok out
  | c :: cells => do
    let out ← writeCell layout values (comma out i) i c
    writeCells layout values out (i + 1) cells

def plaintext (layout : Layout) (values : Values) : Except AssembleError (List UInt8) := do
  let out ← writeCells layout values (text "[") 0 layout.cells
  return out ++ text "]"

/-! ## Strings -/

theorem bytes_append (xs ys : List Char) :
    Slice.bytes (xs ++ ys) = Slice.bytes xs ++ Slice.bytes ys := List.flatMap_append

/-- A byte as it is written. -/
def written (c : UInt8) : List UInt8 := (escape c).getD [c]

/-- The stretches and what stands between them are the bytes as they are written. -/
theorem writeStretches_eq {b cs : List UInt8} {i start : ℕ} (h : b.drop i = cs) (hs : start ≤ i)
    (out : List UInt8) :
    writeStretches b cs i start out = out ++ (b.take i).drop start ++ cs.flatMap written := by
  induction cs generalizing i start out with
  | nil =>
      have hlen : b.length ≤ i := List.drop_eq_nil_iff.1 h
      rw [writeStretches, List.take_of_length_le hlen, List.flatMap_nil, List.append_nil]
  | cons c cs ih =>
      have hget : b[i]? = some c := by
        rw [← List.head?_drop, h, List.head?_cons]
      have hlt : i < b.length := (List.getElem?_eq_some_iff.1 hget).1
      have hrest : b.drop (i + 1) = cs := by rw [← List.drop_drop, h, List.drop_one, List.tail_cons]
      rw [writeStretches, List.flatMap_cons]
      cases hesc : escape c with
      | some esc =>
          have hnil : (b.take (i + 1)).drop (i + 1) = [] :=
            List.drop_eq_nil_of_le (List.length_take_le _ _)
          dsimp only
          rw [ih hrest le_rfl, written, hesc, Option.getD_some, hnil]
          simp
      | none =>
          have htake : (b.take (i + 1)).drop start = (b.take i).drop start ++ [c] := by
            rw [List.take_add_one, hget, Option.toList_some,
              List.drop_append_of_le_length (by rw [List.length_take]; omega)]
          dsimp only
          rw [ih hrest (hs.trans (Nat.le_succ i)), htake, written, hesc, Option.getD_none]
          simp

/-- The bytes with a name of their own behind a backslash. -/
def Named (n : ℕ) : Prop := n = 8 ∨ n = 9 ∨ n = 10 ∨ n = 12 ∨ n = 13

theorem escape_unnamed {b : UInt8} (hquote : b.toNat ≠ 34) (hback : b.toNat ≠ 92)
    (hnamed : ¬Named b.toNat) : escape b = if b.toNat < 32 then
      some (Slice.bytes ['\\', 'u', '0', '0', hex (b.toNat / 16), hex (b.toNat % 16)])
    else none := by
  have hne (k : UInt8) (hk : b.toNat ≠ k.toNat) : ¬b = k := fun h => hk (congrArg UInt8.toNat h)
  obtain ⟨h8, h9, h10, h12, h13⟩ : b.toNat ≠ 8 ∧ b.toNat ≠ 9 ∧ b.toNat ≠ 10 ∧ b.toNat ≠ 12 ∧
      b.toNat ≠ 13 := by
    rw [Named] at hnamed
    omega
  have hle : b ≤ 0x1f ↔ b.toNat < 32 := UInt8.le_iff_toNat_le.trans Nat.lt_succ_iff.symm
  rw [escape, if_neg (hne 0x22 hquote), if_neg (hne 0x5c hback), if_neg (hne 0x08 h8),
    if_neg (hne 0x0c h12), if_neg (hne 0x0a h10), if_neg (hne 0x0d h13), if_neg (hne 0x09 h9)]
  simp only [hle]

theorem hex4_hex {n : ℕ} (h : n < 32) :
    Json.hex4 '0' '0' (hex (n / 16)) (hex (n % 16)) = some n := by
  have hall : ∀ n < 32, Json.hex4 '0' '0' (hex (n / 16)) (hex (n % 16)) = some n := by decide
  exact hall n h

theorem escaped_cons {c d e : Char} (hd : Json.unescape e = some d) (hc : c = d) {s u : List Char}
    (h : Escaped s u) : Escaped (c :: s) (['\\', e] ++ u) := by
  subst hc
  exact .escape hd h

/-- **A character is written** as one of its texts. -/
theorem written_char (c : Char) : ∃ t, (String.utf8EncodeChar c).flatMap written = Slice.bytes t ∧
    ∀ s u, Escaped s u → Escaped (c :: s) (t ++ u) := by
  have hself : c = .ofNat c.toNat := (Char.ofNat_toNat c).symm
  rcases Nat.lt_or_ge c.toNat 128 with hascii | hwide
  · have hbyte : (UInt8.ofNat c.toNat).toNat = c.toNat := Nat.mod_eq_of_lt (by omega)
    rw [Slice.encode_ascii hascii, List.flatMap_singleton]
    by_cases hquote : c.toNat = 34
    · rw [hquote] at hself ⊢
      exact ⟨['\\', '"'], rfl, fun _ _ => escaped_cons rfl hself⟩
    by_cases hback : c.toNat = 92
    · rw [hback] at hself ⊢
      exact ⟨['\\', '\\'], rfl, fun _ _ => escaped_cons rfl hself⟩
    by_cases hnamed : Named c.toNat
    · rcases hnamed with h | h | h | h | h <;> rw [h] at hself ⊢
      · exact ⟨['\\', 'b'], rfl, fun _ _ => escaped_cons rfl hself⟩
      · exact ⟨['\\', 't'], rfl, fun _ _ => escaped_cons rfl hself⟩
      · exact ⟨['\\', 'n'], rfl, fun _ _ => escaped_cons rfl hself⟩
      · exact ⟨['\\', 'f'], rfl, fun _ _ => escaped_cons rfl hself⟩
      · exact ⟨['\\', 'r'], rfl, fun _ _ => escaped_cons rfl hself⟩
    have hesc := escape_unnamed (b := .ofNat c.toNat) (by rwa [hbyte]) (by rwa [hbyte])
      (by rwa [hbyte])
    rw [hbyte] at hesc
    rw [written, hesc]
    by_cases hctl : c.toNat < 32
    · rw [if_pos hctl]
      refine ⟨_, rfl, fun s u h => ?_⟩
      have hunicode := Escaped.unicode (hex4_hex hctl) (.inl (by omega)) h
      rwa [Char.ofNat_toNat] at hunicode
    · rw [if_neg hctl]
      refine ⟨[c], ?_, fun s u h => .plain (fun hc => ?_) (fun hc => ?_) (by omega) h⟩
      · rw [Slice.bytes_cons, Slice.encode_ascii hascii]
        rfl
      · exact hquote (hc ▸ rfl)
      · exact hback (hc ▸ rfl)
  · -- no byte of a wide character is one that is escaped
    have hraw : (String.utf8EncodeChar c).flatMap written = String.utf8EncodeChar c := by
      have hone : ∀ b ∈ String.utf8EncodeChar c, written b = [b] := by
        intro b hb
        have hle := Slice.le_encode hwide b hb
        rw [written, escape_unnamed (by omega) (by omega) (by rw [Named]; omega), if_neg (by omega)]
        rfl
      rw [List.flatMap_congr hone, List.flatMap_singleton']
    refine ⟨[c], ?_, fun s u h => .plain (fun hc => ?_) (fun hc => ?_) (by omega) h⟩
    · rw [hraw, Slice.bytes_cons, Slice.bytes_nil, List.append_nil]
    · exact absurd hwide (hc ▸ by decide)
    · exact absurd hwide (hc ▸ by decide)

/-- **A string is written** between quotes, as one of its texts. -/
theorem writeStr_eq (out : List UInt8) (s : String) : ∃ t, Escaped s.toList t ∧
    writeStr out s = out ++ Slice.bytes ('"' :: (t ++ ['"'])) := by
  have hchars (cs : List Char) : ∃ t, Escaped cs t ∧
      (Slice.bytes cs).flatMap written = Slice.bytes t := by
    induction cs with
    | nil => exact ⟨[], .nil, rfl⟩
    | cons c cs ih =>
        obtain ⟨u, hu, hbytes⟩ := ih
        obtain ⟨t, ht, hescaped⟩ := written_char c
        refine ⟨t ++ u, hescaped cs u hu, ?_⟩
        rw [Slice.bytes_cons, List.flatMap_append, ht, hbytes, bytes_append]
  obtain ⟨t, ht, hbytes⟩ := hchars s.toList
  have htext : (text s).flatMap written = Slice.bytes t := hbytes
  have hquote : text "\"" = Slice.bytes ['"'] := rfl
  refine ⟨t, ht, ?_⟩
  rw [writeStr, writeStretches_eq List.drop_zero le_rfl, htext, hquote, List.take_zero,
    List.drop_nil, List.append_nil, List.append_assoc, List.append_assoc, ← bytes_append,
    ← bytes_append, List.singleton_append]

/-! ## Trees -/

/-- A double of 64 bits. -/
def Stored (x : Double) : Prop := ∃ b, x = .ofBits b

/-- A number of `serde_json`, whose doubles are finite. -/
def ValidNumber : Number → Prop
  | .float x => Stored x ∧ x.isFinite = true
  | _ => True

/-- A tree of `serde_json`. -/
inductive ValidValue : Value → Prop
  | null : ValidValue .null
  | bool (b : Bool) : ValidValue (.bool b)
  | number {n : Number} (h : ValidNumber n) : ValidValue (.number n)
  | string (s : String) : ValidValue (.string s)
  | array {items : List Value} (h : ∀ x ∈ items, ValidValue x) : ValidValue (.array items)
  | object {map : List (String × Value)} (h : ∀ m ∈ map, ValidValue m.2) : ValidValue (.object map)

/-- A rational is the value of a number; a double is the nearest one to it. -/
def NumberIs : Number → ℚ → Prop
  | .posInt n, q => q = n.toNat
  | .negInt n, q => q = n.toInt
  | .float x, q => (ofRat q).eq x = true

/-- What was read is a tree: the same strings, entries in the same order, and numbers of the same
value. -/
inductive Reads : Value → Json → Prop
  | null : Reads .null .null
  | bool (b : Bool) : Reads (.bool b) (.bool b)
  | number {n : Number} {q : ℚ} (h : NumberIs n q) : Reads (.number n) (.num q)
  | string (s : String) : Reads (.string s) (.str s.toList)
  | array {items : List Value} {js : List Json} (h : List.Forall₂ Reads items js) :
      Reads (.array items) (.arr js)
  | object {map : List (String × Value)} {ms : List (List Char × Json)}
      (hkeys : ms.map (·.1) = map.map (·.1.toList))
      (h : List.Forall₂ (fun m m' => Reads m.2 m'.2) map ms) : Reads (.object map) (.obj ms)

/-- What is read of a double: null if it is no number. -/
def DoubleReads (x : Double) (j : Json) : Prop :=
  if x.isFinite then ∃ q, j = .num q ∧ (ofRat q).eq x = true else j = .null

theorem writeNum_spec {x : Double} (h : Stored x) (out : List UInt8) :
    ∃ j t, writeNum out x = out ++ Slice.bytes t ∧ Writes j t ∧ DoubleReads x j := by
  obtain ⟨b, rfl⟩ := h
  rw [writeNum]
  cases hx : Double.ofBits b with
  | fin neg m =>
      obtain ⟨n, hn, htext, hreads⟩ := Interp.numToStr_reads neg (Double.isDouble_ofBits hx)
      refine ⟨.num n.value, n.text, ?_, .num hn, ?_⟩
      · rw [htext]
        rfl
      · have hfinite : (Double.fin neg m).isFinite = true := rfl
        rw [DoubleReads, if_pos hfinite]
        exact ⟨_, rfl, hreads⟩
  | nan => exact ⟨.null, _, rfl, .null, rfl⟩
  | inf neg => exact ⟨.null, _, rfl, .null, rfl⟩

theorem writeNumber_spec {n : Number} (h : ValidNumber n) (out : List UInt8) :
    ∃ q t, writeNumber out n = out ++ Slice.bytes t ∧ Writes (.num q) t ∧ NumberIs n q := by
  cases n with
  | posInt n =>
      rw [writeNumber, asI64]
      by_cases hlt : n.toNat < 2 ^ 63
      · rw [if_pos hlt]
        have hint : (Int64.ofNat n.toNat).toInt = (n.toNat : ℤ) := by
          exact Int64.toInt_ofNat_of_lt hlt
        refine ⟨_, _, rfl, Interp.writes_int _, ?_⟩
        rw [hint]
        rfl
      · rw [if_neg hlt]
        exact ⟨_, _, rfl, Interp.writes_int n.toNat, rfl⟩
  | negInt n => exact ⟨_, _, rfl, Interp.writes_int n.toInt, rfl⟩
  | float x =>
      obtain ⟨j, t, hwrite, hwrites, hreads⟩ := writeNum_spec h.1 out
      rw [DoubleReads, if_pos h.2] at hreads
      obtain ⟨q, rfl, hq⟩ := hreads
      exact ⟨q, t, hwrite, hwrites, hq⟩

/-- The comma in front of an entry. -/
def commaText (i : ℕ) : List Char := if 0 < i then [','] else []

theorem comma_eq (out : List UInt8) (i : ℕ) : comma out i = out ++ Slice.bytes (commaText i) := by
  rw [comma, commaText]
  split
  · rfl
  · rw [Slice.bytes_nil, List.append_nil]

/-- What is written of a tree is a text of it. -/
def Written (v : Value) : Prop :=
  ∀ out, ∃ j t, writeValue out v = out ++ Slice.bytes t ∧ Writes j t ∧ Reads v j

theorem writeItems_spec {items : List Value} (hne : items ≠ []) (h : ∀ x ∈ items, Written x)
    (out : List UInt8) (i : ℕ) :
    ∃ js t, writeItems out i items = out ++ Slice.bytes (commaText i ++ t) ∧
      WritesElems js t ∧ List.Forall₂ Reads items js := by
  induction items generalizing out i with
  | nil => exact absurd rfl hne
  | cons x items ih =>
      obtain ⟨j, t, hwrite, hwrites, hreads⟩ := h x List.mem_cons_self (comma out i)
      rw [comma_eq, List.append_assoc, ← bytes_append] at hwrite
      rw [writeItems, comma_eq, hwrite]
      rcases eq_or_ne items [] with rfl | hmore
      · exact ⟨[j], t, rfl, .last hwrites, .cons hreads .nil⟩
      · obtain ⟨js, u, hrest, hwrites', hreads'⟩ := ih hmore
          (fun z hz => h z (List.mem_cons_of_mem x hz)) _ (i + 1)
        refine ⟨j :: js, _, ?_, .more hwrites hwrites', .cons hreads hreads'⟩
        have hcomma : commaText (i + 1) = [','] := if_pos (Nat.succ_pos i)
        rw [hrest, hcomma, List.append_assoc, ← bytes_append, List.append_assoc]
        rfl

theorem writeEntries_spec {map : List (String × Value)} (hne : map ≠ [])
    (h : ∀ m ∈ map, Written m.2) (out : List UInt8) (i : ℕ) :
    ∃ ms t, writeEntries out i map = out ++ Slice.bytes (commaText i ++ t) ∧
      WritesMembers ms t ∧ ms.map (·.1) = map.map (·.1.toList) ∧
      List.Forall₂ (fun m m' => Reads m.2 m'.2) map ms := by
  induction map generalizing out i with
  | nil => exact absurd rfl hne
  | cons m map ih =>
      obtain ⟨k, x⟩ := m
      obtain ⟨kt, hkt, hkey⟩ := writeStr_eq (comma out i) k
      obtain ⟨j, t, hwrite, hwrites, hreads⟩ :=
        h (k, x) List.mem_cons_self (writeStr (comma out i) k ++ text ":")
      have hentry : writeValue (writeStr (comma out i) k ++ text ":") x =
          out ++ Slice.bytes (commaText i ++ '"' :: (kt ++ '"' :: ':' :: t)) := by
        have hcolon : text ":" = Slice.bytes [':'] := rfl
        rw [hwrite, hkey, hcolon, comma_eq]
        simp only [List.append_assoc, ← bytes_append]
        simp
      rw [writeEntries, hentry]
      rcases eq_or_ne map [] with rfl | hmore
      · exact ⟨[(k.toList, j)], _, rfl, .last hkt hwrites, rfl, .cons hreads .nil⟩
      · obtain ⟨ms, u, hrest, hwrites', hkeys, hreads'⟩ := ih hmore
          (fun z hz => h z (List.mem_cons_of_mem _ hz)) _ (i + 1)
        refine ⟨(k.toList, j) :: ms, _, ?_, .more hkt hwrites hwrites', ?_, .cons hreads hreads'⟩
        · have hcomma : commaText (i + 1) = [','] := if_pos (Nat.succ_pos i)
          rw [hrest, hcomma, List.append_assoc, ← bytes_append]
          simp
        · rw [List.map_cons, List.map_cons, hkeys]

theorem brackets_eq (out : List UInt8) (l r : Char) (t : List Char) :
    out ++ Slice.bytes [l] ++ Slice.bytes t ++ Slice.bytes [r] =
      out ++ Slice.bytes (l :: (t ++ [r])) := by
  simp only [List.append_assoc, ← bytes_append]
  rfl

/-- **What is written of a tree reads as the tree.** -/
theorem writeValue_spec {v : Value} (h : ValidValue v) : Written v := by
  induction h with
  | null => exact fun out => ⟨_, _, rfl, .null, .null⟩
  | bool b =>
      intro out
      cases b with
      | true => exact ⟨_, _, rfl, .boolTrue, .bool true⟩
      | false => exact ⟨_, _, rfl, .boolFalse, .bool false⟩
  | number h =>
      intro out
      obtain ⟨q, t, hwrite, hwrites, hq⟩ := writeNumber_spec h out
      exact ⟨.num q, t, hwrite, hwrites, .number hq⟩
  | string s =>
      intro out
      obtain ⟨t, ht, hwrite⟩ := writeStr_eq out s
      exact ⟨_, _, hwrite, .str ht, .string s⟩
  | @array items _ ih =>
      intro out
      rcases eq_or_ne items [] with rfl | hne
      · have hempty := brackets_eq out '[' ']' []
        rw [Slice.bytes_nil, List.append_nil] at hempty
        exact ⟨.arr [], ['[', ']'], hempty, .arrNil, .array .nil⟩
      · obtain ⟨js, t, hwrite, hwrites, hreads⟩ := writeItems_spec hne ih (out ++ text "[") 0
        refine ⟨.arr js, _, ?_, .arr hwrites, .array hreads⟩
        rw [writeValue, hwrite]
        exact brackets_eq out '[' ']' t
  | @object map _ ih =>
      intro out
      rcases eq_or_ne map [] with rfl | hne
      · have hempty := brackets_eq out '\x7b' '\x7d' []
        rw [Slice.bytes_nil, List.append_nil] at hempty
        exact ⟨.obj [], ['\x7b', '\x7d'], hempty, .objNil, .object rfl .nil⟩
      · obtain ⟨ms, t, hwrite, hwrites, hkeys, hreads⟩ :=
          writeEntries_spec hne ih (out ++ text "\x7b") 0
        refine ⟨.obj ms, _, ?_, .obj hwrites, .object hkeys hreads⟩
        rw [writeValue, hwrite]
        exact brackets_eq out '\x7b' '\x7d' t

/-! ## Cells -/

/-- What is read of an entry of the template. -/
def InitReads : Init → Json → Prop
  | .undef, j | .null, j => j = .null
  | .bool b, j => j = .bool b
  | .num x, j => DoubleReads x j
  | .str s, j => j = .str s.toList

/-- The doubles of an entry of the template. -/
def ValidInit : Init → Prop
  | .num x => Stored x
  | _ => True

theorem writeInit_spec {v : Init} (h : ValidInit v) (out : List UInt8) :
    ∃ j t, writeInit out v = out ++ Slice.bytes t ∧ Writes j t ∧ InitReads v j := by
  cases v with
  | undef => exact ⟨_, _, rfl, .null, rfl⟩
  | null => exact ⟨_, _, rfl, .null, rfl⟩
  | bool b =>
      cases b with
      | true => exact ⟨_, _, rfl, .boolTrue, rfl⟩
      | false => exact ⟨_, _, rfl, .boolFalse, rfl⟩
  | num x => exact writeNum_spec h out
  | str s =>
      obtain ⟨t, ht, hwrite⟩ := writeStr_eq out s
      exact ⟨_, _, hwrite, .str ht, rfl⟩

/-- The last probe of a cell. -/
def probeOf (probes : List ProbeValue) (i : ℕ) : Option ProbeValue :=
  probes.reverse.find? fun p => p.cell = i

theorem byCell_eq {n i : ℕ} (hi : i < n) (probes : List ProbeValue) :
    (byCell n probes)[i]? = some (probeOf probes i) := by
  have hlen (probes : List ProbeValue) : (byCell n probes).length = n := by
    induction probes using List.reverseRecOn with
    | nil => exact List.length_replicate
    | append_singleton probes p ih =>
        rw [byCell, List.foldl_append, List.foldl_cons, List.foldl_nil, List.length_set]
        exact ih
  induction probes using List.reverseRecOn with
  | nil =>
      rw [byCell, List.foldl_nil, List.getElem?_replicate, if_pos hi]
      rfl
  | append_singleton probes p ih =>
      have hset : byCell n (probes ++ [p]) = (byCell n probes).set p.cell (some p) := by
        rw [byCell, List.foldl_append]
        rfl
      rw [hset, List.getElem?_set, hlen, probeOf, List.reverse_append, List.reverse_singleton,
        List.singleton_append, List.find?_cons]
      by_cases hp : p.cell = i
      · rw [if_pos hp, if_pos (hp ▸ hi), decide_eq_true hp]
      · rw [if_neg hp, decide_eq_false hp, ih]
        rfl

/-- What is read of a probe: its value, and how long it took if that is known. -/
def ProbeReads (p : ProbeValue) (j : Json) : Prop :=
  ∃ h, Reads p.head h ∧ match p.dt with
    | some d => ∃ t, DoubleReads d t ∧ j = .arr [h, t]
    | none => j = .arr [h]

/-- What is read of the cell at place `i` is its own value. -/
def CellReads (layout : Layout) (values : Values) (i : ℕ) (j : Json) : Cell → Prop
  | .prefixK k => ∃ s, layout.prefixes[k]? = some s ∧ j = .str s.toList
  | .init k => ∃ v, layout.template[k]? = some v ∧ InitReads v j
  | .probe _ _ => ∃ p, probeOf values.probes i = some p ∧ ProbeReads p j
  | .metadata => values.metadataCell = i ∧ Reads values.metadata j

/-- The trees and doubles of a layout and of the values. -/
structure Valid (layout : Layout) (values : Values) : Prop where
  template : ∀ v ∈ layout.template, ValidInit v
  heads : ∀ p ∈ values.probes, ValidValue p.head
  times : ∀ p ∈ values.probes, ∀ d, p.dt = some d → Stored d
  metadata : ValidValue values.metadata

theorem probe_spec {p : ProbeValue} (hhead : ValidValue p.head)
    (hdt : ∀ d, p.dt = some d → Stored d) (out : List UInt8) :
    ∃ j t, (match p.dt with
        | some d => writeNum (writeValue (out ++ text "[") p.head ++ text ",") d
        | none => writeValue (out ++ text "[") p.head) ++ text "]" = out ++ Slice.bytes t ∧
      Writes j t ∧ ProbeReads p j := by
  obtain ⟨h, t, hwrite, hwrites, hreads⟩ := writeValue_spec hhead (out ++ text "[")
  cases hp : p.dt with
  | none =>
      refine ⟨.arr [h], _, ?_, .arr (.last hwrites), h, hreads, ?_⟩
      · rw [hwrite]
        exact brackets_eq out '[' ']' t
      · rw [hp]
  | some d =>
      obtain ⟨j, u, hnum, hnums, hd⟩ := writeNum_spec (hdt d hp)
        (writeValue (out ++ text "[") p.head ++ text ",")
      refine ⟨.arr [h, j], _, ?_, .arr (.more hwrites (.last hnums)), h, hreads, ?_⟩
      · have hcomma : text "," = Slice.bytes [','] := rfl
        have hsplit : Slice.bytes (t ++ ',' :: u) =
            Slice.bytes t ++ Slice.bytes [','] ++ Slice.bytes u := by
          rw [← List.singleton_append, bytes_append, bytes_append, List.append_assoc]
        dsimp only
        rw [hnum, hwrite, hcomma, ← brackets_eq, hsplit]
        simp only [List.append_assoc]
        rfl
      · rw [hp]
        exact ⟨j, hd, rfl⟩

/-- **A cell is written** as a text of its value. -/
theorem writeCell_spec {layout : Layout} {values : Values} (h : Valid layout values)
    {out out' : List UInt8} {i : ℕ} (hi : i < layout.cells.length) {c : Cell}
    (hc : writeCell layout values out i c = .ok out') :
    ∃ j t, out' = out ++ Slice.bytes t ∧ Writes j t ∧ CellReads layout values i j c := by
  cases c with
  | prefixK k =>
      rw [writeCell] at hc
      split at hc
      · next s hs =>
          obtain ⟨t, ht, hwrite⟩ := writeStr_eq out s
          exact ⟨_, _, (Except.ok.inj hc).symm.trans hwrite, .str ht, s, hs, rfl⟩
      · cases hc
  | init k =>
      rw [writeCell] at hc
      split at hc
      · next v hv =>
          obtain ⟨j, t, hwrite, hwrites, hreads⟩ :=
            writeInit_spec (h.template v (List.mem_of_getElem? hv)) out
          exact ⟨j, t, (Except.ok.inj hc).symm.trans hwrite, hwrites, v, hv, hreads⟩
      · cases hc
  | probe b k =>
      rw [writeCell, byCell_eq hi] at hc
      split at hc
      · next p hp =>
          have hp := Option.some.inj hp
          have hmem : p ∈ values.probes := List.mem_reverse.1 (List.mem_of_find?_eq_some hp)
          obtain ⟨j, t, hwrite, hwrites, hreads⟩ := probe_spec (h.heads p hmem) (h.times p hmem) out
          exact ⟨j, t, (Except.ok.inj hc).symm.trans hwrite, hwrites, p, hp, hreads⟩
      · cases hc
  | metadata =>
      rw [writeCell] at hc
      split at hc
      · cases hc
      · next hcell =>
          obtain ⟨j, t, hwrite, hwrites, hreads⟩ := writeValue_spec h.metadata out
          exact ⟨j, t, (Except.ok.inj hc).symm.trans hwrite, hwrites, not_not.1 hcell, hreads⟩

/-- What is read of a cell and of those behind it. -/
theorem headed {layout : Layout} {values : Values} {i : ℕ} {c : Cell} {cells : List Cell} {j : Json}
    {js : List Json} (hj : CellReads layout values i j c)
    (hjs : ∀ k d, cells[k]? = some d → ∃ j', js[k]? = some j' ∧
      CellReads layout values (i + 1 + k) j' d) :
    ∀ k d, (c :: cells)[k]? = some d → ∃ j', (j :: js)[k]? = some j' ∧
      CellReads layout values (i + k) j' d := by
  intro k d hk
  cases k with
  | zero =>
      rw [List.getElem?_cons_zero, Option.some.injEq] at hk
      exact ⟨j, rfl, hk ▸ hj⟩
  | succ k =>
      rw [List.getElem?_cons_succ] at hk ⊢
      obtain ⟨j', hj', hreads⟩ := hjs k d hk
      exact ⟨j', hj', by rwa [Nat.add_right_comm] at hreads⟩

/-- The cells from place `i` on. -/
theorem writeCells_spec {layout : Layout} {values : Values} (h : Valid layout values)
    {cells : List Cell} {i : ℕ} (hcells : layout.cells.drop i = cells) {out out' : List UInt8}
    (hne : cells ≠ []) (hw : writeCells layout values out i cells = .ok out') :
    ∃ js t, out' = out ++ Slice.bytes (commaText i ++ t) ∧ WritesElems js t ∧
      js.length = cells.length ∧ ∀ k c, cells[k]? = some c →
        ∃ j, js[k]? = some j ∧ CellReads layout values (i + k) j c := by
  induction cells generalizing i out with
  | nil => exact absurd rfl hne
  | cons c cells ih =>
      have hget : layout.cells[i]? = some c := by rw [← List.head?_drop, hcells, List.head?_cons]
      have hrest : layout.cells.drop (i + 1) = cells := by
        rw [← List.drop_drop, hcells, List.drop_one, List.tail_cons]
      have hlt : i < layout.cells.length := (List.getElem?_eq_some_iff.1 hget).1
      rw [writeCells] at hw
      cases hcell : writeCell layout values (comma out i) i c with
      | error e =>
          rw [hcell] at hw
          cases hw
      | ok mid =>
          rw [hcell] at hw
          obtain ⟨j, t, hmid, hwrites, hreads⟩ := writeCell_spec h hlt hcell
          rw [comma_eq, List.append_assoc, ← bytes_append] at hmid
          have hw : writeCells layout values mid (i + 1) cells = .ok out' := hw
          rcases eq_or_ne cells [] with rfl | hmore
          · refine ⟨[j], t, ?_, .last hwrites, rfl, fun k d hk => ?_⟩
            · rw [writeCells] at hw
              rw [← hmid, Except.ok.inj hw]
            · exact headed hreads (fun _ _ hnil => absurd hnil (by simp)) k d hk
          · obtain ⟨js, u, hout, hwrites', hlen, hall⟩ := ih hrest hmore hw
            have hcomma : commaText (i + 1) = [','] := if_pos (Nat.succ_pos i)
            refine ⟨j :: js, _, ?_, .more hwrites hwrites', by simp [hlen], fun k d hk => ?_⟩
            · rw [hout, hmid, hcomma, List.append_assoc, ← bytes_append, List.append_assoc]
              rfl
            · exact headed hreads hall k d hk

/-- An error says which cell has no value. -/
def Blames (layout : Layout) (values : Values) (i : ℕ) (c : Cell) : AssembleError → Prop
  | .unfilled n => (∃ b p, c = .probe b p) ∧ probeOf values.probes i = none ∧ n = i % 2 ^ 32
  | .prefixK k => c = .prefixK k ∧ layout.prefixes[k]? = none
  | .init k => c = .init k ∧ layout.template[k]? = none
  | .metadata n cell =>
    c = .metadata ∧ values.metadataCell ≠ i ∧ n = i % 2 ^ 32 ∧ cell = values.metadataCell

theorem writeCell_error {layout : Layout} {values : Values} {out : List UInt8} {i : ℕ}
    (hi : i < layout.cells.length) {c : Cell} {e : AssembleError}
    (hc : writeCell layout values out i c = .error e) : Blames layout values i c e := by
  cases c with
  | prefixK k =>
      rw [writeCell] at hc
      split at hc
      · cases hc
      · next hnone =>
          obtain rfl := Except.error.inj hc
          exact ⟨rfl, hnone⟩
  | init k =>
      rw [writeCell] at hc
      split at hc
      · cases hc
      · next hnone =>
          obtain rfl := Except.error.inj hc
          exact ⟨rfl, hnone⟩
  | probe b k =>
      rw [writeCell, byCell_eq hi] at hc
      split at hc
      · cases hc
      · next hnone =>
          obtain rfl := Except.error.inj hc
          refine ⟨⟨b, k, rfl⟩, ?_, rfl⟩
          cases hp : probeOf values.probes i with
          | none => rfl
          | some p => exact absurd (congrArg some hp) (hnone p)
  | metadata =>
      rw [writeCell] at hc
      split at hc
      · next hcell =>
          obtain rfl := Except.error.inj hc
          exact ⟨rfl, hcell, rfl, rfl⟩
      · cases hc

theorem writeCells_error {layout : Layout} {values : Values} {cells : List Cell} {i : ℕ}
    (hcells : layout.cells.drop i = cells) {out : List UInt8} {e : AssembleError}
    (hw : writeCells layout values out i cells = .error e) :
    ∃ k c, layout.cells[k]? = some c ∧ Blames layout values k c e := by
  induction cells generalizing i out with
  | nil => cases hw
  | cons c cells ih =>
      have hget : layout.cells[i]? = some c := by rw [← List.head?_drop, hcells, List.head?_cons]
      have hrest : layout.cells.drop (i + 1) = cells := by
        rw [← List.drop_drop, hcells, List.drop_one, List.tail_cons]
      rw [writeCells] at hw
      cases hcell : writeCell layout values (comma out i) i c with
      | error e' =>
          rw [hcell] at hw
          obtain rfl := Except.error.inj hw
          exact ⟨i, c, hget, writeCell_error (List.getElem?_eq_some_iff.1 hget).1 hcell⟩
      | ok mid =>
          rw [hcell] at hw
          exact ih hrest hw

/-- **A payload is the array of its cells**, each with its own value. -/
theorem plaintext_spec {layout : Layout} {values : Values} (h : Valid layout values)
    {out : List UInt8} (hout : plaintext layout values = .ok out) :
    ∃ t js, out = Slice.bytes t ∧ Writes (.arr js) t ∧ js.length = layout.cells.length ∧
      ∀ i c, layout.cells[i]? = some c → ∃ j, js[i]? = some j ∧ CellReads layout values i j c := by
  rw [plaintext] at hout
  cases hw : writeCells layout values (text "[") 0 layout.cells with
  | error e =>
      rw [hw] at hout
      cases hout
  | ok mid =>
      rw [hw] at hout
      have hout : mid ++ text "]" = out := Except.ok.inj hout
      rcases eq_or_ne layout.cells [] with hnil | hne
      · rw [hnil, writeCells] at hw
        refine ⟨['[', ']'], [], ?_, .arrNil, by rw [hnil]; rfl, fun i c hc => ?_⟩
        · rw [← hout, ← Except.ok.inj hw]
          rfl
        · rw [hnil] at hc
          cases hc
      · obtain ⟨js, t, hmid, hwrites, hlen, hall⟩ := writeCells_spec h List.drop_zero hne hw
        refine ⟨_, js, ?_, .arr hwrites, hlen, fun i c hc => ?_⟩
        · rw [← hout, hmid]
          exact brackets_eq [] '[' ']' t
        · have hcell := hall i c hc
          rwa [Nat.zero_add] at hcell

/-- **What is written reads back**: a tree reads as itself, a string character for character, and a
payload is the array of its cells, each with its own value, unless an error says which cell has
none. -/
theorem writer_round_trip :
    (∀ v, ValidValue v → ∃ t j, writeValue [] v = Slice.bytes t ∧ Json.parse t = some j ∧
      Reads v j) ∧
    (∀ s : String, ∃ t, writeStr [] s = Slice.bytes t ∧ Json.parse t = some (.str s.toList)) ∧
    ∀ layout values, Valid layout values →
      (∃ e i c, plaintext layout values = .error e ∧ layout.cells[i]? = some c ∧
        Blames layout values i c e) ∨
      ∃ out t js, plaintext layout values = .ok out ∧ out = Slice.bytes t ∧
        Json.parse t = some (.arr js) ∧ js.length = layout.cells.length ∧
        ∀ i c, layout.cells[i]? = some c →
          ∃ j, js[i]? = some j ∧ CellReads layout values i j c := by
  refine ⟨fun v h => ?_, fun s => ?_, fun layout values h => ?_⟩
  · obtain ⟨j, t, hwrite, hwrites, hreads⟩ := writeValue_spec h []
    exact ⟨t, j, hwrite, Json.parse_of_writes hwrites, hreads⟩
  · obtain ⟨t, ht, hwrite⟩ := writeStr_eq [] s
    exact ⟨_, hwrite, Json.parse_of_writes (.str ht)⟩
  · cases hplain : plaintext layout values with
    | error e =>
        rw [plaintext] at hplain
        cases hw : writeCells layout values (text "[") 0 layout.cells with
        | error e' =>
            rw [hw] at hplain
            obtain rfl := Except.error.inj hplain
            obtain ⟨i, c, hc, hblames⟩ := writeCells_error List.drop_zero hw
            exact .inl ⟨_, i, c, rfl, hc, hblames⟩
        | ok mid =>
            rw [hw] at hplain
            cases hplain
    | ok out =>
        obtain ⟨t, js, hout, hwrites, hlen, hall⟩ := plaintext_spec h hplain
        exact .inr ⟨out, t, js, rfl, hout, Json.parse_of_writes hwrites, hlen, hall⟩

theorem writer_round_trip_nested : ∃ t j,
    writeValue [] (.array [.string "\"\\\n", .number (.posInt 7), .object [("k", .array [])]]) =
      Slice.bytes t ∧ Json.parse t = some j ∧
    Reads (.array [.string "\"\\\n", .number (.posInt 7), .object [("k", .array [])]]) j := by
  refine writer_round_trip.1 _ (.array ?_)
  rintro x (_ | ⟨_, _ | ⟨_, _ | ⟨_, ⟨⟩⟩⟩⟩)
  · exact .string _
  · exact .number trivial
  · refine .object ?_
    rintro m (_ | ⟨_, ⟨⟩⟩)
    exact .array nofun

end Assemble
end Lunar
