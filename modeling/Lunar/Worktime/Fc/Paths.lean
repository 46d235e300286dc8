/-
# Rendered paths against property reads

`worktime/fc.rs` (`name`, `render`, `walk`).  A recorded path is a chain of property keys; it is
rendered to texts, which `walk` looks up in a document.  The two agree on every document exactly
when every key of the path is `Plain` (`render_walk_iff`).

A string key is not plain if it holds half of a surrogate pair, which is rendered as another
character, or if it spells a number in a way that `parse` accepts and a script does not, such as
`01` or `+1`: on an array `walk` then selects an element that no read of the script selects.
-/

import Lunar.Lib.Numeral
import Lunar.Worktime.Fc.Apply
import Lunar.Worktime.Fc.Keys
import Lunar.Worktime.Fc.PostFixpoint

namespace Lunar
namespace Fc

open Lib.Text (encodeUtf16 fromUtf16Lossy parseUsize)
open Lib.Decimal (digits spell)

def LIT_NAMES : List String := ["true", "false", "null", "undefined"]

/-- `Program::name`; a literal beyond the table panics. -/
def KeyName.render : KeyName → Option String
  | .units u => some (fromUtf16Lossy (u.map UInt16.toNat))
  | .index i => some (toString i)
  | .lit l => LIT_NAMES[l]?

/-- The loop of `render`, with the steps in order; the inner `none` is a path of an unknown key,
the outer one a loop that has not ended or a place that is not there. -/
def renderFrom (p : Program) (paths : List (ℕ × ℕ)) :
    ℕ → ℕ → List String → Option (Option (List String))
  | 0, _, _ => none
  | fuel + 1, id, steps =>
    if id = ROOT then some (some steps)
    else do
      let (parent, key) ← paths[id]?
      if key = p.wild then return none
      else
        let name ← p.names[key]?
        let step ← name.render
        renderFrom p paths fuel parent (step :: steps)

/-- `Solver::render`. -/
def render (p : Program) (paths : List (ℕ × ℕ)) (fuel id : ℕ) : Option (Option (List String)) :=
  renderFrom p paths fuel id []

/-! ## What a path stands for -/

/-- The keys of a path that the table holds. -/
inductive Records (p : Program) (paths : List (ℕ × ℕ)) : ℕ → List KeyName → Prop
  | root : Records p paths ROOT []
  | child {id parent key : ℕ} {name : KeyName} {keys : List KeyName} (hid : id ≠ ROOT)
      (hpath : paths[id]? = some (parent, key))
      (hname : p.names[key]? = some name) (h : Records p paths parent keys) :
      Records p paths id (keys ++ [name])

/-- A property read of a document: an element of an array by its canonical index, a member of an
object by its exact name. -/
inductive Selects : Value → List ℕ → Value → Prop
  | member {map : List (String × Value)} {name : String} {v : Value}
      (h : map.lookup name = some v) : Selects (.object map) (encodeUtf16 name) v
  | element {items : List Value} {i : ℕ} {v : Value} (hi : i < 2 ^ 64) (h : items[i]? = some v) :
      Selects (.array items) (digits i) v

theorem Selects.eq_digits {items : List Value} {us : List ℕ} {v : Value}
    (h : Selects (.array items) us v) : ∃ i, us = digits i := by
  cases h with
  | element hi hget => exact ⟨_, rfl⟩

/-- A chain of property reads; there is none where one gives undefined. -/
inductive Reaches : Value → List (List ℕ) → Value → Prop
  | here (v : Value) : Reaches v [] v
  | read {node next v : Value} {key : List ℕ} {keys : List (List ℕ)} (h : Selects node key next)
      (hrest : Reaches next keys v) : Reaches node (key :: keys) v

/-- `walk` finds what the reads reach, and reports that it is missing when they reach nothing. -/
def Agrees (doc : Value) (steps : List String) (keys : List (List ℕ)) : Prop :=
  ∀ (derived : Bool) (param : String),
    (∀ v, walk doc ⟨steps, derived⟩ param = .ok v ↔ Reaches doc keys v) ∧
    ((∃ path, walk doc ⟨steps, derived⟩ param = .error (.missing param path)) ↔
      ¬∃ v, Reaches doc keys v)

/-- A key is rendered as itself, and is no other spelling of an index. -/
def KeyName.Plain : KeyName → Prop
  | .units u =>
    let us := u.map UInt16.toNat
    encodeUtf16 (fromUtf16Lossy us) = us ∧
      ∀ i, parseUsize (fromUtf16Lossy us) = some i → us = digits i
  | .index _ | .lit _ => True

/-! ## Numerals -/

theorem encodeUtf16_toDigits (n : ℕ) :
    encodeUtf16 (String.ofList (Nat.toDigits 10 n)) = digits n := by
  have hascii : ∀ c ∈ Nat.toDigits 10 n, c.toNat < 0x10000 := by
    intro c hc
    have hdigit : c.isDigit = true := Nat.isDigit_of_mem_toDigits (by decide) (by decide) hc
    have hle := UInt32.le_iff_toNat_le.1 (of_decide_eq_true (Bool.and_eq_true_iff.1 hdigit).2)
    exact lt_of_le_of_lt hle (by decide)
  rw [Lib.Text.encodeUtf16_of_lt (by rwa [String.toList_ofList]), String.toList_ofList]
  rcases Nat.eq_zero_or_pos n with rfl | hn
  · rfl
  · exact Lib.Double.map_toDigits hn.ne'

/-- A numeral is parsed as its number. -/
theorem parseUsize_toDigits (n : ℕ) :
    parseUsize (String.ofList (Nat.toDigits 10 n)) = if n < 2 ^ 64 then some n else none := by
  have hread := Lib.Numeral.ofDigits_numeral (b := 10) (by omega) (by omega) n
  obtain ⟨c, cs, hcs⟩ := List.exists_cons_of_ne_nil (Lib.Numeral.numeral_ne_nil 10 n)
  obtain ⟨d, hd, hc⟩ := Lib.Numeral.exists_of_mem_numeral (b := 10) (by omega)
    (hcs ▸ List.mem_cons_self : c ∈ Lib.Numeral.numeral 10 n)
  have hplus : c ≠ '+' := hc ▸ (Lib.Numeral.fromDigit_ne (by omega)).2.1
  have hempty : (c :: cs).isEmpty = false := rfl
  rw [parseUsize, String.toList_ofList, Lib.Numeral.toDigits_eq, Lib.Text.fromRadix, hread, hcs,
    hempty, if_neg Bool.false_ne_true, Option.filter_some]
  · simp only [decide_eq_true_iff]
  · rintro cs' heq
    exact hplus (List.cons.inj (hcs.symm.trans heq)).1

theorem parseUsize_lt {s : String} {i : ℕ} (h : parseUsize s = some i) : i < 2 ^ 64 := by
  have hread (cs : List Char) (h : (if cs.isEmpty then none
      else (Lib.Text.ofDigits 10 cs).filter (· < 2 ^ 64)) = some i) : i < 2 ^ 64 := by
    split at h
    · cases h
    · exact of_decide_eq_true (Option.filter_eq_some_iff.1 h).2
  exact hread _ h

/-- A text that starts with neither a sign nor a digit is no numeral. -/
theorem parseUsize_none {s : String} {c : Char} {cs : List Char} (hs : s.toList = c :: cs)
    (hplus : c ≠ '+') (hdigit : Lib.Text.digit 10 c = none) : parseUsize s = none := by
  have hread : Lib.Text.ofDigits 10 (c :: cs) = none := by
    rw [Lib.Text.ofDigits, List.foldlM_cons, hdigit]
    rfl
  have hempty : (c :: cs).isEmpty = false := rfl
  rw [parseUsize, hs, Lib.Text.fromRadix, hempty, if_neg Bool.false_ne_true, hread]
  · rfl
  · rintro cs' heq
    exact hplus (List.cons.inj heq).1

/-- A key that a text renders. -/
structure Renders (s : String) (us : List ℕ) : Prop where
  units : encodeUtf16 s = us
  index : ∀ i, parseUsize s = some i → us = digits i

theorem eq_of_digits {s : String} {n : ℕ} (h : encodeUtf16 s = digits n) :
    s = String.ofList (Nat.toDigits 10 n) := by
  rw [← encodeUtf16_toDigits] at h
  exact Lib.Text.encodeUtf16_inj.1 h

/-- **A step is a read** of the key that its text renders. -/
theorem stepInto_iff {s : String} {us : List ℕ} (h : Renders s us) (node v : Value) :
    stepInto node s = some v ↔ Selects node us v := by
  constructor
  · intro hstep
    cases node with
    | object map => exact h.units ▸ .member hstep
    | array items =>
        obtain ⟨i, hi, hget⟩ := Option.bind_eq_some_iff.1 hstep
        exact h.index i hi ▸ .element (parseUsize_lt hi) hget
    | null | bool | number | string => cases hstep
  · intro hselects
    cases hselects with
    | member hget =>
        obtain rfl := Lib.Text.encodeUtf16_inj.1 h.units
        exact hget
    | element hi hget =>
        obtain rfl := eq_of_digits h.units
        rw [stepInto, parseUsize_toDigits, if_pos hi]
        exact hget

/-- **A walk along rendered keys** finds what the reads reach, and nothing else. -/
theorem walkFrom_iff {steps : List String} {keys : List (List ℕ)}
    (h : List.Forall₂ Renders steps keys) (path : FcPath) (param : String) (doc v : Value) :
    walkFrom path param doc steps = .ok v ↔ Reaches doc keys v := by
  induction h generalizing doc with
  | nil =>
      rw [walkFrom]
      constructor
      · intro hok
        exact Except.ok.inj hok ▸ .here doc
      · rintro ⟨⟩
        rfl
  | @cons s us steps keys hs hsteps ih =>
      rw [walkFrom]
      constructor
      · intro hok
        cases hstep : stepInto doc s with
        | none =>
            rw [hstep] at hok
            cases hok
        | some next =>
            rw [hstep] at hok
            exact .read ((stepInto_iff hs doc next).1 hstep) ((ih next).1 hok)
      · rintro ⟨⟩
        next next hselects hrest =>
          rw [(stepInto_iff hs doc next).2 hselects]
          exact (ih next).2 hrest

/-- What a walk cannot find is missing. -/
theorem walkFrom_error (path : FcPath) (param : String) (doc : Value) (steps : List String) :
    (∃ v, walkFrom path param doc steps = .ok v) ∨
      walkFrom path param doc steps = .error (.missing param path.display) := by
  induction steps generalizing doc with
  | nil => exact .inl ⟨doc, rfl⟩
  | cons s steps ih =>
      rw [walkFrom]
      cases hstep : stepInto doc s with
      | none => exact .inr rfl
      | some next => exact ih next

theorem agrees_of_renders {steps : List String} {keys : List (List ℕ)}
    (h : List.Forall₂ Renders steps keys) (doc : Value) : Agrees doc steps keys := by
  intro derived param
  have hiff := walkFrom_iff h ⟨steps, derived⟩ param doc
  refine ⟨hiff, ?_⟩
  constructor
  · rintro ⟨path, herror⟩ ⟨v, hv⟩
    rw [walk, (hiff v).2 hv] at herror
    cases herror
  · intro hnone
    rcases walkFrom_error ⟨steps, derived⟩ param doc steps with ⟨v, hv⟩ | herror
    · exact absurd ⟨v, (hiff v).1 hv⟩ hnone
    · exact ⟨_, herror⟩

/-! ## Keys -/

/-- An integer is rendered as a script writes it. -/
theorem renders_index (i : ℤ) : Renders (toString i) (spell i) := by
  match i with
  | .ofNat n =>
    have hrepr : toString (Int.ofNat n) = String.ofList (Nat.toDigits 10 n) := rfl
    have hspell : spell (Int.ofNat n) = digits n := if_neg (by simp)
    rw [hrepr, hspell]
    refine ⟨encodeUtf16_toDigits n, fun j hj => ?_⟩
    rw [parseUsize_toDigits] at hj
    split at hj
    · exact congrArg digits (Option.some.inj hj)
    · cases hj
  | .negSucc n =>
    have hrepr : (toString (Int.negSucc n)).toList = '-' :: Nat.toDigits 10 (n + 1) := by
      show ("-" ++ String.ofList (Nat.toDigits 10 (n + 1))).toList = _
      rw [String.toList_append, String.toList_ofList, String.toList_ofList]
      rfl
    have hspell : spell (Int.negSucc n) = 45 :: digits (n + 1) := if_pos (by simp)
    refine ⟨?_, fun j hj => ?_⟩
    · rw [encodeUtf16, hrepr, List.flatMap_cons, hspell, ← encodeUtf16_toDigits, encodeUtf16,
        String.toList_ofList]
      rfl
    · rw [parseUsize_none hrepr (by decide) rfl] at hj
      cases hj

/-- A name that has a text, and is rendered. -/
def KeyName.Known (k : KeyName) : Prop := ∀ l, k = .lit l → l < 4

/-- What a name is rendered as. -/
def KeyName.step (k : KeyName) : String := k.render.getD ""

/-- The key that a name stands for. -/
def KeyName.spelling (k : KeyName) : List ℕ := k.text.getD []

theorem KeyName.Known.render {k : KeyName} (h : k.Known) : k.render = some k.step := by
  cases k with
  | units u => rfl
  | index i => rfl
  | lit l =>
      have hl := h l rfl
      interval_cases l <;> rfl

theorem KeyName.Known.text {k : KeyName} (h : k.Known) : k.text = some k.spelling := by
  cases k with
  | units u => rfl
  | index i => rfl
  | lit l =>
      have hl := h l rfl
      interval_cases l <;> rfl

/-- **The plain keys** are those that their text renders. -/
theorem KeyName.plain_iff {k : KeyName} (h : k.Known) : k.Plain ↔ Renders k.step k.spelling := by
  cases k with
  | units u => exact ⟨fun h => ⟨h.1, h.2⟩, fun h => ⟨h.units, h.index⟩⟩
  | index i => exact iff_of_true trivial (renders_index i)
  | lit l =>
      refine iff_of_true trivial ?_
      have hl := h l rfl
      have hrenders {s : String} {c : Char} {cs : List Char} (hs : s.toList = c :: cs)
          (hplus : c ≠ '+') (hdigit : Lib.Text.digit 10 c = none) :
          Renders s (encodeUtf16 s) := by
        refine ⟨rfl, fun i hi => ?_⟩
        rw [parseUsize_none hs hplus hdigit] at hi
        cases hi
      interval_cases l
      · exact hrenders (s := "true") rfl (by decide) rfl
      · exact hrenders (s := "false") rfl (by decide) rfl
      · exact hrenders (s := "null") rfl (by decide) rfl
      · exact hrenders (s := "undefined") rfl (by decide) rfl

/-- **A step that is not its key** goes where no read of the key does. -/
theorem exists_apart {s : String} {us : List ℕ} (h : ¬Renders s us) (v : Value) :
    ∃ node, stepInto node s = some v ∧ ∀ next, ¬Selects node us next := by
  by_cases hunits : encodeUtf16 s = us
  · have hindex : ¬∀ i, parseUsize s = some i → us = digits i := fun hall => h ⟨hunits, hall⟩
    obtain ⟨i, hi, hne⟩ := by simpa only [not_forall] using hindex
    refine ⟨.array (List.replicate i .null ++ [v]), ?_, ?_⟩
    · rw [stepInto, hi, Option.bind_some, List.getElem?_append_right (by simp)]
      simp
    · rintro next hselects
      cases hselects with
      | element hj hget =>
          obtain rfl := eq_of_digits hunits
          rw [parseUsize_toDigits, if_pos hj, Option.some.injEq] at hi
          exact hne (congrArg digits hi)
  · refine ⟨.object [(s, v)], by simp [stepInto], ?_⟩
    rintro next hselects
    cases hselects with
    | member hget =>
        rw [List.lookup_cons] at hget
        split at hget
        · next heq => exact hunits (congrArg encodeUtf16 (eq_of_beq heq).symm)
        · cases hget

/-- Some document is walked to its end, and the reads get there along plain keys only. -/
theorem exists_doc (path : FcPath) (param : String) {keys : List KeyName}
    (h : ∀ k ∈ keys, k.Known) :
    ∃ doc v, walkFrom path param doc (keys.map KeyName.step) = .ok v ∧
      (Reaches doc (keys.map KeyName.spelling) v → ∀ k ∈ keys, k.Plain) := by
  induction keys with
  | nil => exact ⟨.null, .null, rfl, fun _ => List.forall_mem_nil _⟩
  | cons k keys ih =>
      obtain ⟨rest, v, hwalk, hplain⟩ := ih fun k hk => h k (List.mem_cons_of_mem _ hk)
      have hk := KeyName.plain_iff (h k List.mem_cons_self)
      by_cases hrenders : Renders k.step k.spelling
      · refine ⟨.object [(k.step, rest)], v, ?_, ?_⟩
        · rw [List.map_cons, walkFrom]
          simpa [stepInto] using hwalk
        · rintro ⟨⟩
          next next hselects hrest =>
            have hstep := (stepInto_iff hrenders _ _).2 hselects
            have hnext : rest = next := by simpa [stepInto] using hstep
            exact List.forall_mem_cons.2 ⟨hk.2 hrenders, hplain (hnext ▸ hrest)⟩
      · obtain ⟨node, hstep, hnone⟩ := exists_apart hrenders rest
        refine ⟨node, v, ?_, ?_⟩
        · rw [List.map_cons, walkFrom, hstep]
          exact hwalk
        · rintro ⟨⟩
          next next hselects hrest => exact absurd hselects (hnone next)

/-! ## Paths -/

theorem mapM_text {keys : List KeyName} (h : ∀ k ∈ keys, k.Known) :
    keys.mapM KeyName.text = some (keys.map KeyName.spelling) := by
  induction keys with
  | nil => rfl
  | cons k keys ih =>
      obtain ⟨hk, hkeys⟩ := List.forall_mem_cons.1 h
      rw [List.mapM_cons, hk.text, ih hkeys]
      rfl

/-- The names of a path are names of the program. -/
theorem Records.mem {p : Program} {paths : List (ℕ × ℕ)} {id : ℕ} {keys : List KeyName}
    (h : Records p paths id keys) : ∀ k ∈ keys, k ∈ p.names := by
  induction h with
  | root => exact List.forall_mem_nil _
  | child hid hpath hname h ih =>
      rintro k hk
      rcases List.mem_append.1 hk with hk | hk
      · exact ih k hk
      · exact List.mem_singleton.1 hk ▸ List.mem_of_getElem? hname

/-- **A path is rendered** as the steps of its keys. -/
theorem Records.render {p : Program} {paths : List (ℕ × ℕ)} {id : ℕ} {keys : List KeyName}
    (h : Records p paths id keys) (hknown : ∀ k ∈ keys, k.Known) :
    ∀ fuel steps, keys.length < fuel →
      renderFrom p paths fuel id steps = some (some (keys.map KeyName.step ++ steps)) := by
  induction h with
  | root =>
      rintro fuel steps hfuel
      obtain ⟨fuel, rfl⟩ := Nat.exists_eq_succ_of_ne_zero (Nat.ne_of_gt hfuel)
      rw [renderFrom, if_pos rfl]
      rfl
  | @child id parent key name keys hid hpath hname h ih =>
      rintro fuel steps hfuel
      rw [List.length_append, List.length_singleton] at hfuel
      obtain ⟨fuel, rfl⟩ := Nat.exists_eq_succ_of_ne_zero (Nat.ne_of_gt (Nat.zero_lt_of_lt hfuel))
      have hkey : key ≠ p.wild := ((List.getElem?_eq_some_iff.1 hname).1).ne
      have hrender := (hknown name (by simp)).render
      have hparent := ih (fun k hk => hknown k (List.mem_append_left _ hk)) fuel
        (name.step :: steps) (by omega)
      rw [renderFrom, if_neg hid, hpath]
      simp only [Option.bind_eq_bind, Option.bind_some, if_neg hkey, hname, hrender, hparent,
        List.map_append, List.append_assoc]
      rfl

/-- A path stays as it is when others are recorded. -/
theorem Records.append {p : Program} {paths : List (ℕ × ℕ)} {id : ℕ} {keys : List KeyName}
    (h : Records p paths id keys) (new : List (ℕ × ℕ)) : Records p (paths ++ new) id keys := by
  induction h with
  | root => exact .root
  | child hid hpath hname h ih =>
      have hlt := (List.getElem?_eq_some_iff.1 hpath).1
      exact .child hid ((List.getElem?_append_left hlt).trans hpath) hname ih

/-- **A new path** has the keys of its parent and one more. -/
theorem Records.new {p : Program} {s s' : Facts} {parent key id : ℕ} {derived d : Bool}
    {keys : List KeyName} {name : KeyName} (h : Records p s.paths parent keys)
    (hname : p.names[key]? = some name) (hroot : s.paths ≠ [])
    (hnew : s.pathIds parent key = none)
    (hchild : s.child parent key derived = (.path id d, s')) :
    Records p s'.paths id (keys ++ [name]) := by
  rw [Facts.child, hnew] at hchild
  dsimp only at hchild
  split at hchild
  · cases hchild
  · cases hchild
    refine .child ?_ (List.getElem?_concat_length) hname (h.append _)
    exact fun h => hroot (List.length_eq_zero_iff.1 h)

/-- **A rendered path agrees with the reads it stands for on every document if and only if** all
of its keys are plain. -/
theorem render_walk_iff {p : Program} {paths : List (ℕ × ℕ)} {id : ℕ} {keys : List KeyName}
    (hlit : ∀ l, .lit l ∈ p.names → l < 4) (h : Records p paths id keys) :
    ∃ steps texts, keys.mapM KeyName.text = some texts ∧
      (∀ fuel, keys.length < fuel → render p paths fuel id = some (some steps)) ∧
      ((∀ doc, Agrees doc steps texts) ↔ ∀ k ∈ keys, k.Plain) := by
  have hknown : ∀ k ∈ keys, k.Known := by
    rintro k hk l rfl
    exact hlit l (h.mem _ hk)
  refine ⟨keys.map KeyName.step, keys.map KeyName.spelling, mapM_text hknown, fun fuel hfuel => ?_,
    fun hagrees => ?_, fun hplain => ?_⟩
  · rw [Fc.render, h.render hknown fuel [] hfuel, List.append_nil]
  · obtain ⟨doc, v, hwalk, hplain⟩ := exists_doc ⟨keys.map KeyName.step, false⟩ "" hknown
    exact hplain (((hagrees doc false "").1 v).1 hwalk)
  · refine agrees_of_renders (List.forall₂_map_left_iff.2 (List.forall₂_map_right_iff.2 ?_))
    exact List.forall₂_same.2 fun k hk => (KeyName.plain_iff (hknown k hk)).1 (hplain k hk)

/-- Function 1 reads the member `01` of the dynamic configuration. -/
def readsZeroOne : Program := { storesConfig with
  instrs := [⟨0, .closure, [.int 4], some 4⟩, ⟨1, .call0, [.reg 4], some 5⟩,
    ⟨2, .setVar, [.int 0, .reg 5], none⟩, ⟨3, .retUndef, [], none⟩,
    ⟨4, .getProp, [.reg 0, .str ⟨0, 13⟩], some 4⟩, ⟨5, .getProp, [.reg 4, .str ⟨13, 2⟩], some 4⟩,
    ⟨6, .ret, [.reg 4], none⟩]
  aux := [⟨none, 0, 1⟩, ⟨none, 0, 0⟩, ⟨none, 0, 0⟩, ⟨none, 0, 0⟩, ⟨some 0, 0, 0⟩, ⟨some 1, 0, 0⟩,
    ⟨none, 0, 0⟩]
  names := [.units ("dynamicConfig".toList.map fun c => c.toNat.toUInt16), .units [48, 49]]
  blocks := [⟨0, 4⟩, ⟨4, 7⟩] }


/-- The keys of the path. -/
def zeroOneKeys : List KeyName := readsZeroOne.names

theorem readsZeroOne_records :
    Records readsZeroOne [(NONE, NONE), (0, 0), (1, 1)] 2 zeroOneKeys :=
  .child (by decide) rfl rfl (.child (by decide) rfl rfl .root)

theorem render_walk_iff_zero_one : ∃ steps texts, zeroOneKeys.mapM KeyName.text = some texts ∧
    (∀ fuel, zeroOneKeys.length < fuel →
      render readsZeroOne [(NONE, NONE), (0, 0), (1, 1)] fuel 2 = some (some steps)) ∧
    ((∀ doc, Agrees doc steps texts) ↔ ∀ k ∈ zeroOneKeys, k.Plain) := by
  refine render_walk_iff ?_ readsZeroOne_records
  rintro l hl
  rcases List.mem_pair.1 hl with h | h
  · cases h
  · cases h

/-- The solver records the path of `dynamicConfig["01"]`, which selects nothing in an array; the
rendered path selects its second element. -/
theorem render_walk_zero_one : ∃ s, (Solver.system readsZeroOne).Reachable s ∧
    s.queue = [] ∧ (s.vals (.var 0)).t = .path 2 false ∧
    Records readsZeroOne s.facts.paths 2 zeroOneKeys ∧
    ∃ steps texts doc, render readsZeroOne s.facts.paths 3 2 = some (some steps) ∧
      zeroOneKeys.mapM KeyName.text = some texts ∧
      walk doc ⟨steps, false⟩ "sub_count" = .ok (.bool true) ∧ ∀ v, ¬Reaches doc texts v := by
  obtain ⟨s, hs, hq, hv, hpaths⟩ := Lib.System.exists_reachable (m := Solver.system readsZeroOne)
    [2, 2, 2] (P := fun s => s.queue = [] ∧ (s.vals (.var 0)).t = .path 2 false ∧
      s.facts.paths = [(NONE, NONE), (0, 0), (1, 1)])
    (by decide +kernel)
  refine ⟨s, hs, hq, hv, hpaths ▸ readsZeroOne_records, ["dynamicConfig", "01"],
    [encodeUtf16 "dynamicConfig", [48, 49]],
    .object [("dynamicConfig", .array [.null, .bool true])], ?_, by decide +kernel,
    rfl, ?_⟩
  · rw [hpaths]
    decide +kernel
  · rintro v hreaches
    cases hreaches with
    | read hmember hrest =>
        have hrenders : Renders "dynamicConfig" (encodeUtf16 "dynamicConfig") := by
          refine ⟨rfl, fun i hi => ?_⟩
          rw [parseUsize_none (s := "dynamicConfig") rfl (by decide) rfl] at hi
          cases hi
        cases Option.some.inj ((stepInto_iff hrenders _ _).2 hmember).symm
        cases hrest with
        | read helement hrest =>
            obtain ⟨i, hi⟩ := helement.eq_digits
            obtain ⟨-, -, hhead⟩ := Lib.Decimal.canonical_digits i
            exact absurd (hhead (hi ▸ rfl)) (hi ▸ by decide)

end Fc
end Lunar
