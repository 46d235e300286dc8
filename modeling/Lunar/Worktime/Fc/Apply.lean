/-
# Overrides read from the response document

`worktime/fc.rs`: `apply`, `walk`, `read_difficulty`, `read_sub_count`, `read_string`.  The
document comes through a base64 decoder and a JSON parser that are parameters; the parsed
document is `serde_json`'s `Value`, an object the list of its members.
-/

import Lunar.Lib.Double.Exact
import Lunar.Lib.Loop
import Lunar.Lib.Text
import Mathlib.Algebra.Ring.Int.Defs
import Mathlib.Algebra.Ring.Nat

namespace Lunar
namespace Fc

open Lib (Double)

/-- `serde_json::Number`. -/
inductive Number
  | posInt (n : UInt64)
  | negInt (n : Int64)
  | float (x : Double)
  deriving DecidableEq

namespace Number

def asU64 : Number → Option UInt64
  | .posInt n => some n
  | .negInt _ | .float _ => none

def asF64 : Number → Double
  | .posInt n => .ofNat n.toNat
  | .negInt n => (Double.ofNat n.toInt.natAbs).neg
  | .float x => x

end Number

/-- `serde_json::Value`. -/
inductive Value
  | null
  | bool (b : Bool)
  | number (n : Number)
  | string (s : String)
  | array (items : List Value)
  | object (map : List (String × Value))

def PARAMS : Vector String 4 := #v["difficulty", "sub_count", "seed_suffix", "seed_phrase"]

def U32_MAX : Double := .ofNat (2 ^ 32 - 1)

structure FcPath where
  steps : List String
  derived : Bool
  deriving DecidableEq, Repr

/-- `Display for FcPath`. -/
def FcPath.display (path : FcPath) : String :=
  if path.steps = [] then "<root>" else ".".intercalate path.steps

structure FcOverrides where
  difficulty : Option FcPath
  subCount : Option FcPath
  seedSuffix : Option FcPath
  seedPhrase : Option FcPath

structure FcValues where
  difficulty : Option Double
  subCount : Option UInt32
  seedSuffix : Option String
  seedPhrase : Option String

/-- `FcValues::default()`. -/
def FcValues.default : FcValues := ⟨none, none, none, none⟩

/-- `FcApplyError`, with the texts of the errors of the decoder and of the parser. -/
inductive FcApplyError
  | empty
  | base64 (e : String)
  | json (e : String)
  | missing (param path : String)
  | wrongType (param path expected : String)
  deriving DecidableEq, Repr

/-- A step of a path. -/
def stepInto (node : Value) (step : String) : Option Value :=
  match node with
  | .object map => map.lookup step
  | .array items => (Lib.Text.parseUsize step).bind fun i => items[i]?
  | _ => none

/-- The loop of `walk` over the steps left. -/
def walkFrom (path : FcPath) (param : String) : Value → List String → Except FcApplyError Value
  | node, [] => .ok node
  | node, step :: steps =>
    match stepInto node step with
    | some v => walkFrom path param v steps
    | none => .error (.missing param path.display)

def walk (doc : Value) (path : FcPath) (param : String) : Except FcApplyError Value :=
  walkFrom path param doc path.steps

/-- The number at a difficulty's path, also one written as a string if it is derived. -/
def difficultyOf (path : FcPath) : Value → Option Double
  | .number n => some n.asF64
  | .string s => if path.derived then Double.parse (Lib.Text.trim s) else none
  | _ => none

def readDifficulty (doc : Value) (path : FcPath) : Except FcApplyError Double := do
  let param := PARAMS[0]!
  let wrong := FcApplyError.wrongType param path.display
    (if path.derived then "a number or numeric string greater than 0"
    else "a number greater than 0")
  match difficultyOf path (← walk doc path param) with
  | some v => if v.isFinite && v.gt .zero then return v else throw wrong
  | none => throw wrong

/-- The count at a path. -/
def subCountOf : Value → Option ℕ
  | .number n =>
    match n.asU64 with
    | some v => some v.toNat
    | none =>
      let v := n.asF64
      if v.isInt && v.ge .one && v.le U32_MAX then some (v.toU 64) else none
  | _ => none

def readSubCount (doc : Value) (path : FcPath) : Except FcApplyError UInt32 := do
  let param := PARAMS[1]!
  let wrong := FcApplyError.wrongType param path.display "an integer in 1..=4294967295"
  match (subCountOf (← walk doc path param)).filter (· < 2 ^ 32) with
  | some v => if 1 ≤ v then return .ofNat v else throw wrong
  | none => throw wrong

def readString (doc : Value) (path : FcPath) (param : String) : Except FcApplyError String := do
  match ← walk doc path param with
  | .string s => return s
  | _ => throw (.wrongType param path.display "a string")

/-- The override of a field, if it has one. -/
def override {α : Type} (path : Option FcPath) (read : FcPath → Except FcApplyError α) :
    Except FcApplyError (Option α) :=
  match path with
  | some path => some <$> read path
  | none => .ok none

/-- `apply`, over the decoder and the parser. -/
def apply {Bytes : Type} (decode : String → Except String Bytes)
    (fromSlice : Bytes → Except String Value) (fc : String) (overrides : FcOverrides) :
    Except FcApplyError FcValues := do
  let fc := Lib.Text.trim fc
  if fc = "" then throw .empty
  let raw ← (decode fc).mapError .base64
  let doc ← (fromSlice raw).mapError .json
  let difficulty ← override overrides.difficulty (readDifficulty doc)
  let subCount ← override overrides.subCount (readSubCount doc)
  let seedSuffix ← override overrides.seedSuffix fun path => readString doc path PARAMS[2]!
  let seedPhrase ← override overrides.seedPhrase fun path => readString doc path PARAMS[3]!
  return ⟨difficulty, subCount, seedSuffix, seedPhrase⟩

/-! ## What the readers let through -/

theorem readDifficulty_ok {doc : Value} {path : FcPath} {v : Double}
    (h : readDifficulty doc path = .ok v) : v.isFinite = true ∧ v.gt .zero = true := by
  obtain ⟨value, -, h⟩ := Lib.bind_ok h
  split at h
  · split at h
    · next hv =>
        rw [← Except.ok.inj h]
        exact Bool.and_eq_true_iff.1 hv
    · cases h
  · cases h

/-- The number in the document is the count. -/
def Number.Is (n : Number) (v : ℕ) : Prop :=
  (∃ k, n = .posInt k ∧ k.toNat = v) ∨ n = .float (.ofNat v)

theorem subCount_float {n : Number} {v : ℕ} (hn : n.asU64 = none)
    (h : subCountOf (.number n) = some v) :
    1 ≤ v ∧ v < 2 ^ 32 ∧ n.asF64 = .ofNat v := by
  rw [subCountOf, hn] at h
  dsimp only at h
  split at h
  · next hx =>
      simp only [Bool.and_eq_true] at hx
      obtain ⟨k, hpos, hle, hk⟩ := Double.exists_ofNat hx.1.1 hx.1.2 hx.2 (by omega)
      have hv : n.asF64.toU 64 = k := by
        rw [hk, Double.toU_ofNat (by omega) (by omega)]
      rw [← Option.some_inj.1 h, hv]
      exact ⟨hpos, by omega, hk⟩
  · cases h

theorem subCountOf_ok {value : Value} {v : ℕ} (h : subCountOf value = some v) (hlt : v < 2 ^ 32) :
    ∃ n, value = .number n ∧ n.Is v := by
  cases value with
  | number n =>
      refine ⟨n, rfl, ?_⟩
      cases n with
      | posInt k => exact .inl ⟨k, rfl, Option.some_inj.1 h⟩
      | negInt i =>
          obtain ⟨hpos, hlt, hv⟩ := subCount_float rfl h
          have hle := i.le_toInt
          have hlt' := i.toInt_lt
          have habs : i.toInt.natAbs < 2 ^ 1000 :=
            Nat.lt_of_lt_of_le (by omega : i.toInt.natAbs < 2 ^ 64)
              (Nat.pow_le_pow_right Nat.two_pos (by omega))
          obtain ⟨k, hk⟩ := Double.ofNat_fin habs
          rw [Number.asF64, hk, Double.ofNat_exact (by omega)] at hv
          cases hv
      | float x => exact .inr (congrArg Number.float (subCount_float rfl h).2.2)
  | null | bool | string | array | object => cases h

theorem readSubCount_ok {doc : Value} {path : FcPath} {v : UInt32}
    (h : readSubCount doc path = .ok v) :
    1 ≤ v.toNat ∧ ∃ n, walk doc path PARAMS[1]! = .ok (.number n) ∧ n.Is v.toNat := by
  obtain ⟨value, hwalk, h⟩ := Lib.bind_ok h
  split at h
  · next k hk =>
      obtain ⟨hcount, hlt⟩ := Option.filter_eq_some_iff.1 hk
      have hlt' : k < 2 ^ 32 := of_decide_eq_true hlt
      split at h
      · next hpos =>
          have hv : v.toNat = k := by
            rw [← Except.ok.inj h]
            exact UInt32.toNat_ofNat_of_lt' hlt'
          obtain ⟨n, rfl, hn⟩ := subCountOf_ok hcount hlt'
          rw [hv]
          exact ⟨hpos, n, hwalk, hn⟩
      · cases h
  · cases h

theorem mapError_ok {ε ε' α : Type} {x : Except ε α} {f : ε → ε'} {a : α}
    (h : x.mapError f = .ok a) : x = .ok a := by
  cases x with
  | error e => cases h
  | ok b => exact congrArg Except.ok (Except.ok.inj h)

theorem override_some {α : Type} {path : Option FcPath} {read : FcPath → Except FcApplyError α}
    {v : α} (h : override path read = .ok (some v)) : ∃ p, path = some p ∧ read p = .ok v := by
  cases path with
  | none => cases h
  | some p =>
      refine ⟨p, rfl, ?_⟩
      rw [override] at h
      rcases hread : read p with e | u
      · rw [hread] at h
        cases h
      · rw [hread] at h
        rw [Option.some_inj.1 (Except.ok.inj h)]

/-- A count is the number that the document of a response has at the path of its override. -/
def CountOf {Bytes : Type} (decode : String → Except String Bytes)
    (fromSlice : Bytes → Except String Value) (fc : String) (overrides : FcOverrides) (v : ℕ) :
    Prop :=
  ∃ raw doc path n, decode (Lib.Text.trim fc) = .ok raw ∧ fromSlice raw = .ok doc ∧
    overrides.subCount = some path ∧ walk doc path PARAMS[1]! = .ok (.number n) ∧ n.Is v

/-- **What `apply` reads**: a difficulty it returns is finite and positive, and a count is a
number of the document, at least one. -/
theorem apply_ok {Bytes : Type} {decode : String → Except String Bytes}
    {fromSlice : Bytes → Except String Value} {fc : String} {overrides : FcOverrides}
    {values : FcValues} (h : apply decode fromSlice fc overrides = .ok values) :
    (∀ v, values.difficulty = some v → v.isFinite = true ∧ v.gt .zero = true) ∧
      ∀ v, values.subCount = some v →
        1 ≤ v.toNat ∧ CountOf decode fromSlice fc overrides v.toNat := by
  rw [apply] at h
  dsimp only at h
  split at h
  · cases h
  · obtain ⟨raw, hraw, h⟩ := Lib.bind_ok h
    obtain ⟨doc, hdoc, h⟩ := Lib.bind_ok h
    obtain ⟨difficulty, hdifficulty, h⟩ := Lib.bind_ok h
    obtain ⟨subCount, hsubCount, h⟩ := Lib.bind_ok h
    obtain ⟨suffix, -, h⟩ := Lib.bind_ok h
    obtain ⟨phrase, -, h⟩ := Lib.bind_ok h
    rw [← Except.ok.inj h]
    refine ⟨fun v hv => ?_, fun v hv => ?_⟩
    · have hv' : difficulty = some v := hv
      rw [hv'] at hdifficulty
      obtain ⟨path, -, hread⟩ := override_some hdifficulty
      exact readDifficulty_ok hread
    · have hv' : subCount = some v := hv
      rw [hv'] at hsubCount
      obtain ⟨path, hpath, hread⟩ := override_some hsubCount
      obtain ⟨hpos, n, hwalk, hn⟩ := readSubCount_ok hread
      exact ⟨hpos, raw, doc, path, n, mapError_ok hraw, mapError_ok hdoc, hpath, hwalk, hn⟩

end Fc
end Lunar
