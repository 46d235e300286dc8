/-
# The key of a blob

`payload/blob.rs`: `Keyed::new`, `checksum`, `unkey`, `run` and all of `decode`.  The key is
the time, in buckets; its digits make a ring, and each word of the program is hidden under
the element of the ring at its place.  `run` tries the buckets around the clock until the
checksum of the first words is the target.

The checksum is taken over exact integers, and the words that are returned are 32 bits wide.
So a match means the checksummed program up to `2 ^ 32` (`run_ok`): a word is exact as long
as its ring element does not take it below the least `i32`, and else it wraps
(`run_wraps`).
-/

import Lunar.Payload.Blob

namespace Lunar
namespace Blob

open Lib (Double)
open Fold (toInt32 ofI32 numberToString)

def BACK_SCAN : ℕ := 4000

def FORWARD_SCAN : ℕ := 8

/-- `Subtract`: how the places of the ring follow from the digits of the key. -/
inductive Subtract
  | cyclic (start : ℕ)
  | cyclicSum
  | prefix_ (start : ℕ)
  deriving DecidableEq, Repr

structure BlobParams where
  divisor : Double
  mult : Double
  target : BitVec 32
  offset : Double
  prime : Double
  checkLen : ℕ
  sep : List ℕ
  sub : Subtract

/-! ## The ring of a key -/

/-- `Keyed`: the elements of the ring are sums of digits, and the place is one of the ring. -/
structure Keyed where
  ring : List ℤ
  at_ : Fin ring.length
  nonneg : ∀ d ∈ ring, 0 ≤ d

/-- The digits of a text, if it has nothing else. -/
def digits : List Char → Option (List ℕ)
  | [] => some []
  | b :: text => if Double.isDigit b then (digits text).map ((b.toNat - 48) :: ·) else none

/-- The sums of the digits before each. -/
def prefixSums : ℕ → List ℕ → List ℕ
  | _, [] => []
  | acc, d :: ds => acc :: prefixSums (acc + d) ds

/-- A ring of sums, from a place on. -/
def Keyed.ofRing (ring : List ℕ) (start : ℕ) : Option Keyed :=
  if h : 0 < (ring.map Int.ofNat).length then
    some {
      ring := ring.map Int.ofNat
      at_ := ⟨start % (ring.map Int.ofNat).length, Nat.mod_lt _ h⟩
      nonneg := fun d hd => by
        obtain ⟨n, -, rfl⟩ := List.mem_map.1 hd
        exact Int.natCast_nonneg n }
  else none

/-- `Keyed::new`. -/
def Keyed.new (seed : Double) (sub : Subtract) : Option Keyed := do
  let ds ← digits (numberToString seed).toList
  match sub with
  | .cyclic start => ofRing ds start
  | .cyclicSum => ofRing ds ds.sum
  | .prefix_ start => ofRing (prefixSums 0 ds) start

namespace Keyed

variable (k : Keyed)

theorem pos : 0 < k.ring.length := Nat.lt_of_le_of_lt (Nat.zero_le _) k.at_.isLt

/-- The element of the ring under the `i`-th word. -/
def element (i : ℕ) : ℤ := k.ring.get ⟨(k.at_ + i) % k.ring.length, Nat.mod_lt _ k.pos⟩

/-- The place after a place. -/
def next (at_ : Fin k.ring.length) : Fin k.ring.length :=
  if h : at_ + 1 < k.ring.length then ⟨at_ + 1, h⟩ else ⟨0, k.pos⟩

/-- The first words, exactly. -/
def head : Fin k.ring.length → List (BitVec 32) → List ℤ
  | _, [] => []
  | at_, v :: raw => (v.toInt - k.ring.get at_) :: head (k.next at_) raw

end Keyed

/-! ## The checksum -/

/-- The words as texts with the separator between them. -/
def scratch (p : BlobParams) : List ℤ → List ℕ
  | [] => []
  | [v] => (toString v).toList.map Char.toNat
  | v :: values => (toString v).toList.map Char.toNat ++ p.sep ++ scratch p values

def checksum (p : BlobParams) (values : List ℤ) : BitVec 32 :=
  toInt32 ((scratch p values).foldl
    (fun acc b => (ofI32 (toInt32 acc ^^^ .ofNat 32 b)).mul p.prime) p.offset)

/-! ## The words -/

/-- `wrapping_sub` word by word, as far as both go. -/
def subtract : List (BitVec 32) → List (BitVec 32) → List (BitVec 32)
  | v :: vs, d :: ds => (v - d) :: subtract vs ds
  | vs, _ => vs

/-- The chunks of the length of the ring.  Each turn takes a word at least, so as many turns
as there are words are enough. -/
def unkeyChunks (r : List (BitVec 32)) : ℕ → List (BitVec 32) → List (BitVec 32)
  | 0, rest => rest
  | fuel + 1, rest =>
    if rest = [] then []
    else subtract (rest.take r.length) r ++ unkeyChunks r fuel (rest.drop r.length)

def unkey (raw : List (BitVec 32)) (k : Keyed) : List (BitVec 32) :=
  let r := k.ring.map (BitVec.ofInt 32)
  let n := min (r.length - k.at_) raw.length
  subtract (raw.take n) (r.drop k.at_) ++ unkeyChunks r raw.length (raw.drop n)

/-! ## The search -/

/-- A sum of `i64`, which wraps. -/
def wrap64 (i : ℤ) : ℤ := (BitVec.ofInt 64 i).toInt

/-- An `i64` as a double. -/
def ofI64 (i : ℤ) : Double := if i < 0 then (Double.ofNat i.natAbs).neg else .ofNat i.natAbs

/-- The bucket of the clock. -/
def center (p : BlobParams) (now : Double) : ℤ :=
  ((now.div p.divisor).add (.ofDecimal false 5 (-1))).floor.toI 64

/-- The buckets in the order in which they are tried. -/
def order (center : ℤ) : List ℤ :=
  center :: [wrap64 (center - 1), wrap64 (center + 1)]
    ++ (List.range' 2 (BACK_SCAN - 1)).map (fun d => wrap64 (center - d))
    ++ (List.range' 2 (FORWARD_SCAN - 1)).map (fun d => wrap64 (center + d))

def seed (p : BlobParams) (bucket : ℤ) : Double := (ofI64 bucket).mul p.mult

/-- One turn of the search. -/
def attempt (raw : List (BitVec 32)) (p : BlobParams) (bucket : ℤ) : Option (List (BitVec 32)) :=
  if (seed p bucket).le .zero then none
  else do
    let k ← Keyed.new (seed p bucket) p.sub
    if checksum p (k.head k.at_ (raw.take p.checkLen)) = p.target then some (unkey raw k)
    else none

def run (raw : List (BitVec 32)) (p : BlobParams) (now : Double) :
    Except BlobError (List (BitVec 32)) :=
  if raw.length < p.checkLen then .error (.noBucket (center p now))
  else
    match (order (center p now)).findSome? (attempt raw p) with
    | some code => .ok code
    | none => .error (.noBucket (center p now))

def decode (blob alphabet : String) (radix : Double) (p : BlobParams) (now : Double) :
    Except BlobError (Option (List (BitVec 32))) := do
  match ← raw blob alphabet radix with
  | some words => return some (← run words p now)
  | none => return none

/-! ## Every word under its element -/

theorem Keyed.val_next (k : Keyed) (at_ : Fin k.ring.length) :
    (k.next at_ : ℕ) = (at_ + 1) % k.ring.length := by
  rw [Keyed.next]
  by_cases h : at_ + 1 < k.ring.length
  · rw [dif_pos h, Nat.mod_eq_of_lt h]
  · have hlen : (at_ : ℕ) + 1 = k.ring.length := by omega
    rw [dif_neg h, hlen, Nat.mod_self]

/-- The place that goes around is the sum modulo the length. -/
theorem Keyed.head_getElem? (k : Keyed) (raw : List (BitVec 32)) (at_ : Fin k.ring.length)
    (i : ℕ) : (k.head at_ raw)[i]? = raw[i]?.map fun v =>
      v.toInt - k.ring.get ⟨(at_ + i) % k.ring.length, Nat.mod_lt _ k.pos⟩ := by
  induction raw generalizing at_ i with
  | nil => rfl
  | cons v raw ih =>
      rw [Keyed.head]
      cases i with
      | zero =>
          simp only [List.getElem?_cons_zero, Option.map_some, Nat.add_zero,
            Nat.mod_eq_of_lt at_.isLt]
      | succ i =>
          have hplace : (k.next at_ + i) % k.ring.length = (at_ + (i + 1)) % k.ring.length := by
            rw [k.val_next, Nat.mod_add_mod, Nat.add_assoc, Nat.add_comm 1]
          simp only [List.getElem?_cons_succ, ih, hplace]

theorem length_subtract (vs ds : List (BitVec 32)) : (subtract vs ds).length = vs.length := by
  induction vs, ds using subtract.induct with
  | case1 v vs d ds ih => rw [subtract, List.length_cons, ih, List.length_cons]
  | case2 vs ds h => rw [subtract]; exact h

theorem subtract_getElem? {vs ds : List (BitVec 32)} (h : vs.length ≤ ds.length) (i : ℕ) :
    (subtract vs ds)[i]? = vs[i]?.map fun v => v - ds.getD i 0 := by
  induction vs generalizing ds i with
  | nil => cases ds <;> rfl
  | cons v vs ih =>
      rcases ds with _ | ⟨d, ds⟩
      · exact absurd h (by simp)
      · rw [subtract]
        cases i with
        | zero => rfl
        | succ i =>
            rw [List.getElem?_cons_succ, List.getElem?_cons_succ, List.getD_cons_succ]
            exact ih (Nat.le_of_succ_le_succ h) i

theorem unkeyChunks_getElem? {r : List (BitVec 32)} (hr : 0 < r.length) {fuel : ℕ}
    {rest : List (BitVec 32)} (hfuel : rest.length ≤ fuel) (i : ℕ) :
    (unkeyChunks r fuel rest)[i]? = rest[i]?.map fun v => v - r.getD (i % r.length) 0 := by
  induction fuel generalizing rest i with
  | zero =>
      rw [List.length_eq_zero_iff.1 (Nat.le_zero.1 hfuel)]
      rfl
  | succ fuel ih =>
      rw [unkeyChunks]
      by_cases hrest : rest = []
      · rw [if_pos hrest, hrest]
        rfl
      have hpos : 0 < rest.length := List.length_pos_iff.2 hrest
      have hlen : (subtract (rest.take r.length) r).length = min r.length rest.length := by
        rw [length_subtract, List.length_take]
      rw [if_neg hrest]
      by_cases hi : i < min r.length rest.length
      · have hmod : i % r.length = i := Nat.mod_eq_of_lt (by omega)
        rw [List.getElem?_append_left (hlen ▸ hi),
          subtract_getElem? (List.length_take_le _ _), List.getElem?_take_of_lt (by omega), hmod]
      · rw [List.getElem?_append_right (by omega), hlen, ih]
        · rw [List.getElem?_drop]
          by_cases hlt : i < rest.length
          · have hmin : min r.length rest.length = r.length := by omega
            have hmod : (i - r.length) % r.length = i % r.length := by
              conv_rhs => rw [← Nat.sub_add_cancel (show r.length ≤ i by omega)]
              rw [Nat.add_mod_right]
            rw [hmin, hmod, Nat.add_sub_cancel' (by omega)]
          · rw [List.getElem?_eq_none (by omega), List.getElem?_eq_none (by omega)]
            rfl
        · rw [List.length_drop]
          omega

theorem unkey_getElem? (raw : List (BitVec 32)) (k : Keyed) (i : ℕ) :
    (unkey raw k)[i]? = raw[i]?.map fun v => v - BitVec.ofInt 32 (k.element i) := by
  have hat := k.at_.isLt
  have hring (j : ℕ) (hj : j < k.ring.length) :
      (k.ring.map (BitVec.ofInt 32)).getD j 0 = BitVec.ofInt 32 (k.ring.get ⟨j, hj⟩) := by
    rw [List.getD_eq_getElem _ _ (by rwa [List.length_map]), List.getElem_map]
    rfl
  rw [unkey, List.length_map]
  generalize hn : min (k.ring.length - k.at_) raw.length = n
  have hlen : (subtract (raw.take n) ((k.ring.map (BitVec.ofInt 32)).drop k.at_)).length = n := by
    rw [length_subtract, List.length_take]
    omega
  by_cases hi : i < n
  · have hle : (raw.take n).length ≤ ((k.ring.map (BitVec.ofInt 32)).drop k.at_).length := by
      rw [List.length_take, List.length_drop, List.length_map]
      omega
    have hmod : (k.at_ + i) % k.ring.length = k.at_ + i := Nat.mod_eq_of_lt (by omega)
    have hdrop : ((k.ring.map (BitVec.ofInt 32)).drop k.at_).getD i 0
        = BitVec.ofInt 32 (k.element i) := by
      rw [List.getD_eq_getElem?_getD, List.getElem?_drop, ← List.getD_eq_getElem?_getD,
        hring _ (by omega), Keyed.element]
      simp only [hmod]
    rw [List.getElem?_append_left (by rwa [hlen]), subtract_getElem? hle, hdrop,
      List.getElem?_take_of_lt hi]
  · have hpos : 0 < (k.ring.map (BitVec.ofInt 32)).length := by
      rw [List.length_map]
      exact k.pos
    rw [List.getElem?_append_right (by omega), hlen, unkeyChunks_getElem? hpos, List.getElem?_drop]
    · by_cases hlt : i < raw.length
      · have hmod : (i - n) % k.ring.length = (k.at_ + i) % k.ring.length := by
          have hsum : (k.at_ : ℕ) + i = i - n + k.ring.length := by omega
          rw [hsum, Nat.add_mod_right]
        rw [Nat.add_sub_cancel' (by omega), List.length_map, hring _ (Nat.mod_lt _ k.pos),
          Keyed.element]
        simp only [hmod]
      · rw [List.getElem?_eq_none (by omega), List.getElem?_eq_none (by omega)]
        rfl
    · rw [List.length_drop]
      omega

/-! ## What a match means -/

/-- The `i`-th word of the program, exactly. -/
def Keyed.word (k : Keyed) (raw : List (BitVec 32)) (i : ℕ) : ℤ :=
  (raw.getD i 0).toInt - k.element i

theorem Keyed.element_nonneg (k : Keyed) (i : ℕ) : 0 ≤ k.element i :=
  k.nonneg _ (List.get_mem _ _)

/-- The first words are the exact ones. -/
theorem Keyed.head_eq (k : Keyed) {raw : List (BitVec 32)} {n : ℕ} (hn : n ≤ raw.length) :
    k.head k.at_ (raw.take n) = (List.range n).map (k.word raw) := by
  refine List.ext_getElem? fun i => ?_
  rw [k.head_getElem?, List.getElem?_map]
  by_cases hi : i < n
  · rw [List.getElem?_take_of_lt hi, List.getElem?_range hi,
      List.getElem?_eq_getElem (Nat.lt_of_lt_of_le hi hn), Option.map_some, Option.map_some,
      Keyed.word, List.getD_eq_getElem _ _ (Nat.lt_of_lt_of_le hi hn)]
    rfl
  · have hlen : (raw.take n).length ≤ i := by
      rw [List.length_take]
      omega
    rw [List.getElem?_eq_none hlen, List.getElem?_eq_none (by rw [List.length_range]; omega)]
    rfl

/-- An exact word is at most the greatest `i32`. -/
theorem Keyed.word_lt (k : Keyed) (raw : List (BitVec 32)) (i : ℕ) : k.word raw i < 2 ^ 31 := by
  have hlt := (raw.getD i 0).toInt_lt
  have hnonneg := k.element_nonneg i
  rw [Keyed.word]
  omega

/-- `code` is the program of `raw` under a key of the search: its checksum is that of the
exact words, and its words are the exact ones modulo `2 ^ 32`. -/
structure Decodes (raw : List (BitVec 32)) (p : BlobParams) (now : Double) (k : Keyed)
    (code : List (BitVec 32)) : Prop where
  key : ∃ bucket ∈ order (center p now),
    (seed p bucket).le .zero = false ∧ Keyed.new (seed p bucket) p.sub = some k
  sum : checksum p ((List.range p.checkLen).map (k.word raw)) = p.target
  checkLen : p.checkLen ≤ raw.length
  length : code.length = raw.length
  words : ∀ i < code.length, code.getD i 0 = BitVec.ofInt 32 (k.word raw i)

namespace Decodes

variable {raw code : List (BitVec 32)} {p : BlobParams} {now : Double} {k : Keyed}

/-- A word is exact just where it is an `i32`. -/
theorem exact_iff (h : Decodes raw p now k code) {i : ℕ} (hi : i < code.length) :
    (code.getD i 0).toInt = k.word raw i ↔ -2 ^ 31 ≤ k.word raw i := by
  rw [h.words i hi]
  constructor
  · intro heq
    rw [← heq]
    exact BitVec.le_toInt _
  · intro hle
    have hlt := k.word_lt raw i
    rw [BitVec.toInt_ofInt]
    exact Int.bmod_eq_of_le (by omega) (by omega)

/-- Where the first words are exact, the checksum is that of the program. -/
theorem checksum_code (h : Decodes raw p now k code)
    (hexact : ∀ i < p.checkLen, -2 ^ 31 ≤ k.word raw i) :
    checksum p ((code.take p.checkLen).map BitVec.toInt) = p.target := by
  have hlen := h.length
  have hcheck := h.checkLen
  rw [← h.sum]
  congr 1
  refine List.ext_getElem? fun i => ?_
  rw [List.getElem?_map, List.getElem?_map]
  by_cases hi : i < p.checkLen
  · have hcode : i < code.length := by omega
    have hword := (h.exact_iff hcode).2 (hexact i hi)
    rw [List.getElem?_take_of_lt hi, List.getElem?_range hi, List.getElem?_eq_getElem hcode,
      Option.map_some, Option.map_some, ← hword, List.getD_eq_getElem _ _ hcode]
  · have htake : (code.take p.checkLen).length ≤ i := by
      rw [List.length_take]
      omega
    rw [List.getElem?_eq_none htake, List.getElem?_eq_none (by rw [List.length_range]; omega)]
    rfl

end Decodes

theorem attempt_some {raw code : List (BitVec 32)} {p : BlobParams} {bucket : ℤ}
    (h : attempt raw p bucket = some code) :
    (seed p bucket).le .zero = false ∧ ∃ k, Keyed.new (seed p bucket) p.sub = some k
      ∧ checksum p (k.head k.at_ (raw.take p.checkLen)) = p.target ∧ code = unkey raw k := by
  rw [attempt] at h
  by_cases hle : (seed p bucket).le .zero = true
  · rw [if_pos hle] at h
    cases h
  rw [if_neg hle, Option.bind_eq_bind, Option.bind_eq_some_iff] at h
  obtain ⟨k, hk, h⟩ := h
  by_cases hsum : checksum p (k.head k.at_ (raw.take p.checkLen)) = p.target
  · rw [if_pos hsum, Option.some.injEq] at h
    exact ⟨Bool.eq_false_iff.2 hle, k, hk, hsum, h.symm⟩
  · rw [if_neg hsum] at h
    cases h

theorem sub_ofInt (v : BitVec 32) (d : ℤ) : v - .ofInt 32 d = .ofInt 32 (v.toInt - d) := by
  refine BitVec.eq_of_toInt_eq ?_
  rw [BitVec.toInt_sub, BitVec.toInt_ofInt, BitVec.toInt_ofInt, Int.sub_bmod_bmod]

/-- **A blob that `run` accepts is the checksummed program, modulo `2 ^ 32`.**  There is a
key of the search whose ring gives the target as the checksum of the exact first words; the
words returned are the exact ones modulo `2 ^ 32`, each of them exact just where it is an
`i32`; and where the first ones are, the checksum is that of the words returned. -/
theorem run_ok {raw code : List (BitVec 32)} {p : BlobParams} {now : Double}
    (h : run raw p now = .ok code) :
    ∃ k, Decodes raw p now k code
      ∧ (∀ i < code.length, (code.getD i 0).toInt = k.word raw i ↔ -2 ^ 31 ≤ k.word raw i)
      ∧ ((∀ i < p.checkLen, -2 ^ 31 ≤ k.word raw i) →
          checksum p ((code.take p.checkLen).map BitVec.toInt) = p.target) := by
  rw [run] at h
  by_cases hlen : raw.length < p.checkLen
  · rw [if_pos hlen] at h
    cases h
  rw [if_neg hlen] at h
  cases hfind : (order (center p now)).findSome? (attempt raw p) with
  | none =>
      rw [hfind] at h
      cases h
  | some found =>
      rw [hfind, Except.ok.injEq] at h
      subst h
      obtain ⟨bucket, hmem, hattempt⟩ := List.exists_of_findSome?_eq_some hfind
      obtain ⟨hpos, k, hk, hsum, rfl⟩ := attempt_some hattempt
      have hcheck : p.checkLen ≤ raw.length := Nat.le_of_not_lt hlen
      have hunkey : (unkey raw k).length = raw.length := by
        refine Nat.le_antisymm (Nat.le_of_not_lt fun hlt => ?_) (Nat.le_of_not_lt fun hlt => ?_)
        · have hget := unkey_getElem? raw k raw.length
          rw [List.getElem?_eq_getElem hlt, List.getElem?_eq_none (Nat.le_refl _)] at hget
          cases hget
        · have hget := unkey_getElem? raw k (unkey raw k).length
          rw [List.getElem?_eq_none (Nat.le_refl _), List.getElem?_eq_getElem hlt] at hget
          cases hget
      have hdecodes : Decodes raw p now k (unkey raw k) := by
        refine ⟨⟨bucket, hmem, hpos, hk⟩, ?_, hcheck, hunkey, fun i hi => ?_⟩
        · rw [← k.head_eq hcheck, hsum]
        · have hraw : i < raw.length := hunkey ▸ hi
          rw [List.getD_eq_getElem?_getD, unkey_getElem?, List.getElem?_eq_getElem hraw,
            Option.map_some, Option.getD_some, Keyed.word, List.getD_eq_getElem _ _ hraw, sub_ofInt]
      exact ⟨k, hdecodes, fun i hi => hdecodes.exact_iff hi, hdecodes.checksum_code⟩

/-! ## The end of the range -/

/-- A key of one digit, `1`. -/
def oneKey : BlobParams where
  divisor := .one
  mult := .one
  target := 4257507016
  offset := .ofNat 2166136261
  prime := .ofNat 16777619
  checkLen := 2
  sep := [44]
  sub := .cyclic 0

theorem run_oneKey :
    run [.ofInt 32 (-2 ^ 31), 7] oneKey .one = .ok [.ofInt 32 (2 ^ 31 - 1), 6] := by
  decide +kernel

/-- The hypothesis of `run_ok` is satisfiable. -/
theorem run_ok_oneKey : ∃ k, Decodes [.ofInt 32 (-2 ^ 31), 7] oneKey .one k
    [.ofInt 32 (2 ^ 31 - 1), 6] := by
  obtain ⟨k, hk, -⟩ := run_ok run_oneKey
  exact ⟨k, hk⟩

/-- The least `i32` wraps: `run` accepts words whose checksum is not the target, and the first
is not the one of `raw` less any element. -/
theorem run_wraps :
    ∃ code, run [.ofInt 32 (-2 ^ 31), 7] oneKey .one = .ok code
      ∧ checksum oneKey ((code.take oneKey.checkLen).map BitVec.toInt) ≠ oneKey.target
      ∧ ∀ d : ℤ, 0 ≤ d → (code.getD 0 0).toInt ≠ -2 ^ 31 - d := by
  refine ⟨_, run_oneKey, by decide +kernel, fun d hd heq => ?_⟩
  have hword : (([.ofInt 32 (2 ^ 31 - 1), 6] : List (BitVec 32)).getD 0 0).toInt = 2 ^ 31 - 1 := by
    decide
  rw [hword] at heq
  omega

end Blob
end Lunar
