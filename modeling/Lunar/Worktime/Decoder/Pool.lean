/-
# The string pool in the code

`worktime/decoder.rs`: `lift_pool`.  The last word of the code, against a salt of its
length, says where a chunk lies; the chunk holds a tag, the length of the pool and the
units of the pool, and a word of the code behind its start says how long it is.  The chunk
is taken out of the code.

An index or a slice out of range and a sum beyond its type are a panic (`none`), which
no header brings about (`liftPool_spec`).
-/

import Lunar.Worktime.Decoder

namespace Lunar
namespace Worktime
namespace Decoder

open Lib (Double)

def TRUE_LEN : ℕ := 4

def HIGH_MASK : BitVec 32 := 4294967232

def LOW_MASK : BitVec 32 := 63

def HEADER_WORDS : ℤ := 2

/-- What `lift_pool` reads of the model of a build. -/
structure PoolModel where
  multiplier : BitVec 32
  stringTag : BitVec 32
  entryPc : UInt32

/-- The errors of `lift_pool`. -/
inductive LiftError
  | poolOffset (offset key salt : BitVec 32) (len : ℕ)
  | countIndex (index offset : ℕ) (entryPc : UInt32) (len : ℕ)
  | poolCount (count : ℤ) (offset max len : ℕ)
  | poolTag (got want : BitVec 32) (offset : ℕ)
  | poolLen (poolLen : BitVec 32) (offset : ℕ) (count : ℤ)
  deriving DecidableEq, Repr

/-! ## Arithmetic and slices that may panic -/

/-- A sum of `u64` or `usize`. -/
def addU64 (a b : ℕ) : Option ℕ := if a + b < 2 ^ 64 then some (a + b) else none

/-- A difference of `usize`. -/
def subU64 (a b : ℕ) : Option ℕ := if b ≤ a then some (a - b) else none

/-- A sum of `i64`. -/
def addI64 (a b : ℤ) : Option ℤ :=
  if -2 ^ 63 ≤ a + b ∧ a + b < 2 ^ 63 then some (a + b) else none

variable {α : Type*}

/-- `&t[a..b]`. -/
def range (t : List α) (a b : ℕ) : Option (List α) :=
  if a ≤ b ∧ b ≤ t.length then some ((t.take b).drop a) else none

/-- What `t.drain(a..b)` leaves. -/
def drain (t : List α) (a b : ℕ) : Option (List α) :=
  if a ≤ b ∧ b ≤ t.length then some (t.take a ++ t.drop b) else none

theorem addU64_eq {a b : ℕ} (h : a + b < 2 ^ 64) : addU64 a b = some (a + b) := if_pos h

theorem subU64_eq {a b : ℕ} (h : b ≤ a) : subU64 a b = some (a - b) := if_pos h

theorem addI64_eq {a b : ℤ} (h : -2 ^ 63 ≤ a + b) (h' : a + b < 2 ^ 63) :
    addI64 a b = some (a + b) := if_pos ⟨h, h'⟩

theorem range_eq {t : List α} {a b : ℕ} (h : a ≤ b) (h' : b ≤ t.length) :
    range t a b = some ((t.take b).drop a) := if_pos ⟨h, h'⟩

theorem drain_eq {t : List α} {a b : ℕ} (h : a ≤ b) (h' : b ≤ t.length) :
    drain t a b = some (t.take a ++ t.drop b) := if_pos ⟨h, h'⟩

/-! ## Lifting -/

/-- The double of an `i32`. -/
def ofWord (w : BitVec 32) : Double := .ofInt w.toInt

/-- A unit of the pool from its word. -/
def poolUnit (mult : Double) (l : BitVec 32) : UInt16 :=
  .ofNat ((l &&& HIGH_MASK) ||| (toInt32 ((ofWord l).mul mult) &&& LOW_MASK)).toNat

/-- The pool from a chunk of `count` words at `m` whose length is declared as `poolLen`, and
the code without the chunk. -/
def takePool (model : PoolModel) (t : List (BitVec 32)) (m : ℕ) (count : ℤ) (poolLen : BitVec 32) :
    Option (List UInt16 × List (BitVec 32)) := do
  let start ← addU64 m HEADER_WORDS.toNat
  let stop ← addU64 start poolLen.toNat
  let mult := ofWord model.multiplier
  let words ← range t start stop
  let code ← drain t m (← addU64 m count.toNat)
  return (words.map (poolUnit mult), code)

/-- The chunk of `count` words at `m`. -/
def liftChunk (model : PoolModel) (t : List (BitVec 32)) (m : ℕ) (count : ℤ) :
    Option (Except LiftError (List UInt16 × List (BitVec 32))) := do
  let tag ← t[m]?
  if tag ≠ model.stringTag then return .error (.poolTag tag model.stringTag m)
  let poolLen ← t[← addU64 m 1]?
  if poolLen.toInt < 0 then return .error (.poolLen poolLen m count)
  if count < (← addI64 HEADER_WORDS poolLen.toInt) then return .error (.poolLen poolLen m count)
  return .ok (← takePool model t m count poolLen)

/-- `lift_pool`: the pool, and the code that is left. -/
def liftPool (model : PoolModel) (t : List (BitVec 32)) :
    Option (Except LiftError (List UInt16 × List (BitVec 32))) := do
  let len := t.length
  let key ← t[← subU64 len 1]?
  let salt := BitVec.ofNat 32 (← addU64 len TRUE_LEN)
  let offset := key ^^^ salt
  if offset.toInt < 1 ∨ len ≤ offset.toNat then return .error (.poolOffset offset key salt len)
  let m := offset.toNat
  let index ← addU64 m model.entryPc.toNat
  if len ≤ index then return .error (.countIndex index m model.entryPc len)
  let count ← addI64 (← t[index]?).toInt HEADER_WORDS
  let max ← subU64 len m
  if count < HEADER_WORDS ∨ max < count.toNat then return .error (.poolCount count m max len)
  liftChunk model t m count

/-! ## What is lifted -/

variable (model : PoolModel) {t : List (BitVec 32)}

/-- `t` is `pre`, a chunk and `post`; the chunk is a string of the units of `pool`, and more
words perhaps, and `code` is what is left without it. -/
structure Lifted (model : PoolModel) (t : List (BitVec 32)) (pool : List UInt16)
    (code pre chunk post : List (BitVec 32)) : Prop where
  whole : t = pre ++ chunk ++ post
  left : code = pre ++ post
  tag : chunk[0]? = some model.stringTag
  declared : ∃ poolLen, chunk[1]? = some poolLen ∧ (pool.length : ℤ) = poolLen.toInt
  units : pool = ((chunk.drop 2).take pool.length).map (poolUnit (ofWord model.multiplier))

/-- The words from `m` on, as many as `count`, stand between two parts of the code. -/
theorem parts {m count : ℕ} (h : m + count ≤ t.length) :
    t = t.take m ++ (t.drop m).take count ++ t.drop (m + count)
      ∧ ((t.drop m).take count).length = count ∧ (t.take m).length = m := by
  refine ⟨?_, by simp; omega, by simp; omega⟩
  rw [List.append_assoc, ← List.drop_drop, List.take_append_drop, List.take_append_drop]

theorem chunk_getElem? {m count k : ℕ} (hk : k < count) :
    ((t.drop m).take count)[k]? = t[m + k]? := by
  rw [List.getElem?_take_of_lt hk, List.getElem?_drop]

/-- The units of a chunk are words of the code behind its header. -/
theorem chunk_units {m count n : ℕ} (h : 2 + n ≤ count) :
    (t.take (m + 2 + n)).drop (m + 2) = (((t.drop m).take count).drop 2).take n := by
  rw [List.drop_take, List.drop_take, List.take_take, List.drop_drop]
  congr 1
  omega

theorem toInt_of_nonneg {w : BitVec 32} (h : 0 ≤ w.toInt) : w.toInt = w.toNat := by
  rw [BitVec.toInt_eq_toNat_cond] at h ⊢
  split <;> omega

theorem takePool_spec {m : ℕ} {count : ℤ} {poolLen : BitVec 32} (hcap : t.length < 2 ^ 61)
    (htag : t[m]? = some model.stringTag) (hlen : t[m + 1]? = some poolLen)
    (hpos : 0 ≤ poolLen.toInt) (hfit : HEADER_WORDS + poolLen.toInt ≤ count)
    (hcount : m + count.toNat ≤ t.length) :
    ∃ pool code, takePool model t m count poolLen = some (pool, code) ∧
      Lifted model t pool code (t.take m) ((t.drop m).take count.toNat)
        (t.drop (m + count.toNat)) := by
  have hnat := toInt_of_nonneg hpos
  have hword : HEADER_WORDS.toNat = 2 := rfl
  rw [HEADER_WORDS] at hfit
  have hstop : 2 + poolLen.toNat ≤ count.toNat := by omega
  obtain ⟨hwhole, hchunk, -⟩ := parts hcount
  have hdrawn : ((((t.drop m).take count.toNat).drop 2).take poolLen.toNat).length
      = poolLen.toNat := by
    rw [List.length_take, List.length_drop, hchunk]
    omega
  refine ⟨(((t.drop m).take count.toNat).drop 2 |>.take poolLen.toNat).map
    (poolUnit (ofWord model.multiplier)), t.take m ++ t.drop (m + count.toNat), ?_, hwhole, rfl,
    ?_, ⟨poolLen, ?_, ?_⟩, ?_⟩
  · rw [takePool, hword, addU64_eq (by omega)]
    simp only [Option.bind_eq_bind, Option.bind_some]
    rw [addU64_eq (by omega), Option.bind_some, range_eq (by omega) (by omega), Option.bind_some,
      addU64_eq (by omega), Option.bind_some, drain_eq (by omega) hcount, Option.bind_some,
      chunk_units hstop]
    rfl
  · rw [chunk_getElem? (by omega)]
    exact htag
  · rw [chunk_getElem? (by omega)]
    exact hlen
  · rw [List.length_map, hdrawn, hnat]
  · rw [List.length_map, hdrawn]

/-- A chunk inside the code is refused or lifted. -/
theorem liftChunk_spec {m : ℕ} {count : ℤ} (hcap : t.length < 2 ^ 61)
    (hpos : HEADER_WORDS ≤ count) (hcount : m + count.toNat ≤ t.length) :
    ∃ r, liftChunk model t m count = some r ∧ ∀ pool code, r = .ok (pool, code) →
      Lifted model t pool code (t.take m) ((t.drop m).take count.toNat)
        (t.drop (m + count.toNat)) := by
  have htwo : 2 ≤ count.toNat := by
    rw [HEADER_WORDS] at hpos
    omega
  obtain ⟨tag, htag⟩ : ∃ tag, t[m]? = some tag := ⟨_, List.getElem?_eq_getElem (by omega)⟩
  obtain ⟨poolLen, hlen⟩ : ∃ w, t[m + 1]? = some w := ⟨_, List.getElem?_eq_getElem (by omega)⟩
  rw [liftChunk, htag]
  simp only [Option.bind_eq_bind, Option.bind_some]
  by_cases hne : tag ≠ model.stringTag
  · rw [if_pos hne]
    exact ⟨_, rfl, nofun⟩
  rw [if_neg hne, addU64_eq (by omega), Option.bind_some, hlen, Option.bind_some]
  by_cases hneg : poolLen.toInt < 0
  · rw [if_pos hneg]
    exact ⟨_, rfl, nofun⟩
  have hlt := poolLen.toInt_lt
  have hsum : addI64 HEADER_WORDS poolLen.toInt = some (HEADER_WORDS + poolLen.toInt) :=
    addI64_eq (by rw [HEADER_WORDS]; omega) (by rw [HEADER_WORDS]; omega)
  rw [if_neg hneg, hsum, Option.bind_some]
  by_cases hover : count < HEADER_WORDS + poolLen.toInt
  · rw [if_pos hover]
    exact ⟨_, rfl, nofun⟩
  obtain ⟨pool, code, htake, hlifted⟩ := takePool_spec model hcap
    (htag.trans (congrArg some (not_not.1 hne))) hlen (by omega) (by omega) hcount
  rw [if_neg hover, htake, Option.bind_some]
  refine ⟨_, rfl, fun pool' code' h => ?_⟩
  cases h
  exact hlifted

/-- **Lifting the pool** never panics and loses no word: it reports an error, or takes out of
the code one chunk where the last word says, as long as its count word says, and the pool is
as long as the header of the chunk says. -/
theorem liftPool_spec (model : PoolModel) {t : List (BitVec 32)} (hmin : MIN_INTS ≤ t.length)
    (hcap : t.length < 2 ^ 61) :
    ∃ r, liftPool model t = some r ∧ ∀ pool code, r = .ok (pool, code) →
      ∃ pre chunk post : List (BitVec 32), Lifted model t pool code pre chunk post ∧
        code.length + chunk.length = t.length ∧
        (∃ key, t.getLast? = some key ∧
          pre.length = (key ^^^ BitVec.ofNat 32 (t.length + TRUE_LEN)).toNat) ∧
        ∃ word, t[pre.length + model.entryPc.toNat]? = some word ∧
          chunk.length = word.toInt + HEADER_WORDS := by
  rw [MIN_INTS] at hmin
  obtain ⟨key, hkey⟩ : ∃ key, t[t.length - 1]? = some key :=
    ⟨_, List.getElem?_eq_getElem (by omega)⟩
  have hlast : t.getLast? = some key := by rw [List.getLast?_eq_getElem?, hkey]
  have hpc := model.entryPc.toNat_lt
  rw [liftPool, subU64_eq (by omega)]
  simp only [Option.bind_eq_bind, Option.bind_some]
  rw [hkey, Option.bind_some, TRUE_LEN, addU64_eq (by omega), Option.bind_some]
  set offset := key ^^^ BitVec.ofNat 32 (t.length + 4) with hoffset
  by_cases hout : offset.toInt < 1 ∨ t.length ≤ offset.toNat
  · rw [if_pos hout]
    exact ⟨_, rfl, nofun⟩
  rw [not_or] at hout
  rw [if_neg (by rw [not_or]; exact hout), addU64_eq (by omega), Option.bind_some]
  by_cases hindex : t.length ≤ offset.toNat + model.entryPc.toNat
  · rw [if_pos hindex]
    exact ⟨_, rfl, nofun⟩
  obtain ⟨word, hword⟩ : ∃ w, t[offset.toNat + model.entryPc.toNat]? = some w :=
    ⟨_, List.getElem?_eq_getElem (by omega)⟩
  have hle := word.le_toInt
  have hlt := word.toInt_lt
  have hsum : addI64 word.toInt HEADER_WORDS = some (word.toInt + HEADER_WORDS) :=
    addI64_eq (by rw [HEADER_WORDS]; omega) (by rw [HEADER_WORDS]; omega)
  rw [if_neg hindex, hword, Option.bind_some, hsum, Option.bind_some, subU64_eq (by omega),
    Option.bind_some]
  by_cases hcount : word.toInt + HEADER_WORDS < HEADER_WORDS ∨
      t.length - offset.toNat < (word.toInt + HEADER_WORDS).toNat
  · rw [if_pos hcount]
    exact ⟨_, rfl, nofun⟩
  rw [if_neg hcount]
  rw [not_or] at hcount
  have hinside : offset.toNat + (word.toInt + HEADER_WORDS).toNat ≤ t.length := by omega
  obtain ⟨r, hr, hlifted⟩ := liftChunk_spec model hcap (not_lt.1 hcount.1) hinside
  refine ⟨r, hr, fun pool code hok => ?_⟩
  obtain ⟨hwhole, hchunk, hpre⟩ := parts hinside
  have hl := hlifted pool code hok
  have hlengths := congrArg List.length hl.whole
  simp only [List.length_append] at hlengths
  refine ⟨_, _, _, hl, ?_, ⟨key, hlast, by rw [hpre]⟩, word, by rw [hpre, hword], ?_⟩
  · rw [hl.left, List.length_append]
    omega
  · rw [hchunk]
    rw [HEADER_WORDS] at hcount ⊢
    omega

/-- The pool `"a"` in a code of six words, its chunk between the first two and the last. -/
theorem liftPool_spec_one : ∃ r, liftPool ⟨1, 7, 3⟩ [9, 7, 1, 97, 1, 11] = some r ∧
    ∀ pool code, r = .ok (pool, code) → ∃ pre chunk post,
      Lifted ⟨1, 7, 3⟩ [9, 7, 1, 97, 1, 11] pool code pre chunk post ∧ code.length + chunk.length = 6 := by
  obtain ⟨r, hr, hok⟩ := liftPool_spec ⟨1, 7, 3⟩ (t := [9, 7, 1, 97, 1, 11]) (by decide) (by decide)
  refine ⟨r, hr, fun pool code h => ?_⟩
  obtain ⟨pre, chunk, post, hlifted, hlength, -⟩ := hok pool code h
  exact ⟨pre, chunk, post, hlifted, hlength⟩

example : liftPool ⟨1, 7, 3⟩ [9, 7, 1, 97, 1, 11] = some (.ok ([97], [9, 1, 11])) := by
  decide +kernel

end Decoder
end Worktime
end Lunar
