/-
# Pairing the captured profiles

`utils/profiles.rs` (`key_ms`, `pair`).  Two captures of one device, one of each kind, are
joined where they name the same user agent and renderer and lie within ten seconds of each
other.  The px records are taken in the order of their times, and each takes the nearest
fitting reese record that no earlier one took; what is left over makes devices of its own
(`pair_matches`).

The records are kept with what `pair` reads of them, the rest of their fields in one.  `none`
is a sum that wraps, or a panic.
-/

import Lunar.Lib.Checked
import Mathlib.Data.List.Sort
import Mathlib.Data.List.ReduceOption
import Mathlib.Data.List.TakeWhile

namespace Lunar
namespace Profiles

open Lib

def PAIR_WINDOW_MS : ℕ := 10000

/-! ## The time in a key -/

def isAsciiDigit (b : UInt8) : Bool := 0x30 ≤ b && b ≤ 0x39

/-- The value of a run of decimal digits. -/
def decimal (ds : List UInt8) : ℕ := ds.foldl (fun v d => v * 10 + (d.toNat - 0x30)) 0

/-- `key_ms`: the first run of thirteen digits of a key. -/
def keyMs : List UInt8 → Option ℕ
  | [] => none
  | b :: bs =>
    if isAsciiDigit b then
      let run := (b :: bs).takeWhile isAsciiDigit
      if run.length = 13 then some (decimal run) else keyMs (bs.dropWhile isAsciiDigit)
    else keyMs bs
  termination_by bs => bs.length
  decreasing_by
    · exact Nat.lt_succ_of_le (List.length_dropWhile_le _ _)
    · exact Nat.lt_succ_self _

theorem decimal_lt {ds : List UInt8} (h : ∀ d ∈ ds, isAsciiDigit d) (v : ℕ) :
    ds.foldl (fun v d => v * 10 + (d.toNat - 0x30)) v < (v + 1) * 10 ^ ds.length := by
  induction ds generalizing v with
  | nil => simp
  | cons d ds ih =>
      have hd : d.toNat ≤ 0x39 := by
        have := h d List.mem_cons_self
        simp only [isAsciiDigit, Bool.and_eq_true, decide_eq_true_eq] at this
        exact UInt8.le_iff_toNat_le.1 this.2
      rw [List.foldl_cons]
      refine (ih (fun c hc => h c (List.mem_cons_of_mem _ hc)) _).trans_le ?_
      rw [List.length_cons, pow_succ', ← mul_assoc]
      exact Nat.mul_le_mul_right _ (by omega)

/-- The time of a key has thirteen digits. -/
theorem keyMs_lt {key : List UInt8} {t : ℕ} (h : keyMs key = some t) : t < 10 ^ 13 := by
  fun_induction keyMs key with
  | case1 => cases h
  | case2 b bs _ run hlen =>
      have := decimal_lt (fun d (hd : d ∈ run) => List.mem_takeWhile_imp hd) 0
      rw [hlen, Nat.zero_add, Nat.one_mul] at this
      exact Option.some.inj h ▸ this
  | case3 b bs _ run hlen ih => exact ih h
  | case4 b bs _ ih => exact ih h


/-! ## The records -/

namespace px

structure Webgl where
  unmaskedRenderer : Option String

/-- A px record; `rest` is what pairing does not read. -/
structure PxProfile (α : Type) where
  ua : Option String
  webgl : Option Webgl
  rest : α

end px

namespace reese

inductive GlParam where
  | str (s : String)
  | other

structure Navigator where
  userAgent : Option String

structure Webgl where
  params : String → Option GlParam

/-- A reese record; `rest` is what pairing does not read. -/
structure ReeseProfile (β : Type) where
  navigator : Option Navigator
  webgl1 : Option Webgl
  webgl2 : Option Webgl
  rest : β

end reese

open px (PxProfile)
open reese (ReeseProfile GlParam)

variable {α β : Type}

/-- `p.ua.as_deref().unwrap_or_default()`. -/
def pxUa (p : PxProfile α) : String := p.ua.getD ""

def pxRenderer (p : PxProfile α) : Option String := p.webgl.bind (·.unmaskedRenderer)

def reeseUa (p : ReeseProfile β) : String := (p.navigator.bind (·.userAgent)).getD ""

/-- `reese_renderer`: that of the first context that names one. -/
def reeseRenderer (p : ReeseProfile β) : Option String :=
  [p.webgl2, p.webgl1].reduceOption.findSome? fun gl =>
    match gl.params "UNMASKED_RENDERER_WEBGL" with
    | some (.str s) => some s
    | _ => none

structure Device (α β : Type) where
  collectedMs : ℕ
  userAgent : String
  renderer : Option String
  px : Option (PxProfile α)
  reese : Option (ReeseProfile β)

/-- `sort_unstable_by_key`: a sort, which leaves equal keys in any order. -/
structure SortUnstable where
  byKey : {γ : Type} → (γ → ℕ) → List γ → List γ
  perm : ∀ {γ : Type} (key : γ → ℕ) (l : List γ), (byKey key l).Perm l
  sorted : ∀ {γ : Type} (key : γ → ℕ) (l : List γ), (byKey key l).Pairwise (key · ≤ key ·)

/-- One that keeps their order. -/
def insertion : SortUnstable where
  byKey key l := l.insertionSort (key · ≤ key ·)
  perm _ l := l.perm_insertionSort _
  sorted _ l := l.pairwise_insertionSort _

/-! ## Pairing -/

/-- `u64::abs_diff`. -/
def absDiff (a b : ℕ) : ℕ := (a - b) + (b - a)

/-- An entry of `r_meta`. -/
structure Meta where
  time : ℕ
  userAgent : String
  renderer : Option String

def metaOf (r : ℕ × ReeseProfile β) : Meta := ⟨r.1, reeseUa r.2, reeseRenderer r.2⟩

/-- The loop over the candidates from place `i` on, `best` the distance and the place of the
nearest so far. -/
def nearest (p : ℕ × PxProfile α) (taken : List Bool) :
    ℕ → List Meta → Option (ℕ × ℕ) → Option (Option (ℕ × ℕ))
  | _, [], best => some best
  | i, m :: ms, best => do
    let last ← Checked.add 64 p.1 PAIR_WINDOW_MS
    if last < m.time then some best
    else do
      let used ← taken[i]?
      if used || m.userAgent != pxUa p.2 || m.renderer != pxRenderer p.2 then
        nearest p taken (i + 1) ms best
      else
        let d := absDiff m.time p.1
        nearest p taken (i + 1) ms (if best.all (d < ·.1) then some (d, i) else best)

/-- `partition_point` of a list in which the entries before `t` come first; here every entry is
asked. -/
def partitionPoint (t : ℕ) (metas : List Meta) : Option ℕ := do
  let ends ← metas.mapM fun m => Checked.add 64 m.time PAIR_WINDOW_MS
  return (ends.takeWhile (· < t)).length

/-- The record a px record takes. -/
def candidate (metas : List Meta) (taken : List Bool) (p : ℕ × PxProfile α) :
    Option (Option ℕ) := do
  let lo ← partitionPoint p.1 metas
  let best ← nearest p taken lo (metas.drop lo) none
  return best.map Prod.snd

/-- The flags once a px record took what is at `m`. -/
def flagsAfter (taken : List Bool) (m : Option ℕ) : List Bool := m.elim taken (taken.set · true)

/-- The loop that fills `matched`. -/
def matchAll (metas : List Meta) : List (ℕ × PxProfile α) → List Bool → Option (List (Option ℕ))
  | [], _ => some []
  | p :: pxs, taken => do
    let m ← candidate metas taken p
    let matched ← matchAll metas pxs (flagsAfter taken m)
    return m :: matched

/-- The device of a px record and of what it was joined to. -/
def joined (p : ℕ × PxProfile α) (r : Option (ℕ × ReeseProfile β)) : Device α β where
  collectedMs := p.1
  userAgent := pxUa p.2
  renderer := pxRenderer p.2
  px := some p.2
  reese := r.map Prod.snd

/-- The device of a reese record that nothing took. -/
def alone (m : Meta) (r : ℕ × ReeseProfile β) : Device α β where
  collectedMs := r.1
  userAgent := m.userAgent
  renderer := m.renderer
  px := none
  reese := some r.2

/-- `slots[i].take()`. -/
def takeSlot {γ : Type} (slots : List (Option γ)) : Option ℕ → Option (Option γ × List (Option γ))
  | none => some (none, slots)
  | some i => do
    let s ← slots[i]?
    return (s, slots.set i none)

/-- The loop over the px records and what they matched. -/
def fill : List ((ℕ × PxProfile α) × Option ℕ) → List (Option (ℕ × ReeseProfile β)) →
    Option (List (Device α β) × List (Option (ℕ × ReeseProfile β)))
  | [], slots => some ([], slots)
  | (p, m) :: rest, slots => do
    let (r, slots) ← takeSlot slots m
    let (out, slots) ← fill rest slots
    return (joined p r :: out, slots)

/-- The loop over the slots that are left, with their entries of `r_meta`. -/
def leftovers (slots : List (Option (ℕ × ReeseProfile β))) (metas : List Meta) :
    List (Device α β) :=
  (slots.zip metas).filterMap fun sm => sm.1.map (alone sm.2)

/-- `pair`. -/
def pair (sort : SortUnstable) (pxs : List (ℕ × PxProfile α)) (rs : List (ℕ × ReeseProfile β)) :
    Option (List (Device α β)) := do
  let pxs := sort.byKey Prod.fst pxs
  let rs := sort.byKey Prod.fst rs
  let metas := rs.map metaOf
  let matched ← matchAll metas pxs (List.replicate rs.length false)
  let (out, slots) ← fill (pxs.zip matched) (rs.map some)
  return sort.byKey Device.collectedMs (out ++ leftovers slots metas)

/-! ## What is nearest -/

/-- The two records are captures of one device: the same user agent and renderer, within ten
seconds of each other. -/
def Fits (p : ℕ × PxProfile α) (r : ℕ × ReeseProfile β) : Prop :=
  pxUa p.2 = reeseUa r.2 ∧ pxRenderer p.2 = reeseRenderer r.2 ∧ absDiff r.1 p.1 ≤ PAIR_WINDOW_MS

/-- What a px record is joined to when `free` is what no earlier record took. -/
def Nearest (p : ℕ × PxProfile α) (free : List (ℕ × ReeseProfile β)) :
    Option (ℕ × ReeseProfile β) → Prop
  | none => ∀ r ∈ free, ¬Fits p r
  | some r => r ∈ free ∧ Fits p r ∧ ∀ r' ∈ free, Fits p r' → absDiff r.1 p.1 ≤ absDiff r'.1 p.1

/-- The slot of place `j` holds `r`. -/
def FreeAt (rs : List (ℕ × ReeseProfile β)) (taken : List Bool) (j : ℕ)
    (r : ℕ × ReeseProfile β) : Prop :=
  rs[j]? = some r ∧ taken[j]? = some false

/-- `best` is the nearest of the fitting records before place `i`. -/
def Best (rs : List (ℕ × ReeseProfile β)) (taken : List Bool) (p : ℕ × PxProfile α) (i : ℕ) :
    Option (ℕ × ℕ) → Prop
  | none => ∀ j < i, ∀ r, FreeAt rs taken j r → ¬Fits p r
  | some (d, k) => (∃ r, FreeAt rs taken k r ∧ Fits p r ∧ d = absDiff r.1 p.1) ∧
      ∀ j < i, ∀ r, FreeAt rs taken j r → Fits p r → d ≤ absDiff r.1 p.1

section
variable {rs : List (ℕ × ReeseProfile β)} {taken : List Bool} {p : ℕ × PxProfile α}

/-- Past records that do not fit, the best stays. -/
theorem Best.skip {i j : ℕ} {best : Option (ℕ × ℕ)} (h : Best rs taken p i best)
    (hskip : ∀ k, i ≤ k → k < j → ∀ r, FreeAt rs taken k r → ¬Fits p r) :
    Best rs taken p j best := by
  match best, h with
  | none, h =>
      intro k hk r hr
      rcases Nat.lt_or_ge k i with hki | hki
      · exact h k hki r hr
      · exact hskip k hki hk r hr
  | some (d, k), ⟨hk, h⟩ =>
      refine ⟨hk, fun l hl r hr hf => ?_⟩
      rcases Nat.lt_or_ge l i with hli | hli
      · exact h l hli r hr hf
      · exact absurd hf (hskip l hli hl r hr)

/-- A record that fits takes the place of the best so far when it is nearer. -/
theorem Best.update {i : ℕ} {best : Option (ℕ × ℕ)} {r : ℕ × ReeseProfile β}
    (h : Best rs taken p i best) (hr : FreeAt rs taken i r) (hf : Fits p r) :
    Best rs taken p (i + 1)
      (if best.all (absDiff r.1 p.1 < ·.1) then some (absDiff r.1 p.1, i) else best) := by
  have hi : ∀ r', FreeAt rs taken i r' → r' = r := fun r' hr' => by
    have := hr.1.symm.trans hr'.1
    exact (Option.some.inj this).symm
  match best, h with
  | none, h =>
      refine ⟨⟨r, hr, hf, rfl⟩, fun j hj r' hr' hf' => ?_⟩
      rcases Nat.lt_succ_iff_lt_or_eq.1 hj with hj | rfl
      · exact absurd hf' (h j hj r' hr')
      · rw [hi r' hr']
  | some (d, k), ⟨hk, h⟩ =>
      simp only [Option.all_some, decide_eq_true_eq]
      split
      · next hd =>
          refine ⟨⟨r, hr, hf, rfl⟩, fun j hj r' hr' hf' => ?_⟩
          rcases Nat.lt_succ_iff_lt_or_eq.1 hj with hj | rfl
          · exact hd.le.trans (h j hj r' hr' hf')
          · rw [hi r' hr']
      · next hd =>
          refine ⟨hk, fun j hj r' hr' hf' => ?_⟩
          rcases Nat.lt_succ_iff_lt_or_eq.1 hj with hj | rfl
          · exact h j hj r' hr' hf'
          · rw [hi r' hr']
            exact Nat.not_lt.1 hd

/-- The loop keeps the nearest. -/
theorem nearest_spec (hsort : rs.Pairwise (·.1 ≤ ·.1)) (hlen : taken.length = rs.length)
    (ms : List Meta) {i : ℕ} {best : Option (ℕ × ℕ)} (hms : (rs.map metaOf).drop i = ms)
    (hsum : ms ≠ [] → p.1 + PAIR_WINDOW_MS < 2 ^ 64)
    (hearly : ∀ m ∈ ms, p.1 ≤ m.time + PAIR_WINDOW_MS) (h : Best rs taken p i best) :
    ∃ b, nearest p taken i ms best = some b ∧ Best rs taken p rs.length b := by
  induction ms generalizing i best with
  | nil =>
      have hi : rs.length ≤ i := by simpa using hms
      refine ⟨best, rfl, h.skip fun k hk hk' => ?_⟩
      omega
  | cons m ms ih =>
      obtain ⟨r, hr, hm⟩ : ∃ r, rs[i]? = some r ∧ metaOf r = m := by
        have := congrArg (·[0]?) hms
        simpa [List.getElem?_drop] using this
      have hi : i < rs.length := (List.getElem?_eq_some_iff.1 hr).1
      have hms' : (rs.map metaOf).drop (i + 1) = ms := by
        rw [← List.drop_drop, hms, List.drop_one, List.tail_cons]
      have hsum' := hsum (List.cons_ne_nil m ms)
      have hih {b} := @ih (i + 1) b hms' (fun _ => hsum')
        fun m hm => hearly m (List.mem_cons_of_mem _ hm)
      have hlo := hearly m List.mem_cons_self
      obtain rfl := hm
      rw [nearest, Checked.add_of_lt hsum', Option.bind_eq_bind, Option.bind_some]
      rcases Nat.lt_or_ge (p.1 + PAIR_WINDOW_MS) (metaOf r).time with hlate | htime
      · -- from here on every time is too late
        rw [if_pos hlate]
        refine ⟨best, rfl, h.skip fun k hk _ r' hr' hf => ?_⟩
        have hle : r.1 ≤ r'.1 := by
          obtain ⟨hk', rfl⟩ := List.getElem?_eq_some_iff.1 hr'.1
          obtain ⟨-, rfl⟩ := List.getElem?_eq_some_iff.1 hr
          rcases hk.eq_or_lt with rfl | hk
          · exact le_rfl
          · exact List.pairwise_iff_getElem.1 hsort i k hi hk' hk
        have hnear := hf.2.2
        rw [absDiff] at hnear
        rw [metaOf] at hlate
        dsimp only at hlate
        omega
      · rw [if_neg (Nat.not_lt.2 htime), List.getElem?_eq_getElem (hlen ▸ hi),
          Option.bind_eq_bind, Option.bind_some]
        by_cases hskip : taken[i] || (metaOf r).userAgent != pxUa p.2 ||
          (metaOf r).renderer != pxRenderer p.2
        · rw [if_pos hskip]
          refine hih (h.skip fun k hk hk' r' hr' hf => ?_)
          obtain rfl : k = i := by omega
          obtain rfl := Option.some.inj (hr.symm.trans hr'.1)
          have hfree := (List.getElem?_eq_some_iff.1 hr'.2).2
          simp [hfree, hf.1, hf.2.1, metaOf] at hskip
        · rw [if_neg hskip]
          simp only [Bool.or_eq_true, bne_iff_ne, ne_eq, not_or, not_not,
            Bool.not_eq_true] at hskip
          have hfree : FreeAt rs taken i r :=
            ⟨hr, List.getElem?_eq_some_iff.2 ⟨hlen ▸ hi, hskip.1.1⟩⟩
          have hnear : absDiff r.1 p.1 ≤ PAIR_WINDOW_MS := by
            rw [absDiff]
            rw [metaOf] at hlo htime
            dsimp only at hlo htime
            omega
          exact hih (h.update hfree ⟨hskip.1.2.symm, hskip.2.symm, hnear⟩)

theorem mapM_add {metas : List Meta} (h : ∀ m ∈ metas, m.time + PAIR_WINDOW_MS < 2 ^ 64) :
    (metas.mapM fun m => Checked.add 64 m.time PAIR_WINDOW_MS) =
      some (metas.map (·.time + PAIR_WINDOW_MS)) := by
  induction metas with
  | nil => rfl
  | cons m ms ih =>
      rw [List.mapM_cons, Checked.add_of_lt (h m List.mem_cons_self),
        ih fun m' hm => h m' (List.mem_cons_of_mem _ hm)]
      rfl

/-- The partition point of sorted times: what is before it is too early, what is after it is
not. -/
theorem partitionPoint_spec (t : ℕ) {metas : List Meta}
    (hsort : metas.Pairwise (·.time ≤ ·.time))
    (hsum : ∀ m ∈ metas, m.time + PAIR_WINDOW_MS < 2 ^ 64) :
    ∃ lo, partitionPoint t metas = some lo ∧
      (∀ m ∈ metas.take lo, m.time + PAIR_WINDOW_MS < t) ∧
      ∀ m ∈ metas.drop lo, t ≤ m.time + PAIR_WINDOW_MS := by
  let early : Meta → Bool := fun m => decide (m.time + PAIR_WINDOW_MS < t)
  have happ := List.takeWhile_append_dropWhile (p := early) (l := metas)
  have hcut : ∀ a b : List Meta, a ++ b = metas →
      metas.take a.length = a ∧ metas.drop a.length = b := by
    rintro a b rfl
    exact ⟨List.take_left, List.drop_left⟩
  refine ⟨(metas.takeWhile early).length, ?_, fun m hm => ?_, fun m hm => ?_⟩
  · rw [partitionPoint, mapM_add hsum, Option.bind_eq_bind, Option.bind_some, List.takeWhile_map,
      List.length_map]
    rfl
  · rw [(hcut _ _ happ).1] at hm
    have hearly : early m = true := List.mem_takeWhile_imp hm
    exact of_decide_eq_true hearly
  · rw [(hcut _ _ happ).2] at hm
    rw [← happ, List.pairwise_append] at hsort
    match hd : metas.dropWhile early, hm with
    | first :: rest, hm =>
        have hfirst : t ≤ first.time + PAIR_WINDOW_MS := by
          have hlate := List.head?_dropWhile_not early metas
          rw [hd, List.head?_cons] at hlate
          exact Nat.not_lt.1 (of_decide_eq_false hlate)
        rw [hd, List.pairwise_cons] at hsort
        rcases List.mem_cons.1 hm with rfl | hm
        · exact hfirst
        · exact hfirst.trans (Nat.add_le_add_right (hsort.2.1.1 m hm) _)

/-- What a px record takes: the nearest of the free records that fit. -/
theorem candidate_spec (p : ℕ × PxProfile α) (hsort : rs.Pairwise (·.1 ≤ ·.1))
    (hlen : taken.length = rs.length) (hr : ∀ r ∈ rs, r.1 < 10 ^ 13) :
    ∃ best, candidate (rs.map metaOf) taken p = some (best.map Prod.snd) ∧
      Best rs taken p rs.length best := by
  have hsum : ∀ m ∈ rs.map metaOf, m.time + PAIR_WINDOW_MS < 2 ^ 64 := by
    intro m hm
    obtain ⟨r, hmem, rfl⟩ := List.mem_map.1 hm
    have := hr r hmem
    rw [metaOf, PAIR_WINDOW_MS]
    dsimp only
    omega
  obtain ⟨lo, hlo, hbefore, hafter⟩ := partitionPoint_spec p.1 (List.pairwise_map.2 hsort) hsum
  obtain ⟨best, hbest, hspec⟩ := @nearest_spec _ _ _ _ _ hsort hlen _ lo none rfl
    (fun hne => by
      obtain ⟨m, hm⟩ := List.exists_mem_of_ne_nil _ hne
      have hm' := hafter m hm
      obtain ⟨r, hmem, rfl⟩ := List.mem_map.1 (List.mem_of_mem_drop hm)
      have := hr r hmem
      rw [metaOf] at hm'
      rw [PAIR_WINDOW_MS] at hm' ⊢
      dsimp only at hm'
      omega)
    hafter
    (fun j hj r hfree hf => by
      have hnear := hf.2.2
      have hm : metaOf r ∈ (rs.map metaOf).take lo := by
        refine List.mem_of_getElem? (i := j) ?_
        rw [List.getElem?_take_of_lt hj, List.getElem?_map, hfree.1]
        rfl
      have := hbefore _ hm
      rw [metaOf] at this
      dsimp only at this
      rw [absDiff] at hnear
      omega)
  refine ⟨best, ?_, hspec⟩
  rw [candidate, hlo, Option.bind_eq_bind, Option.bind_some, hbest]
  rfl
end

/-! ## The joins -/

/-- The slots that the records not taken still fill. -/
def slotsOf (taken : List Bool) (rs : List (ℕ × ReeseProfile β)) :
    List (Option (ℕ × ReeseProfile β)) :=
  List.zipWith (fun used r => if used then none else some r) taken rs

/-- The records not taken. -/
def freeOf (taken : List Bool) (rs : List (ℕ × ReeseProfile β)) : List (ℕ × ReeseProfile β) :=
  (slotsOf taken rs).reduceOption

section
variable {rs : List (ℕ × ReeseProfile β)} {taken : List Bool}

theorem getElem?_slotsOf {i : ℕ} {r : ℕ × ReeseProfile β} (h : FreeAt rs taken i r) :
    (slotsOf taken rs)[i]? = some (some r) := by
  rw [slotsOf, List.getElem?_zipWith, h.1, h.2]
  rfl

theorem slotsOf_set (i : ℕ) (hlen : taken.length = rs.length) :
    (slotsOf taken rs).set i none = slotsOf (taken.set i true) rs := by
  refine List.ext_getElem? fun j => ?_
  rw [slotsOf, slotsOf, List.getElem?_set, List.getElem?_zipWith, List.getElem?_zipWith,
    List.getElem?_set, List.length_zipWith, hlen, Nat.min_self]
  by_cases hij : i = j
  · subst hij
    rw [if_pos rfl, if_pos rfl]
    by_cases hi : i < rs.length
    · rw [if_pos hi, if_pos hi, List.getElem?_eq_getElem hi]
      rfl
    · rw [if_neg hi, if_neg hi]
  · rw [if_neg hij, if_neg hij]

theorem mem_freeOf {r : ℕ × ReeseProfile β} : r ∈ freeOf taken rs ↔ ∃ i, FreeAt rs taken i r := by
  rw [freeOf, List.reduceOption_mem_iff, List.mem_iff_getElem?]
  refine exists_congr fun i => ⟨fun h => ?_, getElem?_slotsOf⟩
  obtain ⟨used, r', hused, hr, hif⟩ := List.getElem?_zipWith_eq_some.1 h
  cases used
  · exact ⟨hr.trans hif, hused⟩
  · cases hif

/-- A slot that is emptied gives up its record. -/
theorem reduceOption_set {γ : Type} {l : List (Option γ)} {i : ℕ} {x : γ}
    (h : l[i]? = some (some x)) : l.reduceOption.Perm (x :: (l.set i none).reduceOption) := by
  induction l generalizing i with
  | nil => cases h
  | cons y l ih =>
      cases i with
      | zero =>
          obtain rfl : y = some x := Option.some.inj h
          exact List.Perm.refl _
      | succ i =>
          have hperm := ih h
          rcases y with _ | y
          · exact hperm
          · exact (hperm.cons y).trans (List.Perm.swap x y _)

/-- Taking a slot takes one record. -/
theorem freeOf_set {i : ℕ} {r : ℕ × ReeseProfile β} (h : FreeAt rs taken i r)
    (hlen : taken.length = rs.length) :
    (freeOf taken rs).Perm (r :: freeOf (taken.set i true) rs) := by
  rw [freeOf, freeOf, ← slotsOf_set i hlen]
  exact reduceOption_set (getElem?_slotsOf h)

/-- The devices of the slots that are left are those of the free records. -/
theorem leftovers_slotsOf :
    leftovers (α := α) (slotsOf taken rs) (rs.map metaOf) =
      (freeOf taken rs).map fun r => alone (metaOf r) r := by
  induction taken generalizing rs with
  | nil => rfl
  | cons used taken ih =>
      match rs with
      | [] => rfl
      | r :: rs =>
          have := @ih rs
          rw [leftovers, freeOf, slotsOf] at this ⊢
          cases used
          · exact congrArg (alone (metaOf r) r :: ·) this
          · exact this

end

/-- At first every slot is full. -/
theorem slotsOf_none (rs : List (ℕ × ReeseProfile β)) :
    slotsOf (List.replicate rs.length false) rs = rs.map some := by
  induction rs with
  | nil => rfl
  | cons r rs ih => exact congrArg (some r :: ·) ih

theorem freeOf_none (rs : List (ℕ × ReeseProfile β)) :
    freeOf (List.replicate rs.length false) rs = rs := by
  rw [freeOf, slotsOf_none, List.reduceOption, List.filterMap_map]
  exact List.filterMap_some

/-- The joins, in the order they are made: each px record with the nearest of what the later
ones and the rest `left` hold. -/
def Greedy (left : List (ℕ × ReeseProfile β)) :
    List ((ℕ × PxProfile α) × Option (ℕ × ReeseProfile β)) → Prop
  | [] => True
  | (p, m) :: after =>
    Nearest p (m.toList ++ (after.filterMap Prod.snd ++ left)) m ∧ Greedy left after

/-- Which records are nearest does not depend on their order. -/
theorem Nearest.perm {p : ℕ × PxProfile α} {free free' : List (ℕ × ReeseProfile β)}
    {m : Option (ℕ × ReeseProfile β)} (hperm : free.Perm free') (h : Nearest p free m) :
    Nearest p free' m := by
  match m, h with
  | none, h => exact fun r hr => h r (hperm.mem_iff.2 hr)
  | some r, ⟨hr, hf, hmin⟩ =>
      exact ⟨hperm.mem_iff.1 hr, hf, fun r' hr' => hmin r' (hperm.mem_iff.2 hr')⟩

/-- A px record takes the nearest of what is free, and only that. -/
theorem takeSlot_spec {rs : List (ℕ × ReeseProfile β)} {taken : List Bool}
    {p : ℕ × PxProfile α} {best : Option (ℕ × ℕ)} (hlen : taken.length = rs.length)
    (h : Best rs taken p rs.length best) :
    ∃ r, takeSlot (slotsOf taken rs) (best.map Prod.snd) =
        some (r, slotsOf (flagsAfter taken (best.map Prod.snd)) rs) ∧
      (r.toList ++ freeOf (flagsAfter taken (best.map Prod.snd)) rs).Perm (freeOf taken rs) ∧
      Nearest p (freeOf taken rs) r ∧
      (flagsAfter taken (best.map Prod.snd)).length = rs.length := by
  have hplace : ∀ {j r}, FreeAt rs taken j r → j < rs.length := fun h =>
    (List.getElem?_eq_some_iff.1 h.1).1
  match best, h with
  | none, h =>
      refine ⟨none, rfl, List.Perm.refl _, fun r hr => ?_, hlen⟩
      obtain ⟨j, hj⟩ := mem_freeOf.1 hr
      exact h j (hplace hj) r hj
  | some (d, i), ⟨⟨r, hfree, hf, hd⟩, hmin⟩ =>
      refine ⟨some r, ?_, (freeOf_set hfree hlen).symm, ⟨mem_freeOf.2 ⟨i, hfree⟩, hf, ?_⟩, ?_⟩
      · rw [Option.map_some, takeSlot, getElem?_slotsOf hfree, slotsOf_set i hlen]
        rfl
      · intro r' hr' hf'
        obtain ⟨j, hj⟩ := mem_freeOf.1 hr'
        exact hd ▸ hmin j (hplace hj) r' hj hf'
      · rw [flagsAfter, Option.map_some, Option.elim_some, List.length_set, hlen]

/-- **One px record after the other takes the nearest of what is free.** -/
theorem matchAll_fill {rs : List (ℕ × ReeseProfile β)} (hsort : rs.Pairwise (·.1 ≤ ·.1))
    (hr : ∀ r ∈ rs, r.1 < 10 ^ 13) (pxs : List (ℕ × PxProfile α)) {taken : List Bool}
    (hlen : taken.length = rs.length) :
    ∃ matched joins taken', matchAll (rs.map metaOf) pxs taken = some matched ∧
      fill (pxs.zip matched) (slotsOf taken rs) =
        some (joins.map fun j => joined j.1 j.2, slotsOf taken' rs) ∧
      joins.map Prod.fst = pxs ∧
      (joins.filterMap Prod.snd ++ freeOf taken' rs).Perm (freeOf taken rs) ∧
      Greedy (freeOf taken' rs) joins := by
  induction pxs generalizing taken with
  | nil => exact ⟨[], [], taken, rfl, rfl, rfl, List.Perm.refl _, trivial⟩
  | cons p pxs ih =>
      obtain ⟨best, hcand, hbest⟩ := candidate_spec p hsort hlen hr
      obtain ⟨r, htake, hperm, hnear, hlen'⟩ := takeSlot_spec hlen hbest
      obtain ⟨matched, joins, taken', hmatch, hfill, hfst, hrest, hgreedy⟩ := ih hlen'
      have hall := (hrest.append_left r.toList).trans hperm
      refine ⟨best.map Prod.snd :: matched, (p, r) :: joins, taken', ?_, ?_, ?_, ?_, ?_, hgreedy⟩
      · rw [matchAll, hcand, Option.bind_eq_bind, Option.bind_some, hmatch]
        rfl
      · rw [List.zip_cons_cons, fill, htake, Option.bind_eq_bind, Option.bind_some]
        dsimp only
        rw [hfill]
        rfl
      · rw [List.map_cons, hfst]
      · cases r
        · exact hall
        · exact hall
      · exact hnear.perm hall.symm

theorem Greedy.fits {left : List (ℕ × ReeseProfile β)}
    {joins : List ((ℕ × PxProfile α) × Option (ℕ × ReeseProfile β))} (h : Greedy left joins)
    (p : ℕ × PxProfile α) (r : ℕ × ReeseProfile β) (hj : (p, some r) ∈ joins) : Fits p r := by
  induction joins with
  | nil => cases hj
  | cons j joins ih =>
      rcases List.mem_cons.1 hj with rfl | hj
      · exact h.1.2.1
      · exact ih h.2 hj

/-- **Pairing is lossless and greedy.**  No sum wraps; the devices are those of `joins`, one for
each px record in the order of the times, and those of `left`, the reese records nothing took,
sorted by time; every record is in one of them; and each px record is joined to the nearest of
the fitting reese records no earlier one took, or to none if none fits. -/
theorem pair_matches (sort : SortUnstable) (pxs : List (ℕ × PxProfile α))
    (rs : List (ℕ × ReeseProfile β)) (hr : ∀ r ∈ rs, r.1 < 10 ^ 13) :
    ∃ devices joins left, pair sort pxs rs = some devices ∧
      devices.Perm ((joins.map fun j => joined j.1 j.2) ++ left.map fun r => alone (metaOf r) r) ∧
      devices.Pairwise (·.collectedMs ≤ ·.collectedMs) ∧
      (joins.map Prod.fst).Perm pxs ∧ (joins.map Prod.fst).Pairwise (·.1 ≤ ·.1) ∧
      (joins.filterMap Prod.snd ++ left).Perm rs ∧
      (∀ p r, (p, some r) ∈ joins → Fits p r) ∧ Greedy left joins := by
  have hperm := sort.perm Prod.fst rs
  obtain ⟨matched, joins, taken, hmatch, hfill, hfst, hall, hgreedy⟩ :=
    matchAll_fill (sort.sorted Prod.fst rs) (fun r h => hr r (hperm.mem_iff.1 h))
      (sort.byKey Prod.fst pxs) (List.length_replicate (a := false))
  rw [slotsOf_none] at hfill
  rw [freeOf_none] at hall
  refine ⟨_, joins, freeOf taken (sort.byKey Prod.fst rs), ?_, sort.perm _ _, sort.sorted _ _,
    ?_, ?_, hall.trans hperm, hgreedy.fits, hgreedy⟩
  · rw [pair, Option.bind_eq_bind, hmatch, Option.bind_some, hfill]
    dsimp only [Option.bind_eq_bind, Option.bind_some]
    rw [leftovers_slotsOf]
    rfl
  · rw [hfst]
    exact sort.perm Prod.fst pxs
  · rw [hfst]
    exact sort.sorted Prod.fst pxs

theorem pair_matches_two : ∃ devices : List (Device Unit Unit),
    pair insertion [(2 ^ 64 - 1, ⟨some "a", none, ()⟩), (5, ⟨some "a", none, ()⟩)]
      [(7, ⟨some ⟨some "a"⟩, none, none, ()⟩)] = some devices ∧
    devices.Pairwise (·.collectedMs ≤ ·.collectedMs) :=
  have ⟨devices, _, _, h, _, hsort, _⟩ := pair_matches insertion
    [(2 ^ 64 - 1, ⟨some "a", none, ()⟩), (5, ⟨some "a", none, ()⟩)]
    [(7, (⟨some ⟨some "a"⟩, none, none, ()⟩ : ReeseProfile Unit))] (by simp)
  ⟨devices, h, hsort⟩

end Profiles
end Lunar
