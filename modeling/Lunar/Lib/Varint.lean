/-
# Numbers of digits that say whether they go on

A stream of digits, each with a value and with a mark that says whether its number
goes on.  The first digit of a number counts once and each later one `base` times as
much as the one before it.  A number that the end of the stream leaves open is
completed by a digit zero, or it is an error; `completed` and `isOpen` are the two
readings.

The digits come from characters through tables in which the last entry of a
character wins.  A table keeps the characters below a limit in an array and the
others in a list; `lookup_build` says that the limit does not matter.
-/

import Mathlib.Data.List.Forall2
import Mathlib.Data.Nat.Bitwise
import Lunar.Lib.Double.Exact

namespace Lunar
namespace Lib

/-- A digit: whether its number goes on after it, and its value. -/
structure Digit where
  more : Bool
  value : ℕ
  deriving DecidableEq, Repr

namespace Varint

variable (base : ℕ)

/-- The numbers that a stream ends, the first of them begun as `m` with a next digit
that weighs `w`. -/
def numbers : ℕ → ℕ → List Digit → List ℕ
  | _, _, [] => []
  | m, w, d :: ds =>
    if d.more then numbers (m + w * d.value) (w * base) ds
    else (m + w * d.value) :: numbers 0 1 ds

/-- Whether a stream leaves a number open. -/
def isOpen : Bool → List Digit → Bool
  | o, [] => o
  | _, d :: ds => isOpen d.more ds

/-- The numbers of a stream, one left open completed by a digit zero. -/
def completed : ℕ → ℕ → Bool → List Digit → List ℕ
  | m, _, o, [] => if o then [m] else []
  | m, w, _, d :: ds =>
    if d.more then completed (m + w * d.value) (w * base) true ds
    else (m + w * d.value) :: completed 0 1 false ds

/-- The sums along a stream, digit by digit. -/
def sums : ℕ → ℕ → List Digit → List ℕ
  | _, _, [] => []
  | m, w, d :: ds =>
    (m + w * d.value) :: if d.more then sums (m + w * d.value) (w * base) ds else sums 0 1 ds

variable {base}

theorem completed_of_closed {m w : ℕ} {o : Bool} {ds : List Digit} (h : isOpen o ds = false) :
    completed base m w o ds = numbers base m w ds := by
  induction ds generalizing m w o with
  | nil =>
      have ho : o = false := h
      rw [completed, numbers, ho]
      rfl
  | cons d ds ih =>
      rw [isOpen] at h
      rw [completed, numbers]
      split
      · next hmore => exact ih (hmore ▸ h)
      · next hmore => rw [ih ((eq_false_of_ne_true hmore) ▸ h)]

theorem length_completed_of_open {m w : ℕ} {o : Bool} {ds : List Digit} (h : isOpen o ds = true) :
    (completed base m w o ds).length = (numbers base m w ds).length + 1 := by
  induction ds generalizing m w o with
  | nil =>
      have ho : o = true := h
      rw [completed, numbers, ho]
      rfl
  | cons d ds ih =>
      rw [isOpen] at h
      rw [completed, numbers]
      split
      · next hmore => exact ih (hmore ▸ h)
      · next hmore => rw [List.length_cons, List.length_cons, ih (eq_false_of_ne_true hmore ▸ h)]

/-- Every digit after which a number goes on is positive. -/
def Positive (ds : List Digit) : Prop := ∀ d ∈ ds, d.more = true → 0 < d.value

/-- A stream whose sums are exact as doubles. -/
structure Fits (base m w : ℕ) (ds : List Digit) : Prop where
  positive : Positive ds
  sums_le : ∀ x ∈ sums base m w ds, x ≤ 2 ^ 53

namespace Fits

variable {m w : ℕ} {d : Digit} {ds : List Digit}

theorem head_le (h : Fits base m w (d :: ds)) : m + w * d.value ≤ 2 ^ 53 :=
  h.sums_le _ List.mem_cons_self

theorem head_pos (h : Fits base m w (d :: ds)) (hmore : d.more = true) : 0 < d.value :=
  h.positive d List.mem_cons_self hmore

theorem tail_positive (h : Fits base m w (d :: ds)) : Positive ds :=
  fun x hx => h.positive x (List.mem_cons_of_mem d hx)

/-- After a digit that ends a number. -/
theorem ends (h : Fits base m w (d :: ds)) (hmore : d.more = false) : Fits base 0 1 ds := by
  refine ⟨h.tail_positive, fun x hx => h.sums_le x ?_⟩
  rw [sums, hmore]
  exact List.mem_cons_of_mem _ hx

/-- After a digit at which a number goes on. -/
theorem next (h : Fits base m w (d :: ds)) (hmore : d.more = true) :
    Fits base (m + w * d.value) (w * base) ds := by
  refine ⟨h.tail_positive, fun x hx => h.sums_le x ?_⟩
  rw [sums, hmore]
  exact List.mem_cons_of_mem _ hx

end Fits

/-- The number begun is read from the items `cs`, which stand for the digits `ds`: its
value is `x`, and the items `cs'` are left. -/
structure Finished {α : Type} (R : α → Digit → Prop) (base m w : ℕ) (cs : List α)
    (ds : List Digit) (x : ℕ) (cs' : List α) (ds' : List Digit) : Prop where
  completed_eq : completed base m w true ds = x :: completed base 0 1 false ds'
  stands : List.Forall₂ R cs' ds'
  fits : Fits base 0 1 ds'
  length_le : cs'.length ≤ cs.length - 1

section Finished

variable {α : Type} {R : α → Digit → Prop} {m w x : ℕ} {c : α} {cs cs' : List α} {d : Digit}
  {ds ds' : List Digit}

theorem Finished.nil : Finished R base m w [] [] m [] [] := by
  refine ⟨rfl, .nil, ⟨?_, ?_⟩, Nat.le_refl 0⟩
  · exact fun _ h => absurd h List.not_mem_nil
  · exact fun _ h => absurd h List.not_mem_nil

theorem Finished.last (hrest : List.Forall₂ R cs ds) (hfits : Fits base m w (d :: ds))
    (hmore : d.more = false) :
    Finished R base m w (c :: cs) (d :: ds) (m + w * d.value) cs ds := by
  refine ⟨?_, hrest, hfits.ends hmore, Nat.le_refl _⟩
  rw [completed, hmore]
  rfl

theorem Finished.cons (h : Finished R base (m + w * d.value) (w * base) cs ds x cs' ds')
    (hmore : d.more = true) : Finished R base m w (c :: cs) (d :: ds) x cs' ds' := by
  refine ⟨?_, h.stands, h.fits, h.length_le.trans (Nat.sub_le _ _)⟩
  rw [completed, hmore]
  exact h.completed_eq

end Finished

/-- The digit of a number `p` less than the size of an alphabet, the first `radix` of
which end a number. -/
def digit (radix p : ℕ) : Digit :=
  if p < radix then ⟨false, p⟩ else ⟨true, p % radix + radix⟩

theorem digit_zero {radix : ℕ} (h : 0 < radix) : digit radix 0 = ⟨false, 0⟩ := if_pos h

theorem digit_positive {radix p : ℕ} (h : 0 < radix) (hmore : (digit radix p).more = true) :
    0 < (digit radix p).value := by
  rw [digit] at hmore ⊢
  split at hmore
  · exact absurd hmore Bool.false_ne_true
  · next hp =>
      rw [if_neg hp]
      exact Nat.add_pos_right _ h

theorem digit_value_le {radix p : ℕ} (h : 0 < radix) : (digit radix p).value ≤ p := by
  rw [digit]
  split
  · exact Nat.le_refl p
  · next hp =>
      have hdm := Nat.div_add_mod p radix
      have hq : 1 ≤ p / radix := (Nat.one_le_div_iff h).2 (Nat.not_lt.1 hp)
      have hmul : radix * 1 ≤ radix * (p / radix) := Nat.mul_le_mul_left radix hq
      show p % radix + radix ≤ p
      omega

/-! ## Packed digits -/

/-- A packed digit: its value in the low bits, and the bit above them set when its number
goes on. -/
structure Stands (bits entry : ℕ) (d : Digit) : Prop where
  value : entry &&& (2 ^ bits - 1) = d.value
  ends : entry &&& 2 ^ bits = 0 ↔ d.more = false
  value_of_ends : d.more = false → entry = d.value

theorem stands_last {bits v : ℕ} (h : v < 2 ^ bits) : Stands bits v ⟨false, v⟩ := by
  refine ⟨Nat.and_two_pow_sub_one_of_lt_two_pow h, iff_of_true ?_ rfl, fun _ => rfl⟩
  rw [Nat.and_comm, Nat.two_pow_and, Nat.testBit_lt_two_pow h]
  rfl

theorem stands_more {bits v : ℕ} (h : v < 2 ^ bits) : Stands bits (2 ^ bits ||| v) ⟨true, v⟩ := by
  refine ⟨?_, iff_of_false ?_ (fun h => Bool.false_ne_true h.symm), fun h =>
    absurd h.symm Bool.false_ne_true⟩
  · have hor := Nat.two_pow_add_eq_or_of_lt h 1
    rw [Nat.mul_one] at hor
    rw [← hor, Nat.and_two_pow_sub_one_eq_mod, Nat.add_mod_left]
    exact Nat.mod_eq_of_lt h
  · rw [Nat.and_or_distrib_right, (stands_last h).ends.2 rfl, Nat.and_self, Nat.or_zero]
    exact (Nat.two_pow_pos bits).ne'

theorem Stands.continues {bits entry : ℕ} {d : Digit} (h : Stands bits entry d)
    (hmore : d.more = true) : ¬ entry &&& 2 ^ bits = 0 :=
  fun hzero => Bool.false_ne_true ((h.ends.1 hzero).symm.trans hmore)

/-- A digit of an alphabet, packed by cases on whether it ends a number. -/
theorem stands_digit {bits radix p : ℕ} (hradix : 0 < radix) (h : p < 2 ^ bits) :
    Stands bits (if p < radix then p else 2 ^ bits ||| (p % radix + radix)) (digit radix p) := by
  have hvalue := digit_value_le (p := p) hradix
  rw [digit] at hvalue ⊢
  split
  · exact stands_last h
  · next hp =>
      rw [if_neg hp] at hvalue
      exact stands_more (Nat.lt_of_le_of_lt hvalue h)

/-! ## Numbers summed as doubles -/

/-- The accumulators of a number summed as doubles: the sum is exact, and so is the
weight of the next digit as long as a positive digit can follow. -/
structure Holds (base m w : ℕ) (mf wf : Double) : Prop where
  sum : mf = .ofNat m
  sum_le : m ≤ 2 ^ 53
  weight : wf = .ofNat w
  pos : 0 < w
  weight_le : w ≤ 2 ^ 53 * base

theorem Holds.start {base : ℕ} (h : 0 < base) : Holds base 0 1 .zero .one := by
  refine ⟨Double.ofNat_zero.symm, Nat.zero_le _, ?_, Nat.one_pos, ?_⟩
  · rw [Double.ofNat_exact (by omega), Nat.one_mul]
    rfl
  · exact Nat.mul_pos (Nat.two_pow_pos 53) h

variable {m w v : ℕ} {mf wf : Double}

theorem Holds.add (h : Holds base m w mf wf) (hbase : base ≤ 2 ^ 53)
    (hle : m + w * v ≤ 2 ^ 53) : mf.add (wf.mul (.ofNat v)) = .ofNat (m + w * v) := by
  rw [h.sum, h.weight]
  rcases Nat.eq_zero_or_pos v with rfl | hv
  · have hfin : w < 2 ^ 1000 :=
      calc w ≤ 2 ^ 53 * base := h.weight_le
        _ ≤ 2 ^ 53 * 2 ^ 53 := Nat.mul_le_mul_left _ hbase
        _ = 2 ^ 106 := (Nat.pow_add 2 53 53).symm
        _ < 2 ^ 1000 := Nat.pow_lt_pow_right Nat.one_lt_two (by omega)
    rw [Double.ofNat_mul_zero hfin, Double.ofNat_add h.sum_le (Nat.zero_le _), Nat.mul_zero]
  · have hw : w ≤ w * v := Nat.le_mul_of_pos_right w hv
    have hv' : v ≤ w * v := Nat.le_mul_of_pos_left v h.pos
    rw [Double.ofNat_mul (by omega) (by omega), Double.ofNat_add h.sum_le (by omega)]

theorem Holds.more (h : Holds base m w mf wf) (hpos : 0 < base) (hbase : base ≤ 2 ^ 53)
    (hle : m + w * v ≤ 2 ^ 53) (hv : 0 < v) :
    Holds base (m + w * v) (w * base) (mf.add (wf.mul (.ofNat v))) (wf.mul (.ofNat base)) := by
  have hw : w ≤ w * v := Nat.le_mul_of_pos_right w hv
  have hw' : w ≤ 2 ^ 53 := by omega
  refine ⟨h.add hbase hle, hle, ?_, Nat.mul_pos h.pos hpos, Nat.mul_le_mul_right base hw'⟩
  rw [h.weight, Double.ofNat_mul hw' hbase]

end Varint

/-! ## Tables -/

section Tables

variable {α : Type}

/-- The last of the entries of a key. -/
def lastOf (entries : List (ℕ × α)) (u : ℕ) : Option α :=
  (entries.reverse.find? fun e => e.1 = u).map (·.2)

theorem lastOf_append (entries : List (ℕ × α)) (e : ℕ × α) (u : ℕ) :
    lastOf (entries ++ [e]) u = if e.1 = u then some e.2 else lastOf entries u := by
  rw [lastOf, List.reverse_append, List.reverse_singleton, List.singleton_append, List.find?_cons]
  by_cases h : e.1 = u
  · rw [if_pos h, decide_eq_true h]
    rfl
  · rw [if_neg h, decide_eq_false h, lastOf]

theorem lastOf_map {β : Type} (f : α → β) (entries : List (ℕ × α)) (u : ℕ) :
    lastOf (entries.map fun e => (e.1, f e.2)) u = (lastOf entries u).map f := by
  rw [lastOf, lastOf, ← List.map_reverse, List.find?_map, Option.map_map, Option.map_map]
  rfl

theorem lastOf_mem {entries : List (ℕ × α)} {u : ℕ} {c : α} (h : lastOf entries u = some c) :
    (u, c) ∈ entries := by
  obtain ⟨e, he, rfl⟩ := Option.map_eq_some_iff.1 h
  have hu : e.1 = u := by simpa using List.find?_some he
  rw [← hu]
  exact List.mem_reverse.1 (List.mem_of_find?_eq_some he)

/-- Sets the entry of a key in an association list. -/
def put : List (ℕ × α) → ℕ → α → List (ℕ × α)
  | [], u, c => [(u, c)]
  | (v, d) :: xs, u, c => if v = u then (v, c) :: xs else (v, d) :: put xs u c

/-- The entry of a key in an association list. -/
def get (xs : List (ℕ × α)) (u : ℕ) : Option α := (xs.find? fun e => e.1 = u).map (·.2)

theorem get_put (xs : List (ℕ × α)) (u : ℕ) (c : α) (v : ℕ) :
    get (put xs u c) v = if u = v then some c else get xs v := by
  induction xs with
  | nil =>
      rw [put, get, List.find?_cons]
      by_cases h : u = v
      · rw [if_pos h, decide_eq_true h]
        rfl
      · rw [if_neg h, decide_eq_false h]
        rfl
  | cons e xs ih =>
      obtain ⟨k, d⟩ := e
      rw [put]
      by_cases hk : k = u
      · rw [if_pos hk, get, get, List.find?_cons, List.find?_cons]
        by_cases h : u = v
        · rw [if_pos h, decide_eq_true (hk.trans h)]
          rfl
        · rw [if_neg h, decide_eq_false (fun hkv => h (hk.symm.trans hkv))]
      · rw [if_neg hk, get, get, List.find?_cons, List.find?_cons]
        by_cases hkv : k = v
        · have hne : ¬ u = v := fun h => hk (hkv.trans h.symm)
          rw [if_neg hne, decide_eq_true hkv]
        · rw [decide_eq_false hkv]
          exact ih

/-- The entries put one after the other: the last one of a key is found. -/
theorem get_foldl_put (entries : List (ℕ × α)) (v : ℕ) :
    get (entries.foldl (fun xs e => put xs e.1 e.2) []) v = lastOf entries v := by
  induction entries using List.reverseRecOn with
  | nil => rfl
  | append_singleton entries e ih =>
      rw [List.foldl_append, List.foldl_cons, List.foldl_nil, get_put, lastOf_append, ih]

/-- The entries of the keys below a limit, and those of the others. -/
structure Table (α : Type) where
  ascii : ℕ → α
  wide : List (ℕ × α)

namespace Table

variable (limit : ℕ)

def insert (t : Table α) (e : ℕ × α) : Table α :=
  if e.1 < limit then { t with ascii := Function.update t.ascii e.1 e.2 }
  else { t with wide := put t.wide e.1 e.2 }

def lookup (dflt : α) (t : Table α) (u : ℕ) : α :=
  if u < limit then t.ascii u else (get t.wide u).getD dflt

/-- The table of some entries, all others `dflt`. -/
def build (dflt : α) (entries : List (ℕ × α)) : Table α :=
  entries.foldl (insert limit) ⟨fun _ => dflt, []⟩

theorem lookup_insert (dflt : α) (t : Table α) (e : ℕ × α) (v : ℕ) :
    lookup limit dflt (insert limit t e) v = if e.1 = v then e.2 else lookup limit dflt t v := by
  rw [insert]
  by_cases hu : e.1 < limit
  · rw [if_pos hu, lookup, lookup]
    by_cases hv : v < limit
    · simp only [if_pos hv, Function.update_apply, eq_comm]
    · have hne : ¬ e.1 = v := fun h => hv (h ▸ hu)
      rw [if_neg hv, if_neg hv, if_neg hne]
  · rw [if_neg hu, lookup, lookup, get_put]
    by_cases hv : v < limit
    · have hne : ¬ e.1 = v := fun h => hu (h ▸ hv)
      rw [if_pos hv, if_pos hv, if_neg hne]
    · rw [if_neg hv, if_neg hv]
      split
      · rfl
      · rfl

/-- **The last entry of a key is found**, whichever of the two parts keeps it. -/
theorem lookup_build (dflt : α) (entries : List (ℕ × α)) (v : ℕ) :
    lookup limit dflt (build limit dflt entries) v = (lastOf entries v).getD dflt := by
  rw [build]
  induction entries using List.reverseRecOn with
  | nil =>
      show (if v < limit then dflt else dflt) = dflt
      exact ite_self dflt
  | append_singleton entries e ih =>
      rw [List.foldl_append, List.foldl_cons, List.foldl_nil, lookup_insert, lastOf_append, ih]
      split
      · rfl
      · rfl

end Table

end Tables

/-! ## The digits of a text -/

namespace Varint

/-- The digit of a unit: that of its last place in the alphabet, or zero. -/
def unitDigit (alphabet : List ℕ) (radix u : ℕ) : Digit :=
  digit radix ((lastOf alphabet.zipIdx u).getD 0)

/-- The digits of some units. -/
def digits (alphabet : List ℕ) (radix : ℕ) (units : List ℕ) : List Digit :=
  units.map (unitDigit alphabet radix)

theorem digits_positive (alphabet : List ℕ) {radix : ℕ} (h : 0 < radix) (units : List ℕ) :
    Positive (digits alphabet radix units) := by
  intro d hd hmore
  obtain ⟨u, -, rfl⟩ := List.mem_map.1 hd
  exact digit_positive h hmore

/-- The entries that tables give the units stand for their digits, if the entries of the
places of the alphabet do. -/
theorem stands_lookup {alphabet : List ℕ} {radix bits limit : ℕ} {entry : ℕ → ℕ}
    (hentry : ∀ p, p ≤ alphabet.length → Stands bits (entry p) (digit radix p)) (u : ℕ) :
    Stands bits (Table.lookup limit (entry 0)
      (Table.build limit (entry 0) (alphabet.zipIdx.map fun e => (e.1, entry e.2))) u)
      (unitDigit alphabet radix u) := by
  rw [Table.lookup_build, lastOf_map, unitDigit]
  rcases hlast : lastOf alphabet.zipIdx u with _ | p
  · exact hentry 0 (Nat.zero_le _)
  · exact hentry p (List.mem_zipIdx' (lastOf_mem hlast)).1.le

theorem stands_map {alphabet : List ℕ} {radix bits : ℕ} {entry : ℕ → ℕ}
    (h : ∀ u, Stands bits (entry u) (unitDigit alphabet radix u)) (units : List ℕ) :
    List.Forall₂ (Stands bits) (units.map entry) (digits alphabet radix units) := by
  rw [digits, List.forall₂_map_left_iff, List.forall₂_map_right_iff, List.forall₂_same]
  exact fun u _ => h u

end Varint

end Lib
end Lunar
