/-
# The sort of the interpreter

`payload/exec.rs`: `timsort` with all that it calls.  The array is taken apart into runs, which are
merged from a stack; a merge copies one of its two runs and gallops through the other.

The sort looks at its elements only by comparing two of them, so it is a program that asks
(`Lib.Prog`): the answer to `(x, y)` is whether `sort_compare` of them is below zero.  A number
that is no number counts as zero there, so that `o >= 0.0` is the negation of `o < 0.0`.  An index
out of range fails, and so does a number below zero where there is none.

`gallop_left` and `gallop_right` differ in which element they compare with which (`gallop`), and
`merge_low` and `merge_high` in which run they copy and in the order of a turn of the galloping
loop; their loops are the same on what is left of the two runs (`Sides`).
-/

import Lunar.Lib.Prog
import Mathlib.Data.Nat.Notation

namespace Lunar
namespace Timsort

open Lib (Prog)

def SORT_MIN_GALLOP : ℕ := 7

def SORT_MIN_MERGE : ℕ := 64

/-- Programs that compare elements. -/
abbrev Sorting (α β : Type) := Prog Empty Unit (fun _ : α × α => Bool) β

variable {α σ : Type}

/-- `sort_compare(x, y) < 0.0`. -/
def less (x y : α) : Sorting α Bool := Prog.query (x, y)

/-- An `isize` as a `usize`. -/
def toUsize (i : ℤ) : Sorting α ℕ := if 0 ≤ i then return i.toNat else .fail

/-! ## Arrays -/

def get (w : List α) (i : ℕ) : Sorting α α :=
  match w[i]? with
  | some a => return a
  | none => .fail

/-- `w[i..i + n]`. -/
def slice (w : List α) (i n : ℕ) : Sorting α (List α) :=
  if i + n ≤ w.length then return (w.drop i).take n else .fail

/-- `w[i..i + xs.len()].clone_from_slice(xs)`. -/
def paste (w : List α) (i : ℕ) (xs : List α) : Sorting α (List α) :=
  if i + xs.length ≤ w.length then return w.take i ++ xs ++ w.drop (i + xs.length) else .fail

def put (w : List α) (i : ℕ) (a : α) : Sorting α (List α) := paste w i [a]

/-- The loop of `move_within` from the first element on. -/
def moveDown (w : List α) (src dst : ℕ) : ℕ → Sorting α (List α)
  | 0 => return w
  | n + 1 => do moveDown (← put w dst (← get w src)) (src + 1) (dst + 1) n

/-- The loop of `move_within` from the last element on. -/
def moveUp (w : List α) (src dst : ℕ) : ℕ → Sorting α (List α)
  | 0 => return w
  | n + 1 => do moveUp (← put w (dst + n) (← get w (src + n))) src dst n

def moveWithin (w : List α) (src dst n : ℕ) : Sorting α (List α) :=
  if src < dst then moveUp w src dst n else moveDown w src dst n

/-! ## Galloping -/

/-- The first loop of a gallop, where `go` says whether it goes on from an offset. -/
def leap (go : ℤ → Sorting α Bool) (max : ℤ) : ℕ → ℤ → ℤ → Sorting α (ℤ × ℤ)
  | 0, _, _ => .fail
  | fuel + 1, last, offset =>
    if offset < max then do
      if ← go offset then
        let next := 2 * offset + 1
        leap go max fuel offset (if next ≤ 0 then max else next)
      else return (last, offset)
    else return (last, offset)

/-- The loop of a binary search, where `behind` says whether it goes on behind `m`. -/
def narrow (behind : ℤ → Sorting α Bool) : ℕ → ℤ → ℤ → Sorting α ℤ
  | 0, _, _ => .fail
  | fuel + 1, last, offset =>
    if last < offset then do
      let m := last + (offset - last) / 2
      if ← behind m then narrow behind fuel (m + 1) offset
      else narrow behind fuel last m
    else return offset

/-- The two ends that the first loop leaves when it starts at `hint`. -/
def leapFrom (behind : ℤ → Sorting α Bool) (length hint : ℕ) : Sorting α (ℤ × ℤ) := do
  if ← behind hint then
    let max : ℤ := length - hint
    let (last, offset) ← leap (fun o => behind (hint + o)) max (length + 1) 0 1
    return (last + hint, min offset max + hint)
  else
    let max : ℤ := hint + 1
    let (last, offset) ← leap (fun o => do return !(← behind (hint - o))) max (length + 1) 0 1
    return (hint - min offset max, hint - last)

/-- A gallop among `length` elements, where `behind` says whether it goes on behind one. -/
def gallop (behind : ℤ → Sorting α Bool) (length hint : ℕ) : Sorting α ℕ := do
  let (last, offset) ← leapFrom behind length hint
  toUsize (← narrow behind (length + 1) (last + 1) offset)

def gallopLeft (a : List α) (key : α) (base length hint : ℕ) : Sorting α ℕ :=
  gallop (fun i => do less (← get a (← toUsize (base + i))) key) length hint

def gallopRight (a : List α) (key : α) (base length hint : ℕ) : Sorting α ℕ :=
  gallop (fun i => do return !(← less key (← get a (← toUsize (base + i))))) length hint

/-! ## Runs -/

/-- The loop of `count_and_make_run` over the `n` places from `idx` on. -/
def extend (w : List α) (desc : Bool) : ℕ → ℕ → α → ℕ → Sorting α ℕ
  | 0, _, _, run => return run
  | n + 1, idx, prev, run => do
    let cur ← get w idx
    if (← less cur prev) = desc then extend w desc n (idx + 1) cur (run + 1) else return run

def countAndMakeRun (w : List α) (lowArg high : ℕ) : Sorting α (ℕ × List α) := do
  let low := lowArg + 1
  if low = high then return (1, w)
  let el ← get w low
  let desc ← less el (← get w (low - 1))
  let run ← extend w desc (high - (low + 1)) (low + 1) el 2
  if desc then return (run, ← paste w lowArg (← slice w lowArg run).reverse)
  else return (run, w)

/-- The loop of `binary_insertion_sort` over the `n` places from `start` on.  Its inner loop moves
what is behind `left` up by one. -/
def insertAll (w : List α) (low : ℕ) : ℕ → ℕ → Sorting α (List α)
  | 0, _ => return w
  | n + 1, start => do
    let pivot ← get w start
    let left ← toUsize (← narrow (fun m => do return !(← less pivot (← get w (← toUsize m))))
      (start + 1) low start)
    let w ← moveUp w left (left + 1) (start - left)
    insertAll (← put w left pivot) low n (start + 1)

def binaryInsertionSort (w : List α) (low startArg high : ℕ) : Sorting α (List α) :=
  let start := if low = startArg then startArg + 1 else startArg
  insertAll w low (high - start) start

/-! ## The loops of a merge -/

inductive MergeEnd
  | succeed
  | copy

/-- What the loops of a merge do with the run that has been copied to `tmp`, and with the one that
has stayed in the array: how much is left of it, taking the next element, and galloping, which
takes all elements that come before the next one of the other run and counts them. -/
structure Sides (α σ : Type) where
  copied : σ → ℤ
  stayed : σ → ℤ
  /-- Whether the next element is the one that has stayed. -/
  compare : σ → Sorting α Bool
  takeCopied : σ → Sorting α σ
  takeStayed : σ → Sorting α σ
  gallopCopied : σ → Sorting α (σ × ℕ)
  gallopStayed : σ → Sorting α (σ × ℕ)

namespace Sides

/-- Programs that `break 'merge` ends.  At every such place `*min_gallop` is `mg`. -/
abbrev M (α σ β : Type) := ExceptT (MergeEnd × σ × ℕ) (Sorting α) β

variable (S : Sides α σ)

/-- The tests after an element that had stayed has been taken. -/
def endStayed (mg : ℕ) (s : σ) : M α σ Unit :=
  if S.stayed s = 0 then throw (.succeed, s, mg) else return ⟨⟩

/-- The tests after a copied element has been taken. -/
def endCopied (mg : ℕ) (s : σ) : M α σ Unit :=
  if S.copied s = 1 then throw (.copy, s, mg) else return ⟨⟩

/-- The loop that takes one element after the other; `c` and `d` count how many the copied run and
the other one have given in a row. -/
def singles (mg : ℕ) : ℕ → σ → ℕ → ℕ → M α σ (σ × ℕ × ℕ)
  | 0, _, _, _ => ExceptT.lift .fail
  | fuel + 1, s, c, d => do
    if ← ExceptT.lift (S.compare s) then
      let s ← ExceptT.lift (S.takeStayed s)
      S.endStayed mg s
      if mg ≤ d + 1 then return (s, 0, d + 1) else singles mg fuel s 0 (d + 1)
    else
      let s ← ExceptT.lift (S.takeCopied s)
      S.endCopied mg s
      if mg ≤ c + 1 then return (s, c + 1, 0) else singles mg fuel s (c + 1) 0

/-- The tests after a gallop has taken `n` copied elements. -/
def endGallopCopied (mg n : ℕ) (s : σ) : M α σ Unit :=
  if 0 < n then do
    S.endCopied mg s
    if S.copied s = 0 then throw (.succeed, s, mg) else return ⟨⟩
  else return ⟨⟩

/-- The tests after a gallop has taken `n` elements that had stayed. -/
def endGallopStayed (mg n : ℕ) (s : σ) : M α σ Unit :=
  if 0 < n then S.endStayed mg s else return ⟨⟩

/-- The half of a turn that gallops through the copied run, and then takes an element of the other
one. -/
def halfCopied (mg : ℕ) (s : σ) : M α σ (σ × ℕ) := do
  let (s, c) ← ExceptT.lift (S.gallopCopied s)
  S.endGallopCopied mg c s
  let s ← ExceptT.lift (S.takeStayed s)
  S.endStayed mg s
  return (s, c)

/-- The half of a turn that gallops through the run that has stayed, and then takes a copied
element. -/
def halfStayed (mg : ℕ) (s : σ) : M α σ (σ × ℕ) := do
  let (s, d) ← ExceptT.lift (S.gallopStayed s)
  S.endGallopStayed mg d s
  let s ← ExceptT.lift (S.takeCopied s)
  S.endCopied mg s
  return (s, d)

/-- The loop that gallops; `turn` is one of its turns. -/
def gallops (turn : ℕ → σ → M α σ (σ × ℕ × ℕ)) :
    ℕ → σ → ℕ → ℕ → ℕ → Bool → M α σ (σ × ℕ)
  | 0, _, _, _, _, _ => ExceptT.lift .fail
  | fuel + 1, s, c, d, mg, first =>
    if SORT_MIN_GALLOP ≤ c ∨ SORT_MIN_GALLOP ≤ d ∨ first then do
      let mg := max (mg - 1) 1
      let (s, c, d) ← turn mg s
      gallops turn fuel s c d mg false
    else return (s, mg)

/-- The loop of a merge, which only a `break` ends. -/
def rounds (turn : ℕ → σ → M α σ (σ × ℕ × ℕ)) : ℕ → σ → ℕ → M α σ Empty
  | 0, _, _ => ExceptT.lift .fail
  | fuel + 1, s, mg => do
    let left := (S.copied s + S.stayed s).toNat
    let (s, c, d) ← S.singles mg (left + 1) s 0 0
    let (s, mg) ← gallops turn (left + 1) s c d (mg + 1) true
    rounds turn fuel s (mg + 1)

/-- The block `'merge` from where the first element has been taken on: what ends it. -/
def block (turn : ℕ → σ → M α σ (σ × ℕ × ℕ)) (s : σ) (minGallop : ℕ) :
    Sorting α (MergeEnd × σ × ℕ) := do
  let loop : M α σ Empty := do
    S.endStayed minGallop s
    S.endCopied minGallop s
    S.rounds turn ((S.copied s + S.stayed s).toNat + 1) s minGallop
  match ← loop.run with
  | .error e => return e
  | .ok never => never.elim

end Sides

/-! ## Merges -/

/-- The variables of `merge_low`. -/
structure Low (α : Type) where
  w : List α
  dest : ℕ
  ct : ℕ
  cb : ℕ
  lenA : ℕ
  lenB : ℕ

namespace Low

/-- The first `n` elements that are left of the right run. -/
def takeBs (n : ℕ) (s : Low α) : Sorting α (Low α) := do
  let w ← moveWithin s.w s.cb s.dest n
  if s.lenB < n then .fail
  else return { s with w, dest := s.dest + n, cb := s.cb + n, lenB := s.lenB - n }

/-- The first `n` elements that are left of the left run. -/
def takeAs (tmp : List α) (n : ℕ) (s : Low α) : Sorting α (Low α) := do
  let w ← paste s.w s.dest (← slice tmp s.ct n)
  if s.lenA < n then .fail
  else return { s with w, dest := s.dest + n, ct := s.ct + n, lenA := s.lenA - n }

/-- The left run is the copied one. -/
def sides (tmp : List α) : Sides α (Low α) where
  copied s := s.lenA
  stayed s := s.lenB
  compare s := do less (← get s.w s.cb) (← get tmp s.ct)
  takeCopied s := s.takeAs tmp 1
  takeStayed s := s.takeBs 1
  gallopCopied s := do
    let wa ← gallopRight tmp (← get s.w s.cb) s.ct s.lenA 0
    if 0 < wa then return (← s.takeAs tmp wa, wa) else return (s, wa)
  gallopStayed s := do
    let wb ← gallopLeft s.w (← get tmp s.ct) s.cb s.lenB 0
    if 0 < wb then return (← s.takeBs wb, wb) else return (s, wb)

/-- A turn of the loop that gallops. -/
def turn (tmp : List α) (mg : ℕ) (s : Low α) : Sides.M α (Low α) (Low α × ℕ × ℕ) := do
  let (s, wa) ← (sides tmp).halfCopied mg s
  let (s, wb) ← (sides tmp).halfStayed mg s
  return (s, wa, wb)

/-- What is left after the loops. -/
def finish (tmp : List α) (s : Low α) : MergeEnd → Sorting α (List α)
  | .succeed => do
    if 0 < s.lenA then paste s.w s.dest (← slice tmp s.ct s.lenA) else return s.w
  | .copy => do
    let w ← moveWithin s.w s.cb s.dest s.lenB
    put w (s.dest + s.lenB) (← get tmp s.ct)

end Low

def mergeLow (w : List α) (baseA lenA baseB lenB minGallop : ℕ) : Sorting α (List α × ℕ) := do
  let tmp ← slice w baseA lenA
  let s ← Low.takeBs 1 ⟨w, baseA, 0, baseB, lenA, lenB⟩
  let (e, s, minGallop) ← (Low.sides tmp).block (Low.turn tmp) s minGallop
  return (← s.finish tmp e, minGallop)

/-- The variables of `merge_high`. -/
structure High (α : Type) where
  w : List α
  dest : ℤ
  ct : ℤ
  ca : ℤ
  lenA : ℤ
  lenB : ℤ

namespace High

/-- The last `n` elements that are left of the left run. -/
def takeAs (n : ℕ) (s : High α) : Sorting α (High α) := do
  let dest := s.dest - n
  let ca := s.ca - n
  let w ← moveWithin s.w (← toUsize (ca + 1)) (← toUsize (dest + 1)) n
  return { s with w, dest, ca, lenA := s.lenA - n }

/-- The last `n` elements that are left of the right run. -/
def takeBs (tmp : List α) (n : ℕ) (s : High α) : Sorting α (High α) := do
  let dest := s.dest - n
  let ct := s.ct - n
  let w ← paste s.w (← toUsize (dest + 1)) (← slice tmp (← toUsize (ct + 1)) n)
  return { s with w, dest, ct, lenB := s.lenB - n }

/-- The right run is the copied one.  A gallop says how many elements stay before the key. -/
def sides (tmp : List α) (baseA : ℕ) : Sides α (High α) where
  copied s := s.lenB
  stayed s := s.lenA
  compare s := do less (← get tmp (← toUsize s.ct)) (← get s.w (← toUsize s.ca))
  takeCopied s := s.takeBs tmp 1
  takeStayed s := s.takeAs 1
  gallopCopied s := do
    let key ← get s.w (← toUsize s.ca)
    let k ← gallopLeft tmp key 0 (← toUsize s.lenB) (← toUsize (s.lenB - 1))
    let wb ← toUsize (s.lenB - k)
    if 0 < wb then return (← s.takeBs tmp wb, wb) else return (s, wb)
  gallopStayed s := do
    let key ← get tmp (← toUsize s.ct)
    let k ← gallopRight s.w key baseA (← toUsize s.lenA) (← toUsize (s.lenA - 1))
    let wa ← toUsize (s.lenA - k)
    if 0 < wa then return (← s.takeAs wa, wa) else return (s, wa)

/-- A turn of the loop that gallops. -/
def turn (tmp : List α) (baseA mg : ℕ) (s : High α) : Sides.M α (High α) (High α × ℕ × ℕ) := do
  let (s, wa) ← (sides tmp baseA).halfStayed mg s
  let (s, wb) ← (sides tmp baseA).halfCopied mg s
  return (s, wb, wa)

/-- What is left after the loops. -/
def finish (tmp : List α) (s : High α) : MergeEnd → Sorting α (List α)
  | .succeed => do
    if 0 < s.lenB then
      paste s.w (← toUsize (s.dest - (s.lenB - 1))) (← slice tmp 0 (← toUsize s.lenB))
    else return s.w
  | .copy => do
    let dest := s.dest - s.lenA
    let ca := s.ca - s.lenA
    let w ← moveWithin s.w (← toUsize (ca + 1)) (← toUsize (dest + 1)) (← toUsize s.lenA)
    put w (← toUsize dest) (← get tmp (← toUsize s.ct))

end High

def mergeHigh (w : List α) (baseA lenA baseB lenB minGallop : ℕ) : Sorting α (List α × ℕ) := do
  let tmp ← slice w baseB lenB
  let s ← High.takeAs 1 ⟨w, baseB + lenB - 1, (lenB : ℤ) - 1, baseA + lenA - 1, lenA, lenB⟩
  let (e, s, minGallop) ←
    (High.sides tmp baseA).block (High.turn tmp baseA) s minGallop
  return (← s.finish tmp e, minGallop)

/-! ## The stack of runs -/

/-- A run: where it starts, and its length. -/
abbrev Run := ℕ × ℕ

/-- The variables of `timsort` that a merge changes. -/
structure Stack (α : Type) where
  w : List α
  runs : List Run
  minGallop : ℕ

/-- `runs[n - 2].1 > runs[n - 1].1 + runs[n].1` from the third run on. -/
def runInvariant (runs : List Run) (n : ℕ) : Sorting α Bool :=
  if n < 2 then return true
  else
    match runs[n - 2]?, runs[n - 1]?, runs[n]? with
    | some a, some b, some c => return b.2 + c.2 < a.2
    | _, _, _ => .fail

/-- The stack in which the runs `i` and `i + 1` are one. -/
def joinRuns (runs : List Run) (i : ℕ) (joined : Run) : List Run :=
  match runs[i + 2]? with
  | some last =>
    if i + 3 = runs.length then ((runs.set i joined).set (i + 1) last).dropLast
    else (runs.set i joined).dropLast
  | none => (runs.set i joined).dropLast

def mergeAt (s : Stack α) (i : ℕ) : Sorting α (Stack α) :=
  match s.runs[i]?, s.runs[i + 1]? with
  | some (baseA, lenA), some (baseB, lenB) => do
    let runs := joinRuns s.runs i (baseA, lenA + lenB)
    let k ← gallopRight s.w (← get s.w baseB) baseA lenA 0
    let baseA := baseA + k
    let lenA := lenA - k
    if lenA = 0 then return { s with runs }
    let key ← get s.w (baseA + lenA - 1)
    let hint ← toUsize ((lenB : ℤ) - 1)
    let lenB ← gallopLeft s.w key baseB lenB hint
    if lenB = 0 then return { s with runs }
    let (w, minGallop) ←
      if lenA ≤ lenB then mergeLow s.w baseA lenA baseB lenB s.minGallop
      else mergeHigh s.w baseA lenA baseB lenB s.minGallop
    return ⟨w, runs, minGallop⟩
  | _, _ => .fail

/-- `n - 1` where the run before `n` is shorter than the one behind `n`, and else `n`. -/
def shorter (runs : List Run) (n : ℕ) : Sorting α ℕ :=
  if n = 0 then .fail
  else
    match runs[n - 1]?, runs[n + 1]? with
    | some a, some c => return if a.2 < c.2 then n - 1 else n
    | _, _ => .fail

/-- Which of the last runs `timsort` merges with the next one after a new run. -/
def mergePlace (runs : List Run) : Sorting α (Option ℕ) := do
  let n := runs.length - 2
  if !(← runInvariant runs (n + 1)) then return some (← shorter runs n)
  else if !(← runInvariant runs n) then return some (← shorter runs n)
  else
    match runs[n]?, runs[n + 1]? with
    | some a, some b => return if a.2 ≤ b.2 then some n else none
    | _, _ => .fail

/-- The loop of `timsort` after a new run. -/
def collapse : ℕ → Stack α → Sorting α (Stack α)
  | 0, _ => .fail
  | fuel + 1, s =>
    if 1 < s.runs.length then do
      match ← mergePlace s.runs with
      | some n => collapse fuel (← mergeAt s n)
      | none => return s
    else return s

/-- Which of the last runs `timsort` merges with the next one at the end. -/
def lastPlace (runs : List Run) : Sorting α ℕ :=
  let n := runs.length - 2
  if 0 < n then shorter runs n else return n

/-- The last loop of `timsort`. -/
def collapseAll : ℕ → Stack α → Sorting α (Stack α)
  | 0, _ => .fail
  | fuel + 1, s =>
    if 1 < s.runs.length then do
      collapseAll fuel (← mergeAt s (← lastPlace s.runs))
    else return s

/-- The loop of `min_run_length`. -/
def minRunLoop : ℕ → ℕ → ℕ → ℕ
  | 0, n, r => n + r
  | fuel + 1, n, r => if SORT_MIN_MERGE ≤ n then minRunLoop fuel (n / 2) (r ||| n % 2) else n + r

def minRunLength (n : ℕ) : ℕ := minRunLoop n n 0

/-- The run of `cur` elements that has been found at `low`, lengthened where it is shorter than
`min_run`. -/
def lengthen (minRun : ℕ) (w : List α) (low cur remaining : ℕ) : Sorting α (ℕ × List α) :=
  if cur < minRun then do
    let forced := min minRun remaining
    return (forced, ← binaryInsertionSort w low (low + cur) (low + forced))
  else return (cur, w)

/-- The loop of `timsort` over the runs. -/
def passes (minRun : ℕ) : ℕ → Stack α → ℕ → ℕ → Sorting α (Stack α)
  | 0, _, _, _ => .fail
  | fuel + 1, s, low, remaining =>
    if remaining ≠ 0 then do
      let (cur, w) ← countAndMakeRun s.w low (low + remaining)
      let (cur, w) ← lengthen minRun w low cur remaining
      let runs := s.runs ++ [(low, cur)]
      let s ← collapse runs.length ⟨w, runs, s.minGallop⟩
      if remaining < cur then .fail
      else passes minRun fuel s (low + cur) (remaining - cur)
    else return s

def timsort (w : List α) : Sorting α (List α) :=
  if w.length < 2 then return w
  else do
    let s ← passes (minRunLength w.length) (w.length + 1) ⟨w, [], SORT_MIN_GALLOP⟩ 0 w.length
    return (← collapseAll (s.runs.length + 1) s).w

end Timsort
end Lunar
