/-
# The layout of the cells of a payload

`payload/compute.rs`: `compute` with the functions that read the template of the cells off
the config builder.  What runs of the interpreter give is a parameter (`Runs`), and so is
what other functions find in the program (`Found`); a list of batches has its first entry
apart, since `shard_lists` takes no list shorter than `MIN_BATCHES`.
-/

import Lunar.Payload.Devirt
import Lunar.Payload.Interp.Value
import Mathlib.Algebra.Ring.Nat

namespace Lunar
namespace Compute

open Devirt (Expr Stmt Block Func)
open Interp (Val)
open Lib (Double)

def MIN_TEMPLATE : ℕ := 16

def MAX_TEMPLATE : ℕ := 2 ^ 16

inductive ComputeError
  | batches (fault : String)
  | drive (i : ℕ) (fault : String)
  | emptyBatch (i : ℕ)
  | shuffleKey
  | factory (key : String)
  | factoryRun (fault : String)
  | shuffle (fault : String)
  | permutation (len : ℕ)
  | template (len : ℕ)
  | templateInit (i : ℕ)
  | slot (slot len : ℕ)
  | metadata (survivors : ℕ)
  | serializer
  | prefixK (key : String)
  | count (template probes : ℕ)
  deriving DecidableEq, Repr

inductive Init
  | undef
  | null
  | bool (b : Bool)
  | num (n : Double)
  | str (s : String)
  deriving DecidableEq, Repr

inductive Cell
  | prefixK (i : ℕ)
  | init (i : ℕ)
  | probe (batch probe : ℕ)
  | metadata
  deriving DecidableEq, Repr

structure Probe where
  entry : ℕ
  slot : ℕ
  cell : ℕ
  deriving DecidableEq, Repr

structure Batch where
  entry : ℕ
  probes : List Probe
  deriving DecidableEq, Repr

structure Layout where
  prefixes : List String
  template : List Init
  perm : List ℕ
  batches : List Batch
  shuffleKey : String
  metadataSlot : ℕ
  metadataCell : ℕ
  cells : List Cell
  deriving DecidableEq, Repr

/-! ## The template -/

/-- `is_array_ctor`. -/
def isArrayCtor : Expr → Bool
  | .name s => s = "Array"
  | .member (.runtime .global) (.lit s) => s = "Array"
  | _ => false

/-- A whole number up to `MAX_TEMPLATE`. -/
def small (n : Double) : Option ℕ :=
  if n.ge .zero ∧ n.isInt ∧ n.le (.ofNat MAX_TEMPLATE) then some (n.toU 64) else none

/-- `new_array_len`. -/
def newArrayLen : Expr → Option ℕ
  | .new c [a] =>
    if isArrayCtor c then
      match a with
      | .num n => small (.ofBits n)
      | _ => none
    else none
  | _ => none

/-- `num_of`. -/
def numOf : Expr → Option Double
  | .num n => some (.ofBits n)
  | _ => none

/-- `index_of`. -/
def indexOf (e : Expr) : Option ℕ := (numOf e).bind small

/-- `lit_of`. -/
def litOf : Expr → Option String
  | .lit s => some s
  | _ => none

/-- `live_blocks`. -/
def liveBlocks (f : Func) : List Block := f.blocks.filter Block.live

/-- A statement of `template_len`. -/
def longer (best : Option ℕ) : Stmt → Option ℕ
  | .setReg _ val =>
    match newArrayLen val with
    | some n =>
      if (MIN_TEMPLATE ≤ n ∧ n ≤ MAX_TEMPLATE) ∧ ∀ b ∈ best, b < n then some n else best
    | none => best
  | _ => best

/-- `template_len`: the longest array of a length between `MIN_TEMPLATE` and
`MAX_TEMPLATE`. -/
def templateLen (f : Func) : Option ℕ := ((liveBlocks f).flatMap Block.body).foldl longer none

/-- `init_of`. -/
def initOf : Expr → Option Init
  | .undef => some .undef
  | .null => some .null
  | .bool b => some (.bool b)
  | .num n => some (.num (.ofBits n))
  | .lit s => some (.str s)
  | .unary .unaryNegation a => (numOf a).map fun n => .num n.neg
  | _ => none

/-- The variables of `template`. -/
structure Filling where
  found : Option (List Init)
  opened : Option ℕ
  cur : List Init

/-- A statement of `template`. -/
def templateStep (len : ℕ) (t : Filling) : Stmt → Except ComputeError Filling
  | .setReg reg val =>
    if newArrayLen val = some len then
      .ok { t with opened := some reg, cur := List.replicate len .undef }
    else if t.opened = some reg then .ok { found := some t.cur, opened := none, cur := [] }
    else .ok t
  | .setProp (.reg x) key val =>
    if t.opened = some x then
      match (indexOf key).filter (· < len) with
      | some i =>
        match initOf val with
        | some v => .ok { t with cur := t.cur.set i v }
        | none => .error (.templateInit i)
      | none => .ok t
    else .ok t
  | _ => .ok t

/-- `template`. -/
def template (f : Func) (len : ℕ) : Except ComputeError (Option (List Init)) :=
  (liveBlocks f).foldlM (fun found b => do
    let t ← b.body.foldlM (templateStep len) ⟨found, none, []⟩
    return if t.opened.isSome then some t.cur else t.found) none

/-- `var_value`. -/
def varValue (f : Func) (var : Double) : Option String :=
  ((liveBlocks f).flatMap Block.body).findSome? fun
    | .setVar key val | .declVar key val =>
      if (numOf key).any (·.eq var) then litOf val else none
    | _ => none

/-- `prop_literal`. -/
def propLiteral (f : Func) (key : String) : Option String :=
  ((liveBlocks f).flatMap Block.body).findSome? fun
    | .setProp _ k val =>
      if litOf k = some key then
        (litOf val).or
          (match val with
          | .var v | .scopeVar v => (numOf v).bind (varValue f)
          | _ => none)
      else none
    | _ => none

/-! ## The permutation -/

structure Driven where
  probes : List (ℕ × ℕ)
  shuffleKey : Option String
  deriving DecidableEq, Repr

/-- What the interpreter gives: a batch that is driven in a state, the first site that
evaluates to a function, and the items of the result of a function on an array. -/
structure Runs (σ Site Closure : Type) where
  it : σ
  drive : σ → ℕ → Except String Driven × σ
  factory : List Site → Except ComputeError (Closure × Func)
  shuffle : Closure → List Val → Except String (Option (List Val))

structure Perm where
  perm : List ℕ
  template : List Init
  func : Func

/-- A turn of the loop that checks the permutation, on it and the numbers seen. -/
def checkItem (len : ℕ) (s : List ℕ × List ℕ) : Val → Except ComputeError (List ℕ × List ℕ)
  | .num n =>
    if n.ge .zero ∧ n.isInt ∧ n.toU 64 < len ∧ n.toU 64 ∉ s.2 then
      .ok (s.1 ++ [n.toU 32], n.toU 64 :: s.2)
    else .error (.permutation len)
  | _ => .error (.permutation len)

section Permutation

variable {σ Site Closure : Type} (runs : Runs σ Site Closure)

/-- `permutation`. -/
def permutation (sites : List Site) : Except ComputeError Perm := do
  let (shuffle, func) ← runs.factory sites
  let len ← (templateLen func).elim (.error (.template 0)) .ok
  let template ← (← template func len).elim (.error (.template len)) .ok
  let identity := (List.range len).map fun i => Val.num (.ofInt i)
  let out ← (runs.shuffle shuffle identity).mapError .shuffle
  let items ← out.elim (.error (.permutation len)) .ok
  if items.length ≠ len then .error (.permutation len)
  else do
    let (perm, _) ← items.foldlM (checkItem len) ([], [])
    return ⟨perm, template, func⟩

/-! ## The layout -/

/-- What other functions find in the program: the lists of batches, the keys of the
serializer, the key and sites that are tried at first, and the sites of a key. -/
structure Found (Site : Type) where
  lists : List (ℕ × List ℕ)
  keys : Option (String × String)
  speculate : Option (String × List Site)
  factorySites : String → List Site

structure Drove where
  key : String
  driven : List Driven
  list : List ℕ

/-- The first list whose first batch registers probes. -/
def choose (fault : String) : σ → List (ℕ × List ℕ) →
    Except ComputeError (ℕ × List ℕ × Driven × σ)
  | _, [] => .error (.batches fault)
  | it, (first, rest) :: lists =>
    match runs.drive it first with
    | (.ok d, it) => if d.probes ≠ [] then .ok (first, rest, d, it) else choose fault it lists
    | (.error f, it) => choose (": " ++ f) it lists

/-- The batches of a list from number `i` on. -/
def driveRest : ℕ → σ → List ℕ → Except ComputeError (List Driven)
  | _, _, [] => .ok []
  | i, it, e :: es =>
    match runs.drive it e with
    | (.ok d, it) => do return d :: (← driveRest (i + 1) it es)
    | (.error f, _) => .error (.drive i f)

/-- `drive_all`. -/
def driveAll (lists : List (ℕ × List ℕ)) : Except ComputeError Drove := do
  let (entry, rest, first, it) ← choose runs "" runs.it lists
  let key ← first.shuffleKey.elim (.error .shuffleKey) .ok
  let others ← driveRest runs 1 it rest
  return ⟨key, first :: others, entry :: rest⟩

end Permutation

/-- The loop over the probes of a batch, from number `pi` on. -/
def writeProbes (len bi : ℕ) : ℕ → List (ℕ × ℕ) → List Cell → Except ComputeError (List Cell)
  | _, [], cur => .ok cur
  | pi, (_, slot) :: probes, cur =>
    if len ≤ slot then .error (.slot slot len)
    else writeProbes len bi (pi + 1) probes (cur.set slot (.probe (bi % 2 ^ 16) (pi % 2 ^ 16)))

/-- The loop over the batches, from number `bi` on. -/
def writeBatches (perm : List ℕ) : ℕ → List Driven → List Cell → Except ComputeError (List Cell)
  | _, [], cur => .ok cur
  | bi, d :: driven, cur => do
    let next := perm.map fun p => cur.getD p .metadata
    let cur ← writeProbes perm.length bi 0 d.probes next
    writeBatches perm (bi + 1) driven cur

/-- The cell holds what it held at first. -/
def Cell.isInit : Cell → Bool
  | .init _ => true
  | _ => false

/-- A probe is told its cell. -/
def tell (batches : List Batch) : Cell × ℕ → List Batch
  | (.probe b p, i) =>
    batches.modify b fun batch =>
      { batch with probes := batch.probes.modify p fun probe => { probe with cell := i % 2 ^ 32 } }
  | _ => batches

/-- The batches before the probes are told their cells. -/
def Drove.batches (drove : Drove) : List Batch :=
  List.zipWith (fun entry d => ⟨entry, d.probes.map fun (e, slot) => ⟨e, slot, 0⟩⟩)
    drove.list drove.driven

/-- The result for the cells after all batches and the place that is left. -/
def finish (prefixes : List String) (drove : Drove) (perm : Perm) (cur : List Cell) (slot : ℕ) :
    Layout :=
  let metadataSlot := slot % 2 ^ 32
  let cells := (List.range prefixes.length).map .prefixK ++ cur.set metadataSlot .metadata
  { prefixes
    template := perm.template
    perm := perm.perm
    batches := cells.zipIdx.foldl tell drove.batches
    shuffleKey := drove.key
    metadataSlot
    metadataCell := metadataSlot + prefixes.length
    cells }

/-- The layout for driven batches and a permutation. -/
def layout (keys : Option (String × String)) (drove : Drove) (perm : Perm) :
    Except ComputeError Layout := do
  (drove.driven.zipIdx.find? (·.1.probes.isEmpty)).elim (.ok ()) fun d => .error (.emptyBatch d.2)
  let total := (drove.driven.map (·.probes.length)).sum
  let len := perm.perm.length
  if drove.driven.any (·.shuffleKey ≠ some drove.key) then .error .shuffleKey
  else if total + 1 ≠ len then .error (.count len total)
  else do
    let (ka, kb) ← keys.elim (.error .serializer) .ok
    let pa ← (propLiteral perm.func ka).elim (.error (.prefixK ka)) .ok
    let pb ← (propLiteral perm.func kb).elim (.error (.prefixK kb)) .ok
    let cur ← writeBatches perm.perm 0 drove.driven ((List.range len).map .init)
    match (cur.zipIdx.filter (·.1.isInit)).map Prod.snd with
    | [slot] => return finish [pa, pb] drove perm cur slot
    | survivors => .error (.metadata survivors.length)

section Compute

variable {σ Site Closure : Type} (runs : Runs σ Site Closure) (found : Found Site)

/-- The permutation for a key: the sites that were tried at first, if they are for this
key, or else the sites of the key. -/
def worker (key : String) : Except ComputeError Perm :=
  match found.speculate.filter (·.1 = key) with
  | some (_, sites) => permutation runs sites
  | none =>
    if (found.factorySites key).isEmpty then .error (.factory key)
    else permutation runs (found.factorySites key)

/-- `compute`. -/
def compute : Except ComputeError Layout := do
  let drove ← driveAll runs found.lists
  let perm ← (worker runs found drove.key).mapError fun e =>
    match e with
    | .factory _ => .factory drove.key
    | other => other
  layout found.keys drove perm

end Compute

end Compute
end Lunar
