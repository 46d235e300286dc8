/-
# Decompilation

`payload/decompile.rs`: `decompile`.  For each entry a search collects the instructions of
the function, counts the edges to each and marks those that start a block; then every
block is read off from its start on.  An array with a place for each instruction is a
function, and a block holds its instructions itself.
-/

import Lunar.Lib.Loop
import Lunar.Payload.Disasm.Disassemble
import Mathlib.Algebra.Ring.Nat

namespace Lunar
namespace Decompile

open Ir
open Disasm (Instr NO_INSTR BAD_INSTR intTarget slice)

def NOT_SEEN : ℕ := 2 ^ 32 - 1

structure Flow where
  ok : Bool
  falls : Bool
  ender : Bool
  dynamic : Bool
  jump : Bool
  targets : Bool
  branch : Option (ExprId × Bool)
  deriving DecidableEq, Repr

/-- `Flow::default()`. -/
def Flow.default : Flow := ⟨.false, .false, .false, .false, .false, .false, none⟩

/-- `flow_of`. -/
def flowOf : Except String Template → Flow
  | .error _ => .default
  | .ok t => {
    ok := .true
    falls := t.falls
    ender := t.branch.isSome || !t.falls || t.dynamic || !t.seeks.isEmpty
    dynamic := t.dynamic
    jump := !t.seeks.isEmpty
    targets := !t.targets.isEmpty
    branch := t.branch.map fun b => (b.cond, b.when) }

inductive Term
  | next (pc : ℕ)
  | jump (pc : ℕ)
  | branch (cond : ExprId) (when : Bool) (target fall : ℕ)
  | exit
  | dynamic (fall : Option ℕ)
  | invalid
  deriving DecidableEq, Repr

/-- `Block`: its instructions are numbers of instructions. -/
structure Block where
  pc : ℕ
  instrs : List ℕ
  term : Term
  deriving DecidableEq, Repr

structure Function where
  entry : ℕ
  blocks : List Block
  deriving DecidableEq, Repr

section Decompile

variable (dis : Disasm) (templates : List (Except String Template))

/-- `at`: the number of the instruction at a place. -/
def at_ (pc : ℕ) : Option ℕ :=
  match dis.index[pc]? with
  | some i => if i ≠ NO_INSTR ∧ i ≠ BAD_INSTR then some (i - 1) else none
  | none => none

/-- `flow`. -/
def flow (h : ℕ) : Flow := (templates[h]?.map flowOf).getD .default

/-- The flow of an instruction. -/
def flowAt (i : ℕ) : Flow := ((dis.instrs[i]?).map fun ins => flow templates ins.handler).getD .default

/-- The target and the exception targets of an instruction, where blocks start. -/
def forcedExits (ins : Instr) : List (ℕ × Bool) :=
  ins.target.toList.map (·, .true) ++
    match (flow templates ins.handler).targets, templates[ins.handler]? with
    | .true, some (.ok t) => t.targets.filterMap fun s =>
      ((slice dis.operands ins.ops)[s]?.bind intTarget).map (·, .true)
    | _, _ => []

/-- The places that an instruction is visited for, in order: the place after it and the
forced ones, each with the mark that a block starts there. -/
def exits (i : ℕ) : List (ℕ × Bool) :=
  match dis.instrs[i]? with
  | none => []
  | some ins =>
    let f := flow templates ins.handler
    if f.ok then
      (if f.falls then [(ins.next, f.ender)] else []) ++ forcedExits dis templates ins
    else []

/-- The arrays of `decompile`, and the instructions and the work of a function. -/
structure Search where
  owner : ℕ → ℕ
  preds : ℕ → ℕ
  leader : ℕ → Bool
  members : List ℕ
  work : List ℕ

/-- An array with `v` at `i`. -/
def put {α : Type} (f : ℕ → α) (i : ℕ) (v : α) : ℕ → α := fun j => if j = i then v else f j

/-- `visit`. -/
def visit (stamp : ℕ) (s : Search) (exit : ℕ × Bool) : Search :=
  match at_ dis exit.1 with
  | none => s
  | some j =>
    let s := if s.owner j ≠ stamp then
        { s with
          owner := put s.owner j stamp
          preds := put s.preds j 0
          leader := put s.leader j .false
          work := j :: s.work }
      else s
    { s with
      preds := put s.preds j (s.preds j + 1)
      leader := if exit.2 then put s.leader j .true else s.leader }

/-- A turn of the search. -/
def turn (stamp : ℕ) (s : Search) : Option Search :=
  match s.work with
  | [] => none
  | i :: work => some ((exits dis templates i).foldl (visit dis stamp)
    { s with members := s.members ++ [i], work })

/-- The arrays when the search of a function begins. -/
def begin (stamp root : ℕ) (s : Search) : Search where
  owner := put s.owner root stamp
  preds := put s.preds root 0
  leader := put s.leader root .true
  members := []
  work := [root]

/-- The starts of blocks after the search. -/
def mark (root : ℕ) (s : Search) : Search :=
  { s with leader := put (fun i =>
      if i ∈ s.members ∧ s.preds i ≠ 1 then .true else s.leader i) root .true }

/-- What follows an instruction in its block, or the end of the block. -/
def follow (stamp : ℕ) (s : Search) (i : ℕ) : Term ⊕ ℕ :=
  match dis.instrs[i]? with
  | none => .inl .invalid
  | some ins =>
    let f := flow templates ins.handler
    if ¬ f.ok then .inl .invalid
    else match f.branch with
      | some (cond, when) =>
        match ins.target with
        | some target => .inl (.branch cond when target ins.next)
        | none => .inl .invalid
      | none =>
        if ¬ f.falls then .inl (if f.dynamic then .dynamic none else .exit)
        else if f.dynamic then .inl (.dynamic (some ins.next))
        else if f.jump then .inl (.jump ins.next)
        else match at_ dis ins.next with
          | some j => if s.owner j = stamp ∧ ¬ s.leader j then .inr j else .inl (.next ins.next)
          | none => .inl .invalid

/-- The loop over a block: its instructions and its end, within `n` turns. -/
def blockFrom (stamp : ℕ) (s : Search) : ℕ → ℕ → Option (List ℕ × Term)
  | 0, _ => none
  | n + 1, i =>
    match follow dis templates stamp s i with
    | .inl term => some ([i], term)
    | .inr j => (blockFrom stamp s n j).map fun (is, term) => (i :: is, term)

/-- The blocks of a function. -/
def blocks (stamp : ℕ) (s : Search) (n : ℕ) : Option (List Block) :=
  (s.members.filter s.leader).mapM fun start =>
    (blockFrom dis templates stamp s n start).map fun (instrs, term) =>
      ⟨((dis.instrs[start]?).map Instr.pc).getD 0, instrs, term⟩

/-- The turn of `decompile` for an entry, within `n` turns of each loop. -/
def function (n : ℕ) (done : Search × List Function) (entry : ℕ × ℕ) :
    Option (Search × List Function) :=
  let stamp := entry.2 % 2 ^ 32
  match at_ dis entry.1 with
  | none => some done
  | some root => do
    let s ← Lib.loop (turn dis templates stamp) n (begin stamp root done.1)
    let s := mark root s
    let bs ← blocks dis templates stamp s n
    return (s, done.2 ++ [⟨entry.1, bs⟩])

/-- The arrays at first. -/
def Search.new : Search := ⟨fun _ => NOT_SEEN, fun _ => 0, fun _ => .false, [], []⟩

/-- `decompile`: its functions, within `n` turns of each loop. -/
def decompile (n : ℕ) : Option (List Function) :=
  (dis.entries.zipIdx.foldlM (function dis templates n) (.new, [])).map Prod.snd

end Decompile
end Decompile
end Lunar
