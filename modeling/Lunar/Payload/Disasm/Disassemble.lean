/-
# Disassembly

`payload/disasm.rs`: `disassemble`.  The loop takes a place from the work, decodes it
unless it was visited before, and puts the links of the instruction, its target and the
place after it to the work.  The work is a list with its top first; `decoded`, the places
that were decoded, is kept for the proofs only.
-/

import Lunar.Lib.Loop
import Lunar.Payload.Disasm.Fast

namespace Lunar

open Ir

namespace Disasm

def NO_INSTR : ℕ := 0

def BAD_INSTR : ℕ := 2 ^ 32 - 1

structure Instr where
  pc : ℕ
  handler : ℕ
  ops : Span
  next : ℕ
  target : Option ℕ
  deriving DecidableEq, Repr

end Disasm

structure Disasm where
  instrs : List Disasm.Instr
  operands : List Operand
  index : List ℕ
  entries : List ℕ
  deriving DecidableEq, Repr

namespace Disasm

/-- `View`: there is a permutation, and the noted generations have theirs. -/
structure View where
  decoder : Decoder
  templates : List (Except String Template)
  perms : List (List ℕ)
  genOf : List ℕ
  perms_ne : perms ≠ []
  gen_lt : ∀ g ∈ genOf, g ≠ NO_GEN → g < perms.length

namespace View

variable (view : View)

/-- The generation noted for a place, or the last one. -/
def generation (p : ℕ) : ℕ :=
  match view.genOf[p]? with
  | some g => if g ≠ NO_GEN then g else view.perms.length - 1
  | none => view.perms.length - 1

/-- The handler of the word at a place. -/
def handler (p : ℕ) : Option ℕ := do
  let raw ← view.decoder.word p
  if 0 ≤ raw then (view.perms.getD (view.generation p) [])[raw.toNat]? else none

end View

/-- The variables of `disassemble` in its loop. -/
structure Progress where
  index : List ℕ
  instrs : List Instr
  operands : List Operand
  entries : List ℕ
  work : List ℕ
  decoded : List ℕ

section Disassemble

variable (view : View) (shapes : Shapes)

/-- The turn for a place not visited before. -/
def visit (s : Progress) (pc : ℕ) : Progress :=
  let start := s.operands.length
  let handler := view.handler pc
  let shape := (handler.bind (shapes.shapes[·]?)).getD .default
  let decoded := if shape.ok then
      (Fast.new view.decoder).decode pc shape shapes.code s.operands
    else none
  match handler, decoded with
  | some handler, some (next, target, operands) =>
    let links := shapes.linked shape start operands
    { index := s.index.set pc ((s.instrs.length % 2 ^ 32 + 1) % 2 ^ 32)
      instrs := s.instrs ++
        [⟨pc, handler, ⟨start % 2 ^ 32, (operands.length - start) % 2 ^ 32⟩, next, target⟩]
      operands
      entries := s.entries ++ (links.filter Prod.snd).map Prod.fst
      work := (if shape.falls then [next] else []) ++
        (target.toList ++ ((links.map Prod.fst).reverse ++ s.work))
      decoded := s.decoded ++ [pc] }
  | _, _ => { s with index := s.index.set pc BAD_INSTR, decoded := s.decoded ++ [pc] }

/-- A turn of the loop, unless there is no work. -/
def turn (s : Progress) : Option Progress :=
  match s.work with
  | [] => none
  | pc :: work =>
    let s := { s with work }
    if view.decoder.code.length ≤ pc then some s
    else if s.index[pc]? ≠ some NO_INSTR then some s
    else some (visit view shapes s pc)

/-- The variables before the loop. -/
def start (entry : ℕ) : Progress where
  index := List.replicate view.decoder.code.length NO_INSTR
  instrs := []
  operands := []
  entries := [entry]
  work := [entry]
  decoded := []

/-- `dedup` of a vector: repeated neighbours are removed. -/
def dedup : List ℕ → List ℕ
  | [] => []
  | [x] => [x]
  | x :: y :: xs => if x = y then dedup (y :: xs) else x :: dedup (y :: xs)

/-- The result after the loop. -/
def finish (s : Progress) : Disasm where
  instrs := s.instrs
  operands := s.operands
  index := s.index
  entries := dedup (s.entries.mergeSort (· ≤ ·))

/-- `disassemble`, if the loop ends within `n` turns. -/
def disassemble (entry n : ℕ) : Option Disasm :=
  (Lib.loop (turn view (Shapes.new view.templates)) n (start view entry)).map finish

end Disassemble
end Disasm
end Lunar
