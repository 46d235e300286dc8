/-
# Disassembly of the worktime bytecode

`worktime/disassembler.rs`: `Sweep` with `operand` and `register`, `disassemble`, `double`.
A word is an `i32`; a place in the code that the source keeps in a variable goes with the
result.
-/

import Lunar.Lib.Double
import Lunar.Lib.Loop
import Lunar.Worktime.Model
import Mathlib.Algebra.Ring.Nat

namespace Lunar
namespace Worktime

open Lib (Double)

abbrev Word := BitVec 32

def HANDLER_COUNT : ℕ := 86

def SIGN_MASK : Word := BitVec.ofInt 32 (-2147483648)

def EXP_MASK : Word := 2146435072

def EXP_SHIFT : ℕ := 20

def MANT_MASK : Word := 1048575

def EXP_SPECIAL : ℤ := 2047

def EXP_BIAS : ℤ := 1075

def MIN_NORMAL_EXP : ℤ := -1022

def SUBNORMAL_SHIFT : ℤ := 1074

def IEEE_BIAS : ℤ := 1023

def MANT_BITS : ℕ := 52

def TWO_32 : Double := .ofInt 4294967296

def TWO_52 : Double := .ofInt 4503599627370496

def MAX_REG_SHIFT : ℕ := 32

structure Tags where
  string : Word
  double : Word
  true_ : Word
  false_ : Word
  null : Word
  undefined : Word
  deriving DecidableEq, Repr

structure BuildModel where
  tags : Tags
  ops : Vector Op 86
  entryPc : ℕ
  regShift : ℕ

structure Decoded where
  code : List Word
  pool : List (BitVec 16)

inductive DisassembleError
  | codeLength (len : ℕ)
  | regShift (shift : ℕ)
  | entry (entry key : ℕ)
  | opcode (pc : ℕ) (word : ℤ)
  | truncated (at_ pc last : ℕ)
  | register (at_ pc : ℕ) (word : ℤ)
  | poolRange (at_ pc : ℕ) (len off : ℤ) (pool : ℕ)
  | desync (pc key : ℕ)
  deriving DecidableEq, Repr

/-- `pow2`. -/
def pow2 (e : ℤ) : Double :=
  if MIN_NORMAL_EXP ≤ e then .ofBits (BitVec.ofInt 64 (e + IEEE_BIAS) <<< MANT_BITS)
  else .ofBits ((1 : BitVec 64) <<< (e + SUBNORMAL_SHIFT).toNat)

/-- `double`. -/
def double (hi lo : Word) : Double :=
  let sign := if hi &&& SIGN_MASK ≠ 0 then Double.one.neg else .one
  let exp := ((hi &&& EXP_MASK).sshiftRight EXP_SHIFT).toInt
  let x := ((Double.ofInt (hi &&& MANT_MASK).toInt).mul TWO_32).add (.ofInt lo.toNat)
  if exp = EXP_SPECIAL then
    if ¬ x.eq .zero then .nan else sign.mul (.inf .false)
  else
    let (x, exp) := if exp ≠ 0 then (x.add TWO_52, exp) else (x, exp + 1)
    (sign.mul x).mul (pow2 (exp - EXP_BIAS))

/-- `Sweep`. -/
structure Sweep where
  code : List Word
  poolLen : ℕ
  tags : Tags
  shift : ℕ
  at_ : ℕ

namespace Sweep

variable (s : Sweep)

def word (pc : ℕ) : Except DisassembleError Word :=
  match s.code[pc]? with
  | some w => .ok w
  | none => .error (.truncated s.at_ pc s.code.length)

def reg (pc : ℕ) (word : Word) : Except DisassembleError ℕ :=
  if word.toInt < 0 then .error (.register s.at_ pc word.toInt)
  else .ok (word.sshiftRight s.shift).toNat

def register (pc : ℕ) : Except DisassembleError (ℕ × ℕ) := do
  let word ← s.word pc
  return (← s.reg pc word, pc + 1)

def operand (pc : ℕ) : Except DisassembleError (Operand × ℕ) := do
  let word ← s.word pc
  if word &&& 1 ≠ 0 then return (.int (word.sshiftRight 1).toInt, pc + 1)
  else if word = s.tags.string then
    let len ← s.word (pc + 1)
    let off ← s.word (pc + 2)
    if len.toInt < 0 ∨ off.toInt < 0 ∨ s.poolLen < off.toNat + len.toNat then
      .error (.poolRange s.at_ pc len.toInt off.toInt s.poolLen)
    else return (.str ⟨off.toNat, len.toNat⟩, pc + 3)
  else if word = s.tags.true_ then return (.true, pc + 1)
  else if word = s.tags.null then return (.null, pc + 1)
  else if word = s.tags.false_ then return (.false, pc + 1)
  else if word = s.tags.undefined then return (.undef, pc + 1)
  else if word = s.tags.double then
    let hi ← s.word (pc + 1)
    let lo ← s.word (pc + 2)
    return (.dbl (Worktime.double hi lo).toBits, pc + 3)
  else return (.reg (← s.reg pc word), pc + 1)

/-- The operand of a slot. -/
def slot (pc : ℕ) : Slot → Except DisassembleError (Operand × ℕ)
  | .operand => s.operand pc
  | .register => do
    let (r, pc) ← s.register pc
    return (.reg r, pc)

/-- The operands of slots. -/
def args : ℕ → List Slot → Except DisassembleError (List Operand × ℕ)
  | pc, [] => .ok ([], pc)
  | pc, slot :: slots => do
    let (arg, pc) ← s.slot pc slot
    let (args, pc) ← args pc slots
    return (arg :: args, pc)

/-- The register for the result, if there is one. -/
def dest (pc : ℕ) (dest : Bool) : Except DisassembleError (Option ℕ × ℕ) :=
  if dest then do
    let (d, pc) ← s.register pc
    return (some d, pc)
  else .ok (none, pc)

end Sweep

section Disassemble

variable (model : BuildModel) (decoded : Decoded)

/-- The sweep at a place. -/
def sweepAt (pc : ℕ) : Sweep := ⟨decoded.code, decoded.pool.length, model.tags, model.regShift, pc⟩

/-- The instruction at a place. -/
def instrAt (pc : ℕ) : Except DisassembleError (Instr × ℕ) := do
  let sweep := sweepAt model decoded pc
  let raw := decoded.code.getD pc 0
  match model.ops.toList[raw.toNat]? with
  | none => .error (.opcode pc raw.toInt)
  | some op =>
    let (args, next) ← sweep.args (pc + 1) op.shape.slots
    let (dest, next) ← sweep.dest next op.shape.dest
    return (⟨pc % 2 ^ 32, op, args, dest⟩, next)

/-- A turn of the loop, at a place after some instructions; an error ends the loop. -/
def turn (key : ℕ) : Except DisassembleError (ℕ × List Instr) →
    Option (Except DisassembleError (ℕ × List Instr))
  | .error _ => none
  | .ok (pc, instrs) =>
    if pc < key then
      some ((instrAt model decoded pc).map fun (ins, pc) => (pc, instrs ++ [ins]))
    else none

/-- `disassemble`, if its loop ends within `n` turns. -/
def disassemble (n : ℕ) : Option (Except DisassembleError (List Instr)) :=
  let len := decoded.code.length
  let key := len - 1
  if len < 2 ∨ 2 ^ 32 - 1 < len then some (.error (.codeLength len))
  else if MAX_REG_SHIFT ≤ model.regShift then some (.error (.regShift model.regShift))
  else if key < model.entryPc then some (.error (.entry model.entryPc key))
  else (Lib.loop (turn model decoded key) n (.ok (model.entryPc, []))).map fun r => do
    let (pc, instrs) ← r
    if pc ≠ key then .error (.desync pc key) else return instrs

end Disassemble

end Worktime
end Lunar
