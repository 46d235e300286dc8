/-
# Decoding the operands of an instruction

`payload/disasm.rs`: `Decoder` with `value` and `decode`.  A word of the code is
read as the integer that it is as an `i32`.  The operands that the source leaves in
a buffer are part of the result.
-/

import Lunar.Lib.Double.Power
import Lunar.Payload.Ir
import Mathlib.Algebra.Ring.Int.Defs
import Mathlib.Algebra.Ring.Nat
import Mathlib.Data.Int.Bitwise

namespace Lunar
namespace Disasm

open Lib (Double)
open Ir

def SIGN_MASK : BitVec 32 := BitVec.ofInt 32 (-2147483648)

def EXP_MASK : BitVec 32 := 2146435072

def EXP_SHIFT : ℕ := 20

def MANT_MASK : BitVec 32 := 1048575

def EXP_SPECIAL : ℤ := 2047

def EXP_BIAS : ℤ := 1075

def TWO_32 : Double := .ofInt 4294967296

def TWO_52 : Double := .ofInt 4503599627370496

/-- The mark of a `pc` in no generation. -/
def NO_GEN : ℕ := 2 ^ 16 - 1

structure Tags where
  string : ℤ
  double : ℤ
  true_ : ℤ
  false_ : ℤ
  null : ℤ
  undefined : ℤ

structure Decoder where
  code : List (BitVec 32)
  tags : Tags
  valueShift : ℕ
  regShift : ℕ
  destShift : ℕ
  lenFirst : Bool
  poolLen : ℕ

/-- `int_target`. -/
def intTarget : Operand → Option ℕ
  | .int i => if 0 ≤ i then some i.toNat else none
  | .pc p => some p
  | _ => none

/-- `double`: the double in two words. -/
def double (hi lo : ℤ) : Double :=
  let hi := BitVec.ofInt 32 hi
  let sign := if hi &&& SIGN_MASK ≠ 0 then Double.one.neg else .one
  let exp := ((hi &&& EXP_MASK).sshiftRight EXP_SHIFT).toInt
  let x := ((Double.ofInt (hi &&& MANT_MASK).toInt).mul TWO_32).add
    (.ofInt (BitVec.ofInt 32 lo).toNat)
  if exp = EXP_SPECIAL then
    if ¬ x.eq .zero then .nan else sign.mul (.inf .false)
  else
    let (x, exp) := if exp ≠ 0 then (x.add TWO_52, exp) else (x, exp + 1)
    (sign.mul x).mul (Double.two.powi (exp - EXP_BIAS))

namespace Decoder

variable (dec : Decoder)

def word (at_ : ℕ) : Option ℤ := (dec.code[at_]?).map BitVec.toInt

/-- `value`: an operand and the place after it. -/
def value (at_ : ℕ) : Option (Operand × ℕ) := do
  let w ← dec.word at_
  let next := at_ + 1
  if w % 2 ≠ 0 then return (.int (w >>> 1), next)
  if w = dec.tags.string then
    let a ← dec.word next
    let b ← dec.word (next + 1)
    let (len, off) := if dec.lenFirst then (a, b) else (b, a)
    if len < 0 ∨ off < 0 ∨ dec.poolLen < off + len then none
    else return (.str ⟨off.toNat, len.toNat⟩, next + 2)
  else if w = dec.tags.double then
    return (.dbl (double (← dec.word next) (← dec.word (next + 1))), next + 2)
  else if w = dec.tags.true_ then return (.true, next)
  else if w = dec.tags.false_ then return (.false, next)
  else if w = dec.tags.null then return (.null, next)
  else if w = dec.tags.undefined then return (.undef, next)
  else return (.reg (w >>> dec.valueShift), next)

/-- One read. -/
def read (at_ : ℕ) : ReadKind → Option (Operand × ℕ)
  | .value => dec.value at_
  | .reg => do return (.reg ((← dec.word at_) >>> dec.regShift), at_ + 1)
  | .dest => do
    let d := (← dec.word at_) >>> dec.destShift
    if d < 0 then none else return (.dest d, at_ + 1)
  | .pc => some (.pc (at_ % 2 ^ 32), at_ + 1)

/-- The address in a slot. -/
def slotTarget (ops : List Operand) (slot : ℕ) : Option ℕ := ops[slot]?.bind intTarget

/-- The seeks before read `i`: the new place, and the seeks that remain. -/
def seekTo (i : ℕ) (ops : List Operand) : List Seek → ℕ → Option (ℕ × List Seek)
  | [], at_ => some (at_, [])
  | s :: seeks, at_ =>
    if s.place = i then (slotTarget ops s.slot).bind fun t => seekTo i ops seeks t
    else some (at_, s :: seeks)

/-- The reads from number `i` on. -/
def reads (i : ℕ) (seeks : List Seek) (ops : List Operand) (at_ : ℕ) :
    List ReadKind → Option (List Seek × List Operand × ℕ)
  | [] => some (seeks, ops, at_)
  | kind :: kinds => do
    let (at_, seeks) ← seekTo i ops seeks at_
    let (op, at_) ← dec.read at_ kind
    reads (i + 1) seeks (ops ++ [op]) at_ kinds

structure Decoded where
  next : ℕ
  target : Option ℕ
  deriving DecidableEq, Repr

/-- `decode`. -/
def decode (pc : ℕ) (tpl : Template) : Option (Decoded × List Operand) := do
  let (seeks, ops, at_) ← dec.reads 0 tpl.seeks [] (pc + 1) tpl.reads
  let at_ ← seeks.foldlM (fun _ s => slotTarget ops s.slot) at_
  let target ← match tpl.branch with
    | some b => some <$> slotTarget ops b.slot
    | none => pure none
  if 2 ^ 32 ≤ at_ then none else return (⟨at_, target⟩, ops)

end Decoder
end Disasm
end Lunar
