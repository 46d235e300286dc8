/-
# The instructions of the worktime bytecode

`worktime/model.rs`: `Op`, `Operand`, `PoolRef`, `Instr`, `Op::flow`, `Op::shape` and
`instr_index`.  A double is its 64 bits.
-/

import Mathlib.Data.Nat.Notation
import Lunar.Lib.BinarySearch

namespace Lunar
namespace Worktime

/-- `Op`, in the order of the handler numbers. -/
inductive Op
  | geRO | ltRR | jmp | jt | call3 | neOR | closure | sneRO | andRO | new | addOR | setFinally
  | xorOR | seqOR | gtRO | pushTry | halt | delete | leRO | modRR | bitNot | retUndef | andRR
  | newArr | setProp | eqOO | subOO | call1 | getExc | divRR | regExp | addRR | mulRO | mov | ret
  | shlRO | callM | geRR | ltRO | gtRR | setCatch | typeOf | setVar | seqRO | subRR | newArrN
  | newObj | addRO | inRR | toNum | call2 | setVarSelf | not | eqOR | shlRR | seqRR | subRO
  | assignVar | modRO | instanceOfRR | this | popTry | call0 | ushrRO | sneOR | global | getProp
  | orOO | sneRR | xorRR | divOR | regenRt | setVarExc | getVar | promiseCtor | addOO | jf
  | divRO | mulRR | orRR | orOR | inOR | endTry | throw | clearVar | clearExc
  deriving DecidableEq, Repr

/-- `Flow`: how an instruction goes on. -/
inductive Flow
  | next | jump | branchIfTrue | branchIfFalse | exit
  deriving DecidableEq, Repr

/-- `Op::flow`. -/
def Op.flow : Op → Flow
  | .jmp => .jump
  | .jt => .branchIfTrue
  | .jf => .branchIfFalse
  | .ret | .retUndef | .throw | .halt => .exit
  | _ => .next

inductive Slot
  | operand
  | register
  deriving DecidableEq, Repr

structure Shape where
  slots : List Slot
  dest : Bool
  deriving DecidableEq, Repr

/-- `Op::shape`. -/
def Op.shape : Op → Shape
  | .halt | .retUndef | .clearExc => ⟨[], .false⟩
  | .newArr | .getExc | .newObj | .this | .regenRt | .promiseCtor => ⟨[], .true⟩
  | .jmp | .setFinally | .pushTry | .ret | .setCatch | .setVarSelf | .popTry | .setVarExc | .endTry
  | .throw | .clearVar => ⟨[.operand], .false⟩
  | .bitNot | .mov | .typeOf | .newArrN | .toNum | .not | .call0 | .global | .getVar =>
    ⟨[.operand], .true⟩
  | .jt | .jf | .setVar | .assignVar => ⟨[.operand, .operand], .false⟩
  | .new | .delete | .eqOO | .subOO | .call1 | .regExp | .getProp | .orOO | .addOO =>
    ⟨[.operand, .operand], .true⟩
  | .setProp | .callM => ⟨[.operand, .operand, .operand], .false⟩
  | .closure | .call2 => ⟨[.operand, .operand, .operand], .true⟩
  | .call3 => ⟨[.operand, .operand, .operand, .operand], .true⟩
  | .geRO | .sneRO | .andRO | .gtRO | .leRO | .mulRO | .shlRO | .ltRO | .seqRO | .addRO | .subRO
  | .modRO | .ushrRO | .divRO => ⟨[.register, .operand], .true⟩
  | .neOR | .addOR | .xorOR | .seqOR | .eqOR | .sneOR | .divOR | .orOR | .inOR =>
    ⟨[.operand, .register], .true⟩
  | .ltRR | .modRR | .andRR | .divRR | .addRR | .geRR | .gtRR | .subRR | .inRR | .shlRR | .seqRR
  | .instanceOfRR | .sneRR | .xorRR | .mulRR | .orRR => ⟨[.register, .register], .true⟩

/-- `PoolRef`: a string of the pool. -/
structure PoolRef where
  off : ℕ
  len : ℕ
  deriving DecidableEq, Repr

inductive Operand
  | int (i : Int)
  | str (r : PoolRef)
  | dbl (bits : BitVec 64)
  | true
  | false
  | null
  | undef
  | reg (r : ℕ)
  deriving DecidableEq, Repr

/-- `Instr`.  `args` are the operands in use; the unused slots of the source's
array are left out. -/
structure Instr where
  pc : ℕ
  op : Op
  args : List Operand
  dest : Option ℕ
  deriving DecidableEq, Repr

/-- The operand in a slot.  A slot that is not in use holds `Operand::Undef`. -/
def Instr.arg (ins : Instr) (k : ℕ) : Operand := ins.args.getD k Operand.undef

/-- `instr_index`. -/
def instrIndex (instrs : List Instr) (pc : ℕ) : Option ℕ := Lib.binarySearch (instrs.map Instr.pc) pc

end Worktime
end Lunar
