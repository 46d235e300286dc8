/-
# The program that the field analysis runs over

`worktime/fc.rs`: `KeyName`, `Aux`, `Block`, `Func`, `Program` with its look-ups
`targets` and `var`, and the reading of an operand.  An index that is absent
(`NONE`) is `none`.  `Block` and `Program` keep the fields that the solver reads.
-/

import Lunar.Worktime.Model
import Lunar.Worktime.Fc.Domain

namespace Lunar
namespace Fc

open Worktime (Instr Op Operand)

inductive KeyName
  | units (u : List UInt16)
  | index (i : Int)
  | lit (l : ℕ)
  deriving DecidableEq, Repr

/-- `Aux`: the name of the key of a property access, the operands that are the
name of the header, and the site or the function of an allocation. -/
structure Aux where
  key : Option ℕ
  hdr : ℕ
  site : ℕ
  deriving DecidableEq, Repr

/-- `Block`: the instructions from `start` up to `stop`. -/
structure Block where
  start : ℕ
  stop : ℕ
  deriving DecidableEq, Repr

/-- `Func`: its blocks are `first .. first + count` of the function blocks. -/
structure Func where
  first : ℕ
  count : ℕ
  entry : ℕ
  nregs : ℕ
  deriving DecidableEq, Repr

structure Program where
  instrs : List Instr
  aux : List Aux
  names : List KeyName
  blocks : List Block
  fblocks : List ℕ
  fsucc : List (Option ℕ × Option ℕ)
  funcs : List Func
  nvars : ℕ
  varOff : List ℕ
  varItems : List ℕ
  methodOff : List ℕ
  methodItems : List ℕ
  siteLen : List ℕ
  nallocs : ℕ
  pow : ℕ → Option ℕ
  dynKey : Option ℕ
  ffKey : Option ℕ
  hdrKey : Option ℕ

def MAX_INDEX : Int := 4096

/-- `ANY`: the index of an element that is not known. -/
def ANY : Int := -1

namespace Program

/-- `wild`: the key of a path step whose name is not known. -/
def wild (p : Program) : ℕ := p.names.length

/-- The items of `k` in a table of offsets. -/
def slice (off items : List ℕ) (k : ℕ) : List ℕ :=
  (items.take (off.getD (k + 1) 0)).drop (off.getD k 0)

/-- `Program::targets`: the functions that a callee may be. -/
def targets (p : Program) (c : Tag Callee) : List ℕ :=
  match c.get with
  | some (.entry f) => [f]
  | some (.var id) => slice p.varOff p.varItems id
  | some (.method key) => slice p.methodOff p.methodItems key
  | none => []

/-- `Program::var`. -/
def var (p : Program) (op : Operand) : Option ℕ :=
  match op with
  | .int id => if 0 ≤ id ∧ id < p.nvars then some id.toNat else none
  | _ => none

/-- `elem_len`: the elements that a site keeps apart.  The sites after those of
the program are the argument arrays of the functions. -/
def elemLen (p : Program) (site : ℕ) : ℕ :=
  if site < p.nallocs then p.siteLen.getD site 0
  else ((p.funcs[site - p.nallocs]?).map fun func => func.nregs - 4).getD 0

end Program

/-- The registers of a function with `n` registers. -/
abbrev Regs (n : ℕ) := Fin n → Val

namespace Regs

variable {n : ℕ}

/-- `regs[r]`.  Every register of a function is below its `nregs`. -/
def get (regs : Regs n) (r : ℕ) : Val := if h : r < n then regs ⟨r, h⟩ else BOTTOM

/-- `regs[r] = v`. -/
def set (regs : Regs n) (r : ℕ) (v : Val) : Regs n := fun k => if k.val = r then v else regs k

/-- `opv`: an operand that is no register has no source, and it may be the name
of the header. -/
def opv (regs : Regs n) (op : Operand) (hdr : Bool) : Val :=
  match op with
  | .reg r => regs.get r
  | _ => { PLAIN with h := if hdr then .yes else .conflict }

end Regs

/-- `bit`. -/
def bit (hdr k : ℕ) : Bool := hdr.testBit k

end Fc
end Lunar
