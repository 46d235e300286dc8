/-
# The fast decoder

`payload/disasm.rs`: `Shapes` turns the templates of a table into byte programs and
link slots, `Fast` runs a byte program over the code.  The decoded operands are
pushed to the end of a buffer that holds those of the instructions before.  The
offsets into the tables are `u32`, a slot and the number of closures of a template
are bytes.
-/

import Lunar.Payload.Disasm

namespace Lunar
namespace Disasm

open Lib (Double)
open Ir

def OP_VALUE : ℕ := 0

def OP_REG : ℕ := 1

def OP_DEST : ℕ := 2

def OP_PC : ℕ := 3

def OP_SEEK : ℕ := 0x80

def NO_SLOT : ℕ := 2 ^ 8 - 1

def TAG_SPAN : ℕ := 4096

/-- The kinds `K_REG` to `K_UNDEF` of a word. -/
inductive Kind
  | reg | str | dbl | true | false | null | undef
  deriving DecidableEq, Repr

structure Shape where
  ok : Bool
  falls : Bool
  branch : ℕ
  code : Span
  links : Span
  closures : ℕ
  deriving DecidableEq, Repr

/-- `Shape::default()`. -/
def Shape.default : Shape := ⟨.false, .false, 0, ⟨0, 0⟩, ⟨0, 0⟩, 0⟩

structure Shapes where
  code : List ℕ
  links : List ℕ
  shapes : List Shape

/-- The byte of a read. -/
def opCode : ReadKind → ℕ
  | .value => OP_VALUE
  | .reg => OP_REG
  | .dest => OP_DEST
  | .pc => OP_PC

/-- The bytes of the seeks before read `i`, and the seeks that remain. -/
def seekCodes (i : ℕ) : List Seek → List ℕ × List Seek
  | [] => ([], [])
  | s :: seeks =>
    if s.place = i then (OP_SEEK :: s.slot :: (seekCodes i seeks).1, (seekCodes i seeks).2)
    else ([], s :: seeks)

/-- The bytes of the reads from number `i` on with their seeks. -/
def readCodes (i : ℕ) (seeks : List Seek) : List ReadKind → List ℕ
  | [] => seeks.flatMap fun s => [OP_SEEK, s.slot]
  | kind :: kinds =>
    let (codes, seeks) := seekCodes i seeks
    codes ++ opCode kind :: readCodes (i + 1) seeks kinds

/-- The bytes of a template. -/
def program (t : Template) : List ℕ := readCodes 0 t.seeks t.reads

/-- The span from a place up to the end of a table, in `u32`. -/
def spanTo (start stop : ℕ) : Span :=
  ⟨start % 2 ^ 32, (stop % 2 ^ 32 + 2 ^ 32 - start % 2 ^ 32) % 2 ^ 32⟩

/-- The turn of `Shapes::new` for a template. -/
def Shapes.add (s : Shapes) : Except String Template → Shapes
  | .error _ => { s with shapes := s.shapes ++ [.default] }
  | .ok t =>
    let code := s.code ++ program t
    let links := s.links ++ t.closures ++ t.targets
    { code, links
      shapes := s.shapes ++ [{
        ok := .true
        falls := t.falls
        branch := (t.branch.map Branch.slot).getD NO_SLOT
        code := spanTo s.code.length code.length
        links := spanTo s.links.length links.length
        closures := t.closures.length % 2 ^ 8 }] }

/-- `Shapes::new`. -/
def Shapes.new (templates : List (Except String Template)) : Shapes :=
  templates.foldl Shapes.add ⟨[], [], []⟩

/-- `&xs[sp.range()]`. -/
def slice {α : Type} (xs : List α) (sp : Span) : List α := (xs.drop sp.start).take sp.len

/-- The addresses in link slots of the operands from `start` on, each with a mark if
its slot is among the first `closures`. -/
def linksOf (links : List ℕ) (closures start : ℕ) (operands : List Operand) : List (ℕ × Bool) :=
  links.zipIdx.filterMap fun (s, k) =>
    (operands[start + s]?.bind intTarget).map fun t => (t, decide (k < closures))

theorem linksOf_eq (links : List ℕ) (closures start : ℕ) (operands : List Operand) :
    linksOf links closures start operands = links.zipIdx.filterMap fun q =>
      (operands[start + q.1]?.bind intTarget).map fun t => (t, decide (q.2 < closures)) :=
  rfl

/-- The links of an instruction with a shape whose operands are those from `start` on. -/
def Shapes.linked (s : Shapes) (shape : Shape) (start : ℕ) (operands : List Operand) :
    List (ℕ × Bool) :=
  linksOf (slice s.links shape.links) shape.closures start operands

structure Fast where
  code : List (BitVec 32)
  kinds : List Kind
  tags : Tags
  valueShift : ℕ
  regShift : ℕ
  destShift : ℕ
  lenFirst : Bool
  poolLen : ℕ

/-- The tags with their kinds, in the order of `Fast::new`. -/
def Tags.kinds (t : Tags) : List (ℤ × Kind) :=
  [(t.string, .str), (t.double, .dbl), (t.true_, .true), (t.false_, .false), (t.null, .null),
    (t.undefined, .undef)]

namespace Fast

/-- The table of kinds with the kind of a tag. -/
def addKind (kinds : List Kind) (tag : ℤ × Kind) : List Kind :=
  if 0 ≤ tag.1 ∧ tag.1 < TAG_SPAN then kinds.set tag.1.toNat tag.2 else kinds

/-- `Fast::new`. -/
def new (d : Decoder) : Fast where
  code := d.code
  kinds := d.tags.kinds.foldl addKind (List.replicate TAG_SPAN .reg)
  tags := d.tags
  valueShift := d.valueShift
  regShift := d.regShift
  destShift := d.destShift
  lenFirst := d.lenFirst
  poolLen := d.poolLen

variable (f : Fast)

def word (at_ : ℕ) : Option ℤ := (f.code[at_]?).map BitVec.toInt

/-- `kind`: from the table for a small word, by comparing for the others. -/
def kind (w : ℤ) : Kind :=
  if 0 ≤ w ∧ w < TAG_SPAN then f.kinds[w.toNat]?.getD .reg
  else if w = f.tags.string then .str
  else if w = f.tags.double then .dbl
  else if w = f.tags.true_ then .true
  else if w = f.tags.false_ then .false
  else if w = f.tags.null then .null
  else if w = f.tags.undefined then .undef
  else .reg

/-- `value`: an operand and the place after it. -/
def value (at_ : ℕ) : Option (Operand × ℕ) := do
  let w ← f.word at_
  let next := at_ + 1
  if w % 2 ≠ 0 then return (.int (w >>> 1), next)
  match f.kind w with
  | .reg => return (.reg (w >>> f.valueShift), next)
  | .str =>
    let a ← f.word next
    let b ← f.word (next + 1)
    let (len, off) := if f.lenFirst then (a, b) else (b, a)
    if len < 0 ∨ off < 0 ∨ f.poolLen < off + len then none
    else return (.str ⟨off.toNat, len.toNat⟩, next + 2)
  | .dbl => return (.dbl (double (← f.word next) (← f.word (next + 1))), next + 2)
  | .true => return (.true, next)
  | .false => return (.false, next)
  | .null => return (.null, next)
  | .undef => return (.undef, next)

/-- The operand of a byte other than `OP_SEEK`. -/
def operand (op at_ : ℕ) : Option (Operand × ℕ) :=
  if op = OP_VALUE then f.value at_
  else if op = OP_REG then do return (.reg ((← f.word at_) >>> f.regShift), at_ + 1)
  else if op = OP_DEST then do
    let d := (← f.word at_) >>> f.destShift
    if d < 0 then none else return (.dest d, at_ + 1)
  else some (.pc (at_ % 2 ^ 32), at_ + 1)

/-- The loop of `decode` over the bytes of a program. -/
def run (base : ℕ) : List ℕ → ℕ → List Operand → Option (ℕ × List Operand)
  | [], at_, out => some (at_, out)
  | [op], at_, out =>
    if op ≤ OP_PC then (f.operand op at_).map fun (o, at_) => (at_, out ++ [o]) else none
  | op :: slot :: prog, at_, out =>
    if op ≤ OP_PC then
      (f.operand op at_).bind fun (o, at_) => run base (slot :: prog) at_ (out ++ [o])
    else (out[base + slot]?.bind intTarget).bind fun at_ => run base prog at_ out

/-- `decode`: the place after the instruction, its target, and the buffer. -/
def decode (pc : ℕ) (shape : Shape) (program : List ℕ) (out : List Operand) :
    Option (ℕ × Option ℕ × List Operand) := do
  let base := out.length
  let (at_, out) ← f.run base (slice program shape.code) (pc + 1) out
  let target ← if shape.branch = NO_SLOT then pure none
    else some <$> out[base + shape.branch]?.bind intTarget
  if 2 ^ 32 ≤ at_ then none else return (at_, target, out)

end Fast
end Disasm
end Lunar
