/-
# The blocks of a devirtualised function

`payload/devirt.rs`: the control flow of `Pass::function`, and `Pass::thread`.  Blocks of
jumps alone are skipped, a block that one jump leads to and nothing else is put behind the
jump, and the blocks that are left get numbers in a row.  An array with a place for each
block is a function.  `instr`, which gives the statements of an instruction and its branch
condition if the handler has a template, is a parameter.
-/

import Lunar.Payload.Decompile
import Lunar.Payload.Devirt

namespace Lunar
namespace Devirt

section Function

variable (instr : ℕ → Option (List Stmt × Option Expr)) (fblocks : List Decompile.Block)

/-- `empty_body` of an instruction's handler: it has a template, without statements and
without a branch. -/
def emptyBody (ix : ℕ) : Bool :=
  match instr ix with
  | some ([], none) => true
  | _ => false

def instrs (i : ℕ) : List ℕ := (fblocks[i]?.map Decompile.Block.instrs).getD []

def term (i : ℕ) : Decompile.Term := (fblocks[i]?.map Decompile.Block.term).getD .invalid

/-- `target`: the block at a pc, the last one in `pc_map`. -/
def target (pc : ℕ) : Option ℕ :=
  fblocks.zipIdx.foldl (fun m b => if b.1.pc = pc then some b.2 else m) none

/-- The pc that a block of jumps alone goes on at. -/
def jumpPc : Decompile.Term → Option ℕ
  | .jump pc | .next pc => some pc
  | _ => none

def empty (i : ℕ) : Bool :=
  (jumpPc (term fblocks i)).isSome && (instrs fblocks i).all (emptyBody instr)

/-- The loop of `resolve`, with a number of steps left. -/
def resolveFrom : ℕ → ℕ → Option ℕ
  | 0, li => some li
  | n + 1, li =>
    if empty instr fblocks li then
      match jumpPc (term fblocks li) with
      | some pc => (target fblocks pc).bind (resolveFrom n)
      | none => some li
    else some li

def resolve (li : ℕ) : Option ℕ := resolveFrom instr fblocks fblocks.length li

/-- `resolve` of the block at a pc. -/
def lands (pc : ℕ) : Option ℕ := (target fblocks pc).bind (resolve instr fblocks)

def entry : Option ℕ := resolve instr fblocks 0

/-- `rsucc`. -/
def rsucc (i : ℕ) : Option ℕ × Option ℕ :=
  if empty instr fblocks i then (none, none)
  else match term fblocks i with
    | .jump pc | .next pc | .dynamic (some pc) => (lands instr fblocks pc, none)
    | .branch _ _ t fall => (lands instr fblocks t, lands instr fblocks fall)
    | _ => (none, none)

/-- The edges, by the blocks where they lead. -/
def edges : List ℕ :=
  (List.range fblocks.length).flatMap fun i =>
    (rsucc instr fblocks i).1.toList ++ (rsucc instr fblocks i).2.toList

def preds (t : ℕ) : ℕ := (edges instr fblocks).count t

/-- `next`: the block that is put behind a block. -/
def next (i : ℕ) : Option ℕ :=
  if empty instr fblocks i then none
  else match jumpPc (term fblocks i), (rsucc instr fblocks i).1 with
    | some _, some t =>
      if t ≠ i ∧ some t ≠ entry instr fblocks ∧ preds instr fblocks t = 1 ∧
        ¬ empty instr fblocks t then some t
      else none
    | _, _ => none

def absorbed (t : ℕ) : Bool :=
  (List.range fblocks.length).any fun i => next instr fblocks i = some t

def heads : List ℕ :=
  ((entry instr fblocks).filter (!absorbed instr fblocks ·)).toList ++
    (List.range fblocks.length).filter fun i =>
      !empty instr fblocks i && !absorbed instr fblocks i && some i ≠ entry instr fblocks

/-- `out_of`, from number `first` on. -/
def outOf (first i : ℕ) : Option ℕ := ((heads instr fblocks).idxOf? i).map (first + ·)

/-- The blocks from `cur` on that are not in a block yet, with a number of turns left. -/
def walk (visited : List ℕ) : ℕ → Option ℕ → List ℕ
  | 0, _ | _, none => []
  | n + 1, some cur =>
    if cur ∈ visited then [] else cur :: walk (cur :: visited) n (next instr fblocks cur)

/-- An instruction after others. -/
def lowerInstr (s : List Stmt × Option Expr × Bool) (ix : ℕ) : List Stmt × Option Expr × Bool :=
  match instr ix with
  | some (stmts, cond) => (s.1 ++ stmts, cond, s.2.2)
  | none => (s.1, s.2.1, .true)

/-- The statements of instructions, the condition of the last one, and whether one of them
has no template. -/
def lower (ixs : List ℕ) : List Stmt × Option Expr × Bool :=
  ixs.foldl (lowerInstr instr) ([], none, .false)

/-- The end of a block whose last part is `last`. -/
def blockTerm (first last : ℕ) (cond : Option Expr) (broken : Bool) : Term :=
  let map := fun (t : Option ℕ) => t.bind (outOf instr fblocks first)
  let s := rsucc instr fblocks last
  if broken then .invalid
  else match term fblocks last with
    | .jump _ | .next _ => (map s.1).elim .invalid .goto
    | .branch _ when _ _ =>
      match map s.1, map s.2, cond with
      | some thn, some els, some cond => .branch cond when thn els
      | _, _, _ => .invalid
    | .exit => .exit
    | .dynamic fall => .dynamic (fall.bind fun _ => map s.1)
    | .invalid => .invalid

/-- The block of a head. -/
def block (first h : ℕ) (parts : List ℕ) : Block :=
  let (top, cond, broken) := lower instr (parts.flatMap (instrs fblocks))
  { pc := (fblocks[h]?.map Decompile.Block.pc).getD 0
    body := top
    term := blockTerm instr fblocks first (parts.getLastD h) cond broken
    live := true }

/-- The blocks of heads. -/
def blocksFrom (first : ℕ) (visited : List ℕ) : List ℕ → List Block
  | [] => []
  | h :: hs =>
    let parts := walk instr fblocks visited (fblocks.length + 1) (some h)
    block instr fblocks first h parts :: blocksFrom first (parts ++ visited) hs

/-- The blocks of `function` before `registers` and `thread`, from number `first` on. -/
def function (first : ℕ) : List Block :=
  if fblocks = [] then [] else blocksFrom instr fblocks first [] (heads instr fblocks)

end Function

section Thread

variable (first : ℕ) (blocks : List Block)

/-- Block number `t`. -/
def blockAt (t : ℕ) : Option Block := if first ≤ t then blocks[t - first]? else none

/-- `resolve` of `thread`, with a number of steps left. -/
def threadFrom : ℕ → ℕ → ℕ
  | 0, t => t
  | n + 1, t =>
    match blockAt first blocks t with
    | some b =>
      match b.term with
      | .goto t' => if b.body.isEmpty ∧ t' ≠ t then threadFrom n t' else t
      | _ => t
    | none => t

/-- The end of a block with its targets threaded. -/
def threadTerm : Term → Term
  | .goto t => .goto (threadFrom first blocks blocks.length t)
  | .branch cond when thn els =>
    .branch cond when (threadFrom first blocks blocks.length thn)
      (threadFrom first blocks blocks.length els)
  | .dynamic (some t) => .dynamic (some (threadFrom first blocks blocks.length t))
  | other => other

/-- The turn of `thread` for a block. -/
def threadAt (i : ℕ) : List Block :=
  blocks.modify i fun b => { b with term := threadTerm first blocks b.term }

end Thread

/-- `thread`, of the blocks from number `first` on. -/
def thread (first : ℕ) (blocks : List Block) : List Block :=
  (List.range blocks.length).foldl (threadAt first) blocks

end Devirt
end Lunar
