/-
# Summaries of calls

`payload/exec.rs`: `Av`, `av_truth` to `av_binary`, `summarize_case` and `summarize`.
The ops of a function are run on what is known of its values: a constant, an argument,
an exclusive or of arguments and a constant, or nothing.  The run is made twice, for
a true and for a false first argument.
-/

import Lunar.Payload.Interp.Code

namespace Lunar
namespace Interp

open Lib (Double)
open Exec (Op UnaryOperator BinaryOperator)
open Fold (toInt32 ofI32)

def SUMMARY_STEPS : ℕ := 256

/-- `Av`: what is known of a value.  `x atoms k` is the exclusive or of `k` and of the
arguments `atoms`, as integers of 32 bits. -/
inductive Av
  | c (v : Val)
  | arg (i : ℕ)
  | x (atoms : List ℕ) (k : BitVec 32)
  | unk
  deriving DecidableEq, Repr

def avTruth (v : Av) (assume : Bool) : Option Bool :=
  match v with
  | .c v => some (truthy v)
  | .arg 0 => some assume
  | _ => none

def avNum : Av → Option Double
  | .c (.num n) => some n
  | _ => none

def avInt : Av → Option (List ℕ × BitVec 32)
  | .arg i => some ([i], 0)
  | .x a c => some (a, c)
  | .c (.num n) => some ([], toInt32 n)
  | _ => none

/-- `xor_atoms`: the arguments that are in one of two sorted lists. -/
def xorAtoms : List ℕ → List ℕ → List ℕ
  | [], bs => bs
  | as, [] => as
  | a :: as, b :: bs =>
      if a = b then xorAtoms as bs
      else if a < b then a :: xorAtoms as (b :: bs)
      else b :: xorAtoms (a :: as) bs

/-- The constant zero. -/
def isZero (v : Av) : Bool := (avNum v).any (·.eq .zero)

def avOr (a b : Av) : Av :=
  match avInt a, isZero b with
  | some (atoms, k), true => .x atoms k
  | _, _ =>
    match isZero a, avInt b with
    | true, some (atoms, k) => .x atoms k
    | _, _ => .unk

def avXor (a b : Av) : Av :=
  match avInt a, avInt b with
  | some (as, j), some (bs, k) =>
      let atoms := xorAtoms as bs
      if atoms = [] then .c (.num (ofI32 (j ^^^ k))) else .x atoms (j ^^^ k)
  | _, _ => .unk

/-- `===` of two exclusive ors of the same arguments. -/
def avEq (want : Bool) (a b : Av) : Av :=
  match a, b with
  | .x as j, .x bs k => if as = bs then .c (.bool ((j == k) == want)) else .unk
  | _, _ => .unk

def avBinary (op : BinaryOperator) (a b : Av) : Av :=
  match avNum a, avNum b with
  | some x, some y => (numBinary op x y).elim .unk .c
  | _, _ =>
    match op with
    | .bitwiseOR => avOr a b
    | .bitwiseXOR => avXor a b
    | .strictEquality => avEq true a b
    | .strictInequality => avEq false a b
    | _ => .unk

def avUnary (op : UnaryOperator) (a : Av) (assume : Bool) : Av :=
  match op, a with
  | .logicalNot, v => (avTruth v assume).elim .unk fun t => .c (.bool !t)
  | .unaryNegation, .c (.num n) => .c (.num n.neg)
  | _, _ => .unk

/-- The state of the loop of `summarize_case`. -/
structure Sym where
  regs : ℕ → Av
  locals : List Av
  ip : ℕ

namespace Sym

def setReg (s : Sym) (d : ℕ) (v : Av) : Sym := { s with regs := Function.update s.regs d v }

/-- `*locals.get_mut(slot)? = v`. -/
def setLocal (s : Sym) (slot : ℕ) (v : Av) : Option Sym :=
  if slot < s.locals.length then some { s with locals := s.locals.set slot v } else none

def goto (s : Sym) (ip : ℕ) : Sym := { s with ip := ip }

end Sym

/-- One turn of the loop of `summarize_case` on an op that has been fetched: the next
state, or what the function returns. -/
def symTurn (f : CFunc) (assume : Bool) (s : Sym) (op : Op) : Option (Sym ⊕ Av) :=
  match op with
  | .num d n => some (.inl (s.setReg d (.c (.num (.ofBits n)))))
  | .const d c => (f.consts[c]?).map fun v => .inl (s.setReg d (.c v))
  | .move d r => some (.inl (s.setReg d (s.regs r)))
  | .localS d slot | .varS d 0 slot _ => (s.locals[slot]?).map fun v => .inl (s.setReg d v)
  | .decl slot v | .setVarS 0 slot _ v => (s.setLocal slot (s.regs v)).map .inl
  | .setVarK 0 slot _ n => (s.setLocal slot (.c (.num (.ofBits n)))).map .inl
  | .unary d op a => some (.inl (s.setReg d (avUnary op (s.regs a) assume)))
  | .binary d op a b => some (.inl (s.setReg d (avBinary op (s.regs a) (s.regs b))))
  | .binK d op a n => some (.inl (s.setReg d (avBinary op (s.regs a) (.c (.num (.ofBits n))))))
  | .kBin d op n b => some (.inl (s.setReg d (avBinary op (.c (.num (.ofBits n))) (s.regs b))))
  | .br c w thn els =>
      (avTruth (s.regs c) assume).map fun t => .inl (s.goto (if t = w then thn else els))
  | .brK a op n w thn els =>
      (avNum (s.regs a)).map fun x =>
        .inl (s.goto (if numCmp op x (.ofBits n) = w then thn else els))
  | .brVarK 0 slot _ op n w thn els =>
      ((s.locals[slot]?).bind avNum).map fun x =>
        .inl (s.goto (if numCmp op x (.ofBits n) = w then thn else els))
  | .jf c tgt => (avTruth (s.regs c) assume).map fun t => .inl (if t then s else s.goto tgt)
  | .jt c tgt => (avTruth (s.regs c) assume).map fun t => .inl (if t then s.goto tgt else s)
  | .j tgt => some (.inl (s.goto tgt))
  | .callee d | .this d | .global d => some (.inl (s.setReg d .unk))
  | .ret v => some (.inr (s.regs v))
  | _ => none

/-- The loop of `summarize_case`. -/
def symRun (f : CFunc) (assume : Bool) : ℕ → Sym → Option Av
  | 0, _ => none
  | steps + 1, s => do
      let op ← f.ops[s.ip]?
      match ← symTurn f assume (s.goto (s.ip + 1)) op with
      | .inl s => symRun f assume steps s
      | .inr v => some v

/-- Where `summarize_case` starts: the arguments in their registers, and the variables
that are declared from the start. -/
def symStart (f : CFunc) : Sym where
  regs r := if 4 ≤ r ∧ r < f.nregs then .arg (r - 4) else .c .undef
  locals := f.init.map fun v => v.elim .unk .c
  ip := f.entryIp

def summarizeCase (f : CFunc) (assume : Bool) : Option Av :=
  symRun f assume SUMMARY_STEPS (symStart f)

/-- The summary that the results for a true and for a false argument make. -/
def summaryOf (t f : Av) : Option Summary :=
  match t, f with
  | .c (.bool true), .c (.bool false) => some .notNot
  | .c (.bool false), .c (.bool true) => some .not
  | .c a, .c b => if strictEq a b then some (.const a) else none
  | .arg 0, .arg 0 => some .arg
  | _, _ => none

/-- `summarize`. -/
def summarize (f : CFunc) : Option Summary :=
  if f.usesArgs || !f.leaf then none
  else do summaryOf (← summarizeCase f true) (← summarizeCase f false)

end Interp
end Lunar
