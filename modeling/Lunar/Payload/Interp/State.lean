/-
# The state of the interpreter

`payload/exec.rs`: the scopes, the value stack and the frames that `run`, `exec` and `ops`
work on, `dyn_find` and `static_slot`, and the fields of scopes and frames.

A vector that only grows at its end is a list, and the register stack a function: it is
`undefined` where the vector has not grown to.  An index that is out of range is a panic.
`birth`, `clock` and `born` are no part of the source: they number the activations, and
tell for which of them a scope and a closure were made.
-/

import Mathlib.Logic.Function.Basic
import Lunar.Payload.Interp.Lower
import Lunar.Payload.Interp.Object

namespace Lunar
namespace Interp

open Devirt (Func)

def MAX_STEPS : ℕ := 50000000

def MAX_DEPTH : ℕ := 400

/-- `Scope`. -/
structure Scope where
  cf : Option ℕ
  base : ℕ
  ret : Option Val
  extra : List (ℕ × Val)
  parent : Option ℕ
  this : Val
  callee : Val
  fields : List (ℕ × Val)
  birth : ℕ
  deriving DecidableEq, Repr

/-- `FrameRec`. -/
abbrev FrameRec := List (ℕ × Val)

/-- `Loc`. -/
inductive Loc
  | slot (i : ℕ)
  | extra (scope i : ℕ)
  deriving DecidableEq, Repr

/-- `Interp`, but for what a run does not change. -/
structure State where
  mem : Mem
  scopes : List Scope
  vals : List (Option Val)
  frames : List FrameRec
  stack : ℕ → Val
  sp : ℕ
  cfuncs : List CFunc
  compiled : ℕ × Option ℕ → Option ℕ
  fieldIds : List String
  ic : ℕ → ℕ → ℕ
  steps : ℕ
  clock : ℕ
  born : ℕ → ℕ

/-- `Names`. -/
structure Names where
  catch_ : String
  finally_ : String
  exc : String
  excVal : String
  ret : String
  retVal : String
  clears : List String
  deriving DecidableEq, Repr

/-- What a run of the interpreter is given. -/
structure Program where
  funcs : List Func
  names : Names
  statics : ℕ → Option ℕ
  host : Host

namespace Program

variable (p : Program)

/-- The field ids that `Interp::new` makes. -/
def fieldIds : List String :=
  ([p.names.catch_, p.names.finally_, p.names.exc, p.names.ret] ++ p.names.clears).foldl
    (fun ids n => (LowerM.fieldOf ids n).2) []

def fieldId (name : String) : ℕ := (LowerM.fieldOf p.fieldIds name).1

def catchF : ℕ := p.fieldId p.names.catch_
def finallyF : ℕ := p.fieldId p.names.finally_
def excF : ℕ := p.fieldId p.names.exc
def retF : ℕ := p.fieldId p.names.ret
def clears : List ℕ := p.names.clears.map p.fieldId

end Program

/-! ## Scopes and locations -/

def panic {α : Type} : Res α := .error .panic

/-- `list[i]`. -/
def index {α : Type} (list : List α) (i : ℕ) : Res α :=
  match list[i]? with
  | some x => pure x
  | none => panic

def emptyScope : Scope := ⟨none, 0, none, [], none, .global, .undef, [], 0⟩

namespace State

variable (s : State)

/-- The location of `key` in one scope, when it is declared there. -/
def findIn (i : ℕ) (sc : Scope) (key : ℕ) : Res (Option Loc) := do
  let extra := (sc.extra.findIdx? (·.1 = key)).map (Loc.extra i)
  match sc.cf with
  | none => return extra
  | some c =>
      match (← index s.cfuncs c).slotOf key with
      | none => return extra
      | some slot => do
        let at_ := sc.base + slot
        return if (← index s.vals at_).isSome then some (.slot at_) else extra

/-- `dyn_find`; `fuel` bounds the number of scopes. -/
def dynFind (key : ℕ) : ℕ → Option ℕ → Res (Option Loc)
  | _, none => pure none
  | 0, some _ => panic
  | fuel + 1, some i => do
      let sc ← index s.scopes i
      match ← s.findIn i sc key with
      | some l => return some l
      | none => dynFind key fuel sc.parent

/-- `loc_get`. -/
def locGet : Loc → Res Val
  | .slot i => do return (← index s.vals i).getD .undef
  | .extra sc i => do return (← index (← index s.scopes sc).extra i).2

/-- The scope that is `hops` scopes out from `scope`. -/
def hopOut : ℕ → ℕ → Res ℕ
  | 0, scope => pure scope
  | hops + 1, scope => do
      match (← index s.scopes scope).parent with
      | some p => hopOut hops p
      | none => panic

/-- `static_slot`. -/
def staticSlot (scope hops slot : ℕ) : Res ℕ := do
  return (← index s.scopes (← s.hopOut hops scope)).base + slot

/-- The location at a static slot, when the variable is declared there. -/
def staticLoc (scope hops slot : ℕ) : Res (Option Loc) := do
  let at_ ← s.staticSlot scope hops slot
  return if (← index s.vals at_).isSome then some (.slot at_) else none

def setVal (i : ℕ) (v : Val) : State := { s with vals := s.vals.set i (some v) }

def modScope (i : ℕ) (g : Scope → Scope) : State := { s with scopes := s.scopes.modify i g }

/-- `loc_set`. -/
def locSet (l : Loc) (v : Val) : State :=
  match l with
  | .slot i => s.setVal i v
  | .extra sc i => s.modScope sc fun x => { x with extra := x.extra.modify i fun e => (e.1, v) }

def setReg (r : ℕ) (v : Val) : State := { s with stack := Function.update s.stack r v }

/-- `frame_field`. -/
def frameField (id : ℕ) : Val := (s.frames.head?.bind (lookup id)).getD Val.undef

/-- `set_frame_field`. -/
def setFrameField (id : ℕ) (v : Val) : State :=
  { s with frames := s.frames.modifyHead (put id v) }

end State

/-- `get_field` of a scope. -/
def Scope.field (sc : Scope) (id : ℕ) : Val := (lookup id sc.fields).getD .undef

end Interp
end Lunar
