/-
# Fingerprints of handlers

`worktime/handlers.rs`: `Canonicalizer` with `prepare` and `fingerprint`.  A handler is the
stream of the nodes that the hasher enters and leaves.  An event has the byte of the kind
of its node and what the hasher reads of it; a reference also says whether it refers to a
binding of the handler, which the hasher does not read.
-/

import Lunar.Lib.Numbering
import Mathlib.Algebra.Ring.Nat

namespace Lunar
namespace Handlers

open Lib (number)

abbrev Hash := BitVec 64

def FNV_OFFSET : Hash := 0xcbf29ce484222325

def FNV_PRIME : Hash := 0x00000100000001b3

def MARK_LEAVE : BitVec 8 := 0xff

def MARK_BOUND : BitVec 8 := 0xfe

def MARK_FREE : BitVec 8 := 0xfd

def MARK_FIELD : BitVec 8 := 0xfc

/-- What the hasher reads of an `AstKind`. -/
inductive Node
  | reference (name : String) (resolved : Bool)
  | binding (name : String)
  | identifierName (name : String)
  | label (name : String)
  | number (bits : BitVec 64)
  | string (value : String)
  | boolean (value : Bool)
  | regExp (pattern : String) (flags : BitVec 8)
  | template (raw : String)
  | binary (operator : BitVec 8)
  | logical (operator : BitVec 8)
  | unary (operator : BitVec 8)
  | update (operator : BitVec 8) (pre : Bool)
  | assignment (operator : BitVec 8)
  | declaration (kind : BitVec 8)
  | objectProperty (kind : BitVec 8) (computed : Bool)
  | function (generator async : Bool)
  | other
  deriving DecidableEq, Repr

inductive Event
  | enter (ty : BitVec 8) (node : Node)
  | leave
  deriving DecidableEq, Repr

/-- The names that `Binder` collects. -/
def bound (events : List Event) : List String :=
  events.filterMap fun
    | .enter _ (.binding name) => some name
    | _ => none

/-- A handler: what refers to a binding has its name. -/
structure Handler where
  events : List Event
  resolved : ∀ ty name, .enter ty (.reference name true) ∈ events → name ∈ bound events

/-- `Hasher`: the names that have an ordinal are in the order of the ordinals. -/
structure Hasher where
  state : Hash
  ordinals : List String
  fields : List String
  seen : List String
  deriving DecidableEq, Repr

/-- A byte is mixed in. -/
def mixByte (state : Hash) (b : BitVec 8) : Hash := (state ^^^ b.setWidth 64) * FNV_PRIME

/-- `to_le_bytes` of a word of so many bytes. -/
def leBytes (bytes w : ℕ) : List (BitVec 8) :=
  (List.range bytes).map fun i => BitVec.ofNat 8 (w / 2 ^ (8 * i))

/-- The bytes of a text. -/
def textBytes (s : String) : List (BitVec 8) :=
  s.toUTF8.data.toList.map fun b => BitVec.ofNat 8 b.toNat

namespace Hasher

variable (s : Hasher)

def withState (state : Hash) : Hasher := { s with state }

def byte (b : BitVec 8) : Hasher := s.withState (mixByte s.state b)

def bytes (data : List (BitVec 8)) : Hasher := s.withState (data.foldl mixByte s.state)

def word (w : BitVec 64) : Hasher := s.bytes (leBytes 8 w.toNat)

def text (t : String) : Hasher := (s.word (BitVec.ofNat 64 t.utf8ByteSize)).bytes (textBytes t)

/-- The flag of a boolean. -/
def flag (b : Bool) : Hasher := s.byte (if b then 1 else 0)

/-- `field`, with the signatures of all fields or none. -/
def field (signatures : Option (String → Hash)) (name : String) : Hasher :=
  if name.utf8ByteSize ≠ 1 then s.text name
  else
    let s := s.byte MARK_FIELD
    match signatures with
    | some signatures => s.word (signatures name)
    | none =>
      let (ordinal, fields) := number s.fields name
      let s := { s with fields }.bytes (leBytes 4 ordinal)
      { s with seen := s.seen ++ [name] }

/-- `ident`, with the bound names of the handler. -/
def ident (bound : List String) (name : String) : Hasher :=
  if name ∈ bound then
    let (ordinal, ordinals) := number s.ordinals name
    ({ s with ordinals }.byte MARK_BOUND).bytes (leBytes 4 ordinal)
  else (s.byte MARK_FREE).text name

/-- What `enter_node` reads of a node after its kind. -/
def node (bound : List String) (signatures : Option (String → Hash)) : Node → Hasher
  | .reference name _ => s.ident bound name
  | .binding name => s.ident bound name
  | .identifierName name => s.field signatures name
  | .label name => s.text name
  | .number bits => s.word bits
  | .string value => s.text value
  | .boolean value => s.flag value
  | .regExp pattern flags => (s.text pattern).word (flags.setWidth 64)
  | .template raw => s.text raw
  | .binary operator => s.byte operator
  | .logical operator => s.byte operator
  | .unary operator => s.byte operator
  | .update operator pre => (s.byte operator).flag pre
  | .assignment operator => s.byte operator
  | .declaration kind => s.byte kind
  | .objectProperty kind computed => (s.byte kind).flag computed
  | .function generator async => (s.flag generator).flag async
  | .other => s

/-- `enter_node` and `leave_node`. -/
def event (bound : List String) (signatures : Option (String → Hash)) : Event → Hasher
  | .enter ty node => (s.byte ty).node bound signatures node
  | .leave => s.byte MARK_LEAVE

end Hasher

/-- The hasher after a handler. -/
def hash (signatures : Option (String → Hash)) (h : Handler) : Hasher :=
  h.events.foldl (fun s e => s.event (bound h.events) signatures e) ⟨FNV_OFFSET, [], [], []⟩

/-- What a use of a field adds to its signature. -/
def mix (hashed : Hash) (position : ℕ) : Hash :=
  (leBytes 8 hashed.toNat ++ leBytes 8 position).foldl mixByte FNV_OFFSET

/-- A use of a field is added to the signatures; a field without one has `0`. -/
def addUse (signatures : String → Hash) (use : String × Hash) : String → Hash :=
  fun name => if name = use.1 then signatures name + use.2 else signatures name

/-- `prepare`: the signatures of the fields. -/
def prepare (handlers : List Handler) : String → Hash :=
  handlers.foldl (fun signatures h =>
    let s := hash none h
    s.seen.zipIdx.foldl (fun signatures (name, position) =>
      addUse signatures (name, mix s.state position)) signatures) fun _ => 0

/-- `fingerprint`, after `prepare` of a table. -/
def fingerprint (table : List Handler) (h : Handler) : Hash :=
  (hash (some (prepare table)) h).state

end Handlers
end Lunar
