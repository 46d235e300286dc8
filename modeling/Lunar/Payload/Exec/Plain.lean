/-
# A realm of plain values

Values without identity: numbers, arrays, the record of a caught value and two
native functions.  Nothing here is ever found again in the heap, so two states are
the same only if they are equal.  What the interpreter knows beyond this is the
fault of the realm.
-/

import Lunar.Payload.Exec.Realm
import Mathlib.Algebra.Ring.Nat

namespace Lunar
namespace Exec

inductive Plain
  | undef
  | bool (b : Bool)
  | num (n : F64)
  | arr (items : List Plain)
  | caught (v : Plain)
  | apply
  | isArray
  | typeError
  | scope
  | global

namespace Plain

/-- The frame, the scope and its fields. -/
structure World where
  this : Plain
  callee : Plain
  locals : ℕ → Plain
  frame : ℕ → Plain
  exc : Plain
  catchF : Plain
  finallyF : Plain

/-- `truthy`. -/
def truthy : Plain → Bool
  | .undef => false
  | .bool b => b
  | .num n => n != 0 && n != 0x8000000000000000#64 && !(0x7FF0000000000000#64 < n <<< 1 >>> 1)
  | _ => true

/-- `pc_of`: a double that is an integer of 32 bits. -/
def pcOf : Plain → Option ℕ
  | .num n =>
      let e := (n >>> 52).toNat
      let m := 2 ^ 52 + n.toNat % 2 ^ 52
      if n = 0 ∨ n = 0x8000000000000000#64 then some 0
      else if 1023 ≤ e ∧ e < 1055 ∧ m % 2 ^ (1075 - e) = 0 then some (m / 2 ^ (1075 - e))
      else none
  | _ => none

variable (consts : ℕ → Plain)

abbrev Result := Out Plain World Unit

/-- `list_of`: the arguments that a value stands for. -/
def listOf : Option Plain → Option (List Plain)
  | none | some .undef => some []
  | some (.arr items) => some items
  | some _ => none

/-- `Array.isArray`. -/
def isArr : Option Plain → Bool
  | some (.arr _) => true
  | _ => false

/-- `call` without closures; `this` of an `apply` is not an `apply`. -/
def call (f this : Plain) (args : List Plain) (w : World) : Result :=
  match f with
  | .isArray => .ok (.bool (isArr args.head?)) w
  | .apply =>
      match this, listOf args[1]? with
      | .apply, _ | _, none => .fault ()
      | .isArray, some items => .ok (.bool (isArr items.head?)) w
      | _, some _ => .throw .typeError w
  | _ => .throw .typeError w

def act : Act → List Plain → World → Result
  | .num n, _, w => .ok (.num n) w
  | .const c, _, w => .ok (consts c) w
  | .move, vs, w => .ok (vs.headD .undef) w
  | .this, _, w => .ok w.this w
  | .callee, _, w => .ok w.callee w
  | .localS slot, _, w => .ok (w.locals slot) w
  | .scopeRef, _, w => .ok .scope w
  | .excRec, _, w => .ok w.exc w
  | .frameField id, _, w => .ok (w.frame id) w
  | .global, _, w => .ok .global w
  | .array, items, w => .ok (.arr items) w
  | .exc, _, w => match w.exc with
      | .caught v => .ok v w
      | .undef => .throw .typeError w
      | _ => .fault ()
  | .decl slot, [v], w => .ok .undef { w with locals := Function.update w.locals slot v }
  | .setFrameField id, [v], w => .ok .undef { w with frame := Function.update w.frame id v }
  | .setCatch, [v], w => .ok .undef { w with catchF := v }
  | .setFinally, [v], w => .ok .undef { w with finallyF := v }
  | .call false, f :: args, w => call f .undef args w
  | .call true, f :: this :: args, w => call f this args w
  | .apply, [f, t, .arr items], w => call f t items w
  | .apply, [f, t, .undef], w => call f t [] w
  | .applyL, f :: t :: th :: items, w => call f t [th, .arr items] w
  | _, _, _ => .fault ()

/-- A thrown value goes to the catch field of the scope. -/
def raise (v : Plain) (w : World) : Unwind Plain World Unit :=
  if truthy w.catchF then
    match pcOf w.catchF with
    | some pc => .goto pc { w with exc := .caught v }
    | none => .fault ()
  else .leave v w

/-- A returned value goes to the finally field of the scope. -/
def ret (v : Plain) (w : World) : Unwind Plain World Unit :=
  if truthy w.finallyF then
    match pcOf w.finallyF with
    | some pc => .goto pc w
    | none => .fault ()
  else .leave v w

end Plain

theorem Out.Rel.of_refl {V W E : Type} {P Q : V → W → V → W → Prop} (hP : ∀ v w, P v w v w)
    (hQ : ∀ v w, Q v w v w) (o : Out V W E) : Out.Rel P Q o o := by
  cases o with
  | ok v w => exact .ok (hP v w)
  | throw v w => exact .throw (hQ v w)
  | fault e => exact .fault e

theorem Unwind.Rel.of_refl {V W E : Type} {P : V → W → V → W → Prop} {T : W → W → Prop}
    (hP : ∀ v w, P v w v w) (hT : ∀ w, T w w) (u : Unwind V W E) : Unwind.Rel P T u u := by
  cases u with
  | goto pc w => exact .goto pc (hT w)
  | leave v w => exact .leave (hP v w)
  | fault e => exact .fault e

/-- **Plain values keep the promises of a realm.** -/
def plain (consts : ℕ → Plain) : Realm where
  V := Plain
  W := Plain.World
  E := Unit
  act := Plain.act consts
  truthy := Plain.truthy
  nullish v := match v with
    | .undef => true
    | _ => false
  pcOf := Plain.pcOf
  raise := Plain.raise
  ret := Plain.ret
  Same ρ w ρ' w' := ρ = ρ' ∧ w = w'
  reindex f h := ⟨funext fun k => congrFun h.1 (f k), h.2⟩
  symm h := ⟨h.1.symm, h.2.symm⟩
  trans h h' := ⟨h.1.trans h'.1, h.2.trans h'.2⟩
  truthy_congr h i := by rw [h.1]
  nullish_congr h i := by rw [h.1]
  pcOf_congr h i := by rw [h.1]
  raise_congr := by
    rintro ι ρ _ w _ ⟨rfl, rfl⟩ i
    exact .of_refl (fun _ _ => ⟨rfl, rfl⟩) (fun _ => ⟨rfl, rfl⟩) _
  ret_congr := by
    rintro ι ρ _ w _ ⟨rfl, rfl⟩ i
    exact .of_refl (fun _ _ => ⟨rfl, rfl⟩) (fun _ => ⟨rfl, rfl⟩) _
  act_congr := by
    rintro ι ρ _ w _ ⟨rfl, rfl⟩ a is
    exact .of_refl (fun _ _ => ⟨rfl, rfl⟩) (fun _ _ => ⟨rfl, rfl⟩) _
  act_pure := by
    intro ι ρ w _ a ha is
    cases a <;> first | exact ⟨_, _, rfl, rfl, rfl⟩ | cases ha
  act_safe := by
    intro a vs w v w' ha h
    cases a <;> first | (cases ha; done) | (rcases vs with _ | ⟨_, _ | ⟨_, _⟩⟩ <;> cases h)
  delay := by
    rintro ι ρ w - is v _ ⟨rfl, rfl⟩ a js
    exact .of_refl (fun _ _ => ⟨_, _, rfl, rfl, rfl⟩) (fun _ _ => ⟨rfl, rfl⟩) _
  applyL := by
    rintro ι ρ w - f t th is v _ o _ ⟨rfl, rfl⟩ ⟨rfl, rfl⟩
    exact .of_refl (fun _ _ => ⟨rfl, rfl⟩) (fun _ _ => ⟨rfl, rfl⟩) _

end Exec
end Lunar
