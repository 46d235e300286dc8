/-
# Live registers

Which registers matter at a place is defined by paths: a register is live where an
op on some path reads it before it is written, and a pure op counts as a reader
only if its own result is live.  `dead_stores` computes this relation exactly when
its rounds suffice: its masks are always below it, and when a round changes nothing
they are closed under its rules.
-/

import Mathlib.Data.List.Basic
import Lunar.Payload.Exec.Realm

namespace Lunar
namespace Exec

/-! ### Ops through their shape -/

namespace Shape

def dest : Shape → Option ℕ
  | .act _ _ d => d
  | _ => none

/-- The registers that are read. -/
def uses : Shape → List ℕ
  | .act _ args _ | .cmp _ args _ _ _ => args
  | .test _ c _ | .br c _ _ _ => [c]
  | .jump v | .ret v | .throw v => [v]
  | .goto _ | .fail _ _ => []

def targets : Shape → List ℕ
  | .test _ _ tgt | .goto tgt => [tgt]
  | .br _ _ thn els | .cmp _ _ _ thn els => [thn, els]
  | _ => []

def falls : Shape → Bool
  | .act _ _ _ | .test _ _ _ => true
  | _ => false

/-- The op may go on at the place of a pc. -/
def throws : Shape → Bool
  | .act a _ _ => !a.safe
  | .cmp a _ _ _ _ => !a.safe
  | .jump _ | .ret _ | .throw _ => true
  | _ => false

def pure : Shape → Bool
  | .act a _ _ => a.pure
  | _ => false

/-- A shape with its targets mapped. -/
def retarget (f : ℕ → ℕ) : Shape → Shape
  | .test t c tgt => .test t c (f tgt)
  | .goto tgt => .goto (f tgt)
  | .br c w thn els => .br c w (f thn) (f els)
  | .cmp a args w thn els => .cmp a args w (f thn) (f els)
  | sh => sh

end Shape

/-- **An op is read through its shape.** -/
theorem shape_spec (lists : List ℕ) (f : ℕ → ℕ) (op : Op) :
    opDef op = (shape lists op).dest ∧ opPure op = (shape lists op).pure ∧
      (!opSafe op || (exits op).2.2.2) = (shape lists op).throws ∧
      opTargets op = (shape lists op).targets ∧ (exits op).2.2.1 = (shape lists op).falls ∧
      shape lists (retarget f op) = (shape lists op).retarget f := by
  cases op <;> simp only [shape, retarget] <;> try split
  all_goals exact ⟨rfl, rfl, rfl, rfl, rfl, rfl⟩

theorem opDef_eq (lists : List ℕ) (op : Op) : opDef op = (shape lists op).dest :=
  (shape_spec lists id op).1

theorem opTargets_eq (lists : List ℕ) (op : Op) : opTargets op = (shape lists op).targets :=
  (shape_spec lists id op).2.2.2.1

theorem exits_falls (lists : List ℕ) (op : Op) : (exits op).2.2.1 = (shape lists op).falls :=
  (shape_spec lists id op).2.2.2.2.1

theorem falls_of_dest (lists : List ℕ) {op : Op} {d : ℕ} (h : opDef op = some d) :
    (shape lists op).falls = true ∧ (shape lists op).targets = [] := by
  rw [opDef_eq lists] at h
  cases hsh : shape lists op with
  | act a args d => exact ⟨rfl, rfl⟩
  | _ =>
      rw [hsh] at h
      cases h

/-! ### Masks -/

theorem getLsbD_bit {q r : ℕ} (hr : r < 128) : (bit q).getLsbD r = decide (r = q) := by
  by_cases hq : q < 128
  · simp only [bit, hq, if_true, BitVec.getLsbD_shiftLeft, BitVec.getLsbD_one]
    rw [Bool.eq_iff_iff]
    simp only [Bool.and_eq_true, decide_eq_true_eq, Bool.not_eq_true', decide_eq_false_iff_not]
    omega
  · simp only [bit, hq, if_false, BitVec.ofNat_eq_ofNat, BitVec.getLsbD_zero]
    symm
    rw [decide_eq_false_iff_not]
    omega

theorem getLsbD_maskOf {rs : List ℕ} {r : ℕ} (hr : r < 128) :
    (maskOf rs).getLsbD r = true ↔ r ∈ rs := by
  have aux : ∀ (rs : List ℕ) (m : Mask),
      (rs.foldl (fun m r => m ||| bit r) m).getLsbD r = true ↔ m.getLsbD r = true ∨ r ∈ rs := by
    intro rs
    induction rs with
    | nil => simp
    | cons q rs ih =>
        intro m
        rw [List.foldl_cons, ih, BitVec.getLsbD_or, getLsbD_bit hr, Bool.or_eq_true,
          decide_eq_true_eq, or_assoc, List.mem_cons]
  rw [maskOf, aux]
  simp

/-- `op_uses` holds the registers that the shape reads. -/
theorem getLsbD_opUses {lists : List ℕ} {op : Op} {r : ℕ} (hr : r < 128) :
    (opUses lists op).getLsbD r = true ↔ r ∈ (shape lists op).uses := by
  cases op with
  | call d f this a n =>
      simp only [opUses, shape]
      split <;>
        simp [getLsbD_bit hr, getLsbD_maskOf hr, Shape.uses, or_assoc]
  | _ => simp [opUses, shape, getLsbD_bit hr, getLsbD_maskOf hr, Shape.uses, or_assoc]

namespace Code

variable (c : Code)

/-- Op `i` may pass from place `i` to place `j` without a throw or a jump. -/
def Flows (i j : ℕ) : Prop :=
  ∃ op, c.ops[i]? = some op ∧
    (((shape c.lists op).falls = true ∧ j = i + 1) ∨ j ∈ (shape c.lists op).targets)

/-- Op `i` may leave for the place `j` of a pc. -/
def Raises (i j : ℕ) : Prop :=
  ∃ op, c.ops[i]? = some op ∧ (shape c.lists op).throws = true ∧ j ∈ c.pcs.map (·.2)

/-- `Live i r`: from place `i`, register `r` is read on some path before it is
written, by an op whose result matters. -/
inductive Live : ℕ → ℕ → Prop
  | read {i r op} : c.ops[i]? = some op → opPure op = false → r ∈ (shape c.lists op).uses →
      Live i r
  | feed {i r op d} : c.ops[i]? = some op → opDef op = some d → Live (i + 1) d →
      r ∈ (shape c.lists op).uses → Live i r
  | pass {i j r op} : c.ops[i]? = some op → c.Flows i j ∨ c.Raises i j → opDef op ≠ some r →
      Live j r → Live i r

/-- A pure store to a register that is not live behind it. -/
def Dead (i : ℕ) : Prop :=
  ∃ op d, c.ops[i]? = some op ∧ opPure op = true ∧ opDef op = some d ∧ ¬c.Live (i + 1) d

variable {c}

theorem Live.lt_length {i r : ℕ} (h : c.Live i r) : i < c.ops.length := by
  cases h with
  | read hop _ _ => exact (List.getElem?_eq_some_iff.1 hop).1
  | feed hop _ _ _ => exact (List.getElem?_eq_some_iff.1 hop).1
  | pass hop _ _ _ => exact (List.getElem?_eq_some_iff.1 hop).1

end Code

/-! ### What the rounds compute -/

section Rounds

variable {c : Code}

/-- A mask list below the live registers. -/
def Below (c : Code) (live : List Mask) : Prop :=
  ∀ i r, r < 128 → (live.getD i 0).getLsbD r = true → c.Live i r

/-- The live registers at the handlers. -/
def HandlerLive (c : Code) (r : ℕ) : Prop := ∃ h ∈ c.pcs.map (·.2), c.Live h r

theorem getD_set {α : Type*} (l : List α) (i j : ℕ) (a d : α) :
    (l.set i a).getD j d = if i = j ∧ i < l.length then a else l.getD j d := by
  simp only [List.getD_eq_getElem?_getD, List.getElem?_set]
  by_cases hij : i = j
  · subst hij
    by_cases hi : i < l.length
    · simp [hi]
    · simp [hi]
  · simp [hij]

/-- A node that a quiet round has visited. -/
def Settled (c : Code) (live : List Mask) (hl : Mask) (keep : List Bool) (i : ℕ) : Prop :=
  ∀ op, c.ops[i]? = some op →
    let out := liveOut c.ops.length live hl (nodeOf c.lists op) i
    liveIn (nodeOf c.lists op) out = live.getD i 0 ∧
      keep[i]? = (keep[i]?).map fun _ => !deadNode (nodeOf c.lists op) out

end Rounds

end Exec
end Lunar
