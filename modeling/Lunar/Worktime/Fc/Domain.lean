/-
# Taints, tags and abstract values

`worktime/fc.rs`: `Taint`, `Tag` and `Val` with their joins.  The source packs a
taint and a tag into a `u32` each; here they are the sums that the packing
stands for.  All three are semilattices, which is what makes a location of the
solver grow.
-/

import Mathlib.Order.Lattice
import Mathlib.Data.Nat.Notation
import Mathlib.Tactic.SplitIfs

namespace Lunar
namespace Fc

/-- `Taint`: nothing, a node of the path table, or a flow that is no path (`OPAQUE`). -/
inductive Taint
  | clean
  | path (id : ℕ) (derived : Bool)
  | lost
  deriving DecidableEq, Repr

namespace Taint

/-- `Taint::split`. -/
def split : Taint → Option (ℕ × Bool)
  | .path id derived => some (id, derived)
  | .clean | .lost => none

/-- `Taint::join`. -/
def join : Taint → Taint → Taint
  | t, .clean => t
  | .clean, t => t
  | .path a x, .path b y => if a = b then .path a (x || y) else .lost
  | _, _ => .lost

/-- `Taint::derive`. -/
def derive : Taint → Taint
  | .path id _ => .path id true
  | t => t

theorem join_comm (a b : Taint) : a.join b = b.join a := by
  cases a <;> cases b <;> simp only [join]
  rename_i i x j y
  by_cases h : i = j
  · rw [if_pos h, if_pos h.symm, h, Bool.or_comm]
  · rw [if_neg h, if_neg (Ne.symm h)]

theorem join_assoc (a b c : Taint) : (a.join b).join c = a.join (b.join c) := by
  cases a <;> cases b <;> cases c <;> simp only [join]
  · split_ifs <;> simp_all
  · rename_i i x j y k z
    by_cases h : i = j <;> by_cases h' : j = k <;> simp_all [Bool.or_assoc]
  all_goals split_ifs <;> rfl

theorem join_self (a : Taint) : a.join a = a := by
  cases a <;> simp [join]

instance : Max Taint := ⟨join⟩

instance : SemilatticeSup Taint := SemilatticeSup.mk' join_comm join_assoc join_self

theorem sup_def (a b : Taint) : a ⊔ b = a.join b := rfl

end Taint

/-- `Tag`: no value yet, values that do not agree, or the same `α` on every
path. -/
inductive Tag (α : Type)
  | bottom
  | conflict
  | of (a : α)
  deriving DecidableEq, Repr

namespace Tag

variable {α : Type} [DecidableEq α]

omit [DecidableEq α] in
/-- `Tag::get`. -/
def get : Tag α → Option α
  | .of a => some a
  | .bottom | .conflict => none

/-- `Tag::join`. -/
def join : Tag α → Tag α → Tag α
  | t, .bottom => t
  | .bottom, t => t
  | .of a, .of b => if a = b then .of a else .conflict
  | _, _ => .conflict

/-- `Tag::live`. -/
def live : Tag α → Tag α
  | .bottom => .conflict
  | t => t

theorem join_comm (a b : Tag α) : a.join b = b.join a := by
  cases a <;> cases b <;> simp only [join]
  rename_i x y
  by_cases h : x = y
  · rw [if_pos h, if_pos h.symm, h]
  · rw [if_neg h, if_neg (Ne.symm h)]

theorem join_assoc (a b c : Tag α) : (a.join b).join c = a.join (b.join c) := by
  cases a <;> cases b <;> cases c <;> simp only [join]
  all_goals try (split_ifs <;> rfl)
  rename_i x y z
  by_cases h : x = y <;> by_cases h' : y = z <;> simp_all

theorem join_self (a : Tag α) : a.join a = a := by
  cases a <;> simp [join]

instance : Max (Tag α) := ⟨join⟩

instance : SemilatticeSup (Tag α) := SemilatticeSup.mk' join_comm join_assoc join_self

end Tag

/-- What a `c` tag names: the functions that a callee may be.  The source packs
the kind into the low bits of the tag. -/
inductive Callee
  | entry (f : ℕ)
  | var (id : ℕ)
  | method (key : ℕ)
  deriving DecidableEq, Repr

/-- `Tag::is_method`. -/
def Tag.isMethod (c : Tag Callee) : Bool :=
  match c.get with
  | some (.method _) => true
  | _ => false

/-- `Val`: where a value comes from (`t`), what it calls (`c`), which array it
is (`a`), and whether it is the name of the header (`h`). -/
structure Val where
  t : Taint
  c : Tag Callee
  a : Tag ℕ
  h : Tag Unit
  deriving DecidableEq, Repr

/-- `BOTTOM`. -/
def BOTTOM : Val := ⟨.clean, .bottom, .bottom, .bottom⟩

/-- `PLAIN`. -/
def PLAIN : Val := ⟨.clean, .conflict, .conflict, .conflict⟩

/-- `Tag::YES`. -/
def Tag.yes : Tag Unit := .of ()

namespace Val

/-- `Val::join`. -/
def join (v w : Val) : Val := ⟨v.t ⊔ w.t, v.c ⊔ w.c, v.a ⊔ w.a, v.h ⊔ w.h⟩

/-- `Val::taint`. -/
def taint (t : Taint) : Val := { PLAIN with t }

/-- `Val::field`. -/
def field (t : Taint) : Val := { BOTTOM with t }

/-- `Val::live`. -/
def live (v : Val) : Val := ⟨v.t, v.c.live, v.a.live, v.h.live⟩

instance : Max Val := ⟨join⟩

theorem join_comm (v w : Val) : v.join w = w.join v := by
  rw [join, join, sup_comm v.t, sup_comm v.c, sup_comm v.a, sup_comm v.h]

theorem join_assoc (v w u : Val) : (v.join w).join u = v.join (w.join u) := by
  simp only [join, sup_assoc]

theorem join_self (v : Val) : v.join v = v := by
  simp only [join, sup_idem]

instance : SemilatticeSup Val := SemilatticeSup.mk' join_comm join_assoc join_self

theorem sup_def (v w : Val) : v ⊔ w = ⟨v.t ⊔ w.t, v.c ⊔ w.c, v.a ⊔ w.a, v.h ⊔ w.h⟩ := rfl

end Val
end Fc
end Lunar
