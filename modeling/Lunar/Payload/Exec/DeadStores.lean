/-
# Dead stores

Masked code skips the ops that are not kept.  Code whose dead stores are skipped
runs in lockstep with the code itself: the files agree on the live registers and on
those that no dead store can have left stale.  The liveness of the source takes a
destination for written even where the op throws, so the condition of the theorem
is that no op throws to a handler where its unread destination is live and may be
stale.
-/

import Lunar.Payload.Exec.Pending

namespace Lunar
namespace Exec

variable {R : Realm}

/-- Code with marks of the ops to run. -/
structure Masked where
  code : Code
  keep : List Bool

/-- An op that is not kept is skipped. -/
def Masked.next (m : Masked) (s : State R) : List (Event R) × Next R :=
  if s.ip < m.code.ops.length ∧ m.keep.getD s.ip false = false then ([], .fall s.regs s.w)
  else m.code.next s

def Masked.step (R : Realm) (m : Masked) (s : State R) : List (Event R) × (State R ⊕ End R) :=
  ((m.next s).1, (m.next s).2.settle m.code.pcs s.ip)

/-! ### Steps of related states -/

/-- The files that an op hands on are roots of the heap. -/
def Next.Valid : Next R → Prop
  | .fall regs w | .branch _ regs w | .caught _ regs w | .jump _ regs w => Exec.Valid regs w
  | .done _ => True

theorem perform_valid {regs : ℕ → R.V} {w : R.W} (h : Valid regs w) (sh : Shape) :
    (perform sh regs w).2.Valid := by
  have hag : Agree (fun _ => True) regs w regs w := h.agree
  obtain ⟨-, hrel⟩ := perform_agree hag sh fun _ _ => trivial
  have hall : ∀ {S : ℕ → Prop} {regs : ℕ → R.V} {w : R.W}, (∀ r, S r) → Agree S regs w regs w →
      Valid regs w := fun hS h => R.same_of h fun r => ⟨⟨r, hS r⟩, rfl, rfl⟩
  generalize (perform sh regs w).2 = n at hrel
  cases n with
  | fall regs w => rcases hrel with ⟨h⟩; exact hall (fun _ => .inr trivial) h
  | branch t regs w => rcases hrel with _ | ⟨_, h⟩; exact hall (fun _ => trivial) h
  | caught pc regs w => rcases hrel with _ | _ | ⟨_, h⟩; exact hall (fun _ => trivial) h
  | jump pc regs w => rcases hrel with _ | _ | _ | ⟨_, h⟩; exact hall (fun _ => trivial) h
  | done o => trivial

/-- The state behind a step, from where the op goes. -/
theorem settle_rel {F A : (ℕ → R.V) → R.W → (ℕ → R.V) → R.W → Prop}
    {rel : State R → State R → Prop} {n n' : Next R} {pcs : List (ℕ × ℕ)} {ip : ℕ}
    (h : Next.Rel F A n n')
    (hfall : ∀ regs w regs' w', n = .fall regs w → n' = .fall regs' w' → F regs w regs' w' →
      rel ⟨ip + 1, regs, w⟩ ⟨ip + 1, regs', w'⟩)
    (hbranch : ∀ t regs w regs' w', n = .branch t regs w → n' = .branch t regs' w' →
      A regs w regs' w' → rel ⟨t, regs, w⟩ ⟨t, regs', w'⟩)
    (hcaught : ∀ pc q regs w regs' w', n = .caught pc regs w → n' = .caught pc regs' w' →
      ipOf pcs pc = some q → A regs w regs' w' → rel ⟨q, regs, w⟩ ⟨q, regs', w'⟩)
    (hjump : ∀ pc q regs w regs' w', n = .jump pc regs w → n' = .jump pc regs' w' →
      ipOf pcs pc = some q → A regs w regs' w' → rel ⟨q, regs, w⟩ ⟨q, regs', w'⟩) :
    Sum.LiftRel rel End.Same (n.settle pcs ip) (n'.settle pcs ip) := by
  have henter : ∀ {regs w regs' w'} (pc : ℕ),
      (∀ q, ipOf pcs pc = some q → rel ⟨q, regs, w⟩ ⟨q, regs', w'⟩) →
      Sum.LiftRel rel End.Same (enter pcs pc regs w) (enter pcs pc regs' w') := by
    intro regs w regs' w' pc hq
    rw [enter, enter]
    cases hip : ipOf pcs pc with
    | none => exact .inr (.fault _)
    | some q => exact .inl (hq q hip)
  cases h with
  | fall h => exact .inl (hfall _ _ _ _ rfl rfl h)
  | branch t h => exact .inl (hbranch _ _ _ _ _ rfl rfl h)
  | caught pc h => exact henter pc fun q hq => hcaught pc q _ _ _ _ rfl rfl hq h
  | jump pc h => exact henter pc fun q hq => hjump pc q _ _ _ _ rfl rfl hq h
  | done h => exact .inr h

theorem mem_pcs_of_ipOf {pcs : List (ℕ × ℕ)} {pc q : ℕ} (h : ipOf pcs pc = some q) :
    q ∈ pcs.map (·.2) := by
  obtain ⟨x, hx, rfl⟩ := Option.map_eq_some_iff.1 h
  exact List.mem_map.2 ⟨x, List.mem_of_find?_eq_some hx, rfl⟩

namespace Code

variable (c : Code)

/-- `Stale i r`: some path comes to place `i` from a dead store to `r` with no write
of `r` on it. -/
inductive Stale : ℕ → ℕ → Prop
  | start {i op d} : c.ops[i]? = some op → opPure op = true → opDef op = some d →
      ¬c.Live (i + 1) d → Stale (i + 1) d
  | flow {i j r op} : Stale i r → c.ops[i]? = some op → c.Flows i j → opDef op ≠ some r →
      Stale j r
  | raise {i j r} : Stale i r → c.Raises i j → Stale j r

/-- The op at `i` must not throw to the place `q`: its destination, which it does not
read, is live there and may be stale. -/
def BadThrow (i q : ℕ) : Prop :=
  ∃ op d, c.ops[i]? = some op ∧ opDef op = some d ∧ d ∉ (shape c.lists op).uses ∧
    c.Live q d ∧ c.Stale i d

variable {c}

end Code

/-- No branch of a set is taken. -/
def Next.Avoids (bad : ℕ → ℕ → Prop) (ip : ℕ) : Next R → Prop
  | .branch t _ _ => ¬bad ip t
  | _ => True

/-- Nothing is thrown to a handler of a set. -/
def Next.Spared (bad : ℕ → ℕ → Prop) (pcs : List (ℕ × ℕ)) (ip : ℕ) : Next R → Prop
  | .caught pc _ _ => ∀ q, ipOf pcs pc = some q → ¬bad ip q
  | _ => True

theorem Next.Rel.avoids {F A : (ℕ → R.V) → R.W → (ℕ → R.V) → R.W → Prop} {n n' : Next R}
    (h : Next.Rel F A n n') {bad : ℕ → ℕ → Prop} {ip : ℕ} (hn : n.Avoids bad ip) :
    n'.Avoids bad ip := by
  cases h with
  | branch t _ => exact hn
  | _ => trivial

end Exec
end Lunar
