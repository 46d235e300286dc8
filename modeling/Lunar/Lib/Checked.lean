/-
# Checked arithmetic

Sums and differences of unsigned numbers of `w` bits as numbers, `none` where the machine's
would wrap.
-/

import Mathlib.Data.Nat.Notation
import Mathlib.Algebra.Order.Ring.Nat

namespace Lunar
namespace Lib
namespace Checked

/-- The sum of two numbers of `w` bits, where it has `w` bits. -/
def add (w a b : ℕ) : Option ℕ := if a + b < 2 ^ w then some (a + b) else none

/-- The difference of two numbers, where it is one. -/
def sub (a b : ℕ) : Option ℕ := if b ≤ a then some (a - b) else none

/-- The product of two numbers of `w` bits, where it has `w` bits. -/
def mul (w a b : ℕ) : Option ℕ := if a * b < 2 ^ w then some (a * b) else none

theorem add_of_lt {w a b : ℕ} (h : a + b < 2 ^ w) : add w a b = some (a + b) := if_pos h

/-- A sum under a name. -/
theorem exists_add {w a b : ℕ} (h : a + b < 2 ^ w) : ∃ s, add w a b = some s ∧ s = a + b :=
  ⟨a + b, add_of_lt h, rfl⟩

theorem sub_of_le {a b : ℕ} (h : b ≤ a) : sub a b = some (a - b) := if_pos h

/-- A difference under a name. -/
theorem exists_sub {a b : ℕ} (h : b ≤ a) : ∃ s, sub a b = some s ∧ s = a - b :=
  ⟨a - b, sub_of_le h, rfl⟩

theorem mul_of_lt {w a b : ℕ} (h : a * b < 2 ^ w) : mul w a b = some (a * b) := if_pos h

end Checked
end Lib
end Lunar
