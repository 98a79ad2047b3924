import Mathlib.Order.Lattice

/-!
# Vector clocks

Reference: `include/vectorClock.hpp`. The components are indexed by node; clocks are compared
componentwise, as the program's `operator<=` does.
-/

namespace RACoherence

/-- `VectorClock` -/
abbrev VectorClock : Type := ℕ → ℕ

namespace VectorClock

/-- `assign` -/
def assign (c : VectorClock) (n clk : ℕ) : VectorClock := Function.update c n clk

/-- `merge` -/
def merge (c d : VectorClock) : VectorClock := fun i => max (c i) (d i)

variable {c d e : VectorClock}

theorem le_merge_left : c ≤ c.merge d := fun _ => le_max_left _ _

theorem le_merge_right : d ≤ c.merge d := fun _ => le_max_right _ _

end VectorClock

end RACoherence
