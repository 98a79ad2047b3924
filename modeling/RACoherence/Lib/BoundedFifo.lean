import Mathlib.Algebra.Order.Ring.Nat
import RACoherence.Lib.Machine

/-!
# A bounded FIFO queue

What a bounded queue is for, without the cells that hold the values: the values put into it so far, in
order, and how many of them have been taken. A queue that is implemented by several smaller steps is a
bounded FIFO when it refines this machine.
-/

/-- The values put into the queue so far, and the number of those that have been taken. -/
structure BoundedFifo (α : Type*) where
  sent : List α
  taken : ℕ

namespace BoundedFifo

variable {α : Type*}

inductive Action (α : Type*)
  | put (v : α)
  | take

/-- The queue of capacity `S`: a value can be put while there is room, and the oldest one can be taken
while there is one. -/
def machine (α : Type*) (S : ℕ) : Machine (BoundedFifo α) (Action α) where
  init q := q = ⟨[], 0⟩
  step q
    | .put v => if q.sent.length < q.taken + S then some { q with sent := q.sent ++ [v] } else none
    | .take => if q.taken < q.sent.length then some { q with taken := q.taken + 1 } else none

variable {S : ℕ} {q : BoundedFifo α}

/-- Nothing is taken that was not put, and never are there more than `S` values in the queue. -/
theorem bounds (h : (machine α S).Reachable q) :
    q.taken ≤ q.sent.length ∧ q.sent.length ≤ q.taken + S := by
  apply h.invariant
  · rintro q rfl
    exact ⟨le_rfl, Nat.zero_le _⟩
  · intro q a q' _ hq _ hstep
    cases a with
    | put v =>
        simp only [machine, Option.ite_none_right_eq_some, Option.some.injEq] at hstep
        obtain ⟨hroom, rfl⟩ := hstep
        simp only [List.length_append, List.length_singleton]
        omega
    | take =>
        simp only [machine, Option.ite_none_right_eq_some, Option.some.injEq] at hstep
        obtain ⟨hsome, rfl⟩ := hstep
        dsimp only
        omega

end BoundedFifo
