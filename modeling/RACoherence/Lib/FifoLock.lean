import Mathlib.Data.List.Range
import RACoherence.Lib.Machine

/-!
# A lock that is given in the order of arrival

What a queue lock is for, without its nodes and flags: the parties that have arrived so far, in order, how
many of them have left, and whether the next one is inside. A lock that is implemented by several smaller
steps is first come, first served when it refines this machine.
-/

/-- The parties that have arrived so far, the number of those that have left, and whether the one after them
is inside. -/
structure FifoLock (τ : Type*) where
  arrived : List τ
  served : ℕ
  inside : Bool

namespace FifoLock

variable {τ : Type*}

inductive Action (τ : Type*)
  | arrive (t : τ)
  | enter (t : τ)
  | leave (t : τ)

def Action.party : Action τ → τ
  | .arrive t | .enter t | .leave t => t

/-- The party whose turn it is, if anybody has arrived that has not left. -/
def next (q : FifoLock τ) : Option τ := q.arrived[q.served]?

/-- The party inside. -/
def holder (q : FifoLock τ) : Option τ := if q.inside then q.next else none

/-- Parties may arrive at any time. The next one may enter when nobody is inside, and whoever is inside may
leave. -/
def machine (τ : Type*) [DecidableEq τ] : Machine (FifoLock τ) (Action τ) where
  init q := q = ⟨[], 0, false⟩
  step q
    | .arrive t => some { q with arrived := q.arrived ++ [t] }
    | .enter t => if q.inside = false ∧ q.next = some t then some { q with inside := true } else none
    | .leave t =>
        if q.inside = true ∧ q.next = some t then some { q with served := q.served + 1, inside := false }
        else none

/-! ## Queues that are kept as numbered places -/

/-- The lock whose queue is a table of parties: `enq` have arrived and `deq` have left, and `first` says of a
party that it is inside. -/
def ofPlaces (turn : ℕ → τ) (first : τ → Bool) (enq deq : ℕ) : FifoLock τ where
  arrived := (List.range enq).map turn
  served := deq
  inside := decide (deq < enq) && first (turn deq)

variable {turn turn' : ℕ → τ} {first first' : τ → Bool} {enq deq : ℕ}

theorem next_ofPlaces {t : τ} : (ofPlaces turn first enq deq).next = some t ↔ deq < enq ∧ turn deq = t := by
  simp only [next, ofPlaces, List.getElem?_map, Option.map_eq_some_iff, List.getElem?_eq_some_iff,
    List.length_range, List.getElem_range]
  constructor
  · rintro ⟨_, ⟨hlt, rfl⟩, rfl⟩
    exact ⟨hlt, rfl⟩
  · rintro ⟨hlt, rfl⟩
    exact ⟨deq, ⟨hlt, rfl⟩, rfl⟩

theorem inside_ofPlaces (hlt : deq < enq) : (ofPlaces turn first enq deq).inside = first (turn deq) := by
  simp [ofPlaces, hlt]

/-- The party that is inside. -/
theorem holder_ofPlaces (hlt : deq < enq) (hfirst : first (turn deq) = true) :
    (ofPlaces turn first enq deq).holder = some (turn deq) := by
  rw [holder, inside_ofPlaces hlt, if_pos hfirst]
  exact next_ofPlaces.mpr ⟨hlt, rfl⟩

/-- The party whose turn it is when nobody is inside. -/
theorem waiting_ofPlaces {t : τ} (hnone : (ofPlaces turn first enq deq).holder = none)
    (hnext : (ofPlaces turn first enq deq).next = some t) : deq < enq ∧ turn deq = t ∧ first t = false := by
  obtain ⟨hlt, rfl⟩ := next_ofPlaces.mp hnext
  refine ⟨hlt, rfl, ?_⟩
  by_contra hfirst
  rw [holder_ofPlaces hlt (by simpa using hfirst)] at hnone
  cases hnone

variable [DecidableEq τ]

/-- To arrive is to take the next place. -/
theorem arrive_ofPlaces (hle : deq ≤ enq) (hold : ∀ i < enq, turn' i = turn i)
    (hnew : first (turn' enq) = false) :
    (machine τ).step (ofPlaces turn first enq deq) (.arrive (turn' enq)) =
      some (ofPlaces turn' first (enq + 1) deq) := by
  have hmap : (List.range enq).map turn' = (List.range enq).map turn :=
    List.map_congr_left fun i hi => hold i (List.mem_range.mp hi)
  have hinside : (decide (deq < enq + 1) && first (turn' deq)) =
      (decide (deq < enq) && first (turn deq)) := by
    rcases hle.lt_or_eq with hlt | rfl
    · simp only [hold deq hlt, hlt, Nat.lt_succ_of_lt hlt]
    · simp [hnew]
  simp only [machine, ofPlaces, hinside, List.range_succ, List.map_append, hmap, List.map_cons, List.map_nil]

theorem enter_ofPlaces (hlt : deq < enq) (hbefore : first (turn deq) = false)
    (hafter : first' (turn deq) = true) :
    (machine τ).step (ofPlaces turn first enq deq) (.enter (turn deq)) =
      some (ofPlaces turn first' enq deq) := by
  have henter : (ofPlaces turn first enq deq).inside = false ∧
      (ofPlaces turn first enq deq).next = some (turn deq) :=
    ⟨by rw [inside_ofPlaces hlt, hbefore], next_ofPlaces.mpr ⟨hlt, rfl⟩⟩
  refine (if_pos henter).trans ?_
  simp [ofPlaces, hlt, hafter]

theorem leave_ofPlaces (hlt : deq < enq) (hbefore : first (turn deq) = true) (hafter : ∀ t, first' t = false) :
    (machine τ).step (ofPlaces turn first enq deq) (.leave (turn deq)) =
      some (ofPlaces turn first' enq (deq + 1)) := by
  have hleave : (ofPlaces turn first enq deq).inside = true ∧
      (ofPlaces turn first enq deq).next = some (turn deq) :=
    ⟨by rw [inside_ofPlaces hlt, hbefore], next_ofPlaces.mpr ⟨hlt, rfl⟩⟩
  refine (if_pos hleave).trans ?_
  simp [ofPlaces, hafter]

end FifoLock
