import Mathlib.Data.List.Infix
import RACoherence.Lib.Machine
import RACoherence.VectorClock

/-!
# Atomics with clocks

Reference: `include/cxlSync.hpp`, `CXLAtomic<T>`, for a `w`-bit signed integer type `T`, without
`LOCATION_CLOCK_MERGE` and `PROTOCOL_OFF`.

An operation is the list of its accesses in program order; threads interleave at single accesses of
the shared members, which only `inner->mtx` orders. `thread_release` and `thread_acquire` are taken
for what they do to the clock of the thread: the first is one step that assigns some value to the
component of the thread's node if there is a recent line, and the second merges.

Not in the program are the list of the writes to every atomic (its modification order, newest
first) and, for every thread, its clock right after the `thread_release` of its operation and the
modification order up to the write that the operation has read from.
-/

namespace RACoherence

open Function

/-- `std::memory_order` -/
inductive MemoryOrder
  | relaxed
  | consume
  | acquire
  | release
  | acqRel
  | seqCst
  deriving DecidableEq, Repr

namespace CXLAtomic

/-- An operation with its arguments. -/
inductive Op (w : ℕ)
  | store (desired : BitVec w)
  | load
  | fetchAdd (arg : BitVec w)
  deriving DecidableEq, Repr

/-- One access of an operation. The results of `char ret = …` pass through a `char`. -/
inductive Instr (w : ℕ)
  | release
  | lock
  | setClock
  | mergeClock
  | readClock
  | store (desired : BitVec w)
  | load (viaChar : Bool)
  | fetchAdd (arg : BitVec w) (viaChar : Bool)
  | unlock
  | acquire
  deriving DecidableEq, Repr

variable {w : ℕ}

/-- `store`, `load` and `fetch_add` with the branches for the orders. -/
def code : Op w → MemoryOrder → List (Instr w)
  | .store desired, order =>
      if order = .seqCst ∨ order = .release then
        [.release, .lock, .setClock, .store desired, .unlock]
      else [.store desired]
  | .load, order =>
      if order = .seqCst ∨ order = .acquire then
        [.lock, .load true, .readClock, .unlock, .acquire]
      else [.load false]
  | .fetchAdd arg, order =>
      if order = .seqCst ∨ order = .acqRel then
        [.release, .lock, .fetchAdd arg true, .mergeClock, .readClock, .unlock, .acquire]
      else if order = .release then [.release, .lock, .fetchAdd arg true, .mergeClock, .unlock]
      else if order = .acquire then [.lock, .fetchAdd arg true, .readClock, .unlock, .acquire]
      else [.fetchAdd arg false]

/-- The operation is a release write or stronger. -/
def Op.Releases : Op w → MemoryOrder → Prop
  | .store _, order => order = .release ∨ order = .seqCst
  | .load, _ => False
  | .fetchAdd _, order => order = .release ∨ order = .acqRel ∨ order = .seqCst

/-- The operation is an acquire read or stronger. -/
def Op.Acquires : Op w → MemoryOrder → Prop
  | .store _, _ => False
  | .load, order => order = .acquire ∨ order = .seqCst
  | .fetchAdd _, order => order = .acquire ∨ order = .acqRel ∨ order = .seqCst

instance : (op : Op w) → (order : MemoryOrder) → Decidable (op.Releases order)
  | .store _, _ => inferInstanceAs (Decidable (_ ∨ _))
  | .load, _ => inferInstanceAs (Decidable False)
  | .fetchAdd _, _ => inferInstanceAs (Decidable (_ ∨ _ ∨ _))

/-- A write: whether it is a release or stronger, the clock of its thread right after its
`thread_release`, and whether it is a `fetch_add`. -/
structure Write where
  releases : Bool
  clk : VectorClock
  rmw : Bool

/-- In a modification order, newest first, the newest write is a release write with clock `c` or
follows one through `fetch_add`s only. -/
def ReleasedBy (c : VectorClock) : List Write → Prop
  | [] => False
  | x :: ws => (x.releases = true ∧ x.clk = c) ∨ (x.rmw = true ∧ ReleasedBy c ws)

/-- `CXLAtomic::InnerData` -/
structure Atomic (w : ℕ) where
  data : BitVec w
  clock : VectorClock
  mtx : Option ℕ
  writes : List Write

/-- A thread and its operation: what is left of it, its result `ret` and its local copy `clock` of the
clock of the atomic. -/
structure Thread (w : ℕ) where
  threadClock : VectorClock
  recentCl : ℕ
  loc : ℕ
  op : Op w
  order : MemoryOrder
  code : List (Instr w)
  ret : BitVec w
  clock : VectorClock
  relClk : VectorClock
  readFrom : List Write

structure State (w : ℕ) where
  atomics : ℕ → Atomic w
  threads : ℕ → Thread w

/-- A thread logs a store, calls an operation on an atomic, or takes the next step of its operation;
if that is a `thread_release` that writes a log, `clk` is the value it returns. -/
inductive Action (w : ℕ)
  | logStore (t cl : ℕ)
  | call (t l : ℕ) (op : Op w) (order : MemoryOrder)
  | thread (t clk : ℕ)

namespace State

/-- Replace the data of thread `t`. -/
def setThread (s : State w) (t : ℕ) (th : Thread w) : State w :=
  { s with threads := update s.threads t th }

/-- Replace the data of the atomic `l`. -/
def setAtomic (s : State w) (l : ℕ) (a : Atomic w) : State w :=
  { s with atomics := update s.atomics l a }

end State

namespace Thread

/-- `thread_release` -/
def release (th : Thread w) (node clk : ℕ) : Thread w :=
  if th.recentCl = 0 then th
  else { th with recentCl := 0, threadClock := th.threadClock.assign node clk }

/-- Start an operation on the atomic `l`. -/
def call (th : Thread w) (l : ℕ) (op : Op w) (order : MemoryOrder) : Thread w :=
  { th with
    loc := l
    op := op
    order := order
    code := CXLAtomic.code op order
    relClk := th.threadClock
    readFrom := [] }

/-- The write that the operation performs. -/
def write (th : Thread w) (rmw : Bool) : Write := ⟨decide (th.op.Releases th.order), th.relClk, rmw⟩

end Thread

/-- The value that a variable of type `T` gets from another one, possibly through a `char`. -/
def retVal (viaChar : Bool) (v : BitVec w) : BitVec w :=
  if viaChar then (v.setWidth 8).signExtend w else v

variable (home : ℕ → ℕ)

/-- The next access of thread `t`, whose operation has `rest` left after it. -/
def exec (s : State w) (t clk : ℕ) (rest : List (Instr w)) : Instr w → Option (State w)
  | .release =>
      let th := (s.threads t).release (home t) clk
      some (s.setThread t { th with code := rest, relClk := th.threadClock })
  | .lock =>
      let th := s.threads t
      match (s.atomics th.loc).mtx with
      | none =>
          some ((s.setAtomic th.loc { s.atomics th.loc with mtx := some t }).setThread t
            { th with code := rest })
      | some _ => none
  | .setClock =>
      let th := s.threads t
      some ((s.setAtomic th.loc { s.atomics th.loc with clock := th.threadClock }).setThread t
        { th with code := rest })
  | .mergeClock =>
      let th := s.threads t
      let a := s.atomics th.loc
      some ((s.setAtomic th.loc { a with clock := a.clock.merge th.threadClock }).setThread t
        { th with code := rest })
  | .readClock =>
      let th := s.threads t
      some (s.setThread t { th with code := rest, clock := (s.atomics th.loc).clock })
  | .store desired =>
      let th := s.threads t
      let a := s.atomics th.loc
      some ((s.setAtomic th.loc { a with data := desired, writes := th.write false :: a.writes
        }).setThread t { th with code := rest })
  | .load viaChar =>
      let th := s.threads t
      let a := s.atomics th.loc
      some (s.setThread t { th with code := rest, ret := retVal viaChar a.data, readFrom := a.writes })
  | .fetchAdd arg viaChar =>
      let th := s.threads t
      let a := s.atomics th.loc
      some ((s.setAtomic th.loc { a with
        data := a.data + arg
        writes := th.write true :: a.writes }).setThread t
          { th with code := rest, ret := retVal viaChar a.data, readFrom := a.writes })
  | .unlock =>
      let th := s.threads t
      some ((s.setAtomic th.loc { s.atomics th.loc with mtx := none }).setThread t
        { th with code := rest })
  | .acquire =>
      let th := s.threads t
      some (s.setThread t { th with code := rest, threadClock := th.threadClock.merge th.clock })

/-- One step; `none` when the action is not enabled. -/
def step (s : State w) : Action w → Option (State w)
  | .logStore t cl =>
      if (s.threads t).code = [] then some (s.setThread t { s.threads t with recentCl := cl })
      else none
  | .call t l op order =>
      if (s.threads t).code = [] then some (s.setThread t ((s.threads t).call l op order)) else none
  | .thread t clk =>
      match (s.threads t).code with
      | [] => none
      | i :: rest => exec home s t clk rest i

/-- No operation is running and nothing has been written yet. -/
structure Initial (s : State w) : Prop where
  code : ∀ t, (s.threads t).code = []
  mtx : ∀ l, (s.atomics l).mtx = none
  writes : ∀ l, (s.atomics l).writes = []

/-- Atomics and threads as a transition system. -/
def machine : Machine (State w) (Action w) where
  init := Initial
  step := step home

end CXLAtomic

end RACoherence
