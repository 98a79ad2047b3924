import Mathlib.Algebra.Group.Nat.Defs
import RACoherence.CXLAtomic

/-!
# The barrier

Reference: `include/cxlSync.hpp`, `CXLBarrier`, with the atomics of `RACoherence.CXLAtomic` at
`T = int`.

`N` threads call `wait` again and again and interleave at single accesses of the atomics. What a thread
does between two calls is taken to be anything: it may change its clock and its recent line at will.
Not in the program are the number of calls that every thread has finished, its clock right after the
`thread_release` of its `arrived.fetch_add` of every round (once that is performed), and the outcome of
its comparison with `target` in every round.
-/

namespace RACoherence

open Function CXLAtomic

namespace CXLBarrier

/-- The atomic `target`. -/
def target : ℕ := 0

/-- The atomic `arrived`. -/
def arrived : ℕ := 1

/-- The atomic `phase`. -/
def phase : ℕ := 2

/-- Which operation of `wait` a thread is in, with the local variables. -/
inductive Pc
  | idle
  | loadPhase
  | arrive (localPhase : BitVec 32)
  | loadTarget (localPhase localArrived : BitVec 32)
  | reset
  | addPhase
  | spin (localPhase : BitVec 32)
  deriving DecidableEq

structure State where
  sync : CXLAtomic.State 32
  pc : ℕ → Pc
  round : ℕ → ℕ
  arrival : ℕ → ℕ → Option VectorClock
  decided : ℕ → ℕ → Option Bool

/-- A thread does something between two calls, calls `wait`, or takes its next step; `clk` is as for
`CXLAtomic.Action.thread`. -/
inductive Action
  | between (t : ℕ) (c : VectorClock) (cl : ℕ)
  | wait (t : ℕ)
  | thread (t clk : ℕ)

namespace State

/-- Thread `t` goes to `pc` and starts an operation there. -/
def call (s : State) (t : ℕ) (pc : Pc) (l : ℕ) (op : Op 32) (order : MemoryOrder) : State :=
  { s with
    sync := s.sync.setThread t ((s.sync.threads t).call l op order)
    pc := update s.pc t pc }

/-- Record the outcome of the comparison of thread `t`. -/
def decide (s : State) (t : ℕ) (b : Bool) : State :=
  { s with decided := update s.decided t (update (s.decided t) (s.round t) (some b)) }

/-- `wait` of thread `t` returns. -/
def leave (s : State) (t : ℕ) : State :=
  { s with
    pc := update s.pc t .idle
    round := update s.round t (s.round t + 1) }

/-- Record the arrival of thread `t`. -/
def arriveAt (s : State) (t : ℕ) : State :=
  { s with
    arrival := update s.arrival t (update (s.arrival t) (s.round t) (some (s.sync.threads t).relClk)) }

end State

/-- The step of `wait` from one operation to the next. -/
def control (s : State) (t : ℕ) : Option State :=
  let ret := (s.sync.threads t).ret
  match s.pc t with
  | .idle => none
  | .loadPhase => some (s.call t (.arrive ret) arrived (.fetchAdd 1) .acqRel)
  | .arrive localPhase => some (s.call t (.loadTarget localPhase (ret + 1)) target .load .relaxed)
  | .loadTarget localPhase localArrived =>
      if localArrived = ret then
        some ((s.decide t true).call t .reset arrived (.store 0) .relaxed)
      else some ((s.decide t false).call t (.spin localPhase) phase .load .acquire)
  | .reset => some (s.call t .addPhase phase (.fetchAdd 1) .acqRel)
  | .addPhase => some (s.leave t)
  | .spin localPhase =>
      if ret = localPhase then some (s.call t (.spin localPhase) phase .load .acquire)
      else some (s.leave t)

/-- The access is the one that counts an arrival. -/
def isArrival : Pc → Instr 32 → Bool
  | .arrive _, .fetchAdd _ _ => true
  | _, _ => false

variable (home : ℕ → ℕ) (N : ℕ)

/-- One step; `none` when the action is not enabled. -/
def step (s : State) : Action → Option State
  | .between t c cl =>
      if s.pc t = .idle then
        some { s with
          sync := s.sync.setThread t { s.sync.threads t with threadClock := c, recentCl := cl } }
      else none
  | .wait t =>
      if t < N ∧ s.pc t = .idle then some (s.call t .loadPhase phase .load .acquire) else none
  | .thread t clk =>
      match (s.sync.threads t).code with
      | [] => control s t
      | i :: rest =>
          (CXLAtomic.exec home s.sync t clk rest i).map fun sync =>
            { if isArrival (s.pc t) i then s.arriveAt t else s with sync := sync }

/-- `init(count)`, called by thread `t`; the values `c₁` and `c₂` are those that its two
`thread_release`s return if they write a log. -/
def initActions (t c₁ c₂ : ℕ) (count : BitVec 32) : List (CXLAtomic.Action 32) :=
  (.call t target (.store count) .relaxed :: [0].map (.thread t)) ++
    (.call t arrived (.store 0) .release :: [c₁, 0, 0, 0, 0].map (.thread t)) ++
    (.call t phase (.store 0) .release :: [c₂, 0, 0, 0, 0].map (.thread t))

/-- `init(N)` is done and nobody has called `wait`. -/
structure Initial (s : State) : Prop where
  init : ∃ s₀ t c₁ c₂, CXLAtomic.Initial s₀ ∧
    (CXLAtomic.machine home).exec (fun _ _ => true) s₀ (initActions t c₁ c₂ (BitVec.ofNat 32 N)) =
      some s.sync
  pc : ∀ t, s.pc t = .idle
  round : ∀ t, s.round t = 0
  arrival : ∀ t k, s.arrival t k = none
  decided : ∀ t k, s.decided t k = none

/-- The barrier with `N` participants as a transition system. -/
def machine : Machine State Action where
  init := Initial home N
  step := step home N

end CXLBarrier

end RACoherence
