import Mathlib.Data.Finset.Card
import RACoherence.Lib.Machine

/-!
# The MCS locks

Reference: `include/mcsLock.hpp`, `MCSLock` (`lock`, `try_lock`, `unlock`) and `MCSSharedLock` (`lock`,
`lock_shared`, `unlock`, `unlock_shared`).

One lock, any number of threads, and an allocator that may return any node that is not allocated. Every
atomic access is a step; so is every access to `owner`, and every call of the allocator. A thread that
holds the lock is the only one to call `unlock`, and a thread that reads the only one to call
`unlock_shared`. A node keeps what was written to it when it is freed. `active_readers` is an integer without
bounds, as there are fewer than `2 ^ 31` readers.

Not in the program are the order in which nodes were put into the queue, which is kept as a number for
each thread and the thread for each number, the node that the holder has locked with, and the set of the
threads that are counted in `active_readers`.
-/

namespace RACoherence

open Function

namespace MCSLock

/-- Why a thread works on the queue: `lock`, `try_lock` or `lock_shared`. -/
inductive Kind
  | lock
  | tryLock
  | lockShared
  deriving DecidableEq, Repr

/-- Where a thread is. `swap` is the exchange of `tail`, for `try_lock` the compare-and-exchange. The node
of `holding` and `loadOwner` is the one that the thread has locked with. -/
inductive Pc
  | idle
  | tryLoad
  | allocate (k : Kind)
  | setNext (k : Kind) (n : ℕ)
  | setLocked (k : Kind) (n : ℕ)
  | swap (k : Kind) (n : ℕ)
  | link (k : Kind) (n predecessor : ℕ)
  | spin (k : Kind) (n : ℕ)
  | setOwner (k : Kind) (n : ℕ)
  | waitReaders (n : ℕ)
  | addReader (n : ℕ)
  | holding (n : ℕ)
  | loadOwner (n : ℕ)
  | loadNext (k : Kind) (n : ℕ)
  | casTail (k : Kind) (n : ℕ)
  | spinNext (k : Kind) (n : ℕ)
  | handOff (k : Kind) (n next : ℕ)
  | deallocate (k : Kind) (n : ℕ)
  | reading
  | subReader
  deriving DecidableEq, Repr

/-- `MCSNode` -/
structure Node where
  next : Option ℕ
  locked : Bool
  deriving DecidableEq, Repr

structure State where
  tail : Option ℕ
  owner : Option ℕ
  node : ℕ → Node
  activeReaders : ℤ
  allocated : ℕ → Bool
  pc : ℕ → Pc
  enq : ℕ
  deq : ℕ
  turn : ℕ → ℕ
  ticket : ℕ → ℕ
  readers : Finset ℕ

inductive Action
  | lock (t : ℕ)
  | tryLock (t : ℕ)
  | lockShared (t : ℕ)
  | unlock (t : ℕ)
  | unlockShared (t : ℕ)
  | allocate (t n : ℕ)
  | thread (t : ℕ)
  deriving DecidableEq, Repr

def initial : State where
  tail := none
  owner := none
  node _ := ⟨none, false⟩
  activeReaders := 0
  allocated _ := false
  pc _ := .idle
  enq := 0
  deq := 0
  turn _ := 0
  ticket _ := 0
  readers := ∅

namespace State

/-- Move thread `t` to `pc`. -/
def setPc (s : State) (t : ℕ) (pc : Pc) : State := { s with pc := update s.pc t pc }

/-- Put node `n` of thread `t` at the end of the queue. -/
def enqueue (s : State) (t n : ℕ) : State :=
  { s with
    tail := some n
    enq := s.enq + 1
    turn := update s.turn s.enq t
    ticket := update s.ticket t s.enq }

/-- Take the first node out of the queue. -/
def dequeue (s : State) : State := { s with deq := s.deq + 1 }

/-- `node->next.store(p)` -/
def storeNext (s : State) (n : ℕ) (p : Option ℕ) : State :=
  { s with node := update s.node n { s.node n with next := p } }

/-- `node->locked.store(b)` -/
def storeLocked (s : State) (n : ℕ) (b : Bool) : State :=
  { s with node := update s.node n { s.node n with locked := b } }

end State

-- whether the lock is an `MCSSharedLock`
variable (shared : Bool)

/-- Where a thread goes when its node is first in the queue and `owner` is set. -/
def entered (k : Kind) (n : ℕ) : Pc :=
  match k with
  | .lockShared => .addReader n
  | _ => if shared then .waitReaders n else .holding n

/-- Where a thread goes when its node is freed. -/
def left : Kind → Pc
  | .lockShared => .reading
  | _ => .idle

/-- The next step of thread `t`. -/
def stepThread (s : State) (t : ℕ) : Option State :=
  match s.pc t with
  | .tryLoad => some (s.setPc t (if s.tail = none then .allocate .tryLock else .idle))
  | .setNext k n => some ((s.storeNext n none).setPc t (.setLocked k n))
  | .setLocked k n => some ((s.storeLocked n true).setPc t (.swap k n))
  | .swap k n =>
      match s.tail with
      | none => some ((s.enqueue t n).setPc t (.setOwner k n))
      | some p =>
          if k = .tryLock then some (s.setPc t (.deallocate k n))
          else some ((s.enqueue t n).setPc t (.link k n p))
  | .link k n p => some ((s.storeNext p (some n)).setPc t (.spin k n))
  | .spin k n => some (s.setPc t (if (s.node n).locked then .spin k n else .setOwner k n))
  | .setOwner k n => some ({ s with owner := some n }.setPc t (entered shared k n))
  | .waitReaders n => some (s.setPc t (if 0 < s.activeReaders then .waitReaders n else .holding n))
  | .addReader n =>
      some ({ s with
        activeReaders := s.activeReaders + 1
        readers := insert t s.readers }.setPc t (.loadNext .lockShared n))
  | .loadOwner _ => s.owner.map fun n => s.setPc t (.loadNext .lock n)
  | .loadNext k n =>
      match (s.node n).next with
      | none => some (s.setPc t (.casTail k n))
      | some m => some (s.setPc t (.handOff k n m))
  | .casTail k n =>
      if s.tail = some n then some ({ s with tail := none }.dequeue.setPc t (.deallocate k n))
      else some (s.setPc t (.spinNext k n))
  | .spinNext k n =>
      match (s.node n).next with
      | none => some s
      | some m => some (s.setPc t (.handOff k n m))
  | .handOff k n m => some (((s.storeLocked m false).dequeue).setPc t (.deallocate k n))
  | .deallocate k n => some ({ s with allocated := update s.allocated n false }.setPc t (left k))
  | .subReader =>
      some ({ s with
        activeReaders := s.activeReaders - 1
        readers := s.readers.erase t }.setPc t .idle)
  | .idle | .allocate _ | .holding _ | .reading => none

/-- One step; `none` when the action is not enabled. -/
def step (s : State) : Action → Option State
  | .lock t => if s.pc t = .idle then some (s.setPc t (.allocate .lock)) else none
  | .tryLock t =>
      if shared = false ∧ s.pc t = .idle then some (s.setPc t .tryLoad) else none
  | .lockShared t =>
      if shared = true ∧ s.pc t = .idle then some (s.setPc t (.allocate .lockShared)) else none
  | .unlock t =>
      match s.pc t with
      | .holding n => some (s.setPc t (.loadOwner n))
      | _ => none
  | .unlockShared t => if s.pc t = .reading then some (s.setPc t .subReader) else none
  | .allocate t n =>
      match s.pc t with
      | .allocate k =>
          if s.allocated n then none
          else some ({ s with allocated := update s.allocated n true }.setPc t (.setNext k n))
      | _ => none
  | .thread t => stepThread shared s t

/-- The lock and its clients as a transition system. -/
def machine : Machine State Action where
  init s := s = initial
  step := step shared

/-- The transitions. -/
inductive Step (s : State) : Action → State → Prop
  | lock {t : ℕ} : s.pc t = .idle → Step s (.lock t) (s.setPc t (.allocate .lock))
  | tryLock {t : ℕ} : shared = false → s.pc t = .idle → Step s (.tryLock t) (s.setPc t .tryLoad)
  | lockShared {t : ℕ} : shared = true → s.pc t = .idle →
      Step s (.lockShared t) (s.setPc t (.allocate .lockShared))
  | unlock {t n : ℕ} : s.pc t = .holding n → Step s (.unlock t) (s.setPc t (.loadOwner n))
  | unlockShared {t : ℕ} : s.pc t = .reading → Step s (.unlockShared t) (s.setPc t .subReader)
  | allocate {t n : ℕ} {k : Kind} : s.pc t = .allocate k → s.allocated n = false →
      Step s (.allocate t n)
        ({ s with allocated := update s.allocated n true }.setPc t (.setNext k n))
  | tryFree {t : ℕ} : s.pc t = .tryLoad → s.tail = none →
      Step s (.thread t) (s.setPc t (.allocate .tryLock))
  | tryTaken {t : ℕ} : s.pc t = .tryLoad → s.tail ≠ none → Step s (.thread t) (s.setPc t .idle)
  | setNext {t n : ℕ} {k : Kind} : s.pc t = .setNext k n →
      Step s (.thread t) ((s.storeNext n none).setPc t (.setLocked k n))
  | setLocked {t n : ℕ} {k : Kind} : s.pc t = .setLocked k n →
      Step s (.thread t) ((s.storeLocked n true).setPc t (.swap k n))
  | swapFree {t n : ℕ} {k : Kind} : s.pc t = .swap k n → s.tail = none →
      Step s (.thread t) ((s.enqueue t n).setPc t (.setOwner k n))
  | swapFail {t n p : ℕ} : s.pc t = .swap .tryLock n → s.tail = some p →
      Step s (.thread t) (s.setPc t (.deallocate .tryLock n))
  | swapTaken {t n p : ℕ} {k : Kind} : s.pc t = .swap k n → s.tail = some p → k ≠ .tryLock →
      Step s (.thread t) ((s.enqueue t n).setPc t (.link k n p))
  | link {t n p : ℕ} {k : Kind} : s.pc t = .link k n p →
      Step s (.thread t) ((s.storeNext p (some n)).setPc t (.spin k n))
  | spinLocked {t n : ℕ} {k : Kind} : s.pc t = .spin k n → (s.node n).locked = true →
      Step s (.thread t) s
  | spinFree {t n : ℕ} {k : Kind} : s.pc t = .spin k n → (s.node n).locked = false →
      Step s (.thread t) (s.setPc t (.setOwner k n))
  | setOwner {t n : ℕ} {k : Kind} : s.pc t = .setOwner k n →
      Step s (.thread t) ({ s with owner := some n }.setPc t (entered shared k n))
  | waitReaders {t n : ℕ} : s.pc t = .waitReaders n → 0 < s.activeReaders → Step s (.thread t) s
  | noReaders {t n : ℕ} : s.pc t = .waitReaders n → s.activeReaders ≤ 0 →
      Step s (.thread t) (s.setPc t (.holding n))
  | addReader {t n : ℕ} : s.pc t = .addReader n →
      Step s (.thread t) ({ s with
        activeReaders := s.activeReaders + 1
        readers := insert t s.readers }.setPc t (.loadNext .lockShared n))
  | loadOwner {t n m : ℕ} : s.pc t = .loadOwner n → s.owner = some m →
      Step s (.thread t) (s.setPc t (.loadNext .lock m))
  | nextNull {t n : ℕ} {k : Kind} : s.pc t = .loadNext k n → (s.node n).next = none →
      Step s (.thread t) (s.setPc t (.casTail k n))
  | nextKnown {t n m : ℕ} {k : Kind} : s.pc t = .loadNext k n → (s.node n).next = some m →
      Step s (.thread t) (s.setPc t (.handOff k n m))
  | casTail {t n : ℕ} {k : Kind} : s.pc t = .casTail k n → s.tail = some n →
      Step s (.thread t) ({ s with tail := none }.dequeue.setPc t (.deallocate k n))
  | casFail {t n : ℕ} {k : Kind} : s.pc t = .casTail k n → s.tail ≠ some n →
      Step s (.thread t) (s.setPc t (.spinNext k n))
  | spinNull {t n : ℕ} {k : Kind} : s.pc t = .spinNext k n → (s.node n).next = none →
      Step s (.thread t) s
  | spinKnown {t n m : ℕ} {k : Kind} : s.pc t = .spinNext k n → (s.node n).next = some m →
      Step s (.thread t) (s.setPc t (.handOff k n m))
  | handOff {t n m : ℕ} {k : Kind} : s.pc t = .handOff k n m →
      Step s (.thread t) (((s.storeLocked m false).dequeue).setPc t (.deallocate k n))
  | deallocate {t n : ℕ} {k : Kind} : s.pc t = .deallocate k n →
      Step s (.thread t) ({ s with allocated := update s.allocated n false }.setPc t (left k))
  | subReader {t : ℕ} : s.pc t = .subReader →
      Step s (.thread t) ({ s with
        activeReaders := s.activeReaders - 1
        readers := s.readers.erase t }.setPc t .idle)

variable {shared} {s s' : State} {a : Action}

theorem State.setPc_self {t : ℕ} {pc : Pc} (h : s.pc t = pc) : s.setPc t pc = s := by
  simp [State.setPc, ← h]

theorem stepThread_cases {t : ℕ} (hs : stepThread shared s t = some s') :
    Step shared s (.thread t) s' := by
  unfold stepThread at hs
  split at hs
  · rename_i hpc
    cases hs
    by_cases htail : s.tail = none
    · rw [if_pos htail]
      exact .tryFree hpc htail
    · rw [if_neg htail]
      exact .tryTaken hpc htail
  · cases hs
    exact .setNext ‹_›
  · cases hs
    exact .setLocked ‹_›
  · rename_i k n hpc
    split at hs
    · cases hs
      exact .swapFree hpc ‹_›
    · split at hs
      · rename_i hk
        cases hs
        subst hk
        exact .swapFail hpc ‹_›
      · cases hs
        exact .swapTaken hpc ‹_› ‹_›
  · cases hs
    exact .link ‹_›
  · rename_i k n hpc
    cases hs
    cases hlocked : (s.node n).locked with
    | true =>
        rw [if_pos rfl, State.setPc_self hpc]
        exact .spinLocked hpc hlocked
    | false => exact .spinFree hpc hlocked
  · cases hs
    exact .setOwner ‹_›
  · rename_i n hpc
    cases hs
    by_cases hreaders : 0 < s.activeReaders
    · rw [if_pos hreaders, State.setPc_self hpc]
      exact .waitReaders hpc hreaders
    · rw [if_neg hreaders]
      exact .noReaders hpc (Int.not_lt.mp hreaders)
  · cases hs
    exact .addReader ‹_›
  · rename_i hpc
    obtain ⟨m, hm, rfl⟩ := Option.map_eq_some_iff.mp hs
    exact .loadOwner hpc hm
  · rename_i hpc
    split at hs <;> cases hs
    · exact .nextNull hpc ‹_›
    · exact .nextKnown hpc ‹_›
  · rename_i hpc
    split at hs <;> cases hs
    · exact .casTail hpc ‹_›
    · exact .casFail hpc ‹_›
  · rename_i hpc
    split at hs <;> cases hs
    · exact .spinNull hpc ‹_›
    · exact .spinKnown hpc ‹_›
  · cases hs
    exact .handOff ‹_›
  · cases hs
    exact .deallocate ‹_›
  · cases hs
    exact .subReader ‹_›
  all_goals cases hs

theorem step_cases (hs : step shared s a = some s') : Step shared s a s' := by
  cases a with
  | lock t =>
      simp only [step] at hs
      split at hs <;> cases hs
      exact .lock ‹_›
  | tryLock t =>
      simp only [step] at hs
      split at hs <;> cases hs
      rename_i h
      exact .tryLock h.1 h.2
  | lockShared t =>
      simp only [step] at hs
      split at hs <;> cases hs
      rename_i h
      exact .lockShared h.1 h.2
  | unlock t =>
      simp only [step] at hs
      split at hs <;> cases hs
      exact .unlock ‹_›
  | unlockShared t =>
      simp only [step] at hs
      split at hs <;> cases hs
      exact .unlockShared ‹_›
  | allocate t n =>
      simp only [step] at hs
      split at hs
      · rename_i hpc
        split at hs <;> cases hs
        rename_i hfree
        exact .allocate hpc (by simpa using hfree)
      · cases hs
  | thread t => exact stepThread_cases hs

namespace Pc

/-- The node that the thread has allocated and not freed. -/
def own : Pc → Option ℕ
  | .setNext _ n | .setLocked _ n | .swap _ n | .link _ n _ | .spin _ n | .setOwner _ n
  | .waitReaders n | .addReader n | .holding n | .loadOwner n | .loadNext _ n | .casTail _ n
  | .spinNext _ n | .handOff _ n _ | .deallocate _ n => some n
  | .idle | .tryLoad | .allocate _ | .reading | .subReader => none

/-- The nodes that the next step of the thread reads or writes. -/
def accesses : Pc → List ℕ
  | .setNext _ n | .setLocked _ n | .spin _ n | .loadNext _ n | .spinNext _ n => [n]
  | .link _ _ p => [p]
  | .handOff _ _ m => [m]
  | _ => []

/-- The thread waits for its turn. -/
def waits : Pc → Bool
  | .link _ _ _ | .spin _ _ => true
  | .idle | .tryLoad | .allocate _ | .setNext _ _ | .setLocked _ _ | .swap _ _ | .setOwner _ _
  | .waitReaders _ | .addReader _ | .holding _ | .loadOwner _ | .loadNext _ _ | .casTail _ _
  | .spinNext _ _ | .handOff _ _ _ | .deallocate _ _ | .reading | .subReader => false

/-- The thread has the first node of the queue. -/
def first : Pc → Bool
  | .setOwner _ _ | .waitReaders _ | .addReader _ | .holding _ | .loadOwner _ | .loadNext _ _
  | .casTail _ _ | .spinNext _ _ | .handOff _ _ _ => true
  | .idle | .tryLoad | .allocate _ | .setNext _ _ | .setLocked _ _ | .swap _ _ | .link _ _ _
  | .spin _ _ | .deallocate _ _ | .reading | .subReader => false

/-- The node of the thread is in the queue. -/
def queued (pc : Pc) : Bool := pc.waits || pc.first

/-- The thread is counted in `active_readers`. -/
def counted : Pc → Bool
  | .loadNext k _ | .casTail k _ | .spinNext k _ | .handOff k _ _ | .deallocate k _ => k == .lockShared
  | .reading | .subReader => true
  | .idle | .tryLoad | .allocate _ | .setNext _ _ | .setLocked _ _ | .swap _ _ | .link _ _ _
  | .spin _ _ | .setOwner _ _ | .waitReaders _ | .addReader _ | .holding _ | .loadOwner _ => false

/-- The thread is a writer that has waited for the readers and has not handed the queue over. -/
def writes : Pc → Bool
  | .holding _ | .loadOwner _ => true
  | .loadNext k _ | .casTail k _ | .spinNext k _ | .handOff k _ _ => k != .lockShared
  | .idle | .tryLoad | .allocate _ | .setNext _ _ | .setLocked _ _ | .swap _ _ | .link _ _ _
  | .spin _ _ | .setOwner _ _ | .waitReaders _ | .addReader _ | .deallocate _ _ | .reading
  | .subReader => false

/-- The node, once its predecessor knows it. -/
def linked : Pc → Option ℕ
  | .spin _ n => some n
  | .idle | .tryLoad | .allocate _ | .setNext _ _ | .setLocked _ _ | .swap _ _ | .link _ _ _
  | .setOwner _ _ | .waitReaders _ | .addReader _ | .holding _ | .loadOwner _ | .loadNext _ _
  | .casTail _ _ | .spinNext _ _ | .handOff _ _ _ | .deallocate _ _ | .reading | .subReader => none

end Pc

end MCSLock

end RACoherence
