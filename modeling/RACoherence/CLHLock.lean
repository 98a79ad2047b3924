import Mathlib.Data.Finset.Card
import RACoherence.Lib.Machine

/-!
# The CLH locks

Reference: `include/clhLock.hpp`, `CLHLock` (`lock`, `try_lock`, `unlock`) and `CLHSharedLock` (`lock`,
`lock_shared`, `unlock`, `unlock_shared`).

One lock, any number of threads, and an allocator that may return any node that is not allocated. Every
atomic access is a step; so is every access to `mynode`, and every call of the allocator. A thread that
holds the lock is the only one to call `unlock`, and a thread that reads the only one to call
`unlock_shared`. A node keeps what was written to it when it is freed. `mynode` is never null, as the
constructor sets it, so `unlock` does not fail; `active_readers` is an integer without bounds, as there are
fewer than `2 ^ 31` readers.

Not in the program are the order in which nodes were put into the queue, which is kept as a number for each
thread and the thread and the node for each number, and the set of the threads that are counted in
`active_readers`.
-/

namespace RACoherence

open Function

namespace CLHLock

/-- Why a thread works on the queue: `lock`, `try_lock` or `lock_shared`. -/
inductive Kind
  | lock
  | tryLock
  | lockShared
  deriving DecidableEq, Repr

/-- Where a thread is. `prev` is the node that the thread waits for, and `n` its own; that of `holding` and
`loadMine` is the one it has locked with. -/
inductive Pc
  | idle
  | tryTail
  | tryLoad (prev : ℕ)
  | allocate (k : Kind)
  | construct (k : Kind) (n : ℕ)
  | swap (k : Kind) (n : ℕ)
  | spin (k : Kind) (n prev : ℕ)
  | deallocate (k : Kind) (n prev : ℕ)
  | setMine (k : Kind) (n : ℕ)
  | waitReaders (n : ℕ)
  | addReader (n : ℕ)
  | holding (n : ℕ)
  | loadMine (k : Kind) (n : ℕ)
  | release (k : Kind) (n mine : ℕ)
  | reading
  | subReader
  deriving DecidableEq, Repr

structure State where
  tail : ℕ
  mynode : ℕ
  succMustWait : ℕ → Bool
  activeReaders : ℤ
  allocated : ℕ → Bool
  pc : ℕ → Pc
  enq : ℕ
  deq : ℕ
  turn : ℕ → ℕ
  ticket : ℕ → ℕ
  nodeOf : ℕ → ℕ
  readers : Finset ℕ

inductive Action
  | lock (t : ℕ)
  | tryLock (t : ℕ)
  | lockShared (t : ℕ)
  | unlock (t : ℕ)
  | unlockShared (t : ℕ)
  | allocate (t n : ℕ)
  | thread (t : ℕ)
  deriving DecidableEq, Repr

/-- The state after the constructor, which has allocated node `n₀`. -/
def initial (n₀ : ℕ) : State where
  tail := n₀
  mynode := n₀
  succMustWait _ := false
  activeReaders := 0
  allocated := update (fun _ => false) n₀ true
  pc _ := .idle
  enq := 0
  deq := 0
  turn _ := 0
  ticket _ := 0
  nodeOf _ := n₀
  readers := ∅

namespace State

/-- Move thread `t` to `pc`. -/
def setPc (s : State) (t : ℕ) (pc : Pc) : State := { s with pc := update s.pc t pc }

/-- Put node `n` of thread `t` at the end of the queue. The first place is number 1. -/
def enqueue (s : State) (t n : ℕ) : State :=
  { s with
    tail := n
    enq := s.enq + 1
    turn := update s.turn (s.enq + 1) t
    ticket := update s.ticket t (s.enq + 1)
    nodeOf := update s.nodeOf (s.enq + 1) n }

/-- Take the first node out of the queue. -/
def dequeue (s : State) : State := { s with deq := s.deq + 1 }

/-- `node->succ_must_wait.store(b)` -/
def store (s : State) (n : ℕ) (b : Bool) : State :=
  { s with succMustWait := update s.succMustWait n b }

/-- A call of the allocator. -/
def setAllocated (s : State) (n : ℕ) (b : Bool) : State :=
  { s with allocated := update s.allocated n b }

end State

-- whether the lock is the `wlock` of a `CLHSharedLock`
variable (shared : Bool)

/-- Where a thread goes when it has the queue lock and `mynode` is set. -/
def entered (k : Kind) (n : ℕ) : Pc :=
  match k with
  | .lockShared => .addReader n
  | _ => if shared then .waitReaders n else .holding n

/-- Where a thread goes when it has released the queue lock. -/
def left : Kind → Pc
  | .lockShared => .reading
  | _ => .idle

/-- The next step of thread `t`. -/
def stepThread (s : State) (t : ℕ) : Option State :=
  match s.pc t with
  | .tryTail => some (s.setPc t (.tryLoad s.tail))
  | .tryLoad p => some (s.setPc t (if s.succMustWait p then .idle else .allocate .tryLock))
  | .construct k n => some ((s.store n true).setPc t (.swap k n))
  | .swap k n => some ((s.enqueue t n).setPc t (.spin k n s.tail))
  | .spin k n p => some (s.setPc t (if s.succMustWait p then .spin k n p else .deallocate k n p))
  | .deallocate k n p => some ((s.setAllocated p false).setPc t (.setMine k n))
  | .setMine k n => some ({ s with mynode := n }.setPc t (entered shared k n))
  | .waitReaders n => some (s.setPc t (if 0 < s.activeReaders then .waitReaders n else .holding n))
  | .addReader n =>
      some ({ s with
        activeReaders := s.activeReaders + 1
        readers := insert t s.readers }.setPc t (.loadMine .lockShared n))
  | .loadMine k n => some (s.setPc t (.release k n s.mynode))
  | .release k _ m => some (((s.store m false).dequeue).setPc t (left k))
  | .subReader =>
      some ({ s with
        activeReaders := s.activeReaders - 1
        readers := s.readers.erase t }.setPc t .idle)
  | .idle | .allocate _ | .holding _ | .reading => none

/-- One step; `none` when the action is not enabled. -/
def step (s : State) : Action → Option State
  | .lock t => if s.pc t = .idle then some (s.setPc t (.allocate .lock)) else none
  | .tryLock t => if shared = false ∧ s.pc t = .idle then some (s.setPc t .tryTail) else none
  | .lockShared t =>
      if shared = true ∧ s.pc t = .idle then some (s.setPc t (.allocate .lockShared)) else none
  | .unlock t =>
      match s.pc t with
      | .holding n => some (s.setPc t (.loadMine .lock n))
      | _ => none
  | .unlockShared t => if s.pc t = .reading then some (s.setPc t .subReader) else none
  | .allocate t n =>
      match s.pc t with
      | .allocate k =>
          if s.allocated n then none
          else some ((s.setAllocated n true).setPc t (.construct k n))
      | _ => none
  | .thread t => stepThread shared s t

/-- The lock and its clients as a transition system. -/
def machine : Machine State Action where
  init s := ∃ n₀, s = initial n₀
  step := step shared

/-- The transitions. -/
inductive Step (s : State) : Action → State → Prop
  | lock {t : ℕ} : s.pc t = .idle → Step s (.lock t) (s.setPc t (.allocate .lock))
  | tryLock {t : ℕ} : shared = false → s.pc t = .idle → Step s (.tryLock t) (s.setPc t .tryTail)
  | lockShared {t : ℕ} : shared = true → s.pc t = .idle →
      Step s (.lockShared t) (s.setPc t (.allocate .lockShared))
  | unlock {t n : ℕ} : s.pc t = .holding n → Step s (.unlock t) (s.setPc t (.loadMine .lock n))
  | unlockShared {t : ℕ} : s.pc t = .reading → Step s (.unlockShared t) (s.setPc t .subReader)
  | allocate {t n : ℕ} {k : Kind} : s.pc t = .allocate k → s.allocated n = false →
      Step s (.allocate t n)
        ((s.setAllocated n true).setPc t (.construct k n))
  | tryTail {t : ℕ} : s.pc t = .tryTail → Step s (.thread t) (s.setPc t (.tryLoad s.tail))
  | tryTaken {t p : ℕ} : s.pc t = .tryLoad p → s.succMustWait p = true →
      Step s (.thread t) (s.setPc t .idle)
  | tryFree {t p : ℕ} : s.pc t = .tryLoad p → s.succMustWait p = false →
      Step s (.thread t) (s.setPc t (.allocate .tryLock))
  | construct {t n : ℕ} {k : Kind} : s.pc t = .construct k n →
      Step s (.thread t) ((s.store n true).setPc t (.swap k n))
  | swap {t n : ℕ} {k : Kind} : s.pc t = .swap k n →
      Step s (.thread t) ((s.enqueue t n).setPc t (.spin k n s.tail))
  | spinLocked {t n p : ℕ} {k : Kind} : s.pc t = .spin k n p → s.succMustWait p = true →
      Step s (.thread t) s
  | spinFree {t n p : ℕ} {k : Kind} : s.pc t = .spin k n p → s.succMustWait p = false →
      Step s (.thread t) (s.setPc t (.deallocate k n p))
  | deallocate {t n p : ℕ} {k : Kind} : s.pc t = .deallocate k n p →
      Step s (.thread t) ((s.setAllocated p false).setPc t (.setMine k n))
  | setMine {t n : ℕ} {k : Kind} : s.pc t = .setMine k n →
      Step s (.thread t) ({ s with mynode := n }.setPc t (entered shared k n))
  | waitReaders {t n : ℕ} : s.pc t = .waitReaders n → 0 < s.activeReaders → Step s (.thread t) s
  | noReaders {t n : ℕ} : s.pc t = .waitReaders n → s.activeReaders ≤ 0 →
      Step s (.thread t) (s.setPc t (.holding n))
  | addReader {t n : ℕ} : s.pc t = .addReader n →
      Step s (.thread t) ({ s with
        activeReaders := s.activeReaders + 1
        readers := insert t s.readers }.setPc t (.loadMine .lockShared n))
  | loadMine {t n : ℕ} {k : Kind} : s.pc t = .loadMine k n →
      Step s (.thread t) (s.setPc t (.release k n s.mynode))
  | release {t n m : ℕ} {k : Kind} : s.pc t = .release k n m →
      Step s (.thread t) (((s.store m false).dequeue).setPc t (left k))
  | subReader {t : ℕ} : s.pc t = .subReader →
      Step s (.thread t) ({ s with
        activeReaders := s.activeReaders - 1
        readers := s.readers.erase t }.setPc t .idle)

variable {shared} {s s' : State} {a : Action}

theorem State.setPc_self {t : ℕ} {pc : Pc} (h : s.pc t = pc) : s.setPc t pc = s := by
  simp [State.setPc, ← h]

theorem stepThread_cases {t : ℕ} (hs : stepThread shared s t = some s') :
    Step shared s (.thread t) s' := by
  unfold stepThread at hs
  split at hs
  · cases hs
    exact .tryTail ‹_›
  · rename_i p hpc
    cases hs
    cases hwait : s.succMustWait p with
    | true => exact .tryTaken hpc hwait
    | false => exact .tryFree hpc hwait
  · cases hs
    exact .construct ‹_›
  · cases hs
    exact .swap ‹_›
  · rename_i k n p hpc
    cases hs
    cases hwait : s.succMustWait p with
    | true =>
        rw [if_pos rfl, State.setPc_self hpc]
        exact .spinLocked hpc hwait
    | false => exact .spinFree hpc hwait
  · cases hs
    exact .deallocate ‹_›
  · cases hs
    exact .setMine ‹_›
  · rename_i n hpc
    cases hs
    by_cases hreaders : 0 < s.activeReaders
    · rw [if_pos hreaders, State.setPc_self hpc]
      exact .waitReaders hpc hreaders
    · rw [if_neg hreaders]
      exact .noReaders hpc (Int.not_lt.mp hreaders)
  · cases hs
    exact .addReader ‹_›
  · cases hs
    exact .loadMine ‹_›
  · cases hs
    exact .release ‹_›
  · cases hs
    exact .subReader ‹_›
  all_goals cases hs

theorem step_cases (hs : step shared s a = some s') : Step shared s a s' := by
  cases a with
  | lock t =>
      simp only [step] at hs
      split at hs <;> cases hs
      exact .lock ‹_›
  | tryLock t =>
      simp only [step] at hs
      split at hs <;> cases hs
      rename_i h
      exact .tryLock h.1 h.2
  | lockShared t =>
      simp only [step] at hs
      split at hs <;> cases hs
      rename_i h
      exact .lockShared h.1 h.2
  | unlock t =>
      simp only [step] at hs
      split at hs <;> cases hs
      exact .unlock ‹_›
  | unlockShared t =>
      simp only [step] at hs
      split at hs <;> cases hs
      exact .unlockShared ‹_›
  | allocate t n =>
      simp only [step] at hs
      split at hs
      · rename_i hpc
        split at hs <;> cases hs
        rename_i hfree
        exact .allocate hpc (by simpa using hfree)
      · cases hs
  | thread t => exact stepThread_cases hs

namespace Pc

/-- The node that the thread has allocated and not put into the queue. -/
def prepares : Pc → Option ℕ
  | .construct _ n | .swap _ n => some n
  | .idle | .tryTail | .tryLoad _ | .allocate _ | .spin _ _ _ | .deallocate _ _ _ | .setMine _ _
  | .waitReaders _ | .addReader _ | .holding _ | .loadMine _ _ | .release _ _ _ | .reading
  | .subReader => none

/-- The node of the thread in the queue. -/
def own : Pc → Option ℕ
  | .spin _ n _ | .deallocate _ n _ | .setMine _ n | .waitReaders n | .addReader n | .holding n
  | .loadMine _ n | .release _ n _ => some n
  | .idle | .tryTail | .tryLoad _ | .allocate _ | .construct _ _ | .swap _ _ | .reading
  | .subReader => none

/-- The node in front of that of the thread, as long as it is not freed. -/
def before : Pc → Option ℕ
  | .spin _ _ p | .deallocate _ _ p => some p
  | .idle | .tryTail | .tryLoad _ | .allocate _ | .construct _ _ | .swap _ _ | .setMine _ _
  | .waitReaders _ | .addReader _ | .holding _ | .loadMine _ _ | .release _ _ _ | .reading
  | .subReader => none

/-- The thread has found the queue lock free. -/
def first : Pc → Bool
  | .deallocate _ _ _ | .setMine _ _ | .waitReaders _ | .addReader _ | .holding _ | .loadMine _ _
  | .release _ _ _ => true
  | .idle | .tryTail | .tryLoad _ | .allocate _ | .construct _ _ | .swap _ _ | .spin _ _ _ | .reading
  | .subReader => false

/-- The node that `mynode` is then. -/
def mine : Pc → Option ℕ
  | .waitReaders n | .addReader n | .holding n | .loadMine _ n | .release _ n _ => some n
  | .idle | .tryTail | .tryLoad _ | .allocate _ | .construct _ _ | .swap _ _ | .spin _ _ _
  | .deallocate _ _ _ | .setMine _ _ | .reading | .subReader => none

/-- The node that the next step of the thread reads, writes or frees, other than in the check of `try_lock`.
-/
def accesses : Pc → Option ℕ
  | .construct _ n => some n
  | .spin _ _ p | .deallocate _ _ p => some p
  | .release _ _ m => some m
  | .idle | .tryTail | .tryLoad _ | .allocate _ | .swap _ _ | .setMine _ _ | .waitReaders _
  | .addReader _ | .holding _ | .loadMine _ _ | .reading | .subReader => none

end Pc

end CLHLock

end RACoherence
