import RACoherence.CXLAtomic
import RACoherence.Cluster.Memory
import RACoherence.FlushUtils
import RACoherence.InstrumentLib
import RACoherence.Lib.FlushProgram

/-!
# The build without the protocol

Reference: `include/runtime.hpp` (`rac_loadN`, `rac_storeN`) and `include/cxlSync.hpp` (`CXLAtomic`,
`CXLMutex`, `CXLSharedMutex`, `CXLRelaxedMutex`), with `PROTOCOL_OFF=1` and `NO_FLUSH=0`.

There are no logs and no clocks in this build. Every access of memory that is not hardware coherent
invalidates its line, every store begins to write its line back, and a release waits for that at a fence. A
section under a `CXLRelaxedMutex` does both for the lines of its data, which may be accessed as they are in
between.

A function is the list of its flushes, fences and accesses. The members that are not hardware coherent memory,
an atomic or an `inner->mtx`, are objects with atomic operations, and the lists of waiting threads are not in
the model. What is given to an object follows the memory orders that the functions of the library are called
with. `unlock_relaxed` gives nothing: the `mtx.unlock()` in it is a release for the language, but no fence
before it waits for the write-backs. A store does not cross the end of a line.
-/

namespace RACoherence

open Function FlushProgram
open Cluster (LineData Pending)

namespace ProtocolOff

/-- An `atomic_data`, the holder of a `Mutex`, or the writer and the readers of a `SharedMutex`. -/
inductive Obj (w : ℕ)
  | atomic (value : BitVec w)
  | mutex (holder : Option ℕ)
  | sharedMutex (writer : Option ℕ) (readers : List ℕ)
  deriving DecidableEq, Repr

namespace Obj

variable {w : ℕ}

/-- `atomic_data.store` -/
def store (desired : BitVec w) : Obj w → Option (Obj w)
  | .atomic _ => some (.atomic desired)
  | _ => none

/-- `atomic_data.load` -/
def load : Obj w → Option (Obj w)
  | .atomic value => some (.atomic value)
  | _ => none

/-- `atomic_data.fetch_add` -/
def fetchAdd (arg : BitVec w) : Obj w → Option (Obj w)
  | .atomic value => some (.atomic (value + arg))
  | _ => none

/-- `mtx.lock` of thread `t` -/
def lock (t : ℕ) : Obj w → Option (Obj w)
  | .mutex none => some (.mutex (some t))
  | .sharedMutex none [] => some (.sharedMutex (some t) [])
  | _ => none

/-- `mtx.unlock` -/
def unlock (t : ℕ) : Obj w → Option (Obj w)
  | .mutex holder => if holder = some t then some (.mutex none) else none
  | .sharedMutex writer readers => if writer = some t then some (.sharedMutex none readers) else none
  | _ => none

/-- `mtx.lock_shared` -/
def lockShared (t : ℕ) : Obj w → Option (Obj w)
  | .sharedMutex none readers => some (.sharedMutex none (t :: readers))
  | _ => none

/-- `mtx.unlock_shared` -/
def unlockShared (t : ℕ) : Obj w → Option (Obj w)
  | .sharedMutex writer readers =>
      if t ∈ readers then some (.sharedMutex writer (readers.erase t)) else none
  | _ => none

end Obj

/-- What is done to lines and objects. -/
abbrev Code (w : ℕ) := List (Instr ℕ ℕ (Obj w) LineData)

variable {w : ℕ}

/-! ## Instrumented accesses -/

/-- The store, to the line of its address. -/
def storeInstr (p : Pending) : Instr ℕ ℕ (Obj w) LineData :=
  .store (p.addr / cacheLineSize) (p.storeLine (p.addr / cacheLineSize))

/-- `rac_loadN` -/
def racLoad (addr : ℕ) : Code w :=
  if InstrumentLib.inCxlNhcMem addr then
    [.invalidate (addr / cacheLineSize), .invalidateFence, .load (addr / cacheLineSize)]
  else []

/-- `rac_storeN` -/
def racStore (p : Pending) : Code w :=
  if InstrumentLib.inCxlNhcMem p.addr then
    [.invalidate (p.addr / cacheLineSize), .invalidateFence, storeInstr p,
      .writeback (p.addr / cacheLineSize)]
  else []

/-! ## Atomics and mutexes -/

/-- A read with this order synchronises with the write that it reads from. -/
def acquires : MemoryOrder → Bool
  | .consume | .acquire | .acqRel | .seqCst => true
  | .relaxed | .release => false

/-- `CXLAtomic::store` -/
def atomicStore (o : ℕ) (desired : BitVec w) (order : MemoryOrder) : Code w :=
  if order = .seqCst ∨ order = .release then
    [.writebackFence, .sync o (Obj.store desired) false .replace]
  else [.sync o (Obj.store desired) false .clear]

/-- `CXLAtomic::load` -/
def atomicLoad (o : ℕ) (order : MemoryOrder) : Code w := [.sync o Obj.load (acquires order) .keep]

/-- `CXLAtomic::fetch_add` -/
def atomicFetchAdd (o : ℕ) (arg : BitVec w) (order : MemoryOrder) : Code w :=
  if order = .seqCst ∨ order = .release ∨ order = .acqRel then
    [.writebackFence, .sync o (Obj.fetchAdd arg) (acquires order) .merge]
  else [.sync o (Obj.fetchAdd arg) (acquires order) .keep]

/-- `CXLMutex::lock` and `CXLSharedMutex::lock` -/
def lock (t o : ℕ) : Code w := [.sync o (Obj.lock t) true .keep]

/-- `CXLMutex::unlock` and `CXLSharedMutex::unlock` -/
def unlock (t o : ℕ) : Code w := [.writebackFence, .sync o (Obj.unlock t) false .replace]

/-- `CXLMutex::unlock_relaxed` -/
def unlockRelaxed (t o : ℕ) : Code w := [.sync o (Obj.unlock t) false .keep]

/-- `CXLSharedMutex::lock_shared` -/
def lockShared (t o : ℕ) : Code w := [.sync o (Obj.lockShared t) true .keep]

/-- `CXLSharedMutex::unlock_shared` -/
def unlockShared (t o : ℕ) : Code w := [.writebackFence, .sync o (Obj.unlockShared t) false .merge]

/-! ## Sections under a relaxed mutex -/

/-- A flush instruction, for its line. -/
def flushInstr : FlushUtils.Flush → Instr ℕ ℕ (Obj w) LineData
  | .writeback ptr => .writeback (ptr / cacheLineSize)
  | .invalidate ptr => .invalidate (ptr / cacheLineSize)

/-- The flushes of a call of `do_range_writeback` or `do_range_invalidate` that ends. -/
def rangeCode (call : ℕ → ℕ → ℤ → Option (List FlushUtils.Flush)) (data n : ℕ) : Code w :=
  ((call (n / cacheLineSize + 3) data (FlushUtils.intArg n)).getD []).map flushInstr

/-- `CXLRelaxedMutex::lock`, with `n` for `Count * sizeof(T)` -/
def relaxedLock (t o data n : ℕ) : Code w :=
  lock t o ++ rangeCode FlushUtils.doRangeInvalidate data n ++ [.invalidateFence]

/-- `CXLRelaxedMutex::unlock` -/
def relaxedUnlock (t o data n : ℕ) : Code w :=
  rangeCode FlushUtils.doRangeWriteback data n ++ unlock t o

/-- An access of the data that is not instrumented. -/
inductive Access
  | load (addr : ℕ)
  | store (p : Pending)
  deriving DecidableEq, Repr

def Access.instr : Access → Instr ℕ ℕ (Obj w) LineData
  | .load addr => .load (addr / cacheLineSize)
  | .store p => storeInstr p

/-- The access is to the data, and does not cross the end of its line. -/
def Access.Within (data n : ℕ) : Access → Prop
  | .load addr => data ≤ addr ∧ addr < data + n
  | .store p => (data ≤ p.addr ∧ p.addr < data + n) ∧ p.addr + p.bytes.length ≤ data + n ∧ p.Fits

instance (data n : ℕ) : DecidablePred (Access.Within data n)
  | .load _ => inferInstanceAs (Decidable (_ ∧ _))
  | .store _ => inferInstanceAs (Decidable ((_ ∧ _) ∧ _ ∧ _))

/-- `lock`, what is done to the data, and `unlock`. -/
def relaxedSection (t o data n : ℕ) (body : List Access) : Code w :=
  relaxedLock t o data n ++ body.map Access.instr ++ relaxedUnlock t o data n

/-! ## Programs -/

/-- What a thread may call. -/
inductive Call (w : ℕ)
  | load (addr : ℕ)
  | store (p : Pending)
  | atomicStore (o : ℕ) (desired : BitVec w) (order : MemoryOrder)
  | atomicLoad (o : ℕ) (order : MemoryOrder)
  | atomicFetchAdd (o : ℕ) (arg : BitVec w) (order : MemoryOrder)
  | lock (o : ℕ)
  | unlock (o : ℕ)
  | unlockRelaxed (o : ℕ)
  | lockShared (o : ℕ)
  | unlockShared (o : ℕ)
  | relaxedSection (o data n : ℕ) (body : List Access)
  deriving DecidableEq, Repr

namespace Call

/-- What the call does. -/
def code (t : ℕ) : Call w → Code w
  | .load addr => racLoad addr
  | .store p => racStore p
  | .atomicStore o desired order => ProtocolOff.atomicStore o desired order
  | .atomicLoad o order => ProtocolOff.atomicLoad o order
  | .atomicFetchAdd o arg order => ProtocolOff.atomicFetchAdd o arg order
  | .lock o => ProtocolOff.lock t o
  | .unlock o => ProtocolOff.unlock t o
  | .unlockRelaxed o => ProtocolOff.unlockRelaxed t o
  | .lockShared o => ProtocolOff.lockShared t o
  | .unlockShared o => ProtocolOff.unlockShared t o
  | .relaxedSection o data n body => ProtocolOff.relaxedSection t o data n body

/-- Stores do not cross the end of a line, which the source leaves to the program; the data under a relaxed
mutex has a size that fits an `int`, and is all that its section accesses. -/
def Ok : Call w → Prop
  | .store p => p.Fits
  | .relaxedSection _ data n body =>
      (1 ≤ n ∧ n < 2 ^ 31) ∧ data + n ≤ 2 ^ 48 ∧ ∀ a ∈ body, a.Within data n
  | _ => True

instance : DecidablePred (Ok (w := w))
  | .store _ => inferInstanceAs (Decidable (Pending.Fits _))
  | .relaxedSection _ _ _ _ => inferInstanceAs (Decidable ((_ ∧ _) ∧ _ ∧ _))
  | .load _ | .atomicStore _ _ _ | .atomicLoad _ _ | .atomicFetchAdd _ _ _ | .lock _ | .unlock _
  | .unlockRelaxed _ | .lockShared _ | .unlockShared _ => inferInstanceAs (Decidable True)

end Call

/-- A program of such calls, from any objects and any memory. -/
abbrev machine (home : ℕ → ℕ) (objs : ℕ → Obj w) (mem : ℕ → LineData) :
    Machine (State ℕ ℕ ℕ ℕ (Obj w) LineData) (Action ℕ ℕ ℕ (Call w)) :=
  FlushProgram.machine home Call.code objs mem

/-- Calls are as they should be, and stores are race free. -/
def RaceFree (home : ℕ → ℕ) (s : State ℕ ℕ ℕ ℕ (Obj w) LineData) : Action ℕ ℕ ℕ (Call w) → Prop
  | .call _ k => k.Ok
  | .thread t => ∀ l f c, (s.threads t).code = .store l f :: c → Ordered home s t l
  | _ => True

/-! ## Every call is well flushed -/

variable {t o data n : ℕ}

/-- An access within the data is to one of its lines. -/
theorem Access.Within.accesses {a : Access} (h : a.Within data n) :
    ∃ l ∈ linesBelow (data / 64) (data + n), (a.instr : Instr ℕ ℕ (Obj w) LineData).Accesses l := by
  cases a with
  | load addr =>
      obtain ⟨hge, hlt⟩ := h
      refine ⟨addr / cacheLineSize, mem_linesBelow.mpr ?_, .inl rfl⟩
      rw [cacheLineSize]
      omega
  | store p =>
      obtain ⟨⟨hge, hlt⟩, -⟩ := h
      refine ⟨p.addr / cacheLineSize, mem_linesBelow.mpr ?_, .inr ⟨_, rfl⟩⟩
      rw [cacheLineSize]
      omega

variable {home : ℕ → ℕ} {objs : ℕ → Obj w} {mem : ℕ → LineData} {s : State ℕ ℕ ℕ ℕ (Obj w) LineData}

/-- The flushes of `rac_load_pre_invalidate` are not waited for, which is not enough. -/
example (l : ℕ) : ¬ WellFlushed ([.invalidate l, .load l] : Code w) := by
  rintro ⟨k, hrun, -⟩
  simp [Flushing.run, Flushing.next, Flushing.start] at hrun

end ProtocolOff

end RACoherence
