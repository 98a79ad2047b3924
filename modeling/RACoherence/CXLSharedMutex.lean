import RACoherence.Lib.Machine
import RACoherence.ThreadClock

/-!
# The shared mutex

Reference: `include/cxlSync.hpp`, `CXLSharedMutex`, without `CONSUME_HELP_IN_LOCK` and
`LOCATION_CLOCK_MERGE`. `inner->mtx` is taken to exclude writers from readers and from each other.

Readers overlap, and `unlock_shared` overwrites the clock of the mutex as `unlock` does. Where a reader
overwrites it with a clock that does not dominate it, what an earlier reader has released is lost.

Not in the program is the list of the clocks that threads had right after the `thread_release` of an
`unlock` or `unlock_shared`.
-/

namespace RACoherence

open Function ThreadClock

namespace CXLSharedMutex

/-- Where a thread is in a call. `lock` first takes the mutex shared and acquires its clock, then
exclusively; `excl` tells `unlock` from `unlock_shared`. -/
inductive Pc
  | idle
  | lockShared (o : ℕ) (forLock : Bool)
  | acquireShared (o : ℕ) (forLock : Bool)
  | unlockForLock (o : ℕ)
  | lock (o : ℕ)
  | acquire (o : ℕ)
  | release (o : ℕ) (excl : Bool)
  | unlock (o : ℕ) (excl : Bool)
  deriving DecidableEq, Repr

structure State where
  clocks : ThreadClock.State
  writer : ℕ → Option ℕ
  readers : ℕ → List ℕ
  clock : ℕ → VectorClock
  pc : ℕ → Pc
  released : ℕ → List VectorClock

inductive Action
  | logStore (t cl : ℕ) (full : Bool)
  | lock (t o : ℕ)
  | lockShared (t o : ℕ)
  | unlock (t o : ℕ)
  | unlockShared (t o : ℕ)
  | thread (t : ℕ)
  deriving DecidableEq, Repr

def initial : State where
  clocks := ThreadClock.initial
  writer _ := none
  readers _ := []
  clock _ _ := 0
  pc _ := .idle
  released _ := []

namespace State

/-- Move thread `t` to `pc`. -/
def setPc (s : State) (t : ℕ) (pc : Pc) : State := { s with pc := update s.pc t pc }

/-- Lock or unlock `inner->mtx` exclusively. -/
def setWriter (s : State) (o : ℕ) (p : Option ℕ) : State := { s with writer := update s.writer o p }

/-- Lock or unlock `inner->mtx` shared. -/
def setReaders (s : State) (o : ℕ) (ts : List ℕ) : State := { s with readers := update s.readers o ts }

/-- Overwrite `inner->clock`, and record it. -/
def writeClock (s : State) (o : ℕ) (c : VectorClock) : State :=
  { s with
    clock := update s.clock o c
    released := update s.released o (c :: s.released o) }

theorem setWriter_self (s : State) (o : ℕ) : s.setWriter o (s.writer o) = s := by
  simp [setWriter]

theorem setReaders_self (s : State) (o : ℕ) : s.setReaders o (s.readers o) = s := by
  simp [setReaders]

end State

variable (home : ℕ → ℕ)

/-- The next step of thread `t`. -/
def stepThread (s : State) (t : ℕ) : Option State :=
  let th := s.clocks.threads t
  match s.pc t with
  | .idle => none
  | .lockShared o forLock =>
      match s.writer o with
      | none => some ((s.setReaders o (t :: s.readers o)).setPc t (.acquireShared o forLock))
      | some _ => none
  | .acquireShared o forLock =>
      some ({ s with clocks := acquire s.clocks t (s.clock o) }.setPc t
        (if forLock then .unlockForLock o else .idle))
  | .unlockForLock o => some ((s.setReaders o ((s.readers o).erase t)).setPc t (.lock o))
  | .lock o =>
      match s.writer o, s.readers o with
      | none, [] => some ((s.setWriter o (some t)).setPc t (.acquire o))
      | _, _ => none
  | .acquire o => some ({ s with clocks := acquire s.clocks t (s.clock o) }.setPc t .idle)
  | .release o excl =>
      match th.release with
      | .none => some ((s.writeClock o th.clock).setPc t (.unlock o excl))
      | _ => (stepRelease home s.clocks t).map fun clocks => { s with clocks := clocks }
  | .unlock o true => some ((s.setWriter o none).setPc t .idle)
  | .unlock o false => some ((s.setReaders o ((s.readers o).erase t)).setPc t .idle)

/-- One step; `none` when the action is not enabled. -/
def step (s : State) : Action → Option State
  | .logStore t cl full =>
      if s.pc t = .idle then some { s with clocks := logStore home s.clocks t cl full } else none
  | .lock t o => if s.pc t = .idle then some (s.setPc t (.lockShared o true)) else none
  | .lockShared t o => if s.pc t = .idle then some (s.setPc t (.lockShared o false)) else none
  | .unlock t o =>
      if s.pc t = .idle ∧ s.writer o = some t then
        some ({ s with clocks := beginRelease s.clocks t }.setPc t (.release o true))
      else none
  | .unlockShared t o =>
      if s.pc t = .idle ∧ t ∈ s.readers o then
        some ({ s with clocks := beginRelease s.clocks t }.setPc t (.release o false))
      else none
  | .thread t => stepThread home s t

/-- Shared mutexes and threads as a transition system. -/
def machine : Machine State Action where
  init s := s = initial
  step := step home

/-- The index of a log that the step produces does not wrap. -/
def NoWrap (s : State) : Action → Prop
  | .logStore t _ full => full = true → Fits s.clocks (home t)
  | .thread t => (s.clocks.threads t).release = .produce → Fits s.clocks (home t)
  | _ => True

/-- If the step is the write of `unlock_shared` to the clock of the mutex, the clock of the thread is at
least what it overwrites. -/
def KeepsClock (s : State) : Action → Prop
  | .thread t => ∀ o, s.pc t = .release o false → (s.clocks.threads t).release = .none →
      s.clock o ≤ (s.clocks.threads t).clock
  | _ => True

/-- The transitions. -/
inductive Step (s : State) : Action → State → Prop
  | logStore {t cl : ℕ} {full : Bool} : s.pc t = .idle →
      Step s (.logStore t cl full) { s with clocks := logStore home s.clocks t cl full }
  | callLock {t o : ℕ} : s.pc t = .idle → Step s (.lock t o) (s.setPc t (.lockShared o true))
  | callLockShared {t o : ℕ} : s.pc t = .idle →
      Step s (.lockShared t o) (s.setPc t (.lockShared o false))
  | callUnlock {t o : ℕ} : s.pc t = .idle → s.writer o = some t →
      Step s (.unlock t o) ({ s with clocks := beginRelease s.clocks t }.setPc t (.release o true))
  | callUnlockShared {t o : ℕ} : s.pc t = .idle → t ∈ s.readers o →
      Step s (.unlockShared t o)
        ({ s with clocks := beginRelease s.clocks t }.setPc t (.release o false))
  | lockShared {t o : ℕ} {b : Bool} : s.pc t = .lockShared o b → s.writer o = none →
      Step s (.thread t) ((s.setReaders o (t :: s.readers o)).setPc t (.acquireShared o b))
  | acquireShared {t o : ℕ} {b : Bool} : s.pc t = .acquireShared o b →
      Step s (.thread t) ({ s with clocks := acquire s.clocks t (s.clock o) }.setPc t
        (if b then .unlockForLock o else .idle))
  | unlockForLock {t o : ℕ} : s.pc t = .unlockForLock o →
      Step s (.thread t) ((s.setReaders o ((s.readers o).erase t)).setPc t (.lock o))
  | lock {t o : ℕ} : s.pc t = .lock o → s.writer o = none → s.readers o = [] →
      Step s (.thread t) ((s.setWriter o (some t)).setPc t (.acquire o))
  | acquire {t o : ℕ} : s.pc t = .acquire o →
      Step s (.thread t) ({ s with clocks := acquire s.clocks t (s.clock o) }.setPc t .idle)
  | release {t o : ℕ} {b : Bool} {clocks : ThreadClock.State} : s.pc t = .release o b →
      stepRelease home s.clocks t = some clocks → Step s (.thread t) { s with clocks := clocks }
  | write {t o : ℕ} {b : Bool} : s.pc t = .release o b → (s.clocks.threads t).release = .none →
      Step s (.thread t) ((s.writeClock o (s.clocks.threads t).clock).setPc t (.unlock o b))
  | unlock {t o : ℕ} : s.pc t = .unlock o true →
      Step s (.thread t) ((s.setWriter o none).setPc t .idle)
  | unlockShared {t o : ℕ} : s.pc t = .unlock o false →
      Step s (.thread t) ((s.setReaders o ((s.readers o).erase t)).setPc t .idle)

variable {home} {s s' : State} {a : Action}

theorem step_cases (hs : step home s a = some s') : Step home s a s' := by
  cases a with
  | logStore t cl full =>
      simp only [step] at hs
      split at hs <;> cases hs
      exact .logStore ‹_›
  | lock t o =>
      simp only [step] at hs
      split at hs <;> cases hs
      exact .callLock ‹_›
  | lockShared t o =>
      simp only [step] at hs
      split at hs <;> cases hs
      exact .callLockShared ‹_›
  | unlock t o =>
      simp only [step] at hs
      split at hs <;> cases hs
      rename_i h
      exact .callUnlock h.1 h.2
  | unlockShared t o =>
      simp only [step] at hs
      split at hs <;> cases hs
      rename_i h
      exact .callUnlockShared h.1 h.2
  | thread t =>
      simp only [step, stepThread] at hs
      split at hs
      · cases hs
      · rename_i hpc
        split at hs <;> cases hs
        exact .lockShared hpc ‹_›
      · cases hs
        exact .acquireShared ‹_›
      · cases hs
        exact .unlockForLock ‹_›
      · rename_i hpc
        split at hs <;> cases hs
        exact .lock hpc ‹_› ‹_›
      · cases hs
        exact .acquire ‹_›
      · rename_i hpc
        split at hs
        · cases hs
          exact .write hpc ‹_›
        · obtain ⟨clocks, hc, rfl⟩ := Option.map_eq_some_iff.mp hs
          exact .release hpc hc
      · cases hs
        exact .unlock ‹_›
      · cases hs
        exact .unlockShared ‹_›

/-! ## The invariant -/

/-- The thread works on mutex `o` as a writer. -/
def Pc.writes (o : ℕ) : Pc → Prop
  | .acquire k | .release k true | .unlock k true => k = o
  | _ => False

/-- The thread works on mutex `o` as a reader. -/
def Pc.reads (o : ℕ) : Pc → Prop
  | .acquireShared k _ | .unlockForLock k | .release k false | .unlock k false => k = o
  | _ => False

structure Inv (home : ℕ → ℕ) (s : State) : Prop where
  clocks : Ok home s.clocks
  le_tail : ∀ o, s.clock o ≤ s.clocks.tail
  writer : ∀ t o, (s.pc t).writes o → s.writer o = some t
  reader : ∀ t o, (s.pc t).reads o → t ∈ s.readers o
  excl : ∀ o, s.writer o ≠ none → s.readers o = []
  held : ∀ t o, s.writer o = some t → s.pc t ≠ .acquire o → s.clock o ≤ (s.clocks.threads t).clock
  idle : ∀ t, (s.clocks.threads t).release ≠ .none → ∃ o b, s.pc t = .release o b
  released : ∀ o, ∀ c ∈ s.released o, c ≤ s.clock o

theorem inv_initial : Inv home initial where
  clocks := ok_initial
  le_tail _ _ := le_rfl
  writer t o h := absurd h id
  reader t o h := absurd h id
  excl _ h := absurd rfl h
  held t o h := by cases h
  idle t h := absurd rfl h
  released o c h := by cases h

namespace Inv

/-- A thread that overwrites the clock of a mutex does not lower it: a writer, because it has acquired
the clock and nobody has written it since. -/
theorem le_of_release {t : ℕ} (h : Inv home s) (hkeep : KeepsClock s (.thread t)) {o : ℕ} {b : Bool}
    (hpc : s.pc t = .release o b) (hrel : (s.clocks.threads t).release = .none) :
    s.clock o ≤ (s.clocks.threads t).clock := by
  cases b with
  | false => exact hkeep o hpc hrel
  | true =>
      have hw : s.writer o = some t := h.writer t o (by rw [hpc]; exact rfl)
      exact h.held t o hw (by simp [hpc])

/-- Steps that change clocks and one thread's place only. -/
theorem setClocks (h : Inv home s) {t : ℕ} {pc : Pc} {clocks : ThreadClock.State}
    (hok : Ok home clocks) (hg : Grows s.clocks clocks)
    (hw : ∀ o, pc.writes o → s.writer o = some t) (hr : ∀ o, pc.reads o → t ∈ s.readers o)
    (hheld : ∀ o, s.writer o = some t → s.pc t = .acquire o → pc ≠ .acquire o →
      s.clock o ≤ (clocks.threads t).clock)
    (hidle : ∀ u, (clocks.threads u).release ≠ .none →
      ∃ o b, (if u = t then pc else s.pc u) = .release o b) :
    Inv home ({ s with clocks := clocks }.setPc t pc) where
  clocks := hok
  le_tail o := (h.le_tail o).trans hg.tail
  writer u o hu := by
    have := h.writer u o
    simp only [State.setPc, update_apply] at hu ⊢
    grind
  reader u o hu := by
    have := h.reader u o
    simp only [State.setPc, update_apply] at hu ⊢
    grind
  excl := h.excl
  held u o hu hpc := by
    simp only [State.setPc, update_apply] at hpc ⊢
    by_cases hut : u = t
    · subst hut
      rw [if_pos rfl] at hpc
      by_cases hacq : s.pc u = .acquire o
      · exact hheld o hu hacq hpc
      · exact (h.held u o hu hacq).trans (hg.clock u)
    · rw [if_neg hut] at hpc
      exact (h.held u o hu hpc).trans (hg.clock u)
  idle u hu := by
    simpa only [State.setPc, update_apply] using hidle u hu
  released := h.released

/-- Outside the calls that release, `thread_release` is not running. -/
theorem release_none (h : Inv home s) {t : ℕ} (hpc : ∀ o b, s.pc t ≠ .release o b) :
    (s.clocks.threads t).release = .none := by
  by_contra hne
  obtain ⟨o, b, hob⟩ := h.idle t hne
  exact hpc o b hob

/-- Calls that only move the thread. -/
theorem call (h : Inv home s) {t : ℕ} {pc : Pc} (hpc : s.pc t = .idle) (hw : ∀ o, ¬ pc.writes o)
    (hr : ∀ o, ¬ pc.reads o) : Inv home (s.setPc t pc) := by
  have hnone := h.release_none (t := t) (by simp [hpc])
  refine h.setClocks h.clocks (Grows.refl _) (fun o ho => absurd ho (hw o))
    (fun o ho => absurd ho (hr o)) (fun o _ hacq => ?_) (fun u hu => ?_)
  · rw [hpc] at hacq
    cases hacq
  · split
    · rename_i hut
      rw [hut] at hu
      exact absurd hnone hu
    · exact h.idle u hu

theorem logStore (h : Inv home s) {t cl : ℕ} {full : Bool} (hpc : s.pc t = .idle)
    (hfits : full = true → Fits s.clocks (home t)) :
    Inv home { s with clocks := ThreadClock.logStore home s.clocks t cl full } := by
  obtain ⟨hok, hg⟩ := h.clocks.logStore hfits
  have hself : { s with clocks := ThreadClock.logStore home s.clocks t cl full }.setPc t .idle =
      { s with clocks := ThreadClock.logStore home s.clocks t cl full } := by
    simp [State.setPc, ← hpc]
  rw [← hself]
  refine h.setClocks hok hg (fun o ho => absurd ho id) (fun o ho => absurd ho id)
    (fun o _ hacq => ?_) (fun u hu => ?_)
  · rw [hpc] at hacq
    cases hacq
  · have := h.idle u
    simp only [ThreadClock.logStore, ThreadClock.State.setThread, update_apply] at hu
    grind [ThreadClock.State.produceTail]

/-- `unlock` and `unlock_shared` up to their `thread_release`. -/
theorem beginRelease (h : Inv home s) {t o : ℕ} {b : Bool} (hpc : s.pc t = .idle)
    (hw : b = true → s.writer o = some t) (hr : b = false → t ∈ s.readers o) :
    Inv home ({ s with clocks := ThreadClock.beginRelease s.clocks t }.setPc t (.release o b)) := by
  obtain ⟨hok, hg⟩ := h.clocks.beginRelease (t := t)
  refine h.setClocks hok hg (fun k hk => ?_) (fun k hk => ?_) (fun k _ hacq => ?_) (fun u hu => ?_)
  · cases b with
    | false => exact absurd hk id
    | true => exact (show o = k from hk) ▸ hw rfl
  · cases b with
    | false => exact (show o = k from hk) ▸ hr rfl
    | true => exact absurd hk id
  · rw [hpc] at hacq
    cases hacq
  · split
    · exact ⟨o, b, rfl⟩
    · rename_i hut
      have := h.idle u
      simp only [ThreadClock.beginRelease, ThreadClock.State.setThread] at hu
      split at hu
      · exact this hu
      · dsimp only at hu
        rw [update_of_ne hut] at hu
        exact this hu

/-- `thread_acquire` of the clock of the mutex, by a reader or a writer. -/
theorem acquire (h : Inv home s) {t o : ℕ} {pc : Pc} (hpc : ∀ k b, s.pc t ≠ .release k b)
    (hacq : ∀ k, s.pc t = .acquire k → k = o)
    (hw : ∀ k, pc.writes k → s.writer k = some t) (hr : ∀ k, pc.reads k → t ∈ s.readers k) :
    Inv home ({ s with clocks := ThreadClock.acquire s.clocks t (s.clock o) }.setPc t pc) := by
  have hnone := h.release_none hpc
  obtain ⟨hok, hg⟩ := h.clocks.acquire hnone (h.le_tail o)
  refine h.setClocks hok hg hw hr (fun k _ hk _ => ?_) (fun u hu => ?_)
  · obtain rfl := hacq k hk
    simp only [ThreadClock.acquire, ThreadClock.State.setThread, update_self]
    exact VectorClock.le_merge_right
  · have := h.idle u
    simp only [ThreadClock.acquire, ThreadClock.State.setThread, update_apply] at hu
    grind

theorem release (h : Inv home s) {t o : ℕ} {b : Bool} {clocks : ThreadClock.State}
    (hpc : s.pc t = .release o b)
    (hfits : (s.clocks.threads t).release = .produce → Fits s.clocks (home t))
    (hs : stepRelease home s.clocks t = some clocks) : Inv home { s with clocks := clocks } := by
  obtain ⟨hok, hg⟩ := h.clocks.stepRelease hfits hs
  have hself : { s with clocks := clocks }.setPc t (.release o b) = { s with clocks := clocks } := by
    simp [State.setPc, ← hpc]
  rw [← hself]
  refine h.setClocks hok hg (fun k hk => h.writer t k (hpc ▸ hk)) (fun k hk => h.reader t k (hpc ▸ hk))
    (fun k _ hacq => ?_) (fun u hu => ?_)
  · rw [hpc] at hacq
    cases hacq
  · split
    · exact ⟨o, b, rfl⟩
    · rename_i hut
      refine h.idle u ?_
      have hsame : clocks.threads u = s.clocks.threads u := by
        unfold stepRelease at hs
        dsimp only at hs
        split at hs <;> cases hs <;> exact update_of_ne hut _ _
      rwa [hsame] at hu

/-- A thread that is not at `release` moves, and the holders of mutex `o` change. The threads that
work on it must stay among them. -/
theorem setHolders (h : Inv home s) {t o : ℕ} {pc : Pc} {w : Option ℕ} {ts : List ℕ}
    (hpc : ∀ k b, s.pc t ≠ .release k b)
    (hwriter : ∀ u k, (if u = t then pc else s.pc u).writes k → update s.writer o w k = some u)
    (hreader : ∀ u k, (if u = t then pc else s.pc u).reads k → u ∈ update s.readers o ts k)
    (hexcl : w ≠ none → ts = [])
    (hheld : ∀ u k, update s.writer o w k = some u → (if u = t then pc else s.pc u) ≠ .acquire k →
      s.writer k = some u ∧ s.pc u ≠ .acquire k) :
    Inv home (((s.setWriter o w).setReaders o ts).setPc t pc) where
  clocks := h.clocks
  le_tail := h.le_tail
  writer u k hu := by
    simp only [State.setPc, State.setReaders, State.setWriter] at hu ⊢
    exact hwriter u k (by simpa only [update_apply] using hu)
  reader u k hu := by
    simp only [State.setPc, State.setReaders, State.setWriter] at hu ⊢
    exact hreader u k (by simpa only [update_apply] using hu)
  excl k hk := by
    have := h.excl k
    simp only [State.setPc, State.setReaders, State.setWriter, update_apply] at hk ⊢
    grind
  held u k hu hk := by
    simp only [State.setPc, State.setReaders, State.setWriter] at hu hk ⊢
    obtain ⟨hold, hne⟩ := hheld u k hu (by simpa only [update_apply] using hk)
    exact h.held u k hold hne
  idle u hu := by
    obtain ⟨k, b, hk⟩ := h.idle u hu
    refine ⟨k, b, ?_⟩
    have hut : u ≠ t := by
      rintro rfl
      exact hpc k b hk
    simp only [State.setPc, State.setReaders, State.setWriter]
    rw [update_of_ne hut]
    exact hk
  released := h.released

/-- A reader enters, with or without the intention to lock. -/
theorem lockShared (h : Inv home s) {t o : ℕ} {b : Bool} (hpc : s.pc t = .lockShared o b)
    (hw : s.writer o = none) :
    Inv home ((s.setReaders o (t :: s.readers o)).setPc t (.acquireShared o b)) := by
  rw [← s.setWriter_self o]
  refine h.setHolders (by simp [hpc]) (fun u k hu => ?_) (fun u k hu => ?_)
    (fun hne => absurd hw hne) (fun u k hu hk => ?_)
  · have := h.writer u k
    simp only [update_eq_self]
    grind [Pc.writes]
  · have := h.reader u k
    simp only [State.setWriter, update_apply]
    grind [Pc.reads]
  · simp only [update_eq_self] at hu
    exact ⟨hu, by grind⟩

/-- A reader leaves. -/
theorem leave (h : Inv home s) {t o : ℕ} {pc : Pc} (hpc : (s.pc t).reads o)
    (hrel : ∀ k b, s.pc t ≠ .release k b) (hnext : pc = .idle ∨ pc = .lock o) :
    Inv home ((s.setReaders o ((s.readers o).erase t)).setPc t pc) := by
  have hmem := h.reader t o hpc
  have hw : s.writer o = none := by
    by_contra hne
    rw [h.excl o hne] at hmem
    cases hmem
  rw [← s.setWriter_self o]
  refine h.setHolders hrel (fun u k hu => ?_) (fun u k hu => ?_)
    (fun hne => absurd hw hne) (fun u k hu hk => ?_)
  · have := h.writer u k
    simp only [update_eq_self]
    grind [Pc.writes]
  · have := h.reader u k
    simp only [State.setWriter, update_apply]
    grind [Pc.reads]
  · simp only [update_eq_self] at hu
    refine ⟨hu, fun hacq => ?_⟩
    have hut : u = t := by grind
    subst hut
    rw [hacq] at hpc
    exact hpc

theorem lock (h : Inv home s) {t o : ℕ} (hpc : s.pc t = .lock o) (hw : s.writer o = none)
    (hr : s.readers o = []) : Inv home ((s.setWriter o (some t)).setPc t (.acquire o)) := by
  rw [← (s.setWriter o (some t)).setReaders_self o]
  refine h.setHolders (by simp [hpc]) (fun u k hu => ?_) (fun u k hu => ?_)
    (fun _ => hr) (fun u k hu hk => ?_)
  · have := h.writer u k
    simp only [update_apply]
    grind [Pc.writes]
  · have := h.reader u k
    simp only [State.setWriter, update_eq_self]
    grind [Pc.reads]
  · simp only [update_apply] at hu
    grind

theorem unlock (h : Inv home s) {t o : ℕ} (hpc : s.pc t = .unlock o true) :
    Inv home ((s.setWriter o none).setPc t .idle) := by
  have hmine : s.writer o = some t := h.writer t o (by rw [hpc]; exact rfl)
  rw [← (s.setWriter o none).setReaders_self o]
  refine h.setHolders (by simp [hpc]) (fun u k hu => ?_) (fun u k hu => ?_)
    (fun hne => absurd rfl hne) (fun u k hu hk => ?_)
  · have := h.writer u k
    simp only [update_apply]
    grind [Pc.writes]
  · have := h.reader u k
    simp only [State.setWriter, update_eq_self]
    grind [Pc.reads]
  · simp only [update_apply] at hu
    grind

/-- The write of the clock. Nothing is lost where it does not lower the clock. -/
theorem write (h : Inv home s) {t o : ℕ} {b : Bool} (hpc : s.pc t = .release o b)
    (hrel : (s.clocks.threads t).release = .none)
    (hle : s.clock o ≤ (s.clocks.threads t).clock) :
    Inv home ((s.writeClock o (s.clocks.threads t).clock).setPc t (.unlock o b)) where
  clocks := h.clocks
  le_tail k := by
    have := h.le_tail k
    simp only [State.setPc, State.writeClock, update_apply]
    split
    · exact h.clocks.le_tail t
    · exact this
  writer u k hu := by
    have := h.writer u k
    simp only [State.setPc, State.writeClock, update_apply] at hu ⊢
    cases b <;> grind [Pc.writes]
  reader u k hu := by
    have := h.reader u k
    simp only [State.setPc, State.writeClock, update_apply] at hu ⊢
    cases b <;> grind [Pc.reads]
  excl := h.excl
  held u k hu hk := by
    have hold := h.held u k hu
    simp only [State.setPc, State.writeClock, update_apply] at hu hk ⊢
    split
    · rename_i hko
      subst hko
      -- a reader that writes excludes the writer, and a writer is the only one
      cases b with
      | false =>
          have hmem : t ∈ s.readers k := h.reader t k (by rw [hpc]; exact rfl)
          rw [h.excl k (by simp [hu])] at hmem
          cases hmem
      | true =>
          have hmine : s.writer k = some t := h.writer t k (by rw [hpc]; exact rfl)
          obtain rfl : t = u := Option.some.inj (hmine.symm.trans hu)
          exact le_rfl
    · grind
  idle u hu := by
    have := h.idle u hu
    simp only [State.setPc, State.writeClock, update_apply] at hu ⊢
    grind
  released k c hc := by
    have hold := h.released k c
    simp only [State.setPc, State.writeClock, update_apply] at hc ⊢
    split
    · rename_i hko
      subst hko
      rw [if_pos rfl] at hc
      rcases List.mem_cons.mp hc with rfl | hc
      · exact le_rfl
      · exact (hold hc).trans hle
    · rename_i hko
      rw [if_neg hko] at hc
      exact hold hc

theorem step (h : Inv home s) (hwrap : NoWrap home s a) (hkeep : KeepsClock s a)
    (hs : Step home s a s') : Inv home s' := by
  cases hs with
  | logStore hpc => exact h.logStore hpc hwrap
  | callLock hpc => exact h.call hpc (fun _ => id) (fun _ => id)
  | callLockShared hpc => exact h.call hpc (fun _ => id) (fun _ => id)
  | callUnlock hpc hw => exact h.beginRelease hpc (fun _ => hw) (by simp)
  | callUnlockShared hpc hr => exact h.beginRelease hpc (by simp) (fun _ => hr)
  | lockShared hpc hw => exact h.lockShared hpc hw
  | @acquireShared t o b hpc =>
      have hr := h.reader t o (by rw [hpc]; exact rfl)
      refine h.acquire (by simp [hpc]) (by simp [hpc]) (fun k hk => ?_) (fun k hk => ?_)
      · cases b <;> exact absurd hk id
      · cases b with
        | false => exact absurd hk id
        | true => exact (show o = k from hk) ▸ hr
  | @unlockForLock t o hpc =>
      exact h.leave (by rw [hpc]; exact rfl) (by simp [hpc]) (.inr rfl)
  | lock hpc hw hr => exact h.lock hpc hw hr
  | acquire hpc =>
      exact h.acquire (by simp [hpc]) (by simp [hpc]) (fun _ hk => absurd hk id)
        (fun _ hk => absurd hk id)
  | release hpc hs => exact h.release hpc hwrap hs
  | write hpc hrel => exact h.write hpc hrel (h.le_of_release hkeep hpc hrel)
  | unlock hpc => exact h.unlock hpc
  | @unlockShared t o hpc =>
      exact h.leave (by rw [hpc]; exact rfl) (by simp [hpc]) (.inl rfl)

end Inv

/-- What the steps of a run have to meet. -/
def Keeps (home : ℕ → ℕ) (s : State) (a : Action) : Prop := NoWrap home s a ∧ KeepsClock s a

theorem inv_of_run (h : (machine home).Run (Keeps home) s) : Inv home s :=
  h.invariant (by rintro s rfl; exact inv_initial) fun _ _ _ _ hinv hkeep hs =>
    hinv.step hkeep.1 hkeep.2 (step_cases hs)

/-! ## What a writer knows -/

/-- In every run without 32-bit wrap in which no `unlock_shared` overwrites the clock of the mutex with
one that is not at least as large, the thread whose `lock` returns has a clock that dominates the
clocks of all earlier `unlock`s and `unlock_shared`s. -/
theorem shared_mutex_keeps_releases (home : ℕ → ℕ) (s s' : State) (t o : ℕ)
    (h : (machine home).Run (Keeps home) s) (hpc : s.pc t = .acquire o)
    (hs : (machine home).step s (.thread t) = some s') :
    s'.pc t = .idle ∧ ∀ c ∈ s.released o, c ≤ (s'.clocks.threads t).clock := by
  have hinv := inv_of_run h
  have hs' : s' = { s with clocks := ThreadClock.acquire s.clocks t (s.clock o) }.setPc t .idle := by
    simp only [machine, step, stepThread, hpc] at hs
    exact (Option.some.inj hs).symm
  subst hs'
  refine ⟨by simp [State.setPc], fun c hc => ?_⟩
  have hle : c ≤ (s.clocks.threads t).clock.merge (s.clock o) :=
    (hinv.released o c hc).trans VectorClock.le_merge_right
  simpa [State.setPc, ThreadClock.acquire, ThreadClock.State.setThread] using hle

/-- Thread `t` enters mutex 0 as a reader and stores a line. -/
def enter (t : ℕ) : List Action := [.lockShared t 0, .thread t, .thread t, .logStore t 5 false]

/-- Thread `t` calls `unlock_shared` on mutex 0, up to the write of the clock. -/
def leaveUp (t : ℕ) : List Action := [.unlockShared t 0, .thread t, .thread t]

/-- Thread `t` calls `lock` on mutex 0, up to the return. -/
def lockUp (t : ℕ) : List Action := [.lock t 0, .thread t, .thread t, .thread t, .thread t]

/-- A guard that can be evaluated: few logs, and no write of the clock in `unlock_shared` unless
`shared` allows it. -/
def few (shared : Bool) (s : State) : Action → Bool
  | .logStore _ _ full => !full
  | .thread t => decide (s.clocks.tail t < 1000) &&
      (shared || (s.clocks.threads t).release != .none || match s.pc t with
        | .release _ false => false
        | _ => true)
  | _ => true

theorem noWrap_of_few {shared : Bool} (h : few shared s a = true) : NoWrap id s a := by
  cases a with
  | logStore t cl full =>
      intro hfull
      simp [few, hfull] at h
  | thread t =>
      intro _
      simp only [few, Bool.and_eq_true] at h
      have hlt : s.clocks.tail t < 1000 := of_decide_eq_true h.1
      show s.clocks.tail t + 1 < 2 ^ 32
      omega
  | _ => trivial

theorem keeps_of_few (h : few false s a = true) : Keeps id s a := by
  refine ⟨noWrap_of_few h, ?_⟩
  cases a with
  | thread t =>
      intro o hpc hrel
      simp [few, hpc, hrel] at h
  | _ => trivial

/-- A reader leaves, a writer follows, and a second writer is about to return from `lock`: it gets both
clocks. -/
theorem shared_mutex_keeps_releases_in_turn :
    ∃ s s' : State, (machine id).Run (Keeps id) s ∧
      (machine id).step s (.thread 2) = some s' ∧ (s.released 0).length = 2 ∧
      ∀ c ∈ s.released 0, c ≤ (s'.clocks.threads 2).clock := by
  -- the write of the reader is a step of its own, where the clock of the mutex is still zero
  obtain ⟨s₀, hs₀, hzero, hwrite, hfew, s₁, hs₁, s, hs, hpc, hlen, s', hs'⟩ :
      ∃ s₀, (machine id).exec (few false) initial (enter 0 ++ leaveUp 0) = some s₀ ∧
        s₀.clock 0 = (fun _ => 0) ∧ s₀.pc 0 = .release 0 false ∧ few true s₀ (.thread 0) = true ∧
        ∃ s₁, (machine id).step s₀ (.thread 0) = some s₁ ∧
        ∃ s, (machine id).exec (few false) s₁ ([.thread 0] ++ lockUp 1 ++ [.thread 1, .logStore 1 6 false,
          .unlock 1 0, .thread 1, .thread 1, .thread 1, .thread 1] ++ lockUp 2) = some s ∧
        s.pc 2 = .acquire 0 ∧ (s.released 0).length = 2 ∧
        ∃ s', (machine id).step s (.thread 2) = some s' :=
    ⟨_, rfl, rfl, rfl, rfl, _, rfl, _, rfl, by decide +kernel, by decide +kernel, _, rfl⟩
  have hrun₀ : (machine id).Run (Keeps id) s₀ :=
    Machine.Run.exec (.init rfl) (fun _ _ => keeps_of_few) hs₀
  have hrun₁ : (machine id).Run (Keeps id) s₁ := by
    refine .step hrun₀ ⟨noWrap_of_few hfew, fun o hpc _ i => ?_⟩ hs₁
    obtain rfl : 0 = o := by simpa [hwrite] using hpc
    rw [hzero]
    exact Nat.zero_le _
  have hrun := Machine.Run.exec hrun₁ (fun _ _ => keeps_of_few) hs
  exact ⟨s, s', hrun, hs', hlen, (shared_mutex_keeps_releases id s s' 2 0 hrun hpc hs').2⟩

/-- Two readers on different nodes overlap. The second to leave overwrites what the first has released,
and a writer does not see it. -/
theorem shared_mutex_loses_reader :
    ¬ ∀ (home : ℕ → ℕ) (s s' : State) (t o : ℕ), (machine home).Run (NoWrap home) s →
      s.pc t = .acquire o → (machine home).step s (.thread t) = some s' →
      s'.pc t = .idle ∧ ∀ c ∈ s.released o, c ≤ (s'.clocks.threads t).clock := by
  intro hall
  obtain ⟨s, hs, hpc, ⟨c, hc, hone⟩, s', hs', hzero⟩ :
      ∃ s, (machine id).exec (few true) initial
        (enter 0 ++ enter 1 ++ leaveUp 0 ++ [.thread 0, .thread 0] ++ leaveUp 1 ++
          [.thread 1, .thread 1] ++ lockUp 2) = some s ∧
      s.pc 2 = .acquire 0 ∧ (∃ c ∈ s.released 0, c 0 = 1) ∧
        ∃ s', (machine id).step s (.thread 2) = some s' ∧ (s'.clocks.threads 2).clock 0 = 0 := by
    refine ⟨_, rfl, by decide +kernel, by decide +kernel, _, rfl, by decide +kernel⟩
  have hrun := Machine.Run.exec (.init rfl) (fun _ _ hg => noWrap_of_few hg) hs
  have hle : c 0 ≤ (s'.clocks.threads 2).clock 0 := (hall id s s' 2 0 hrun hpc hs').2 c hc 0
  rw [hone, hzero] at hle
  exact absurd hle (by decide)

end CXLSharedMutex

end RACoherence
