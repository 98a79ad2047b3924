import RACoherence.Lib.Machine
import RACoherence.ThreadClock

/-!
# The mutex

Reference: `include/cxlSync.hpp`, `CXLMutex`, without `CONSUME_HELP_IN_LOCK`; `merge` says whether
`LOCATION_CLOCK_MERGE` is defined.

Threads lock and unlock any number of mutexes and store in between. `inner->mtx` is taken to exclude. A
thread that holds a mutex has acquired its clock and its own clock only grows, so what `unlock` writes
to the clock of the mutex is never below what is there, and the two builds do the same.

Not in the program is the list of the clocks that threads had when they wrote them at `unlock`.
-/

namespace RACoherence

open Function ThreadClock

namespace CXLMutex

/-- Where a thread is in `lock`, `unlock` or `unlock_relaxed`. -/
inductive Pc
  | idle
  | lock (o : ℕ)
  | acquire (o : ℕ)
  | release (o : ℕ)
  | unlock (o : ℕ)
  deriving DecidableEq, Repr

structure State where
  clocks : ThreadClock.State
  mtx : ℕ → Option ℕ
  clock : ℕ → VectorClock
  pc : ℕ → Pc
  unlocks : ℕ → List VectorClock

inductive Action
  | logStore (t cl : ℕ) (full : Bool)
  | lock (t o : ℕ)
  | unlock (t o : ℕ)
  | unlockRelaxed (t o : ℕ)
  | thread (t : ℕ)
  deriving DecidableEq, Repr

def initial : State where
  clocks := ThreadClock.initial
  mtx _ := none
  clock _ _ := 0
  pc _ := .idle
  unlocks _ := []

namespace State

/-- Move thread `t` to `pc`. -/
def setPc (s : State) (t : ℕ) (pc : Pc) : State := { s with pc := update s.pc t pc }

/-- Lock or unlock `inner->mtx`. -/
def setMtx (s : State) (o : ℕ) (p : Option ℕ) : State := { s with mtx := update s.mtx o p }

/-- Store to `inner->clock`, and record the clock of the thread. -/
def writeClock (s : State) (o : ℕ) (c written : VectorClock) : State :=
  { s with
    clock := update s.clock o written
    unlocks := update s.unlocks o (c :: s.unlocks o) }

end State

/-- What `unlock` writes to the clock `old` of the mutex. -/
def written (merge : Bool) (old threadClock : VectorClock) : VectorClock :=
  if merge then old.merge threadClock else threadClock

variable (home : ℕ → ℕ) (merge : Bool)

/-- The next step of thread `t`. -/
def stepThread (s : State) (t : ℕ) : Option State :=
  let th := s.clocks.threads t
  match s.pc t with
  | .idle => none
  | .lock o =>
      match s.mtx o with
      | none => some ((s.setMtx o (some t)).setPc t (.acquire o))
      | some _ => none
  | .acquire o => some ({ s with clocks := acquire s.clocks t (s.clock o) }.setPc t .idle)
  | .release o =>
      match th.release with
      | .none =>
          some ((s.writeClock o th.clock (written merge (s.clock o) th.clock)).setPc t (.unlock o))
      | _ => (stepRelease home s.clocks t).map fun clocks => { s with clocks := clocks }
  | .unlock o => some ((s.setMtx o none).setPc t .idle)

/-- One step; `none` when the action is not enabled. -/
def step (s : State) : Action → Option State
  | .logStore t cl full =>
      if s.pc t = .idle then some { s with clocks := logStore home s.clocks t cl full } else none
  | .lock t o => if s.pc t = .idle then some (s.setPc t (.lock o)) else none
  | .unlock t o =>
      if s.pc t = .idle ∧ s.mtx o = some t then
        some ({ s with clocks := beginRelease s.clocks t }.setPc t (.release o))
      else none
  | .unlockRelaxed t o =>
      if s.pc t = .idle ∧ s.mtx o = some t then some (s.setMtx o none) else none
  | .thread t => stepThread home merge s t

/-- Mutexes and threads as a transition system. -/
def machine : Machine State Action where
  init s := s = initial
  step := step home merge

/-- The index of a log that the step produces does not wrap. -/
def NoWrap (s : State) : Action → Prop
  | .logStore t _ full => full = true → Fits s.clocks (home t)
  | .thread t => (s.clocks.threads t).release = .produce → Fits s.clocks (home t)
  | _ => True

/-- The transitions. -/
inductive Step (s : State) : Action → State → Prop
  | logStore {t cl : ℕ} {full : Bool} : s.pc t = .idle →
      Step s (.logStore t cl full) { s with clocks := logStore home s.clocks t cl full }
  | lock {t o : ℕ} : s.pc t = .idle → Step s (.lock t o) (s.setPc t (.lock o))
  | unlock {t o : ℕ} : s.pc t = .idle → s.mtx o = some t →
      Step s (.unlock t o) ({ s with clocks := beginRelease s.clocks t }.setPc t (.release o))
  | unlockRelaxed {t o : ℕ} : s.pc t = .idle → s.mtx o = some t →
      Step s (.unlockRelaxed t o) (s.setMtx o none)
  | locked {t o : ℕ} : s.pc t = .lock o → s.mtx o = none →
      Step s (.thread t) ((s.setMtx o (some t)).setPc t (.acquire o))
  | acquire {t o : ℕ} : s.pc t = .acquire o →
      Step s (.thread t) ({ s with clocks := acquire s.clocks t (s.clock o) }.setPc t .idle)
  | release {t o : ℕ} {clocks : ThreadClock.State} : s.pc t = .release o →
      stepRelease home s.clocks t = some clocks → Step s (.thread t) { s with clocks := clocks }
  | write {t o : ℕ} : s.pc t = .release o → (s.clocks.threads t).release = .none →
      Step s (.thread t) ((s.writeClock o (s.clocks.threads t).clock
        (written merge (s.clock o) (s.clocks.threads t).clock)).setPc t (.unlock o))
  | unlocked {t o : ℕ} : s.pc t = .unlock o → Step s (.thread t) ((s.setMtx o none).setPc t .idle)

variable {home merge} {s s' : State} {a : Action}

theorem step_cases (hs : step home merge s a = some s') : Step home merge s a s' := by
  cases a with
  | logStore t cl full =>
      simp only [step] at hs
      split at hs <;> cases hs
      exact .logStore ‹_›
  | lock t o =>
      simp only [step] at hs
      split at hs <;> cases hs
      exact .lock ‹_›
  | unlock t o =>
      simp only [step] at hs
      split at hs <;> cases hs
      rename_i h
      exact .unlock h.1 h.2
  | unlockRelaxed t o =>
      simp only [step] at hs
      split at hs <;> cases hs
      rename_i h
      exact .unlockRelaxed h.1 h.2
  | thread t =>
      simp only [step, stepThread] at hs
      split at hs
      · cases hs
      · rename_i hpc
        split at hs <;> cases hs
        exact .locked hpc ‹_›
      · cases hs
        exact .acquire ‹_›
      · rename_i hpc
        split at hs
        · cases hs
          exact .write hpc ‹_›
        · obtain ⟨clocks, hc, rfl⟩ := Option.map_eq_some_iff.mp hs
          exact .release hpc hc
      · cases hs
        exact .unlocked ‹_›

/-! ## The invariant -/

structure Inv (home : ℕ → ℕ) (s : State) : Prop where
  clocks : Ok home s.clocks
  le_tail : ∀ o, s.clock o ≤ s.clocks.tail
  owner : ∀ t o, s.pc t = .acquire o ∨ s.pc t = .release o ∨ s.pc t = .unlock o → s.mtx o = some t
  held : ∀ t o, s.mtx o = some t → s.pc t ≠ .acquire o → s.clock o ≤ (s.clocks.threads t).clock
  idle : ∀ t, (s.clocks.threads t).release ≠ .none → ∃ o, s.pc t = .release o
  unlocks : ∀ o, ∀ c ∈ s.unlocks o, c ≤ s.clock o

theorem inv_initial : Inv home initial where
  clocks := ok_initial
  le_tail _ _ := le_rfl
  owner t o h := by rcases h with h | h | h <;> cases h
  held t o h := by cases h
  idle t h := absurd rfl h
  unlocks o c h := by cases h

/-- With nothing to lose, overwriting and merging are the same. -/
theorem written_eq {old c : VectorClock} (h : old ≤ c) : written merge old c = c := by
  unfold written
  split
  · funext i
    exact max_eq_right (h i)
  · rfl

namespace Inv

/-- Growing clocks disturb nothing. -/
theorem setClocks (h : Inv home s) {clocks : ThreadClock.State} (hok : Ok home clocks)
    (hg : Grows s.clocks clocks)
    (hidle : ∀ t, (clocks.threads t).release ≠ .none → ∃ o, s.pc t = .release o) :
    Inv home { s with clocks := clocks } where
  clocks := hok
  le_tail o := (h.le_tail o).trans hg.tail
  owner := h.owner
  held t o ho hpc := (h.held t o ho hpc).trans (hg.clock t)
  idle := hidle
  unlocks := h.unlocks

/-- What an unlocking thread writes is not below the clock of the mutex. -/
theorem le_of_release (h : Inv home s) {t o : ℕ} (hpc : s.pc t = .release o) :
    s.clock o ≤ (s.clocks.threads t).clock :=
  h.held t o (h.owner t o (.inr (.inl hpc))) (by simp [hpc])

theorem logStore (h : Inv home s) {t cl : ℕ} {full : Bool}
    (hfits : full = true → Fits s.clocks (home t)) :
    Inv home { s with clocks := ThreadClock.logStore home s.clocks t cl full } := by
  obtain ⟨hok, hg⟩ := h.clocks.logStore hfits
  refine h.setClocks hok hg fun u hu => h.idle u ?_
  have hsame : ((ThreadClock.logStore home s.clocks t cl full).threads u).release =
      (s.clocks.threads u).release := by
    simp only [ThreadClock.logStore, ThreadClock.State.setThread, update_apply]
    split
    · rename_i hut
      rw [hut]
    · split <;> rfl
  rwa [hsame] at hu

theorem beginRelease (h : Inv home s) {t o : ℕ} (hpc : s.pc t = .idle) (hmtx : s.mtx o = some t) :
    Inv home ({ s with clocks := ThreadClock.beginRelease s.clocks t }.setPc t (.release o)) := by
  obtain ⟨hok, hg⟩ := h.clocks.beginRelease (t := t)
  refine ⟨hok, fun k => (h.le_tail k).trans hg.tail, fun u k hu => ?owner, fun u k hk hu => ?held,
    fun u hu => ?idle, h.unlocks⟩
  case owner =>
    have := h.owner u k
    simp only [State.setPc, update_apply] at hu
    split at hu
    · simp only [reduceCtorEq, Pc.release.injEq, false_or, or_false] at hu
      subst hu
      rename_i hut
      rw [hut]
      exact hmtx
    · exact this hu
  case held =>
    refine (h.held u k hk ?_).trans (hg.clock u)
    simp only [State.setPc, update_apply] at hu
    split at hu
    · rename_i hut
      rw [hut, hpc]
      simp
    · exact hu
  case idle =>
    simp only [State.setPc, update_apply]
    split
    · exact ⟨o, rfl⟩
    · rename_i hut
      refine h.idle u ?_
      have hsame : ((ThreadClock.beginRelease s.clocks t).threads u) = s.clocks.threads u := by
        unfold ThreadClock.beginRelease
        split
        · rfl
        · exact update_of_ne hut _ _
      simp only [State.setPc, hsame] at hu
      exact hu

theorem locked (h : Inv home s) {t o : ℕ} (hpc : s.pc t = .lock o) (hmtx : s.mtx o = none) :
    Inv home ((s.setMtx o (some t)).setPc t (.acquire o)) := by
  refine ⟨h.clocks, h.le_tail, fun u k hu => ?owner, fun u k hk hu => ?held, fun u hu => ?idle,
    h.unlocks⟩
  case owner =>
    have := h.owner u k
    simp only [State.setPc, State.setMtx, update_apply] at hu ⊢
    grind
  case held =>
    have := h.held u k
    simp only [State.setPc, State.setMtx, update_apply] at hu hk ⊢
    grind
  case idle =>
    have := h.idle u hu
    simp only [State.setPc, State.setMtx, update_apply]
    grind

theorem acquire (h : Inv home s) {t o : ℕ} (hpc : s.pc t = .acquire o) :
    Inv home ({ s with clocks := ThreadClock.acquire s.clocks t (s.clock o) }.setPc t .idle) := by
  have hidle : (s.clocks.threads t).release = .none := by
    by_contra hne
    obtain ⟨k, hk⟩ := h.idle t hne
    simp [hpc] at hk
  obtain ⟨hok, hg⟩ := h.clocks.acquire hidle (h.le_tail o)
  have hmine := h.owner t o (.inl hpc)
  refine ⟨hok, fun k => (h.le_tail k).trans hg.tail, fun u k hu => ?owner, fun u k hk hu => ?held,
    fun u hu => ?idle, h.unlocks⟩
  case owner =>
    have := h.owner u k
    simp only [State.setPc, update_apply] at hu ⊢
    grind
  case held =>
    by_cases hut : u = t ∧ k = o
    · obtain ⟨rfl, rfl⟩ := hut
      simp only [State.setPc, ThreadClock.acquire, ThreadClock.State.setThread, update_self]
      exact VectorClock.le_merge_right
    · refine (h.held u k hk ?_).trans (hg.clock u)
      simp only [State.setPc, update_apply] at hu hk
      grind
  case idle =>
    have := h.idle u
    simp only [State.setPc, ThreadClock.acquire, ThreadClock.State.setThread, update_apply] at hu ⊢
    grind

theorem write (h : Inv home s) {t o : ℕ} (hpc : s.pc t = .release o)
    (hrel : (s.clocks.threads t).release = .none) :
    Inv home ((s.writeClock o (s.clocks.threads t).clock
      (written merge (s.clock o) (s.clocks.threads t).clock)).setPc t (.unlock o)) := by
  have hle := h.le_of_release hpc
  have hmine := h.owner t o (.inr (.inl hpc))
  rw [written_eq hle]
  refine ⟨h.clocks, fun k => ?le_tail, fun u k hu => ?owner, fun u k hk hu => ?held,
    fun u hu => ?idle, fun k c hc => ?unlocks⟩
  case le_tail =>
    have := h.le_tail k
    simp only [State.setPc, State.writeClock, update_apply]
    split
    · exact h.clocks.le_tail t
    · exact this
  case owner =>
    have := h.owner u k
    simp only [State.setPc, State.writeClock, update_apply] at hu ⊢
    grind
  case held =>
    have := h.held u k hk
    simp only [State.setPc, State.writeClock, update_apply] at hu hk ⊢
    split
    · rename_i hko
      subst hko
      obtain rfl : t = u := Option.some.inj (hmine.symm.trans hk)
      exact le_rfl
    · grind
  case idle =>
    have := h.idle u hu
    simp only [State.setPc, State.writeClock, update_apply] at hu ⊢
    grind
  case unlocks =>
    have := h.unlocks k c
    simp only [State.setPc, State.writeClock, update_apply] at hc ⊢
    split
    · rename_i hko
      subst hko
      rw [if_pos rfl] at hc
      rcases List.mem_cons.mp hc with rfl | hc
      · exact le_rfl
      · exact (this hc).trans hle
    · rename_i hko
      rw [if_neg hko] at hc
      exact this hc

theorem release (h : Inv home s) {t o : ℕ} (hpc : s.pc t = .release o) {clocks : ThreadClock.State}
    (hfits : (s.clocks.threads t).release = .produce → Fits s.clocks (home t))
    (hs : stepRelease home s.clocks t = some clocks) : Inv home { s with clocks := clocks } := by
  obtain ⟨hok, hg⟩ := h.clocks.stepRelease hfits hs
  refine h.setClocks hok hg fun u hu => ?_
  by_cases hut : u = t
  · exact ⟨o, hut ▸ hpc⟩
  · refine h.idle u ?_
    have hsame : clocks.threads u = s.clocks.threads u := by
      unfold stepRelease at hs
      dsimp only at hs
      split at hs <;> cases hs <;> exact update_of_ne hut _ _
    rwa [hsame] at hu

/-- The thread lets the mutex go. -/
theorem unlocked (h : Inv home s) {t o : ℕ} (hmtx : s.mtx o = some t)
    (hpc : s.pc t = .idle ∨ s.pc t = .unlock o) : Inv home ((s.setMtx o none).setPc t .idle) := by
  refine ⟨h.clocks, h.le_tail, fun u k hu => ?owner, fun u k hk hu => ?held, fun u hu => ?idle,
    h.unlocks⟩
  case owner =>
    have := h.owner u k
    have hother := h.owner u o
    simp only [State.setPc, State.setMtx, update_apply] at hu ⊢
    grind
  case held =>
    have := h.held u k
    simp only [State.setPc, State.setMtx, update_apply] at hu hk ⊢
    grind
  case idle =>
    have := h.idle u hu
    simp only [State.setPc, State.setMtx, update_apply]
    grind

theorem step (h : Inv home s) (hwrap : NoWrap home s a) (hs : Step home merge s a s') :
    Inv home s' := by
  cases hs with
  | logStore hpc => exact h.logStore hwrap
  | @lock t o hpc =>
      refine ⟨h.clocks, h.le_tail, fun u k hu => ?_, fun u k hk hu => ?_, fun u hu => ?_, h.unlocks⟩
      · have := h.owner u k
        simp only [State.setPc, update_apply] at hu ⊢
        grind
      · have := h.held u k
        simp only [State.setPc, update_apply] at hu hk ⊢
        grind
      · have := h.idle u hu
        simp only [State.setPc, update_apply]
        grind
  | unlock hpc hmtx => exact h.beginRelease hpc hmtx
  | @unlockRelaxed t o hpc hmtx =>
      have hun := h.unlocked hmtx (.inl hpc)
      have hself : (s.setMtx o none).setPc t .idle = s.setMtx o none := by
        simp [State.setPc, State.setMtx, ← hpc]
      rwa [hself] at hun
  | locked hpc hmtx => exact h.locked hpc hmtx
  | acquire hpc => exact h.acquire hpc
  | release hpc hs => exact h.release hpc hwrap hs
  | write hpc hrel => exact h.write hpc hrel
  | @unlocked t o hpc => exact h.unlocked (h.owner t o (.inr (.inr hpc))) (.inr hpc)

end Inv

theorem inv_of_run (h : (machine home merge).Run (NoWrap home) s) : Inv home s :=
  h.invariant (by rintro s rfl; exact inv_initial) fun _ _ _ _ hinv hwrap hs =>
    hinv.step hwrap (step_cases hs)

/-! ## Overwriting is merging -/

/-- Where the invariant holds, the two builds take the same step. -/
theorem Inv.step_eq (h : Inv home s) (b : Bool) :
    CXLMutex.step home b s a = CXLMutex.step home merge s a := by
  cases a with
  | thread t =>
      simp only [CXLMutex.step, stepThread]
      split
      · rfl
      · rfl
      · rfl
      · rename_i o hpc
        split
        · have hle := h.le_of_release hpc
          rw [written_eq hle, written_eq hle]
        · rfl
      · rfl
  | _ => rfl

/-- So they have the same runs. -/
theorem run_of_run (b : Bool) (h : (machine home merge).Run (NoWrap home) s) :
    (machine home b).Run (NoWrap home) s := by
  induction h with
  | init h => exact .init h
  | @step s s' a hr hok hs ih =>
      refine .step ih hok ?_
      rw [← hs]
      exact (inv_of_run hr).step_eq b

theorem Inv.clock_le (h : Inv home s) (hs : Step home merge s a s') (o : ℕ) : s.clock o ≤ s'.clock o := by
  cases hs with
  | @write t k hpc hrel =>
      have hle := h.le_of_release hpc
      simp only [State.setPc, State.writeClock, written_eq hle, update_apply]
      split
      · rename_i hk
        rw [hk]
        exact hle
      · exact le_rfl
  | _ => exact le_rfl

/-- The thread whose `lock` returns knows every clock that was written before. -/
theorem Inv.acquired (h : Inv home s) {t o : ℕ} {c : VectorClock} (hc : c ∈ s.unlocks o) :
    c ≤ ((ThreadClock.acquire s.clocks t (s.clock o)).threads t).clock := by
  have hle : c ≤ ((s.clocks.threads t).clock).merge (s.clock o) :=
    (h.unlocks o c hc).trans VectorClock.le_merge_right
  simpa [ThreadClock.acquire, ThreadClock.State.setThread] using hle

/-- In every run without 32-bit wrap, whether or not `LOCATION_CLOCK_MERGE` is defined: at every
`unlock` the clock of the thread is at least the clock of the mutex, so that both builds have the same
runs; no step lowers the clock of a mutex; and the thread whose `lock` returns has a clock that
dominates the clocks of all earlier `unlock`s. -/
theorem mutex_overwrite_is_merge (home : ℕ → ℕ) (merge : Bool) (s : State)
    (h : (machine home merge).Run (NoWrap home) s) :
    (∀ t o, s.pc t = .release o → s.clock o ≤ (s.clocks.threads t).clock) ∧
      (∀ b, (machine home b).Run (NoWrap home) s ∧
        ∀ a, (machine home b).step s a = (machine home merge).step s a) ∧
      (∀ a s' o, (machine home merge).step s a = some s' → s.clock o ≤ s'.clock o) ∧
      (∀ t o s', s.pc t = .acquire o → (machine home merge).step s (.thread t) = some s' →
        s'.pc t = .idle ∧ ∀ c ∈ s.unlocks o, c ≤ (s'.clocks.threads t).clock) := by
  have hinv := inv_of_run h
  refine ⟨fun t o hpc => hinv.le_of_release hpc, fun b => ⟨run_of_run b h, fun a => hinv.step_eq b⟩,
    fun a s' o hs => hinv.clock_le (step_cases hs) o, fun t o s' hpc hs => ?_⟩
  have hs' : s' = { s with clocks := ThreadClock.acquire s.clocks t (s.clock o) }.setPc t .idle := by
    simp only [machine, step, stepThread, hpc] at hs
    exact (Option.some.inj hs).symm
  subst hs'
  exact ⟨by simp [State.setPc], fun c hc => hinv.acquired hc⟩

/-- Thread `t` stores a line, and locks and unlocks mutex `o`, up to the write of the clock. -/
def critical (t o : ℕ) : List Action :=
  [.lock t o, .thread t, .thread t, .logStore t 5 false, .unlock t o, .thread t, .thread t, .thread t,
    .thread t]

/-- Thread 0 unlocks, and thread 1 on another node is about to return from `lock`. -/
theorem mutex_overwrite_is_merge_handover :
    ∃ s s' : State, (machine id false).Run (NoWrap id) s ∧
      (machine id false).step s (.thread 1) = some s' ∧ s'.pc 1 = .idle ∧
      (s.unlocks 0).length = 1 ∧ ∀ c ∈ s.unlocks 0, c ≤ (s'.clocks.threads 1).clock := by
  obtain ⟨s, hs, hval⟩ : ∃ s, (machine id false).exec (fun s a => match a with
      | .logStore _ _ full => !full
      | .thread t => decide (s.clocks.tail t < 1000)
      | _ => true) initial (critical 0 0 ++ [.lock 1 0, .thread 1]) = some s ∧
      (s.pc 1 = .acquire 0 ∧ (s.unlocks 0).length = 1 ∧
        ((machine id false).step s (.thread 1)).isSome = true) := by
    refine ⟨_, rfl, ?_⟩
    decide +kernel
  obtain ⟨hpc, hlen, hsome⟩ := hval
  obtain ⟨s', hs'⟩ := Option.isSome_iff_exists.mp hsome
  have hrun : (machine id false).Run (NoWrap id) s := by
    refine Machine.Run.exec (.init rfl) (fun s a hg => ?_) hs
    cases a with
    | logStore t cl full =>
        intro hfull
        simp [hfull] at hg
    | thread t =>
        intro _
        have hlt : s.clocks.tail t < 1000 := of_decide_eq_true hg
        show s.clocks.tail t + 1 < 2 ^ 32
        omega
    | _ => trivial
  obtain ⟨hidle, hdom⟩ := (mutex_overwrite_is_merge id false s hrun).2.2.2 1 0 s' hpc hs'
  exact ⟨s, s', hrun, hs', hidle, hlen, hdom⟩

end CXLMutex

end RACoherence
