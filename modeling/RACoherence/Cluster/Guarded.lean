import RACoherence.Cluster.Memory

/-!
# Lines that mutexes guard

Reference: `include/cxlSync.hpp`, `CXLMutex`, without `CONSUME_HELP_IN_LOCK`; `merge` says whether
`LOCATION_CLOCK_MERGE` is defined. The clock of a mutex is that of a synchronisation object of the cluster,
and `inner->mtx` is taken to exclude.

A program that stores to a line only while it holds the mutex of the line is race free, so that whoever
holds the mutex finds in the line what one memory for all nodes would hold. Between two holders, what has
been stored to the lines of a mutex is with the clock of the mutex; a thread in `lock` is acquiring it, and
a thread in `unlock` has released it before it writes the clock. `unlock_relaxed`, which leaves the clock as
it is, is not called.
-/

namespace RACoherence

open Function LocalCLTable

namespace Cluster

/-- The thread is in no call. -/
def ThreadPc.isIdle : ThreadPc → Bool
  | .idle => true
  | _ => false

@[simp]
theorem ThreadPc.isIdle_idle : ThreadPc.idle.isIdle = true := rfl

@[simp]
theorem ThreadPc.isIdle_help (h : Help) : (ThreadPc.help h).isIdle = false := rfl

theorem ThreadPc.isIdle_iff {pc : ThreadPc} : pc.isIdle = true ↔ pc = .idle := by
  cases pc <;> simp [ThreadPc.isIdle]

/-- The line whose store `write_to_log` was called for. -/
def Purpose.line : Purpose → Option ℕ
  | .flush cl => some cl
  | .release => none

/-- The line that a thread is storing to. -/
def ThreadPc.line : ThreadPc → Option ℕ
  | .store cl => some cl
  | .getLog k | .fill k _ | .produce k | .finish k _ => k.line
  | .idle | .help _ => none

/-- A thread gets a line to store to when it calls `log_store`. -/
theorem line_step {cfg : Config} {s s' : State} {a : Action} {t l : ℕ} (hs : Step cfg s a s')
    (hl : (s'.threads t).pc.line = some l) :
    (s.threads t).pc.line = some l ∨ ∃ addr, a = .logStore t addr ∧ l = addr >>> virtualClShift 0 := by
  by_cases ha : a = .thread t
  · subst ha
    refine .inl ?_
    cases hs with
    | thread hs =>
        cases hs <;>
          simp_all [State.setPc, State.setThread, State.setRing, State.emit, ThreadPc.line, Purpose.line]
    | help hpc hs =>
        cases hs <;>
          simp_all [State.setPc, State.setThread, State.setRing, State.setMtx, State.setClock, State.emit,
            ThreadPc.line]
  · rcases call_of_ne hs ha with heq | ⟨-, hcall⟩
    · exact .inl (heq ▸ hl)
    · refine .inr ?_
      generalize s'.threads t = th at hcall hl
      cases hcall with
      | hit hcl _ => cases hl; exact ⟨_, rfl, hcl⟩
      | insert hcl _ => cases hl; exact ⟨_, rfl, hcl⟩
      | full hcl _ => cases hl; exact ⟨_, rfl, hcl⟩
      | _ => cases hl

/-- The threads that an action calls. -/
def MemoryAction.callers (a : MemoryAction) : List ℕ := (a.base.map Action.callers).getD []

namespace Guarded

/-- Where a thread is in `lock` or `unlock`. In `acquiring` and `releasing` it is in `thread_acquire` and
`thread_release`, or behind it. -/
inductive Pc
  | idle
  | lock (o : ℕ)
  | acquire (o : ℕ)
  | acquiring (o : ℕ)
  | releasing (o : ℕ)
  | unlock (o : ℕ)
  deriving DecidableEq, Repr

/-- The memory, the threads that hold `inner->mtx`, and where threads are in `lock` and `unlock`. -/
structure State where
  mem : Memory
  mtx : ℕ → Option ℕ
  pc : ℕ → Pc

/-- A call of `lock` or `unlock`, the next step of a thread in it, or anything else. -/
inductive Action
  | lock (t o : ℕ)
  | unlock (t o : ℕ)
  | thread (t : ℕ)
  | memory (a : MemoryAction)

variable (cfg : Config) (merge : Bool)

def initial : State where
  mem := .initial cfg
  mtx _ := none
  pc _ := .idle

/-- Where thread `t` is in the calls of `ThreadOps`. -/
def State.threadPc (s : State) (t : ℕ) : ThreadPc := (s.mem.base.threads t).pc

/-- Thread `t` does something in the cluster, and goes on at `pc`. -/
def call (s : State) (t : ℕ) (b : Cluster.Action) (pc : Pc) : Option State :=
  (Memory.step cfg s.mem (.cluster b)).map fun m => { s with mem := m, pc := update s.pc t pc }

/-- How `unlock` writes the clock of the mutex. -/
def writeClock (t o : ℕ) : Cluster.Action := if merge then .objMerge t o else .objStore t o

/-- The next step of thread `t` in `lock` or `unlock`. -/
def stepThread (s : State) (t : ℕ) : Option State :=
  match s.pc t with
  | .idle => none
  | .lock o =>
      match s.mtx o with
      | none => some { s with mtx := update s.mtx o (some t), pc := update s.pc t (.acquire o) }
      | some _ => none
  | .acquire o => call cfg s t (.acquire t o) (.acquiring o)
  | .acquiring _ => if (s.threadPc t).isIdle then some { s with pc := update s.pc t .idle } else none
  | .releasing o => call cfg s t (writeClock merge t o) (.unlock o)
  | .unlock o => some { s with mtx := update s.mtx o none, pc := update s.pc t .idle }

/-- One step; `none` when the action is not enabled. A thread in `lock` or `unlock` makes no other call. -/
def step (s : State) : Action → Option State
  | .lock t o =>
      if s.pc t = .idle ∧ (s.threadPc t).isIdle then some { s with pc := update s.pc t (.lock o) } else none
  | .unlock t o =>
      if s.pc t = .idle ∧ s.mtx o = some t then call cfg s t (.release t) (.releasing o) else none
  | .thread t => stepThread cfg merge s t
  | .memory a =>
      if ∀ t ∈ a.callers, s.pc t = .idle then
        (Memory.step cfg s.mem a).map fun m => { s with mem := m }
      else none

/-- Mutexes, threads and memory as a transition system. -/
def machine : Machine State Action where
  init s := s = initial cfg
  step := step cfg merge

/-- Threads store to a line only while they hold its mutex, and use the clocks of mutexes for nothing else;
the rings stay below the wrap. -/
def Disciplined (lockOf : ℕ → ℕ) (s : State) : Action → Prop
  | .memory a =>
      (∀ b, a.base = some b → NhcStore b ∧ FewLogs cfg s.mem.base b ∧ GcBelowWrap cfg s.mem.base b) ∧
        match a with
        | .store t p => s.mtx (lockOf (p.addr / cacheLineSize)) = some t
        | .cluster (.objStore _ o) | .cluster (.objMerge _ o) => ∀ l, lockOf l ≠ o
        | _ => True
  | _ => True

variable {cfg} {merge} {lockOf : ℕ → ℕ} {s s' : State} {a : Action} {m m' : Memory} {b : Cluster.Action}
  {t u o l : ℕ}

/-! ## Where the stores to a line are known -/

/-- What the holder `t` of mutex `o` has in its past, or is about to have, or has passed on. -/
def held (m : Memory) (pc : Pc) (t o : ℕ) : List ℕ :=
  match pc with
  | .acquire k | .unlock k => if k = o then m.knowledge.obj o else m.knowledge.known t
  | .acquiring k =>
      if k = o ∧ ¬ (m.base.threads t).pc.isIdle then m.knowledge.incoming t else m.knowledge.known t
  | .releasing k =>
      if k = o ∧ (m.base.threads t).pc.isIdle then m.knowledge.released t else m.knowledge.known t
  | .idle | .lock _ => m.knowledge.known t
/-- What the holder of mutex `o`, or else its clock, stands for. -/
def State.place (s : State) (o : ℕ) : List ℕ :=
  match s.mtx o with
  | some t => held s.mem (s.pc t) t o
  | none => s.mem.knowledge.obj o

/-- A step of the memory that is a step of the cluster. -/
structure BaseStep (cfg : Config) (m : Memory) (b : Cluster.Action) (m' : Memory) : Prop where
  step : Cluster.Step cfg m.base b m'.base
  knowledge : m'.knowledge = m.knowledge.step cfg m.base b

/-- The calls that threads are in agree with where they are in `lock` and `unlock`. -/
structure CallsOk (m : Memory) (pc : Pc) (t : ℕ) : Prop where
  acquiring : ∀ k, pc = .acquiring k → (m.base.threads t).pc = .idle ∨ ∃ h, (m.base.threads t).pc = .help h
  releasing : ∀ k, pc = .releasing k →
    (m.base.threads t).pc = .idle ∨ (m.base.threads t).pc.purpose = some .release

theorem CallsOk.of_idle {pc : Pc} (h : (m.base.threads t).pc = .idle) : CallsOk m pc t :=
  ⟨fun _ _ => .inl h, fun _ _ => .inl h⟩

theorem CallsOk.of_pc {pc : Pc} (hacquiring : ∀ k, pc ≠ .acquiring k) (hreleasing : ∀ k, pc ≠ .releasing k) :
    CallsOk m pc t :=
  ⟨fun k hk => absurd hk (hacquiring k), fun k hk => absurd hk (hreleasing k)⟩

/-- A thread that makes no call, or is not in `lock` or `unlock`. -/
theorem CallsOk.step {pc : Pc} (h : CallsOk m pc t) (hb : BaseStep cfg m b m') (hno : t ∉ b.callers ∨ pc = .idle) :
    CallsOk m' pc t := by
  rcases hno with hno | rfl
  · refine ⟨fun k hk => ?_, fun k hk => ?_⟩
    · rcases h.acquiring k hk with hidle | hhelp
      · exact .inl (by rw [(idle_step (g := m.knowledge) hb.step hidle hno).1, hidle])
      · exact (acquiring_step (g := m.knowledge) hb.step hhelp).symm.imp And.left And.left
    · rcases h.releasing k hk with hidle | hrel
      · exact .inl (by rw [(idle_step (g := m.knowledge) hb.step hidle hno).1, hidle])
      · exact (releasing_step (g := m.knowledge) hb.step hrel).symm.imp And.left id
  · exact .of_pc (by simp) (by simp)

/-- What stands for the stores stays with the holder while it moves, and while others do. -/
theorem held_subset {pc : Pc} (h : CallsOk m pc t) (hb : BaseStep cfg m b m') (hno : t ∉ b.callers ∨ pc = .idle)
    (hobj : m'.knowledge.obj o = m.knowledge.obj o) : held m pc t o ⊆ held m' pc t o := by
  have hknown : m.knowledge.known t ⊆ m'.knowledge.known t := hb.knowledge ▸ known_subset
  cases pc with
  | idle => exact hknown
  | lock k => exact hknown
  | acquire k =>
      simp only [held, hobj]
      split
      · exact List.Subset.refl _
      · exact hknown
  | unlock k =>
      simp only [held, hobj]
      split
      · exact List.Subset.refl _
      · exact hknown
  | acquiring k =>
      have hno : t ∉ b.callers := hno.resolve_right (by simp)
      by_cases hk : k = o
      · rcases h.acquiring k rfl with hidle | ⟨h', hpc⟩
        · have hidle' := (idle_step (g := m.knowledge) hb.step hidle hno).1
          simpa [held, hk, hidle, hidle'] using hknown
        · rcases acquiring_step (g := m.knowledge) hb.step ⟨h', hpc⟩ with ⟨⟨h'', hpc'⟩, hin⟩ | ⟨hidle', hin⟩
          · simp [held, hk, hpc, hpc', hb.knowledge, hin]
          · simpa [held, hk, hpc, hidle', hb.knowledge] using hin
      · simpa [held, hk] using hknown
  | releasing k =>
      have hno : t ∉ b.callers := hno.resolve_right (by simp)
      by_cases hk : k = o
      · rcases h.releasing k rfl with hidle | hrel
        · obtain ⟨hidle', hrel⟩ := idle_step (g := m.knowledge) hb.step hidle hno
          simp [held, hk, hidle, hidle', hb.knowledge, hrel]
        · have hbusy : (m.base.threads t).pc.isIdle = false := by
            cases hpc : (m.base.threads t).pc with
            | idle => simp [hpc, ThreadPc.purpose] at hrel
            | _ => rfl
          rcases releasing_step (g := m.knowledge) hb.step hrel with hrel' | ⟨hidle', hrel'⟩
          · have hbusy' : (m'.base.threads t).pc.isIdle = false := by
              cases hpc : (m'.base.threads t).pc with
              | idle => simp [hpc, ThreadPc.purpose] at hrel'
              | _ => rfl
            simpa [held, hk, hbusy, hbusy'] using hknown
          · simp [held, hk, hbusy, hidle', hb.knowledge, hrel']
      · simpa [held, hk] using hknown

/-! ## The invariant -/

/-- The mutex that a thread in `lock` or `unlock` has. -/
def Pc.mutex : Pc → Option ℕ
  | .acquire o | .acquiring o | .releasing o | .unlock o => some o
  | .idle | .lock _ => none

/-- Whoever is behind `inner->mtx.lock()` has the mutex, and so has a thread that stores; and all stores to
the lines of a mutex are in its place. -/
structure Inv (lockOf : ℕ → ℕ) (s : State) : Prop where
  owner : ∀ t o, (s.pc t).mutex = some o → s.mtx o = some t
  calls : ∀ t, CallsOk s.mem (s.pc t) t
  storing : ∀ t l, (s.threadPc t).line = some l → s.pc t = .idle ∧ s.mtx (lockOf l) = some t
  place : ∀ p u l, s.mem.base.trace[p]? = some (.store u l) → p ∈ s.place (lockOf l)

theorem Inv.initial : Inv lockOf (initial cfg) where
  owner _ _ h := by cases h
  calls _ := .of_idle rfl
  storing _ _ h := by cases h
  place p u l h := by simp [Guarded.initial, Memory.initial, Cluster.initial] at h

/-- A step of the memory with all of its callers outside `lock` and `unlock`. -/
theorem Inv.memory (hi : Inv lockOf s) (hb : BaseStep cfg s.mem b m') (hcallers : ∀ t ∈ b.callers, s.pc t = .idle)
    (hobj : ∀ l, m'.knowledge.obj (lockOf l) = s.mem.knowledge.obj (lockOf l))
    (hlog : ∀ t addr, b = .logStore t addr → s.mtx (lockOf (addr >>> virtualClShift 0)) = some t) :
    Inv lockOf { s with mem := m' } := by
  have hno : ∀ t, t ∉ b.callers ∨ s.pc t = .idle := fun t => by
    by_cases ht : t ∈ b.callers
    · exact .inr (hcallers t ht)
    · exact .inl ht
  have hplace : ∀ l, s.place (lockOf l) ⊆ State.place { s with mem := m' } (lockOf l) := fun l => by
    simp only [State.place]
    split
    · exact held_subset (hi.calls _) hb (hno _) (hobj l)
    · rw [hobj l]
      exact List.Subset.refl _
  refine ⟨hi.owner, fun t => (hi.calls t).step hb (hno t), fun t l hl => ?storing, fun p u l hp => ?place⟩
  case storing =>
    rcases line_step hb.step hl with hold | ⟨addr, rfl, rfl⟩
    · exact hi.storing t l hold
    · exact ⟨hcallers t (List.mem_singleton.mpr rfl), hlog t addr rfl⟩
  case place =>
    change m'.base.trace[p]? = some (.store u l) at hp
    rw [trace_step hb.step] at hp
    by_cases hlt : p < s.mem.base.trace.length
    · rw [List.getElem?_append_left hlt] at hp
      exact hplace l (hi.place p u l hp)
    · -- the store itself
      rw [List.getElem?_append_right (by omega)] at hp
      obtain ⟨rfl, hpc, hone⟩ := pc_of_store (List.mem_of_getElem? hp)
      have hpos : p = s.mem.base.trace.length := by
        have hlt := (List.getElem?_eq_some_iff.mp hp).1
        rw [hone, List.length_singleton] at hlt
        omega
      obtain ⟨hidle, hmtx⟩ := hi.storing u l (by rw [State.threadPc, hpc]; rfl)
      have hknown : p ∈ m'.knowledge.known u := by
        rw [hb.knowledge, hpos]
        simp [Knowledge.step, hpc]
      simpa [State.place, hmtx, held, hidle] using hknown

/-- Thread `t` moves on in `lock` or `unlock`, perhaps by a call, and nobody else does anything. -/
theorem Inv.move (hi : Inv lockOf s) {pc : Pc} {mtx : ℕ → Option ℕ}
    (htrace : m'.base.trace = s.mem.base.trace)
    (hothers : ∀ u ≠ t, m'.base.threads u = s.mem.base.threads u)
    (hmtx : ∀ u ≠ t, ∀ o, s.mtx o = some u → mtx o = some u)
    (howner : ∀ o, pc.mutex = some o → mtx o = some t) (hcalls : CallsOk m' pc t)
    (hline : (m'.base.threads t).pc.line = none)
    (hplace : ∀ l, s.place (lockOf l) ⊆ State.place ⟨m', mtx, update s.pc t pc⟩ (lockOf l)) :
    Inv lockOf ⟨m', mtx, update s.pc t pc⟩ := by
  refine ⟨fun u o hu => ?owner, fun u => ?calls, fun u l hl => ?storing, fun p u l hp => ?place⟩
  case owner =>
    simp only [update_apply] at hu
    split at hu
    · rename_i ht
      subst ht
      exact howner o hu
    · exact hmtx u ‹_› o (hi.owner u o hu)
  case calls =>
    show CallsOk m' (update s.pc t pc u) u
    rw [update_apply]
    split
    · rename_i ht
      exact ht ▸ hcalls
    · obtain ⟨hacquiring, hreleasing⟩ := hi.calls u
      rw [← hothers u ‹_›] at hacquiring hreleasing
      exact ⟨hacquiring, hreleasing⟩
  case storing =>
    by_cases hu : u = t
    · subst hu
      change (m'.base.threads u).pc.line = some l at hl
      rw [hline] at hl
      cases hl
    · change (m'.base.threads u).pc.line = some l at hl
      rw [hothers u hu] at hl
      obtain ⟨hidle, hown⟩ := hi.storing u l hl
      exact ⟨by simpa [update_of_ne hu] using hidle, hmtx u hu _ hown⟩
  case place =>
    change m'.base.trace[p]? = some (.store u l) at hp
    rw [htrace] at hp
    exact hplace l (hi.place p u l hp)

/-- Where thread `t` has changed its place only in the lock, or holds what it needs. -/
theorem place_subset {pc : Pc} {mtx : ℕ → Option ℕ}
    (hfree : s.mtx o = none → s.mem.knowledge.obj o ⊆ State.place ⟨m', mtx, update s.pc t pc⟩ o)
    (hself : s.mtx o = some t → held s.mem (s.pc t) t o ⊆ State.place ⟨m', mtx, update s.pc t pc⟩ o)
    (hother : ∀ u ≠ t, s.mtx o = some u → mtx o = some u ∧ held s.mem (s.pc u) u o ⊆ held m' (s.pc u) u o) :
    s.place o ⊆ State.place ⟨m', mtx, update s.pc t pc⟩ o := by
  cases hm : s.mtx o with
  | none =>
      have hfree := hfree hm
      simpa only [State.place, hm] using hfree
  | some u =>
      by_cases hu : u = t
      · subst hu
        have hself := hself hm
        simpa only [State.place, hm] using hself
      · obtain ⟨hm', hsub⟩ := hother u hu hm
        simpa only [State.place, hm, hm', update_of_ne hu] using hsub

/-- A call from `lock` or `unlock`. -/
theorem Inv.call (hi : Inv lockOf s) {pc : Pc} (hb : BaseStep cfg s.mem b m') (hcallers : b.callers = [t])
    (hno : b ≠ .thread t) (hlog : ∀ addr, b ≠ .logStore t addr) (hem : emitted cfg s.mem.base b = [])
    (hown : s.mtx o = some t) (hmutex : pc.mutex = some o) (hcalls : CallsOk m' pc t)
    (hobj : ∀ k ≠ o, m'.knowledge.obj k = s.mem.knowledge.obj k)
    (hself : ∀ k, held s.mem (s.pc t) t k ⊆ held m' pc t k) (hidle : s.threadPc t = .idle) :
    Inv lockOf ⟨m', s.mtx, update s.pc t pc⟩ := by
  have hne : ∀ u ≠ t, b ≠ .thread u ∧ u ∉ b.callers := fun u hu => by
    refine ⟨?_, by simp [hcallers, hu]⟩
    rintro rfl
    simp [Action.callers] at hcallers
  have hothers : ∀ u ≠ t, m'.base.threads u = s.mem.base.threads u := fun u hu => by
    rcases call_of_ne hb.step (hne u hu).1 with heq | ⟨-, hcall⟩
    · exact heq
    · have hno := (hne u hu).2
      generalize m'.base.threads u = th at hcall
      cases hcall <;> simp [Action.callers] at hno
  refine hi.move ?trace hothers (fun _ _ _ h => h) ?owner hcalls ?line fun l => ?place
  case trace => rw [trace_step hb.step, hem, List.append_nil]
  case owner =>
    intro k hk
    rw [hmutex] at hk
    cases hk
    exact hown
  case line =>
    cases hl : (m'.base.threads t).pc.line with
    | none => rfl
    | some l =>
        rcases line_step hb.step hl with hold | ⟨addr, heq, -⟩
        · rw [show (s.mem.base.threads t).pc = .idle from hidle] at hold
          cases hold
        · exact absurd heq (hlog addr)
  case place =>
    have hfree : ∀ u, s.mtx (lockOf l) = u → u ≠ some t →
        m'.knowledge.obj (lockOf l) = s.mem.knowledge.obj (lockOf l) := fun u hu hut => by
      refine hobj _ ?_
      rintro rfl
      exact hut (hu.symm.trans hown)
    refine place_subset (fun hm => ?_) (fun hm => ?_) fun u hu hm => ⟨hm, ?_⟩
    · simp [State.place, hm, hfree _ hm]
    · simpa [State.place, hm] using hself (lockOf l)
    · exact held_subset (hi.calls u) hb (.inl (hne u hu).2) (hfree _ hm (by simpa using hu))

/-- A thread in `lock` or `unlock` stores nothing. -/
theorem Inv.line_eq_none (hi : Inv lockOf s) (hpc : s.pc t ≠ .idle) : (s.mem.base.threads t).pc.line = none := by
  cases hl : (s.mem.base.threads t).pc.line with
  | none => rfl
  | some l => exact absurd (hi.storing t l hl).1 hpc

/-- `inner->mtx.lock()` returns. -/
theorem Inv.locked (hi : Inv lockOf s) (hpc : s.pc t = .lock o) (hm : s.mtx o = none) :
    Inv lockOf ⟨s.mem, update s.mtx o (some t), update s.pc t (.acquire o)⟩ := by
  have hne : ∀ k u, s.mtx k = some u → k ≠ o := fun k u hk => by
    rintro rfl
    rw [hm] at hk
    cases hk
  refine hi.move rfl (fun _ _ => rfl) (fun u _ k hk => ?mtx) (fun k hk => ?owner) (.of_pc (by simp) (by simp))
    (hi.line_eq_none (by simp [hpc])) fun l => place_subset (fun hfree => ?free) (fun hself => ?self) fun u hu hk =>
      ⟨?mtx', List.Subset.refl _⟩
  case mtx => rw [update_of_ne (hne k u hk), hk]
  case mtx' => rw [update_of_ne (hne _ u hk), hk]
  case owner =>
    cases hk
    exact update_self _ _ _
  case free =>
    by_cases hl : lockOf l = o
    · simp [State.place, hl, held]
    · simp [State.place, hl, hfree]
  case self =>
    have hl := hne _ t hself
    simp [State.place, hl, hself, held, hpc, Ne.symm hl]

/-- `thread_acquire` has returned. -/
theorem Inv.entered (hi : Inv lockOf s) (hpc : s.pc t = .acquiring o) (hidle : (s.threadPc t).isIdle = true) :
    Inv lockOf ⟨s.mem, s.mtx, update s.pc t .idle⟩ := by
  refine hi.move rfl (fun _ _ => rfl) (fun _ _ _ h => h) (fun k hk => by cases hk) (.of_pc (by simp) (by simp))
    (hi.line_eq_none (by simp [hpc])) fun l => place_subset (fun hfree => ?_) (fun hself => ?_) fun u hu hk =>
      ⟨hk, List.Subset.refl _⟩
  · simp [State.place, hfree]
  · simp [State.place, hself, held, hpc, show (s.mem.base.threads t).pc.isIdle = true from hidle]

/-- `inner->mtx.unlock()` -/
theorem Inv.unlocked (hi : Inv lockOf s) (hpc : s.pc t = .unlock o) :
    Inv lockOf ⟨s.mem, update s.mtx o none, update s.pc t .idle⟩ := by
  have hown := hi.owner t o (by rw [hpc]; rfl)
  have hne : ∀ u ≠ t, ∀ k, s.mtx k = some u → k ≠ o := fun u hu k hk => by
    rintro rfl
    rw [hown] at hk
    exact hu (Option.some.inj hk).symm
  refine hi.move rfl (fun _ _ => rfl) (fun u hu k hk => ?mtx) (fun k hk => by cases hk) (.of_pc (by simp) (by simp))
    (hi.line_eq_none (by simp [hpc])) fun l => place_subset (fun hfree => ?free) (fun hself => ?self) fun u hu hk =>
      ⟨?mtx', List.Subset.refl _⟩
  case mtx => rw [update_of_ne (hne u hu k hk), hk]
  case mtx' => rw [update_of_ne (hne u hu _ hk), hk]
  case free =>
    by_cases hl : lockOf l = o
    · simp [State.place, hl]
    · simp [State.place, hl, hfree]
  case self =>
    by_cases hl : lockOf l = o
    · simp [State.place, hl, held, hpc]
    · simp [State.place, hl, hself, held, hpc, Ne.symm hl]

theorem call_cases {pc : Pc} (hs : Guarded.call cfg s t b pc = some s') :
    ∃ m', BaseStep cfg s.mem b m' ∧ s' = ⟨m', s.mtx, update s.pc t pc⟩ := by
  obtain ⟨m', hm, rfl⟩ := Option.map_eq_some_iff.mp hs
  rcases base_step hm with ⟨-, -, hnone⟩ | ⟨b', hb, hstep, hk⟩
  · cases hnone
  · cases hb
    exact ⟨m', ⟨step_cases hstep, hk⟩, rfl⟩

/-- `thread_acquire(inner->clock)` -/
theorem Inv.acquire (hi : Inv lockOf s) (hpc : s.pc t = .acquire o) (hb : BaseStep cfg s.mem (.acquire t o) m') :
    Inv lockOf ⟨m', s.mtx, update s.pc t (.acquiring o)⟩ := by
  obtain ⟨hstep, hk⟩ := hb
  have hown := hi.owner t o (by rw [hpc]; rfl)
  have hidle : s.threadPc t = .idle := idle_of_call hstep (List.mem_singleton.mpr rfl)
  have hhelp := help_of_acquire hstep
  refine hi.call ⟨hstep, hk⟩ rfl (by simp) (by simp) rfl hown rfl ⟨fun _ _ => .inr hhelp, by simp⟩ (fun k _ => ?_)
    (fun k => ?_) hidle
  · rw [hk]
    rfl
  · obtain ⟨h, hhelp⟩ := hhelp
    by_cases hko : o = k
    · subst hko
      simp [held, hpc, hhelp, hk, Knowledge.step]
    · simp [held, hpc, hko, hk, Knowledge.step]

/-- `thread_release()` -/
theorem Inv.release (hi : Inv lockOf s) (hpc : s.pc t = .idle) (hown : s.mtx o = some t)
    (hb : BaseStep cfg s.mem (.release t) m') : Inv lockOf ⟨m', s.mtx, update s.pc t (.releasing o)⟩ := by
  obtain ⟨hstep, hk⟩ := hb
  have hidle : s.threadPc t = .idle := idle_of_call hstep (List.mem_singleton.mpr rfl)
  have hcalls := purpose_of_release hstep
  refine hi.call ⟨hstep, hk⟩ rfl (by simp) (by simp) rfl hown rfl
    ⟨by simp, fun _ _ => hcalls.imp And.left And.left⟩ (fun k _ => ?_) (fun k => ?_) hidle
  · rw [hk]
    exact obj_of_ne (by simp) (by simp)
  · have hknown : s.mem.knowledge.known t ⊆ m'.knowledge.known t := hk ▸ known_subset
    rcases hcalls with ⟨hidle', hzero⟩ | ⟨hrel, hne⟩
    · by_cases hko : o = k
      · simp [held, hpc, hko, hidle', hk, Knowledge.step, hzero]
      · simpa [held, hpc, hko] using hknown
    · have hbusy : (m'.base.threads t).pc.isIdle = false := by
        cases hpc : (m'.base.threads t).pc with
        | idle => simp [hpc, ThreadPc.purpose] at hrel
        | _ => rfl
      simpa [held, hpc, hbusy] using hknown

/-- `inner->clock = thread_clock`, or the merge. -/
theorem Inv.writeClock (hi : Inv lockOf s) (hpc : s.pc t = .releasing o)
    (hb : BaseStep cfg s.mem (writeClock merge t o) m') : Inv lockOf ⟨m', s.mtx, update s.pc t (.unlock o)⟩ := by
  have hown := hi.owner t o (by rw [hpc]; rfl)
  cases merge with
  | false =>
      obtain ⟨hstep, hk⟩ : BaseStep cfg s.mem (.objStore t o) m' := hb
      have hidle : s.threadPc t = .idle := idle_of_call hstep (List.mem_singleton.mpr rfl)
      refine hi.call ⟨hstep, hk⟩ rfl (by simp) (by simp) rfl hown rfl (.of_pc (by simp) (by simp)) (fun k hne => ?_)
        (fun k => ?_) hidle
      · rw [hk]
        exact update_of_ne hne _ _
      · by_cases hko : o = k
        · subst hko
          simp [held, hpc, hk, Knowledge.step, show (s.mem.base.threads t).pc = .idle from hidle]
        · simp [held, hpc, hko, hk, Knowledge.step]
  | true =>
      obtain ⟨hstep, hk⟩ : BaseStep cfg s.mem (.objMerge t o) m' := hb
      have hidle : s.threadPc t = .idle := idle_of_call hstep (List.mem_singleton.mpr rfl)
      refine hi.call ⟨hstep, hk⟩ rfl (by simp) (by simp) rfl hown rfl (.of_pc (by simp) (by simp)) (fun k hne => ?_)
        (fun k => ?_) hidle
      · rw [hk]
        exact update_of_ne hne _ _
      · by_cases hko : o = k
        · subst hko
          simp [held, hpc, hk, Knowledge.step, show (s.mem.base.threads t).pc = .idle from hidle]
        · simp [held, hpc, hko, hk, Knowledge.step]

theorem Inv.step (hi : Inv lockOf s) (hok : Disciplined cfg lockOf s a) (hs : step cfg merge s a = some s') :
    Inv lockOf s' := by
  cases a with
  | lock t o =>
      simp only [Guarded.step] at hs
      split at hs <;> cases hs
      rename_i hidle
      have hline : (s.mem.base.threads t).pc.line = none := by
        rw [show (s.mem.base.threads t).pc = .idle from ThreadPc.isIdle_iff.mp hidle.2]
        rfl
      refine hi.move rfl (fun _ _ => rfl) (fun _ _ _ h => h) (fun k hk => by cases hk) (.of_pc (by simp) (by simp))
        hline fun l => place_subset (fun hfree => ?_) (fun hself => ?_) fun u hu hk => ⟨hk, List.Subset.refl _⟩
      · simp [State.place, hfree]
      · simp [State.place, hself, held, hidle.1]
  | unlock t o =>
      simp only [Guarded.step] at hs
      split at hs
      · rename_i hpc
        obtain ⟨m', hb, rfl⟩ := call_cases hs
        exact hi.release hpc.1 hpc.2 hb
      · cases hs
  | thread t =>
      simp only [Guarded.step, stepThread] at hs
      split at hs
      · cases hs
      · rename_i o hpc
        split at hs <;> cases hs
        exact hi.locked hpc ‹_›
      · obtain ⟨m', hb, rfl⟩ := call_cases hs
        exact hi.acquire ‹_› hb
      · split at hs <;> cases hs
        exact hi.entered ‹_› ‹_›
      · obtain ⟨m', hb, rfl⟩ := call_cases hs
        exact hi.writeClock ‹_› hb
      · cases hs
        exact hi.unlocked ‹_›
  | memory a =>
      simp only [Guarded.step] at hs
      split at hs
      · rename_i hcallers
        obtain ⟨m', hm, rfl⟩ := Option.map_eq_some_iff.mp hs
        obtain ⟨-, hdis⟩ := hok
        rcases base_step hm with ⟨hbase, hk, -⟩ | ⟨b, hb, hstep, hk⟩
        · -- the hardware
          have hplace : ∀ l, State.place { s with mem := m' } l = s.place l := fun l => by
            simp only [State.place, held, hbase, hk]
          refine ⟨hi.owner, fun t => ?_, fun t l hl => ?_, fun p u l hp => ?_⟩
          · obtain ⟨hacquiring, hreleasing⟩ := hi.calls t
            rw [← hbase] at hacquiring hreleasing
            exact ⟨hacquiring, hreleasing⟩
          · exact hi.storing t l (by rw [State.threadPc, ← hbase]; exact hl)
          · rw [hplace]
            exact hi.place p u l (by rw [← hbase]; exact hp)
        · have hcallers' : ∀ t ∈ b.callers, s.pc t = .idle := by
            simpa [MemoryAction.callers, hb] using hcallers
          refine hi.memory ⟨step_cases hstep, hk⟩ hcallers' (fun l => ?_) fun t addr heq => ?_
          · rw [hk]
            refine obj_of_ne (fun u heq => ?_) fun u heq => ?_
            · subst heq
              cases a with
              | cluster c =>
                  cases hb
                  exact hdis l rfl
              | _ => cases hb
            · subst heq
              cases a with
              | cluster c =>
                  cases hb
                  exact hdis l rfl
              | _ => cases hb
          · subst heq
            cases a with
            | store u p =>
                cases hb
                rw [Nat.shiftRight_eq_div_pow]
                exact hdis
            | cluster c =>
                cases hb
                cases hm
            | _ => cases hb
      · cases hs

/-! ## Runs -/

theorem inv_of_run (h : (machine cfg merge).Run (Disciplined cfg lockOf) s) : Inv lockOf s := by
  refine h.invariant (I := Inv lockOf) ?_ ?_
  · rintro s rfl
    exact .initial
  · rintro s a s' - hi hok hstep
    exact hi.step hok hstep

/-- The holder of the mutex of a line has all stores to the line in its past. -/
theorem Inv.ordered (hi : Inv lockOf s) (hown : s.mtx (lockOf l) = some t) (hpc : s.pc t = .idle) :
    Ordered cfg s.mem.base s.mem.knowledge t l := by
  intro p u hstore _
  have hplace := hi.place p u l hstore
  simpa only [State.place, hown, held, hpc] using hplace

end Guarded

end Cluster

end RACoherence
