import RACoherence.Cluster

/-!
# The steps of the cluster, one by one

As for the ring, `Step` lists the transitions with their guards and effects, and `step_cases` says
that the step function does nothing else.
-/

namespace RACoherence

open Function LocalCLTable

namespace Cluster

variable (cfg : Config)

/-- The step of the ring of node `i` that goes with a step of the cluster. -/
abbrev RingStep (s : State) (i : ℕ) (b : LogManager.Action) (r : LogManager.State) : Prop :=
  LogManager.step cfg.toLogConfig i (flushesCache 0) (s.rings i) b = some r

/-- The transitions of a thread outside `help_consume`. -/
inductive ThreadStep (s : State) (t : ℕ) : State → Prop
  | doStore {cl : ℕ} : (s.threads t).pc = .store cl →
      ThreadStep s t ((s.emit [.store t cl]).setPc t .idle)
  | getNewLog {k : Purpose} {r : LogManager.State} : (s.threads t).pc = .getLog k →
      (s.rings (cfg.home t)).prod t = .idle → RingStep cfg s (cfg.home t) (.getNewLog t) r →
      ThreadStep s t (s.setRing (cfg.home t) r)
  | gotLog {k : Purpose} {log : ℕ} : (s.threads t).pc = .getLog k →
      (s.rings (cfg.home t)).prod t = .hold log →
      ThreadStep s t (s.setPc t (.fill k (s.threads t).dirtyCls.entries))
  | getLogProd {k : Purpose} {r : LogManager.State} : (s.threads t).pc = .getLog k →
      RingStep cfg s (cfg.home t) (.prod t) r → ThreadStep s t (s.setRing (cfg.home t) r)
  | produceTail {k : Purpose} {r : LogManager.State} : (s.threads t).pc = .fill k [] →
      RingStep cfg s (cfg.home t) (.produceTail t k.isRelease) r →
      ThreadStep s t ((s.setRing (cfg.home t) r).setPc t (.produce k))
  | writeEntry {k : Purpose} {entry : ℕ} {rest : List ℕ} {r : LogManager.State} :
      (s.threads t).pc = .fill k (entry :: rest) →
      RingStep cfg s (cfg.home t) (.write t entry) r →
      ThreadStep s t
        (((s.setRing (cfg.home t) r).emit (writebackEvents t entry)).setPc t (.fill k rest))
  | publish {k : Purpose} {log j : ℕ} {rel : Bool} {r : LogManager.State} :
      (s.threads t).pc = .produce k → (s.rings (cfg.home t)).prod t = .storeIdx log rel j →
      RingStep cfg s (cfg.home t) (.prod t) r →
      ThreadStep s t (((s.setRing (cfg.home t) r).emit [.publish (cfg.home t) j]).setPc t
        (.finish k (LogManager.incr j)))
  | produceProd {k : Purpose} {r : LogManager.State} : (s.threads t).pc = .produce k →
      (∀ log rel j, (s.rings (cfg.home t)).prod t ≠ .storeIdx log rel j) →
      RingStep cfg s (cfg.home t) (.prod t) r → ThreadStep s t (s.setRing (cfg.home t) r)
  | finishFlush {cl clk : ℕ} : (s.threads t).pc = .finish (.flush cl) clk →
      ThreadStep s t (s.setThread t { s.threads t with
        dirtyCls := (insert 0 LocalCLTable.empty cl).2
        pc := .store cl })
  | finishRelease {clk : ℕ} : (s.threads t).pc = .finish .release clk →
      ThreadStep s t ((s.emit [.release t clk]).setThread t { s.threads t with
        dirtyCls := LocalCLTable.empty
        clock := (s.threads t).clock.assign (cfg.home t) clk
        pc := .idle })

/-- The transitions of a thread in `thread_acquire`. -/
inductive HelpStep (s : State) (t : ℕ) (h : Help) : State → Prop
  | reachedAll : h.stage = .loop → h.i = 0 → h.done = true →
      HelpStep s t h (s.setPc t (.help { h with stage := .merge }))
  | pass : h.stage = .loop → h.i = 0 → h.done = false →
      HelpStep s t h (s.setPc t (.help { h with done := true, i := cfg.nodeCount }))
  | skip {i : ℕ} : h.stage = .loop → h.i = i + 1 → (h.nodeDone i = true ∨ i = cfg.home t) →
      HelpStep s t h (s.setPc t (.help { h with i := i }))
  | next {i : ℕ} : h.stage = .loop → h.i = i + 1 → h.nodeDone i = false → i ≠ cfg.home t →
      HelpStep s t h (s.setPc t (.help { h with i := i, stage := .check }))
  | check {clk : ℕ} : h.stage = .check → clk = s.clock (cfg.home t) h.i →
      HelpStep s t h (s.setPc t (.help { h with stage := .compare clk }))
  | reached {clk : ℕ} : h.stage = .compare clk → s.read h.target h.i ≤ clk →
      HelpStep s t h
        (s.setPc t (.help { h with nodeDone := update h.nodeDone h.i true, stage := .loop }))
  | behind {clk : ℕ} : h.stage = .compare clk → clk < s.read h.target h.i →
      HelpStep s t h (s.setPc t (.help { h with stage := .isSubscribed }))
  | subscribed : h.stage = .isSubscribed →
      ((s.rings h.i).subs (cfg.home t)).isSubbed = true →
      HelpStep s t h (s.setPc t (.help { h with stage := .tryLock }))
  | unsubscribed : h.stage = .isSubscribed →
      ((s.rings h.i).subs (cfg.home t)).isSubbed = false →
      HelpStep s t h
        (s.setPc t (.help { h with nodeDone := update h.nodeDone h.i true, stage := .loop }))
  | lock : h.stage = .tryLock → s.headMtx (cfg.home t) = none →
      HelpStep s t h ((s.setMtx (cfg.home t) (some (.thread t))).setPc t
        (.help { h with stage := .readClk }))
  | busy {p : Party} : h.stage = .tryLock → s.headMtx (cfg.home t) = some p →
      HelpStep s t h (s.setPc t (.help { h with done := false, stage := .loop }))
  | readClk {clk : ℕ} : h.stage = .readClk → clk = s.clock (cfg.home t) h.i →
      HelpStep s t h (s.setPc t (.help { h with stage := .inner clk clk }))
  | enter {start clk : ℕ} : h.stage = .inner start clk → clk < s.read h.target h.i →
      HelpStep s t h (s.setPc t (.help { h with stage := .take start clk }))
  | leave {start clk : ℕ} : h.stage = .inner start clk → s.read h.target h.i ≤ clk →
      HelpStep s t h ((s.setClock (cfg.home t) h.i clk).setPc t
        (.help { h with nodeDone := update h.nodeDone h.i true, stage := .unlock }))
  | take {start clk : ℕ} {r : LogManager.State} : h.stage = .take start clk →
      RingStep cfg s h.i (.takeHead (cfg.home t)) r →
      HelpStep s t h
        ((s.setRing h.i r).setPc t (.help { h with stage := .consuming start clk }))
  | cons {start clk : ℕ} {r : LogManager.State} : h.stage = .consuming start clk →
      RingStep cfg s h.i (.cons (cfg.home t)) r →
      consOutcome (cfg.home t) (s.rings h.i) r = none →
      HelpStep s t h
        ((s.setRing h.i r).emit (consEvents cfg (cfg.home t) h.i (s.rings h.i)))
  | null {start clk : ℕ} {r : LogManager.State} : h.stage = .consuming start clk →
      RingStep cfg s h.i (.cons (cfg.home t)) r →
      consOutcome (cfg.home t) (s.rings h.i) r = some .null →
      HelpStep s t h
        (((s.setRing h.i r).emit (consEvents cfg (cfg.home t) h.i (s.rings h.i))).setPc t
          (.help { h with stage := .take start clk }))
  | consumed {start clk : ℕ} {c : Option ℕ} {r : LogManager.State} :
      h.stage = .consuming start clk → RingStep cfg s h.i (.cons (cfg.home t)) r →
      consOutcome (cfg.home t) (s.rings h.i) r = some (.consumed c) →
      HelpStep s t h
        (((s.setRing h.i r).emit (consEvents cfg (cfg.home t) h.i (s.rings h.i))).setPc t
          (.help { h with stage := .inner start (c.getD clk) }))
  | unlock : h.stage = .unlock →
      HelpStep s t h ((s.setMtx (cfg.home t) none).setPc t (.help { h with stage := .loop }))
  | merge : h.stage = .merge → h.i < cfg.nodeCount →
      HelpStep s t h (s.setThread t { s.threads t with
        clock := (s.threads t).clock.assign h.i
          (max ((s.threads t).clock h.i) (s.read h.target h.i))
        pc := .help { h with i := h.i + 1 } })
  | return_ : h.stage = .merge → cfg.nodeCount ≤ h.i → HelpStep s t h (s.setPc t .idle)

/-- The transitions of an agent. -/
inductive AgentStep (s : State) (n : ℕ) : State → Prop
  | restart {i : ℕ} : s.agents n = .loop i → cfg.nodeCount ≤ i →
      AgentStep s n (s.setAgent n (.loop 0))
  | skip {i : ℕ} : s.agents n = .loop i → i < cfg.nodeCount →
      AgentStep s n (s.setAgent n (.loop (i + 1)))
  | next {i : ℕ} : s.agents n = .loop i → i < cfg.nodeCount → i ≠ n →
      AgentStep s n (s.setAgent n (.tryLock i))
  | lock {i : ℕ} : s.agents n = .tryLock i → s.headMtx n = none →
      AgentStep s n ((s.setMtx n (some .agent)).setAgent n (.batch i 0 0))
  | busy {i : ℕ} {p : Party} : s.agents n = .tryLock i → s.headMtx n = some p →
      AgentStep s n (s.setAgent n (.loop (i + 1)))
  | take {i j clk : ℕ} {r : LogManager.State} : s.agents n = .batch i j clk → j < logMaxBatch →
      RingStep cfg s i (.takeHead n) r →
      AgentStep s n ((s.setRing i r).setAgent n (.consuming i j clk))
  | full {i j clk : ℕ} : s.agents n = .batch i j clk → logMaxBatch ≤ j →
      AgentStep s n (s.setAgent n (.update i clk))
  | cons {i j clk : ℕ} {r : LogManager.State} : s.agents n = .consuming i j clk →
      RingStep cfg s i (.cons n) r → consOutcome n (s.rings i) r = none →
      AgentStep s n ((s.setRing i r).emit (consEvents cfg n i (s.rings i)))
  | null {i j clk : ℕ} {r : LogManager.State} : s.agents n = .consuming i j clk →
      RingStep cfg s i (.cons n) r → consOutcome n (s.rings i) r = some .null →
      AgentStep s n (((s.setRing i r).emit (consEvents cfg n i (s.rings i))).setAgent n
        (.update i clk))
  | consumed {i j clk : ℕ} {c : Option ℕ} {r : LogManager.State} :
      s.agents n = .consuming i j clk → RingStep cfg s i (.cons n) r →
      consOutcome n (s.rings i) r = some (.consumed c) →
      AgentStep s n (((s.setRing i r).emit (consEvents cfg n i (s.rings i))).setAgent n
        (.batch i (j + 1) (c.getD clk)))
  | updateNone {i : ℕ} : s.agents n = .update i 0 → AgentStep s n (s.setAgent n (.unlock i))
  | update {i clk : ℕ} : s.agents n = .update i clk → clk ≠ 0 →
      AgentStep s n ((s.setClock n i clk).setAgent n (.unlock i))
  | unlock {i : ℕ} : s.agents n = .unlock i →
      AgentStep s n ((s.setMtx n none).setAgent n (.loop (i + 1)))

/-- The transitions of the cluster. -/
inductive Step (s : State) : Action → State → Prop
  | storeHit {t addr cl : ℕ} : (s.threads t).pc = .idle → cl = addr >>> virtualClShift 0 →
      cl = (s.threads t).recentCl → Step s (.logStore t addr) (s.setPc t (.store cl))
  | storeInsert {t addr cl : ℕ} {table : LocalCLTable} : (s.threads t).pc = .idle →
      cl = addr >>> virtualClShift 0 → cl ≠ (s.threads t).recentCl →
      insert 0 (s.threads t).dirtyCls cl = (false, table) →
      Step s (.logStore t addr) (s.setThread t
        { s.threads t with recentCl := cl, dirtyCls := table, pc := .store cl })
  | storeFull {t addr cl : ℕ} {table : LocalCLTable} : (s.threads t).pc = .idle →
      cl = addr >>> virtualClShift 0 → cl ≠ (s.threads t).recentCl →
      insert 0 (s.threads t).dirtyCls cl = (true, table) →
      Step s (.logStore t addr) (s.setThread t
        { s.threads t with recentCl := cl, dirtyCls := table, pc := .getLog (.flush cl) })
  | releaseNothing {t : ℕ} : (s.threads t).pc = .idle → (s.threads t).recentCl = 0 →
      Step s (.release t) s
  | release {t : ℕ} : (s.threads t).pc = .idle → (s.threads t).recentCl ≠ 0 →
      Step s (.release t) (s.setThread t
        { s.threads t with recentCl := 0, pc := .getLog .release })
  | acquire {t o : ℕ} : (s.threads t).pc = .idle →
      Step s (.acquire t o) (s.setPc t (.help ⟨.copy (s.objs o), false, fun _ => false, 0, .loop⟩))
  | create {p c : ℕ} : (s.threads p).pc = .idle → (s.threads c).pc = .idle → c ≠ p →
      cfg.home c = cfg.home p →
      Step s (.create p c) (s.setPc c (.help ⟨.parent p, false, fun _ => false, 0, .loop⟩))
  | objStore {t o : ℕ} : (s.threads t).pc = .idle →
      Step s (.objStore t o) { s with objs := update s.objs o (s.threads t).clock }
  | objMerge {t o : ℕ} : (s.threads t).pc = .idle →
      Step s (.objMerge t o)
        { s with objs := update s.objs o ((s.objs o).merge (s.threads t).clock) }
  | thread {t : ℕ} {s' : State} : ThreadStep cfg s t s' → Step s (.thread t) s'
  | help {t : ℕ} {h : Help} {s' : State} : (s.threads t).pc = .help h → HelpStep cfg s t h s' →
      Step s (.thread t) s'
  | agent {n : ℕ} {s' : State} : n < cfg.nodeCount → AgentStep cfg s n s' → Step s (.agent n) s'

variable {cfg} {s s' : State}

private theorem ringStep_cases {i : ℕ} {b : LogManager.Action} (h : ringStep cfg s i b = some s') :
    ∃ r, RingStep cfg s i b r ∧ s' = s.setRing i r := by
  obtain ⟨r, hr, rfl⟩ := Option.map_eq_some_iff.mp h
  exact ⟨r, hr, rfl⟩

private theorem consStep_cases {n i : ℕ} {out : Option Outcome}
    (h : consStep cfg s n i = some (s', out)) :
    ∃ r, RingStep cfg s i (.cons n) r ∧
      s' = (s.setRing i r).emit (consEvents cfg n i (s.rings i)) ∧
      out = consOutcome n (s.rings i) r := by
  obtain ⟨s₁, h₁, heq⟩ := Option.map_eq_some_iff.mp h
  obtain ⟨r, hr, rfl⟩ := ringStep_cases h₁
  obtain ⟨rfl, rfl⟩ := Prod.mk.inj heq
  exact ⟨r, hr, rfl, by simp [State.setRing]⟩

private theorem stepHelp_cases {t : ℕ} {h : Help} (hs : stepHelp cfg s t h = some s') :
    HelpStep cfg s t h s' := by
  unfold stepHelp at hs
  dsimp only at hs
  split at hs
  · rename_i hst
    split at hs
    · rename_i hi
      split at hs <;> cases hs
      · exact .reachedAll hst hi ‹_›
      · rename_i hd
        exact .pass hst hi (by simpa using hd)
    · rename_i hi
      have hi' : h.i = h.i - 1 + 1 := by omega
      split at hs <;> cases hs
      · exact .skip hst hi' ‹_›
      · rename_i hne
        rw [not_or] at hne
        exact .next hst hi' (by simpa using hne.1) hne.2
  · rename_i hst
    cases hs
    exact .check hst rfl
  · rename_i hst
    split at hs <;> cases hs
    · exact .reached hst ‹_›
    · exact .behind hst (by omega)
  · rename_i hst
    split at hs <;> cases hs
    · exact .subscribed hst ‹_›
    · rename_i hsub
      exact .unsubscribed hst (by simpa using hsub)
  · rename_i hst
    split at hs <;> cases hs
    · exact .lock hst ‹_›
    · exact .busy hst ‹_›
  · rename_i hst
    cases hs
    exact .readClk hst rfl
  · rename_i hst
    split at hs <;> cases hs
    · exact .enter hst ‹_›
    · exact .leave hst (by omega)
  · rename_i hst
    obtain ⟨s₁, h₁, rfl⟩ := Option.map_eq_some_iff.mp hs
    obtain ⟨r, hr, rfl⟩ := ringStep_cases h₁
    exact .take hst hr
  · rename_i hst
    obtain ⟨⟨s₁, out⟩, h₁, hout⟩ := Option.map_eq_some_iff.mp hs
    obtain ⟨r, hr, rfl, ho⟩ := consStep_cases h₁
    dsimp only at hout
    split at hout <;> subst hout
    · exact .cons hst hr ho.symm
    · exact .null hst hr ho.symm
    · exact .consumed hst hr ho.symm
  · rename_i hst
    cases hs
    exact .unlock hst
  · rename_i hst
    split at hs <;> cases hs
    · exact .merge hst ‹_›
    · exact .return_ hst (by omega)

private theorem stepThread_cases {t : ℕ} (hs : stepThread cfg s t = some s') :
    Step cfg s (.thread t) s' := by
  unfold stepThread at hs
  dsimp only at hs
  split at hs
  · exact absurd hs (by simp)
  · rename_i hpc
    cases hs
    exact .thread (.doStore hpc)
  · rename_i hpc
    split at hs
    · rename_i hprod
      obtain ⟨r, hr, rfl⟩ := ringStep_cases hs
      exact .thread (.getNewLog hpc hprod hr)
    · rename_i hprod
      cases hs
      exact .thread (.gotLog hpc hprod)
    · obtain ⟨r, hr, rfl⟩ := ringStep_cases hs
      exact .thread (.getLogProd hpc hr)
  · rename_i hpc
    obtain ⟨s₁, h₁, rfl⟩ := Option.map_eq_some_iff.mp hs
    obtain ⟨r, hr, rfl⟩ := ringStep_cases h₁
    exact .thread (.produceTail hpc hr)
  · rename_i hpc
    obtain ⟨s₁, h₁, rfl⟩ := Option.map_eq_some_iff.mp hs
    obtain ⟨r, hr, rfl⟩ := ringStep_cases h₁
    exact .thread (.writeEntry hpc hr)
  · rename_i hpc
    split at hs
    · rename_i hprod
      obtain ⟨s₁, h₁, rfl⟩ := Option.map_eq_some_iff.mp hs
      obtain ⟨r, hr, rfl⟩ := ringStep_cases h₁
      exact .thread (.publish hpc hprod hr)
    · rename_i hprod
      obtain ⟨r, hr, rfl⟩ := ringStep_cases hs
      exact .thread (.produceProd hpc hprod hr)
  · rename_i hpc
    cases hs
    exact .thread (.finishFlush hpc)
  · rename_i hpc
    cases hs
    exact .thread (.finishRelease hpc)
  · rename_i hpc
    exact .help hpc (stepHelp_cases hs)

private theorem stepAgent_cases {n : ℕ} (hs : stepAgent cfg s n = some s') :
    AgentStep cfg s n s' := by
  unfold stepAgent at hs
  split at hs
  · rename_i hpc
    split at hs
    · cases hs
      exact .restart hpc ‹_›
    · split at hs <;> cases hs
      · exact .skip hpc (by omega)
      · rename_i hne
        rw [not_or] at hne
        exact .next hpc (by omega) hne.1
  · rename_i hpc
    split at hs <;> cases hs
    · exact .lock hpc ‹_›
    · exact .busy hpc ‹_›
  · rename_i hpc
    split at hs
    · obtain ⟨s₁, h₁, rfl⟩ := Option.map_eq_some_iff.mp hs
      obtain ⟨r, hr, rfl⟩ := ringStep_cases h₁
      exact .take hpc ‹_› hr
    · cases hs
      exact .full hpc (by omega)
  · rename_i hpc
    obtain ⟨⟨s₁, out⟩, h₁, hout⟩ := Option.map_eq_some_iff.mp hs
    obtain ⟨r, hr, rfl, ho⟩ := consStep_cases h₁
    dsimp only at hout
    split at hout <;> subst hout
    · exact .cons hpc hr ho.symm
    · exact .null hpc hr ho.symm
    · exact .consumed hpc hr ho.symm
  · rename_i hpc
    split at hs
    · rename_i h0
      subst h0
      cases hs
      exact .updateNone hpc
    · cases hs
      exact .update hpc ‹_›
  · rename_i hpc
    cases hs
    exact .unlock hpc

/-- The step function takes only the listed transitions. -/
theorem step_cases {a : Action} (hs : step cfg s a = some s') : Step cfg s a s' := by
  cases a with
  | logStore t addr =>
      simp only [step] at hs
      split at hs
      · rename_i hpc
        split at hs
        · rename_i hhit
          cases hs
          exact .storeHit hpc rfl hhit
        · rename_i hmiss
          split at hs <;> cases hs
          · exact .storeInsert hpc rfl hmiss ‹_›
          · exact .storeFull hpc rfl hmiss ‹_›
      · cases hs
  | release t =>
      simp only [step] at hs
      split at hs
      · rename_i hpc
        split at hs <;> cases hs
        · exact .releaseNothing hpc ‹_›
        · exact .release hpc ‹_›
      · cases hs
  | acquire t o =>
      simp only [step] at hs
      split at hs <;> cases hs
      exact .acquire ‹_›
  | create p c =>
      simp only [step] at hs
      split at hs
      · split at hs <;> cases hs
        rename_i hp hc hne
        exact .create hp hc hne.1 hne.2
      · cases hs
  | objStore t o =>
      simp only [step] at hs
      split at hs <;> cases hs
      exact .objStore ‹_›
  | objMerge t o =>
      simp only [step] at hs
      split at hs <;> cases hs
      exact .objMerge ‹_›
  | thread t => exact stepThread_cases hs
  | agent n =>
      simp only [step] at hs
      split at hs
      · exact .agent ‹_› (stepAgent_cases hs)
      · cases hs

/-! ## Calls -/

/-- What a call makes of thread `t`, which is in no other call. -/
inductive Call (cfg : Config) (s : State) (t : ℕ) : Action → Thread → Prop
  | hit {addr cl : ℕ} : cl = addr >>> virtualClShift 0 → cl = (s.threads t).recentCl →
      Call cfg s t (.logStore t addr) { s.threads t with pc := .store cl }
  | insert {addr cl : ℕ} {table : LocalCLTable} : cl = addr >>> virtualClShift 0 →
      LocalCLTable.insert 0 (s.threads t).dirtyCls cl = (false, table) →
      Call cfg s t (.logStore t addr)
        { s.threads t with recentCl := cl, dirtyCls := table, pc := .store cl }
  | full {addr cl : ℕ} {table : LocalCLTable} : cl = addr >>> virtualClShift 0 →
      LocalCLTable.insert 0 (s.threads t).dirtyCls cl = (true, table) →
      Call cfg s t (.logStore t addr)
        { s.threads t with recentCl := cl, dirtyCls := table, pc := .getLog (.flush cl) }
  | release : Call cfg s t (.release t) { s.threads t with recentCl := 0, pc := .getLog .release }
  | acquire {o : ℕ} : Call cfg s t (.acquire t o)
      { s.threads t with pc := .help ⟨.copy (s.objs o), false, fun _ => false, 0, .loop⟩ }
  | create {p : ℕ} : cfg.home t = cfg.home p → Call cfg s t (.create p t)
      { s.threads t with pc := .help ⟨.parent p, false, fun _ => false, 0, .loop⟩ }

/-- A step that is not the thread's own leaves it alone, or calls it. -/
theorem call_of_ne {a : Action} {t : ℕ} (hs : Step cfg s a s') (hne : a ≠ .thread t) :
    s'.threads t = s.threads t ∨ (s.threads t).pc = .idle ∧ Call cfg s t a (s'.threads t) := by
  cases hs with
  | @thread u s' hs =>
      have ht : t ≠ u := by
        rintro rfl
        exact hne rfl
      refine .inl ?_
      cases hs <;> simp [State.setPc, State.setThread, State.setRing, State.emit, ht]
  | @help u hp s' hpc hs =>
      have ht : t ≠ u := by
        rintro rfl
        exact hne rfl
      refine .inl ?_
      cases hs <;>
        simp [State.setPc, State.setThread, State.setRing, State.setMtx, State.setClock, State.emit, ht]
  | agent hm hs => cases hs <;> exact .inl rfl
  | releaseNothing => exact .inl rfl
  | objStore => exact .inl rfl
  | objMerge => exact .inl rfl
  | @storeHit u addr cl hpc hcl heq =>
      by_cases ht : t = u
      · subst ht
        exact .inr ⟨hpc, by simpa [State.setPc, State.setThread] using .hit hcl heq⟩
      · exact .inl (by simp [State.setPc, State.setThread, ht])
  | @storeInsert u addr cl table hpc hcl _ hins =>
      by_cases ht : t = u
      · subst ht
        exact .inr ⟨hpc, by simpa [State.setThread] using .insert hcl hins⟩
      · exact .inl (by simp [State.setThread, ht])
  | @storeFull u addr cl table hpc hcl _ hins =>
      by_cases ht : t = u
      · subst ht
        exact .inr ⟨hpc, by simpa [State.setThread] using .full hcl hins⟩
      · exact .inl (by simp [State.setThread, ht])
  | @release u hpc hne' =>
      by_cases ht : t = u
      · subst ht
        exact .inr ⟨hpc, by simpa [State.setThread] using .release⟩
      · exact .inl (by simp [State.setThread, ht])
  | @acquire u o hpc =>
      by_cases ht : t = u
      · subst ht
        exact .inr ⟨hpc, by simpa [State.setPc, State.setThread] using .acquire⟩
      · exact .inl (by simp [State.setPc, State.setThread, ht])
  | @create p c hp hc hne' hhome =>
      by_cases ht : t = c
      · subst ht
        exact .inr ⟨hc, by simpa [State.setPc, State.setThread] using .create hhome⟩
      · exact .inl (by simp [State.setPc, State.setThread, ht])

end Cluster

end RACoherence
