import RACoherence.Cluster.Progress

/-!
# Clocks and consumption agree

What the invariant says of the agents and the helping threads of every node: entries are processed once and
in order, the cache clock is that of the consumed entries, clocks name published releases, and the inner
loop of `help_consume` consumes up to its target and stops there.
-/

namespace RACoherence

open Function LocalCLTable

namespace Cluster

/-- The agreement of clocks and consumption in a state. -/
structure ClocksAgree (cfg : Config) (s : State) : Prop where
  /-- Node `n` has processed the entries of ring `i` up to its head, and perhaps started with the next
  one, each once, in the order of their indices, and after they were published. -/
  processed : ∀ n i, LogManager.Remote cfg.toLogConfig i n → ∃ m, s.head n i ≤ m ∧ m ≤ s.head n i + 1 ∧
    Cluster.processed n i s.trace = (List.range m).map (· + 1) ∧
    ∀ j < m, (s.rings i).published j = true
  /-- While the mutex of node `n` is free, its clock is the last release it has consumed. -/
  clock : ∀ n i, LogManager.Remote cfg.toLogConfig i n → s.headMtx n = none →
    s.clock n i = LogManager.lastRel (s.rings i) (s.head n i)
  clock_mono : ∀ n i a s', step cfg s a = some s' → s.clock n i ≤ s'.clock n i
  thread_named : ∀ t i, (s.threads t).clock i ≠ 0 →
    LogManager.IsRelease (s.rings i) ((s.threads t).clock i)
  obj_named : ∀ o i, s.objs o i ≠ 0 → LogManager.IsRelease (s.rings i) (s.objs o i)
  thread_le : ∀ t i, i ≠ cfg.home t → (s.threads t).clock i ≤ s.clock (cfg.home t) i
  /-- When a thread is about to consume towards its target, the target is not consumed. -/
  ahead : ∀ t h start clk, (s.threads t).pc = .help h → h.stage = .inner start clk →
    clk < s.read h.target h.i → s.head (cfg.home t) h.i < s.read h.target h.i
  /-- When a thread that has consumed is about to leave the loop, it has consumed up to its target. -/
  stops : ∀ t h start clk, (s.threads t).pc = .help h → h.stage = .inner start clk →
    start < s.read h.target h.i → s.read h.target h.i ≤ clk →
    clk = s.read h.target h.i ∧ s.head (cfg.home t) h.i = s.read h.target h.i
  /-- A thread in the loop gets there by its own steps, once everything up to its target is published. -/
  reaches : ∀ t h start, (s.threads t).pc = .help h → h.stage.start = some start →
    start < s.read h.target h.i →
    (∀ j, s.head (cfg.home t) h.i ≤ j → j < s.read h.target h.i → (s.rings h.i).published j = true) →
    ∃ k s', (machine cfg).exec (fun _ _ => true) s (List.replicate k (.thread t)) = some s' ∧
      (s'.threads t).pc = .help { h with stage := .inner start (s.read h.target h.i) } ∧
      s'.head (cfg.home t) h.i = s.read h.target h.i ∧ s'.read h.target h.i = s.read h.target h.i

variable {cfg : Config} {s : State}

/-- The entry that a node is working on is published. -/
theorem Inv.published_of_lt_taken (h : Inv cfg s) {n i j : ℕ}
    (hn : LogManager.Remote cfg.toLogConfig i n) (hj : j < (s.rings i).taken n) :
    (s.rings i).published j = true := by
  unfold LogManager.State.taken at hj
  rcases Nat.lt_or_ge j (s.head n i) with hlt | hge
  · exact h.rings.published hn hlt
  · have hinv := (h.rings.inv i n hn).1
    change s.head n i ≤ j at hge
    have hproc : ((s.rings i).cons n).processing = true := by
      by_contra hno
      rw [if_neg hno] at hj
      exact absurd hj (by rw [← State.head]; omega)
    rw [if_pos hproc, ← State.head] at hj
    obtain rfl : j = s.head n i := by omega
    cases hpc : (s.rings i).cons n with
    | process log clk k size => exact (hinv.cons_at hpc).1
    | consume clk => exact (hinv.cons_at hpc).1
    | storeHead clk hd => exact (hinv.cons_at hpc).1
    | _ => rw [hpc] at hproc; cases hproc

theorem Inv.clocksAgree (h : Inv cfg s) : ClocksAgree cfg s where
  processed n i hn := by
    refine ⟨(s.rings i).taken n, ?_, ?_, h.processes n i hn, fun j hj => h.published_of_lt_taken hn hj⟩
    · exact Nat.le_add_right _ _
    · unfold LogManager.State.taken
      split
      · exact le_rfl
      · exact Nat.le_add_right _ _
  clock n i hn hfree := by
    rw [← h.clocks.current n i hn, State.current, State.carried, hfree]
    rfl
  clock_mono n i a s' hstep := h.clocks.clock_mono h.locks (step_cases hstep) n i
  thread_named := h.releases.thread
  obj_named := h.releases.obj
  thread_le := h.acquires.bound
  ahead t hp start clk hpc hst hlt :=
    head_lt_of_clk_lt h.locks hpc h.clocks h.releases (by rw [hst]; rfl) hlt
  stops t hp start clk hpc hst hlt hle := by
    have hhead := ((h.acquires.help t hp hpc).inner start clk hst).2 hlt
    have hlast := lastRel_of_carries h.locks hpc h.clocks (by rw [hst]; rfl)
    have := LogManager.lastRel_le (s.rings hp.i) (s.head (cfg.home t) hp.i)
    omega
  reaches _ _ _ hpc hst hlt hpub := reaches_target h hpc hst hlt hpub

/-- In every run without 32-bit wrap the clocks agree with what is consumed. -/
theorem clocks_agree (cfg : Config) (s : State) (h : (machine cfg).Run (NoWrap cfg) s) :
    ClocksAgree cfg s :=
  (inv_of_run h).clocksAgree

/-! ## A short run -/

/-- The shipped configuration with threads spread over the nodes. -/
def Config.default : Config where
  toLogConfig := .default
  home t := t % 8
  home_lt t := Nat.mod_lt t (show 0 < 8 by decide)

/-- A guard that keeps the rings of a run away from `perform_gc` and their indices small. -/
def shortRun (s : State) (a : Action) : Bool :=
  match ringAction .default s a with
  | none => true
  | some (i, b) => LogManager.shortRun (s.rings i) b

theorem noWrap_of_shortRun {a : Action} (h : shortRun s a = true) : NoWrap .default s a := by
  intro i b hb
  simp only [shortRun, hb] at h
  exact LogManager.noWrap_of_shortRun (by decide) h

/-- Thread 0 stores, releases and passes its clock on, and thread 1 on another node acquires it. -/
def passOn (k : ℕ) : List Action :=
  [.logStore 0 640, .thread 0, .release 0] ++ List.replicate 10 (.thread 0) ++
    [.objStore 0 0, .acquire 1 0] ++ List.replicate k (.thread 1)

/-- Thread 1 is about to enter its inner loop. -/
theorem clocks_agree_helping :
    ∃ s h, (s.threads 1).pc = .help h ∧ h.stage = .inner 0 0 ∧ s.read h.target h.i = 1 ∧
      ClocksAgree .default s := by
  obtain ⟨s, hs, h, hpc, hst, hread⟩ : ∃ s,
      (machine .default).exec shortRun (initial .default) (passOn 26) = some s ∧
      ∃ h, (s.threads 1).pc = .help h ∧ h.stage = .inner 0 0 ∧ s.read h.target h.i = 1 :=
    ⟨_, rfl, _, rfl, rfl, by decide +kernel⟩
  exact ⟨s, h, hpc, hst, hread, clocks_agree .default s
    (Machine.Run.exec (.init rfl) (fun _ _ => noWrap_of_shortRun) hs)⟩

end Cluster

end RACoherence
