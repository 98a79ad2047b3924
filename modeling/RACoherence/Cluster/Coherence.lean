import RACoherence.Cluster.Lines

/-!
# Release/acquire coherence

When `thread_acquire` returns, every line that another node has stored to before a release that the acquired
clock covers has been written back there and, after that, invalidated here. It rests on the rings, so it needs
what they need: a pass of `perform_gc` must not start in the last round.
-/

namespace RACoherence

open Function LocalCLTable

namespace Cluster

/-- `thread_acquire(c)` of thread `t` returns in this step. -/
def Returns (cfg : Config) (s : State) (t : ℕ) (c : VectorClock) (s' : State) : Prop :=
  (∃ h, (s.threads t).pc = .help h ∧ h.target = .copy c) ∧ step cfg s (.thread t) = some s' ∧
    (s'.threads t).pc = .idle

/-- When `thread_acquire(c)` returns on a node, then for every thread `u` of another node and every release
of `u` with a clock that `c` covers, every line that `u` has stored to before has been written back by `u`
since, and after that been invalidated on the node. -/
def Coherent (cfg : Config) (s : State) : Prop :=
  ∀ t c s', Returns cfg s t c s' → ∀ u clk cl earlier later, cfg.home u ≠ cfg.home t →
    s'.trace = earlier ++ .store u cl :: later → .release u clk ∈ later → clk ≤ c (cfg.home u) →
    ∃ q₁ q₂, later = q₁ ++ .writeback u cl :: q₂ ∧
      (.invalidate (cfg.home t) cl ∈ q₂ ∨ .wbinvd (cfg.home t) ∈ q₂)

/-- Fewer than `2 ^ 32 - LOG_COUNT` logs are produced in every ring. -/
def FewLogs (cfg : Config) (s : State) (a : Action) : Prop :=
  ∀ i b, ringAction cfg s a = some (i, b) → LogManager.FewLogs cfg.toLogConfig (s.rings i) b

/-- No pass of `perform_gc` starts with `bound` in the last round. -/
def GcBelowWrap (cfg : Config) (s : State) (a : Action) : Prop :=
  ∀ i b, ringAction cfg s a = some (i, b) → LogManager.GcBelowWrap cfg.toLogConfig (s.rings i) b

variable {cfg : Config} {s s' : State} {a : Action}

/-! ## No sum wraps -/

theorem exists_remote (hnodes : 1 < cfg.nodeCount) (i : ℕ) : ∃ n, LogManager.Remote cfg.toLogConfig i n := by
  rcases Nat.eq_zero_or_pos i with rfl | hi
  · exact ⟨1, hnodes, by decide⟩
  · exact ⟨0, by omega, by omega⟩

/-- The rings below the wrap. -/
def RingsBelow (cfg : Config) (s : State) : Prop :=
  ∀ i, LogManager.SubscribedInv cfg.toLogConfig i (s.rings i) ∧ (s.rings i).tail + cfg.logCount < idxRange

theorem RingsBelow.noWrap (h : RingsBelow cfg s) (hfew : FewLogs cfg s a) (hgc : GcBelowWrap cfg s a) :
    NoWrap cfg s a := by
  intro i b ha
  obtain ⟨⟨hinv, hall⟩, htail⟩ := h i
  exact hall.noWrap hinv htail (hfew i b ha) (hgc i b ha)

theorem RingsBelow.step (h : RingsBelow cfg s) (hnodes : 1 < cfg.nodeCount) (hfew : FewLogs cfg s a)
    (hgc : GcBelowWrap cfg s a) (hs : Step cfg s a s') : RingsBelow cfg s' := by
  intro i
  have hold := h i
  cases ringEffect hs with
  | none _ heq => rwa [heq]
  | @step k b r ha hr hno heq =>
      rw [heq, update_apply]
      split
      · rename_i hk
        subst hk
        obtain ⟨n, hn⟩ := exists_remote hnodes i
        have hloaded := hold.1.2.recyclesLoaded (a := b) hold.1.1 hn
        exact ⟨hold.1.step hno (h.noWrap hfew hgc i b ha) hloaded hr,
          LogManager.tail_lt_of_fewLogs hold.2 (hfew i b ha) hr⟩
      · exact hold

/-- With two nodes or more, `FewLogs` and `GcBelowWrap` are enough for no sum to wrap. -/
theorem run_noWrap (hnodes : 1 < cfg.nodeCount)
    (h : (machine cfg).Run (fun s a => NhcStore a ∧ FewLogs cfg s a ∧ GcBelowWrap cfg s a) s) :
    (machine cfg).Run (fun s a => NhcStore a ∧ NoWrap cfg s a) s := by
  have hbelow : ∀ s, (machine cfg).Run (fun s a => NhcStore a ∧ FewLogs cfg s a ∧ GcBelowWrap cfg s a) s →
      RingsBelow cfg s := fun s hs => by
    refine hs.invariant (I := RingsBelow cfg) ?_ ?_
    · rintro s rfl i
      exact ⟨LogManager.subscribedInv_initial, by
        simpa [initial, LogManager.initial] using cfg.logCount_lt⟩
    · rintro s a s' - hinv ⟨-, hfew, hgc⟩ hstep
      exact hinv.step hnodes hfew hgc (step_cases hstep)
  exact h.imp fun s a s' hrun hok _ => ⟨hok.1, (hbelow s hrun).noWrap hok.2.1 hok.2.2⟩

theorem lines_of_run (h : (machine cfg).Run (fun s a => NhcStore a ∧ NoWrap cfg s a) s) :
    Inv cfg s ∧ Lines cfg s := by
  refine h.invariant (I := fun s => Inv cfg s ∧ Lines cfg s) ?_ ?_
  · rintro s rfl
    exact ⟨.initial, .initial⟩
  · rintro s a s' - ⟨hinv, hlines⟩ ⟨hnhc, hwrap⟩ hstep
    have hs := step_cases hstep
    exact ⟨hinv.step hwrap hs, hlines.step hinv.rings hnhc hwrap hs⟩

/-! ## Coherence -/

/-- When `thread_acquire(c)` returns, the node has consumed what `c` names, and nothing is recorded. -/
theorem Inv.returns (h : Inv cfg s) {t : ℕ} {c : VectorClock} (hret : Returns cfg s t c s') {i : ℕ}
    (hi : i < cfg.nodeCount) (hne : i ≠ cfg.home t) :
    c i ≤ s.head (cfg.home t) i ∧ s'.trace = s.trace := by
  obtain ⟨⟨hp, hpc, htarget⟩, hstep, hidle⟩ := hret
  have hok := h.acquires.help t hp hpc
  have hrem : LogManager.Remote cfg.toLogConfig i (cfg.home t) := ⟨cfg.home_lt t, Ne.symm hne⟩
  cases step_cases hstep with
  | thread hs => exact absurd hpc (hs.not_help hp)
  | help hpc' hs =>
      obtain rfl := ThreadPc.help.inj (hpc.symm.trans hpc')
      cases hs with
      | return_ hst _ =>
          have hdone := hok.passed (hok.merging hst) i hi hne (.inr (.inr hst))
          have hclock := hok.reached c i htarget hdone
          have hlast := h.clocks.clock_le _ _ hrem
          exact ⟨hclock.trans (hlast.trans (LogManager.lastRel_le _ _)), rfl⟩
      | _ =>
          simp [State.setPc, State.setThread, State.setRing, State.setMtx, State.setClock, State.emit, hpc] at hidle

/-- Every line of a released store has been invalidated by a node that has consumed the release. -/
theorem Lines.invalidated (h : Lines cfg s) {u n clk cl : ℕ} {earlier later : List Event}
    (hn : LogManager.Remote cfg.toLogConfig (cfg.home u) n)
    (htr : s.trace = earlier ++ .store u cl :: later) (hrel : .release u clk ∈ later)
    (hclk : clk ≤ s.head n (cfg.home u)) :
    ∃ q₁ q₂, later = q₁ ++ .writeback u cl :: q₂ ∧ (.invalidate n cl ∈ q₂ ∨ .wbinvd n ∈ q₂) := by
  cases h.located u n hn cl earlier later htr with
  | table _ _ hno => exact absurd hrel (hno clk)
  | filling _ _ _ _ hno => exact absurd hrel (hno clk)
  | held _ _ _ _ hno => exact absurd hrel (hno clk)
  | published hpub _ hbelow =>
      obtain ⟨q₁, q₂, hlater, hseen⟩ := hpub.seen
      exact ⟨q₁, q₂, hlater, hseen (.inl ((hbelow clk hrel).trans_le hclk))⟩

/-- In every run with fewer than `2 ^ 32 - LOG_COUNT` logs per node, `thread_acquire` is coherent as long as
every pass of `perform_gc` starts with `bound + LOG_COUNT` below `2 ^ 32`. -/
theorem release_acquire_coherent (cfg : Config) (s : State)
    (h : (machine cfg).Run (fun s a => NhcStore a ∧ FewLogs cfg s a ∧ GcBelowWrap cfg s a) s) :
    Coherent cfg s := by
  intro t c s' hret u clk cl earlier later hne htr hrel hclk
  have hu := cfg.home_lt u
  have ht := cfg.home_lt t
  obtain ⟨hinv, hlines⟩ := lines_of_run (run_noWrap (by omega) h)
  obtain ⟨hhead, htrace⟩ := hinv.returns hret hu hne
  rw [htrace] at htr
  exact hlines.invalidated ⟨ht, Ne.symm hne⟩ htr hrel (hclk.trans hhead)

/-! ## A short run -/

theorem home_twoNodes_lt (t : ℕ) : (if t = 65 then 1 else 0) < 2 := by
  split <;> decide

/-- Two nodes with the shipped number of logs, and thread 65 on node 1. -/
def Config.twoNodes : Config where
  nodeCount := 2
  logCountShift := 6
  shift_pos := LogConfig.default.shift_pos
  shift_lt := LogConfig.default.shift_lt
  home t := if t = 65 then 1 else 0
  home_lt := home_twoNodes_lt

/-- A guard for short runs of stores that are not hardware coherent. -/
def shortNhcRun (s : State) (a : Action) : Bool :=
  (match a with
    | .logStore _ addr => decide (cxlNhcStart ≤ addr ∧ addr < 2 ^ virtualAddressBits)
    | _ => true) &&
  match ringAction .twoNodes s a with
  | none => true
  | some (i, b) => LogManager.shortRun (s.rings i) b

theorem guard_of_shortNhcRun (h : shortNhcRun s a = true) :
    NhcStore a ∧ FewLogs .twoNodes s a ∧ GcBelowWrap .twoNodes s a := by
  obtain ⟨haddr, hring⟩ := Bool.and_eq_true_iff.mp h
  refine ⟨?_, fun i b hb => ?_, fun i b hb => ?_⟩
  · cases a with
    | logStore t addr =>
        have hnhc : cxlNhcStart ≤ addr ∧ addr < 2 ^ virtualAddressBits := of_decide_eq_true haddr
        exact hnhc
    | _ => trivial
  · simp only [hb] at hring
    exact LogManager.fewLogs_of_shortRun (by decide) hring
  · simp only [hb] at hring
    exact LogManager.gcBelowWrap_of_shortRun (by decide) hring

/-- Thread 0 stores and releases, and thread 65 acquires its clock, up to the return. -/
theorem release_acquire_coherent_one_store :
    ∃ s s' c, Returns .twoNodes s 65 c s' ∧ c 0 = 1 ∧ .release 0 1 ∈ s.trace ∧ Coherent .twoNodes s := by
  obtain ⟨s, hs, h, c, s', hpc, htarget, hstep, hidle, hc, hrel⟩ : ∃ s,
      (machine .twoNodes).exec shortNhcRun (initial .twoNodes)
        ([.logStore 0 cxlNhcStart, .thread 0, .release 0] ++ List.replicate 10 (.thread 0) ++
          [.objStore 0 0, .acquire 65 0] ++ List.replicate 24 (.thread 65)) = some s ∧
      ∃ h c s', (s.threads 65).pc = .help h ∧ h.target = .copy c ∧
        step .twoNodes s (.thread 65) = some s' ∧ (s'.threads 65).pc = .idle ∧ c 0 = 1 ∧
        .release 0 1 ∈ s.trace :=
    ⟨_, rfl, _, _, _, rfl, rfl, rfl, rfl, by decide +kernel, by decide +kernel⟩
  exact ⟨s, s', c, ⟨⟨h, hpc, htarget⟩, hstep, hidle⟩, hc, hrel, release_acquire_coherent .twoNodes s
    (Machine.Run.exec (.init rfl) (fun _ _ => guard_of_shortNhcRun) hs)⟩

end Cluster

end RACoherence
