import Mathlib.Data.Prod.Lex
import Mathlib.Order.WellFounded
import RACoherence.Cluster.Trace

/-!
# The inner loop of `help_consume` ends

A node works on an entry exactly while the holder of its mutex is between `take_head` and `consume_head`, so
a helping thread is never blocked. Once everything up to the target is published, it reaches the target by
its own steps.
-/

namespace RACoherence

open Function LocalCLTable

namespace Cluster

/-- The ring that an agent is consuming an entry of. -/
def AgentPc.works : AgentPc → Option ℕ
  | .consuming i _ _ => some i
  | .loop _ | .tryLock _ | .batch _ _ _ | .update _ _ | .unlock _ => none

/-- The ring that a thread is consuming an entry of. -/
def Help.works (h : Help) : Option ℕ :=
  match h.stage with
  | .consuming _ _ => some h.i
  | _ => none

def ThreadPc.works : ThreadPc → Option ℕ
  | .help h => h.works
  | .idle | .store _ | .getLog _ | .fill _ _ | .produce _ | .finish _ _ => none

/-- The ring that node `n` is consuming an entry of. -/
def State.works (s : State) (n : ℕ) : Option ℕ :=
  match s.headMtx n with
  | some .agent => (s.agents n).works
  | some (.thread t) => (s.threads t).pc.works
  | none => none

variable {cfg : Config} {s s' : State} {a : Action} {n i : ℕ}

theorem works_congr (hmtx : s'.headMtx n = s.headMtx n)
    (hagent : s.headMtx n = some .agent → (s'.agents n).works = (s.agents n).works)
    (hthread : ∀ u, s.headMtx n = some (.thread u) → (s'.threads u).pc.works = (s.threads u).pc.works) :
    s'.works n = s.works n := by
  unfold State.works
  rw [hmtx]
  cases hm : s.headMtx n with
  | none => rfl
  | some p =>
      cases p with
      | agent => simp only [hagent hm]
      | thread u => simp only [hthread u hm]

/-- A consumer is between `take_head` and `consume_head` as long as its steps do not end it. -/
theorem cons_idle_iff {r r' : LogManager.State}
    (hr : LogManager.step cfg.toLogConfig i (flushesCache 0) r (.cons n) = some r') :
    r'.cons n = .idle ↔ consOutcome n r r' ≠ none := by
  cases LogManager.step_cases hr <;> simp [consOutcome, LogManager.State.setCons, *]

/-- A ring has a consumer at work for a node exactly when the holder of its mutex is consuming. -/
def Workers (cfg : Config) (s : State) : Prop :=
  ∀ n i, LogManager.Remote cfg.toLogConfig i n → ((s.rings i).cons n ≠ .idle ↔ s.works n = some i)

theorem Workers.initial : Workers cfg (initial cfg) := by
  intro n i _
  simp [Cluster.initial, LogManager.initial, State.works]

/-- Only steps of its own consumer move a consumer. -/
theorem cons_step (hok : RingsOk cfg s) (hs : Step cfg s a s')
    (hn : LogManager.Remote cfg.toLogConfig i n)
    (hne : ∀ b, ringAction cfg s a = some (i, b) → ¬ LogManager.Consumes n b) :
    (s'.rings i).cons n = (s.rings i).cons n := by
  cases ringEffect hs with
  | none _ heq => rw [heq]
  | @step k b r ha hr hno heq =>
      rw [heq, update_apply]
      split
      · rename_i hk
        subst hk
        exact (LogManager.head_of_not_consumes (hok.inv _ n hn).2 hno (LogManager.step_cases hr)
          (hne b ha)).2
      · rfl

/-- A step of the consumer of node `n` on ring `k`. -/
theorem works_of_ring {k : ℕ} {r : LogManager.State}
    (hold : (s.rings i).cons n ≠ .idle ↔ s.works n = some i) (hrings : s'.rings = update s.rings k r)
    (hw : s.works n = none ∨ s.works n = some k) (hw' : s'.works n = none ∨ s'.works n = some k)
    (hcons : r.cons n ≠ .idle ↔ s'.works n = some k) :
    (s'.rings i).cons n ≠ .idle ↔ s'.works n = some i := by
  by_cases hik : i = k
  · subst hik
    rwa [hrings, update_self]
  · rw [hrings, update_of_ne hik, hold]
    grind

theorem Workers.agent_step {m : ℕ} (h : Workers cfg s) (hl : Locks cfg s) (hok : RingsOk cfg s)
    (hm : m < cfg.nodeCount) (hs : AgentStep cfg s m s') : Workers cfg s' := by
  intro n i hn
  have hold := h n i hn
  have hcons := cons_step hok (.agent hm hs) hn
  by_cases hnm : n = m
  · subst hnm
    have hmtx := hl.agent n
    cases hs with
    | @take k j clk r hpc hj hr =>
        have hholds : s.headMtx n = some .agent := hmtx.mp (by rw [hpc]; rfl)
        have hw : s.works n = none := by simp [State.works, hholds, hpc, AgentPc.works]
        have hw' : ((s.setRing k r).setAgent n (.consuming k j clk)).works n = some k := by
          simp [State.works, State.setAgent, State.setRing, hholds, AgentPc.works]
        refine works_of_ring hold rfl (.inl hw) (.inr hw') ?_
        rw [(LogManager.takeHead_spec (LogManager.step_cases hr)).2.2, hw']
        simp
    | @cons k j clk r hpc hr hout =>
        have hholds : s.headMtx n = some .agent := hmtx.mp (by rw [hpc]; rfl)
        have hw : s.works n = some k := by simp [State.works, hholds, hpc, AgentPc.works]
        refine works_of_ring hold rfl (.inr hw) (.inr hw) (iff_of_true ?_ hw)
        rw [Ne, cons_idle_iff hr, hout]
        simp
    | @null k j clk r hpc hr hout =>
        have hholds : s.headMtx n = some .agent := hmtx.mp (by rw [hpc]; rfl)
        have hw : s.works n = some k := by simp [State.works, hholds, hpc, AgentPc.works]
        have hw' : (((s.setRing k r).emit (consEvents cfg n k (s.rings k))).setAgent n
            (.update k clk)).works n = none := by
          simp [State.works, State.setAgent, State.setRing, State.emit, hholds, AgentPc.works]
        refine works_of_ring hold rfl (.inr hw) (.inl hw') ?_
        rw [Ne, cons_idle_iff hr, hout, hw']
        simp
    | @consumed k j clk c r hpc hr hout =>
        have hholds : s.headMtx n = some .agent := hmtx.mp (by rw [hpc]; rfl)
        have hw : s.works n = some k := by simp [State.works, hholds, hpc, AgentPc.works]
        have hw' : (((s.setRing k r).emit (consEvents cfg n k (s.rings k))).setAgent n
            (.batch k (j + 1) (c.getD clk))).works n = none := by
          simp [State.works, State.setAgent, State.setRing, State.emit, hholds, AgentPc.works]
        refine works_of_ring hold rfl (.inr hw) (.inl hw') ?_
        rw [Ne, cons_idle_iff hr, hout, hw']
        simp
    | lock hpc hfree =>
        rw [hcons (by simp [ringAction, *]), hold]
        simp [State.works, hfree, State.setAgent, State.setMtx, AgentPc.works]
    | unlock hpc =>
        have hholds : s.headMtx n = some .agent := hmtx.mp (by rw [hpc]; rfl)
        rw [hcons (by simp [ringAction, *]), hold]
        simp [State.works, hholds, State.setAgent, State.setMtx, hpc, AgentPc.works]
    | _ hpc =>
        -- before the step the agent is not consuming, and neither is it afterwards
        rw [hcons (by simp [ringAction, *]), hold]
        refine Iff.of_eq (congrArg (· = some i) (Eq.symm (works_congr rfl (fun _ => ?_) fun _ _ => rfl)))
        simp [State.setAgent, State.setClock, AgentPc.works, *]
  · rw [hcons ?_, works_congr, hold]
    · cases hs <;> simp [State.setAgent, State.setMtx, State.setRing, State.emit, State.setClock, hnm]
    · intro
      cases hs <;> simp [State.setAgent, State.setMtx, State.setRing, State.emit, State.setClock, hnm]
    · intro u _
      cases hs <;> rfl
    · intro b hb
      simp only [ringAction] at hb
      split at hb
      · split at hb <;> cases hb
        exact Ne.symm hnm
      · cases hb
        exact Ne.symm hnm
      · cases hb

theorem Workers.help_step {t : ℕ} {hp : Help} (h : Workers cfg s) (hl : Locks cfg s) (hok : RingsOk cfg s)
    (hpc : (s.threads t).pc = .help hp) (hs : HelpStep cfg s t hp s') : Workers cfg s' := by
  intro n i hn
  have hold := h n i hn
  have hcons := cons_step hok (.help hpc hs) hn
  by_cases hnt : n = cfg.home t
  · subst hnt
    have hmtx := hl.thread t (cfg.home t)
    rw [hpc] at hmtx
    have hworks : hp.stage.holds = true → s.works (cfg.home t) = hp.works := by
      intro hholds
      simp [State.works, hmtx.mp ⟨hholds, rfl⟩, hpc, ThreadPc.works]
    cases hs with
    | @take start clk r hst hr =>
        have hholds := hmtx.mp ⟨by rw [ThreadPc.holds, hst]; rfl, rfl⟩
        have hw : s.works (cfg.home t) = none := by rw [hworks (by rw [hst]; rfl), Help.works, hst]
        have hw' : ((s.setRing hp.i r).setPc t (.help { hp with stage := .consuming start clk })).works
            (cfg.home t) = some hp.i := by
          simp [State.works, State.setPc, State.setThread, State.setRing, hholds, ThreadPc.works, Help.works]
        refine works_of_ring hold rfl (.inl hw) (.inr hw') ?_
        rw [(LogManager.takeHead_spec (LogManager.step_cases hr)).2.2, hw']
        simp
    | @cons start clk r hst hr hout =>
        have hw : s.works (cfg.home t) = some hp.i := by
          rw [hworks (by rw [hst]; rfl), Help.works, hst]
        refine works_of_ring hold rfl (.inr hw) (.inr hw) (iff_of_true ?_ hw)
        rw [Ne, cons_idle_iff hr, hout]
        simp
    | @null start clk r hst hr hout =>
        have hholds := hmtx.mp ⟨by rw [ThreadPc.holds, hst]; rfl, rfl⟩
        have hw : s.works (cfg.home t) = some hp.i := by
          rw [hworks (by rw [hst]; rfl), Help.works, hst]
        have hw' : (((s.setRing hp.i r).emit (consEvents cfg (cfg.home t) hp.i (s.rings hp.i))).setPc t
            (.help { hp with stage := .take start clk })).works (cfg.home t) = none := by
          simp [State.works, State.setPc, State.setThread, State.setRing, State.emit, hholds,
            ThreadPc.works, Help.works]
        refine works_of_ring hold rfl (.inr hw) (.inl hw') ?_
        rw [Ne, cons_idle_iff hr, hout, hw']
        simp
    | @consumed start clk c r hst hr hout =>
        have hholds := hmtx.mp ⟨by rw [ThreadPc.holds, hst]; rfl, rfl⟩
        have hw : s.works (cfg.home t) = some hp.i := by
          rw [hworks (by rw [hst]; rfl), Help.works, hst]
        have hw' : (((s.setRing hp.i r).emit (consEvents cfg (cfg.home t) hp.i (s.rings hp.i))).setPc t
            (.help { hp with stage := .inner start (c.getD clk) })).works (cfg.home t) = none := by
          simp [State.works, State.setPc, State.setThread, State.setRing, State.emit, hholds,
            ThreadPc.works, Help.works]
        refine works_of_ring hold rfl (.inr hw) (.inl hw') ?_
        rw [Ne, cons_idle_iff hr, hout, hw']
        simp
    | lock hst hfree =>
        rw [hcons (by simp [ringAction, *]), hold]
        simp [State.works, hfree, State.setPc, State.setThread, State.setMtx, ThreadPc.works, Help.works]
    | unlock hst =>
        have hw : s.works (cfg.home t) = none := by rw [hworks (by rw [hst]; rfl), Help.works, hst]
        rw [hcons (by simp [ringAction, *]), hold, hw]
        simp [State.works, State.setPc, State.setThread, State.setMtx]
    | _ =>
        -- before the step the thread is not consuming, and neither is it afterwards
        rw [hcons (by simp [ringAction, *]), hold]
        refine Iff.of_eq (congrArg (· = some i) (Eq.symm (works_congr rfl (fun _ => rfl) fun u _ => ?_)))
        simp only [State.setPc, State.setThread, State.setClock, update_apply]
        split
        · simp [ThreadPc.works, Help.works, *]
        · rfl
  · have hne : ∀ u, s.headMtx n = some (.thread u) → u ≠ t := by
      rintro u hu rfl
      exact hnt ((hl.thread u n).mpr hu).2.symm
    rw [hcons ?_, works_congr, hold]
    · cases hs <;>
        simp [State.setPc, State.setThread, State.setMtx, State.setRing, State.emit, State.setClock, hnt]
    · intro
      cases hs <;> rfl
    · intro u hu
      have := hne u hu
      cases hs <;>
        simp [State.setPc, State.setThread, State.setMtx, State.setRing, State.emit, State.setClock, this]
    · intro b hb
      simp only [ringAction, hpc] at hb
      split at hb <;> cases hb <;> exact Ne.symm hnt

theorem Workers.step (h : Workers cfg s) (hl : Locks cfg s) (hok : RingsOk cfg s) (hs : Step cfg s a s') :
    Workers cfg s' := by
  cases hs with
  | agent hm hs => exact h.agent_step hl hok hm hs
  | help hpc hs => exact h.help_step hl hok hpc hs
  | thread hs =>
      intro n i hn
      have hcons := cons_step hok (.thread hs) hn fun b => not_consumes_of_thread hs.not_help
      rw [hcons, works_congr, h n i hn]
      · cases hs <;> rfl
      · intro
        cases hs <;> rfl
      · intro u hu
        have hne := hs.ne_holder hl hu
        cases hs <;> simp [State.setPc, State.setThread, State.setRing, State.emit, update_of_ne hne]
  | releaseNothing => exact h
  | objStore => exact h
  | objMerge => exact h
  | _ =>
      intro n i hn
      refine (h n i hn).trans (Iff.of_eq (congrArg (· = some i) (Eq.symm ?_)))
      refine works_congr rfl (fun _ => rfl) fun u _ => ?_
      simp only [State.setPc, State.setThread, update_apply]
      grind [ThreadPc.works, Help.works]

/-! ## The invariant -/

/-- The invariant of a cluster without 32-bit wrap. -/
structure Inv (cfg : Config) (s : State) : Prop where
  rings : RingsOk cfg s
  locks : Locks cfg s
  clocks : Clocks cfg s
  releases : Releases cfg s
  acquires : Acquires cfg s
  processes : Processes cfg s
  workers : Workers cfg s

theorem Inv.initial : Inv cfg (initial cfg) :=
  ⟨.initial, .initial, .initial, .initial, .initial, .initial, .initial⟩

theorem Inv.step (h : Inv cfg s) (hwrap : NoWrap cfg s a) (hs : Step cfg s a s') : Inv cfg s' :=
  ⟨(h.rings.step hwrap hs).1, h.locks.step hs, h.clocks.step h.locks h.rings hwrap hs,
    h.releases.step h.rings hwrap hs, h.acquires.step h.locks h.rings h.clocks h.releases hwrap hs,
    h.processes.step h.rings hwrap hs, h.workers.step h.locks h.rings hs⟩

theorem inv_of_run (h : (machine cfg).Run (NoWrap cfg) s) : Inv cfg s := by
  refine h.invariant (I := Inv cfg) ?_ ?_
  · rintro s rfl
    exact .initial
  · intro s a s' _ hinv hwrap hstep
    exact hinv.step hwrap (step_cases hstep)

/-! ## Reaching the target -/

/-- The clock that a thread in the inner loop has read when it got the mutex. -/
def HelpStage.start : HelpStage → Option ℕ
  | .inner start _ | .take start _ | .consuming start _ => some start
  | .loop | .check | .compare _ | .isSubscribed | .tryLock | .readClk | .unlock | .merge => none

/-- How far a consumer is from `consume_head`. -/
def consRank : LogManager.ConsPc → ℕ ×ₗ ℕ
  | .idle => toLex (0, 0)
  | .loadIdx _ => toLex (9, 0)
  | .entry _ => toLex (8, 0)
  | .gotLog _ _ => toLex (7, 0)
  | .gotRel _ _ _ => toLex (6, 0)
  | .start _ _ => toLex (5, 0)
  | .process _ _ k size => toLex (4, size - k)
  | .consume _ => toLex (3, 0)
  | .storeHead _ _ => toLex (2, 0)

/-- How far a thread in the inner loop is from `consume_head`. -/
def stageRank (cfg : Config) (s : State) (t : ℕ) (h : Help) : ℕ ×ₗ ℕ :=
  match h.stage with
  | .inner _ _ => toLex (11, 0)
  | .take _ _ => toLex (10, 0)
  | _ => consRank ((s.rings h.i).cons (cfg.home t))

/-- How far a thread in the inner loop is from its target. -/
def loopRank (cfg : Config) (s : State) (t : ℕ) (h : Help) : ℕ ×ₗ (ℕ ×ₗ ℕ) :=
  toLex (s.read h.target h.i - s.head (cfg.home t) h.i, stageRank cfg s t h)

theorem loopRank_lt_of_stage {t : ℕ} {h h' : Help} (hread : s'.read h'.target h'.i = s.read h.target h.i)
    (hhead : s'.head (cfg.home t) h'.i = s.head (cfg.home t) h.i)
    (hlt : stageRank cfg s' t h' < stageRank cfg s t h) : loopRank cfg s' t h' < loopRank cfg s t h :=
  Prod.Lex.toLex_lt_toLex.mpr (.inr ⟨by rw [hread, hhead], hlt⟩)

theorem loopRank_lt_of_head {t : ℕ} {h h' : Help} (hread : s'.read h'.target h'.i = s.read h.target h.i)
    (hhead : s'.head (cfg.home t) h'.i = s.head (cfg.home t) h.i + 1)
    (hlt : s.head (cfg.home t) h.i < s.read h.target h.i) : loopRank cfg s' t h' < loopRank cfg s t h := by
  refine Prod.Lex.toLex_lt_toLex.mpr (.inl ?_)
  show s'.read h'.target h'.i - s'.head (cfg.home t) h'.i < s.read h.target h.i - s.head (cfg.home t) h.i
  omega

theorem cons_enabled {r : LogManager.State} (hcons : r.cons n ≠ .idle) :
    ∃ r', LogManager.step cfg.toLogConfig i (flushesCache 0) r (.cons n) = some r' := by
  show ∃ r', LogManager.stepCons cfg.toLogConfig (flushesCache 0) r n = some r'
  unfold LogManager.stepCons
  split <;> first | exact absurd ‹_› hcons | (split <;> exact ⟨_, rfl⟩) | exact ⟨_, rfl⟩

/-- A step of a consumer on a published entry comes closer to `consume_head`, or is it. -/
theorem consRank_step {r r' : LogManager.State} (hinv : LogManager.SubscribedInv cfg.toLogConfig i r)
    (hn : LogManager.Remote cfg.toLogConfig i n) (hlt : (r.subs n).head + 1 < idxRange)
    (hpub : r.published (r.subs n).head = true)
    (hr : LogManager.step cfg.toLogConfig i (flushesCache 0) r (.cons n) = some r') :
    consOutcome n r r' = none ∧ consRank (r'.cons n) < consRank (r.cons n) ∨
      ∃ c, consOutcome n r r' = some (.consumed c) := by
  cases LogManager.step_cases hr with
  | @takeNull m hd hpc hne =>
      obtain rfl : hd = (r.subs n).head := hinv.1.cons_at hpc
      have hfreed := (hinv.1.stable n (hinv.2.stable hn)).freed_le
      rw [hinv.1.entries.entry _ hfreed hpub, LogManager.incr_eq hlt] at hne
      exact absurd rfl hne
  | storeHead hpc => exact .inr ⟨_, by simp [consOutcome, hpc]; rfl⟩
  | @processNext m log k size clk hpc hlt' =>
      refine .inl ⟨by simp [consOutcome, hpc], ?_⟩
      simp only [LogManager.State.setCons, update_self, hpc, consRank]
      exact Prod.Lex.toLex_lt_toLex.mpr (.inr ⟨rfl, by omega⟩)
  | _ =>
      rename_i hpc
      refine .inl ⟨by simp [consOutcome, *, LogManager.State.setCons], ?_⟩
      simp [LogManager.State.setCons, *, consRank, Prod.Lex.toLex_lt_toLex]

/-- A consumer stays in range as long as its head does. -/
theorem noWrap_of_cons (hok : RingsOk cfg s) (hn : LogManager.Remote cfg.toLogConfig i n)
    (ha : ringAction cfg s a = some (i, .cons n)) (hlt : ((s.rings i).subs n).head + 1 < idxRange) :
    NoWrap cfg s a := by
  intro k b hb
  rw [ha] at hb
  cases hb
  have hinv := (hok.inv i n hn).1
  simp only [LogManager.NoWrap]
  split
  · rename_i hpc
    rwa [show _ = _ from hinv.cons_at hpc]
  · rename_i hpc
    obtain ⟨-, rfl, -⟩ := hinv.cons_at hpc
    exact hlt
  · trivial

/-- A step of a thread in the inner loop, when everything up to its target is published. -/
theorem loop_step {t start : ℕ} {h : Help} (hinv : Inv cfg s) (hpc : (s.threads t).pc = .help h)
    (hst : h.stage.start = some start) (hlt : start < s.read h.target h.i)
    (hpub : ∀ j, s.head (cfg.home t) h.i ≤ j → j < s.read h.target h.i →
      (s.rings h.i).published j = true) :
    h.stage = .inner start (s.read h.target h.i) ∧ s.head (cfg.home t) h.i = s.read h.target h.i ∨
      ∃ s' stage, NoWrap cfg s (.thread t) ∧ step cfg s (.thread t) = some s' ∧
        (s'.threads t).pc = .help { h with stage := stage } ∧ stage.start = some start ∧
        loopRank cfg s' t { h with stage := stage } < loopRank cfg s t h := by
  have hrem : LogManager.Remote cfg.toLogConfig h.i (cfg.home t) :=
    remote_of_help hinv.locks hpc (by rintro heq; rw [heq] at hst; cases hst)
      (by rintro heq; rw [heq] at hst; cases hst)
  have hok := hinv.acquires.help t h hpc
  cases hstage : h.stage with
  | inner start' clk =>
      obtain rfl : start' = start := by simpa [hstage, HelpStage.start] using hst
      have hlast := lastRel_of_carries hinv.locks hpc hinv.clocks (by rw [hstage]; rfl)
      by_cases hclk : clk < s.read h.target h.i
      · have hs : HelpStep cfg s t h _ := .enter hstage hclk
        have hread := read_of_ne_merge hs (by simp [hstage]) h.target h.i
        refine .inr ⟨_, .take start' clk, fun _ _ ha => ?_, ?_, ?_, rfl, loopRank_lt_of_stage hread rfl ?_⟩
        · simp [ringAction, hpc, hstage] at ha
        · simp [step, stepThread, hpc, stepHelp, hstage, hclk]
        · simp [State.setPc, State.setThread]
        · simp only [stageRank, hstage]
          exact Prod.Lex.toLex_lt_toLex.mpr (.inl (by decide))
      · -- the entries consumed end with the target
        have hle := (hok.inner start' clk hstage).2 hlt
        have := LogManager.lastRel_le (s.rings h.i) (s.head (cfg.home t) h.i)
        have hclk' : clk = s.read h.target h.i := by omega
        exact .inl ⟨by rw [hclk'], by omega⟩
  | take start' clk =>
      obtain rfl : start' = start := by simpa [hstage, HelpStage.start] using hst
      -- nobody is at work for the node, so `take_head` is enabled
      have hidle : (s.rings h.i).cons (cfg.home t) = .idle := by
        by_contra hne
        have hworks := (hinv.workers _ _ hrem).mp hne
        rw [State.works, mtx_of_help hinv.locks hpc (by rw [hstage]; rfl)] at hworks
        simp [hpc, ThreadPc.works, Help.works, hstage] at hworks
      have hr : RingStep cfg s h.i (.takeHead (cfg.home t))
          ((s.rings h.i).setCons (cfg.home t) (.loadIdx (s.head (cfg.home t) h.i))) :=
        if_pos ⟨hrem, hidle⟩
      have hs : HelpStep cfg s t h _ := .take hstage hr
      have hread := read_of_ne_merge hs (by simp [hstage]) h.target h.i
      refine .inr ⟨_, .consuming start' clk, fun i b ha => ?_, ?_, ?_, rfl,
        loopRank_lt_of_stage hread (head_setRing _ _ _ _) ?_⟩
      · simp only [ringAction, hpc, hstage] at ha
        cases ha
        trivial
      · simp only [step, stepThread, hpc, stepHelp, hstage, ringStep, hr, Option.map_some]
      · simp [State.setPc, State.setThread]
      · simp only [stageRank, hstage, State.setPc, State.setThread, State.setRing,
          LogManager.State.setCons, update_self, consRank]
        exact Prod.Lex.toLex_lt_toLex.mpr (.inl (by decide))
  | consuming start' clk =>
      obtain rfl : start' = start := by simpa [hstage, HelpStage.start] using hst
      have hworks : (s.rings h.i).cons (cfg.home t) ≠ .idle := by
        rw [hinv.workers _ _ hrem, State.works, mtx_of_help hinv.locks hpc (by rw [hstage]; rfl)]
        simp [hpc, ThreadPc.works, Help.works, hstage]
      have hclk := (hok.taking start' clk (.inr hstage)).2
      have hhead := head_lt_of_clk_lt hinv.locks hpc hinv.clocks hinv.releases (by rw [hstage]; rfl) hclk
      have htail := (hinv.releases.read hpc h.i).le_tail (hinv.rings.records h.i)
      have hrange := (hinv.rings.records h.i).tail_lt
      have ha : ringAction cfg s (.thread t) = some (h.i, .cons (cfg.home t)) := by
        simp [ringAction, hpc, hstage]
      have hrange' : ((s.rings h.i).subs (cfg.home t)).head + 1 < idxRange := by
        rw [← State.head]
        omega
      have hwrap := noWrap_of_cons hinv.rings hrem ha hrange'
      obtain ⟨r, hr⟩ : ∃ r, RingStep cfg s h.i (.cons (cfg.home t)) r := cons_enabled hworks
      rcases consRank_step (hinv.rings.inv h.i _ hrem) hrem hrange' (hpub _ le_rfl hhead) hr with
        ⟨hout, hrank⟩ | ⟨c, hout⟩
      · have hs : HelpStep cfg s t h _ := .cons hstage hr hout
        have hread := read_of_ne_merge hs (by simp [hstage]) h.target h.i
        refine .inr ⟨_, .consuming start' clk, hwrap, ?_, ?_, rfl,
          loopRank_lt_of_stage hread (head_of_not_consumed hinv.rings hwrap hrem ha hr (by simp [hout])) ?_⟩
        · simp only [step, stepThread, hpc, stepHelp, hstage, consStep, ringStep, hr, Option.map_some]
          simp [State.setRing, hout]
        · simp [State.setRing, State.emit, hpc, ← hstage]
        · simpa [stageRank, hstage, State.setRing, State.emit] using hrank
      · have hs : HelpStep cfg s t h _ := .consumed hstage hr hout
        have hread := read_of_ne_merge hs (by simp [hstage]) h.target h.i
        refine .inr ⟨_, .inner start' (c.getD clk), hwrap, ?_, ?_, rfl,
          loopRank_lt_of_head hread (head_of_consumed hinv.rings hwrap hrem ha hr hout).1 hhead⟩
        · simp only [step, stepThread, hpc, stepHelp, hstage, consStep, ringStep, hr, Option.map_some]
          simp [State.setRing, hout]
        · simp [State.setPc, State.setThread]
  | _ => rw [hstage] at hst; cases hst

/-- A thread in the inner loop reaches its target by its own steps, once everything up to it is
published. -/
theorem reaches_target {t start : ℕ} {h : Help} (hinv : Inv cfg s) (hpc : (s.threads t).pc = .help h)
    (hst : h.stage.start = some start) (hlt : start < s.read h.target h.i)
    (hpub : ∀ j, s.head (cfg.home t) h.i ≤ j → j < s.read h.target h.i →
      (s.rings h.i).published j = true) :
    ∃ k s', (machine cfg).exec (fun _ _ => true) s (List.replicate k (.thread t)) = some s' ∧
      (s'.threads t).pc = .help { h with stage := .inner start (s.read h.target h.i) } ∧
      s'.head (cfg.home t) h.i = s.read h.target h.i ∧ s'.read h.target h.i = s.read h.target h.i := by
  -- the rank of the state and the local variables decreases with every step
  induction hr : loopRank cfg s t h using WellFoundedLT.induction generalizing s h with
  | ind rank ih =>
  rcases loop_step hinv hpc hst hlt hpub with ⟨hstage, hhead⟩ | ⟨s', stage, hwrap, hstep, hpc', hst', hrank⟩
  · exact ⟨0, s, rfl, by rw [hpc, ← hstage], hhead, rfl⟩
  · have hs := step_cases hstep
    have hmerge : h.stage ≠ .merge := by
      rintro heq
      rw [heq] at hst
      cases hst
    have hrem := remote_of_help hinv.locks hpc (by rintro heq; rw [heq] at hst; cases hst) hmerge
    have hread : s'.read h.target h.i = s.read h.target h.i := by
      cases hs with
      | thread hs => exact absurd hpc (hs.not_help h)
      | help hpc'' hs =>
          obtain rfl := ThreadPc.help.inj (hpc.symm.trans hpc'')
          exact read_of_ne_merge hs hmerge _ _
    have hmono := Clocks.head_mono hinv.locks hinv.rings hwrap hs hrem
    have hext := (hinv.rings.step hwrap hs).2 h.i
    obtain ⟨k, s'', hexec, hdone, hhead, hread'⟩ := ih _ (hr ▸ hrank) (hinv.step hwrap hs) hpc' hst'
      (by rw [hread]; exact hlt)
      (fun j hj hj' => (hext j (hpub j (hmono.trans hj) (by rwa [hread] at hj'))).1) rfl
    refine ⟨k + 1, s'', ?_, ?_, ?_, ?_⟩
    · rw [List.replicate_succ, Machine.exec, if_pos rfl]
      exact Option.bind_eq_some_iff.mpr ⟨s', hstep, hexec⟩
    · rw [← hread]
      exact hdone
    · exact hhead.trans hread
    · exact hread'.trans hread

end Cluster

end RACoherence
