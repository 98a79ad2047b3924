import RACoherence.Cluster.Releases

/-!
# Threads that acquire

Every component of a thread's clock, other than that of its own node, is reached by the cache clock of
its node. `help_consume` makes sure of it before `merge`; a thread that acquires the clock of its parent has
it from the parent, whose clock obeys the same rule. While a thread works on a ring towards a release, that
release is ahead of the head.
-/

namespace RACoherence

open Function LocalCLTable

namespace Cluster

variable {cfg : Config} {s s' : State} {a : Action}

/-- What the local variables of `help_consume` in thread `t` say. -/
structure HelpOk (cfg : Config) (s : State) (t : ℕ) (h : Help) : Prop where
  parent : ∀ p, h.target = .parent p → cfg.home p = cfg.home t
  compare : ∀ clk, h.stage = .compare clk → clk ≤ s.clock (cfg.home t) h.i
  reached : ∀ c i, h.target = .copy c → h.nodeDone i = true → c i ≤ s.clock (cfg.home t) i
  passed : h.done = true → ∀ i < cfg.nodeCount, i ≠ cfg.home t →
    (h.i < i ∨ h.i = i ∧ (h.stage = .loop ∨ h.stage = .unlock) ∨ h.stage = .merge) →
    h.nodeDone i = true
  merging : h.stage = .merge → h.done = true
  inner : ∀ start clk, h.stage = .inner start clk → start = s.clock (cfg.home t) h.i ∧
    (start < s.read h.target h.i → s.head (cfg.home t) h.i ≤ s.read h.target h.i)
  taking : ∀ start clk, h.stage = .take start clk ∨ h.stage = .consuming start clk →
    start = s.clock (cfg.home t) h.i ∧ clk < s.read h.target h.i

/-- What threads have acquired, and what they are acquiring. -/
structure Acquires (cfg : Config) (s : State) : Prop where
  bound : ∀ t i, i ≠ cfg.home t → (s.threads t).clock i ≤ s.clock (cfg.home t) i
  help : ∀ t h, (s.threads t).pc = .help h → HelpOk cfg s t h

/-- A thread that is about to begin with `help_consume`. -/
theorem HelpOk.start {t : ℕ} {h : Help} (hparent : ∀ p, h.target = .parent p → cfg.home p = cfg.home t)
    (hstage : h.stage = .loop) (hdone : h.done = false) (hnode : ∀ i, h.nodeDone i = false) :
    HelpOk cfg s t h := by
  refine ⟨hparent, ?_, ?_, ?_, ?_, ?_, ?_⟩ <;> simp [hstage, hdone, hnode]

/-- Another party's step leaves a thread in `help_consume` there, or it is the call. -/
theorem help_of_ne {t : ℕ} {h : Help} (hs : Step cfg s a s') (hne : a ≠ .thread t)
    (hpc : (s'.threads t).pc = .help h) :
    (s.threads t).pc = .help h ∨ (∀ p, h.target = .parent p → cfg.home p = cfg.home t) ∧
      h.stage = .loop ∧ h.done = false ∧ ∀ i, h.nodeDone i = false := by
  rcases call_of_ne hs hne with heq | ⟨-, hcall⟩
  · exact .inl (heq ▸ hpc)
  · refine .inr ?_
    generalize s'.threads t = th at hcall hpc
    cases hcall with
    | acquire => cases hpc; simp
    | create hhome => cases hpc; simp [hhome]
    | _ => cases hpc

/-- Whoever consumes for a node holds its mutex. -/
theorem holder_of_cons {n i : ℕ} (hl : Locks cfg s) (ha : ringAction cfg s a = some (i, .cons n)) :
    (∃ u, a = .thread u ∧ s.headMtx n = some (.thread u)) ∨ a = .agent n ∧ s.headMtx n = some .agent := by
  cases a with
  | thread u =>
      refine .inl ⟨u, rfl, ?_⟩
      simp only [ringAction] at ha
      split at ha
      · split at ha <;> cases ha
      · cases ha
      · cases ha
      · cases ha
      · rename_i h hpc
        split at ha <;> cases ha
        rename_i hst
        exact (hl.thread u _).mp ⟨by simp [hpc, ThreadPc.holds, hst, HelpStage.holds], rfl⟩
      · cases ha
  | agent m =>
      simp only [ringAction] at ha
      split at ha
      · split at ha <;> cases ha
      · rename_i hpc
        cases ha
        exact .inr ⟨rfl, (hl.agent _).mp (by rw [hpc]; rfl)⟩
      · cases ha
  | _ => cases ha

/-- While a thread holds the mutex of its node, nobody else moves the node's clock or heads. -/
theorem frame_of_holder {t n : ℕ} (hl : Locks cfg s) (hok : RingsOk cfg s) (hs : Step cfg s a s')
    (hmtx : s.headMtx n = some (.thread t)) (hne : a ≠ .thread t) :
    s'.clock n = s.clock n ∧
      ∀ i, LogManager.Remote cfg.toLogConfig i n → s'.head n i = s.head n i := by
  constructor
  · cases hs with
    | thread hs => cases hs <;> rfl
    | @help u hp s' hpc hs =>
        cases hs with
        | leave hst _ =>
            have hu : n ≠ cfg.home u := by
              rintro rfl
              have := (hl.thread u _).mp ⟨by simp [hpc, ThreadPc.holds, hst, HelpStage.holds], rfl⟩
              rw [hmtx] at this
              cases this
              exact hne rfl
            simp [State.setPc, State.setThread, State.setClock, hu]
        | _ => rfl
    | @agent m s' hm hs =>
        cases hs with
        | update hpc _ =>
            have hu : n ≠ m := by
              rintro rfl
              have := (hl.agent n).mp (by rw [hpc]; rfl)
              rw [hmtx] at this
              cases this
            simp [State.setAgent, State.setClock, hu]
        | _ => rfl
    | _ => rfl
  · intro i hn
    refine head_step hok hs hn fun ha => ?_
    rcases holder_of_cons hl ha with ⟨u, rfl, hu⟩ | ⟨-, hu⟩ <;> rw [hmtx] at hu <;> cases hu
    exact hne rfl

section Holder

variable {t : ℕ} {h : Help} (hl : Locks cfg s) (hpc : (s.threads t).pc = .help h)

include hl hpc

/-- The ring that a thread works on is that of another node. -/
theorem remote_of_help (hloop : h.stage ≠ .loop) (hmerge : h.stage ≠ .merge) :
    LogManager.Remote cfg.toLogConfig h.i (cfg.home t) :=
  ⟨cfg.home_lt t, Ne.symm ((hl.helpNode t h hpc).2 hloop hmerge).2⟩

/-- A thread that holds its mutex. -/
theorem mtx_of_help (hholds : h.stage.holds = true) : s.headMtx (cfg.home t) = some (.thread t) :=
  (hl.thread t _).mp ⟨by rw [hpc]; exact hholds, rfl⟩

/-- What a thread carries is what its node has consumed. -/
theorem lastRel_of_carries (hc : Clocks cfg s) {clk : ℕ} (hcar : h.stage.carries = some clk) :
    LogManager.lastRel (s.rings h.i) (s.head (cfg.home t) h.i) = clk := by
  have hholds : h.stage.holds = true := by
    cases hst : h.stage <;> simp [hst, HelpStage.carries, HelpStage.holds] at hcar ⊢
  have hrem : LogManager.Remote cfg.toLogConfig h.i (cfg.home t) := by
    refine remote_of_help hl hpc ?_ ?_ <;> intro hst <;> simp [hst, HelpStage.carries] at hcar
  rw [← hc.current _ _ hrem]
  simp [State.current, State.carried, mtx_of_help hl hpc hholds, hpc, ThreadPc.carries, hcar]

/-- As long as the clock is below the target, the target is not consumed. -/
theorem head_lt_of_clk_lt (hc : Clocks cfg s) (hrel : Releases cfg s) {clk : ℕ}
    (hcar : h.stage.carries = some clk) (hlt : clk < s.read h.target h.i) :
    s.head (cfg.home t) h.i < s.read h.target h.i := by
  obtain ⟨j, hj, -, hisRel⟩ := hrel.read hpc h.i (by omega)
  by_contra hge
  have hle := LogManager.le_lastRel (s := s.rings h.i) (h := s.head (cfg.home t) h.i) (j := j)
    (by omega) hisRel
  rw [lastRel_of_carries hl hpc hc hcar] at hle
  omega

end Holder

/-- The clock of a parent is reached. -/
theorem Acquires.read_parent (hacq : Acquires cfg s) {t p i : ℕ} {h : Help} (hok : HelpOk cfg s t h)
    (hp : h.target = .parent p) (hi : i ≠ cfg.home t) : s.read h.target i ≤ s.clock (cfg.home t) i := by
  have hhome := hok.parent p hp
  have hb := hacq.bound p i (by rwa [hhome])
  rw [hhome] at hb
  rwa [hp]

/-- What a thread has before `merge` is reached. -/
theorem Acquires.read_reached (hacq : Acquires cfg s) {t i : ℕ} {h : Help} (hok : HelpOk cfg s t h)
    (hdone : h.nodeDone i = true) (hi : i ≠ cfg.home t) :
    s.read h.target i ≤ s.clock (cfg.home t) i := by
  cases htarget : h.target with
  | copy c => exact hok.reached c i htarget hdone
  | parent p => exact htarget ▸ hacq.read_parent hok htarget hi

theorem Acquires.bound_step (hacq : Acquires cfg s) (hl : Locks cfg s) (hc : Clocks cfg s)
    (hs : Step cfg s a s') (t i : ℕ) (hi : i ≠ cfg.home t) :
    (s'.threads t).clock i ≤ s'.clock (cfg.home t) i := by
  refine le_trans ?_ (hc.clock_mono hl hs _ _)
  have hold := hacq.bound t i hi
  cases clockEffect hs t with
  | same heq => rwa [heq]
  | release hpc heq => rwa [heq, VectorClock.assign, update_of_ne hi]
  | @merge h hpc hst hlt heq =>
      rw [heq, VectorClock.assign, update_apply]
      split
      · rename_i hih
        subst hih
        have hok := hacq.help t h hpc
        have hdone := hok.passed (hok.merging hst) h.i hlt hi (.inr (.inr hst))
        exact max_le hold (hacq.read_reached hok hdone hi)
      · exact hold

/-- Another party's step keeps what the local variables say. -/
theorem HelpOk.frame {t : ℕ} {h : Help} (hok : HelpOk cfg s t h) (hacq : Acquires cfg s) (hl : Locks cfg s)
    (hr : RingsOk cfg s) (hc : Clocks cfg s) (hs : Step cfg s a s')
    (hb' : ∀ t i, i ≠ cfg.home t → (s'.threads t).clock i ≤ s'.clock (cfg.home t) i)
    (hpc : (s.threads t).pc = .help h) (hne : a ≠ .thread t) : HelpOk cfg s' t h := by
  have hmono := hc.clock_mono hl hs (cfg.home t)
  refine ⟨hok.parent, fun clk hst => (hok.compare clk hst).trans (hmono _),
    fun c i htarget hdone => (hok.reached c i htarget hdone).trans (hmono _), hok.passed, hok.merging,
    fun start clk hst => ?_, fun start clk hst => ?_⟩
  · have hmtx := mtx_of_help hl hpc (by simp [hst, HelpStage.holds])
    have hrem := remote_of_help hl hpc (by simp [hst]) (by simp [hst])
    obtain ⟨hclk, hhead⟩ := frame_of_holder hl hr hs hmtx hne
    obtain ⟨hstart, hle⟩ := hok.inner start clk hst
    rw [hclk, hhead _ hrem]
    refine ⟨hstart, ?_⟩
    cases htarget : h.target with
    | copy c => simpa only [State.read, htarget] using hle
    | parent p =>
        intro hlt
        have hhome := hok.parent p htarget
        have := hb' p h.i (by rw [hhome]; exact Ne.symm hrem.2)
        rw [hhome, hclk] at this
        simp only [State.read] at hlt
        omega
  · have hholds : h.stage.holds = true := by rcases hst with hst | hst <;> rw [hst] <;> rfl
    have hmtx := mtx_of_help hl hpc hholds
    have hrem : LogManager.Remote cfg.toLogConfig h.i (cfg.home t) :=
      remote_of_help hl hpc (by rcases hst with hst | hst <;> simp [hst])
        (by rcases hst with hst | hst <;> simp [hst])
    obtain ⟨hclk, -⟩ := frame_of_holder hl hr hs hmtx hne
    obtain ⟨hstart, hlt⟩ := hok.taking start clk hst
    rw [hclk]
    refine ⟨hstart, ?_⟩
    cases htarget : h.target with
    | copy c => simpa only [State.read, htarget] using hlt
    | parent p =>
        -- such a thread does not get here: its target is reached
        have hread := hacq.read_parent hok htarget (Ne.symm hrem.2)
        have hle := hc.clock_le _ _ hrem
        have hcar : h.stage.carries = some clk := by rcases hst with hst | hst <;> rw [hst] <;> rfl
        rw [lastRel_of_carries hl hpc hc hcar] at hle
        omega

/-- A thread that has just got the mutex has not consumed a target that is ahead of the clock. -/
theorem head_le_of_clock_lt {t : ℕ} {h : Help} (hl : Locks cfg s) (hc : Clocks cfg s) (hrel : Releases cfg s)
    (hpc : (s.threads t).pc = .help h) (hst : h.stage = .readClk)
    (hlt : s.clock (cfg.home t) h.i < s.read h.target h.i) :
    s.head (cfg.home t) h.i ≤ s.read h.target h.i := by
  have hrem := remote_of_help hl hpc (by simp [hst]) (by simp [hst])
  have hmtx := mtx_of_help hl hpc (by rw [hst]; rfl)
  have hcur : s.current (cfg.home t) h.i = s.clock (cfg.home t) h.i := by
    simp [State.current, State.carried, hmtx, hpc, ThreadPc.carries, hst, HelpStage.carries]
  obtain ⟨j, hj, -, hisRel⟩ := hrel.read hpc h.i (by omega)
  by_contra hgt
  have hle := LogManager.le_lastRel (s := s.rings h.i) (h := s.head (cfg.home t) h.i) (j := j)
    (by omega) hisRel
  rw [← hc.current _ _ hrem, hcur] at hle
  omega

/-- Until `merge`, a step of `help_consume` leaves all clocks of threads alone. -/
theorem read_of_ne_merge {t : ℕ} {h : Help} (hs : HelpStep cfg s t h s')
    (hne : h.stage ≠ .merge) (target : Target) (i : ℕ) : s'.read target i = s.read target i := by
  cases target with
  | copy c => rfl
  | parent p =>
      show (s'.threads p).clock i = (s.threads p).clock i
      cases hs with
      | merge hst hi => exact absurd hst hne
      | _ =>
          simp only [State.setPc, State.setThread, State.setRing, State.setMtx, State.setClock, State.emit,
            update_apply] <;>
            grind

theorem State.pc_setPc (s : State) (t : ℕ) (pc : ThreadPc) : ((s.setPc t pc).threads t).pc = pc := by
  simp [State.setPc, State.setThread]

/-- A step to another stage, with all other local variables as they are. -/
theorem HelpOk.move {t : ℕ} {h : Help} {stage : HelpStage} (hok : HelpOk cfg s t h)
    (hclock : s'.clock = s.clock)
    (hpast : stage = .loop ∨ stage = .unlock → h.stage = .loop ∨ h.stage = .unlock)
    (hmerge : stage ≠ .merge)
    (hcompare : ∀ clk, stage = .compare clk → clk ≤ s.clock (cfg.home t) h.i)
    (hinner : ∀ start clk, stage ≠ .inner start clk)
    (htaking : ∀ start clk, stage = .take start clk ∨ stage = .consuming start clk →
      start = s.clock (cfg.home t) h.i ∧ clk < s'.read h.target h.i) :
    HelpOk cfg s' t { h with stage := stage } := by
  refine ⟨hok.parent, ?_, ?_, fun hdone i hi hne hlt => ?_, fun hst => absurd hst hmerge,
    fun start clk hst => absurd hst (hinner start clk), ?_⟩
  · rw [hclock]
    exact hcompare
  · rw [hclock]
    exact hok.reached
  · refine hok.passed hdone i hi hne ?_
    rcases hlt with hlt | ⟨hi, hst⟩ | hst
    · exact .inl hlt
    · exact .inr (.inl ⟨hi, hpast hst⟩)
    · exact absurd hst hmerge
  · rw [hclock]
    exact htaking

theorem HelpOk.step {t : ℕ} {h h' : Help} (hok : HelpOk cfg s t h) (hl : Locks cfg s)
    (hr : RingsOk cfg s) (hc : Clocks cfg s) (hrel : Releases cfg s) (hwrap : NoWrap cfg s (.thread t))
    (hpc : (s.threads t).pc = .help h) (hs : HelpStep cfg s t h s')
    (hpc' : (s'.threads t).pc = .help h') : HelpOk cfg s' t h' := by
  have ⟨hparent, hcompare, hreached, hpassed, hmerging, hinner, htaking⟩ := hok
  have hread : h.stage ≠ .merge → s'.read h.target h.i = s.read h.target h.i := fun hne =>
    read_of_ne_merge hs hne _ _
  cases hs with
  | @consumed start clk c r hst hr' hout =>
      have hrem := remote_of_help hl hpc (by simp [hst]) (by simp [hst])
      have ha : ringAction cfg s (.thread t) = some (h.i, .cons (cfg.home t)) := by
        simp [ringAction, hpc, hst]
      obtain ⟨hstart, hlt⟩ := htaking start clk (.inr hst)
      have hhead := (head_of_consumed hr hwrap hrem ha hr' hout).1
      have hhead_lt := head_lt_of_clk_lt hl hpc hc hrel (by rw [hst]; rfl) hlt
      have hread' := hread (by simp [hst])
      simp only [State.setPc, State.setThread, State.setRing, State.emit, update_self,
        ThreadPc.help.injEq] at hpc' hread' hhead ⊢
      subst hpc'
      refine ⟨hparent, by simp, hreached, ?_, by simp, ?_, by simp⟩
      · intro hdone i hi hne hlt
        exact hpassed hdone i hi hne (by simpa using Or.inl hlt)
      · intro start' clk' hst'
        obtain ⟨rfl, -⟩ := HelpStage.inner.inj hst'
        refine ⟨hstart, fun _ => ?_⟩
        simp only [hread']
        exact hhead.trans_le hhead_lt
  | @leave start clk hst hle =>
      simp only [State.setPc, State.setThread, State.setClock, update_self, ThreadPc.help.injEq] at hpc' ⊢
      subst hpc'
      refine ⟨hparent, by simp, ?_, ?_, by simp, by simp, by simp⟩
      · intro c i htarget hdone
        change h.target = .copy c at htarget
        rw [htarget] at hle
        by_cases hi : i = h.i
        · subst hi
          simp only [update_self]
          exact hle
        · simp only [update_self, update_of_ne hi]
          exact hreached c i htarget (by simpa [hi] using hdone)
      · simp only [update_apply]
        grind
  | @reached clk hst hle =>
      simp only [State.setPc, State.setThread, update_self, ThreadPc.help.injEq] at hpc' ⊢
      subst hpc'
      refine ⟨hparent, by simp, ?_, ?_, by simp, by simp, by simp⟩
      · intro c i htarget hdone
        change h.target = .copy c at htarget
        rw [htarget] at hle
        by_cases hi : i = h.i
        · subst hi
          exact hle.trans (hcompare clk hst)
        · exact hreached c i htarget (by simpa [hi] using hdone)
      · simp only [update_apply]
        grind
  | merge hst hi =>
      simp only [State.setThread, update_self, ThreadPc.help.injEq] at hpc' ⊢
      subst hpc'
      exact ⟨hparent, by simp [hst], hreached, fun hdone i hi hne _ => hpassed hdone i hi hne (.inr (.inr hst)),
        hmerging, by simp [hst], by simp [hst]⟩
  | return_ hst hi => simp [State.setPc, State.setThread] at hpc'
  | unsubscribed hst hsub =>
      have hrem := remote_of_help hl hpc (by simp [hst]) (by simp [hst])
      rw [(hr.inv h.i _ hrem).2.subbed (cfg.home t)] at hsub
      cases hsub
  | @readClk clk hst hclk =>
      have hle := head_le_of_clock_lt hl hc hrel hpc hst
      have hread' := hread (by simp [hst])
      simp only [State.setPc, State.setThread, update_self, ThreadPc.help.injEq] at hpc' hread' ⊢
      subst hpc'
      refine ⟨hparent, by simp, hreached, by grind, by simp, ?_, by simp⟩
      intro start' clk' hst'
      obtain ⟨rfl, -⟩ := HelpStage.inner.inj hst'
      refine ⟨hclk, fun hlt => ?_⟩
      simp only [hread'] at hlt ⊢
      exact hle (hclk ▸ hlt)
  | @cons start clk r hst hr' hout =>
      have hread' := hread (by simp [hst])
      have heq : h = h' := ThreadPc.help.inj (hpc.symm.trans hpc')
      subst heq
      refine ⟨hparent, hcompare, hreached, hpassed, hmerging, by simp [hst], fun start' clk' hst' => ?_⟩
      rw [hread']
      exact htaking start' clk' hst'
  | reachedAll hst hi hd =>
      rw [State.pc_setPc] at hpc'
      cases hpc'
      refine ⟨hparent, by simp, hreached, fun hdone i hlt hne _ => hpassed hdone i hlt hne ?_, fun _ => hd,
        by simp, by simp⟩
      rw [hi]
      rcases i.eq_zero_or_pos with hzero | hpos
      · exact .inr (.inl ⟨hzero.symm, .inl hst⟩)
      · exact .inl hpos
  | pass hst hi hd =>
      rw [State.pc_setPc] at hpc'
      cases hpc'
      refine ⟨hparent, by simp [hst], hreached, fun _ i hlt hne hpast => ?_, by simp [hst], by simp [hst],
        by simp [hst]⟩
      -- the loop over nodes begins again, before all of them
      simp only [hst, reduceCtorEq, or_false] at hpast
      omega
  | @skip j hst hi hskip =>
      rw [State.pc_setPc] at hpc'
      cases hpc'
      refine ⟨hparent, by simp [hst], hreached, fun hdone i hlt hne hpast => ?_, by simp [hst], by simp [hst],
        by simp [hst]⟩
      by_cases hij : i = j
      · subst hij
        exact hskip.resolve_right hne
      · refine hpassed hdone i hlt hne ?_
        simp only [hst, reduceCtorEq, or_false] at hpast
        rw [hi]
        rcases (show j + 1 < i ∨ j + 1 = i by omega) with h₁ | h₁
        · exact .inl h₁
        · exact .inr (.inl ⟨h₁, .inl hst⟩)
  | @next j hst hi hnd hne =>
      rw [State.pc_setPc] at hpc'
      cases hpc'
      refine ⟨hparent, by simp, hreached, fun hdone i hlt hne hpast => hpassed hdone i hlt hne ?_, by simp,
        by simp, by simp⟩
      simp only [reduceCtorEq, or_false, and_false] at hpast
      rw [hi]
      rcases (show j + 1 < i ∨ j + 1 = i by omega) with h₁ | h₁
      · exact .inl h₁
      · exact .inr (.inl ⟨h₁, .inl hst⟩)
  | busy hst hmtx =>
      rw [State.pc_setPc] at hpc'
      cases hpc'
      exact ⟨hparent, by simp, hreached, by simp, by simp, by simp, by simp⟩
  | check hst hclk =>
      rw [State.pc_setPc] at hpc'
      cases hpc'
      refine hok.move rfl (by simp) (by simp) ?_ (by simp) (by simp)
      rintro _ ⟨⟩
      exact hclk.le
  | enter hst hlt =>
      have hstart := (hinner _ _ hst).1
      have hread' := hread (by simp [hst])
      rw [State.pc_setPc] at hpc'
      cases hpc'
      refine hok.move rfl (by simp) (by simp) (by simp) (by simp) ?_
      rintro _ _ (⟨⟨⟩⟩ | ⟨⟨⟩⟩)
      exact ⟨hstart, hread'.symm ▸ hlt⟩
  | take hst _ =>
      have htake := htaking _ _ (.inl hst)
      have hread' := hread (by simp [hst])
      rw [State.pc_setPc] at hpc'
      cases hpc'
      refine hok.move rfl (by simp) (by simp) (by simp) (by simp) ?_
      rintro _ _ (⟨⟨⟩⟩ | ⟨⟨⟩⟩)
      exact ⟨htake.1, hread'.symm ▸ htake.2⟩
  | null hst _ _ =>
      have htake := htaking _ _ (.inr hst)
      have hread' := hread (by simp [hst])
      rw [State.pc_setPc] at hpc'
      cases hpc'
      refine hok.move rfl (by simp) (by simp) (by simp) (by simp) ?_
      rintro _ _ (⟨⟨⟩⟩ | ⟨⟨⟩⟩)
      exact ⟨htake.1, hread'.symm ▸ htake.2⟩
  | unlock hst =>
      rw [State.pc_setPc] at hpc'
      cases hpc'
      exact hok.move rfl (fun _ => .inr hst) (by simp) (by simp) (by simp) (by simp)
  | _ hst =>
      rw [State.pc_setPc] at hpc'
      cases hpc'
      exact hok.move rfl (by simp) (by simp) (by simp) (by simp) (by simp)

theorem Acquires.step (hacq : Acquires cfg s) (hl : Locks cfg s) (hr : RingsOk cfg s) (hc : Clocks cfg s)
    (hrel : Releases cfg s) (hwrap : NoWrap cfg s a) (hs : Step cfg s a s') : Acquires cfg s' := by
  have hbound := hacq.bound_step hl hc hs
  refine ⟨hbound, fun t h hpc => ?_⟩
  by_cases ha : a = .thread t
  · subst ha
    cases hs with
    | thread hs =>
        cases hs <;> simp_all [State.setPc, State.setThread, State.setRing, State.emit]
    | help hpc' hs => exact (hacq.help t _ hpc').step hl hr hc hrel hwrap hpc' hs hpc
  · rcases help_of_ne hs ha hpc with hold | ⟨hparent, hst, hdone, hnode⟩
    · exact (hacq.help t h hold).frame hacq hl hr hc hs hbound hold ha
    · exact .start hparent hst hdone hnode

theorem Acquires.initial : Acquires cfg (initial cfg) where
  bound _ _ _ := le_rfl
  help _ _ h := by cases h

end Cluster

end RACoherence
