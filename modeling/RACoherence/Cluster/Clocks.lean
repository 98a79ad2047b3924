import RACoherence.Cluster.Locks

/-!
# Cache clocks and consumed entries

`current` is the clock that the holder of a log-head mutex will store: what it carries in a local variable,
or else the cache clock. It is always the last release among the entries that the node has consumed, so
`update_clock` never lowers the cache clock.
-/

namespace RACoherence

open Function LocalCLTable

namespace Cluster

/-- The clock value that an agent carries for ring `i`; it does not store zero. -/
def AgentPc.carries (i : ℕ) : AgentPc → Option ℕ
  | .batch k _ clk | .consuming k _ clk | .update k clk => if k = i ∧ clk ≠ 0 then some clk else none
  | .loop _ | .tryLock _ | .unlock _ => none

def HelpStage.carries : HelpStage → Option ℕ
  | .inner _ clk | .take _ clk | .consuming _ clk => some clk
  | .loop | .check | .compare _ | .isSubscribed | .tryLock | .readClk | .unlock | .merge => none

/-- The clock value that a thread carries for ring `i`. -/
def ThreadPc.carries (i : ℕ) : ThreadPc → Option ℕ
  | .help h => if h.i = i then h.stage.carries else none
  | .idle | .store _ | .getLog _ | .fill _ _ | .produce _ | .finish _ _ => none

/-- The clock value that the holder of the mutex of node `n` carries for ring `i`. -/
def State.carried (s : State) (n i : ℕ) : Option ℕ :=
  match s.headMtx n with
  | some .agent => (s.agents n).carries i
  | some (.thread t) => (s.threads t).pc.carries i
  | none => none

/-- The clock of node `n` for ring `i`, with what is not stored yet. -/
def State.current (s : State) (n i : ℕ) : ℕ := (s.carried n i).getD (s.clock n i)

variable {cfg : Config} {s s' : State} {a : Action} {n i : ℕ}

theorem current_congr (hmtx : s'.headMtx n = s.headMtx n) (hclk : s'.clock n i = s.clock n i)
    (hagent : s.headMtx n = some .agent → (s'.agents n).carries i = (s.agents n).carries i)
    (hthread : ∀ u, s.headMtx n = some (.thread u) →
      (s'.threads u).pc.carries i = (s.threads u).pc.carries i) :
    s'.current n i = s.current n i := by
  unfold State.current State.carried
  rw [hmtx, hclk]
  cases hm : s.headMtx n with
  | none => rfl
  | some p =>
      cases p with
      | agent => simp only [hagent hm]
      | thread u => simp only [hthread u hm]

/-- Only a consuming step of its node moves a head. -/
theorem head_step (hok : RingsOk cfg s) (hs : Step cfg s a s')
    (hn : LogManager.Remote cfg.toLogConfig i n) (hne : ringAction cfg s a ≠ some (i, .cons n)) :
    s'.head n i = s.head n i := by
  unfold State.head
  cases ringEffect hs with
  | none _ heq => rw [heq]
  | @step k b r ha hr hno heq =>
      rw [heq, update_apply]
      split
      · rename_i hk
        subst hk
        by_cases hc : LogManager.Consumes n b
        · cases b with
          | takeHead m =>
              obtain rfl : m = n := hc
              rw [(LogManager.takeHead_spec (LogManager.step_cases hr)).1]
          | cons m =>
              obtain rfl : m = n := hc
              exact absurd ha hne
          | _ => exact absurd hc id
        · rw [(LogManager.head_of_not_consumes (hok.inv _ n hn).2 hno (LogManager.step_cases hr) hc).1]
      · rfl

/-- What a step does to the consumption of ring `i` by node `n`: nothing that counts, or one entry. -/
inductive Consumption (s s' : State) (n i : ℕ) : Prop
  | same : s'.head n i = s.head n i → s'.current n i = s.current n i → Consumption s s' n i
  | consumed : s'.head n i = s.head n i + 1 → (s.rings i).published (s.head n i) = true →
      s'.current n i = (((s.rings i).hist (s.head n i)).clk (s.head n i)).getD (s.current n i) →
      Consumption s s' n i

/-- A thread outside `help_consume` does not consume. -/
theorem not_consumes_of_thread {t : ℕ} {b : LogManager.Action} (hpc : ∀ h, (s.threads t).pc ≠ .help h)
    (ha : ringAction cfg s (.thread t) = some (i, b)) : ¬ LogManager.Consumes n b := by
  simp only [ringAction] at ha
  split at ha
  · split at ha <;> cases ha <;> exact id
  · cases ha
    exact id
  · cases ha
    exact id
  · cases ha
    exact id
  · rename_i h hhelp
    exact absurd hhelp (hpc h)
  · cases ha

theorem ThreadStep.not_help {t : ℕ} (hs : ThreadStep cfg s t s') (h : Help) :
    (s.threads t).pc ≠ .help h := by
  cases hs with
  | _ hpc => simp [hpc]

/-- A thread outside `help_consume` holds no mutex. -/
theorem ThreadStep.ne_holder {t u : ℕ} (hl : Locks cfg s) (hs : ThreadStep cfg s t s')
    (hu : s.headMtx n = some (.thread u)) : u ≠ t := by
  rintro rfl
  have hholds := ((hl.thread u n).mpr hu).1
  cases hpc : (s.threads u).pc with
  | help h => exact hs.not_help h hpc
  | _ =>
      rw [hpc] at hholds
      cases hholds

theorem consumption_thread {t : ℕ} (hl : Locks cfg s) (hok : RingsOk cfg s)
    (hs : ThreadStep cfg s t s') (hn : LogManager.Remote cfg.toLogConfig i n) :
    Consumption s s' n i := by
  refine .same (head_step hok (.thread hs) hn ?_) (current_congr ?_ ?_ ?_ ?_)
  · exact fun ha => not_consumes_of_thread hs.not_help ha rfl
  · cases hs <;> rfl
  · cases hs <;> rfl
  · intro
    cases hs <;> rfl
  · intro u hu
    have hne := hs.ne_holder hl hu
    cases hs <;> simp [State.setPc, State.setThread, State.setRing, State.emit, update_of_ne hne]

theorem head_setRing (s : State) (k : ℕ) (r : LogManager.State) (n : ℕ) :
    (s.setRing k r).head n k = (r.subs n).head := by
  simp [State.head, State.setRing]

section Consuming

variable {k : ℕ} {r : LogManager.State} (hok : RingsOk cfg s) (hwrap : NoWrap cfg s a)
  (hn : LogManager.Remote cfg.toLogConfig k n) (ha : ringAction cfg s a = some (k, .cons n))
  (hr : RingStep cfg s k (.cons n) r)

include hok hwrap hn ha hr

/-- A step of a consumer that does not end with an entry leaves the head. -/
theorem head_of_not_consumed (hout : ∀ c, consOutcome n (s.rings k) r ≠ some (.consumed c)) :
    (s.setRing k r).head n k = s.head n k := by
  have hspec := consOutcome_spec (hok.inv k n hn) hn (hwrap k _ ha) hr
  rw [head_setRing]
  cases ho : consOutcome n (s.rings k) r with
  | none => rwa [ho] at hspec
  | some o =>
      cases o with
      | null => rwa [ho] at hspec
      | consumed c => exact absurd ho (hout c)

/-- A step that ends with an entry moves the head past it. -/
theorem head_of_consumed {c : Option ℕ} (hout : consOutcome n (s.rings k) r = some (.consumed c)) :
    (s.setRing k r).head n k = s.head n k + 1 ∧ (s.rings k).published (s.head n k) = true ∧
      c = ((s.rings k).hist (s.head n k)).clk (s.head n k) := by
  have hspec := consOutcome_spec (hok.inv k n hn) hn (hwrap k _ ha) hr
  rw [hout] at hspec
  rw [head_setRing]
  exact hspec

end Consuming

theorem clk_ne_zero {r : LogManager.Record} {j c : ℕ} (h : r.clk j = some c) : c ≠ 0 := by
  unfold LogManager.Record.clk at h
  split at h <;> cases h
  exact Nat.succ_ne_zero j

theorem consumption_agent {m : ℕ} (hl : Locks cfg s) (hok : RingsOk cfg s) (hwrap : NoWrap cfg s (.agent m))
    (hm : m < cfg.nodeCount) (hs : AgentStep cfg s m s')
    (hn : LogManager.Remote cfg.toLogConfig i n) : Consumption s s' n i := by
  have hhead := head_step hok (.agent hm hs) hn
  by_cases hnm : n = m
  · subst hnm
    have hmtx := hl.agent n
    have hnode := hl.agentNode n
    cases hs with
    | @consumed k j clk c r hpc hr hout =>
        have hk : LogManager.Remote cfg.toLogConfig k n := (hnode k (by rw [hpc]; rfl)).2
        have ha : ringAction cfg s (.agent n) = some (k, .cons n) := by simp [ringAction, hpc]
        have hholds : s.headMtx n = some .agent := hmtx.mp (by rw [hpc]; rfl)
        by_cases hki : k = i
        · subst hki
          obtain ⟨hhd, hpub, hclk⟩ := head_of_consumed hok hwrap hk ha hr hout
          refine .consumed hhd hpub ?_
          rw [← hclk]
          simp only [State.current, State.carried, hholds, State.setAgent, State.setRing, State.emit,
            update_self, hpc, AgentPc.carries]
          cases c with
          | none => simp
          | some v =>
              have hv : v ≠ 0 := clk_ne_zero hclk.symm
              simp [hv]
        · refine .same (hhead (by simp [ha, hki])) (current_congr rfl rfl (fun _ => ?_) fun _ _ => rfl)
          simp [State.setAgent, State.setRing, State.emit, hpc, AgentPc.carries, hki]
    | @cons k j clk r hpc hr hout =>
        have hk : LogManager.Remote cfg.toLogConfig k n := (hnode k (by rw [hpc]; rfl)).2
        have ha : ringAction cfg s (.agent n) = some (k, .cons n) := by simp [ringAction, hpc]
        refine .same ?_ (current_congr rfl rfl (fun _ => rfl) fun _ _ => rfl)
        by_cases hki : k = i
        · subst hki
          exact head_of_not_consumed hok hwrap hk ha hr (by simp [hout])
        · exact hhead (by simp [ha, hki])
    | @null k j clk r hpc hr hout =>
        have hk : LogManager.Remote cfg.toLogConfig k n := (hnode k (by rw [hpc]; rfl)).2
        have ha : ringAction cfg s (.agent n) = some (k, .cons n) := by simp [ringAction, hpc]
        refine .same ?_ (current_congr rfl rfl (fun _ => ?_) fun _ _ => rfl)
        · by_cases hki : k = i
          · subst hki
            exact head_of_not_consumed hok hwrap hk ha hr (by simp [hout])
          · exact hhead (by simp [ha, hki])
        · simp [State.setAgent, State.setRing, State.emit, hpc, AgentPc.carries]
    | lock hpc hfree =>
        refine .same (hhead (by simp [ringAction, *])) ?_
        simp [State.current, State.carried, hfree, State.setAgent, State.setMtx, AgentPc.carries]
    | unlock hpc =>
        have hholds : s.headMtx n = some .agent := hmtx.mp (by rw [hpc]; rfl)
        refine .same (hhead (by simp [ringAction, *])) ?_
        simp [State.current, State.carried, hholds, State.setAgent, State.setMtx, hpc, AgentPc.carries]
    | @update k clk hpc hne =>
        -- the clock becomes what the agent has carried
        have hholds : s.headMtx n = some .agent := hmtx.mp (by rw [hpc]; rfl)
        refine .same (hhead (by simp [ringAction, *])) ?_
        by_cases hki : k = i
        · simp [State.current, State.carried, hholds, State.setAgent, State.setClock, hpc, AgentPc.carries,
            hne, hki]
        · simp [State.current, State.carried, hholds, State.setAgent, State.setClock, hpc, AgentPc.carries,
            hki, update_of_ne (Ne.symm hki)]
    | _ =>
        refine .same (hhead (by simp [ringAction, *])) (current_congr rfl rfl (fun _ => ?_) fun _ _ => rfl)
        simp [State.setAgent, State.setRing, AgentPc.carries, *]
  · refine .same (hhead ?_) (current_congr ?_ ?_ ?_ ?_)
    · simp only [ringAction]
      split
      · split <;> simp
      · simp [Ne.symm hnm]
      · simp
    · cases hs <;> simp [State.setAgent, State.setMtx, State.setRing, State.emit, State.setClock, hnm]
    · cases hs <;> simp [State.setAgent, State.setMtx, State.setRing, State.emit, State.setClock, hnm]
    · intro
      cases hs <;> simp [State.setAgent, State.setMtx, State.setRing, State.emit, State.setClock, hnm]
    · intro u _
      cases hs <;> rfl

theorem consumption_help {t : ℕ} {h : Help} (hl : Locks cfg s) (hok : RingsOk cfg s)
    (hwrap : NoWrap cfg s (.thread t)) (hpc : (s.threads t).pc = .help h) (hs : HelpStep cfg s t h s')
    (hn : LogManager.Remote cfg.toLogConfig i n) : Consumption s s' n i := by
  have hhead := head_step hok (.help hpc hs) hn
  by_cases hnt : n = cfg.home t
  · subst hnt
    have hmtx := hl.thread t (cfg.home t)
    have hnode := hl.helpNode t h hpc
    rw [hpc] at hmtx
    cases hs with
    | @consumed start clk c r hst hr hout =>
        have hk : LogManager.Remote cfg.toLogConfig h.i (cfg.home t) :=
          ⟨cfg.home_lt t, Ne.symm (hnode.2 (by simp [hst]) (by simp [hst])).2⟩
        have ha : ringAction cfg s (.thread t) = some (h.i, .cons (cfg.home t)) := by
          simp [ringAction, hpc, hst]
        have hholds : s.headMtx (cfg.home t) = some (.thread t) :=
          hmtx.mp ⟨by simp [ThreadPc.holds, hst, HelpStage.holds], rfl⟩
        by_cases hki : h.i = i
        · subst hki
          obtain ⟨hhd, hpub, hclk⟩ := head_of_consumed hok hwrap hk ha hr hout
          refine .consumed hhd hpub ?_
          rw [← hclk]
          simp [State.current, State.carried, hholds, State.setPc, State.setThread, State.setRing,
            State.emit, hpc, ThreadPc.carries, hst, HelpStage.carries]
        · refine .same (hhead (by simp [ha, hki])) (current_congr rfl rfl (fun _ => rfl) fun u _ => ?_)
          by_cases hu : u = t
          · subst hu
            simp [State.setPc, State.setThread, State.setRing, State.emit, hpc, ThreadPc.carries, hki]
          · simp [State.setPc, State.setThread, State.setRing, State.emit, hu]
    | @cons start clk r hst hr hout =>
        have hk : LogManager.Remote cfg.toLogConfig h.i (cfg.home t) :=
          ⟨cfg.home_lt t, Ne.symm (hnode.2 (by simp [hst]) (by simp [hst])).2⟩
        have ha : ringAction cfg s (.thread t) = some (h.i, .cons (cfg.home t)) := by
          simp [ringAction, hpc, hst]
        refine .same ?_ (current_congr rfl rfl (fun _ => rfl) fun _ _ => rfl)
        by_cases hki : h.i = i
        · subst hki
          exact head_of_not_consumed hok hwrap hk ha hr (by simp [hout])
        · exact hhead (by simp [ha, hki])
    | @null start clk r hst hr hout =>
        have hk : LogManager.Remote cfg.toLogConfig h.i (cfg.home t) :=
          ⟨cfg.home_lt t, Ne.symm (hnode.2 (by simp [hst]) (by simp [hst])).2⟩
        have ha : ringAction cfg s (.thread t) = some (h.i, .cons (cfg.home t)) := by
          simp [ringAction, hpc, hst]
        refine .same ?_ (current_congr rfl rfl (fun _ => rfl) fun u _ => ?_)
        · by_cases hki : h.i = i
          · subst hki
            exact head_of_not_consumed hok hwrap hk ha hr (by simp [hout])
          · exact hhead (by simp [ha, hki])
        · by_cases hu : u = t
          · subst hu
            simp [State.setPc, State.setThread, State.setRing, State.emit, hpc, ThreadPc.carries, hst,
              HelpStage.carries]
          · simp [State.setPc, State.setThread, State.setRing, State.emit, hu]
    | lock hst hfree =>
        refine .same (hhead (by simp [ringAction, *])) ?_
        simp [State.current, State.carried, hfree, State.setPc, State.setThread, State.setMtx,
          ThreadPc.carries, HelpStage.carries]
    | unlock hst =>
        have hholds : s.headMtx (cfg.home t) = some (.thread t) :=
          hmtx.mp ⟨by simp [ThreadPc.holds, hst, HelpStage.holds], rfl⟩
        refine .same (hhead (by simp [ringAction, *])) ?_
        simp [State.current, State.carried, hholds, State.setPc, State.setThread, State.setMtx, hpc,
          ThreadPc.carries, hst, HelpStage.carries]
    | readClk hst hclk =>
        -- what the thread carries from here on is the clock itself
        have hholds : s.headMtx (cfg.home t) = some (.thread t) :=
          hmtx.mp ⟨by simp [ThreadPc.holds, hst, HelpStage.holds], rfl⟩
        refine .same (hhead (by simp [ringAction, *])) ?_
        by_cases hki : h.i = i
        · simp [State.current, State.carried, hholds, State.setPc, State.setThread, hpc, ThreadPc.carries,
            hst, HelpStage.carries, hclk, hki]
        · simp [State.current, State.carried, hholds, State.setPc, State.setThread, hpc, ThreadPc.carries,
            hki]
    | leave hst hle =>
        -- the clock becomes what the thread has carried
        have hholds : s.headMtx (cfg.home t) = some (.thread t) :=
          hmtx.mp ⟨by simp [ThreadPc.holds, hst, HelpStage.holds], rfl⟩
        refine .same (hhead (by simp [ringAction, *])) ?_
        by_cases hki : h.i = i
        · simp [State.current, State.carried, hholds, State.setPc, State.setThread, State.setClock, hpc,
            ThreadPc.carries, hst, HelpStage.carries, hki]
        · simp [State.current, State.carried, hholds, State.setPc, State.setThread, State.setClock, hpc,
            ThreadPc.carries, hki, update_of_ne (Ne.symm hki)]
    | _ =>
        refine .same (hhead (by simp [ringAction, *])) (current_congr rfl rfl (fun _ => rfl) fun u _ => ?_)
        simp only [State.setPc, State.setThread, State.setRing, update_apply]
        split
        · simp [ThreadPc.carries, HelpStage.carries, *]
        · rfl
  · -- another node, whose mutex the thread does not hold
    have hne : ∀ u, s.headMtx n = some (.thread u) → u ≠ t := by
      rintro u hu rfl
      exact hnt ((hl.thread u n).mpr hu).2.symm
    refine .same (hhead ?_) (current_congr ?_ ?_ ?_ ?_)
    · simp only [ringAction, hpc]
      split
      · simp
      · simp [Ne.symm hnt]
      · simp
    · cases hs <;>
        simp [State.setPc, State.setThread, State.setMtx, State.setRing, State.emit, State.setClock, hnt]
    · cases hs <;>
        simp [State.setPc, State.setThread, State.setMtx, State.setRing, State.emit, State.setClock, hnt]
    · intro
      cases hs <;> rfl
    · intro u hu
      have := hne u hu
      cases hs <;>
        simp [State.setPc, State.setThread, State.setMtx, State.setRing, State.emit, State.setClock, this]

theorem consumption (hl : Locks cfg s) (hok : RingsOk cfg s) (hwrap : NoWrap cfg s a)
    (hs : Step cfg s a s') (hn : LogManager.Remote cfg.toLogConfig i n) : Consumption s s' n i := by
  cases hs with
  | thread hs => exact consumption_thread hl hok hs hn
  | help hpc hs => exact consumption_help hl hok hwrap hpc hs hn
  | agent hm hs => exact consumption_agent hl hok hwrap hm hs hn
  | releaseNothing => exact .same rfl rfl
  | objStore => exact .same rfl rfl
  | objMerge => exact .same rfl rfl
  | _ =>
      refine .same rfl (current_congr rfl rfl (fun _ => rfl) fun u _ => ?_)
      simp only [State.setPc, State.setThread, update_apply]
      grind [ThreadPc.carries, HelpStage.carries]

/-- `update_clock` stores the current clock, and only for another node. -/
theorem clock_cases (hl : Locks cfg s) (hs : Step cfg s a s') (n i : ℕ) :
    s'.clock n i = s.clock n i ∨
      LogManager.Remote cfg.toLogConfig i n ∧ s'.clock n i = s.current n i := by
  cases hs with
  | thread hs => cases hs <;> exact .inl rfl
  | @help t h s' hpc hs =>
      cases hs with
      | @leave start clk hst hle =>
          have hholds : s.headMtx (cfg.home t) = some (.thread t) :=
            (hl.thread t _).mp ⟨by simp [hpc, ThreadPc.holds, hst, HelpStage.holds], rfl⟩
          have hnode := (hl.helpNode t h hpc).2 (by simp [hst]) (by simp [hst])
          by_cases hni : n = cfg.home t ∧ i = h.i
          · obtain ⟨rfl, rfl⟩ := hni
            refine .inr ⟨⟨cfg.home_lt t, Ne.symm hnode.2⟩, ?_⟩
            simp [State.current, State.carried, hholds, State.setPc, State.setThread, State.setClock, hpc,
              ThreadPc.carries, hst, HelpStage.carries]
          · refine .inl ?_
            simp only [State.setPc, State.setThread, State.setClock, update_apply]
            grind
      | _ => exact .inl rfl
  | @agent m s' hm hs =>
      cases hs with
      | @update k clk hpc hne =>
          have hholds : s.headMtx m = some .agent := (hl.agent m).mp (by rw [hpc]; rfl)
          have hnode := hl.agentNode m k (by rw [hpc]; rfl)
          by_cases hni : n = m ∧ i = k
          · obtain ⟨rfl, rfl⟩ := hni
            refine .inr ⟨hnode.2, ?_⟩
            simp [State.current, State.carried, hholds, State.setAgent, State.setClock, hpc,
              AgentPc.carries, hne]
          · refine .inl ?_
            simp only [State.setAgent, State.setClock, update_apply]
            grind
      | _ => exact .inl rfl
  | _ => exact .inl rfl

/-- The current clock is that of the consumed entries, and the stored one is not ahead of it. -/
structure Clocks (cfg : Config) (s : State) : Prop where
  current : ∀ n i, LogManager.Remote cfg.toLogConfig i n →
    s.current n i = LogManager.lastRel (s.rings i) (s.head n i)
  clock_le : ∀ n i, LogManager.Remote cfg.toLogConfig i n →
    s.clock n i ≤ LogManager.lastRel (s.rings i) (s.head n i)

namespace Clocks

theorem initial : Clocks cfg (initial cfg) where
  current _ _ _ := rfl
  clock_le _ _ _ := le_rfl

/-- What has been consumed amounts to the same clock after a step. -/
theorem lastRel_step (hok : RingsOk cfg s) (hwrap : NoWrap cfg s a) (hs : Step cfg s a s')
    (hn : LogManager.Remote cfg.toLogConfig i n) :
    LogManager.lastRel (s'.rings i) (s.head n i) = LogManager.lastRel (s.rings i) (s.head n i) :=
  ((hok.step hwrap hs).2 i).lastRel fun _ hj => hok.published hn hj

theorem current_step (h : Clocks cfg s) (hl : Locks cfg s) (hok : RingsOk cfg s)
    (hwrap : NoWrap cfg s a) (hs : Step cfg s a s') (n i : ℕ)
    (hn : LogManager.Remote cfg.toLogConfig i n) :
    s'.current n i = LogManager.lastRel (s'.rings i) (s'.head n i) := by
  have hlast := lastRel_step hok hwrap hs hn
  cases consumption hl hok hwrap hs hn with
  | same hhead hcur => rw [hhead, hcur, hlast, h.current n i hn]
  | consumed hhead hpub hcur =>
      have hhist := ((hok.step hwrap hs).2 i _ hpub).2
      rw [hhead, hcur, LogManager.lastRel_succ, hhist, hlast, h.current n i hn]

theorem head_mono (hl : Locks cfg s) (hok : RingsOk cfg s) (hwrap : NoWrap cfg s a)
    (hs : Step cfg s a s') (hn : LogManager.Remote cfg.toLogConfig i n) :
    s.head n i ≤ s'.head n i := by
  cases consumption hl hok hwrap hs hn with
  | same hhead _ => exact hhead.ge
  | consumed hhead _ _ => omega

theorem clock_le_step (h : Clocks cfg s) (hl : Locks cfg s) (hok : RingsOk cfg s)
    (hwrap : NoWrap cfg s a) (hs : Step cfg s a s') (n i : ℕ)
    (hn : LogManager.Remote cfg.toLogConfig i n) :
    s'.clock n i ≤ LogManager.lastRel (s'.rings i) (s'.head n i) := by
  have hle : s'.clock n i ≤ LogManager.lastRel (s.rings i) (s.head n i) := by
    rcases clock_cases hl hs n i with heq | ⟨-, heq⟩
    · rw [heq]
      exact h.clock_le n i hn
    · rw [heq, h.current n i hn]
  rw [← lastRel_step hok hwrap hs hn] at hle
  exact hle.trans (LogManager.lastRel_mono _ (head_mono hl hok hwrap hs hn))

theorem step (h : Clocks cfg s) (hl : Locks cfg s) (hok : RingsOk cfg s) (hwrap : NoWrap cfg s a)
    (hs : Step cfg s a s') : Clocks cfg s' :=
  ⟨h.current_step hl hok hwrap hs, h.clock_le_step hl hok hwrap hs⟩

/-- The cache clock never decreases. -/
theorem clock_mono (h : Clocks cfg s) (hl : Locks cfg s) (hs : Step cfg s a s') (n i : ℕ) :
    s.clock n i ≤ s'.clock n i := by
  rcases clock_cases hl hs n i with heq | ⟨hn, heq⟩
  · exact heq.ge
  · rw [heq, h.current n i hn]
    exact h.clock_le n i hn

end Clocks

end Cluster

end RACoherence
