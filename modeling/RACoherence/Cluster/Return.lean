import RACoherence.Cluster.Producers

/-!
# `thread_acquire` can always return

A thread in `thread_acquire` waits for releases that are not published yet and for the log-head mutex of its
node. Whoever has reserved an index only has to go on with `produce_tail`, and whoever holds the mutex then
gets to `unlock` by its own steps; after that so does the thread, until it returns. No other party has to
move, and nobody has to begin a call.
-/

namespace RACoherence

open Function Relation

namespace LogManager

variable {cfg : LogConfig} {nid : ℕ} {stops : ℕ → Bool} {s s' : State} {a : Action}

/-- Somebody is about to publish every index that is reserved and not published. -/
def Pending (s : State) : Prop :=
  ∀ j < s.tail, s.published j = false → ∃ t, (s.prod t).reserved = some j

theorem pending_initial : Pending (initial cfg) := fun j hj => absurd hj (Nat.not_lt_zero j)

/-- A thread keeps what it has reserved until it publishes it. -/
theorem Pending.of_prod (h : Pending s) (htail : s'.tail = s.tail) (hpub : s'.published = s.published)
    (hres : ∀ t, (s'.prod t).reserved = (s.prod t).reserved) : Pending s' := by
  intro j hj hj'
  rw [htail] at hj
  rw [hpub] at hj'
  obtain ⟨t, ht⟩ := h j hj hj'
  exact ⟨t, (hres t).trans ht⟩

theorem Pending.step (h : Pending s) (hwrap : NoWrap cfg s a) (hs : Step cfg nid stops s a s') : Pending s' := by
  cases hs with
  | @produceTail t log r hpc =>
      have hincr : incr s.tail = s.tail + 1 := incr_eq hwrap
      intro j hj hj'
      simp only [State.setProd, hincr] at hj hj' ⊢
      rcases Nat.lt_succ_iff_lt_or_eq.mp hj with hlt | rfl
      · obtain ⟨u, hu⟩ := h j hlt hj'
        have hut : u ≠ t := by
          rintro rfl
          rw [hpc] at hu
          cases hu
        exact ⟨u, by rw [update_of_ne hut]; exact hu⟩
      · exact ⟨t, by rw [update_self]; rfl⟩
  | @storeIdx t log i k r hpc hk =>
      intro j hj hj'
      simp only [State.setProd, update_apply] at hj hj' ⊢
      split at hj'
      · cases hj'
      · rename_i hne
        obtain ⟨u, hu⟩ := h j hj hj'
        have hut : u ≠ t := by
          rintro rfl
          rw [hpc] at hu
          exact hne (Option.some.inj hu).symm
        exact ⟨u, by rw [if_neg hut]; exact hu⟩
  | _ =>
      refine h.of_prod rfl rfl fun u => ?_
      simp only [State.setProd, State.setCons, State.setSub, State.take, update_apply]
      try split
      all_goals simp_all [ProdPc.reserved]

/-- How many stores a thread in `produce_tail` has still to make before that of the index. -/
def ProdPc.storesLeft : ProdPc → ℕ
  | .storeRel .. => 2
  | .storeLog .. => 1
  | _ => 0

/-- A thread in `produce_tail` is never blocked. -/
theorem publish_enabled {t j : ℕ} (hres : (s.prod t).reserved = some j) :
    ∃ s', step cfg nid stops s (.prod t) = some s' := by
  cases hpc : s.prod t with
  | storeRel | storeLog | storeIdx => exact ⟨_, by simp only [step, stepProd, hpc]; rfl⟩
  | _ => simp [hpc, ProdPc.reserved] at hres

/-- It publishes its index, or comes closer to it. -/
theorem publish_step {t j : ℕ} (hres : (s.prod t).reserved = some j) (hs : Step cfg nid stops s (.prod t) s') :
    s'.tail = s.tail ∧ (∀ i, s.published i = true → s'.published i = true) ∧
      (s'.published j = true ∨
        (∀ log r i, s.prod t ≠ .storeIdx log r i) ∧ (s'.prod t).reserved = some j ∧
          (s'.prod t).storesLeft < (s.prod t).storesLeft) := by
  cases hs with
  | storeRel hpc =>
      refine ⟨rfl, fun _ h => h, .inr ⟨by simp [hpc], ?_, ?_⟩⟩
      · simpa [State.setProd, hpc, ProdPc.reserved] using hres
      · simp [State.setProd, hpc, ProdPc.storesLeft]
  | storeLog hpc =>
      refine ⟨rfl, fun _ h => h, .inr ⟨by simp [hpc], ?_, ?_⟩⟩
      · simpa [State.setProd, hpc, ProdPc.reserved] using hres
      · simp [State.setProd, hpc, ProdPc.storesLeft]
  | storeIdx hpc =>
      obtain rfl := Option.some.inj ((show _ = some j by simpa [hpc, ProdPc.reserved] using hres))
      refine ⟨rfl, fun k hk => ?_, .inl (by simp [State.setProd])⟩
      simp only [State.setProd, update_apply]
      split
      · rfl
      · exact hk
  | _ => simp_all [ProdPc.reserved]

end LogManager

namespace Cluster

variable {cfg : Config} {s s' : State} {a : Action}

/-- The guard of the runs: stores that are not hardware coherent, and no sum near the wrap. -/
def Guard (cfg : Config) (s : State) (a : Action) : Prop :=
  NhcStore a ∧ FewLogs cfg s a ∧ GcBelowWrap cfg s a

/-- The steps that thread `t` in `thread_acquire` may have to wait for: its own, those of threads in
`produce_tail`, and those of whoever holds the log-head mutex of its node. -/
def Needed (cfg : Config) (t : ℕ) (s : State) (a : Action) : Prop :=
  Guard cfg s a ∧ (a = .thread t ∨ (∃ u k, a = .thread u ∧ (s.threads u).pc = .produce k) ∨
    (s.headMtx (cfg.home t) = some .agent ∧ a = .agent (cfg.home t)) ∨
    ∃ u, s.headMtx (cfg.home t) = some (.thread u) ∧ a = .thread u)

/-- Such steps lead from one state to the other. -/
abbrev Waits (cfg : Config) (t : ℕ) : State → State → Prop :=
  ReflTransGen ((machine cfg).Next (Needed cfg t))

theorem Waits.run {t : ℕ} (h : (machine cfg).Run (Guard cfg) s) (hw : Waits cfg t s s') :
    (machine cfg).Run (Guard cfg) s' :=
  h.trans (Machine.reflTransGen_imp (fun _ _ hok => hok.1) hw)

/-- What is known of such a run. -/
structure Returning (cfg : Config) (s : State) : Prop where
  inv : Inv cfg s
  producers : Producers cfg s
  pending : ∀ i, LogManager.Pending (s.rings i)
  below : RingsBelow cfg s

theorem Returning.initial : Returning cfg (initial cfg) where
  inv := .initial
  producers := .initial
  pending _ := LogManager.pending_initial
  below _ := ⟨LogManager.subscribedInv_initial, by
    simpa [Cluster.initial, LogManager.initial] using cfg.logCount_lt⟩

theorem Returning.step (h : Returning cfg s) (hnodes : 1 < cfg.nodeCount) (hok : Guard cfg s a) (hs : Step cfg s a s') :
    Returning cfg s' := by
  obtain ⟨-, hfew, hgc⟩ := hok
  have hwrap := h.below.noWrap hfew hgc
  refine ⟨h.inv.step hwrap hs, h.producers.step h.inv.rings hnodes hs, fun i => ?_,
    h.below.step hnodes hfew hgc hs⟩
  cases ringEffect hs with
  | none _ heq => exact heq ▸ h.pending i
  | @step k b r ha hr hno heq =>
      rw [heq, update_apply]
      split
      · rename_i hk
        subst hk
        exact (h.pending i).step (hwrap i b ha) (LogManager.step_cases hr)
      · exact h.pending i

theorem returning_of_run (hnodes : 1 < cfg.nodeCount) (h : (machine cfg).Run (Guard cfg) s) : Returning cfg s := by
  refine h.invariant (I := Returning cfg) ?_ ?_
  · rintro s rfl
    exact .initial
  · intro s a s' _ hreturning hok hstep
    exact hreturning.step hnodes hok (step_cases hstep)

/-! ## Publishing -/

/-- What moves only because of threads in `produce_tail`. -/
structure Kept (s s' : State) : Prop where
  threads : ∀ t, (∀ k, (s.threads t).pc ≠ .produce k) → s'.threads t = s.threads t
  agents : s'.agents = s.agents
  headMtx : s'.headMtx = s.headMtx
  tail : ∀ i, (s'.rings i).tail = (s.rings i).tail
  published : ∀ i j, (s.rings i).published j = true → (s'.rings i).published j = true

theorem Kept.refl : Kept s s := ⟨fun _ _ => rfl, rfl, rfl, fun _ => rfl, fun _ _ h => h⟩

theorem Kept.trans {s'' : State} (h : Kept s s') (h' : Kept s' s'') : Kept s s'' where
  threads t ht := by
    have heq := h.threads t ht
    rw [h'.threads t (heq ▸ ht), heq]
  agents := h'.agents.trans h.agents
  headMtx := h'.headMtx.trans h.headMtx
  tail i := (h'.tail i).trans (h.tail i)
  published i j hj := h'.published i j (h.published i j hj)

/-- A thread in `produce_tail` can go on, and its step leaves everything else alone. -/
theorem produce_step {u j : ℕ} {k : Purpose} (hpc : (s.threads u).pc = .produce k)
    (hres : ((s.rings (cfg.home u)).prod u).reserved = some j) :
    ∃ s', Guard cfg s (.thread u) ∧ step cfg s (.thread u) = some s' ∧ Kept s s' ∧
      ((s'.rings (cfg.home u)).published j = true ∨
        (s'.threads u).pc = .produce k ∧ ((s'.rings (cfg.home u)).prod u).reserved = some j ∧
          ((s'.rings (cfg.home u)).prod u).storesLeft < ((s.rings (cfg.home u)).prod u).storesLeft) := by
  have ha : ringAction cfg s (.thread u) = some (cfg.home u, .prod u) := by simp [ringAction, hpc]
  have hguard : Guard cfg s (.thread u) := by
    refine ⟨trivial, fun i b hb => ?_, fun i b hb => ?_⟩ <;> rw [ha] at hb <;> cases hb
    · trivial
    · intro hretry
      rw [hretry] at hres
      cases hres
  obtain ⟨r, hr⟩ := @LogManager.publish_enabled cfg.toLogConfig (cfg.home u) (flushesCache 0) _ u j hres
  obtain ⟨htail, hmono, hcases⟩ := LogManager.publish_step hres (LogManager.step_cases hr)
  -- whatever the thread does, it leaves everything but its own ring and its own position alone
  have hkept : ∀ s', (∀ t, t ≠ u → s'.threads t = s.threads t) → s'.agents = s.agents → s'.headMtx = s.headMtx →
      s'.rings = update s.rings (cfg.home u) r → Kept s s' := by
    intro s' hthreads hagents hmtx hrings
    refine ⟨fun t ht => hthreads t ?_, hagents, hmtx, fun i => ?_, fun i j hj => ?_⟩
    · rintro rfl
      exact ht k hpc
    · rw [hrings, update_apply]
      split
      · rename_i hi
        rw [htail, hi]
      · rfl
    · rw [hrings, update_apply]
      split
      · rename_i hi
        exact hmono j (hi ▸ hj)
      · exact hj
  by_cases hidx : ∃ log rel i, (s.rings (cfg.home u)).prod u = .storeIdx log rel i
  · obtain ⟨log, rel, i, hprod⟩ := hidx
    have hpub := hcases.resolve_right fun h => h.1 log rel i hprod
    refine ⟨((s.setRing (cfg.home u) r).emit [.publish (cfg.home u) i]).setPc u (.finish k (LogManager.incr i)),
      hguard, ?_, hkept _ (fun t ht => ?_) rfl rfl rfl, .inl ?_⟩
    · change LogManager.stepProd _ _ _ _ = _ at hr
      simp only [step, stepThread, hpc, hprod, ringStep, LogManager.step, hr, Option.map_some]
    · simp [State.setPc, State.setThread, State.setRing, State.emit, ht]
    · simpa [State.setPc, State.setThread, State.setRing, State.emit] using hpub
  · have hne : ∀ log rel i, (s.rings (cfg.home u)).prod u ≠ .storeIdx log rel i :=
      fun log rel i heq => hidx ⟨log, rel, i, heq⟩
    refine ⟨s.setRing (cfg.home u) r, hguard, ?_, hkept _ (fun _ _ => rfl) rfl rfl rfl, ?_⟩
    · simp only [step, stepThread, hpc, ringStep, hr, Option.map_some]
    · simp only [State.setRing, update_self]
      exact hcases.imp_right fun h => ⟨hpc, h.2⟩

variable {t : ℕ}

/-- A reserved index gets published. -/
theorem publish_index {u j : ℕ} {k : Purpose} (hpc : (s.threads u).pc = .produce k)
    (hres : ((s.rings (cfg.home u)).prod u).reserved = some j) :
    ∃ s', Waits cfg t s s' ∧ Kept s s' ∧ (s'.rings (cfg.home u)).published j = true := by
  -- by the number of stores that are left
  induction hn : ((s.rings (cfg.home u)).prod u).storesLeft using Nat.strong_induction_on generalizing s with
  | h n ih =>
  obtain ⟨s', hguard, hstep, hkept, hcases⟩ := produce_step hpc hres
  have hnext : (machine cfg).Next (Needed cfg t) s s' := ⟨.thread u, ⟨hguard, .inr (.inl ⟨u, k, rfl, hpc⟩)⟩, hstep⟩
  rcases hcases with hpub | ⟨hpc', hres', hlt⟩
  · exact ⟨s', .single hnext, hkept, hpub⟩
  · obtain ⟨s'', hwaits, hkept', hpub⟩ := ih _ (hn ▸ hlt) hpc' hres' rfl
    exact ⟨s'', .head hnext hwaits, hkept.trans hkept', hpub⟩

/-- So do all indices of a ring below one that is reserved. -/
theorem publish_below (hnodes : 1 < cfg.nodeCount) (hrun : (machine cfg).Run (Guard cfg) s) {i m : ℕ}
    (hm : m ≤ (s.rings i).tail) :
    ∃ s', Waits cfg t s s' ∧ Kept s s' ∧ ∀ j < m, (s'.rings i).published j = true := by
  induction m with
  | zero => exact ⟨s, .refl, .refl, fun j hj => absurd hj (Nat.not_lt_zero j)⟩
  | succ m ih =>
      obtain ⟨s₁, hwaits₁, hkept₁, hpub₁⟩ := ih (by omega)
      have hreturning := returning_of_run hnodes (hwaits₁.run hrun)
      -- index `m` is published already, or its thread publishes it
      have hnext : ∃ s₂, Waits cfg t s₁ s₂ ∧ Kept s₁ s₂ ∧ (s₂.rings i).published m = true := by
        cases hm' : (s₁.rings i).published m with
        | true => exact ⟨s₁, .refl, .refl, hm'⟩
        | false =>
            obtain ⟨u, hu⟩ := hreturning.pending i m (by rw [hkept₁.tail i]; omega) hm'
            have hhome : cfg.home u = i := by
              by_contra hne
              rw [hreturning.producers.other i u hne] at hu
              cases hu
            subst hhome
            obtain ⟨k, hpc⟩ := hreturning.producers.pc_of_reserved hu
            exact publish_index hpc hu
      obtain ⟨s₂, hwaits₂, hkept₂, hpub₂⟩ := hnext
      refine ⟨s₂, hwaits₁.trans hwaits₂, hkept₁.trans hkept₂, fun j hj => ?_⟩
      rcases Nat.lt_succ_iff_lt_or_eq.mp hj with hlt | rfl
      · exact hkept₂.published i j (hpub₁ j hlt)
      · exact hpub₂

/-- Everything that is reserved in the rings of the cluster is published. -/
def AllPublished (cfg : Config) (s : State) : Prop :=
  ∀ i < cfg.nodeCount, ∀ j < (s.rings i).tail, (s.rings i).published j = true

theorem publish_all (hnodes : 1 < cfg.nodeCount) (hrun : (machine cfg).Run (Guard cfg) s) :
    ∃ s', Waits cfg t s s' ∧ Kept s s' ∧ AllPublished cfg s' := by
  have hupto : ∀ m, ∃ s', Waits cfg t s s' ∧ Kept s s' ∧
      ∀ i < m, ∀ j < (s'.rings i).tail, (s'.rings i).published j = true := by
    intro m
    induction m with
    | zero => exact ⟨s, .refl, .refl, fun i hi => absurd hi (Nat.not_lt_zero i)⟩
    | succ m ih =>
        obtain ⟨s₁, hwaits₁, hkept₁, hpub₁⟩ := ih
        obtain ⟨s₂, hwaits₂, hkept₂, hpub₂⟩ := publish_below (t := t) hnodes (hwaits₁.run hrun) (le_refl (s₁.rings m).tail)
        refine ⟨s₂, hwaits₁.trans hwaits₂, hkept₁.trans hkept₂, fun i hi j hj => ?_⟩
        rw [hkept₂.tail i] at hj
        rcases Nat.lt_succ_iff_lt_or_eq.mp hi with hlt | rfl
        · exact hkept₂.published i j (hpub₁ i hlt j hj)
        · exact hpub₂ j hj
  exact hupto cfg.nodeCount

/-! ## Helping -/

theorem guard_of_consuming (hnhc : NhcStore a) (hcons : Consuming cfg s a) : Guard cfg s a := by
  refine ⟨hnhc, fun i b hb => ?_, fun i b hb => ?_⟩ <;> have hnone := hcons i b hb <;> cases b <;> trivial

theorem AllPublished.consuming (h : AllPublished cfg s) (hcons : Consuming cfg s a) (hs : Step cfg s a s') :
    AllPublished cfg s' := by
  intro i hi j hj
  obtain ⟨-, -, htail, hpub⟩ := hcons.rings hs i
  rw [htail] at hj
  rw [hpub]
  exact h i hi j hj

/-- The number of passes of the outer loop that are left. -/
def Help.passes (h : Help) : ℕ :=
  match h.stage with
  | .merge => 0
  | _ => if h.done then 1 else 2

/-- How much of the current loop over the nodes is left. -/
def Help.nodesLeft (cfg : Config) (h : Help) : ℕ :=
  match h.stage with
  | .merge => cfg.nodeCount - h.i
  | .loop => 2 * h.i
  | _ => 2 * h.i + 1

/-- How far a thread is from the next node. -/
def HelpStage.rank : HelpStage → ℕ
  | .loop | .merge => 0
  | .unlock => 1
  | .inner _ _ | .take _ _ | .consuming _ _ => 2
  | .readClk => 3
  | .tryLock => 4
  | .isSubscribed => 5
  | .compare _ => 6
  | .check => 7

/-- How far a thread in `thread_acquire` is from its return when nobody else moves. -/
def helpRank (cfg : Config) (s : State) (t : ℕ) (h : Help) : ℕ ×ₗ (ℕ ×ₗ (ℕ ×ₗ (ℕ ×ₗ (ℕ ×ₗ ℕ)))) :=
  toLex (h.passes, toLex (h.nodesLeft cfg, toLex (h.stage.rank, loopRank cfg s t h)))

theorem helpRank_of_passes {h h' : Help} (hlt : h'.passes < h.passes) :
    helpRank cfg s' t h' < helpRank cfg s t h :=
  Prod.Lex.toLex_lt_toLex.mpr (.inl hlt)

theorem helpRank_of_nodes {h h' : Help} (hpasses : h'.passes = h.passes)
    (hlt : h'.nodesLeft cfg < h.nodesLeft cfg) : helpRank cfg s' t h' < helpRank cfg s t h :=
  Prod.Lex.toLex_lt_toLex.mpr (.inr ⟨hpasses, Prod.Lex.toLex_lt_toLex.mpr (.inl hlt)⟩)

theorem helpRank_of_stage {h h' : Help} (hpasses : h'.passes = h.passes)
    (hnodes : h'.nodesLeft cfg = h.nodesLeft cfg) (hlt : h'.stage.rank < h.stage.rank) :
    helpRank cfg s' t h' < helpRank cfg s t h :=
  Prod.Lex.toLex_lt_toLex.mpr (.inr ⟨hpasses, Prod.Lex.toLex_lt_toLex.mpr
    (.inr ⟨hnodes, Prod.Lex.toLex_lt_toLex.mpr (.inl hlt)⟩)⟩)

theorem helpRank_of_loop {h h' : Help} (hpasses : h'.passes = h.passes)
    (hnodes : h'.nodesLeft cfg = h.nodesLeft cfg) (hstage : h'.stage.rank = h.stage.rank)
    (hlt : loopRank cfg s' t h' < loopRank cfg s t h) : helpRank cfg s' t h' < helpRank cfg s t h :=
  Prod.Lex.toLex_lt_toLex.mpr (.inr ⟨hpasses, Prod.Lex.toLex_lt_toLex.mpr
    (.inr ⟨hnodes, Prod.Lex.toLex_lt_toLex.mpr (.inr ⟨hstage, hlt⟩)⟩)⟩)

/-- A thread in the inner loop. -/
theorem Help.rank_of_start {h : Help} {start : ℕ} (hst : h.stage.start = some start) :
    h.passes = (if h.done then 1 else 2) ∧ h.nodesLeft cfg = 2 * h.i + 1 ∧ h.stage.rank = 2 := by
  cases hstage : h.stage <;>
    simp_all [HelpStage.start, Help.passes, Help.nodesLeft, HelpStage.rank]

/-- A thread in the inner loop whose clock is below its target goes on with it. -/
theorem inner_step {h : Help} {start clk : ℕ} (hreturning : Returning cfg s) (hall : AllPublished cfg s)
    (hpc : (s.threads t).pc = .help h) (hst : h.stage.start = some start) (hcar : h.stage.carries = some clk)
    (hstart : start = s.clock (cfg.home t) h.i) (hlt : clk < s.read h.target h.i) :
    ∃ s' h', step cfg s (.thread t) = some s' ∧ (s'.threads t).pc = .help h' ∧
      helpRank cfg s' t h' < helpRank cfg s t h := by
  have hinv := hreturning.inv
  have hloop : h.stage ≠ .loop := by rintro heq; rw [heq] at hst; cases hst
  have hmerge : h.stage ≠ .merge := by rintro heq; rw [heq] at hst; cases hst
  have hrem := remote_of_help hinv.locks hpc hloop hmerge
  have hi := ((hinv.locks.helpNode t h hpc).2 hloop hmerge).1
  have hlast := lastRel_of_carries hinv.locks hpc hinv.clocks hcar
  have hclock := hinv.clocks.clock_le _ _ hrem
  have htail := (hinv.releases.read hpc h.i).le_tail (hinv.rings.records h.i)
  have hhead := head_lt_of_clk_lt hinv.locks hpc hinv.clocks hinv.releases hcar hlt
  rcases loop_step hinv hpc hst (by omega) fun j _ hj => hall h.i hi j (hj.trans_le htail) with
    ⟨-, heq⟩ | ⟨s', stage, -, hstep, hpc', hst', hrank⟩
  · omega
  · obtain ⟨hpasses, hnodes, hstage⟩ := @Help.rank_of_start cfg h start hst
    obtain ⟨hpasses', hnodes', hstage'⟩ := @Help.rank_of_start cfg { h with stage := stage } start hst'
    exact ⟨s', { h with stage := stage }, hstep, hpc', helpRank_of_loop (hpasses'.trans hpasses.symm)
      (hnodes'.trans hnodes.symm) (hstage'.trans hstage.symm) hrank⟩

/-- Between two nodes, and in `merge`, a thread waits for nobody. -/
theorem outer_step {h : Help} (hpc : (s.threads t).pc = .help h) (hst : h.stage = .loop ∨ h.stage = .merge) :
    ∃ s', step cfg s (.thread t) = some s' ∧ ((s'.threads t).pc = .idle ∨
      ∃ h', (s'.threads t).pc = .help h' ∧ helpRank cfg s' t h' < helpRank cfg s t h) := by
  rcases hst with hst | hst
  · rcases Nat.eq_zero_or_pos h.i with hi | hi
    · cases hd : h.done with
      | true =>
          refine ⟨_, by simp [step, stepThread, hpc, stepHelp, hst, hi, hd]; rfl, .inr ⟨_, State.pc_setPc _ _ _,
            helpRank_of_passes ?_⟩⟩
          simp [Help.passes, hst, hd]
      | false =>
          refine ⟨_, by simp [step, stepThread, hpc, stepHelp, hst, hi, hd]; rfl, .inr ⟨_, State.pc_setPc _ _ _,
            helpRank_of_passes ?_⟩⟩
          simp [Help.passes, hst, hd]
    · have hne : h.i ≠ 0 := by omega
      by_cases hskip : h.nodeDone (h.i - 1) = true ∨ h.i - 1 = cfg.home t
      · refine ⟨_, by simp only [step, stepThread, hpc, stepHelp, hst, if_neg hne, if_pos hskip]; rfl,
          .inr ⟨_, State.pc_setPc _ _ _, helpRank_of_nodes ?_ ?_⟩⟩
        · simp [Help.passes, hst]
        · simp only [Help.nodesLeft, hst]
          omega
      · refine ⟨_, by simp only [step, stepThread, hpc, stepHelp, hst, if_neg hne, if_neg hskip]; rfl,
          .inr ⟨_, State.pc_setPc _ _ _, helpRank_of_nodes ?_ ?_⟩⟩
        · simp [Help.passes, hst]
        · simp only [Help.nodesLeft, hst]
          omega
  · by_cases hi : h.i < cfg.nodeCount
    · refine ⟨_, by simp only [step, stepThread, hpc, stepHelp, hst, if_pos hi]; rfl,
        .inr ⟨{ h with i := h.i + 1 }, by simp [State.setThread, hst], helpRank_of_nodes ?_ ?_⟩⟩
      · simp [Help.passes, hst]
      · simp only [Help.nodesLeft, hst]
        omega
    · exact ⟨_, by simp only [step, stepThread, hpc, stepHelp, hst, if_neg hi]; rfl, .inl (State.pc_setPc _ _ _)⟩

/-- With everything published and the mutex free or its own, a thread in `thread_acquire` comes closer to its
return by any step. -/
theorem help_step {h : Help} (hreturning : Returning cfg s) (hall : AllPublished cfg s)
    (hpc : (s.threads t).pc = .help h)
    (hmtx : s.headMtx (cfg.home t) = none ∨ s.headMtx (cfg.home t) = some (.thread t)) :
    ∃ s', step cfg s (.thread t) = some s' ∧ ((s'.threads t).pc = .idle ∨
      ∃ h', (s'.threads t).pc = .help h' ∧ helpRank cfg s' t h' < helpRank cfg s t h) := by
  have hinv := hreturning.inv
  have hok := hinv.acquires.help t h hpc
  cases hst : h.stage with
  | loop => exact outer_step hpc (.inl hst)
  | merge => exact outer_step hpc (.inr hst)
  | check =>
      refine ⟨_, by simp only [step, stepThread, hpc, stepHelp, hst]; rfl, .inr ⟨_, State.pc_setPc _ _ _,
        helpRank_of_stage ?_ ?_ ?_⟩⟩ <;> simp [Help.passes, Help.nodesLeft, HelpStage.rank, hst]
  | compare clk =>
      by_cases hle : s.read h.target h.i ≤ clk
      · refine ⟨_, by simp only [step, stepThread, hpc, stepHelp, hst, if_pos hle]; rfl,
          .inr ⟨_, State.pc_setPc _ _ _, helpRank_of_nodes ?_ ?_⟩⟩ <;> simp [Help.passes, Help.nodesLeft, hst]
      · refine ⟨_, by simp only [step, stepThread, hpc, stepHelp, hst, if_neg hle]; rfl,
          .inr ⟨_, State.pc_setPc _ _ _, helpRank_of_stage ?_ ?_ ?_⟩⟩ <;>
          simp [Help.passes, Help.nodesLeft, HelpStage.rank, hst]
  | isSubscribed =>
      have hsub := (hreturning.below h.i).1.2.subbed (cfg.home t)
      refine ⟨_, by simp only [step, stepThread, hpc, stepHelp, hst, if_pos hsub]; rfl,
        .inr ⟨_, State.pc_setPc _ _ _, helpRank_of_stage ?_ ?_ ?_⟩⟩ <;>
        simp [Help.passes, Help.nodesLeft, HelpStage.rank, hst]
  | tryLock =>
      -- the thread does not hold the mutex, so nobody does
      have hfree : s.headMtx (cfg.home t) = none := by
        refine hmtx.resolve_right fun hmine => ?_
        have hholds := ((hinv.locks.thread t _).mpr hmine).1
        rw [hpc, ThreadPc.holds, hst] at hholds
        cases hholds
      refine ⟨_, by simp only [step, stepThread, hpc, stepHelp, hst, hfree]; rfl,
        .inr ⟨_, State.pc_setPc _ _ _, helpRank_of_stage ?_ ?_ ?_⟩⟩ <;>
        simp [Help.passes, Help.nodesLeft, HelpStage.rank, hst]
  | readClk =>
      refine ⟨_, by simp only [step, stepThread, hpc, stepHelp, hst]; rfl, .inr ⟨_, State.pc_setPc _ _ _,
        helpRank_of_stage ?_ ?_ ?_⟩⟩ <;> simp [Help.passes, Help.nodesLeft, HelpStage.rank, hst]
  | inner start clk =>
      by_cases hlt : clk < s.read h.target h.i
      · obtain ⟨s', h', hstep, hpc', hrank⟩ := inner_step hreturning hall hpc (by rw [hst]; rfl) (by rw [hst]; rfl)
          (hok.inner start clk hst).1 hlt
        exact ⟨s', hstep, .inr ⟨h', hpc', hrank⟩⟩
      · refine ⟨_, by simp only [step, stepThread, hpc, stepHelp, hst, if_neg hlt]; rfl,
          .inr ⟨_, State.pc_setPc _ _ _, helpRank_of_stage ?_ ?_ ?_⟩⟩ <;>
          simp [Help.passes, Help.nodesLeft, HelpStage.rank, hst]
  | take start clk =>
      obtain ⟨hstart, hlt⟩ := hok.taking start clk (.inl hst)
      obtain ⟨s', h', hstep, hpc', hrank⟩ := inner_step hreturning hall hpc (by rw [hst]; rfl) (by rw [hst]; rfl)
        hstart hlt
      exact ⟨s', hstep, .inr ⟨h', hpc', hrank⟩⟩
  | consuming start clk =>
      obtain ⟨hstart, hlt⟩ := hok.taking start clk (.inr hst)
      obtain ⟨s', h', hstep, hpc', hrank⟩ := inner_step hreturning hall hpc (by rw [hst]; rfl) (by rw [hst]; rfl)
        hstart hlt
      exact ⟨s', hstep, .inr ⟨h', hpc', hrank⟩⟩
  | unlock =>
      refine ⟨_, by simp only [step, stepThread, hpc, stepHelp, hst]; rfl, .inr ⟨_, State.pc_setPc _ _ _,
        helpRank_of_nodes ?_ ?_⟩⟩ <;> simp [Help.passes, Help.nodesLeft, hst]

/-- What a step of a thread in `thread_acquire` leaves to the others. -/
theorem HelpStep.others {h : Help} (hs : HelpStep cfg s t h s') :
    (∀ u ≠ t, s'.threads u = s.threads u) ∧
      (s.headMtx (cfg.home t) = none ∨ s.headMtx (cfg.home t) = some (.thread t) →
        s'.headMtx (cfg.home t) = none ∨ s'.headMtx (cfg.home t) = some (.thread t)) := by
  constructor
  · intro u hu
    cases hs <;>
      simp [State.setPc, State.setThread, State.setRing, State.setMtx, State.setClock, State.emit, hu]
  · intro hmtx
    cases hs with
    | lock => exact .inr (by simp [State.setPc, State.setThread, State.setMtx])
    | unlock => exact .inl (by simp [State.setPc, State.setThread, State.setMtx])
    | _ => exact hmtx

/-! ## The mutex -/

/-- How far an agent that holds the mutex is from `unlock`. -/
def agentRank (s : State) (n : ℕ) : ℕ ×ₗ (ℕ ×ₗ ℕ) :=
  match s.agents n with
  | .batch _ j _ => toLex (2 * (logMaxBatch - j) + 2, toLex (0, 0))
  | .consuming i j _ => toLex (2 * (logMaxBatch - 1 - j) + 3, consRank ((s.rings i).cons n))
  | .update _ _ => toLex (1, toLex (0, 0))
  | .unlock _ | .loop _ | .tryLock _ => toLex (0, toLex (0, 0))

/-- A step of a consumer that does not end the work on its entry comes closer to the end. -/
theorem consRank_lt {r r' : LogManager.State} {i n : ℕ}
    (hr : LogManager.step cfg.toLogConfig i (flushesCache 0) r (.cons n) = some r')
    (hout : consOutcome n r r' = none) : consRank (r'.cons n) < consRank (r.cons n) := by
  cases LogManager.step_cases hr with
  | takeNull hpc => simp [consOutcome, hpc, LogManager.State.setCons] at hout
  | storeHead hpc => simp [consOutcome, hpc] at hout
  | @processNext _ log k size clk hpc hlt =>
      simp only [LogManager.State.setCons, update_self, hpc, consRank]
      exact Prod.Lex.toLex_lt_toLex.mpr (.inr ⟨rfl, by omega⟩)
  | _ => simp [LogManager.State.setCons, *, consRank, Prod.Lex.toLex_lt_toLex]

/-- An agent that holds the mutex of its node is never blocked. It releases the mutex, or comes closer to
it. -/
theorem agent_step {n : ℕ} (hreturning : Returning cfg s) (hn : n < cfg.nodeCount) (hmtx : s.headMtx n = some .agent) :
    ∃ s', step cfg s (.agent n) = some s' ∧ s'.threads = s.threads ∧
      (s'.headMtx n = none ∨ s'.headMtx n = some .agent ∧ agentRank s' n < agentRank s n) := by
  have hinv := hreturning.inv
  have hholds := (hinv.locks.agent n).mpr hmtx
  cases hpc : s.agents n with
  | loop | tryLock =>
      rw [hpc] at hholds
      cases hholds
  | batch i j clk =>
      obtain ⟨-, -, hne⟩ := hinv.locks.agentNode n i (by rw [hpc]; rfl)
      by_cases hj : j < logMaxBatch
      · -- the agent is not at work on an entry, so `take_head` is enabled
        have hidle : (s.rings i).cons n = .idle := by
          by_contra hwork
          have hworks := (hinv.workers n i ⟨hn, hne⟩).mp hwork
          simp [State.works, hmtx, hpc, AgentPc.works] at hworks
        obtain ⟨r, hr⟩ : ∃ r, RingStep cfg s i (.takeHead n) r := ⟨_, if_pos ⟨⟨hn, hne⟩, hidle⟩⟩
        refine ⟨(s.setRing i r).setAgent n (.consuming i j clk), ?_, rfl, .inr ⟨hmtx, ?_⟩⟩
        · simp [step, hn, stepAgent, hpc, hj, ringStep, hr]
        · simp only [agentRank, hpc, State.setAgent, update_self]
          exact Prod.Lex.toLex_lt_toLex.mpr (.inl (by omega))
      · refine ⟨s.setAgent n (.update i clk), ?_, rfl, .inr ⟨hmtx, ?_⟩⟩
        · simp [step, hn, stepAgent, hpc, hj]
        · simp only [agentRank, hpc, State.setAgent, update_self]
          exact Prod.Lex.toLex_lt_toLex.mpr (.inl (by omega))
  | consuming i j clk =>
      obtain ⟨-, -, hne⟩ := hinv.locks.agentNode n i (by rw [hpc]; rfl)
      have hwork : (s.rings i).cons n ≠ .idle := by
        rw [hinv.workers n i ⟨hn, hne⟩, State.works, hmtx]
        simp [hpc, AgentPc.works]
      obtain ⟨r, hr⟩ : ∃ r, RingStep cfg s i (.cons n) r := cons_enabled hwork
      cases hout : consOutcome n (s.rings i) r with
      | none =>
          refine ⟨(s.setRing i r).emit (consEvents cfg n i (s.rings i)), ?_, rfl, .inr ⟨hmtx, ?_⟩⟩
          · simp [step, hn, stepAgent, hpc, consStep, ringStep, hr, State.setRing, hout]
          · simp only [agentRank, State.setRing, State.emit, hpc, update_self]
            exact Prod.Lex.toLex_lt_toLex.mpr (.inr ⟨rfl, consRank_lt hr hout⟩)
      | some out =>
          cases out with
          | null =>
              refine ⟨((s.setRing i r).emit (consEvents cfg n i (s.rings i))).setAgent n (.update i clk), ?_, rfl,
                .inr ⟨hmtx, ?_⟩⟩
              · simp [step, hn, stepAgent, hpc, consStep, ringStep, hr, State.setRing, hout]
              · simp only [agentRank, State.setAgent, hpc, update_self]
                exact Prod.Lex.toLex_lt_toLex.mpr (.inl (by omega))
          | consumed c =>
              refine ⟨((s.setRing i r).emit (consEvents cfg n i (s.rings i))).setAgent n (.batch i (j + 1) (c.getD clk)),
                ?_, rfl, .inr ⟨hmtx, ?_⟩⟩
              · simp [step, hn, stepAgent, hpc, consStep, ringStep, hr, State.setRing, hout]
              · simp only [agentRank, State.setAgent, hpc, update_self]
                exact Prod.Lex.toLex_lt_toLex.mpr (.inl (by omega))
  | update i clk =>
      by_cases hclk : clk = 0
      · refine ⟨s.setAgent n (.unlock i), ?_, rfl, .inr ⟨hmtx, ?_⟩⟩
        · simp [step, hn, stepAgent, hpc, hclk]
        · simp only [agentRank, hpc, State.setAgent, update_self]
          exact Prod.Lex.toLex_lt_toLex.mpr (.inl (by decide))
      · refine ⟨(s.setClock n i clk).setAgent n (.unlock i), ?_, rfl, .inr ⟨hmtx, ?_⟩⟩
        · simp [step, hn, stepAgent, hpc, hclk]
        · simp only [agentRank, hpc, State.setAgent, update_self]
          exact Prod.Lex.toLex_lt_toLex.mpr (.inl (by decide))
  | unlock i =>
      refine ⟨(s.setMtx n none).setAgent n (.loop (i + 1)), ?_, rfl, .inl ?_⟩
      · simp [step, hn, stepAgent, hpc]
      · simp [State.setMtx, State.setAgent]

/-- The agent of the thread's node gets to `unlock`. -/
theorem agent_releases (hnodes : 1 < cfg.nodeCount) (hrun : (machine cfg).Run (Guard cfg) s)
    (hall : AllPublished cfg s) (hmtx : s.headMtx (cfg.home t) = some .agent) :
    ∃ s', Waits cfg t s s' ∧ AllPublished cfg s' ∧ s'.threads t = s.threads t ∧
      s'.headMtx (cfg.home t) = none := by
  induction hr : agentRank s (cfg.home t) using WellFoundedLT.induction generalizing s with
  | ind rank ih =>
  obtain ⟨s', hstep, hthreads, hcases⟩ := agent_step (returning_of_run hnodes hrun) (cfg.home_lt t) hmtx
  have hguard : Guard cfg s (.agent (cfg.home t)) := guard_of_consuming trivial consuming_of_agent
  have hnext : (machine cfg).Next (Needed cfg t) s s' :=
    ⟨_, ⟨hguard, .inr (.inr (.inl ⟨hmtx, rfl⟩))⟩, hstep⟩
  have hall' := hall.consuming consuming_of_agent (step_cases hstep)
  rcases hcases with hfree | ⟨hmtx', hlt⟩
  · exact ⟨s', .single hnext, hall', congrFun hthreads t, hfree⟩
  · obtain ⟨s'', hwaits, hall'', hsame, hfree⟩ := ih _ (hr ▸ hlt) (hrun.step hguard hstep) hall' hmtx' rfl
    exact ⟨s'', .head hnext hwaits, hall'', hsame.trans (congrFun hthreads t), hfree⟩

/-- Another thread of the node that holds the mutex gets to `unlock`. -/
theorem thread_releases (hnodes : 1 < cfg.nodeCount) (hrun : (machine cfg).Run (Guard cfg) s)
    (hall : AllPublished cfg s) {u : ℕ} {h : Help} (hne : u ≠ t) (hhome : cfg.home u = cfg.home t)
    (hpc : (s.threads u).pc = .help h) (hmtx : s.headMtx (cfg.home t) = some (.thread u)) :
    ∃ s', Waits cfg t s s' ∧ AllPublished cfg s' ∧ s'.threads t = s.threads t ∧
      s'.headMtx (cfg.home t) = none := by
  induction hr : helpRank cfg s u h using WellFoundedLT.induction generalizing s h with
  | ind rank ih =>
  have hreturning := returning_of_run hnodes hrun
  obtain ⟨s', hstep, hcases⟩ := help_step hreturning hall hpc (.inr (hhome ▸ hmtx))
  have hguard : Guard cfg s (.thread u) := guard_of_consuming trivial (consuming_of_help hpc)
  have hnext : (machine cfg).Next (Needed cfg t) s s' := ⟨_, ⟨hguard, .inr (.inr (.inr ⟨u, hmtx, rfl⟩))⟩, hstep⟩
  have hall' := hall.consuming (consuming_of_help hpc) (step_cases hstep)
  have hrun' := hrun.step hguard hstep
  obtain ⟨hsame, hmtx'⟩ : s'.threads t = s.threads t ∧
      (s'.headMtx (cfg.home t) = none ∨ s'.headMtx (cfg.home t) = some (.thread u)) := by
    cases step_cases hstep with
    | thread hs => exact absurd hpc (hs.not_help h)
    | help hpc' hs =>
        rw [← hhome]
        exact ⟨hs.others.1 t (Ne.symm hne), hs.others.2 (.inr (hhome ▸ hmtx))⟩
  rcases hmtx' with hfree | hmtx'
  · exact ⟨s', .single hnext, hall', hsame, hfree⟩
  · rcases hcases with hidle | ⟨h', hpc', hlt⟩
    · -- whoever is outside `thread_acquire` holds no mutex
      have hholds := (((returning_of_run hnodes hrun').inv.locks.thread u _).mpr hmtx').1
      rw [hidle] at hholds
      cases hholds
    · obtain ⟨s'', hwaits, hall'', hsame', hfree⟩ := ih _ (hr ▸ hlt) hrun' hall' hpc' hmtx' rfl
      exact ⟨s'', .head hnext hwaits, hall'', hsame'.trans hsame, hfree⟩

/-- Whoever holds the mutex of the node gets to `unlock`. -/
theorem release_mutex (hnodes : 1 < cfg.nodeCount) (hrun : (machine cfg).Run (Guard cfg) s)
    (hall : AllPublished cfg s) :
    ∃ s', Waits cfg t s s' ∧ AllPublished cfg s' ∧ s'.threads t = s.threads t ∧
      (s'.headMtx (cfg.home t) = none ∨ s'.headMtx (cfg.home t) = some (.thread t)) := by
  cases hmtx : s.headMtx (cfg.home t) with
  | none => exact ⟨s, .refl, hall, rfl, .inl hmtx⟩
  | some p =>
      cases p with
      | agent =>
          obtain ⟨s', hwaits, hall', hsame, hfree⟩ := agent_releases hnodes hrun hall hmtx
          exact ⟨s', hwaits, hall', hsame, .inl hfree⟩
      | thread u =>
          by_cases hut : u = t
          · exact ⟨s, .refl, hall, rfl, .inr (hut ▸ hmtx)⟩
          obtain ⟨hholds, hhome⟩ := ((returning_of_run hnodes hrun).inv.locks.thread u _).mpr hmtx
          cases hpc : (s.threads u).pc with
          | help h =>
              obtain ⟨s', hwaits, hall', hsame, hfree⟩ := thread_releases hnodes hrun hall hut hhome hpc hmtx
              exact ⟨s', hwaits, hall', hsame, .inl hfree⟩
          | _ =>
              rw [hpc] at hholds
              cases hholds

/-! ## The return -/

/-- A thread that finds everything published and the mutex free, or holds it, returns by its own steps. -/
theorem returns_alone (hnodes : 1 < cfg.nodeCount) (hrun : (machine cfg).Run (Guard cfg) s)
    (hall : AllPublished cfg s) {h : Help} (hpc : (s.threads t).pc = .help h)
    (hmtx : s.headMtx (cfg.home t) = none ∨ s.headMtx (cfg.home t) = some (.thread t)) :
    ∃ s', Waits cfg t s s' ∧ (s'.threads t).pc = .idle := by
  induction hr : helpRank cfg s t h using WellFoundedLT.induction generalizing s h with
  | ind rank ih =>
  obtain ⟨s', hstep, hcases⟩ := help_step (returning_of_run hnodes hrun) hall hpc hmtx
  have hguard : Guard cfg s (.thread t) := guard_of_consuming trivial (consuming_of_help hpc)
  have hnext : (machine cfg).Next (Needed cfg t) s s' := ⟨_, ⟨hguard, .inl rfl⟩, hstep⟩
  rcases hcases with hidle | ⟨h', hpc', hlt⟩
  · exact ⟨s', .single hnext, hidle⟩
  · have hall' := hall.consuming (consuming_of_help hpc) (step_cases hstep)
    have hmtx' : s'.headMtx (cfg.home t) = none ∨ s'.headMtx (cfg.home t) = some (.thread t) := by
      cases step_cases hstep with
      | thread hs => exact absurd hpc (hs.not_help h)
      | help hpc'' hs => exact hs.others.2 hmtx
    obtain ⟨s'', hwaits, hidle⟩ := ih _ (hr ▸ hlt) (hrun.step hguard hstep) hall' hpc' hmtx' rfl
    exact ⟨s'', .head hnext hwaits, hidle⟩

/-- With a single node there is nothing to wait for. -/
theorem returns_single (hnodes : cfg.nodeCount ≤ 1) (hrun : (machine cfg).Run (Guard cfg) s) {h : Help}
    (hpc : (s.threads t).pc = .help h) : ∃ s', Waits cfg t s s' ∧ (s'.threads t).pc = .idle := by
  induction hr : helpRank cfg s t h using WellFoundedLT.induction generalizing s h with
  | ind rank ih =>
  have hlocks : Locks cfg s := by
    refine hrun.invariant (I := Locks cfg) ?_ fun s a s' _ hl _ hstep => hl.step (step_cases hstep)
    rintro s rfl
    exact .initial
  -- there is no other node
  have hst : h.stage = .loop ∨ h.stage = .merge := by
    by_contra hne
    rw [not_or] at hne
    obtain ⟨hi, hother⟩ := (hlocks.helpNode t h hpc).2 hne.1 hne.2
    have := cfg.home_lt t
    omega
  obtain ⟨s', hstep, hcases⟩ := @outer_step cfg _ _ _ hpc hst
  have hguard : Guard cfg s (.thread t) := guard_of_consuming trivial (consuming_of_help hpc)
  have hnext : (machine cfg).Next (Needed cfg t) s s' := ⟨_, ⟨hguard, .inl rfl⟩, hstep⟩
  rcases hcases with hidle | ⟨h', hpc', hlt⟩
  · exact ⟨s', .single hnext, hidle⟩
  · obtain ⟨s'', hwaits, hidle⟩ := ih _ (hr ▸ hlt) (hrun.step hguard hstep) hpc' rfl
    exact ⟨s'', .head hnext hwaits, hidle⟩

/-- In a run with the rings away from the wrap (`Guard`), every thread in `thread_acquire` can return,
whatever the others are in the middle of: threads in `produce_tail` go on until they have published, the
holder of the mutex goes on until `unlock`, and then the thread itself goes on. -/
theorem acquire_can_return (cfg : Config) (s : State) (t : ℕ) (hrun : (machine cfg).Run (Guard cfg) s)
    (hhelp : ∃ h, (s.threads t).pc = .help h) : ∃ s', Waits cfg t s s' ∧ (s'.threads t).pc = .idle := by
  obtain ⟨h, hpc⟩ := hhelp
  rcases Nat.lt_or_ge 1 cfg.nodeCount with hnodes | hnodes
  · obtain ⟨s₁, hwaits₁, hkept, hall₁⟩ := publish_all (t := t) hnodes hrun
    have hpc₁ : (s₁.threads t).pc = .help h := by
      rw [hkept.threads t (by simp [hpc]), hpc]
    obtain ⟨s₂, hwaits₂, hall₂, hsame, hmtx⟩ := release_mutex hnodes (hwaits₁.run hrun) hall₁
    obtain ⟨s₃, hwaits₃, hidle⟩ := returns_alone hnodes (hwaits₂.run (hwaits₁.run hrun)) hall₂ (hsame ▸ hpc₁) hmtx
    exact ⟨s₃, hwaits₁.trans (hwaits₂.trans hwaits₃), hidle⟩
  · exact returns_single hnodes hrun hpc

/-- Thread 65 acquires a release of thread 0 that is published, while thread 1 of node 0 has reserved an index
and has not published it yet. -/
theorem acquire_can_return_reserved :
    ∃ s s' : State, ((s.rings 0).tail = 2 ∧ (s.rings 0).published 1 = false) ∧ Waits .twoNodes 65 s s' ∧
      (s'.threads 65).pc = .idle := by
  obtain ⟨s, hs, htail, hpub, hhelp⟩ : ∃ s,
      (machine .twoNodes).exec shortNhcRun (initial .twoNodes) (List.flatten [
        [.logStore 0 cxlNhcStart, .thread 0, .release 0], List.replicate 10 (.thread 0),
        [.logStore 1 cxlNhcStart, .thread 1, .release 1], List.replicate 6 (.thread 1),
        [.objStore 0 0, .acquire 65 0]]) = some s ∧
      (s.rings 0).tail = 2 ∧ (s.rings 0).published 1 = false ∧ ∃ h, (s.threads 65).pc = .help h :=
    ⟨_, rfl, by decide +kernel, by decide +kernel, _, rfl⟩
  obtain ⟨s', hwaits, hidle⟩ := acquire_can_return .twoNodes s 65
    (Machine.Run.exec (.init rfl) (fun _ _ => guard_of_shortNhcRun) hs) hhelp
  exact ⟨s, s', ⟨htail, hpub⟩, hwaits, hidle⟩

end Cluster

end RACoherence
