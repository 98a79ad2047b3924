import RACoherence.Cluster.Clocks

/-!
# What clocks name

Every component of a clock that is not zero is the index of a published release of its node, in the
clocks of threads, of synchronisation objects, and of what a thread is acquiring. A thread that releases
has reserved an index that its own component has not reached.
-/

namespace RACoherence

open Function LocalCLTable

namespace Cluster

variable {cfg : Config} {s s' : State} {a : Action}

/-- What a step does to the clock of thread `t`. -/
inductive ClockEffect (cfg : Config) (s s' : State) (t : ℕ) : Prop
  | same : (s'.threads t).clock = (s.threads t).clock → ClockEffect cfg s s' t
  | release {clk : ℕ} : (s.threads t).pc = .finish .release clk →
      (s'.threads t).clock = (s.threads t).clock.assign (cfg.home t) clk → ClockEffect cfg s s' t
  | merge {h : Help} : (s.threads t).pc = .help h → h.stage = .merge → h.i < cfg.nodeCount →
      (s'.threads t).clock =
        (s.threads t).clock.assign h.i (max ((s.threads t).clock h.i) (s.read h.target h.i)) →
      ClockEffect cfg s s' t

theorem clockEffect (hs : Step cfg s a s') (t : ℕ) : ClockEffect cfg s s' t := by
  cases hs with
  | @thread u s' hs =>
      by_cases ht : t = u
      · subst ht
        cases hs with
        | finishRelease hpc => exact .release hpc (by simp [State.setThread])
        | _ => exact .same (by simp [State.setPc, State.setThread, State.setRing, State.emit])
      · refine .same ?_
        cases hs <;> simp [State.setPc, State.setThread, State.setRing, State.emit, ht]
  | @help u h s' hpc hs =>
      by_cases ht : t = u
      · subst ht
        cases hs with
        | merge hst hi => exact .merge hpc hst hi (by simp [State.setThread])
        | _ =>
            exact .same (by
              simp [State.setPc, State.setThread, State.setRing, State.setMtx, State.setClock, State.emit])
      · refine .same ?_
        cases hs <;>
          simp [State.setPc, State.setThread, State.setRing, State.setMtx, State.setClock, State.emit, ht]
  | agent hm hs => cases hs <;> exact .same rfl
  | releaseNothing => exact .same rfl
  | objStore => exact .same rfl
  | objMerge => exact .same rfl
  | _ =>
      refine .same ?_
      simp only [State.setPc, State.setThread, update_apply]
      split <;> simp_all

/-- Where the target of a thread in `thread_acquire` comes from. -/
theorem target_cases (hs : Step cfg s a s') {t : ℕ} {h' : Help} (hpc' : (s'.threads t).pc = .help h') :
    (∃ h, (s.threads t).pc = .help h ∧ h'.target = h.target) ∨ (∃ o, h'.target = .copy (s.objs o)) ∨
      ∃ p, h'.target = .parent p ∧ cfg.home p = cfg.home t := by
  cases hs with
  | @thread u s' hs =>
      cases hs <;>
        simp only [State.setPc, State.setThread, State.setRing, State.emit, update_apply] at hpc' <;>
        grind
  | @help u h s' hpc hs =>
      cases hs <;>
        simp only [State.setPc, State.setThread, State.setRing, State.setMtx, State.setClock, State.emit,
          update_apply] at hpc' <;>
        grind
  | agent hm hs => cases hs <;> exact .inl ⟨h', hpc', rfl⟩
  | releaseNothing => exact .inl ⟨h', hpc', rfl⟩
  | objStore => exact .inl ⟨h', hpc', rfl⟩
  | objMerge => exact .inl ⟨h', hpc', rfl⟩
  | _ =>
      simp only [State.setPc, State.setThread, update_apply] at hpc'
      grind

theorem eq_of_producer {t i : ℕ} {b : LogManager.Action} (ha : ringAction cfg s a = some (i, b))
    (hb : b.producer = some t) : a = .thread t ∧ i = cfg.home t := by
  cases a with
  | thread u =>
      simp only [ringAction] at ha
      split at ha
      · split at ha <;> cases ha <;> cases hb <;> exact ⟨rfl, rfl⟩
      · cases ha; cases hb; exact ⟨rfl, rfl⟩
      · cases ha; cases hb; exact ⟨rfl, rfl⟩
      · cases ha; cases hb; exact ⟨rfl, rfl⟩
      · split at ha <;> cases ha <;> cases hb
      · cases ha
  | agent n =>
      simp only [ringAction] at ha
      split at ha
      · split at ha <;> cases ha
        cases hb
      · cases ha; cases hb
      · cases ha
  | _ => cases ha

/-- A step that is not the thread's own leaves it alone in the rings. -/
theorem prod_step {t : ℕ} (hs : Step cfg s a s') (hne : a ≠ .thread t) (i : ℕ) :
    (s'.rings i).prod t = (s.rings i).prod t := by
  cases ringEffect hs with
  | none _ heq => rw [heq]
  | @step k b r ha hr hno heq =>
      rw [heq, update_apply]
      split
      · rename_i hk
        subst hk
        refine LogManager.prod_of_ne (LogManager.step_cases hr) fun hb => hne ?_
        exact (eq_of_producer ha hb).1
      · rfl

/-- Where a call of a thread starts. -/
def ThreadPc.begins : ThreadPc → Bool
  | .store _ | .getLog _ | .help _ => true
  | .idle | .fill _ _ | .produce _ | .finish _ _ => false

/-- A step that is not the thread's own leaves it alone, or calls it. -/
theorem thread_of_ne {t : ℕ} (hs : Step cfg s a s') (hne : a ≠ .thread t) :
    s'.threads t = s.threads t ∨ (s.threads t).pc = .idle ∧ (s'.threads t).pc.begins = true := by
  refine (call_of_ne hs hne).imp_right fun ⟨hidle, hcall⟩ => ⟨hidle, ?_⟩
  generalize s'.threads t = th at hcall
  cases hcall <;> rfl

/-- What the clocks name, and what a thread in `produce_tail` is about to name. -/
structure Releases (cfg : Config) (s : State) : Prop where
  thread : ∀ t i, LogManager.Named (s.rings i) ((s.threads t).clock i)
  obj : ∀ o i, LogManager.Named (s.rings i) (s.objs o i)
  target : ∀ t h c, (s.threads t).pc = .help h → h.target = .copy c → ∀ i,
    LogManager.Named (s.rings i) (c i)
  produce : ∀ t k r j, (s.threads t).pc = .produce k →
    ((s.rings (cfg.home t)).prod t).publishing = some (r, j) →
      r = k.isRelease ∧ (s.threads t).clock (cfg.home t) ≤ j
  finish : ∀ t k clk, (s.threads t).pc = .finish k clk → ∃ j, clk = j + 1 ∧
    (s.rings (cfg.home t)).published j = true ∧
    ((s.rings (cfg.home t)).hist j).isRel = k.isRelease ∧ (s.threads t).clock (cfg.home t) ≤ j

namespace Releases

theorem initial : Releases cfg (initial cfg) where
  thread _ _ h := absurd rfl h
  obj _ _ h := absurd rfl h
  target _ _ _ h := by cases h
  produce _ _ _ _ h := by cases h
  finish _ _ _ h := by cases h

/-- What a thread reads of its target is named. -/
theorem read (h : Releases cfg s) {t : ℕ} {hp : Help} (hpc : (s.threads t).pc = .help hp) (i : ℕ) :
    LogManager.Named (s.rings i) (s.read hp.target i) := by
  cases htarget : hp.target with
  | copy c => exact h.target t hp c hpc htarget i
  | parent p => exact h.thread p i

/-- The clock that `thread_release` assigns. -/
theorem isRelease_finish (h : Releases cfg s) {t clk : ℕ} (hpc : (s.threads t).pc = .finish .release clk) :
    LogManager.IsRelease (s.rings (cfg.home t)) clk ∧ (s.threads t).clock (cfg.home t) ≤ clk := by
  obtain ⟨j, rfl, hpub, hrel, hle⟩ := h.finish t _ _ hpc
  exact ⟨⟨j, rfl, hpub, hrel⟩, by omega⟩

theorem thread_step (h : Releases cfg s) (hok : RingsOk cfg s) (hwrap : NoWrap cfg s a)
    (hs : Step cfg s a s') (t i : ℕ) : LogManager.Named (s'.rings i) ((s'.threads t).clock i) := by
  have hext := (hok.step hwrap hs).2 i
  have hold := h.thread t i
  refine LogManager.Named.extend ?_ hext
  cases clockEffect hs t with
  | same heq => rwa [heq]
  | release hpc heq =>
      rw [heq, VectorClock.assign, update_apply]
      split
      · rename_i hi
        subst hi
        exact fun _ => (h.isRelease_finish hpc).1
      · exact hold
  | @merge hp hpc hst hi heq =>
      rw [heq, VectorClock.assign, update_apply]
      split
      · rename_i hi
        subst hi
        exact hold.max (h.read hpc _)
      · exact hold

theorem obj_step (h : Releases cfg s) (hok : RingsOk cfg s) (hwrap : NoWrap cfg s a)
    (hs : Step cfg s a s') (o i : ℕ) : LogManager.Named (s'.rings i) (s'.objs o i) := by
  have hext := (hok.step hwrap hs).2 i
  have hold := h.obj o i
  refine LogManager.Named.extend ?_ hext
  cases hs with
  | @objStore t o' hpc =>
      simp only [update_apply]
      split
      · exact h.thread t i
      · exact hold
  | @objMerge t o' hpc =>
      simp only [update_apply]
      split
      · rename_i ho
        subst ho
        exact hold.max (h.thread t i)
      · exact hold
  | thread hs => cases hs <;> exact hold
  | help hpc hs => cases hs <;> exact hold
  | agent hm hs => cases hs <;> exact hold
  | _ => exact hold

theorem target_step (h : Releases cfg s) (hok : RingsOk cfg s) (hwrap : NoWrap cfg s a)
    (hs : Step cfg s a s') (t : ℕ) (hp : Help) (c : VectorClock) (hpc : (s'.threads t).pc = .help hp)
    (hc : hp.target = .copy c) (i : ℕ) : LogManager.Named (s'.rings i) (c i) := by
  refine LogManager.Named.extend ?_ ((hok.step hwrap hs).2 i)
  rcases target_cases hs hpc with ⟨hp', hpc', heq⟩ | ⟨o, heq⟩ | ⟨p, heq, -⟩
  · exact h.target t hp' c hpc' (heq ▸ hc) i
  · obtain rfl : s.objs o = c := by
      rw [heq] at hc
      exact Target.copy.inj hc
    exact h.obj o i
  · rw [heq] at hc
    cases hc

theorem produce_step (h : Releases cfg s) (hok : RingsOk cfg s) (hs : Step cfg s a s') (t : ℕ) (k : Purpose)
    (r : Bool) (j : ℕ) (hpc : (s'.threads t).pc = .produce k)
    (hpub : ((s'.rings (cfg.home t)).prod t).publishing = some (r, j)) :
    r = k.isRelease ∧ (s'.threads t).clock (cfg.home t) ≤ j := by
  have hold := h.produce t k r j
  by_cases ha : a = .thread t
  · subst ha
    cases hs with
    | thread hs =>
        cases hs with
        | @produceTail k' ring hpc' hr =>
            -- the index is the tail, which is not below any clock
            have hle := (h.thread t (cfg.home t)).le_tail (hok.records _)
            cases LogManager.step_cases hr
            simp only [State.setPc, State.setThread, State.setRing, update_self,
              LogManager.State.setProd, LogManager.ProdPc.publishing, Option.some.injEq,
              Prod.mk.injEq, ThreadPc.produce.injEq] at hpc hpub ⊢
            obtain ⟨rfl, rfl⟩ := hpub
            subst hpc
            exact ⟨rfl, hle⟩
        | @produceProd k' ring hpc' hne hr =>
            simp only [State.setRing, update_self] at hpub
            exact hold hpc (LogManager.publishing_of_prod (LogManager.step_cases hr) hpub)
        | _ =>
            simp_all [State.setPc, State.setThread, State.setRing, State.emit]
    | help hp hs =>
        cases hs <;>
          simp_all [State.setPc, State.setThread, State.setRing, State.setMtx, State.setClock, State.emit]
  · rw [prod_step hs ha] at hpub
    rcases thread_of_ne hs ha with heq | ⟨-, hbegins⟩
    · rw [heq] at hpc ⊢
      exact hold hpc hpub
    · rw [hpc] at hbegins
      cases hbegins

theorem finish_step (h : Releases cfg s) (hok : RingsOk cfg s) (hwrap : NoWrap cfg s a)
    (hs : Step cfg s a s') (t : ℕ) (k : Purpose) (clk : ℕ) (hpc : (s'.threads t).pc = .finish k clk) :
    ∃ j, clk = j + 1 ∧ (s'.rings (cfg.home t)).published j = true ∧
      ((s'.rings (cfg.home t)).hist j).isRel = k.isRelease ∧ (s'.threads t).clock (cfg.home t) ≤ j := by
  have hext := (hok.step hwrap hs).2 (cfg.home t)
  -- whoever is past `produce_tail` stays so
  have hkeep : s'.threads t = s.threads t → ∃ j, clk = j + 1 ∧ (s'.rings (cfg.home t)).published j = true ∧
      ((s'.rings (cfg.home t)).hist j).isRel = k.isRelease ∧
      (s'.threads t).clock (cfg.home t) ≤ j := by
    intro heq
    rw [heq] at hpc ⊢
    obtain ⟨j, hclk, hpub, hrel, hle⟩ := h.finish t k clk hpc
    obtain ⟨hpub', hhist⟩ := hext j hpub
    exact ⟨j, hclk, hpub', by rw [hhist, hrel], hle⟩
  by_cases ha : a = .thread t
  · subst ha
    cases hs with
    | thread hs =>
        cases hs with
        | @publish k' log j rel ring hpc' hprod hr =>
            have hrec := (hok.records (cfg.home t)).reserved t
            have htail := (hok.records (cfg.home t)).tail_lt
            rw [hprod] at hrec
            obtain ⟨hlt, hrel⟩ := hrec
            obtain ⟨rfl, hle⟩ := h.produce t k' rel j hpc' (by rw [hprod]; rfl)
            simp only [State.setPc, State.setThread, State.setRing, State.emit, update_self,
              ThreadPc.finish.injEq] at hpc ⊢
            obtain ⟨rfl, rfl⟩ := hpc
            refine ⟨j, LogManager.incr_eq (by omega), ?_⟩
            simp only [RingStep, LogManager.step, LogManager.stepProd, hprod, Option.some.injEq] at hr
            subst hr
            exact ⟨by simp [LogManager.State.setProd], hrel, hle⟩
        | _ =>
            simp_all [State.setPc, State.setThread, State.setRing, State.emit]
    | help hp hs =>
        cases hs <;>
          simp_all [State.setPc, State.setThread, State.setRing, State.setMtx, State.setClock, State.emit]
  · rcases thread_of_ne hs ha with heq | ⟨-, hbegins⟩
    · exact hkeep heq
    · rw [hpc] at hbegins
      cases hbegins

theorem step (h : Releases cfg s) (hok : RingsOk cfg s) (hwrap : NoWrap cfg s a) (hs : Step cfg s a s') :
    Releases cfg s' :=
  ⟨h.thread_step hok hwrap hs, h.obj_step hok hwrap hs, h.target_step hok hwrap hs,
    h.produce_step hok hs, h.finish_step hok hwrap hs⟩

end Releases

end Cluster

end RACoherence
