import RACoherence.Cluster.Coherence

/-!
# Where a producer is in its ring

A thread is in `get_new_log` of its ring before it copies its table, holds a log while it does, and is in
`produce_tail` afterwards. The log that `get_new_log` returns is empty.
-/

namespace RACoherence

open Function

namespace LogManager

variable {cfg : LogConfig} {nid : ℕ} {stops : ℕ → Bool} {s s' : State}

/-- The thread is in `get_new_log`. -/
def ProdPc.getting : ProdPc → Bool
  | .idle | .hold _ | .storeRel .. | .storeLog .. | .storeIdx .. => false
  | _ => true

/-- A step in `get_new_log` stays there, returns `nullptr`, or returns an empty log. -/
theorem getting_step {t : ℕ} (hpc : (s.prod t).getting = true) (hs : Step cfg nid stops s (.prod t) s') :
    (s'.prod t).getting = true ∨ s'.prod t = .idle ∨
      ∃ log, s'.prod t = .hold log ∧ (s'.buf log).size = 0 := by
  cases hs with
  | @reset _ log hreset =>
      exact .inr (.inr ⟨log, by simp [State.setProd], by simp [State.setProd, Log.reset]⟩)
  | unlockNull hnull => exact .inr (.inl (by simp [State.setProd]))
  | _ => simp_all [State.setProd, State.take, ProdPc.getting]

/-- A consumer leaves the producers, the logs and the indices alone. -/
theorem producing_of_consumer {a : Action} (hs : Step cfg nid stops s a s') (ha : a.producer = none) :
    s'.prod = s.prod ∧ s'.buf = s.buf ∧ s'.tail = s.tail ∧ s'.published = s.published := by
  cases hs <;> first | exact ⟨rfl, rfl, rfl, rfl⟩ | cases ha

end LogManager

namespace Cluster

variable {cfg : Config} {s s' : State} {a : Action}

/-- Where a thread can be in its ring. -/
def ProdOk (buf : ℕ → Log) (prod : LogManager.ProdPc) : ThreadPc → Prop
  | .getLog _ => prod = .idle ∨ prod.getting = true ∨ ∃ log, prod = .hold log ∧ (buf log).size = 0
  | .fill _ _ => ∃ log, prod = .hold log
  | .produce _ => ∃ j, prod.reserved = some j
  | .idle | .store _ | .finish _ _ | .help _ => prod = .idle

/-- Every thread is in the ring of its node where its own position says, and in no other. -/
structure Producers (cfg : Config) (s : State) : Prop where
  own : ∀ t, ProdOk (s.rings (cfg.home t)).buf ((s.rings (cfg.home t)).prod t) (s.threads t).pc
  other : ∀ i t, cfg.home t ≠ i → (s.rings i).prod t = .idle

theorem Producers.initial : Producers cfg (initial cfg) := ⟨fun _ => rfl, fun _ _ _ => rfl⟩

/-- A call begins outside the ring. -/
theorem ProdOk.of_begins {buf : ℕ → Log} {prod : LogManager.ProdPc} {pc : ThreadPc} (h : prod = .idle)
    (hpc : pc.begins = true) : ProdOk buf prod pc := by
  cases pc with
  | getLog k => exact .inl h
  | store | help => exact h
  | _ => cases hpc

/-- Whoever has reserved an index is in `produce_tail`. -/
theorem Producers.pc_of_reserved {t j : ℕ} (h : Producers cfg s)
    (hres : ((s.rings (cfg.home t)).prod t).reserved = some j) : ∃ k, (s.threads t).pc = .produce k := by
  have hown := h.own t
  cases hpc : (s.threads t).pc with
  | produce k => exact ⟨k, rfl⟩
  | getLog k =>
      rw [hpc] at hown
      rcases hown with hprod | hprod | ⟨log, hprod, -⟩
      · simp [hprod, LogManager.ProdPc.reserved] at hres
      · cases hcase : (s.rings (cfg.home t)).prod t <;>
          simp_all [LogManager.ProdPc.reserved, LogManager.ProdPc.getting]
      · simp [hprod, LogManager.ProdPc.reserved] at hres
  | fill k rest =>
      rw [hpc] at hown
      obtain ⟨log, hprod⟩ := hown
      simp [hprod, LogManager.ProdPc.reserved] at hres
  | _ =>
      rw [hpc] at hown
      rw [show (s.rings (cfg.home t)).prod t = .idle from hown] at hres
      cases hres

theorem Producers.thread {t : ℕ} (h : Producers cfg s) (hs : ThreadStep cfg s t s') :
    ProdOk (s'.rings (cfg.home t)).buf ((s'.rings (cfg.home t)).prod t) (s'.threads t).pc := by
  have hold := h.own t
  cases hs with
  | doStore hpc =>
      rw [hpc] at hold
      rw [State.pc_setPc]
      exact hold
  | getNewLog hpc hprod hr =>
      cases LogManager.step_cases hr
      simp [ProdOk, State.setRing, hpc, LogManager.State.setProd, LogManager.ProdPc.getting]
  | @gotLog k log hpc hprod =>
      rw [State.pc_setPc]
      exact ⟨log, hprod⟩
  | getLogProd hpc hr =>
      rw [hpc] at hold
      simp only [State.setRing, update_self, hpc]
      rcases hold with hidle | hget | ⟨log, hlog, -⟩
      · simp [RingStep, LogManager.step, LogManager.stepProd, hidle] at hr
      · exact (LogManager.getting_step hget (LogManager.step_cases hr)).elim (fun h => .inr (.inl h))
          fun h => h.imp_right .inr
      · simp [RingStep, LogManager.step, LogManager.stepProd, hlog] at hr
  | produceTail hpc hr =>
      cases LogManager.step_cases hr
      rw [State.pc_setPc]
      exact ⟨(s.rings (cfg.home t)).tail, by
        simp [State.setPc, State.setThread, State.setRing, LogManager.State.setProd,
          LogManager.ProdPc.reserved]⟩
  | writeEntry hpc hr =>
      rw [hpc] at hold
      obtain ⟨log, hlog⟩ := hold
      cases LogManager.step_cases hr
      rw [State.pc_setPc]
      exact ⟨log, by simpa [State.setPc, State.setThread, State.setRing, State.emit] using hlog⟩
  | publish hpc hprod hr =>
      simp only [RingStep, LogManager.step, LogManager.stepProd, hprod, Option.some.injEq] at hr
      subst hr
      simp [State.setPc, State.setThread, State.setRing, State.emit, LogManager.State.setProd, ProdOk]
  | produceProd hpc hne hr =>
      rw [hpc] at hold
      obtain ⟨j, hj⟩ := hold
      simp only [State.setRing, update_self, hpc]
      exact ⟨j, (LogManager.reserved_of_prod (LogManager.step_cases hr) hne).trans hj⟩
  | finishFlush hpc | finishRelease hpc =>
      rw [hpc] at hold
      simp only [State.setThread, update_self]
      exact hold

/-- The step is not one of a producer. -/
def Consuming (cfg : Config) (s : State) (a : Action) : Prop :=
  ∀ i b, ringAction cfg s a = some (i, b) → b.producer = none

theorem consuming_of_help {t : ℕ} {h : Help} (hpc : (s.threads t).pc = .help h) :
    Consuming cfg s (.thread t) := by
  intro i b hb
  simp only [ringAction, hpc] at hb
  split at hb <;> simp at hb <;> obtain ⟨-, rfl⟩ := hb <;> rfl

theorem consuming_of_agent {n : ℕ} : Consuming cfg s (.agent n) := by
  intro i b hb
  simp only [ringAction] at hb
  split at hb
  · split at hb <;> simp at hb
    obtain ⟨-, rfl⟩ := hb
    rfl
  · simp at hb
    obtain ⟨-, rfl⟩ := hb
    rfl
  · cases hb

theorem Consuming.rings (hcons : Consuming cfg s a) (hs : Step cfg s a s') (i : ℕ) :
    (s'.rings i).prod = (s.rings i).prod ∧ (s'.rings i).buf = (s.rings i).buf ∧
      (s'.rings i).tail = (s.rings i).tail ∧ (s'.rings i).published = (s.rings i).published := by
  cases ringEffect hs with
  | none _ heq => simp [heq]
  | @step k b r ha hr hno heq =>
      rw [heq, update_apply]
      split
      · rename_i hk
        subst hk
        exact LogManager.producing_of_consumer (LogManager.step_cases hr) (hcons _ _ ha)
      · exact ⟨rfl, rfl, rfl, rfl⟩

theorem Producers.own_step (h : Producers cfg s) (hok : RingsOk cfg s) (hnodes : 1 < cfg.nodeCount)
    (hs : Step cfg s a s') (t : ℕ) :
    ProdOk (s'.rings (cfg.home t)).buf ((s'.rings (cfg.home t)).prod t) (s'.threads t).pc := by
  have hold := h.own t
  by_cases ha : a = .thread t
  · subst ha
    cases hs with
    | thread hs => exact h.thread hs
    | @help _ hp _ hpc hs =>
        obtain ⟨hprod, hbuf, -⟩ := (consuming_of_help hpc).rings (.help hpc hs) (cfg.home t)
        rw [hpc] at hold
        rw [hprod, hbuf]
        cases hs with
        | cons => rwa [← hpc] at hold
        | _ =>
            simp only [State.setPc, State.setThread, update_self]
            exact hold
  · rw [prod_step hs ha]
    rcases thread_of_ne hs ha with heq | ⟨hidle, hbegins⟩
    · rw [heq]
      cases hpc : (s.threads t).pc with
      | getLog k =>
          rw [hpc] at hold
          refine hold.imp_right (Or.imp_right ?_)
          rintro ⟨log, hlog, hsize⟩
          obtain ⟨n, hn⟩ := exists_remote hnodes (cfg.home t)
          exact ⟨log, hlog, by rwa [buf_step hok hn hs ha hlog]⟩
      | _ =>
          rw [hpc] at hold
          exact hold
    · rw [hidle] at hold
      exact .of_begins hold hbegins

theorem Producers.other_step (h : Producers cfg s) (hs : Step cfg s a s') {i t : ℕ} (hi : cfg.home t ≠ i) :
    (s'.rings i).prod t = .idle := by
  rw [← h.other i t hi]
  cases ringEffect hs with
  | none _ heq => rw [heq]
  | @step k b r ha hr hno heq =>
      rw [heq, update_apply]
      split
      · rename_i hk
        subst hk
        refine LogManager.prod_of_ne (LogManager.step_cases hr) fun hb => hi ?_
        exact (eq_of_producer ha hb).2.symm
      · rfl

theorem Producers.step (h : Producers cfg s) (hok : RingsOk cfg s) (hnodes : 1 < cfg.nodeCount)
    (hs : Step cfg s a s') : Producers cfg s' :=
  ⟨h.own_step hok hnodes hs, fun _ _ hi => h.other_step hs hi⟩

end Cluster

end RACoherence
