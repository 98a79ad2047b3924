import RACoherence.Cluster.Step
import RACoherence.LogManager.History

/-!
# The rings of a cluster

A step of the cluster takes at most one step of one ring, and never one that subscribes or
unsubscribes, so every ring of a cluster without 32-bit wrap keeps the invariant of
`RACoherence.LogManager`.
-/

namespace RACoherence

open Function LocalCLTable

namespace Cluster

variable (cfg : Config)

/-- The step of a ring that an action of the cluster takes, if any. -/
def ringAction (s : State) : Action → Option (ℕ × LogManager.Action)
  | .thread t =>
      let i := cfg.home t
      match (s.threads t).pc with
      | .getLog _ =>
          match (s.rings i).prod t with
          | .idle => some (i, .getNewLog t)
          | .hold _ => none
          | _ => some (i, .prod t)
      | .fill k [] => some (i, .produceTail t k.isRelease)
      | .fill _ (entry :: _) => some (i, .write t entry)
      | .produce _ => some (i, .prod t)
      | .help h =>
          match h.stage with
          | .take _ _ => some (h.i, .takeHead i)
          | .consuming _ _ => some (h.i, .cons i)
          | _ => none
      | _ => none
  | .agent n =>
      match s.agents n with
      | .batch i j _ => if j < logMaxBatch then some (i, .takeHead n) else none
      | .consuming i _ _ => some (i, .cons n)
      | _ => none
  | _ => none

/-- No 32-bit sum of the rings wraps in this step. -/
def NoWrap (s : State) (a : Action) : Prop :=
  ∀ i b, ringAction cfg s a = some (i, b) → LogManager.NoWrap cfg.toLogConfig (s.rings i) b

variable {cfg} {s s' : State} {a : Action}

/-- What a step does to the rings. -/
inductive RingEffect (cfg : Config) (s : State) (a : Action) (s' : State) : Prop
  | none : ringAction cfg s a = none → s'.rings = s.rings → RingEffect cfg s a s'
  | step {i : ℕ} {b : LogManager.Action} {r : LogManager.State} : ringAction cfg s a = some (i, b) →
      RingStep cfg s i b r → LogManager.NoSubscription b → s'.rings = update s.rings i r →
      RingEffect cfg s a s'

theorem ringEffect (hs : Step cfg s a s') : RingEffect cfg s a s' := by
  cases hs with
  | thread hs =>
      cases hs with
      | getNewLog hpc hprod hr => exact .step (by simp [ringAction, hpc, hprod]) hr trivial rfl
      | @getLogProd k r hpc hr =>
          refine .step ?_ hr trivial rfl
          simp only [ringAction, hpc]
          split
          · rename_i hprod
            simp [RingStep, LogManager.step, LogManager.stepProd, hprod] at hr
          · rename_i hprod
            simp [RingStep, LogManager.step, LogManager.stepProd, hprod] at hr
          · rfl
      | produceTail hpc hr => exact .step (by simp [ringAction, hpc]) hr trivial rfl
      | writeEntry hpc hr => exact .step (by simp [ringAction, hpc]) hr trivial rfl
      | publish hpc hprod hr => exact .step (by simp [ringAction, hpc]) hr trivial rfl
      | produceProd hpc hprod hr => exact .step (by simp [ringAction, hpc]) hr trivial rfl
      | _ => exact .none (by simp [ringAction, *]) rfl
  | help hpc hs =>
      cases hs with
      | take hst hr => exact .step (by simp [ringAction, hpc, hst]) hr trivial rfl
      | cons hst hr => exact .step (by simp [ringAction, hpc, hst]) hr trivial rfl
      | null hst hr => exact .step (by simp [ringAction, hpc, hst]) hr trivial rfl
      | consumed hst hr => exact .step (by simp [ringAction, hpc, hst]) hr trivial rfl
      | _ => exact .none (by simp [ringAction, *]) rfl
  | agent hn hs =>
      cases hs with
      | take hpc hj hr => exact .step (by simp [ringAction, hpc, hj]) hr trivial rfl
      | cons hpc hr => exact .step (by simp [ringAction, hpc]) hr trivial rfl
      | null hpc hr => exact .step (by simp [ringAction, hpc]) hr trivial rfl
      | consumed hpc hr => exact .step (by simp [ringAction, hpc]) hr trivial rfl
      | _ => exact .none (by simp [ringAction, *]) rfl
  | _ => exact .none rfl rfl

/-- Every ring has its records in order and, where there is a remote node, is safe. -/
structure RingsOk (cfg : Config) (s : State) : Prop where
  records : ∀ i, LogManager.Records (s.rings i)
  inv : ∀ i n, LogManager.Remote cfg.toLogConfig i n →
    LogManager.SubscribedInv cfg.toLogConfig i (s.rings i)

namespace RingsOk

theorem initial : RingsOk cfg (initial cfg) where
  records _ := LogManager.records_initial
  inv _ _ _ := LogManager.subscribedInv_initial

theorem step (h : RingsOk cfg s) (hwrap : NoWrap cfg s a) (hs : Step cfg s a s') :
    RingsOk cfg s' ∧ ∀ i, LogManager.Extends (s.rings i) (s'.rings i) := by
  cases ringEffect hs with
  | none _ heq =>
      refine ⟨⟨fun i => ?_, fun i n hn => ?_⟩, fun i => ?_⟩ <;> rw [heq]
      · exact h.records i
      · exact h.inv i n hn
      · exact LogManager.Extends.refl _
  | @step i b r ha hr hno heq =>
      have hrec := (h.records i).step (hwrap i b ha) (LogManager.step_cases hr)
      refine ⟨⟨fun k => ?_, fun k n hn => ?_⟩, fun k => ?_⟩ <;> rw [heq, update_apply]
      · split
        · exact hrec.1
        · exact h.records k
      · split
        · rename_i hk
          subst hk
          have hinv := h.inv k n hn
          exact hinv.step hno (hwrap k b ha) (hinv.2.recyclesLoaded hinv.1 hn) hr
        · exact h.inv k n hn
      · split
        · rename_i hk
          subst hk
          exact hrec.2
        · exact LogManager.Extends.refl _

end RingsOk

/-! ## Consumers -/

/-- The head of node `n` in the ring of node `i`. -/
def State.head (s : State) (n i : ℕ) : ℕ := ((s.rings i).subs n).head

/-- What a node has passed is published. -/
theorem RingsOk.published (h : RingsOk cfg s) {n i : ℕ} (hn : LogManager.Remote cfg.toLogConfig i n)
    {j : ℕ} (hj : j < s.head n i) : (s.rings i).published j = true := by
  obtain ⟨hinv, hall⟩ := h.inv i n hn
  refine (hinv.stable n (hall.stable hn)).published j ?_ hj
  rw [hall.base]
  exact Nat.zero_le j

/-- A step of a consumer that does not end `take_head` … `consume_head`, or ends it. -/
theorem consOutcome_spec {r r' : LogManager.State} {n i : ℕ}
    (hinv : LogManager.SubscribedInv cfg.toLogConfig i r)
    (hn : LogManager.Remote cfg.toLogConfig i n)
    (hwrap : LogManager.NoWrap cfg.toLogConfig r (.cons n))
    (hr : LogManager.step cfg.toLogConfig i (flushesCache 0) r (.cons n) = some r') :
    match consOutcome n r r' with
    | none => (r'.subs n).head = (r.subs n).head
    | some .null => (r'.subs n).head = (r.subs n).head
    | some (.consumed c) => (r'.subs n).head = (r.subs n).head + 1 ∧
        r.published (r.subs n).head = true ∧ c = (r.hist (r.subs n).head).clk (r.subs n).head := by
  cases LogManager.step_cases hr with
  | @storeHead m h clk hpc =>
      obtain ⟨hpub, rfl, hclk⟩ := hinv.1.cons_at hpc
      have hincr : LogManager.incr (r.subs n).head = (r.subs n).head + 1 := by
        refine LogManager.incr_eq ?_
        simpa only [LogManager.NoWrap, hpc] using hwrap
      simp only [consOutcome, hpc, LogManager.State.setCons, update_self, hincr]
      exact ⟨trivial, hpub, hclk (hinv.2.stable hn)⟩
  | @takeNull m h hpc hne => simp [consOutcome, hpc, LogManager.State.setCons]
  | @takeEntry m h hpc heq => simp [consOutcome, hpc, LogManager.State.setCons]
  | _ =>
      rename_i hpc
      simp [consOutcome, *, LogManager.State.setCons]

end Cluster

end RACoherence
