import RACoherence.Cluster.Coherence

/-!
# Waiting for the cache agent

Reference: `include/threadOps.hpp` (`wait_for_consume`) and `src/cacheAgent.cpp`, with `CONSUME_HELPING=0`,
and otherwise as in `RACoherence.Cluster`.

Without helping, the agent of a node is the only one to consume for it and takes no mutex, and a thread that
acquires waits until the cache clock has reached what it needs, node by node in rising order. The thread's
wait can be put off to the moment at which it ends, when it is one pass of `help_consume` that finds every
node done; so a run without helping is a run with helping, and what holds of those holds here.
-/

namespace RACoherence

open Function LocalCLTable

namespace Cluster

namespace Waiting

/-- Where a thread is in the loop of `wait_for_consume` over the nodes, or in `merge` after it. -/
inductive WaitStage
  | loop
  | isSubscribed
  | check
  | compare (clk : ℕ)
  | merge
  deriving DecidableEq, Repr

/-- The local variables of `wait_for_consume` and `merge`. -/
structure Wait where
  target : Target
  i : ℕ
  stage : WaitStage

/-- The members are those of the cluster, of which the mutexes are not used. A thread that acquires is in
`waits`, and its position in `cluster` stays `idle`. -/
structure State where
  cluster : Cluster.State
  waits : ℕ → Option Wait

variable (cfg : Config)

def initial : State := ⟨Cluster.initial cfg, fun _ => none⟩

namespace State

/-- Set the local variables of thread `t` in `wait_for_consume`, or return from it. -/
def setWait (s : State) (t : ℕ) (w : Option Wait) : State := { s with waits := update s.waits t w }

/-- Do something outside of `wait_for_consume`. -/
def setCluster (s : State) (c : Cluster.State) : State := { s with cluster := c }

end State

/-- The next step of thread `t` in `thread_acquire`. -/
def stepWait (s : State) (t : ℕ) (w : Wait) : Option State :=
  let n := cfg.home t
  match w.stage with
  | .loop =>
      if w.i < cfg.nodeCount then
        if w.i = n then some (s.setWait t (some { w with i := w.i + 1 }))
        else some (s.setWait t (some { w with stage := .isSubscribed }))
      else some (s.setWait t (some { w with i := 0, stage := .merge }))
  | .isSubscribed =>
      if ((s.cluster.rings w.i).subs n).isSubbed then some (s.setWait t (some { w with stage := .check }))
      else some (s.setWait t (some { w with i := w.i + 1, stage := .loop }))
  | .check => some (s.setWait t (some { w with stage := .compare (s.cluster.clock n w.i) }))
  | .compare clk =>
      if clk < s.cluster.read w.target w.i then some (s.setWait t (some { w with stage := .check }))
      else some (s.setWait t (some { w with i := w.i + 1, stage := .loop }))
  | .merge =>
      -- `thread_clock.merge(clock)`, one component at a time, and `thread_acquire` returns
      if w.i < cfg.nodeCount then
        let c := (s.cluster.threads t).clock
        some ((s.setCluster (s.cluster.setThread t { s.cluster.threads t with
          clock := c.assign w.i (max (c w.i) (s.cluster.read w.target w.i)) })).setWait t
            (some { w with i := w.i + 1 }))
      else some (s.setWait t none)

/-- The next step of thread `t`. -/
def stepThread (s : State) (t : ℕ) : Option State :=
  match s.waits t, (s.cluster.threads t).pc with
  | some w, _ => stepWait cfg s t w
  | none, .help _ => none
  | none, _ => (Cluster.stepThread cfg s.cluster t).map s.setCluster

/-- The next step of the agent of node `n`. -/
def stepAgent (s : State) (n : ℕ) : Option State :=
  match s.cluster.agents n with
  | .loop i =>
      if cfg.nodeCount ≤ i then some (s.setCluster (s.cluster.setAgent n (.loop 0)))
      else if i = n ∨ ¬ ((s.cluster.rings i).subs n).isSubbed then
        some (s.setCluster (s.cluster.setAgent n (.loop (i + 1))))
      else some (s.setCluster (s.cluster.setAgent n (.batch i 0 0)))
  | .batch _ _ _ | .consuming _ _ _ => (Cluster.stepAgent cfg s.cluster n).map s.setCluster
  | .update i clk =>
      if clk = 0 then some (s.setCluster (s.cluster.setAgent n (.loop (i + 1))))
      else some (s.setCluster ((s.cluster.setClock n i clk).setAgent n (.loop (i + 1))))
  | .tryLock _ | .unlock _ => none

/-- A call of thread `t` other than `thread_acquire`. -/
def stepCall (s : State) (t : ℕ) (a : Action) : Option State :=
  if (s.waits t).isSome then none else (Cluster.step cfg s.cluster a).map s.setCluster

/-- One step; `none` when the action is not enabled. -/
def step (s : State) : Action → Option State
  | .logStore t addr => stepCall cfg s t (.logStore t addr)
  | .release t => stepCall cfg s t (.release t)
  | .objStore t o => stepCall cfg s t (.objStore t o)
  | .objMerge t o => stepCall cfg s t (.objMerge t o)
  | .acquire t o =>
      match s.waits t, (s.cluster.threads t).pc with
      | none, .idle => some (s.setWait t (some ⟨.copy (s.cluster.objs o), 0, .loop⟩))
      | _, _ => none
  | .create p c =>
      match s.waits p, (s.cluster.threads p).pc, s.waits c, (s.cluster.threads c).pc with
      | none, .idle, none, .idle =>
          if c ≠ p ∧ cfg.home c = cfg.home p then some (s.setWait c (some ⟨.parent p, 0, .loop⟩)) else none
      | _, _, _, _ => none
  | .thread t => stepThread cfg s t
  | .agent n => if n < cfg.nodeCount then stepAgent cfg s n else none

/-- The cluster without helping as a transition system. -/
def machine : Machine State Action where
  init s := s = initial cfg
  step := step cfg

/-! ## The transitions -/

/-- The transitions of a thread in `thread_acquire`. -/
inductive WaitStep (s : State) (t : ℕ) (w : Wait) : State → Prop
  | skip : w.stage = .loop → w.i = cfg.home t → WaitStep s t w (s.setWait t (some { w with i := w.i + 1 }))
  | next : w.stage = .loop → w.i < cfg.nodeCount → w.i ≠ cfg.home t →
      WaitStep s t w (s.setWait t (some { w with stage := .isSubscribed }))
  | reachedAll : w.stage = .loop → cfg.nodeCount ≤ w.i →
      WaitStep s t w (s.setWait t (some { w with i := 0, stage := .merge }))
  | subscribed : w.stage = .isSubscribed →
      WaitStep s t w (s.setWait t (some { w with stage := .check }))
  | unsubscribed : w.stage = .isSubscribed →
      ((s.cluster.rings w.i).subs (cfg.home t)).isSubbed = false →
      WaitStep s t w (s.setWait t (some { w with i := w.i + 1, stage := .loop }))
  | check {clk : ℕ} : w.stage = .check → clk = s.cluster.clock (cfg.home t) w.i →
      WaitStep s t w (s.setWait t (some { w with stage := .compare clk }))
  | behind {clk : ℕ} : w.stage = .compare clk →
      WaitStep s t w (s.setWait t (some { w with stage := .check }))
  | reached {clk : ℕ} : w.stage = .compare clk → s.cluster.read w.target w.i ≤ clk →
      WaitStep s t w (s.setWait t (some { w with i := w.i + 1, stage := .loop }))
  | merge : w.stage = .merge → w.i < cfg.nodeCount →
      WaitStep s t w ((s.setCluster (s.cluster.setThread t { s.cluster.threads t with
        clock := (s.cluster.threads t).clock.assign w.i
          (max ((s.cluster.threads t).clock w.i) (s.cluster.read w.target w.i)) })).setWait t
            (some { w with i := w.i + 1 }))
  | return_ : w.stage = .merge → cfg.nodeCount ≤ w.i → WaitStep s t w (s.setWait t none)

/-- The transitions of an agent. -/
inductive AgentStep (s : State) (n : ℕ) : State → Prop
  | restart {i : ℕ} : s.cluster.agents n = .loop i → cfg.nodeCount ≤ i →
      AgentStep s n (s.setCluster (s.cluster.setAgent n (.loop 0)))
  | skip {i : ℕ} : s.cluster.agents n = .loop i → i < cfg.nodeCount →
      i = n ∨ ((s.cluster.rings i).subs n).isSubbed = false →
      AgentStep s n (s.setCluster (s.cluster.setAgent n (.loop (i + 1))))
  | next {i : ℕ} : s.cluster.agents n = .loop i → i < cfg.nodeCount → i ≠ n →
      ((s.cluster.rings i).subs n).isSubbed = true →
      AgentStep s n (s.setCluster (s.cluster.setAgent n (.batch i 0 0)))
  | consume {c : Cluster.State} : (s.cluster.agents n).holds = true →
      (∀ i clk, s.cluster.agents n ≠ .update i clk) → (∀ i, s.cluster.agents n ≠ .unlock i) →
      Cluster.stepAgent cfg s.cluster n = some c → AgentStep s n (s.setCluster c)
  | updateNone {i : ℕ} : s.cluster.agents n = .update i 0 →
      AgentStep s n (s.setCluster (s.cluster.setAgent n (.loop (i + 1))))
  | update {i clk : ℕ} : s.cluster.agents n = .update i clk → clk ≠ 0 →
      AgentStep s n (s.setCluster ((s.cluster.setClock n i clk).setAgent n (.loop (i + 1))))

/-- The thread that makes a call other than `thread_acquire`. -/
def caller : Action → Option ℕ
  | .logStore t _ | .release t | .objStore t _ | .objMerge t _ => some t
  | .acquire _ _ | .create _ _ | .thread _ | .agent _ => none

/-- The transitions. -/
inductive Step (s : State) : Action → State → Prop
  | call {t : ℕ} {a : Action} {c : Cluster.State} : caller a = some t → s.waits t = none →
      Cluster.step cfg s.cluster a = some c → Step s a (s.setCluster c)
  | acquire {t o : ℕ} : s.waits t = none → (s.cluster.threads t).pc = .idle →
      Step s (.acquire t o) (s.setWait t (some ⟨.copy (s.cluster.objs o), 0, .loop⟩))
  | create {p c : ℕ} : s.waits p = none → (s.cluster.threads p).pc = .idle → s.waits c = none →
      (s.cluster.threads c).pc = .idle → c ≠ p → cfg.home c = cfg.home p →
      Step s (.create p c) (s.setWait c (some ⟨.parent p, 0, .loop⟩))
  | thread {t : ℕ} {c : Cluster.State} : s.waits t = none → (∀ h, (s.cluster.threads t).pc ≠ .help h) →
      Cluster.stepThread cfg s.cluster t = some c → Step s (.thread t) (s.setCluster c)
  | wait {t : ℕ} {w : Wait} {s' : State} : s.waits t = some w → WaitStep cfg s t w s' →
      Step s (.thread t) s'
  | agent {n : ℕ} {s' : State} : n < cfg.nodeCount → AgentStep cfg s n s' → Step s (.agent n) s'

variable {cfg} {s s' : State} {a : Action}

theorem stepWait_cases {t : ℕ} {w : Wait} (hs : stepWait cfg s t w = some s') : WaitStep cfg s t w s' := by
  unfold stepWait at hs
  dsimp only at hs
  split at hs
  · split at hs
    · split at hs <;> cases hs
      · exact .skip ‹_› ‹_›
      · exact .next ‹_› ‹_› ‹_›
    · cases hs
      exact .reachedAll ‹_› (by omega)
  · rename_i hst
    split at hs <;> cases hs
    · exact .subscribed hst
    · rename_i hsub
      exact .unsubscribed hst (by simpa using hsub)
  · cases hs
    exact .check ‹_› rfl
  · split at hs <;> cases hs
    · exact .behind ‹_›
    · exact .reached ‹_› (by omega)
  · split at hs <;> cases hs
    · exact .merge ‹_› ‹_›
    · exact .return_ ‹_› (by omega)

theorem stepAgent_cases {n : ℕ} (hs : stepAgent cfg s n = some s') : AgentStep cfg s n s' := by
  unfold stepAgent at hs
  split at hs
  · rename_i i hpc
    split at hs
    · cases hs
      exact .restart hpc ‹_›
    · split at hs <;> cases hs
      · rename_i hskip
        exact .skip hpc (by omega) (by simpa using hskip)
      · rename_i hskip
        rw [not_or, not_not] at hskip
        exact .next hpc (by omega) hskip.1 hskip.2
  · rename_i hpc
    obtain ⟨c, hc, rfl⟩ := Option.map_eq_some_iff.mp hs
    exact .consume (by rw [hpc]; rfl) (by simp [hpc]) (by simp [hpc]) hc
  · rename_i hpc
    obtain ⟨c, hc, rfl⟩ := Option.map_eq_some_iff.mp hs
    exact .consume (by rw [hpc]; rfl) (by simp [hpc]) (by simp [hpc]) hc
  · rename_i i clk hpc
    split at hs <;> cases hs
    · rename_i hclk
      exact .updateNone (hclk ▸ hpc)
    · exact .update hpc ‹_›
  · cases hs
  · cases hs

theorem stepCall_cases {t : ℕ} (hcaller : caller a = some t) (hs : stepCall cfg s t a = some s') :
    Step cfg s a s' := by
  rw [stepCall] at hs
  split at hs
  · cases hs
  · rename_i hwait
    obtain ⟨c, hc, rfl⟩ := Option.map_eq_some_iff.mp hs
    exact .call hcaller (by simpa using hwait) hc

theorem step_cases (hs : step cfg s a = some s') : Step cfg s a s' := by
  cases a with
  | logStore t addr => exact stepCall_cases (t := t) rfl hs
  | release t => exact stepCall_cases (t := t) rfl hs
  | objStore t o => exact stepCall_cases (t := t) rfl hs
  | objMerge t o => exact stepCall_cases (t := t) rfl hs
  | acquire t o =>
      simp only [step] at hs
      split at hs <;> cases hs
      exact .acquire ‹_› ‹_›
  | create p c =>
      simp only [step] at hs
      split at hs
      · split at hs <;> cases hs
        rename_i h
        exact .create ‹_› ‹_› ‹_› ‹_› h.1 h.2
      · cases hs
  | thread t =>
      simp only [step, stepThread] at hs
      split at hs
      · exact .wait ‹_› (stepWait_cases hs)
      · cases hs
      · obtain ⟨c, hc, rfl⟩ := Option.map_eq_some_iff.mp hs
        exact .thread ‹_› ‹_› hc
  | agent n =>
      simp only [step] at hs
      split at hs
      · exact .agent ‹_› (stepAgent_cases hs)
      · cases hs

end Waiting

end Cluster

end RACoherence
