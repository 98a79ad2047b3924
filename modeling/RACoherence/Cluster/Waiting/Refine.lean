import RACoherence.Cluster.Waiting

/-!
# Waiting is a way of helping

`helping` reads a state without helping as one with helping: an agent that consumes has the mutex of its
node, and a thread that waits has called `thread_acquire` and not gone on. Every step is then some steps
with helping, or none; the wait is one pass of `help_consume` at its end.
-/

namespace RACoherence

open Function LocalCLTable

namespace Cluster

namespace Waiting

variable {cfg : Config} {s s' : State} {a : Action} {t : ℕ}

/-- The nodes that a pass of `help_consume` down to node `i` has found done. -/
def doneFrom (cfg : Config) (t i : ℕ) : ℕ → Bool :=
  fun j => decide (i ≤ j ∧ j < cfg.nodeCount ∧ j ≠ cfg.home t)

/-- Where `help_consume` is for a thread that waits, and where it has been when the wait is over. -/
def Wait.help (cfg : Config) (t : ℕ) (w : Wait) : Help :=
  match w.stage with
  | .merge => ⟨w.target, true, doneFrom cfg t 0, w.i, .merge⟩
  | _ => ⟨w.target, false, fun _ => false, 0, .loop⟩

/-- The state with helping. -/
def State.helping (cfg : Config) (s : State) : Cluster.State :=
  { s.cluster with
    headMtx := fun n => bif (s.cluster.agents n).holds then some .agent else none
    threads := fun t =>
      match s.waits t with
      | none => s.cluster.threads t
      | some w => { s.cluster.threads t with pc := .help (w.help cfg t) } }

/-! ## What `helping` does to the parts of a state -/

theorem helping_return (s : State) (hidle : (s.cluster.threads t).pc = .idle) :
    (s.setWait t none).helping cfg = (s.helping cfg).setPc t .idle := by
  have hthreads : ((s.setWait t none).helping cfg).threads =
      update (s.helping cfg).threads t { (s.helping cfg).threads t with pc := .idle } := by
    funext u
    rcases eq_or_ne u t with rfl | hut
    · simp only [State.helping, State.setWait, update_self, ← hidle]
      split <;> rfl
    · simp [State.helping, State.setWait, hut]
  exact congrArg (fun f => { s.helping cfg with threads := f }) hthreads

/-- The nodes before `i` are done, as long as the cache clock does not decrease. -/
structure WaitOk (cfg : Config) (c : Cluster.State) (t : ℕ) (w : Wait) : Prop where
  idle : (c.threads t).pc = .idle
  reached : w.stage ≠ .merge → ∀ v j, w.target = .copy v → j < w.i → j < cfg.nodeCount → j ≠ cfg.home t →
    v j ≤ c.clock (cfg.home t) j
  remote : w.stage ≠ .loop → w.stage ≠ .merge → w.i < cfg.nodeCount ∧ w.i ≠ cfg.home t
  compare : ∀ clk, w.stage = .compare clk → clk ≤ c.clock (cfg.home t) w.i

def WaitsOk (cfg : Config) (s : State) : Prop := ∀ t w, s.waits t = some w → WaitOk cfg s.cluster t w

/-- With two nodes or more, the cache clocks do not decrease. -/
def ClocksGrow (cfg : Config) (c c' : Cluster.State) : Prop :=
  1 < cfg.nodeCount → ∀ n i, c.clock n i ≤ c'.clock n i

/-- With two nodes or more, every node is subscribed to all others. -/
def Subscribed (cfg : Config) (c : Cluster.State) : Prop :=
  1 < cfg.nodeCount → ∀ i n, LogManager.Remote cfg.toLogConfig i n → ((c.rings i).subs n).isSubbed = true

theorem one_lt_nodeCount {j : ℕ} (hj : j < cfg.nodeCount) (hne : j ≠ cfg.home t) : 1 < cfg.nodeCount := by
  have := cfg.home_lt t
  omega

namespace WaitOk

variable {c c' : Cluster.State} {w w' : Wait}

theorem start {target : Target} (hidle : (c.threads t).pc = .idle) : WaitOk cfg c t ⟨target, 0, .loop⟩ :=
  ⟨hidle, fun _ _ _ _ hlt => absurd hlt (Nat.not_lt_zero _), fun hloop => absurd rfl hloop, nofun⟩

theorem frame (h : WaitOk cfg c t w) (hgrow : ClocksGrow cfg c c') (hidle : (c'.threads t).pc = .idle) :
    WaitOk cfg c' t w := by
  refine ⟨hidle, fun hst v j htarget hlt hj hne => ?_, h.remote, fun clk hst => ?_⟩
  · exact (h.reached hst v j htarget hlt hj hne).trans (hgrow (one_lt_nodeCount hj hne) _ _)
  · obtain ⟨hi, hne⟩ := h.remote (by simp [hst]) (by simp [hst])
    exact (h.compare clk hst).trans (hgrow (one_lt_nodeCount hi hne) _ _)

/-- The thread goes on with the next node. -/
theorem advance (h : WaitOk cfg c t w) (hst : w.stage ≠ .merge)
    (hi : w.i ≠ cfg.home t → ∀ v, w.target = .copy v → v w.i ≤ c.clock (cfg.home t) w.i) :
    WaitOk cfg c t { w with i := w.i + 1, stage := .loop } := by
  refine ⟨h.idle, fun _ v j htarget hlt hj hne => ?_, fun hloop => absurd rfl hloop, nofun⟩
  rcases Nat.lt_succ_iff_lt_or_eq.mp hlt with hlt | rfl
  · exact h.reached hst v j htarget hlt hj hne
  · exact hi hne v htarget

/-- The thread goes on with the same node. -/
theorem stage (h : WaitOk cfg c t w) (hst : w.stage ≠ .merge) {stage : WaitStage}
    (hremote : stage ≠ .loop → w.i < cfg.nodeCount ∧ w.i ≠ cfg.home t)
    (hcompare : ∀ clk, stage = .compare clk → clk ≤ c.clock (cfg.home t) w.i) :
    WaitOk cfg c t { w with stage := stage } :=
  ⟨h.idle, fun _ => h.reached hst, fun hloop _ => hremote hloop, hcompare⟩

/-- The thread merges the clock. -/
theorem merging {target : Target} {i : ℕ} (hidle : (c.threads t).pc = .idle) :
    WaitOk cfg c t ⟨target, i, .merge⟩ :=
  ⟨hidle, fun hst => absurd rfl hst, fun _ hst => absurd rfl hst, nofun⟩

theorem step (h : WaitOk cfg s.cluster t w) (hsub : Subscribed cfg s.cluster) (hs : WaitStep cfg s t w s')
    (hw' : s'.waits t = some w') : WaitOk cfg s'.cluster t w' := by
  cases hs with
  | skip hst hi =>
      obtain rfl : { w with i := w.i + 1 } = w' := by simpa [State.setWait] using hw'
      have hadvance := h.advance (by simp [hst]) fun hne => absurd hi hne
      rwa [← hst] at hadvance
  | next hst hi hne =>
      obtain rfl : { w with stage := .isSubscribed } = w' := by simpa [State.setWait] using hw'
      exact h.stage (by simp [hst]) (fun _ => ⟨hi, hne⟩) nofun
  | reachedAll hst hi =>
      obtain rfl : { w with i := 0, stage := .merge } = w' := by simpa [State.setWait] using hw'
      exact .merging h.idle
  | subscribed hst =>
      obtain rfl : { w with stage := .check } = w' := by simpa [State.setWait] using hw'
      exact h.stage (by simp [hst]) (fun _ => h.remote (by simp [hst]) (by simp [hst])) nofun
  | unsubscribed hst hno =>
      obtain ⟨hi, hne⟩ := h.remote (by simp [hst]) (by simp [hst])
      rw [hsub (one_lt_nodeCount hi hne) w.i (cfg.home t) ⟨cfg.home_lt t, hne.symm⟩] at hno
      cases hno
  | @check clk hst hclk =>
      obtain rfl : { w with stage := .compare clk } = w' := by simpa [State.setWait] using hw'
      refine h.stage (by simp [hst]) (fun _ => h.remote (by simp [hst]) (by simp [hst])) fun v hv => ?_
      cases hv
      exact hclk.le
  | behind hst =>
      obtain rfl : { w with stage := .check } = w' := by simpa [State.setWait] using hw'
      exact h.stage (by simp [hst]) (fun _ => h.remote (by simp [hst]) (by simp [hst])) nofun
  | @reached clk hst hle =>
      obtain rfl : { w with i := w.i + 1, stage := .loop } = w' := by simpa [State.setWait] using hw'
      refine h.advance (by simp [hst]) fun _ v htarget => ?_
      rw [htarget] at hle
      exact hle.trans (h.compare clk hst)
  | merge hst hi =>
      obtain rfl : { w with i := w.i + 1 } = w' := by simpa [State.setWait] using hw'
      rw [hst]
      exact .merging (by simpa [State.setWait, State.setCluster, Cluster.State.setThread] using h.idle)
  | return_ _ _ => simp [State.setWait] at hw'

end WaitOk

/-- A step outside of `thread_acquire` that is not the thread's own leaves it alone. -/
theorem threads_of_ne {c c' : Cluster.State} (hs : Cluster.step cfg c a = some c') (hne : a ≠ .thread t)
    (hcaller : caller a ≠ some t) (hacquire : ∀ o, a ≠ .acquire t o) (hcreate : ∀ p, a ≠ .create p t) :
    c'.threads t = c.threads t := by
  rcases call_of_ne (Cluster.step_cases hs) hne with heq | ⟨-, hcall⟩
  · exact heq
  · generalize c'.threads t = th at hcall
    cases hcall with
    | acquire => exact absurd rfl (hacquire _)
    | create _ => exact absurd rfl (hcreate _)
    | _ => exact absurd rfl hcaller

theorem WaitsOk.step (h : WaitsOk cfg s) (hsub : Subscribed cfg s.cluster)
    (hgrow : ClocksGrow cfg s.cluster s'.cluster) (hs : Step cfg s a s') : WaitsOk cfg s' := by
  intro t w hw
  cases hs with
  | @call u a c hcaller hwu hc =>
      have hut : u ≠ t := by
        rintro rfl
        simp [State.setCluster, hwu] at hw
      have hold := h t w hw
      refine hold.frame hgrow ?_
      have hother : ∀ b, caller b = none → a ≠ b := by
        rintro b hb rfl
        rw [hb] at hcaller
        cases hcaller
      have hthreads : c.threads t = s.cluster.threads t :=
        threads_of_ne hc (hother _ rfl) (fun ht => hut (Option.some.inj (hcaller.symm.trans ht)))
          (fun o => hother _ rfl) fun p => hother _ rfl
      rw [State.setCluster, hthreads]
      exact hold.idle
  | @acquire u o hwu hidle =>
      simp only [State.setWait, update_apply] at hw
      split at hw
      · rename_i htu
        cases hw
        exact .start (htu ▸ hidle)
      · exact h t w hw
  | @create p u hwp hp hwu hidle hne hhome =>
      simp only [State.setWait, update_apply] at hw
      split at hw
      · rename_i htu
        cases hw
        exact .start (htu ▸ hidle)
      · exact h t w hw
  | @thread u c hwu hpc hc =>
      have hut : u ≠ t := by
        rintro rfl
        simp [State.setCluster, hwu] at hw
      have hold := h t w hw
      refine hold.frame hgrow ?_
      have hthreads : c.threads t = s.cluster.threads t :=
        threads_of_ne (a := .thread u) hc (by simpa using hut) (by simp [caller]) (by simp) (by simp)
      rw [State.setCluster, hthreads]
      exact hold.idle
  | @wait u wu s' hwu hs =>
      rcases eq_or_ne u t with rfl | hut
      · exact (h u wu hwu).step hsub hs hw
      · have hkept : s'.waits t = s.waits t ∧ s'.cluster.threads t = s.cluster.threads t := by
          cases hs <;> simp [State.setWait, State.setCluster, Cluster.State.setThread, hut.symm]
        have hold := h t w (hkept.1 ▸ hw)
        exact hold.frame hgrow (by rw [hkept.2]; exact hold.idle)
  | @agent n s' hn hs =>
      have hkept : s'.waits = s.waits ∧ s'.cluster.threads t = s.cluster.threads t := by
        cases hs with
        | @consume c _ _ _ hc =>
            have hstep : Cluster.step cfg s.cluster (.agent n) = some c := by
              change (if n < cfg.nodeCount then Cluster.stepAgent cfg s.cluster n else none) = some c
              rw [if_pos hn, hc]
            exact ⟨rfl, threads_of_ne hstep (by simp) (by simp [caller]) (by simp) (by simp)⟩
        | _ => exact ⟨rfl, rfl⟩
      have hold := h t w (hkept.1 ▸ hw)
      exact hold.frame hgrow (by rw [hkept.2]; exact hold.idle)

/-! ## The simulation -/

/-- `thread_acquire` returns with helping as without. -/
theorem step_return {w : Wait} (hw : s.waits t = some w) (hok : WaitOk cfg s.cluster t w)
    (hst : w.stage = .merge) (hi : cfg.nodeCount ≤ w.i) :
    Cluster.step cfg (s.helping cfg) (.thread t) = some ((s.setWait t none).helping cfg) := by
  have hpc : ((s.helping cfg).threads t).pc = .help ⟨w.target, true, doneFrom cfg t 0, w.i, .merge⟩ := by
    simp only [State.helping, hw, Wait.help, hst]
  rw [helping_return s hok.idle]
  change Cluster.stepThread cfg (s.helping cfg) t = _
  simp only [Cluster.stepThread, hpc, stepHelp, if_neg (Nat.not_lt.mpr hi)]

/-- `thread_acquire(c)` of thread `t` returns in this step. -/
def Returns (cfg : Config) (s : State) (t : ℕ) (c : VectorClock) (s' : State) : Prop :=
  (∃ w, s.waits t = some w ∧ w.target = .copy c) ∧ step cfg s (.thread t) = some s' ∧ s'.waits t = none

theorem Returns.helping {c : VectorClock} (h : Returns cfg s t c s') (hok : WaitsOk cfg s) :
    Cluster.Returns cfg (s.helping cfg) t c (s'.helping cfg) := by
  obtain ⟨⟨w, hw, htarget⟩, hstep, hnone⟩ := h
  cases step_cases hstep with
  | call hcaller => cases hcaller
  | thread hwait => rw [hw] at hwait; cases hwait
  | wait hw' hs =>
      obtain rfl := Option.some.inj (hw.symm.trans hw')
      cases hs with
      | return_ hst hi =>
          refine ⟨⟨w.help cfg t, ?_, ?_⟩, step_return hw (hok t w hw) hst hi, ?_⟩
          · simp only [State.helping, hw]
          · simp only [Wait.help, hst, htarget]
          · rw [helping_return s (hok t w hw).idle]
            exact Cluster.State.pc_setPc _ t _
      | _ => simp [State.setWait] at hnone

end Waiting

end Cluster

end RACoherence
