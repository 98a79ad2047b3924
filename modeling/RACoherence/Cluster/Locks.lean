import RACoherence.Cluster.Rings

/-!
# The log-head mutexes

Whoever consumes for a node holds its log-head mutex, and works on the ring of another node.
-/

namespace RACoherence

open Function LocalCLTable

namespace Cluster

/-- The ring that an agent has chosen. -/
def AgentPc.node : AgentPc → Option ℕ
  | .loop _ => none
  | .tryLock i | .batch i _ _ | .consuming i _ _ | .update i _ | .unlock i => some i

/-- The agent holds the log-head mutex of its node. -/
def AgentPc.holds : AgentPc → Bool
  | .loop _ | .tryLock _ => false
  | _ => true

/-- The thread holds the log-head mutex of its node. -/
def HelpStage.holds : HelpStage → Bool
  | .readClk | .inner _ _ | .take _ _ | .consuming _ _ | .unlock => true
  | _ => false

def ThreadPc.holds : ThreadPc → Bool
  | .help h => h.stage.holds
  | _ => false

/-- Nodes and mutexes of agents and helping threads. -/
structure Locks (cfg : Config) (s : State) : Prop where
  agentNode : ∀ n i, (s.agents n).node = some i → i < cfg.nodeCount ∧ n < cfg.nodeCount ∧ n ≠ i
  helpNode : ∀ t h, (s.threads t).pc = .help h → h.i ≤ cfg.nodeCount ∧
    (h.stage ≠ .loop → h.stage ≠ .merge → h.i < cfg.nodeCount ∧ h.i ≠ cfg.home t)
  agent : ∀ n, (s.agents n).holds = true ↔ s.headMtx n = some .agent
  thread : ∀ t n, ((s.threads t).pc.holds = true ∧ cfg.home t = n) ↔ s.headMtx n = some (.thread t)

variable {cfg : Config} {s s' : State} {a : Action}

namespace Locks

theorem initial : Locks cfg (initial cfg) where
  agentNode n i h := by cases h
  helpNode t h hpc := by cases hpc
  agent n := by simp [Cluster.initial, AgentPc.holds]
  thread t n := by simp [Cluster.initial, ThreadPc.holds]

/-! What holds of all agents, or of all threads, after one of them has moved. -/

theorem agentNode_update (h : Locks cfg s) {m : ℕ} {pc : AgentPc}
    (hpc : ∀ i, pc.node = some i → i < cfg.nodeCount ∧ m < cfg.nodeCount ∧ m ≠ i) (n i : ℕ)
    (hn : (update s.agents m pc n).node = some i) : i < cfg.nodeCount ∧ n < cfg.nodeCount ∧ n ≠ i := by
  rw [update_apply] at hn
  split at hn
  · rename_i hnm
    rw [hnm]
    exact hpc i hn
  · exact h.agentNode n i hn

theorem helpNode_update (h : Locks cfg s) {u : ℕ} {th : Thread}
    (hth : ∀ g, th.pc = .help g → g.i ≤ cfg.nodeCount ∧
      (g.stage ≠ .loop → g.stage ≠ .merge → g.i < cfg.nodeCount ∧ g.i ≠ cfg.home u)) (t : ℕ) (hp : Help)
    (ht : (update s.threads u th t).pc = .help hp) : hp.i ≤ cfg.nodeCount ∧
      (hp.stage ≠ .loop → hp.stage ≠ .merge → hp.i < cfg.nodeCount ∧ hp.i ≠ cfg.home t) := by
  rw [update_apply] at ht
  split at ht
  · rename_i htu
    rw [htu]
    exact hth hp ht
  · exact h.helpNode t hp ht

theorem agent_update (h : Locks cfg s) {m : ℕ} {pc : AgentPc} (hpc : pc.holds = (s.agents m).holds)
    (n : ℕ) : (update s.agents m pc n).holds = true ↔ s.headMtx n = some .agent := by
  rw [← h.agent n, update_apply]
  split
  · rename_i hnm
    rw [hpc, hnm]
  · rfl

theorem thread_update (h : Locks cfg s) {u : ℕ} {th : Thread}
    (hth : th.pc.holds = (s.threads u).pc.holds) (t n : ℕ) :
    ((update s.threads u th t).pc.holds = true ∧ cfg.home t = n) ↔ s.headMtx n = some (.thread t) := by
  rw [← h.thread t n, update_apply]
  split
  · rename_i htu
    rw [hth, htu]
  · rfl

/-- An agent locks or unlocks the mutex of its node. -/
theorem agent_setMtx (h : Locks cfg s) {m : ℕ} {pc : AgentPc} {p : Option Party}
    (hp : pc.holds = true ↔ p = some .agent) (n : ℕ) :
    (update s.agents m pc n).holds = true ↔ update s.headMtx m p n = some .agent := by
  rw [update_apply, update_apply]
  split
  · exact hp
  · exact h.agent n

/-- The mutex of a node passes between nobody and the agent of the node. -/
theorem thread_of_agent (h : Locks cfg s) {m : ℕ} {p : Option Party}
    (hold : ∀ t, s.headMtx m ≠ some (.thread t)) (hnew : ∀ t, p ≠ some (.thread t)) (t n : ℕ) :
    ((s.threads t).pc.holds = true ∧ cfg.home t = n) ↔ update s.headMtx m p n = some (.thread t) := by
  rw [update_apply]
  split
  · rename_i hnm
    rw [hnm]
    exact iff_of_false (fun hholds => hold t ((h.thread t m).mp hholds)) (hnew t)
  · exact h.thread t n

/-- A thread locks or unlocks the mutex of its node. -/
theorem thread_setMtx (h : Locks cfg s) {u : ℕ} {th : Thread} {p : Option Party}
    (hp : th.pc.holds = true ↔ p = some (.thread u))
    (hold : ∀ t ≠ u, s.headMtx (cfg.home u) ≠ some (.thread t)) (hnew : ∀ t ≠ u, p ≠ some (.thread t))
    (t n : ℕ) : ((update s.threads u th t).pc.holds = true ∧ cfg.home t = n) ↔
      update s.headMtx (cfg.home u) p n = some (.thread t) := by
  rw [update_apply, update_apply]
  by_cases htu : t = u
  · subst htu
    rw [if_pos rfl]
    split
    · rename_i hn
      rw [hp, hn, and_iff_left rfl]
    · rename_i hn
      refine iff_of_false (fun hholds => hn hholds.2.symm) fun hmtx => ?_
      exact hn ((h.thread t n).mpr hmtx).2.symm
  · rw [if_neg htu]
    split
    · rename_i hn
      rw [hn]
      refine iff_of_false (fun hholds => hold t htu ((h.thread t _).mp hholds)) (hnew t htu)
    · exact h.thread t n

/-- The mutex of a node passes between nobody and a thread of the node. -/
theorem agent_of_thread (h : Locks cfg s) {m : ℕ} {p : Option Party} (hold : s.headMtx m ≠ some .agent)
    (hnew : p ≠ some .agent) (n : ℕ) :
    (s.agents n).holds = true ↔ update s.headMtx m p n = some .agent := by
  rw [update_apply]
  split
  · rename_i hnm
    rw [hnm]
    exact iff_of_false (fun hholds => hold ((h.agent m).mp hholds)) hnew
  · exact h.agent n

theorem agentNode_step (h : Locks cfg s) (hs : Step cfg s a s') (n i : ℕ)
    (hn : (s'.agents n).node = some i) : i < cfg.nodeCount ∧ n < cfg.nodeCount ∧ n ≠ i := by
  have hold := h.agentNode
  cases hs with
  | @agent m _ hlt hs =>
      have hmine := hold m
      cases hs with
      | cons => exact hold n i hn
      | next hpc hi hne =>
          refine h.agentNode_update ?_ n i hn
          rintro _ ⟨⟩
          exact ⟨hi, hlt, hne.symm⟩
      | restart | skip | busy | unlock => exact h.agentNode_update (by simp [AgentPc.node]) n i hn
      | _ =>
          -- the agent stays at its node
          refine h.agentNode_update ?_ n i hn
          rintro _ ⟨⟩
          exact hmine _ (by simp only [*, AgentPc.node])
  | thread hs => cases hs <;> exact hold n i hn
  | help hpc hs => cases hs <;> exact hold n i hn
  | _ => exact hold n i hn

theorem helpNode_step (h : Locks cfg s) (hs : Step cfg s a s') (t : ℕ) (hp : Help)
    (ht : (s'.threads t).pc = .help hp) : hp.i ≤ cfg.nodeCount ∧
      (hp.stage ≠ .loop → hp.stage ≠ .merge → hp.i < cfg.nodeCount ∧ hp.i ≠ cfg.home t) := by
  have hold := h.helpNode
  cases hs with
  | agent hlt hs => cases hs <;> exact hold t hp ht
  | thread hs =>
      cases hs with
      | getNewLog | getLogProd | produceProd => exact hold t hp ht
      | _ => exact h.helpNode_update (fun _ hpc => by cases hpc) t hp ht
  | @help u g _ hpc hs =>
      obtain ⟨hle, hnode⟩ := hold u g hpc
      cases hs with
      | cons => exact hold t hp ht
      | return_ => exact h.helpNode_update (fun _ hpc => by cases hpc) t hp ht
      | next hst hi _ hne =>
          refine h.helpNode_update ?_ t hp ht
          rintro _ ⟨⟩
          exact ⟨by dsimp only; omega, fun _ _ => ⟨by dsimp only; omega, hne⟩⟩
      | skip hst hi _ =>
          refine h.helpNode_update ?_ t hp ht
          rintro _ ⟨⟩
          exact ⟨by dsimp only; omega, fun hloop => absurd hst hloop⟩
      | pass hst _ _ =>
          refine h.helpNode_update ?_ t hp ht
          rintro _ ⟨⟩
          exact ⟨le_rfl, fun hloop => absurd hst hloop⟩
      | merge hst hlt =>
          refine h.helpNode_update ?_ t hp ht
          rintro _ ⟨⟩
          exact ⟨hlt, fun _ hmerge => absurd hst hmerge⟩
      | reachedAll =>
          refine h.helpNode_update ?_ t hp ht
          rintro _ ⟨⟩
          exact ⟨hle, fun _ hmerge => absurd rfl hmerge⟩
      | _ =>
          -- the thread stays at its node
          refine h.helpNode_update ?_ t hp ht
          rintro _ ⟨⟩
          exact ⟨hle, fun _ _ => hnode (by simp [*]) (by simp [*])⟩
  | releaseNothing => exact hold t hp ht
  | objStore => exact hold t hp ht
  | objMerge => exact hold t hp ht
  | acquire | create =>
      refine h.helpNode_update ?_ t hp ht
      rintro _ ⟨⟩
      exact ⟨Nat.zero_le _, fun hloop => absurd rfl hloop⟩
  | _ => exact h.helpNode_update (fun _ hpc => by cases hpc) t hp ht

theorem agent_step (h : Locks cfg s) (hs : Step cfg s a s') (n : ℕ) :
    (s'.agents n).holds = true ↔ s'.headMtx n = some .agent := by
  cases hs with
  | agent hlt hs =>
      cases hs with
      | cons => exact h.agent n
      | lock => exact h.agent_setMtx (by simp [AgentPc.holds]) n
      | unlock => exact h.agent_setMtx (by simp [AgentPc.holds]) n
      | _ => exact h.agent_update (by simp only [*, AgentPc.holds]) n
  | thread hs => cases hs <;> exact h.agent n
  | @help t hp s' hpc hs =>
      have hmine := h.thread t (cfg.home t)
      cases hs with
      | lock _ hfree => exact h.agent_of_thread (by simp [hfree]) (by simp) n
      | unlock hst =>
          have hmtx := hmine.mp ⟨by simp [hpc, ThreadPc.holds, hst, HelpStage.holds], rfl⟩
          exact h.agent_of_thread (by simp [hmtx]) (by simp) n
      | _ => exact h.agent n
  | _ => exact h.agent n

theorem thread_step (h : Locks cfg s) (hs : Step cfg s a s') (t n : ℕ) :
    ((s'.threads t).pc.holds = true ∧ cfg.home t = n) ↔ s'.headMtx n = some (.thread t) := by
  cases hs with
  | @agent m _ hlt hs =>
      cases hs with
      | lock _ hfree => exact h.thread_of_agent (by simp [hfree]) (by simp) t n
      | unlock hpc =>
          have hmtx := (h.agent m).mp (by rw [hpc]; rfl)
          exact h.thread_of_agent (by simp [hmtx]) (by simp) t n
      | _ => exact h.thread t n
  | thread hs =>
      cases hs with
      | getNewLog | getLogProd | produceProd => exact h.thread t n
      | _ => exact h.thread_update (by simp only [*, ThreadPc.holds]) t n
  | @help u hp s' hpc hs =>
      cases hs with
      | cons => exact h.thread t n
      | lock _ hfree =>
          refine h.thread_setMtx (by simp [ThreadPc.holds, HelpStage.holds]) (by simp [hfree]) ?_ t n
          rintro v hne ⟨⟩
          exact hne rfl
      | unlock hst =>
          have hmtx := (h.thread u (cfg.home u)).mp ⟨by simp [hpc, ThreadPc.holds, hst, HelpStage.holds], rfl⟩
          refine h.thread_setMtx (by simp [ThreadPc.holds, HelpStage.holds]) ?_ (by simp) t n
          intro v hne heq
          rw [hmtx] at heq
          cases heq
          exact hne rfl
      | _ => exact h.thread_update (by simp only [*, ThreadPc.holds, HelpStage.holds]) t n
  | releaseNothing => exact h.thread t n
  | objStore => exact h.thread t n
  | objMerge => exact h.thread t n
  | _ => exact h.thread_update (by simp only [*, ThreadPc.holds, HelpStage.holds]) t n

theorem step (h : Locks cfg s) (hs : Step cfg s a s') : Locks cfg s' :=
  ⟨h.agentNode_step hs, h.helpNode_step hs, h.agent_step hs, h.thread_step hs⟩

end Locks

end Cluster

end RACoherence
