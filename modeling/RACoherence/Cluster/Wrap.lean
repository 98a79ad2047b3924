import RACoherence.Cluster.Coherence
import RACoherence.LogManager.Wrap

/-!
# A release that is lost

The wrap of `RACoherence.LogManager.Wrap` in a cluster of two nodes. Threads of node 0 store, release and
wait in `get_new_log` until all logs are held; thread 63 releases, and before node 1 has consumed its log,
the pass of `perform_gc` in which thread 64 gets that very log resets it. Node 1 then consumes an empty log,
and the acquire of thread 65 returns without an invalidation.
-/

namespace RACoherence

open Function Relation LocalCLTable

namespace Cluster

@[simp] theorem toLogConfig_twoNodes : Config.twoNodes.toLogConfig = LogConfig.twoNodes := rfl

@[simp] theorem nodeCount_twoNodes : LogConfig.twoNodes.nodeCount = 2 := rfl

/-- The steps of the runs with few logs. -/
abbrev Few (s : State) (a : Action) : Prop := NhcStore a ∧ FewLogs .twoNodes s a

/-- A sequence of such steps. -/
abbrev Path : State → State → Prop := ReflTransGen ((machine .twoNodes).Next Few)

/-- The line that all threads of the run store to. -/
def nhcLine : ℕ := cxlNhcStart >>> virtualClShift 0

/-- The table of a thread that has stored to it. -/
def oneLine : LocalCLTable := (insert 0 LocalCLTable.empty nhcLine).2

/-- The word of that table. -/
def oneEntry : ℕ := oneLine 0

theorem insert_nhcLine : insert 0 LocalCLTable.empty nhcLine = (false, oneLine) :=
  Prod.ext (insert_empty (by decide)) rfl

theorem entries_oneLine : oneLine.entries = [oneEntry] := by decide +kernel

theorem writebackEvents_oneEntry (t : ℕ) : writebackEvents t oneEntry = [.writeback t nhcLine] := by
  have : linesOf (ThreadOps.writebackAddrs 0 oneEntry) = [nhcLine] := by decide +kernel
  rw [writebackEvents, this, List.map_singleton]

variable {s s' : State} {t : ℕ} {clock : VectorClock}

theorem next_few {a : Action} (hnhc : NhcStore a)
    (hring : ∀ i u r, ringAction .twoNodes s a ≠ some (i, .produceTail u r))
    (hs : step .twoNodes s a = some s') : (machine .twoNodes).Next Few s s' := by
  refine ⟨a, ⟨hnhc, fun i b hb => ?_⟩, hs⟩
  cases b with
  | produceTail u r => exact absurd hb (hring i u r)
  | _ => trivial

/-- The state with another ring of node 0, other data of thread `t`, and more events. -/
def State.moved (s : State) (t : ℕ) (r : LogManager.State) (es : List Event) (th : Thread) : State :=
  ((s.setRing 0 r).emit es).setThread t th

section Moved

variable (s) (t : ℕ) (r : LogManager.State) (es : List Event) (th : Thread)

@[simp] theorem State.moved_threads : (s.moved t r es th).threads t = th := by
  simp [State.moved, State.setThread]

@[simp] theorem State.moved_rings : (s.moved t r es th).rings 0 = r := by
  simp [State.moved, State.setThread, State.emit, State.setRing]

@[simp] theorem State.moved_setRing (r' : LogManager.State) :
    (s.moved t r es th).setRing 0 r' = s.moved t r' es th := by
  simp [State.moved, State.setThread, State.emit, State.setRing]

@[simp] theorem State.moved_emit (es' : List Event) :
    (s.moved t r es th).emit es' = s.moved t r (es ++ es') th := by
  simp [State.moved, State.setThread, State.emit, State.setRing]

@[simp] theorem State.moved_setThread (th' : Thread) :
    (s.moved t r es th).setThread t th' = s.moved t r es th' := by
  simp [State.moved, State.setThread]

@[simp] theorem State.moved_setPc (pc : ThreadPc) :
    (s.moved t r es th).setPc t pc = s.moved t r es { th with pc := pc } := by
  simp [State.setPc]

theorem State.moved_self (hr : s.rings 0 = r) (ht : s.threads t = th) : s.moved t r [] th = s := by
  simp [State.moved, State.setThread, State.emit, State.setRing, ← hr, ← ht]

end Moved

/-- Thread `t` stores and calls `thread_release`. -/
theorem stores (ht : s.threads t = ⟨clock, LocalCLTable.empty, 0, .idle⟩) :
    Path s (s.moved t (s.rings 0) [.store t nhcLine] ⟨clock, oneLine, 0, .getLog .release⟩) := by
  have hne : nhcLine ≠ 0 := by decide
  nth_rewrite 1 [← s.moved_self t _ _ rfl ht]
  refine .head (b := s.moved t (s.rings 0) [] ⟨clock, oneLine, nhcLine, .store nhcLine⟩)
    (next_few (a := .logStore t cxlNhcStart) ⟨le_rfl, by decide⟩ (by simp [ringAction]) ?_) ?_
  · have hline : cxlNhcStart >>> virtualClShift 0 = nhcLine := rfl
    simp only [step, State.moved_threads, hline, hne, if_false, insert_nhcLine, State.moved_setThread]
  refine .head (b := s.moved t (s.rings 0) [.store t nhcLine] ⟨clock, oneLine, nhcLine, .idle⟩)
    (next_few (a := .thread t) trivial (by simp [ringAction]) ?_) (.single
      (next_few (a := .release t) trivial (by simp [ringAction]) ?_))
  · simp [step, stepThread]
  · simp [step, hne]

/-- What a thread does in `get_new_log` of the ring it does in the cluster. -/
theorem gets {k : Purpose} {r : LogManager.State} (hhome : Config.twoNodes.home t = 0)
    (hpc : (s.threads t).pc = .getLog k)
    (h : ReflTransGen ((LogManager.machine .twoNodes 0 (flushesCache 0)).Next (LogManager.InGetNewLog t))
      (s.rings 0) r) : Path s (s.setRing 0 r) := by
  induction h with
  | refl => rw [show s.setRing 0 (s.rings 0) = s by simp [State.setRing]]
  | @tail r₁ r₂ _ hnext ih =>
      refine ih.tail (next_few (a := .thread t) trivial ?_ ?_)
      · intro i u rel
        simp only [ringAction, State.setRing, hpc]
        split <;> simp
      · obtain ⟨a, ha, hs⟩ := hnext
        have hring : ∀ b, LogManager.step LogConfig.twoNodes 0 (flushesCache 0) r₁ b = some r₂ →
            ringStep .twoNodes (s.setRing 0 r₁) 0 b = some (s.setRing 0 r₂) := by
          intro b hb
          simp [ringStep, State.setRing, hb]
        simp only [step, stepThread, hhome]
        rw [show (s.setRing 0 r₁).threads t = s.threads t from rfl, hpc]
        rcases ha with rfl | ⟨rfl, -⟩
        · have hidle : r₁.prod t = .idle := by
            by_contra hne
            simp [LogManager.machine, LogManager.step, hne] at hs
          simp only [State.setRing, update_self, hidle]
          exact hring _ hs
        · simp only [State.setRing, update_self]
          split
          · rename_i hidle
            simp [LogManager.machine, LogManager.step, LogManager.stepProd, hidle] at hs
          · rename_i hhold
            simp [LogManager.machine, LogManager.step, LogManager.stepProd, hhold] at hs
          · exact hring _ hs

/-- The ring after a thread has written the word to its log. -/
def written (r : LogManager.State) (log : ℕ) : LogManager.State :=
  { r with buf := update r.buf log ((r.buf log).write oneEntry) }

/-- Thread `t`, which has got its log, writes it and returns from `thread_release`. -/
theorem publishes {log : ℕ} (hhome : Config.twoNodes.home t = 0)
    (ht : s.threads t = ⟨clock, oneLine, 0, .getLog .release⟩) (hprod : (s.rings 0).prod t = .hold log)
    (hfew : (s.rings 0).tail + 1 < idxRange - 64) :
    Path s (s.moved t ((written (s.rings 0) log).publish .twoNodes t log true)
      [.writeback t nhcLine, .publish 0 (s.rings 0).tail, .release t (LogManager.incr (s.rings 0).tail)]
      ⟨clock.assign 0 (LogManager.incr (s.rings 0).tail), LocalCLTable.empty, 0, .idle⟩) := by
  let r := written (s.rings 0) log
  have htail : (s.rings 0).tail = r.tail := rfl
  rw [htail]
  have hr : r.prod t = .hold log := hprod
  nth_rewrite 1 [← s.moved_self t _ _ rfl ht]
  refine .head (b := s.moved t (s.rings 0) [] ⟨clock, oneLine, 0, .fill .release [oneEntry]⟩)
    (next_few (a := .thread t) trivial (by simp [ringAction, hhome, hprod]) ?_) ?_
  · simp [step, stepThread, hhome, hprod, entries_oneLine]
  refine .head (b := s.moved t r [.writeback t nhcLine] ⟨clock, oneLine, 0, .fill .release []⟩)
    (next_few (a := .thread t) trivial (by simp [ringAction]) ?_) ?_
  · simp [step, stepThread, ringStep, LogManager.step, hhome, hprod, writebackEvents_oneEntry, r, written]
  let r₁ : LogManager.State :=
    { r with tail := LogManager.incr r.tail, hist := update r.hist r.tail ⟨log, true, r.buf log⟩ }
  let k := LogManager.getIdx LogConfig.twoNodes r.tail
  refine .head (b := s.moved t (r₁.setProd t (.storeRel log true r.tail)) [.writeback t nhcLine]
    ⟨clock, oneLine, 0, .produce .release⟩) ⟨.thread t, ⟨trivial, fun i b hb => ?_⟩, ?_⟩ ?_
  · obtain ⟨rfl, rfl⟩ : 0 = i ∧ .produceTail t true = b := by
      simpa [ringAction, hhome, Purpose.isRelease] using hb
    rw [State.moved_rings]
    exact hfew
  · simp [machine, step, stepThread, ringStep, LogManager.step, hhome, hr, r₁, Purpose.isRelease]
  refine .head (b := s.moved t ({ r₁ with pub := update r.pub k { r.pub k with isRel := true } }.setProd t
      (.storeLog log true r.tail)) [.writeback t nhcLine] ⟨clock, oneLine, 0, .produce .release⟩)
    (next_few (a := .thread t) trivial (by simp [ringAction, LogManager.State.setProd]) ?_) ?_
  · simp [step, stepThread, ringStep, LogManager.step, LogManager.stepProd, hhome, LogManager.State.setProd, r₁, k]
  refine .head (b := s.moved t ({ r₁ with pub := update r.pub k { r.pub k with isRel := true, log := log } }.setProd
      t (.storeIdx log true r.tail)) [.writeback t nhcLine] ⟨clock, oneLine, 0, .produce .release⟩)
    (next_few (a := .thread t) trivial (by simp [ringAction, LogManager.State.setProd]) ?_) ?_
  · simp [step, stepThread, ringStep, LogManager.step, LogManager.stepProd, hhome, LogManager.State.setProd, r₁, k]
  refine .head (b := s.moved t (r.publish .twoNodes t log true) [.writeback t nhcLine, .publish 0 r.tail]
      ⟨clock, oneLine, 0, .finish .release (LogManager.incr r.tail)⟩)
    (next_few (a := .thread t) trivial (by simp [ringAction, LogManager.State.setProd]) ?_) (.single
      (next_few (a := .thread t) trivial (by simp [ringAction]) ?_))
  · simp [step, stepThread, ringStep, LogManager.step, LogManager.stepProd, hhome, LogManager.State.setProd,
      LogManager.State.publish, r₁, k]
  · simp [step, stepThread, hhome, r]

/-! ## Node 1 consumes -/

/-- The state with another ring of node 0, another position of the agent of node 1, and more events. -/
def State.served (s : State) (r : LogManager.State) (es : List Event) (pc : AgentPc) : State :=
  ((s.setRing 0 r).emit es).setAgent 1 pc

section Served

variable (s) (r : LogManager.State) (es : List Event) (pc : AgentPc)

@[simp] theorem State.served_agents : (s.served r es pc).agents 1 = pc := by
  simp [State.served, State.setAgent]

@[simp] theorem State.served_rings : (s.served r es pc).rings 0 = r := by
  simp [State.served, State.setAgent, State.emit, State.setRing]

@[simp] theorem State.served_setRing (r' : LogManager.State) :
    (s.served r es pc).setRing 0 r' = s.served r' es pc := by
  simp [State.served, State.setAgent, State.emit, State.setRing]

@[simp] theorem State.served_emit (es' : List Event) :
    (s.served r es pc).emit es' = s.served r (es ++ es') pc := by
  simp [State.served, State.setAgent, State.emit, State.setRing]

@[simp] theorem State.served_setAgent (pc' : AgentPc) :
    (s.served r es pc).setAgent 1 pc' = s.served r es pc' := by
  simp [State.served, State.setAgent]

end Served

section Serves

variable {r r' : LogManager.State} {es es' : List Event} {j c : ℕ}

/-- A step of the consumer that does not end. -/
theorem next_cons (hr : LogManager.stepCons .twoNodes (flushesCache 0) r 1 = some r')
    (hout : consOutcome 1 r r' = none) (hev : es' = es ++ consEvents .twoNodes 1 0 r) :
    (machine .twoNodes).Next Few (s.served r es (.consuming 0 j c)) (s.served r' es' (.consuming 0 j c)) := by
  refine next_few (a := .agent 1) trivial (by simp [ringAction]) ?_
  simp [step, stepAgent, consStep, ringStep, LogManager.step, hr, hout, hev]

/-- What processing a log records is about its entries. -/
theorem agent_process {log size : ℕ} {clk : Option ℕ} (m i : ℕ) (hm : size ≤ i + m) :
    ∃ es', Path (s.served (r.setCons 1 (.process log clk i size)) es (.consuming 0 j c))
        (s.served (r.setCons 1 (.consume clk)) (es ++ es') (.consuming 0 j c)) ∧
      ∀ e ∈ es', ∃ k < size, e ∈ entryEvents 1 ((r.buf log).entries k) := by
  induction m generalizing i es with
  | zero =>
      have hi : ¬ i < size := by omega
      refine ⟨[], .single (next_cons ?_ ?_ ?_), by simp⟩
      · simp [LogManager.stepCons, LogManager.State.setCons, hi]
      · simp [consOutcome, LogManager.State.setCons]
      · simp [consEvents, LogManager.State.setCons, hi]
  | succ m ih =>
      by_cases hgo : i < size ∧ ¬ flushesCache 0 ((r.buf log).entries i) = true
      · obtain ⟨es', hpath, hes'⟩ := @ih (es ++ entryEvents 1 ((r.buf log).entries i)) (i + 1) (by omega)
        refine ⟨entryEvents 1 ((r.buf log).entries i) ++ es', .head (next_cons ?_ ?_ ?_)
          (List.append_assoc es _ es' ▸ hpath), fun e he => ?_⟩
        · simp only [LogManager.stepCons, LogManager.State.setCons, update_self, update_idem]
          rw [if_pos hgo]
        · simp [consOutcome, LogManager.State.setCons]
        · simp [consEvents, LogManager.State.setCons, hgo.1]
        · rcases List.mem_append.mp he with hhere | hthere
          · exact ⟨i, hgo.1, hhere⟩
          · exact hes' e hthere
      · refine ⟨if i < size then entryEvents 1 ((r.buf log).entries i) else [], .single (next_cons ?_ ?_ ?_),
          fun e he => ?_⟩
        · simp only [LogManager.stepCons, LogManager.State.setCons, update_self, update_idem]
          rw [if_neg hgo]
        · simp [consOutcome, LogManager.State.setCons]
        · simp [consEvents, LogManager.State.setCons]
        · split at he
          · exact ⟨i, ‹_›, he⟩
          · cases he

/-- The agent takes the entry at its head and consumes it. -/
theorem agent_entry (hj : j < logMaxBatch) (hidle : r.cons 1 = .idle)
    (hentry : (r.pub (LogManager.getIdx .twoNodes (r.subs 1).head)).idx = LogManager.incr (r.subs 1).head)
    (hrel : (r.pub (LogManager.getIdx .twoNodes (r.subs 1).head)).isRel = true) :
    ∃ es', Path (s.served r es (.batch 0 j c))
        (s.served (r.consume 1) (es ++ es') (.batch 0 (j + 1) (LogManager.incr (r.subs 1).head))) ∧
      ∀ e ∈ es', (∃ idx, e = .process 1 0 idx) ∨
        ∃ k < (r.buf (r.pub (LogManager.getIdx .twoNodes (r.subs 1).head)).log).size, e ∈ entryEvents 1
          ((r.buf (r.pub (LogManager.getIdx .twoNodes (r.subs 1).head)).log).entries k) := by
  generalize hslot : LogManager.getIdx .twoNodes (r.subs 1).head = slot at *
  generalize hlog : (r.pub slot).log = log at *
  let head := (r.subs 1).head
  let clk := some (LogManager.incr head)
  let e₀ : Event := .process 1 0 (LogManager.incr head)
  obtain ⟨es', hpath, hes'⟩ :=
    @agent_process s r (es ++ [e₀]) j c log (r.buf log).size clk (r.buf log).size 0 (Nat.le_add_left _ 0)
  refine ⟨e₀ :: es', ?_, fun e he => ?_⟩
  · refine .head (b := s.served (r.setCons 1 (.loadIdx head)) es (.consuming 0 j c))
      (next_few (a := .agent 1) trivial (by simp [ringAction, hj]) ?_) ?_
    · have hrem : LogManager.Remote .twoNodes 0 1 := LogManager.remote_one
      simp [step, stepAgent, ringStep, LogManager.step, hidle, hj, hrem, head]
    refine .head (b := s.served (r.setCons 1 (.entry slot)) es (.consuming 0 j c)) (next_cons ?_ ?_ ?_) ?_
    · simp [LogManager.stepCons, LogManager.State.setCons, head, hslot, hentry]
    · simp [consOutcome, LogManager.State.setCons]
    · simp [consEvents, LogManager.State.setCons]
    refine .head (b := s.served (r.setCons 1 (.gotLog slot log)) es (.consuming 0 j c)) (next_cons ?_ ?_ ?_) ?_
    · simp [LogManager.stepCons, LogManager.State.setCons, hlog]
    · simp [consOutcome, LogManager.State.setCons]
    · simp [consEvents, LogManager.State.setCons]
    refine .head (b := s.served (r.setCons 1 (.gotRel slot log true)) es (.consuming 0 j c))
      (next_cons ?_ ?_ ?_) ?_
    · simp [LogManager.stepCons, LogManager.State.setCons, hrel]
    · simp [consOutcome, LogManager.State.setCons]
    · simp [consEvents, LogManager.State.setCons]
    refine .head (b := s.served (r.setCons 1 (.start log clk)) es (.consuming 0 j c)) (next_cons ?_ ?_ ?_) ?_
    · simp [LogManager.stepCons, LogManager.State.setCons, hentry, clk, head]
    · simp [consOutcome, LogManager.State.setCons]
    · simp [consEvents, LogManager.State.setCons]
    refine .head (b := s.served (r.setCons 1 (.process log clk 0 (r.buf log).size)) (es ++ [e₀])
      (.consuming 0 j c)) (next_cons ?_ ?_ ?_) ?_
    · simp [LogManager.stepCons, LogManager.State.setCons]
    · simp [consOutcome, LogManager.State.setCons]
    · simp [consEvents, LogManager.State.setCons, hslot, hentry, e₀, head]
    refine hpath.trans (.head (b := s.served (r.setCons 1 (.storeHead clk head)) (es ++ [e₀] ++ es')
      (.consuming 0 j c)) (next_cons ?_ ?_ ?_) (.single (next_few (a := .agent 1) trivial (by simp [ringAction]) ?_)))
    · simp [LogManager.stepCons, LogManager.State.setCons, head]
    · simp [consOutcome, LogManager.State.setCons]
    · simp [consEvents, LogManager.State.setCons]
    · simp [step, stepAgent, consStep, ringStep, LogManager.step, LogManager.stepCons, consOutcome, consEvents,
        LogManager.State.setCons, LogManager.State.consume, clk, head]
  · rcases List.mem_cons.mp he with rfl | hrest
    · exact .inl ⟨_, rfl⟩
    · exact .inr (hes' e hrest)

/-- There is nothing at the next head. -/
theorem agent_null (hj : j < logMaxBatch) (hidle : r.cons 1 = .idle)
    (hnull : (r.pub (LogManager.getIdx .twoNodes (r.subs 1).head)).idx ≠ LogManager.incr (r.subs 1).head) :
    Path (s.served r es (.batch 0 j c)) (s.served r es (.update 0 c)) := by
  let head := (r.subs 1).head
  refine .head (b := s.served (r.setCons 1 (.loadIdx head)) es (.consuming 0 j c))
    (next_few (a := .agent 1) trivial (by simp [ringAction, hj]) ?_) (.single
      (next_few (a := .agent 1) trivial (by simp [ringAction]) ?_))
  · have hrem : LogManager.Remote .twoNodes 0 1 := LogManager.remote_one
    simp [step, stepAgent, ringStep, LogManager.step, hidle, hj, hrem, head]
  · have hback : (r.setCons 1 (.loadIdx head)).setCons 1 .idle = r := by
      simp [LogManager.State.setCons, ← hidle]
    have hstep : LogManager.stepCons .twoNodes (flushesCache 0) (r.setCons 1 (.loadIdx head)) 1 = some r := by
      nth_rewrite 2 [← hback]
      simp [LogManager.stepCons, LogManager.State.setCons, head, hnull]
    have hout : consOutcome 1 (r.setCons 1 (.loadIdx head)) r = some .null := by
      simp [consOutcome, LogManager.State.setCons, hidle]
    have hev : consEvents .twoNodes 1 0 (r.setCons 1 (.loadIdx head)) = [] := by
      simp [consEvents, LogManager.State.setCons]
    simp [step, stepAgent, consStep, ringStep, LogManager.step, hstep, hout, hev]

/-- One round of the agent of node 1, in which it finds one entry. -/
theorem agent_round (hagent : s.agents 1 = .loop 0) (hmtx : s.headMtx 1 = none) (hr : s.rings 0 = r)
    (hsub : (r.subs 1).isSubbed = true) (hidle : r.cons 1 = .idle)
    (hentry : (r.pub (LogManager.getIdx .twoNodes (r.subs 1).head)).idx = LogManager.incr (r.subs 1).head)
    (hrel : (r.pub (LogManager.getIdx .twoNodes (r.subs 1).head)).isRel = true)
    (hnull : (r.pub (LogManager.getIdx .twoNodes (LogManager.incr (r.subs 1).head))).idx ≠
      LogManager.incr (LogManager.incr (r.subs 1).head)) (hne : LogManager.incr (r.subs 1).head ≠ 0) :
    ∃ s', Path s s' ∧ s'.rings 0 = r.consume 1 ∧ s'.threads = s.threads ∧ s'.objs = s.objs ∧
      s'.agents 1 = .loop 0 ∧ s'.headMtx 1 = none ∧ s'.clock 1 0 = LogManager.incr (r.subs 1).head ∧
      ∃ es, s'.trace = s.trace ++ es ∧ ∀ e ∈ es, (∃ idx, e = .process 1 0 idx) ∨
        ∃ k < (r.buf (r.pub (LogManager.getIdx .twoNodes (r.subs 1).head)).log).size, e ∈ entryEvents 1
          ((r.buf (r.pub (LogManager.getIdx .twoNodes (r.subs 1).head)).log).entries k) := by
  let s₁ := s.setMtx 1 (some .agent)
  obtain ⟨es, hpath, hes⟩ := @agent_entry s₁ r [] 0 0 (by decide) hidle hentry hrel
  rw [List.nil_append] at hpath
  let c := LogManager.incr (r.subs 1).head
  let s₂ := s₁.served (r.consume 1) es (.update 0 c)
  let s₃ := ((s₂.setClock 1 0 c).setMtx 1 none).setAgent 1 (.loop 1)
  have hstart : Path s (s₁.served r [] (.batch 0 0 0)) := by
    refine .head (b := s.setAgent 1 (.tryLock 0)) (next_few (a := .agent 1) trivial
      (by simp [ringAction, hagent]) ?_) (.single (next_few (a := .agent 1) trivial
        (by simp [ringAction, State.setAgent]) ?_))
    · simp [step, stepAgent, hagent, hr, hsub]
    · simp [step, stepAgent, State.setAgent, hmtx, State.served, State.setRing, State.emit, State.setMtx, s₁, ← hr]
  have hend : Path s₂ (s₃.setAgent 1 (.loop 0)) := by
    refine .head (b := (s₂.setClock 1 0 c).setAgent 1 (.unlock 0)) (next_few (a := .agent 1) trivial
      (by simp [ringAction, s₂]) ?_) (.head (b := s₃) (next_few (a := .agent 1) trivial
        (by simp [ringAction, State.setAgent]) ?_) (.head (b := s₃.setAgent 1 (.loop 2))
          (next_few (a := .agent 1) trivial (by simp [ringAction, State.setAgent, s₃]) ?_) (.single
            (next_few (a := .agent 1) trivial (by simp [ringAction, State.setAgent]) ?_))))
    · simp [step, stepAgent, s₂, c, hne]
    · simp [step, stepAgent, State.setAgent, State.setMtx, s₃]
    · simp [step, stepAgent, State.setAgent, s₃]
    · simp [step, stepAgent, State.setAgent]
  have hnull' := @agent_null s₁ (r.consume 1) es 1 c (by decide) (by simp [LogManager.State.consume,
    LogManager.State.setCons]) (by simpa [LogManager.State.consume, LogManager.State.setCons] using hnull)
  refine ⟨_, hstart.trans (hpath.trans (hnull'.trans hend)), ?_, ?_, ?_, ?_, ?_, ?_, es, ?_, hes⟩
  all_goals
    simp [s₃, s₂, s₁, c, State.served, State.setAgent, State.setMtx, State.setClock, State.emit, State.setRing]

end Serves

/-! ## Thread 65 acquires -/

/-- An acquire of what node 1 has consumed goes straight to its return. -/
theorem acquires {table : LocalCLTable} {cl : ℕ} (ht : s.threads 65 = ⟨clock, table, cl, .idle⟩)
    (hclk : s.objs 0 0 ≤ s.clock 1 0) :
    ∃ s' s'', Path s s' ∧ Returns .twoNodes s' 65 (s.objs 0) s'' ∧ s''.trace = s.trace := by
  have hhome : Config.twoNodes.home 65 = 1 := rfl
  let h₀ : Help := ⟨.copy (s.objs 0), true, fun _ => false, 2, .loop⟩
  let h₁ : Help := ⟨.copy (s.objs 0), true, update (fun _ => false) 0 true, 0, .merge⟩
  let c₁ := clock.assign 0 (max (clock 0) (s.objs 0 0))
  let c₂ := c₁.assign 1 (max (c₁ 1) (s.objs 0 1))
  let s₁ := s.setThread 65 ⟨c₂, table, cl, .help { h₁ with i := 2 }⟩
  have hnext : ∀ {clk clk' : VectorClock} {h h' : Help},
      (∀ start c, h.stage ≠ .take start c ∧ h.stage ≠ .consuming start c) →
      stepHelp .twoNodes (s.setThread 65 ⟨clk, table, cl, .help h⟩) 65 h =
        some (s.setThread 65 ⟨clk', table, cl, .help h'⟩) →
      (machine .twoNodes).Next Few (s.setThread 65 ⟨clk, table, cl, .help h⟩)
        (s.setThread 65 ⟨clk', table, cl, .help h'⟩) := by
    intro clk clk' h h' hst hs
    refine next_few (a := .thread 65) trivial (fun i u r => ?_) ?_
    · simp only [ringAction, State.setThread, update_self]
      split <;> simp
    · simpa [step, stepThread, State.setThread] using hs
  have hpath : Path s s₁ := by
    refine .head (b := s.setThread 65 ⟨clock, table, cl, .help { h₀ with done := false, i := 0 }⟩)
      (next_few (a := .acquire 65 0) trivial (by simp [ringAction]) ?_) ?_
    · simp [step, ht, State.setPc, h₀]
    refine .head (b := s.setThread 65 ⟨clock, table, cl, .help h₀⟩) (hnext (by simp [h₀]) ?_) ?_
    · simp [stepHelp, State.setPc, State.setThread, h₀]
    refine .head (b := s.setThread 65 ⟨clock, table, cl, .help { h₀ with i := 1 }⟩) (hnext (by simp [h₀]) ?_) ?_
    · simp [stepHelp, State.setPc, State.setThread, hhome, h₀]
    refine .head (b := s.setThread 65 ⟨clock, table, cl, .help { h₀ with i := 0, stage := .check }⟩)
      (hnext (by simp [h₀]) ?_) ?_
    · simp [stepHelp, State.setPc, State.setThread, hhome, h₀]
    refine .head (b := s.setThread 65 ⟨clock, table, cl, .help { h₀ with i := 0, stage := .compare (s.clock 1 0) }⟩)
      (hnext (by simp) ?_) ?_
    · simp [stepHelp, State.setPc, State.setThread, hhome]
    refine .head (b := s.setThread 65 ⟨clock, table, cl, .help { h₁ with stage := .loop }⟩) (hnext (by simp) ?_) ?_
    · simp [stepHelp, State.setPc, State.setThread, State.read, h₀, h₁, hclk]
    refine .head (b := s.setThread 65 ⟨clock, table, cl, .help h₁⟩) (hnext (by simp) ?_) ?_
    · simp [stepHelp, State.setPc, State.setThread, h₁]
    refine .head (b := s.setThread 65 ⟨c₁, table, cl, .help { h₁ with i := 1 }⟩) (hnext (by simp [h₁]) ?_)
      (.single (hnext (by simp [h₁]) ?_))
    · simp [stepHelp, State.setThread, State.read, h₁, c₁]
    · simp [stepHelp, State.setThread, State.read, h₁, c₂]
  refine ⟨s₁, s₁.setPc 65 .idle, hpath, ⟨⟨{ h₁ with i := 2 }, ?_, rfl⟩, ?_, State.pc_setPc _ _ _⟩, rfl⟩
  · simp [s₁, State.setThread]
  · simp [step, stepThread, stepHelp, State.setThread, s₁, h₁]

/-! ## A run to the last round -/

/-- Node 1 has consumed the first `k` logs, the threads below `j` wait with a log each, and the others have
nothing to release. -/
structure Ready (j k : ℕ) (s : State) : Prop where
  run : (LogManager.machine .twoNodes 0 (flushesCache 0)).Run (LogManager.Below .twoNodes) (s.rings 0)
  held : LogManager.Held j k (s.rings 0)
  fresh : ∀ t, j ≤ t → ∃ clock, s.threads t = ⟨clock, LocalCLTable.empty, 0, .idle⟩
  agent : s.agents 1 = .loop 0
  mtx : s.headMtx 1 = none

namespace Ready

variable {j k : ℕ}

theorem initial : Ready 0 0 (initial .twoNodes) where
  run := .init rfl
  held := .initial
  fresh _ _ := ⟨_, rfl⟩
  agent := rfl
  mtx := rfl

/-- The next thread stores, calls `thread_release` and gets a log. -/
theorem get (h : Ready j k s) (hj : j < 64) (hk : k + 128 ≤ idxRange) :
    ∃ s' clock, Path s s' ∧ Ready (j + 1) k s' ∧ s'.threads j = ⟨clock, oneLine, 0, .getLog .release⟩ ∧
      s'.trace = s.trace ++ [.store j nhcLine] := by
  obtain ⟨clock, ht⟩ := h.fresh j le_rfl
  have hhome : Config.twoNodes.home j = 0 := if_neg (by omega)
  obtain ⟨r, hgets, hheld⟩ := h.held.get (LogManager.inv_of_subscribed h.run).1 hj hk
  let s₁ := s.moved j (s.rings 0) [.store j nhcLine] ⟨clock, oneLine, 0, .getLog .release⟩
  have hpath : Path s₁ (s₁.setRing 0 r) := by
    refine gets hhome (k := .release) (by simp [s₁]) ?_
    rw [State.moved_rings]
    exact Machine.reflTransGen_imp (fun _ _ ha => ha.1) hgets
  refine ⟨s₁.setRing 0 r, clock, (stores ht).trans hpath, ⟨?_, ?_, fun t hjt => ?_, h.agent, h.mtx⟩, ?_, ?_⟩
  · simpa [State.setRing] using LogManager.run_gets h.run hgets
  · simpa [State.setRing] using hheld
  · obtain ⟨clock', ht'⟩ := h.fresh t (by omega)
    have hne : t ≠ j := by omega
    exact ⟨clock', by simpa [s₁, State.moved, State.setThread, State.setRing, State.emit, hne] using ht'⟩
  · simp [s₁]
  · simp [s₁, State.moved, State.setThread, State.emit, State.setRing]

/-- The ring after the last thread with a log has written to it and published it. -/
theorem published {log : ℕ} (h : Ready (j + 1) k s) (hprod : (s.rings 0).prod j = .hold log)
    (hk : k + 128 ≤ idxRange) :
    (LogManager.machine .twoNodes 0 (flushesCache 0)).Run (LogManager.Below .twoNodes)
      ((written (s.rings 0) log).publish .twoNodes j log true) := by
  have hwrite : ReflTransGen ((LogManager.machine .twoNodes 0 (flushesCache 0)).Next
      fun _ a => a = .write j oneEntry) (s.rings 0) (written (s.rings 0) log) :=
    .single ⟨_, rfl, by simp [LogManager.machine, LogManager.step, hprod, written]⟩
  refine LogManager.run_publishes (LogManager.run_below h.run ?_ hwrite) (LogManager.publishes true hprod ?_)
  · rintro _ _ rfl
    exact ⟨trivial, trivial, trivial⟩
  · show (s.rings 0).tail + 1 < idxRange - 64
    rw [h.held.tail]
    omega

/-- Nothing is published after the tail. -/
theorem idx_ne {r : LogManager.State} (hrun : (LogManager.machine .twoNodes 0 (flushesCache 0)).Run
    (LogManager.Below .twoNodes) r) (slot : ℕ) {v : ℕ} (hv : r.tail < v) : (r.pub slot).idx ≠ v := by
  intro hidx
  have hentries := (LogManager.inv_of_subscribed hrun).1.1.entries
  obtain ⟨i, hi, hidx'⟩ := hentries.idx slot (by omega)
  have := hentries.published_lt i hi
  omega

/-- What node 1 finds in the ring then. -/
theorem entry {log : ℕ} {r : LogManager.State} (h : Ready (j + 1) k s) (hk : k + 128 ≤ idxRange)
    (hr : r = (written (s.rings 0) log).publish .twoNodes j log true) :
    (r.subs 1).head = k ∧ (r.subs 1).isSubbed = true ∧ r.cons 1 = .idle ∧ r.tail = k + 1 ∧
      r.pub (LogManager.getIdx .twoNodes k) = ⟨log, k + 1, true⟩ := by
  have htail := h.held.tail
  have hincr : LogManager.incr k = k + 1 := LogManager.incr_eq (by omega)
  subst hr
  refine ⟨h.held.head, (LogManager.inv_of_subscribed h.run).1.2.subbed 1, h.held.cons, ?_, ?_⟩
  · simp [LogManager.State.publish, LogManager.State.setProd, written, htail, hincr]
  · simp [LogManager.State.publish, LogManager.State.setProd, written, htail, hincr]

/-- The agent of node 1 consumes the log at index `k`. -/
theorem consumes {log : ℕ} {r : LogManager.State} (hagent : s.agents 1 = .loop 0) (hmtx : s.headMtx 1 = none)
    (hr : s.rings 0 = r) (hk : k + 128 ≤ idxRange) (hhead : (r.subs 1).head = k)
    (hsub : (r.subs 1).isSubbed = true) (hidle : r.cons 1 = .idle)
    (hpub : r.pub (LogManager.getIdx .twoNodes k) = ⟨log, k + 1, true⟩)
    (hnull : ∀ slot, (r.pub slot).idx ≠ k + 2) :
    ∃ s', Path s s' ∧ s'.rings 0 = r.consume 1 ∧ s'.threads = s.threads ∧ s'.objs = s.objs ∧
      s'.agents 1 = .loop 0 ∧ s'.headMtx 1 = none ∧ s'.clock 1 0 = k + 1 ∧
      ∃ es, s'.trace = s.trace ++ es ∧ ∀ e ∈ es, (∃ idx, e = .process 1 0 idx) ∨
        ∃ m < (r.buf log).size, e ∈ entryEvents 1 ((r.buf log).entries m) := by
  have hincr : LogManager.incr k = k + 1 := LogManager.incr_eq (by omega)
  have hincr' : LogManager.incr (k + 1) = k + 2 := LogManager.incr_eq (by omega)
  have hround := @agent_round s r hagent hmtx hr hsub hidle
  rw [hhead, hincr, hincr', hpub] at hround
  exact hround rfl rfl (hnull _) (by omega)

/-- One log more is produced and consumed. -/
theorem cycle (h : Ready 0 k s) (hk : k + 128 ≤ idxRange) : ∃ s', Path s s' ∧ Ready 0 (k + 1) s' := by
  obtain ⟨s₁, clock, hpath₁, h₁, ht, -⟩ := h.get (by decide) hk
  obtain ⟨log, hprod⟩ := h₁.held.hold 0 (by decide)
  have hpath₂ := publishes rfl ht hprod (by rw [h₁.held.tail]; omega)
  have hrun := h₁.published hprod hk
  generalize hr : (written (s₁.rings 0) log).publish .twoNodes 0 log true = r at hpath₂ hrun
  obtain ⟨hhead, hsub, hidle, htail, hpub⟩ := h₁.entry hk hr.symm
  obtain ⟨s₃, hpath₃, hring, hthreads, -, hagent, hmtx, -⟩ := @consumes (s₁.moved 0 r _ _) k log r h₁.agent
    h₁.mtx (State.moved_rings ..) hk hhead hsub hidle hpub fun slot => idx_ne hrun slot (by omega)
  have hheld : LogManager.Held 1 k (written (s₁.rings 0) log) :=
    ⟨h₁.held.tail, h₁.held.head, h₁.held.cons, h₁.held.mtx, h₁.held.hold, h₁.held.idle⟩
  have hentry : (r.pub (LogManager.getIdx .twoNodes (r.subs 1).head)).idx = LogManager.incr (r.subs 1).head := by
    rw [hhead, hpub, LogManager.incr_eq (by omega)]
  refine ⟨s₃, hpath₁.trans (hpath₂.trans hpath₃), ⟨?_, ?_, fun t _ => ?_, hagent, hmtx⟩⟩
  · rw [hring]
    exact LogManager.run_consumes hrun (LogManager.consumes_entry LogManager.remote_one hidle hentry)
  · rw [hring, ← hr]
    exact hheld.consumed (by omega)
  · rw [hthreads]
    by_cases h0 : t = 0
    · subst h0
      exact ⟨_, State.moved_threads ..⟩
    · obtain ⟨clock', ht'⟩ := h₁.fresh t (by omega)
      exact ⟨clock', by simpa [State.moved, State.setThread, State.setRing, State.emit, h0] using ht'⟩

/-- Any number of logs up to the last two rounds is produced and consumed. -/
theorem exists_zero (hk : k + 128 ≤ idxRange) : ∃ s, (machine .twoNodes).Run Few s ∧ Ready 0 k s := by
  induction k with
  | zero => exact ⟨_, .init rfl, .initial⟩
  | succ k ih =>
      obtain ⟨s, hrun, h⟩ := ih (by omega)
      obtain ⟨s', hpath, h'⟩ := h.cycle (by omega)
      exact ⟨s', hrun.trans hpath, h'⟩

/-- Up to 64 threads wait with a log then. -/
theorem exists_ready (hj : j ≤ 64) (hk : k + 128 ≤ idxRange) :
    ∃ s, (machine .twoNodes).Run Few s ∧ Ready j k s := by
  induction j with
  | zero => exact exists_zero hk
  | succ j ih =>
      obtain ⟨s, hrun, h⟩ := ih (by omega)
      obtain ⟨s', clock, hpath, h', -⟩ := h.get hj hk
      exact ⟨s', hrun.trans hpath, h'⟩

end Ready

/-! ## The lost release -/

/-- Thread 63 has released in the last round with a log at slot 0, and has passed its clock on. All other logs
are held. -/
structure Released (tr : List Event) (log : ℕ) (s : State) : Prop where
  run : (LogManager.machine .twoNodes 0 (flushesCache 0)).Run (LogManager.Below .twoNodes) (s.rings 0)
  free : (s.rings 0).freelist = []
  bound : (s.rings 0).bound = idxRange - 64
  gcMtx : (s.rings 0).gcMtx = none
  idle : (s.rings 0).prod 64 = .idle
  head : ((s.rings 0).subs 1).head = idxRange - 128
  subbed : ((s.rings 0).subs 1).isSubbed = true
  cons : (s.rings 0).cons 1 = .idle
  tail : (s.rings 0).tail = idxRange - 128 + 1
  pub : (s.rings 0).pub 0 = ⟨log, idxRange - 128 + 1, true⟩
  fresh : ∀ t, 64 ≤ t → ∃ clock, s.threads t = ⟨clock, LocalCLTable.empty, 0, .idle⟩
  agent : s.agents 1 = .loop 0
  mtx : s.headMtx 1 = none
  obj : s.objs 0 0 = idxRange - 127
  trace : s.trace = tr ++ [.store 63 nhcLine, .writeback 63 nhcLine, .publish 0 (idxRange - 128),
    .release 63 (idxRange - 127)]

theorem exists_released : ∃ s tr log, (machine .twoNodes).Run Few s ∧ Released tr log s := by
  have hk : idxRange - 128 + 128 ≤ idxRange := by decide
  obtain ⟨s₀, hrun, h₀⟩ := @Ready.exists_ready 63 (idxRange - 128) (by decide) hk
  obtain ⟨s₁, clock, hpath₁, h₁, ht, htrace⟩ := h₀.get (by decide) hk
  obtain ⟨log, hprod⟩ := h₁.held.hold 63 (by decide)
  have hinv := (LogManager.inv_of_subscribed h₁.run).1
  obtain ⟨hfree, hfreed⟩ := h₁.held.full hinv
  have hbound : (s₁.rings 0).bound = idxRange - 64 := by
    rw [h₁.held.bound hinv, hfreed]
    decide
  have hincr : LogManager.incr (idxRange - 128) = idxRange - 127 := by decide
  have hslot : LogManager.getIdx .twoNodes (idxRange - 128) = 0 := by decide
  have hpath₂ := publishes rfl ht hprod (by rw [h₁.held.tail]; decide)
  rw [h₁.held.tail, hincr] at hpath₂
  have hring := h₁.published hprod hk
  obtain ⟨hhead, hsub, hcons, htail, hpub⟩ := h₁.entry hk rfl
  rw [hslot] at hpub
  let s₂ := s₁.moved 63 ((written (s₁.rings 0) log).publish .twoNodes 63 log true)
    [.writeback 63 nhcLine, .publish 0 (idxRange - 128), .release 63 (idxRange - 127)]
    ⟨clock.assign 0 (idxRange - 127), LocalCLTable.empty, 0, .idle⟩
  let s₃ : State := { s₂ with objs := update s₂.objs 0 (clock.assign 0 (idxRange - 127)) }
  have hpath₃ : Path s₂ s₃ := .single (next_few (a := .objStore 63 0) trivial (by simp [ringAction])
    (by simp [step, s₂, s₃]))
  have hring₃ : s₃.rings 0 = (written (s₁.rings 0) log).publish .twoNodes 63 log true := by simp [s₃, s₂]
  refine ⟨s₃, s₀.trace, log, hrun.trans (hpath₁.trans (hpath₂.trans hpath₃)), ?_⟩
  constructor <;> try rw [hring₃]
  · exact hring
  · exact hfree
  · exact hbound
  · exact h₁.held.mtx
  · exact h₁.held.idle 64 le_rfl
  · exact hhead
  · exact hsub
  · exact hcons
  · exact htail
  · exact hpub
  · intro t ht'
    obtain ⟨clock', h'⟩ := h₁.fresh t ht'
    have hne : t ≠ 63 := by omega
    exact ⟨clock', by simpa [s₃, s₂, State.moved, State.setThread, State.setRing, State.emit, hne] using h'⟩
  · exact h₁.agent
  · exact h₁.mtx
  · simp [s₃, VectorClock.assign]
  · simp [s₃, s₂, State.moved, State.setThread, State.setRing, State.emit, htrace]

/-- Thread 64 gets the log of thread 63, and node 1 consumes an empty log. -/
theorem Released.lost {tr : List Event} {log : ℕ} (h : Released tr log s) :
    ∃ s' clock es, Path s s' ∧ s'.objs = s.objs ∧ s'.threads 65 = ⟨clock, LocalCLTable.empty, 0, .idle⟩ ∧
      s'.clock 1 0 = idxRange - 127 ∧ s'.trace = s.trace ++ .store 64 nhcLine :: es ∧
      ∀ e ∈ es, ∃ idx, e = .process 1 0 idx := by
  obtain ⟨clock, ht⟩ := h.fresh 64 le_rfl
  obtain ⟨r, hwraps, -, hbuf, hpub, hsubs, hcons, -⟩ :=
    @LogManager.wraps (flushesCache 0) _ 64 h.idle h.free h.gcMtx h.subbed h.bound
  rw [h.pub] at hbuf
  let s₁ := s.moved 64 (s.rings 0) [.store 64 nhcLine] ⟨clock, oneLine, 0, .getLog .release⟩
  have hpath₁ : Path s₁ (s₁.setRing 0 r) := by
    refine gets (t := 64) rfl (k := .release) (by simp [s₁]) ?_
    rw [State.moved_rings]
    exact hwraps
  have hslot : LogManager.getIdx .twoNodes (idxRange - 128) = 0 := by decide
  obtain ⟨s₂, hpath₂, -, hthreads, hobjs, -, -, hclock, es, htrace, hes⟩ :=
    @Ready.consumes (s₁.setRing 0 r) (idxRange - 128) log r h.agent h.mtx (by simp [State.setRing]) (by decide)
      (by rw [hsubs, h.head]) (by rw [hsubs, h.subbed]) (by rw [hcons, h.cons]) (by rw [hpub, hslot, h.pub])
      (fun slot => by rw [hpub]; exact Ready.idx_ne h.run slot (by rw [h.tail]; decide))
  obtain ⟨clock', ht'⟩ := h.fresh 65 (by decide)
  refine ⟨s₂, clock', es, (stores ht).trans (hpath₁.trans hpath₂), hobjs, ?_, ?_, ?_, fun e he => ?_⟩
  · rw [hthreads]
    simpa [s₁, State.moved, State.setThread, State.setRing, State.emit] using ht'
  · rw [hclock]
    decide
  · rw [htrace]
    simp [s₁, State.moved, State.setThread, State.setRing, State.emit]
  · -- the log was reset
    rcases hes e he with hproc | ⟨m, hm, -⟩
    · exact hproc
    · simp [hbuf, Log.reset] at hm

/-- In a run with all nodes subscribed and fewer than `2 ^ 32 - LOG_COUNT` logs per node, an acquire returns
although a line that was stored to before an acquired release has not been invalidated. -/
theorem not_release_acquire_coherent :
    ¬ ∀ (cfg : Config) (s : State),
      (machine cfg).Run (fun s a => NhcStore a ∧ FewLogs cfg s a) s → Coherent cfg s := by
  intro hall
  obtain ⟨s, tr, log, hrun, h⟩ := exists_released
  obtain ⟨s₁, clock, es, hpath₁, hobjs, ht, hclock, htrace, hes⟩ := h.lost
  have hobj : s₁.objs 0 0 = idxRange - 127 := by rw [hobjs, h.obj]
  obtain ⟨s₂, s₃, hpath₂, hret, htrace₃⟩ := acquires ht (by rw [hobj, hclock])
  simp only [htrace, h.trace, List.append_assoc, List.cons_append, List.nil_append] at htrace₃
  obtain ⟨q₁, q₂, hlater, hinv⟩ := hall .twoNodes s₂ ((hrun.trans hpath₁).trans hpath₂) 65 _ s₃ hret 63
    (idxRange - 127) nhcLine tr _ (by decide) htrace₃ (by simp) hobj.ge
  -- nothing after the store is an invalidation
  have hnone : ∀ e ∈ q₂, (∀ cl, e ≠ .invalidate 1 cl) ∧ e ≠ .wbinvd 1 := by
    intro e he
    have hmem : e ∈ q₁ ++ .writeback 63 nhcLine :: q₂ := by simp [he]
    rw [← hlater] at hmem
    simp only [List.mem_cons] at hmem
    rcases hmem with rfl | rfl | rfl | rfl | hes'
    · simp
    · simp
    · simp
    · simp
    · obtain ⟨idx, rfl⟩ := hes e hes'
      simp
  rcases hinv with hinv | hinv
  · exact (hnone _ hinv).1 _ rfl
  · exact (hnone _ hinv).2 rfl

end Cluster

end RACoherence
