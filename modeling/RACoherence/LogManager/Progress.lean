import RACoherence.LogManager.Safety

/-!
# Getting, publishing and consuming a log

What a single thread does in `get_new_log` when no other one is in it: it takes the first log of the
freelist, or runs `perform_gc` first, in a ring of two nodes. Then what it does in `produce_tail`, and what a
node does between `take_head` and `consume_head`.
-/

namespace RACoherence

open Function Relation

namespace LogManager

/-- A step of thread `t` in `get_new_log`. -/
def InGetNewLog (t : ℕ) (s : State) (a : Action) : Prop :=
  a = .getNewLog t ∨ a = .prod t ∧ (s.prod t).reserved = none

/-- Such a step that does not start `perform_gc` in the last round. -/
def Getting (cfg : LogConfig) (t : ℕ) (s : State) (a : Action) : Prop :=
  InGetNewLog t s a ∧ GcBelowWrap cfg s a

variable {cfg : LogConfig} {nid : ℕ} {stops : ℕ → Bool} {s s' : State} {t : ℕ}

/-- The steps of thread `t` in `get_new_log`. -/
abbrev Gets (cfg : LogConfig) (nid : ℕ) (stops : ℕ → Bool) (t : ℕ) : State → State → Prop :=
  ReflTransGen ((machine cfg nid stops).Next (Getting cfg t))

theorem next_setProd {pc : ProdPc} (hres : pc.reserved = none) (hretry : pc ≠ .retryDequeue)
    (hs : stepProd cfg nid (s.setProd t pc) t = some s') :
    (machine cfg nid stops).Next (Getting cfg t) (s.setProd t pc) s' := by
  have hpc : (s.setProd t pc).prod t = pc := by simp [State.setProd]
  refine ⟨.prod t, ⟨.inr ⟨rfl, by rw [hpc]; exact hres⟩, fun h => ?_⟩, hs⟩
  exact absurd (hpc.symm.trans h) hretry

/-- The freelist is not empty. -/
theorem gets_of_freelist {log : ℕ} {rest : List ℕ} (hidle : s.prod t = .idle)
    (hfree : s.freelist = log :: rest) :
    Gets cfg nid stops t s ({ s with
      freelist := rest
      buf := update s.buf log (s.buf log).reset }.setProd t (.hold log)) := by
  refine .head ⟨.getNewLog t, ⟨.inl rfl, trivial⟩, if_pos hidle⟩ ?_
  refine .head (b := { s with freelist := rest }.setProd t (.reset log))
    (next_setProd rfl (by simp) ?_) (.single (next_setProd rfl (by simp) ?_))
  · simp [stepProd, State.setProd, hfree]
  · simp [stepProd, State.setProd]

/-- The freelist is empty, and the thread gets the mutex of `perform_gc`. -/
theorem gets_mutex (hidle : s.prod t = .idle) (hfree : s.freelist = []) (hmtx : s.gcMtx = none) :
    Gets cfg nid stops t s ({ s with gcMtx := some t }.setProd t .retryDequeue) := by
  refine .head ⟨.getNewLog t, ⟨.inl rfl, trivial⟩, if_pos hidle⟩ ?_
  refine .head (b := s.setProd t .lockGc) (next_setProd rfl (by simp) ?_)
    (.single (next_setProd rfl (by simp) ?_))
  · simp [stepProd, State.setProd, hfree]
  · simp [stepProd, State.setProd, hmtx]

/-- The new bound of `perform_gc` after it has looked at the head of node 1. -/
def scanned (cfg : LogConfig) (s : State) (newB : ℕ) : ℕ :=
  if nextRound cfg (s.subs 1).head < newB ∧ s.bound ≤ nextRound cfg (s.subs 1).head then
    nextRound cfg (s.subs 1).head
  else newB

/-- `perform_gc` of node 0 looks at the head of node 1. -/
theorem gets_scan {newB : ℕ} (hnodes : cfg.nodeCount = 2) (hsub : (s.subs 1).isSubbed = true) :
    Gets cfg 0 stops t (s.setProd t (.gcScan 0 newB false))
      (s.setProd t (.gcLoad s.bound (scanned cfg s newB) true)) := by
  refine .head (b := s.setProd t (.gcScan 1 newB false)) (next_setProd rfl (by simp) ?_) ?_
  · simp [stepProd, State.setProd, hnodes]
  refine .head (b := s.setProd t (.gcHead 1 newB)) (next_setProd rfl (by simp) ?_) ?_
  · simp [stepProd, State.setProd, hnodes, hsub]
  refine .head (b := s.setProd t (.gcScan 2 (scanned cfg s newB) true))
    (next_setProd rfl (by simp) ?_) (.single (next_setProd rfl (by simp) ?_))
  · simp [stepProd, State.setProd, scanned]
    rfl
  · simp [stepProd, State.setProd, hnodes]

/-- The logs of `m` slots from that of index `i` on. -/
def slotLogs (cfg : LogConfig) (pub : ℕ → PubEntry) (i m : ℕ) : List ℕ :=
  (List.range m).map fun k => (pub (getIdx cfg ((i + k) % idxRange))).log

theorem slotLogs_succ (pub : ℕ → PubEntry) {i : ℕ} (hi : i < idxRange) (m : ℕ) :
    slotLogs cfg pub i (m + 1) = (pub (getIdx cfg i)).log :: slotLogs cfg pub (incr i) m := by
  rw [slotLogs, List.range_succ_eq_map, List.map_cons, List.map_map, Nat.add_zero, Nat.mod_eq_of_lt hi]
  refine congrArg _ (List.map_congr_left fun k _ => ?_)
  simp only [comp_apply, incr, Nat.mod_add_mod]
  rw [show i + 1 + k = i + k.succ by omega]

/-- Take the log of the slot of index `i` and put it into the freelist. -/
def State.recycle (cfg : LogConfig) (s : State) (i : ℕ) : State :=
  { s with freed := s.freed + 1, freelist := s.freelist ++ [(s.pub (getIdx cfg i)).log] }

/-- One round of the loop of `perform_gc`. -/
theorem gets_recycle {newB i : ℕ} (hne : i ≠ newB) :
    Gets cfg nid stops t (s.setProd t (.gcLoad i newB true))
      ((s.recycle cfg i).setProd t (.gcLoad (incr i) newB true)) := by
  refine .head (b := s.take.setProd t (.gcEnqueue i newB true (s.pub (getIdx cfg i)).log))
    (next_setProd rfl (by simp) ?_) (.single (next_setProd rfl (by simp) ?_))
  · simp [stepProd, State.setProd, hne, State.take]
  · simp [stepProd, State.setProd, State.take, State.recycle]

/-- The loop of `perform_gc` takes the logs of all slots up to `newB`, also when the loop variable wraps. -/
theorem gets_loop {newB : ℕ} (m i : ℕ) (hi : i < idxRange) (hm : m < idxRange)
    (hnewB : (i + m) % idxRange = newB) :
    Gets cfg nid stops t (s.setProd t (.gcLoad i newB true)) ({ s with
      freed := s.freed + m
      freelist := s.freelist ++ slotLogs cfg s.pub i m }.setProd t (.gcLoad newB newB true)) := by
  induction m generalizing i s with
  | zero =>
      rw [Nat.add_zero, Nat.mod_eq_of_lt hi] at hnewB
      subst hnewB
      simp only [slotLogs, List.range_zero, List.map_nil, List.append_nil, Nat.add_zero]
      exact .refl
  | succ m ih =>
      have hne : i ≠ newB := by
        rintro rfl
        have := Nat.div_add_mod (i + (m + 1)) idxRange
        rcases Nat.lt_or_ge (i + (m + 1)) idxRange with hlt | hge
        · rw [Nat.mod_eq_of_lt hlt] at hnewB
          omega
        · rw [Nat.mod_eq_sub_mod hge, Nat.mod_eq_of_lt (by omega)] at hnewB
          omega
      have hincr : incr i < idxRange := Nat.mod_lt _ (by decide)
      apply (gets_recycle hne).trans
      have hih := ih (s := s.recycle cfg i) (incr i) hincr (by omega)
        (by rw [incr, Nat.mod_add_mod, ← hnewB]; congr 1; omega)
      rw [slotLogs_succ s.pub hi]
      simpa [State.recycle, Nat.add_assoc, Nat.add_comm 1 m] using hih

/-- After its loop `perform_gc` stores the bound, and the thread takes the first log. -/
theorem gets_end {newB log : ℕ} {rest : List ℕ} (hfree : s.freelist = log :: rest) :
    Gets cfg nid stops t (s.setProd t (.gcLoad newB newB true)) ({ s with
      freelist := rest
      bound := newB
      gcMtx := none
      buf := update s.buf log (s.buf log).reset }.setProd t (.hold log)) := by
  refine .head (b := s.setProd t (.gcStore newB)) (next_setProd rfl (by simp) ?_) ?_
  · simp [stepProd, State.setProd]
  refine .head (b := { s with bound := newB }.setProd t .lastDequeue) (next_setProd rfl (by simp) ?_) ?_
  · simp [stepProd, State.setProd]
  refine .head (b := { s with bound := newB, freelist := rest }.setProd t (.unlockGc (some log)))
    (next_setProd rfl (by simp) ?_) ?_
  · simp [stepProd, State.setProd, hfree]
  refine .head (b := { s with bound := newB, freelist := rest, gcMtx := none }.setProd t (.reset log))
    (next_setProd rfl (by simp) ?_) (.single (next_setProd rfl (by simp) ?_))
  · simp [stepProd, State.setProd]
  · simp [stepProd, State.setProd]

/-! ## Publishing -/

/-- The ring after thread `t` has published `log` as a release, or not. -/
def State.publish (cfg : LogConfig) (s : State) (t log : ℕ) (r : Bool) : State :=
  { s with
    tail := incr s.tail
    hist := update s.hist s.tail ⟨log, r, s.buf log⟩
    pub := update s.pub (getIdx cfg s.tail) ⟨log, incr s.tail, r⟩
    published := update s.published s.tail true }.setProd t .idle

/-- The steps of thread `t` in `produce_tail`. -/
def Publishing (cfg : LogConfig) (t : ℕ) (r : Bool) (s : State) (a : Action) : Prop :=
  a = .produceTail t r ∧ FewLogs cfg s a ∨ a = .prod t ∧ (s.prod t).reserved.isSome

/-- `produce_tail` of thread `t`, step by step. -/
theorem publishes {log : ℕ} (r : Bool) (hpc : s.prod t = .hold log)
    (hfew : s.tail + 1 < idxRange - cfg.logCount) :
    ReflTransGen ((machine cfg nid stops).Next (Publishing cfg t r)) s (s.publish cfg t log r) := by
  have hnext : ∀ {s s' : State}, (s.prod t).reserved.isSome → stepProd cfg nid s t = some s' →
      (machine cfg nid stops).Next (Publishing cfg t r) s s' := fun hres hs =>
    ⟨.prod t, .inr ⟨rfl, hres⟩, hs⟩
  let s₁ : State := { s with tail := incr s.tail, hist := update s.hist s.tail ⟨log, r, s.buf log⟩ }
  let k := getIdx cfg s.tail
  refine .head (b := s₁.setProd t (.storeRel log r s.tail)) ⟨.produceTail t r, .inl ⟨rfl, hfew⟩, ?_⟩ ?_
  · simp [machine, step, hpc, s₁]
  refine .head (b := { s₁ with pub := update s.pub k { s.pub k with isRel := r } }.setProd t
    (.storeLog log r s.tail)) (hnext (by simp [State.setProd, ProdPc.reserved]) ?_) ?_
  · simp [stepProd, State.setProd, s₁, k]
  refine .head (b := { s₁ with pub := update s.pub k { s.pub k with isRel := r, log := log } }.setProd t
    (.storeIdx log r s.tail)) (hnext (by simp [State.setProd, ProdPc.reserved]) ?_) (.single
      (hnext (by simp [State.setProd, ProdPc.reserved]) ?_))
  · simp [stepProd, State.setProd, s₁, k]
  · simp [stepProd, State.setProd, State.publish, s₁, k]

/-! ## Consuming -/

/-- The steps of node `n` between `take_head` and `consume_head`. -/
def Consuming (n : ℕ) (_ : State) (a : Action) : Prop := a = .takeHead n ∨ a = .cons n

theorem next_setCons {n : ℕ} {pc : ConsPc} (hs : stepCons cfg stops (s.setCons n pc) n = some s') :
    (machine cfg nid stops).Next (Consuming n) (s.setCons n pc) s' :=
  ⟨.cons n, .inr rfl, hs⟩

/-- Processing the entries of a log ends. -/
theorem consumes_process {n log size : ℕ} {clk : Option ℕ} (m i : ℕ) (hm : size ≤ i + m) :
    ReflTransGen ((machine cfg nid stops).Next (Consuming n)) (s.setCons n (.process log clk i size))
      (s.setCons n (.consume clk)) := by
  induction m generalizing i with
  | zero =>
      refine .single (next_setCons ?_)
      simp [stepCons, State.setCons, show ¬ i < size by omega]
  | succ m ih =>
      by_cases hgo : i < size ∧ ¬ stops ((s.buf log).entries i) = true
      · refine .head (b := s.setCons n (.process log clk (i + 1) size)) (next_setCons ?_)
          (ih (i + 1) (by omega))
        simp only [stepCons, State.setCons, update_self, update_idem]
        rw [if_pos hgo]
      · refine .single (next_setCons ?_)
        simp only [stepCons, State.setCons, update_self, update_idem]
        rw [if_neg hgo]

/-- The ring after node `n` has consumed an entry. -/
def State.consume (s : State) (n : ℕ) : State :=
  { s with subs := update s.subs n { s.subs n with head := incr (s.subs n).head } }.setCons n .idle

/-- A node whose next entry is published consumes it. -/
theorem consumes_entry {n : ℕ} (hrem : Remote cfg nid n) (hidle : s.cons n = .idle)
    (hentry : (s.pub (getIdx cfg (s.subs n).head)).idx = incr (s.subs n).head) :
    ReflTransGen ((machine cfg nid stops).Next (Consuming n)) s (s.consume n) := by
  refine .head (b := s.setCons n (.loadIdx (s.subs n).head))
    ⟨.takeHead n, .inl rfl, if_pos ⟨hrem, hidle⟩⟩ ?_
  refine .head (b := s.setCons n (.entry (getIdx cfg (s.subs n).head))) (next_setCons ?_) ?_
  · simp [stepCons, State.setCons, hentry]
  generalize getIdx cfg (s.subs n).head = k
  refine .head (b := s.setCons n (.gotLog k (s.pub k).log)) (next_setCons ?_) ?_
  · simp [stepCons, State.setCons]
  refine .head (b := s.setCons n (.gotRel k (s.pub k).log (s.pub k).isRel)) (next_setCons ?_) ?_
  · simp [stepCons, State.setCons]
  generalize (s.pub k).log = log
  refine .head (b := s.setCons n (.start log (if (s.pub k).isRel then some (s.pub k).idx else none)))
    (next_setCons ?_) ?_
  · simp [stepCons, State.setCons]
  generalize (if (s.pub k).isRel then some (s.pub k).idx else none) = clk
  refine .head (b := s.setCons n (.process log clk 0 (s.buf log).size)) (next_setCons ?_) ?_
  · simp [stepCons, State.setCons]
  refine (consumes_process (s.buf log).size 0 (by omega)).trans ?_
  refine .head (b := s.setCons n (.storeHead clk (s.subs n).head)) (next_setCons ?_)
    (.single (next_setCons ?_))
  · simp [stepCons, State.setCons]
  · simp [stepCons, State.setCons, State.consume]

end LogManager

end RACoherence
