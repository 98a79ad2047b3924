import RACoherence.LogManager.Progress

/-!
# A bound that wraps

Fewer than `2 ^ 32 - LOG_COUNT` logs do not keep `bound` a round below `2 ^ 32`: when all logs of a ring are
held by producers, `bound` is a round ahead of the tail. A pass of `perform_gc` that starts then has a new
bound of zero, finds no head below it, and recycles logs that nobody has consumed.
-/

namespace RACoherence

open Function Relation

/-- Two nodes with the shipped number of logs. -/
def LogConfig.twoNodes : LogConfig := ⟨2, 6, LogConfig.default.shift_pos, LogConfig.default.shift_lt⟩

namespace LogManager

theorem logCount_twoNodes : LogConfig.twoNodes.logCount = 64 := rfl

theorem remote_one : Remote .twoNodes 0 1 := by decide

/-- The first `k` logs are consumed, and each of the threads below `j` holds one log more. -/
structure Held (j k : ℕ) (s : State) : Prop where
  tail : s.tail = k
  head : (s.subs 1).head = k
  cons : s.cons 1 = .idle
  mtx : s.gcMtx = none
  hold : ∀ t < j, ∃ log, s.prod t = .hold log
  idle : ∀ t, j ≤ t → s.prod t = .idle

namespace Held

variable {stops : ℕ → Bool} {s s' : State} {j k : ℕ}

theorem initial : Held 0 0 (initial .twoNodes) :=
  ⟨rfl, rfl, rfl, rfl, fun t ht => absurd ht (Nat.not_lt_zero t), fun _ _ => rfl⟩

/-- Nobody is in `get_new_log` or `produce_tail`. -/
theorem prod_cases (h : Held j k s) (t : ℕ) : (∃ log, s.prod t = .hold log) ∨ s.prod t = .idle := by
  rcases Nat.lt_or_ge t j with hlt | hge
  · exact .inl (h.hold t hlt)
  · exact .inr (h.idle t hge)

theorem bound (h : Held j k s) (hinv : SubscribedInv .twoNodes 0 s) : s.bound = s.freed + 64 := by
  refine hinv.1.bound fun t => ?_
  rcases h.prod_cases t with ⟨log, hpc⟩ | hpc <;> rw [hpc] <;> rfl

theorem freed_le (h : Held j k s) (hinv : SubscribedInv .twoNodes 0 s) : s.freed ≤ k := by
  have := (hinv.1.stable 1 (hinv.2.stable remote_one)).freed_le
  rwa [h.head] at this

theorem le_freed (h : Held j k s) (hinv : SubscribedInv .twoNodes 0 s) : k ≤ s.freed + 64 := by
  have := hinv.1.owned.tail_le
  rwa [h.tail] at this

/-- When the freelist is empty, every log is held or under an index that is not recycled. -/
theorem freed_lt (h : Held j k s) (hinv : SubscribedInv .twoNodes 0 s) (hfree : s.freelist = [])
    (hj : j < 64) : s.freed < k := by
  by_contra hge
  have howner : ∀ log ∈ Finset.range 64, ∃ t ∈ Finset.range j, s.prod t = .hold log := by
    intro log hlog
    obtain ⟨o, ho, -⟩ := hinv.1.owned.exclusive.unique log hlog
    cases o with
    | queued => simp [OwnedBy, hfree] at ho
    | gc t =>
        rcases h.prod_cases t with ⟨l, hpc⟩ | hpc <;> simp [OwnedBy, hpc, ProdPc.inHand] at ho
    | producer t =>
        rcases Nat.lt_or_ge t j with hlt | hidle
        · obtain ⟨l, hpc⟩ := h.hold t hlt
          simp only [OwnedBy, hpc, ProdPc.holds, Option.some.injEq] at ho
          exact ⟨t, Finset.mem_range.mpr hlt, ho ▸ hpc⟩
        · simp [OwnedBy, h.idle t hidle, ProdPc.holds] at ho
    | index i =>
        have := h.tail
        obtain ⟨h₁, h₂, -⟩ := ho
        omega
  choose! f hf using howner
  -- a thread holds one log, so the 64 logs need 64 threads
  have hcard := Finset.card_le_card_of_injOn f (fun log hlog => (hf log hlog).1) fun a ha b hb hab => by
    have hpc := (hf b hb).2
    rw [← hab, (hf a ha).2] at hpc
    exact ProdPc.hold.inj hpc
  simp only [Finset.card_range] at hcard
  omega

/-- When every log is held, nothing is left in the freelist or in the ring. -/
theorem full (h : Held 64 k s) (hinv : SubscribedInv .twoNodes 0 s) : s.freelist = [] ∧ s.freed = k := by
  -- a further owner would be one too many
  have hnone : ∀ o, (∀ t, o ≠ .producer t) → ¬ ∃ log, OwnedBy s o log := by
    intro o hne howns
    have hnot : o ∉ (Finset.range 64).map ⟨Owner.producer, fun _ _ => by simp⟩ := by
      rw [Finset.mem_map]
      rintro ⟨t, -, rfl⟩
      exact hne t rfl
    have hcard := hinv.1.owned.exclusive.card_le (T := Finset.cons o _ hnot) fun p hp => by
      rcases Finset.mem_cons.mp hp with rfl | hmem
      · exact howns
      · obtain ⟨t, ht, rfl⟩ := Finset.mem_map.mp hmem
        obtain ⟨log, hpc⟩ := h.hold t (Finset.mem_range.mp ht)
        have hholds : (s.prod t).holds = some log := by rw [hpc]; rfl
        exact ⟨log, hholds⟩
    rw [Finset.card_cons, Finset.card_map, Finset.card_range, Finset.card_range,
      logCount_twoNodes] at hcard
    omega
  refine ⟨List.eq_nil_iff_forall_not_mem.mpr fun log hlog => hnone .queued (by simp) ⟨log, hlog⟩, ?_⟩
  refine (h.freed_le hinv).antisymm (Nat.le_of_not_lt fun hlt => ?_)
  exact hnone (.index s.freed) (by simp) ⟨_, le_rfl, by rwa [h.tail], rfl⟩

/-- Thread `j` gets a log and nothing else changes for the others. -/
theorem got {log : ℕ} (h : Held j k s) (htail : s'.tail = s.tail) (hsubs : s'.subs = s.subs)
    (hcons : s'.cons = s.cons) (hmtx : s'.gcMtx = none) (hprod : s'.prod = update s.prod j (.hold log)) :
    Held (j + 1) k s' where
  tail := htail.trans h.tail
  head := by rw [hsubs, h.head]
  cons := by rw [hcons, h.cons]
  mtx := hmtx
  hold t ht := by
    rw [hprod, update_apply]
    split
    · exact ⟨log, rfl⟩
    · exact h.hold t (by omega)
  idle t ht := by
    rw [hprod, update_of_ne (by omega)]
    exact h.idle t (by omega)

/-- As long as a log is left, `get_new_log` of the next thread returns one. -/
theorem get (h : Held j k s) (hinv : SubscribedInv .twoNodes 0 s) (hj : j < 64)
    (hk : k + 128 ≤ idxRange) : ∃ s', Gets .twoNodes 0 stops j s s' ∧ Held (j + 1) k s' := by
  have hidle := h.idle j le_rfl
  cases hfree : s.freelist with
  | cons log rest => exact ⟨_, gets_of_freelist hidle hfree, h.got rfl rfl rfl h.mtx rfl⟩
  | nil =>
      have hbound := h.bound hinv
      have hlt := h.freed_lt hinv hfree hj
      have hle := h.le_freed hinv
      have hnext : ∀ x, x + 64 < idxRange → nextRound .twoNodes x = x + 64 := fun x hx =>
        Nat.mod_eq_of_lt hx
      -- the pass starts below the wrap, and its new bound is a round past the head of node 1
      let s₁ : State := { s with gcMtx := some j }
      have hscan : scanned .twoNodes s₁ (s.bound + 64) = k + 64 := by
        have hhead : (s₁.subs 1).head = k := h.head
        have hb : s₁.bound = s.bound := rfl
        rw [scanned, hhead, hnext k (by omega), hb]
        split <;> omega
      obtain ⟨m, hm⟩ : ∃ m, k = s.freed + (m + 1) := ⟨k - s.freed - 1, by omega⟩
      have hloop := @gets_loop .twoNodes 0 stops s₁ j (k + 64) (m + 1) s.bound (by omega) (by omega)
        (by rw [hbound, Nat.mod_eq_of_lt (by omega)]; omega)
      rw [slotLogs_succ s₁.pub (by omega)] at hloop
      have hstart : (machine .twoNodes 0 stops).Next (Getting .twoNodes j) (s₁.setProd j .retryDequeue)
          (s₁.setProd j (.gcScan 0 (s.bound + 64) false)) := by
        refine ⟨.prod j, ⟨.inr ⟨rfl, by simp [State.setProd, ProdPc.reserved]⟩, fun _ _ => ?_⟩, ?_⟩
        · show s.bound + 64 < idxRange
          omega
        · simp [machine, step, stepProd, State.setProd, s₁, hfree, hnext s.bound (by omega)]
      have hsub : (s₁.subs 1).isSubbed = true := hinv.2.subbed 1
      have hscanned : Gets .twoNodes 0 stops j (s₁.setProd j (.gcScan 0 (s.bound + 64) false))
          (s₁.setProd j (.gcLoad s.bound (k + 64) true)) := hscan ▸ gets_scan rfl hsub
      have hpath := (gets_mutex hidle hfree h.mtx).trans (.head hstart (hscanned.trans hloop))
      have hend := hpath.trans (gets_end (by rw [hfree, List.nil_append]))
      exact ⟨_, hend, h.got rfl rfl rfl rfl rfl⟩

end Held

/-! ## A run to the last round -/

/-- The steps of the runs in which the ring is safe. -/
abbrev Below (cfg : LogConfig) (s : State) (a : Action) : Prop :=
  NoSubscription a ∧ FewLogs cfg s a ∧ GcBelowWrap cfg s a ∧ RecyclesLoaded cfg s a

section Run

variable {stops : ℕ → Bool} {s s' : State} {j k t : ℕ}

/-- With a remote node, only `FewLogs` and `GcBelowWrap` are left to check. -/
theorem run_below {ok : State → Action → Prop} (h : (machine .twoNodes 0 stops).Run (Below .twoNodes) s)
    (hok : ∀ s a, ok s a → NoSubscription a ∧ FewLogs .twoNodes s a ∧ GcBelowWrap .twoNodes s a)
    (hs : ReflTransGen ((machine .twoNodes 0 stops).Next ok) s s') :
    (machine .twoNodes 0 stops).Run (Below .twoNodes) s' := by
  induction hs with
  | refl => exact h
  | tail _ hnext ih =>
      obtain ⟨a, ha, hstep⟩ := hnext
      obtain ⟨hno, hfew, hgc⟩ := hok _ a ha
      obtain ⟨⟨hinv, hall⟩, -⟩ := inv_of_subscribed ih
      exact .step ih ⟨hno, hfew, hgc, hall.recyclesLoaded hinv remote_one⟩ hstep

theorem run_gets (h : (machine .twoNodes 0 stops).Run (Below .twoNodes) s)
    (hs : Gets .twoNodes 0 stops t s s') : (machine .twoNodes 0 stops).Run (Below .twoNodes) s' := by
  refine run_below h (fun s a ha => ?_) hs
  obtain ⟨rfl | ⟨rfl, -⟩, hgc⟩ := ha <;> exact ⟨trivial, trivial, hgc⟩

theorem run_publishes {r : Bool} (h : (machine .twoNodes 0 stops).Run (Below .twoNodes) s)
    (hs : ReflTransGen ((machine .twoNodes 0 stops).Next (Publishing .twoNodes t r)) s s') :
    (machine .twoNodes 0 stops).Run (Below .twoNodes) s' := by
  refine run_below h (fun s a ha => ?_) hs
  obtain ⟨rfl, hfew⟩ | ⟨rfl, hres⟩ := ha
  · exact ⟨trivial, hfew, trivial⟩
  · refine ⟨trivial, trivial, fun hpc => ?_⟩
    rw [hpc] at hres
    cases hres

theorem run_consumes {n : ℕ} (h : (machine .twoNodes 0 stops).Run (Below .twoNodes) s)
    (hs : ReflTransGen ((machine .twoNodes 0 stops).Next (Consuming n)) s s') :
    (machine .twoNodes 0 stops).Run (Below .twoNodes) s' := by
  refine run_below h (fun s a ha => ?_) hs
  obtain rfl | rfl := ha <;> exact ⟨trivial, trivial, trivial⟩

/-- The entry that thread 0 has just published is the next one of node 1. -/
theorem Held.entry {log : ℕ} {r : Bool} (h : Held j k s) :
    ((s.publish .twoNodes t log r).pub (getIdx .twoNodes ((s.publish .twoNodes t log r).subs 1).head)).idx =
      incr ((s.publish .twoNodes t log r).subs 1).head := by
  have hhead : ((s.publish .twoNodes t log r).subs 1).head = k := h.head
  rw [hhead]
  simp [State.publish, State.setProd, h.tail]

/-- Thread 0 publishes its log and node 1 consumes it. -/
theorem Held.consumed {log : ℕ} {r : Bool} (h : Held 1 k s) (hk : k + 1 < idxRange) :
    Held 0 (k + 1) ((s.publish .twoNodes 0 log r).consume 1) where
  tail := by simp [State.publish, State.consume, State.setProd, State.setCons, h.tail, incr_eq hk]
  head := by simp [State.publish, State.consume, State.setProd, State.setCons, h.head, incr_eq hk]
  cons := by simp [State.consume, State.setCons]
  mtx := h.mtx
  hold t ht := absurd ht (Nat.not_lt_zero t)
  idle t _ := by
    simp only [State.publish, State.consume, State.setProd, State.setCons, update_apply]
    split
    · rfl
    · exact h.idle t (by omega)

/-- One log more is produced and consumed. -/
theorem Held.cycle (h : Held 0 k s) (hrun : (machine .twoNodes 0 stops).Run (Below .twoNodes) s)
    (hk : k + 128 ≤ idxRange) :
    ∃ s', (machine .twoNodes 0 stops).Run (Below .twoNodes) s' ∧ Held 0 (k + 1) s' := by
  obtain ⟨s₁, hgets, h₁⟩ := h.get (inv_of_subscribed hrun).1 (by decide) hk
  obtain ⟨log, hlog⟩ := h₁.hold 0 (by decide)
  have hfew : s₁.tail + 1 < idxRange - LogConfig.twoNodes.logCount := by
    rw [h₁.tail, logCount_twoNodes]
    omega
  have hrun₂ := run_publishes (run_gets hrun hgets) (publishes true hlog hfew)
  exact ⟨_, run_consumes hrun₂ (consumes_entry remote_one h₁.cons h₁.entry), h₁.consumed (by omega)⟩

/-- Any number of logs up to the last two rounds is produced and consumed. -/
theorem exists_held_zero (hk : k + 128 ≤ idxRange) :
    ∃ s, (machine .twoNodes 0 stops).Run (Below .twoNodes) s ∧ Held 0 k s := by
  induction k with
  | zero => exact ⟨_, .init rfl, .initial⟩
  | succ k ih =>
      obtain ⟨s, hrun, h⟩ := ih (by omega)
      exact h.cycle hrun (by omega)

/-- Up to 64 threads get a log then. -/
theorem exists_held (hj : j ≤ 64) (hk : k + 128 ≤ idxRange) :
    ∃ s, (machine .twoNodes 0 stops).Run (Below .twoNodes) s ∧ Held j k s := by
  induction j with
  | zero => exact exists_held_zero hk
  | succ j ih =>
      obtain ⟨s, hrun, h⟩ := ih (by omega)
      obtain ⟨s', hgets, h'⟩ := h.get (inv_of_subscribed hrun).1 hj hk
      exact ⟨s', run_gets hrun hgets, h'⟩

/-! ## The pass that wraps -/

/-- In the last round `perform_gc` takes the logs of all slots, and the thread gets that of slot 0. -/
theorem wraps (hidle : s.prod t = .idle) (hfree : s.freelist = []) (hmtx : s.gcMtx = none)
    (hsub : (s.subs 1).isSubbed = true) (hbound : s.bound = idxRange - 64) :
    ∃ s', ReflTransGen ((machine .twoNodes 0 stops).Next (InGetNewLog t)) s s' ∧
      s'.freed = s.freed + 64 ∧ s'.buf = update s.buf (s.pub 0).log (s.buf (s.pub 0).log).reset ∧
      s'.pub = s.pub ∧ s'.subs = s.subs ∧ s'.cons = s.cons ∧ s'.prod = update s.prod t (.hold (s.pub 0).log) := by
  let s₁ : State := { s with gcMtx := some t }
  have hstart : (machine .twoNodes 0 stops).Next (InGetNewLog t) (s₁.setProd t .retryDequeue)
      (s₁.setProd t (.gcScan 0 0 false)) := by
    refine ⟨.prod t, .inr ⟨rfl, by simp [State.setProd, ProdPc.reserved]⟩, ?_⟩
    have hnext : nextRound .twoNodes (idxRange - 64) = 0 := by decide
    simp [machine, step, stepProd, State.setProd, s₁, hfree, hbound, hnext]
  -- no head is below a new bound of zero
  have hscan : Gets .twoNodes 0 stops t (s₁.setProd t (.gcScan 0 0 false))
      (s₁.setProd t (.gcLoad (idxRange - 64) 0 true)) := by
    have hzero : scanned .twoNodes s₁ 0 = 0 := if_neg fun h => absurd h.1 (Nat.not_lt_zero _)
    have hb : s₁.bound = idxRange - 64 := hbound
    have := @gets_scan .twoNodes stops s₁ t 0 rfl hsub
    rwa [hzero, hb] at this
  have hloop := @gets_loop .twoNodes 0 stops s₁ t 0 64 (idxRange - 64) (by decide) (by decide) (by decide)
  rw [slotLogs_succ s₁.pub (by decide)] at hloop
  have hend := hscan.trans (hloop.trans (gets_end (by rw [hfree, List.nil_append])))
  have hmono : ∀ {s s' : State}, Gets .twoNodes 0 stops t s s' →
      ReflTransGen ((machine .twoNodes 0 stops).Next (InGetNewLog t)) s s' :=
    Machine.reflTransGen_imp fun _ _ ha => ha.1
  exact ⟨_, (hmono (gets_mutex hidle hfree hmtx)).trans (.head hstart (hmono hend)), rfl, rfl, rfl, rfl, rfl, rfl⟩

end Run

/-- In a run with all nodes subscribed and fewer than `2 ^ 32 - LOG_COUNT` logs, logs are recycled before they
are consumed: 64 threads hold a log, and the pass of a further one wraps. -/
theorem not_ring_safe :
    ¬ ∀ (cfg : LogConfig) (nid : ℕ) (stops : ℕ → Bool) (s : State),
      (machine cfg nid stops).Run (fun s a => NoSubscription a ∧ FewLogs cfg s a) s → RingSafe cfg nid s := by
  intro hall
  obtain ⟨s, hrun, h⟩ := @exists_held (fun _ => false) 64 (idxRange - 128) le_rfl (by decide)
  have hinv := (inv_of_subscribed hrun).1
  obtain ⟨hfree, hfreed⟩ := h.full hinv
  have hbound : s.bound = idxRange - 64 := by
    rw [h.bound hinv, hfreed]
    decide
  obtain ⟨s', hpath, hfreed', -, -, hsubs, -⟩ :=
    wraps (h.idle 64 le_rfl) hfree h.mtx (hinv.2.subbed 1) hbound
  have hrun' : (machine .twoNodes 0 fun _ => false).Run
      (fun s a => NoSubscription a ∧ FewLogs .twoNodes s a) s' := by
    refine (hrun.imp fun _ _ _ _ hok _ => ⟨hok.1, hok.2.1⟩).trans (Machine.reflTransGen_imp ?_ hpath)
    rintro s a (rfl | ⟨rfl, -⟩) <;> exact ⟨trivial, trivial⟩
  -- 64 logs more are recycled than node 1 has consumed
  have hle := (hall _ _ _ s' hrun').freed_le 1 remote_one
  rw [hsubs, h.head, hfreed', hfreed] at hle
  omega

end LogManager

end RACoherence
