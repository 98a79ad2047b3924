import RACoherence.LogManager.Safety

/-!
# Subscribing again

`add_subscriber` makes a node visible to `perform_gc` before its head is valid, and stores the head
while the consumer of the node may be about to store its own. In runs where it overlaps neither, and
where `perform_gc` recycles only what is published, a node that has subscribed again is as safe as
one that never left.
-/

namespace RACoherence

open Function

namespace LogManager

variable (cfg : LogConfig) (nid : ℕ)

/-- What a node may rely on once `add_subscriber` has returned `t`, which is `subBase n`, and until it
is removed: its head does not move below `t`; every entry from its head on (so every entry from `t`
on that it has not passed) has its log published under it and nowhere else, and once published is in
its slot. No log is in the freelist twice. -/
structure SubscriptionSafe (s : State) : Prop where
  head_ge : ∀ n, Stable cfg nid s n → s.subBase n ≤ (s.subs n).head
  log_kept : ∀ n, Stable cfg nid s n → ∀ j, s.subBase n ≤ j → (s.subs n).head ≤ j → j < s.tail →
    (∀ o, OwnedBy s o (s.hist j).log ↔ o = .index j) ∧
      s.buf (s.hist j).log = (s.hist j).content
  entry_kept : ∀ n, Stable cfg nid s n → ∀ j, s.subBase n ≤ j → (s.subs n).head ≤ j →
    s.published j = true → s.pub (getIdx cfg j) = ⟨(s.hist j).log, j + 1, (s.hist j).isRel⟩
  nodup : s.freelist.Nodup

variable {cfg nid} {stops : ℕ → Bool} {s : State}

/-- The invariant along every safe run. -/
theorem inv_of_safe (h : (machine cfg nid stops).Run (Safe cfg) s) : Inv cfg nid s := by
  refine h.invariant ?_ ?_
  · rintro s rfl
    exact inv_initial
  · intro s a s' _ hinv hok hstep
    exact hinv.step hok (step_cases hstep)

theorem Inv.subscriptionSafe (h : Inv cfg nid s) : SubscriptionSafe cfg nid s where
  head_ge n hn := (h.stable n hn).base_le
  log_kept n hn j _ hj hlt := by
    have hfreed := (h.stable n hn).freed_le.trans hj
    have hown : OwnedBy s (.index j) (s.hist j).log := ⟨hfreed, hlt, rfl⟩
    refine ⟨fun o => ⟨fun ho => h.owned.exclusive.eq ho hown, ?_⟩, h.entries.content j hfreed hlt⟩
    rintro rfl
    exact hown
  entry_kept n hn j _ hj hpub := h.entries.entry j ((h.stable n hn).freed_le.trans hj) hpub
  nodup := h.owned.nodup

/-- In every run in which no 32-bit sum wraps, `perform_gc` recycles only what is published (the slot
is, and its log is the one that was loaded), and `add_subscriber` overlaps neither a pass of
`perform_gc` nor the consumer of its node, subscriptions are safe. -/
theorem subscription_safe (cfg : LogConfig) (nid : ℕ) (stops : ℕ → Bool) (s : State)
    (h : (machine cfg nid stops).Run (fun s a => NoWrap cfg s a ∧ RecyclesPublished cfg s a ∧
      RecyclesLoaded cfg s a ∧ SubscribesOutsideGc s a ∧ SubscribesOutsideConsume s a) s) :
    SubscriptionSafe cfg nid s := by
  have hsafe : (machine cfg nid stops).Run (Safe cfg) s := by
    refine h.imp fun s a _ _ hok _ => ?_
    obtain ⟨h₁, h₂, h₃, h₄, h₅⟩ := hok
    exact ⟨h₁, h₂, h₃, h₄, h₅⟩
  exact (inv_of_safe hsafe).subscriptionSafe

/-! ## Two runs -/

/-- Node `n` runs through `add_subscriber`. -/
def subscribeActions (n : ℕ) : List Action := [.addSubscriber n, .sub n, .sub n, .sub n]

instance (cfg : LogConfig) (s : State) (i : ℕ) : Decidable (SlotPublished cfg s i) :=
  inferInstanceAs (Decidable (_ = _))

/-- A guard for short runs in which only thread 0 needs logs and only node 1 subscribes, neither while the
other does nor while it consumes. -/
def quietRun (cfg : LogConfig) (s : State) (a : Action) : Bool :=
  shortRun s a && match a with
    | .getNewLog t => decide (t = 0)
    | .addSubscriber n => decide (n = 1 ∧ s.cons n = .idle ∧ (s.prod 0).inPass = false)
    | .takeHead n => decide (s.sub n = .idle)
    | .prod t =>
        match s.prod t with
        | .retryDequeue => decide (s.sub 1 = .idle)
        | .gcLoad i newB true => decide (i = newB ∨ SlotPublished cfg s i)
        | _ => true
    | _ => true

/-- In such a run nobody else is in the middle of anything. -/
theorem others_idle (h : (machine cfg nid stops).Run (fun s a => quietRun cfg s a = true) s) :
    (∀ t, t ≠ 0 → s.prod t = .idle) ∧ ∀ n, n ≠ 1 → s.sub n = .idle := by
  refine h.invariant (I := fun s => (∀ t, t ≠ 0 → s.prod t = .idle) ∧ ∀ n, n ≠ 1 → s.sub n = .idle) ?_ ?_
  · rintro s rfl
    exact ⟨fun _ _ => rfl, fun _ _ => rfl⟩
  · intro s a s' _ ⟨hprod, hsub⟩ hguard hs
    have hguard' := (Bool.and_eq_true_iff.mp hguard).2
    -- a party moves that is in the middle of something, or begins a call that the guard allows
    have hthread : ∀ {t : ℕ} {pc : ProdPc}, (s.prod t ≠ .idle ∨ t = 0) →
        ∀ u, u ≠ 0 → update s.prod t pc u = .idle :=
      fun {t pc} ht u hu => by
        have hne : u ≠ t := by
          rintro rfl
          exact ht.elim (fun h => h (hprod u hu)) hu
        rw [update_of_ne hne, hprod u hu]
    have hnode : ∀ {n : ℕ} {pc : SubPc}, (s.sub n ≠ .idle ∨ n = 1) →
        ∀ m, m ≠ 1 → update s.sub n pc m = .idle :=
      fun {n pc} hn m hm => by
        have hne : m ≠ n := by
          rintro rfl
          exact hn.elim (fun h => h (hsub m hm)) hm
        rw [update_of_ne hne, hsub m hm]
    cases step_cases hs with
    | getNewLog hpc => exact ⟨hthread (.inr (of_decide_eq_true hguard')), hsub⟩
    | add hremote hpc hno => exact ⟨hprod, hnode (.inr (of_decide_eq_true hguard').1)⟩
    | write hpc | takeHead hremote hpc | takeNull hpc hidx | takeEntry hpc hidx | loadLog hpc | loadRel hpc
    | loadClk hpc | start hpc | processNext hpc hi hstop | processEnd hpc hi | loadHead hpc | storeHead hpc
    | remove hremote hpc hsubbed => exact ⟨hprod, hsub⟩
    | subTail hpc | subStore hpc | subAgain hpc hlt | subDone hpc hle =>
        exact ⟨hprod, hnode (.inl (by rw [hpc]; simp))⟩
    | _ => exact ⟨hthread (.inl (by simp only [*, ne_eq, reduceCtorEq, not_false_eq_true])), hsub⟩

/-- Node 1 leaves and comes back while nothing else is going on, and then consumes the next log; both logs are
recycled afterwards. -/
theorem subscription_safe_recycled :
    ∃ s, Stable twoLogs 0 s 1 ∧ s.subBase 1 = 1 ∧ (s.subs 1).head = 2 ∧ s.freed = 2 ∧
      SubscriptionSafe twoLogs 0 s := by
  have heval : ((machine twoLogs 0 fun _ => false).exec (quietRun twoLogs) (initial twoLogs)
      ([.removeSubscriber 1] ++ publishActions 0 true ++ subscribeActions 1 ++
        publishActions 0 false ++ consumeActions 1 ++ [.cons 1] ++ recycleActions 0 true)).map
        (fun s => ((s.subs 1, s.sub 1), s.subBase 1, s.freed)) = some ((⟨2, true⟩, .idle), 1, 2) := by
    decide +kernel
  obtain ⟨s, hs, hval⟩ := Option.map_eq_some_iff.mp heval
  simp only [Prod.mk.injEq] at hval
  obtain ⟨⟨hsubs, hsub⟩, hbase, hfreed⟩ := hval
  refine ⟨s, ⟨by decide, by rw [hsubs], hsub⟩, hbase, by rw [hsubs], hfreed,
    subscription_safe twoLogs 0 (fun _ => false) s ?_⟩
  have hrun : (machine twoLogs 0 fun _ => false).Run (fun s a => quietRun twoLogs s a = true) s :=
    Machine.Run.exec (.init rfl) (fun _ _ h => h) hs
  refine hrun.imp fun s a _ hr hq _ => ?_
  obtain ⟨hthreads, hnodes⟩ := others_idle hr
  obtain ⟨hshort, hact⟩ := Bool.and_eq_true_iff.mp hq
  refine ⟨noWrap_of_shortRun (by decide) hshort, ?published, recyclesLoaded_of_shortRun hshort, ?gc, ?consume⟩
  case published =>
    cases a with
    | prod t =>
        unfold RecyclesPublished
        dsimp only
        split
        · rename_i hpc
          intro hne
          simp only [hpc, decide_eq_true_eq] at hact
          exact hact.resolve_left hne
        · trivial
    | _ => trivial
  case gc =>
    cases a with
    | addSubscriber n =>
        intro t
        by_cases ht : t = 0
        · rw [ht]
          exact (of_decide_eq_true hact).2.2
        · rw [hthreads t ht]
          rfl
    | prod t =>
        intro hpc _ n
        simp only [hpc, decide_eq_true_eq] at hact
        by_cases hn : n = 1
        · rw [hn, hact]
        · exact hnodes n hn
    | _ => trivial
  case consume =>
    cases a with
    | addSubscriber n =>
        show s.cons n = .idle
        exact (of_decide_eq_true hact).2.1
    | takeHead n =>
        show s.sub n = .idle
        exact of_decide_eq_true hact
    | _ => trivial

/-- Node 1 is removed and subscribes again, at index 2, while its consumer is about to store the head
it has loaded before: the store moves the head back to 1. -/
theorem subscription_moves_head_back :
    ∃ s, (machine .default 0 fun _ => false).Run (NoWrap .default) s ∧
      ¬ SubscriptionSafe .default 0 s := by
  have heval : ((machine .default 0 fun _ => false).exec shortRun (initial .default)
      (publishActions 0 true ++ consumeActions 1 ++ [.removeSubscriber 1] ++
        publishActions 0 false ++ subscribeActions 1 ++ [.cons 1])).map
        (fun s => ((s.subs 1, s.sub 1), s.subBase 1)) = some ((⟨1, true⟩, .idle), 2) := by
    decide +kernel
  obtain ⟨s, hs, hval⟩ := Option.map_eq_some_iff.mp heval
  simp only [Prod.mk.injEq] at hval
  obtain ⟨⟨hsubs, hsub⟩, hbase⟩ := hval
  refine ⟨s, Machine.Run.exec (.init rfl) (fun _ _ => noWrap_of_shortRun (by decide)) hs, fun hsafe => ?_⟩
  have hge := hsafe.head_ge 1 ⟨by decide, by rw [hsubs], hsub⟩
  rw [hbase, hsubs] at hge
  exact absurd hge (by decide)

end LogManager

end RACoherence
