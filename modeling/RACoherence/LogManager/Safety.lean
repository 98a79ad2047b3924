import RACoherence.LogManager.Preserve

/-!
# Safety of the log ring

With all remote nodes subscribed throughout, the only thing that can go wrong is `next_round(bound)`
at the start of a pass of `perform_gc`: it wraps although no published index does. In every run in
which it does not, the ring is safe.
-/

namespace RACoherence

open Function

namespace LogManager

variable (cfg : LogConfig) (nid : ℕ)

/-! ## All nodes subscribed -/

/-- Nobody subscribes or unsubscribes. -/
def NoSubscription : Action → Prop
  | .addSubscriber _ | .removeSubscriber _ => False
  | _ => True

/-- Fewer than `2 ^ 32 - LOG_COUNT` logs are produced. -/
def FewLogs (s : State) : Action → Prop
  | .produceTail _ _ => s.tail + 1 < idxRange - cfg.logCount
  | _ => True

/-- A pass of `perform_gc` starts with `bound` at least a round below `2 ^ 32`. -/
def GcBelowWrap (s : State) : Action → Prop
  | .prod t => s.prod t = .retryDequeue → s.freelist = [] → s.bound + cfg.logCount < idxRange
  | _ => True

/-- What the ring must keep. Every log has exactly one owner and is queued at most once; the reserved
indices fit the ring and no subscriber is overtaken; and as long as some subscriber has not consumed
an index, its slot and its log are as they were published. -/
structure RingSafe (s : State) : Prop where
  owner : ∀ log < cfg.logCount, ∃! o, OwnedBy s o log
  nodup : s.freelist.Nodup
  tail_le : s.tail ≤ s.freed + cfg.logCount
  freed_le : ∀ n, Remote cfg nid n → s.freed ≤ (s.subs n).head
  kept : ∀ n, Remote cfg nid n → ∀ j, (s.subs n).head ≤ j → j < s.tail →
    s.buf (s.hist j).log = (s.hist j).content ∧
      (s.published j = true → s.pub (getIdx cfg j) = ⟨(s.hist j).log, j + 1, (s.hist j).isRel⟩)

/-- The thread in `perform_gc` has met a subscriber. -/
def ProdPc.sawSubscriber : ProdPc → Bool
  | .gcScan _ _ sub | .gcLoad _ _ sub | .gcEnqueue _ _ sub _ => sub
  | .gcHead .. => true
  | _ => false

/-- What is added to the invariant when nobody subscribes or unsubscribes. -/
structure AllSubscribed (s : State) : Prop where
  subbed : ∀ n, (s.subs n).isSubbed = true
  idle : ∀ n, s.sub n = .idle
  base : ∀ n, s.subBase n = 0
  head_le : ∀ n, (s.subs n).head ≤ s.tail
  saw : ∀ t, (s.prod t).sawSubscriber = true → ∃ n, Remote cfg nid n

variable {cfg nid} {stops : ℕ → Bool} {s s' : State} {a : Action}

namespace AllSubscribed

theorem stable (h : AllSubscribed cfg nid s) {n : ℕ} (hn : Remote cfg nid n) :
    Stable cfg nid s n :=
  ⟨hn, h.subbed n, h.idle n⟩

theorem step (h : AllSubscribed cfg nid s) (hinv : Inv cfg nid s) (hno : NoSubscription a)
    (hwrap : NoWrap cfg s a) (hs : Step cfg nid stops s a s') : AllSubscribed cfg nid s' := by
  cases hs with
  | @produceTail t log r hpc =>
      refine ⟨h.subbed, h.idle, h.base, fun n => ?_, fun u hu => h.saw u ?_⟩
      · have := h.head_le n
        have hincr : incr s.tail = s.tail + 1 := incr_eq hwrap
        simp only [State.setProd, hincr]
        omega
      · simp only [State.setProd, update_apply] at hu
        grind [ProdPc.sawSubscriber]
  | @gcSubscribed t i newB sub hpc hi hne =>
      exact ⟨h.subbed, h.idle, h.base, h.head_le, fun u _ => ⟨i, hi, hne⟩⟩
  | @storeHead n hd clk hpc =>
      obtain ⟨hpub, rfl, -⟩ := hinv.cons_at hpc
      have hpl := hinv.entries.published_lt _ hpub
      have hincr : incr (s.subs n).head = (s.subs n).head + 1 := by
        refine incr_eq ?_
        simpa only [NoWrap, hpc] using hwrap
      refine ⟨fun m => ?_, h.idle, h.base, fun m => ?_, h.saw⟩
      · have := h.subbed m
        simp only [State.setCons, update_apply]
        grind
      · have := h.head_le m
        simp only [State.setCons, update_apply, hincr]
        split
        · exact hpl
        · exact this
  | remove => exact absurd hno id
  | add => exact absurd hno id
  | @subTail n hpc => exact absurd (h.idle n) (by simp [hpc])
  | @subStore n t hpc => exact absurd (h.idle n) (by simp [hpc])
  | @subAgain n t hpc => exact absurd (h.idle n) (by simp [hpc])
  | @subDone n t hpc => exact absurd (h.idle n) (by simp [hpc])
  | _ =>
      refine ⟨h.subbed, h.idle, h.base, h.head_le, fun u hu => ?_⟩
      have hsaw := h.saw
      simp only [State.setProd, State.setCons, State.take, update_apply] at hu
      grind [ProdPc.sawSubscriber]

/-- The slot that the subscribed branch takes is published: some remote node has passed it. -/
private theorem recyclesPublished (h : AllSubscribed cfg nid s) (hinv : Inv cfg nid s) :
    RecyclesPublished cfg s a := by
  cases a with
  | prod t =>
      unfold RecyclesPublished
      dsimp only
      split
      · rename_i i newB hpc
        intro hne
        obtain ⟨hi, hle, hlt, hheads⟩ := hinv.gc_at hpc
        obtain ⟨n, hn⟩ := h.saw t (by rw [hpc]; rfl)
        have hst := h.stable hn
        have hhead := (hheads n hst).2
        have hpub := (hinv.stable n hst).published s.freed (by rw [h.base]; omega) (by omega)
        subst hi
        rw [SlotPublished, prevRound_add_logCount (by omega), getIdx_add_logCount,
          hinv.entries.entry _ le_rfl hpub, incr_eq (by omega)]
      · trivial
  | _ => trivial

/-- Where there is a remote node, the unsubscribed branch is not reached. -/
theorem recyclesLoaded (h : AllSubscribed cfg nid s) (hinv : Inv cfg nid s) {n : ℕ}
    (hn : Remote cfg nid n) : RecyclesLoaded cfg s a := by
  cases a with
  | prod t =>
      unfold RecyclesLoaded
      dsimp only
      split
      · rename_i hpc
        obtain ⟨-, -, -, hnone⟩ := hinv.gc_at hpc
        exact absurd (h.stable hn) (hnone n)
      · trivial
  | _ => trivial

/-- No 32-bit sum wraps while the tail is a round below `2 ^ 32` and `perform_gc` starts in range. -/
theorem noWrap (h : AllSubscribed cfg nid s) (hinv : Inv cfg nid s)
    (htail : s.tail + cfg.logCount < idxRange) (hfew : FewLogs cfg s a)
    (hgc : GcBelowWrap cfg s a) : NoWrap cfg s a := by
  have hpos := cfg.logCount_pos
  cases a with
  | produceTail t r =>
      have hwrap : s.tail + 1 < idxRange - cfg.logCount := hfew
      show s.tail + 1 < idxRange
      omega
  | prod t =>
      unfold NoWrap
      dsimp only
      split
      · rename_i hpc
        exact hgc hpc
      · rename_i i newB hpc
        have := h.head_le i
        omega
      · trivial
  | cons n =>
      unfold NoWrap
      dsimp only
      have hle := h.head_le n
      split
      · rename_i hd hpc
        obtain rfl : hd = (s.subs n).head := hinv.cons_at hpc
        omega
      · rename_i clk hd hpc
        obtain ⟨-, rfl, -⟩ := hinv.cons_at hpc
        omega
      · trivial
  | sub n =>
      simp [NoWrap, h.idle n]
  | _ => trivial

/-- When nobody subscribes or unsubscribes, a step is safe as soon as no sum wraps and the unsubscribed
branch recycles what it has loaded. -/
theorem safe (h : AllSubscribed cfg nid s) (hinv : Inv cfg nid s) (hno : NoSubscription a)
    (hwrap : NoWrap cfg s a) (hloaded : RecyclesLoaded cfg s a) : Safe cfg s a where
  noWrap := hwrap
  published := h.recyclesPublished hinv
  loaded := hloaded
  gc := by
    cases a with
    | addSubscriber n => exact absurd hno id
    | prod t => exact fun _ _ => h.idle
    | _ => trivial
  consume := by
    cases a with
    | addSubscriber n => exact absurd hno id
    | takeHead n => exact h.idle n
    | _ => trivial

theorem initial : AllSubscribed cfg nid (initial cfg) where
  subbed _ := rfl
  idle _ := rfl
  base _ := rfl
  head_le _ := le_rfl
  saw _ h := absurd h (by simp [LogManager.initial, ProdPc.sawSubscriber])

end AllSubscribed

/-- The invariant of the runs with all nodes subscribed. -/
def SubscribedInv (cfg : LogConfig) (nid : ℕ) (s : State) : Prop :=
  Inv cfg nid s ∧ AllSubscribed cfg nid s

theorem subscribedInv_initial : SubscribedInv cfg nid (initial cfg) := ⟨inv_initial, .initial⟩

theorem SubscribedInv.step (h : SubscribedInv cfg nid s) (hno : NoSubscription a)
    (hwrap : NoWrap cfg s a) (hloaded : RecyclesLoaded cfg s a)
    (hs : step cfg nid stops s a = some s') : SubscribedInv cfg nid s' := by
  have hs' := step_cases hs
  exact ⟨h.1.step (h.2.safe h.1 hno hwrap hloaded) hs', h.2.step h.1 hno hwrap hs'⟩

/-- `FewLogs` keeps the tail a round below `2 ^ 32`. -/
theorem tail_lt_of_fewLogs (h : s.tail + cfg.logCount < idxRange) (hfew : FewLogs cfg s a)
    (hs : step cfg nid stops s a = some s') : s'.tail + cfg.logCount < idxRange := by
  cases step_cases hs with
  | produceTail hpc =>
      have hwrap : s.tail + 1 < idxRange - cfg.logCount := hfew
      have hincr : incr s.tail = s.tail + 1 := incr_eq (by omega)
      simp only [State.setProd, hincr]
      omega
  | _ => exact h

/-- Along these runs the invariant holds. -/
theorem inv_of_subscribed
    (h : (machine cfg nid stops).Run (fun s a => NoSubscription a ∧ FewLogs cfg s a ∧
      GcBelowWrap cfg s a ∧ RecyclesLoaded cfg s a) s) :
    SubscribedInv cfg nid s ∧ s.tail + cfg.logCount < idxRange := by
  refine h.invariant
    (I := fun s => SubscribedInv cfg nid s ∧ s.tail + cfg.logCount < idxRange) ?_ ?_
  · rintro s rfl
    exact ⟨subscribedInv_initial, by simpa [initial] using cfg.logCount_lt⟩
  · rintro s a s' - ⟨hinv, htail⟩ ⟨hno, hfew, hgc, hloaded⟩ hstep
    have hwrap := hinv.2.noWrap hinv.1 htail hfew hgc
    exact ⟨hinv.step hno hwrap hloaded hstep, tail_lt_of_fewLogs htail hfew hstep⟩

/-- With the invariant, the ring is safe for the stable subscribers. -/
theorem Inv.ringSafe (h : Inv cfg nid s) (hall : AllSubscribed cfg nid s) : RingSafe cfg nid s where
  owner log hlog := h.owned.exclusive.unique log (Finset.mem_range.mpr hlog)
  nodup := h.owned.nodup
  tail_le := h.owned.tail_le
  freed_le n hn := (h.stable n (hall.stable hn)).freed_le
  kept n hn j hj hlt := by
    have hfreed := (h.stable n (hall.stable hn)).freed_le
    exact ⟨h.entries.content j (hfreed.trans hj) hlt, h.entries.entry j (hfreed.trans hj)⟩

/-- In every run with all nodes subscribed and fewer than `2 ^ 32 - LOG_COUNT` logs, the ring is safe
as long as every pass of `perform_gc` starts with `bound + LOG_COUNT` below `2 ^ 32` and, where there
is no remote node at all, the check of its unsubscribed branch is about the log it has loaded. -/
theorem ring_safe (cfg : LogConfig) (nid : ℕ) (stops : ℕ → Bool) (s : State)
    (h : (machine cfg nid stops).Run
      (fun s a => NoSubscription a ∧ FewLogs cfg s a ∧ GcBelowWrap cfg s a ∧
        RecyclesLoaded cfg s a) s) :
    RingSafe cfg nid s := by
  obtain ⟨⟨hinv, hall⟩, -⟩ := inv_of_subscribed h
  exact hinv.ringSafe hall

/-! ## Short runs -/

/-- A guard for runs with small indices in which `perform_gc` meets a subscriber. -/
def shortRun (s : State) : Action → Bool
  | .produceTail _ _ => decide (s.tail < 1000)
  | .prod t =>
      match s.prod t with
      | .retryDequeue => decide (s.bound < 1000)
      | .gcHead i _ => decide ((s.subs i).head < 1000)
      | .gcCheck .. => false
      | _ => true
  | .cons n =>
      match s.cons n with
      | .loadIdx h | .storeHead _ h => decide (h < 1000)
      | _ => true
  | .sub n =>
      match s.sub n with
      | .recheck t => decide (t < 1000)
      | _ => true
  | _ => true

theorem noWrap_of_shortRun (hcount : cfg.logCount ≤ 64) (h : shortRun s a = true) : NoWrap cfg s a := by
  have hrange : idxRange = 2 ^ 32 := rfl
  cases a with
  | produceTail t r =>
      have : s.tail < 1000 := of_decide_eq_true h
      show s.tail + 1 < idxRange
      omega
  | prod t =>
      unfold NoWrap
      dsimp only
      split
      · rename_i hpc
        simp only [shortRun, hpc, decide_eq_true_eq] at h
        omega
      · rename_i hpc
        simp only [shortRun, hpc, decide_eq_true_eq] at h
        omega
      · trivial
  | cons n =>
      unfold NoWrap
      dsimp only
      split
      · rename_i hpc
        simp only [shortRun, hpc, decide_eq_true_eq] at h
        omega
      · rename_i hpc
        simp only [shortRun, hpc, decide_eq_true_eq] at h
        omega
      · trivial
  | sub n =>
      unfold NoWrap
      dsimp only
      split
      · rename_i hpc
        simp only [shortRun, hpc, decide_eq_true_eq] at h
        omega
      · trivial
  | _ => trivial

theorem fewLogs_of_shortRun (hcount : cfg.logCount ≤ 64) (h : shortRun s a = true) : FewLogs cfg s a := by
  cases a with
  | produceTail t r =>
      have : s.tail < 1000 := of_decide_eq_true h
      show s.tail + 1 < 2 ^ 32 - cfg.logCount
      omega
  | _ => trivial

theorem gcBelowWrap_of_shortRun (hcount : cfg.logCount ≤ 64) (h : shortRun s a = true) :
    GcBelowWrap cfg s a := by
  cases a with
  | prod t =>
      intro hpc _
      have : s.bound < 1000 := by simpa [shortRun, hpc] using h
      show s.bound + cfg.logCount < 2 ^ 32
      omega
  | _ => trivial

theorem recyclesLoaded_of_shortRun (h : shortRun s a = true) : RecyclesLoaded cfg s a := by
  cases a with
  | prod t =>
      unfold RecyclesLoaded
      dsimp only
      split
      · rename_i hpc
        simp [shortRun, hpc] at h
      · trivial
  | _ => trivial

/-- Thread `t` dequeues a log and publishes it. -/
def publishActions (t : ℕ) (r : Bool) : List Action :=
  [.getNewLog t, .prod t, .prod t, .produceTail t r, .prod t, .prod t, .prod t]

/-- Node `n` consumes one entry with an empty log, up to the store of its head. -/
def consumeActions (n : ℕ) : List Action :=
  [.takeHead n, .cons n, .cons n, .cons n, .cons n, .cons n, .cons n, .cons n]

/-- With two logs, thread `t` finds none that is free, recycles both and publishes one of them. -/
def recycleActions (t : ℕ) (r : Bool) : List Action :=
  .getNewLog t :: List.replicate 16 (.prod t) ++ [.produceTail t r, .prod t, .prod t, .prod t]

/-- Two nodes and two logs. -/
def twoLogs : LogConfig := ⟨2, 1, le_rfl, by decide⟩

/-- A guard for short runs in which all nodes stay subscribed. -/
def subscribedRun (s : State) : Action → Bool
  | .addSubscriber _ | .removeSubscriber _ => false
  | a => shortRun s a

theorem of_subscribedRun (h : subscribedRun s a = true) : NoSubscription a ∧ shortRun s a = true := by
  cases a with
  | addSubscriber n => cases h
  | removeSubscriber n => cases h
  | _ => exact ⟨trivial, h⟩

/-- Both logs are published and consumed, and the thread that needs a third one recycles them. -/
theorem ring_safe_recycled :
    ∃ s, s.freed = 2 ∧ s.tail = 3 ∧ (s.subs 1).head = 2 ∧ RingSafe twoLogs 0 s := by
  have heval : ((machine twoLogs 0 fun _ => false).exec subscribedRun (initial twoLogs)
      (publishActions 0 true ++ publishActions 1 false ++ consumeActions 1 ++ [.cons 1] ++
        consumeActions 1 ++ [.cons 1] ++ recycleActions 0 true)).map
        (fun s => (s.freed, s.tail, (s.subs 1).head)) = some (2, 3, 2) := by decide +kernel
  obtain ⟨s, hs, hval⟩ := Option.map_eq_some_iff.mp heval
  simp only [Prod.mk.injEq] at hval
  obtain ⟨hfreed, htail, hhead⟩ := hval
  refine ⟨s, hfreed, htail, hhead, ring_safe twoLogs 0 (fun _ => false) s ?_⟩
  refine Machine.Run.exec (.init rfl) (g := subscribedRun) (fun s a hg => ?_) hs
  obtain ⟨hsub, hshort⟩ := of_subscribedRun hg
  exact ⟨hsub, fewLogs_of_shortRun (by decide) hshort, gcBelowWrap_of_shortRun (by decide) hshort,
    recyclesLoaded_of_shortRun hshort⟩

end LogManager

end RACoherence
