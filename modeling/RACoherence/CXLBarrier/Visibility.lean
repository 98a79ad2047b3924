import RACoherence.CXLBarrier.Rounds

/-!
# What a thread knows when it leaves the barrier

Clocks flow from every arrival into `arrived`, from there to the thread with the last ticket, which
does not write a log in between, from it into `phase`, and from `phase` to the waiting threads.
-/

namespace RACoherence

open Function CXLAtomic CountingBarrier

namespace CXLBarrier

variable {home : ℕ → ℕ} {N : ℕ} {s s' : State} {b b' : CountingBarrier.State} {t u k clk : ℕ}

/-- Thread `t` is in the given place, between its `fetch_add` and the merge of its clock `c`. -/
def Merges (s : State) (t : ℕ) (c : VectorClock) : Prop :=
  (∃ is, (s.sync.threads t).code = .mergeClock :: is) ∧ c ≤ (s.sync.threads t).threadClock

/-- The thread has released in this round and has not stored since. -/
def Clean : Pc → List (Instr 32) → Prop
  | .arrive _, is => .release ∉ is
  | .loadTarget _ _, _ | .reset, _ | .addPhase, _ => True
  | _, _ => False

/-- What the thread with the last ticket knows of an arrival with clock `c` in its round. -/
def Knows (th : Thread 32) (c : VectorClock) : Pc → Prop
  | .arrive _ => (th.code = [.unlock, .acquire] ∨ th.code = [.acquire] → c ≤ th.clock) ∧
      (th.code = [] → c ≤ th.threadClock)
  | .loadTarget _ _ | .reset | .addPhase => c ≤ th.threadClock
  | _ => True

/-- What a waiting thread that has read another phase knows of it. -/
def Sees (th : Thread 32) (a : Atomic 32) (c : VectorClock) : Prop :=
  (∀ is, th.code = .readClock :: is → c ≤ a.clock) ∧
    (th.code = [.unlock, .acquire] ∨ th.code = [.acquire] → c ≤ th.clock) ∧
    (th.code = [] → c ≤ th.threadClock)

structure Visible (N : ℕ) (s : State) (b : CountingBarrier.State) : Prop where
  merged : ∀ u k c, s.arrival u k = some c → c ≤ (s.sync.atomics arrived).clock ∨
    ((∃ lp, s.pc u = .arrive lp) ∧ Merges s u c)
  clean : ∀ t, Clean (s.pc t) (s.sync.threads t).code → (s.sync.threads t).recentCl = 0
  last : ∀ t < N, b.ticket t (s.round t) = some (N - 1) → ∀ u < N, ∀ c,
    s.arrival u (s.round t) = some c → Knows (s.sync.threads t) c (s.pc t)
  opened : ∀ k < b.opened, ∀ u < N, ∀ c, s.arrival u k = some c →
    c ≤ (s.sync.atomics phase).clock ∨ ∃ t, s.pc t = .addPhase ∧ Merges s t c
  spin : ∀ t lp, s.pc t = .spin lp → (s.sync.threads t).ret ≠ lp → ∀ u < N, ∀ c,
    s.arrival u (s.round t) = some c → Sees (s.sync.threads t) (s.sync.atomics phase) c

/-- Two threads are not both between `lock` and `unlock` of one atomic. -/
theorem Sim.eq_of_inSection (h : Sim N s b) (hloc : (s.sync.threads t).loc = (s.sync.threads u).loc)
    (ht : InSection (s.sync.threads t).code) (hu : InSection (s.sync.threads u).code) : t = u := by
  have hmt := (h.sync.owner _ t).mpr ⟨hloc, ht⟩
  have hmu := (h.sync.owner _ u).mpr ⟨rfl, hu⟩
  exact Option.some.inj (hmt.symm.trans hmu)

/-- A thread that merges is in the section. -/
theorem Sim.inSection_of_merges (h : Sim N s b) {is : List (Instr 32)}
    (hcode : (s.sync.threads t).code = .mergeClock :: is) : InSection (s.sync.threads t).code := by
  have hsuf := (h.sync.thread t).suffix
  rw [hcode] at hsuf ⊢
  rcases follows_of_suffix hsuf with rfl | rfl <;> simp [InSection]

/-- Where no arrival is added, no ticket is. -/
theorem Sim.ticket_eq {a : Action} (h : Sim N s b) (h' : Sim N s' b') (hg : Grows s a b b')
    (hsame : s'.arrival u k = s.arrival u k) : b'.ticket u k = b.ticket u k := by
  cases hx : b.ticket u k with
  | some x => exact hg.ticket u k x hx
  | none =>
      have hold := h.arrival u k
      have hnew := h'.arrival u k
      rw [hsame, hold, hx] at hnew
      simpa using hnew.symm

/-- The operations of `wait` do not overwrite a clock. -/
theorem Sim.ne_setClock (h : Sim N s b) {i : Instr 32} {rest : List (Instr 32)}
    (hcode : (s.sync.threads t).code = i :: rest) : i ≠ .setClock := by
  rintro rfl
  have hsuf := (h.sync.thread t).suffix
  have hpc := h.pc t
  rw [hcode] at hsuf
  cases hpc' : s.pc t with
  | idle => simp [hpc', PcOk, hcode] at hpc
  | _ =>
      simp only [hpc', PcOk, Calls] at hpc
      obtain ⟨⟨-, hop, horder⟩, -⟩ := hpc
      simp [hop, horder, code, List.suffix_cons_iff] at hsuf

/-- So clocks of atomics only grow. -/
theorem Sim.clock_le (h : Sim N s b) {i : Instr 32} {rest : List (Instr 32)}
    {sync : CXLAtomic.State 32} (hcode : (s.sync.threads t).code = i :: rest)
    (hs : CXLAtomic.exec home s.sync t clk rest i = some sync) (l : ℕ) :
    (s.sync.atomics l).clock ≤ (sync.atomics l).clock := by
  rw [exec_clock hs]
  split
  · cases i with
    | setClock => exact absurd rfl (h.ne_setClock hcode)
    | mergeClock => exact VectorClock.le_merge_left
    | _ => exact le_rfl
  · exact le_rfl

/-! ## Accesses -/

variable {i : Instr 32} {rest : List (Instr 32)} {sync : CXLAtomic.State 32}

/-- The state after an access of thread `t`. -/
def after (s : State) (t : ℕ) (i : Instr 32) (sync : CXLAtomic.State 32) : State :=
  { if isArrival (s.pc t) i then s.arriveAt t else s with sync := sync }

theorem after_pc : (after s t i sync).pc = s.pc := by
  unfold after
  dsimp only
  split <;> rfl

theorem after_round : (after s t i sync).round = s.round := by
  unfold after
  dsimp only
  split <;> rfl

/-- The arrivals after an access. -/
theorem after_arrival {c : VectorClock} (h : (after s t i sync).arrival u k = some c) :
    s.arrival u k = some c ∨ (isArrival (s.pc t) i = true ∧ u = t ∧ k = s.round t ∧
      c = (s.sync.threads t).relClk) := by
  unfold after at h
  dsimp only at h
  split at h
  · rename_i harr
    simp only [State.arriveAt, update_apply] at h
    grind
  · exact .inl h

/-- The thread that arrives is out before. -/
theorem stage_of_isArrival (hsim : Sim N s b) (hcode : (s.sync.threads t).code = i :: rest)
    (harr : isArrival (s.pc t) i = true) :
    t < N ∧ (∃ lp, s.pc t = .arrive lp) ∧ i = .fetchAdd 1 true ∧ s.round t = b.opened ∧
      s.arrival t (s.round t) = none := by
  cases hpc : s.pc t with
  | arrive lp =>
      obtain ⟨hcalls, -, -⟩ : _ ∧ _ ∧ _ := by simpa only [hpc, PcOk] using hsim.pc t
      have ht := hsim.participant t (by simp [hpc])
      rcases hsim.fetchAdd_cases hcode hcalls.2.1 hcalls.2.2 with ⟨rfl, -⟩ | ⟨-, -, -, hno⟩
      · have hout : b.stage t = .out := by rw [hsim.stage, hpc, hcode]; simp [stageOf]
        have hround : b.round t = s.round t := congrFun hsim.round t
        refine ⟨ht, ⟨lp, rfl⟩, rfl, hround ▸ hsim.ok.out t ht hout, ?_⟩
        have hno := (hsim.ok.has t ht (s.round t)).not.mpr (by simp [hround, hout])
        rw [← hsim.arrival] at hno
        simpa using hno
      · rw [hno] at harr
        cases harr
  | _ => simp [hpc, isArrival] at harr

/-- In a round in which all have arrived, an access adds no arrival. -/
theorem arrival_of_all (hsim : Sim N s b) (hcode : (s.sync.threads t).code = i :: rest)
    (hall : ∀ u < N, (s.arrival u k).isSome) {c : VectorClock}
    (h : (after s t i sync).arrival u k = some c) : s.arrival u k = some c := by
  rcases after_arrival h with h | ⟨harr, rfl, rfl, -⟩
  · exact h
  · obtain ⟨ht, -, -, -, hnone⟩ := stage_of_isArrival hsim hcode harr
    have := hall u ht
    simp [hnone] at this

/-- The accesses of an `acq_rel` `fetch_add`, with what follows them. -/
theorem fetchAdd_rest (hsim : Sim N s b) (hcode : (s.sync.threads t).code = i :: rest)
    (hop : (s.sync.threads t).op = .fetchAdd 1) (horder : (s.sync.threads t).order = .acqRel) :
    (i = .release ∧ rest = [.lock, .fetchAdd 1 true, .mergeClock, .readClock, .unlock, .acquire]) ∨
      (i = .lock ∧ rest = [.fetchAdd 1 true, .mergeClock, .readClock, .unlock, .acquire]) ∨
      (i = .fetchAdd 1 true ∧ rest = [.mergeClock, .readClock, .unlock, .acquire]) ∨
      (i = .mergeClock ∧ rest = [.readClock, .unlock, .acquire]) ∨
      (i = .readClock ∧ rest = [.unlock, .acquire]) ∨ (i = .unlock ∧ rest = [.acquire]) ∨
      (i = .acquire ∧ rest = []) := by
  have hsuf := (hsim.sync.thread t).suffix
  rw [hcode, hop, horder] at hsuf
  simpa only [code, List.suffix_cons_iff, List.suffix_nil, List.cons.injEq, reduceCtorEq, or_false,
    or_true, if_true] using hsuf

/-- The accesses of an acquire load, with what follows them. -/
theorem load_rest (hsim : Sim N s b) (hcode : (s.sync.threads t).code = i :: rest)
    (hop : (s.sync.threads t).op = .load) (horder : (s.sync.threads t).order = .acquire) :
    (i = .lock ∧ rest = [.load true, .readClock, .unlock, .acquire]) ∨
      (i = .load true ∧ rest = [.readClock, .unlock, .acquire]) ∨
      (i = .readClock ∧ rest = [.unlock, .acquire]) ∨ (i = .unlock ∧ rest = [.acquire]) ∨
      (i = .acquire ∧ rest = []) := by
  have hsuf := (hsim.sync.thread t).suffix
  rw [hcode, hop, horder] at hsuf
  simpa only [code, List.suffix_cons_iff, List.suffix_nil, List.cons.injEq, reduceCtorEq, or_false,
    or_true, if_true] using hsuf

/-- A thread that merges does so or keeps on. -/
theorem merges_after (hcode : (s.sync.threads t).code = i :: rest)
    (hs : CXLAtomic.exec home s.sync t clk rest i = some sync) {c : VectorClock} (hm : Merges s u c) :
    Merges (after s t i sync) u c ∨
      (u = t ∧ c ≤ (sync.atomics (s.sync.threads t).loc).clock) := by
  obtain ⟨⟨is, his⟩, hc⟩ := hm
  by_cases hu : u = t
  · subst hu
    rw [hcode] at his
    obtain ⟨rfl, rfl⟩ := List.cons.inj his
    refine .inr ⟨rfl, ?_⟩
    rw [exec_clock hs, if_pos rfl]
    exact hc.trans VectorClock.le_merge_right
  · have hth : sync.threads u = s.sync.threads u := (exec_frame hs).1 u hu
    refine .inl ⟨⟨is, ?_⟩, ?_⟩
    · exact (congrArg Thread.code hth).trans his
    · exact hc.trans (congrArg Thread.threadClock hth).ge

namespace Visible

/-- A step of a thread between two operations that changes nothing but what is the thread's own. -/
theorem of_thread (h : Visible N s b) (hcode : (s.sync.threads t).code = [])
    (hticket : b'.ticket = b.ticket) (hopened : b'.opened = b.opened)
    (hatomics : s'.sync.atomics = s.sync.atomics) (harrival : s'.arrival = s.arrival)
    (hother : ∀ u ≠ t, s'.sync.threads u = s.sync.threads u ∧ s'.pc u = s.pc u ∧ s'.round u = s.round u)
    (hclean : Clean (s'.pc t) (s'.sync.threads t).code → (s'.sync.threads t).recentCl = 0)
    (hlast : b.ticket t (s'.round t) = some (N - 1) → ∀ u < N, ∀ c,
      s.arrival u (s'.round t) = some c → Knows (s'.sync.threads t) c (s'.pc t))
    (hspin : ∀ lp, s'.pc t = .spin lp → ∀ c, Sees (s'.sync.threads t) (s.sync.atomics phase) c) :
    Visible N s' b' := by
  -- the thread has nothing to merge, so every merge is still to come
  have hmerges : ∀ u c, Merges s u c → u ≠ t ∧ Merges s' u c := by
    rintro u c ⟨⟨is, his⟩, hc⟩
    have hu : u ≠ t := by
      rintro rfl
      simp [hcode] at his
    rw [Merges, (hother u hu).1]
    exact ⟨hu, ⟨is, his⟩, hc⟩
  refine ⟨fun u k c hc => ?merged, fun u hu => ?clean, fun v hv hlast' u hu c hc => ?last,
    fun k hk u hu c hc => ?opened, fun v lp hpc hret u hu c hc => ?spin⟩
  case merged =>
    rw [harrival] at hc
    rw [hatomics]
    refine (h.merged u k c hc).imp_right ?_
    rintro ⟨⟨lp, hpc⟩, hm⟩
    obtain ⟨hu, hm⟩ := hmerges u c hm
    exact ⟨⟨lp, (hother u hu).2.1.trans hpc⟩, hm⟩
  case clean =>
    by_cases hut : u = t
    · subst hut
      exact hclean hu
    · obtain ⟨hth, hpc, -⟩ := hother u hut
      rw [hth, hpc] at hu
      rw [hth]
      exact h.clean u hu
  case last =>
    rw [hticket] at hlast'
    rw [harrival] at hc
    by_cases hvt : v = t
    · subst hvt
      exact hlast hlast' u hu c hc
    · obtain ⟨hth, hpc, hround⟩ := hother v hvt
      rw [hround] at hlast' hc
      rw [hth, hpc]
      exact h.last v hv hlast' u hu c hc
  case opened =>
    rw [hopened] at hk
    rw [harrival] at hc
    rw [hatomics]
    refine (h.opened k hk u hu c hc).imp_right ?_
    rintro ⟨v, hpc, hm⟩
    obtain ⟨hv, hm⟩ := hmerges v c hm
    exact ⟨v, (hother v hv).2.1.trans hpc, hm⟩
  case spin =>
    rw [harrival] at hc
    rw [hatomics]
    by_cases hvt : v = t
    · subst hvt
      exact hspin lp hpc c
    · obtain ⟨hth, hpc', hround⟩ := hother v hvt
      rw [hpc'] at hpc
      rw [hround] at hc
      rw [hth] at hret ⊢
      exact h.spin v lp hpc hret u hu c hc

/-- A thread starts its next operation. -/
theorem call (h : Visible N s b) (hcode : (s.sync.threads t).code = []) {pc : Pc} {l : ℕ} {op : Op 32}
    {order : MemoryOrder} (hticket : b'.ticket = b.ticket) (hopened : b'.opened = b.opened)
    (hclean : Clean pc (code op order) → (s.sync.threads t).recentCl = 0)
    (hlast : b.ticket t (s.round t) = some (N - 1) → ∀ u < N, ∀ c,
      s.arrival u (s.round t) = some c → Knows ((s.sync.threads t).call l op order) c pc)
    (hspin : ∀ lp, pc = .spin lp → op = .load ∧ order = .acquire) :
    Visible N (s.call t pc l op order) b' := by
  have hpc : (s.call t pc l op order).pc t = pc := update_self _ _ _
  have hth : (s.call t pc l op order).sync.threads t = (s.sync.threads t).call l op order :=
    update_self _ _ _
  refine h.of_thread hcode hticket hopened rfl rfl (fun u hu => ?_) ?_ ?_ fun lp hlp c => ?_
  · exact ⟨update_of_ne hu _ _, update_of_ne hu _ _, rfl⟩
  · rw [hpc, hth]
    exact hclean
  · rw [hpc, hth]
    exact hlast
  · rw [hpc] at hlp
    obtain ⟨rfl, rfl⟩ := hspin lp hlp
    simp [hth, Sees, Thread.call, code]

/-- `wait` returns. -/
theorem leave (h : Visible N s b) (hcode : (s.sync.threads t).code = [])
    (hticket : b'.ticket = b.ticket) (hopened : b'.opened = b.opened) : Visible N (s.leave t) b' := by
  have hpc : (s.leave t).pc t = .idle := update_self _ _ _
  refine h.of_thread hcode hticket hopened rfl rfl (fun u hu => ?_) ?_ ?_ ?_
  · exact ⟨rfl, update_of_ne hu _ _, update_of_ne hu _ _⟩
  · rw [hpc]
    exact fun hclean => absurd hclean id
  · rw [hpc]
    exact fun _ _ _ _ _ => trivial
  · rw [hpc]
    exact fun _ hlp => by cases hlp

/-- A thread between two calls does what it likes. -/
theorem between (h : Visible N s b) (hcode : (s.sync.threads t).code = []) (hpc : s.pc t = .idle)
    (hticket : b'.ticket = b.ticket) (hopened : b'.opened = b.opened) {th : Thread 32} :
    Visible N { s with sync := s.sync.setThread t th } b' := by
  refine h.of_thread hcode hticket hopened rfl rfl (fun u hu => ?_) ?_ ?_ ?_ <;> dsimp only
  · exact ⟨update_of_ne hu _ _, rfl, rfl⟩
  · rw [hpc]
    exact fun hclean => absurd hclean id
  · rw [hpc]
    exact fun _ _ _ _ _ => trivial
  · rw [hpc]
    exact fun _ hlp => by cases hlp

theorem exec_merged (h : Visible N s b) (hsim : Sim N s b)
    (hcode : (s.sync.threads t).code = i :: rest)
    (hs : CXLAtomic.exec home s.sync t clk rest i = some sync) {c : VectorClock}
    (hc : (after s t i sync).arrival u k = some c) :
    c ≤ ((after s t i sync).sync.atomics arrived).clock ∨
      ((∃ lp, (after s t i sync).pc u = .arrive lp) ∧ Merges (after s t i sync) u c) := by
  rw [after_pc]
  rcases after_arrival hc with hc | ⟨harr, rfl, rfl, rfl⟩
  · rcases h.merged u k c hc with hle | ⟨⟨lp, hpc⟩, hm⟩
    · exact .inl (hle.trans (hsim.clock_le hcode hs arrived))
    · rcases merges_after hcode hs hm with hm | ⟨rfl, hle⟩
      · exact .inr ⟨⟨lp, hpc⟩, hm⟩
      · obtain ⟨hcalls, -, -⟩ : _ ∧ _ ∧ _ := by simpa only [hpc, PcOk] using hsim.pc u
        rw [hcalls.1] at hle
        exact .inl hle
  · obtain ⟨-, ⟨lp, hpc⟩, rfl, -, -⟩ := stage_of_isArrival hsim hcode harr
    obtain ⟨hcalls, -, -⟩ : _ ∧ _ ∧ _ := by simpa only [hpc, PcOk] using hsim.pc u
    have hrel : (s.sync.threads u).relClk = (s.sync.threads u).threadClock := by
      refine (hsim.sync.thread u).released ?_ (by simp [hcode])
      rcases fetchAdd_rest hsim hcode hcalls.2.1 hcalls.2.2 with h | h | h | h | h | h | h <;>
        simp [hcode, h]
    refine .inr ⟨⟨lp, hpc⟩, ⟨[.readClock, .unlock, .acquire], ?_⟩, ?_⟩
    · show (sync.threads u).code = _
      rw [(exec_frame hs).2.2.1]
      rcases fetchAdd_rest hsim hcode hcalls.2.1 hcalls.2.2 with h | h | h | h | h | h | h <;>
        simp_all
    · show _ ≤ (sync.threads u).threadClock
      rw [(exec_threadClock hs (by simp)).1, hrel]
      simp

theorem exec_clean (h : Visible N s b) (hcode : (s.sync.threads t).code = i :: rest)
    (hs : CXLAtomic.exec home s.sync t clk rest i = some sync)
    (hclean : Clean (s.pc u) (sync.threads u).code) : (sync.threads u).recentCl = 0 := by
  by_cases hu : u = t
  · subst hu
    by_cases hi : i = .release
    · subst hi
      exact (exec_release hs).1
    · rw [(exec_threadClock hs hi).2.1]
      refine h.clean u ?_
      rw [(exec_frame hs).2.2.1] at hclean
      rw [hcode]
      cases hpc : s.pc u with
      | arrive lp =>
          rw [hpc] at hclean
          exact fun hmem => (List.mem_cons.mp hmem).elim (fun h => hi h.symm) hclean
      | _ =>
          rw [hpc] at hclean
          exact hclean
  · rw [(exec_frame hs).1 u hu] at hclean ⊢
    exact h.clean u hclean

/-- Without a recent line a thread's clock only grows. -/
theorem threadClock_le (hs : CXLAtomic.exec home s.sync t clk rest i = some sync)
    (hclean : (s.sync.threads t).recentCl = 0) :
    (s.sync.threads t).threadClock ≤ (sync.threads t).threadClock := by
  by_cases hi : i = .release
  · subst hi
    rw [(exec_release hs).2.2 hclean]
  · rw [(exec_threadClock hs hi).1]
    split
    · exact VectorClock.le_merge_left
    · exact le_rfl

/-- The thread with the last ticket takes a step of its own. -/
theorem exec_knows (h : Visible N s b) (hsim : Sim N s b)
    (hcode : (s.sync.threads t).code = i :: rest)
    (hs : CXLAtomic.exec home s.sync t clk rest i = some sync) {c : VectorClock}
    (hc : s.arrival u (s.round t) = some c) (hknows : Knows (s.sync.threads t) c (s.pc t)) :
    Knows (sync.threads t) c (s.pc t) := by
  have hcleans := h.clean t
  have hrest := (exec_frame hs).2.2.1
  cases hpc : s.pc t with
  | arrive lp =>
      rw [hpc] at hknows
      obtain ⟨hcalls, -, -⟩ : _ ∧ _ ∧ _ := by simpa only [hpc, PcOk] using hsim.pc t
      unfold Knows at hknows ⊢
      rw [hcode] at hknows
      rw [hrest]
      rcases fetchAdd_rest hsim hcode hcalls.2.1 hcalls.2.2 with ⟨rfl, rfl⟩ | ⟨rfl, rfl⟩ | ⟨rfl, rfl⟩ |
        ⟨rfl, rfl⟩ | ⟨rfl, rfl⟩ | ⟨rfl, rfl⟩ | ⟨rfl, rfl⟩
      · simp
      · simp
      · simp
      · simp
      · -- the copy of the clock contains every merged arrival, and nobody else is merging
        refine ⟨fun _ => ?_, by simp⟩
        rw [exec_localClock hs, if_pos rfl, hcalls.1]
        rcases h.merged u _ c hc with hle | ⟨⟨lp', hpc'⟩, ⟨is, his⟩, -⟩
        · exact hle
        · obtain ⟨hcalls', -, -⟩ : _ ∧ _ ∧ _ := by simpa only [hpc', PcOk] using hsim.pc u
          have hut := hsim.eq_of_inSection (hcalls'.1.trans hcalls.1.symm)
            (hsim.inSection_of_merges his) (by simp [hcode, InSection])
          rw [hut, hcode] at his
          cases his
      · refine ⟨fun _ => ?_, by simp⟩
        rw [exec_localClock hs, if_neg (by simp)]
        exact hknows.1 (.inl rfl)
      · refine ⟨by simp, fun _ => ?_⟩
        rw [(exec_threadClock hs (by simp)).1, if_pos rfl]
        exact (hknows.1 (.inr rfl)).trans VectorClock.le_merge_right
  | loadTarget lp la =>
      rw [hpc] at hknows hcleans
      exact (show c ≤ _ from hknows).trans (threadClock_le hs (hcleans trivial))
  | reset =>
      rw [hpc] at hknows hcleans
      exact (show c ≤ _ from hknows).trans (threadClock_le hs (hcleans trivial))
  | addPhase =>
      rw [hpc] at hknows hcleans
      exact (show c ≤ _ from hknows).trans (threadClock_le hs (hcleans trivial))
  | _ => trivial

theorem exec_last (h : Visible N s b) (hsim : Sim N s b)
    (hcode : (s.sync.threads t).code = i :: rest)
    (hs : CXLAtomic.exec home s.sync t clk rest i = some sync) (hsim' : Sim N (after s t i sync) b')
    (hg : Grows s (.thread t clk) b b') {v : ℕ} (hv : v < N)
    (hlast : b'.ticket v (s.round v) = some (N - 1)) (hu : u < N) {c : VectorClock}
    (hc : (after s t i sync).arrival u (s.round v) = some c) :
    Knows (sync.threads v) c (s.pc v) := by
  by_cases harr : isArrival (s.pc t) i = true ∧ v = t
  · obtain ⟨harr, rfl⟩ := harr
    -- it has only just arrived
    obtain ⟨-, ⟨lp, hpc⟩, rfl, -, -⟩ := stage_of_isArrival hsim hcode harr
    obtain ⟨hcalls, -, -⟩ : _ ∧ _ ∧ _ := by simpa only [hpc, PcOk] using hsim.pc v
    have hrest : rest = [.mergeClock, .readClock, .unlock, .acquire] := by
      rcases fetchAdd_rest hsim hcode hcalls.2.1 hcalls.2.2 with h | h | h | h | h | h | h <;> simp_all
    rw [hpc]
    unfold Knows
    rw [(exec_frame hs).2.2.1, hrest]
    simp
  · have hsame : (after s t i sync).arrival v (s.round v) = s.arrival v (s.round v) := by
      unfold after
      dsimp only
      split
      · have hvt : v ≠ t := by grind
        simp [State.arriveAt, hvt]
      · rfl
    rw [hsim.ticket_eq hsim' hg hsame] at hlast
    have hall : ∀ w < N, (s.arrival w (s.round v)).isSome := fun w hw => by
      rw [hsim.arrival]
      exact hsim.ok.all_of_last hv hlast hw
    have hold := arrival_of_all hsim hcode hall hc
    have hknows := h.last v hv hlast u hu c hold
    by_cases hvt : v = t
    · subst hvt
      exact h.exec_knows hsim hcode hs hold hknows
    · rw [(exec_frame hs).1 v hvt]
      exact hknows

theorem exec_opened (h : Visible N s b) (hsim : Sim N s b)
    (hcode : (s.sync.threads t).code = i :: rest)
    (hs : CXLAtomic.exec home s.sync t clk rest i = some sync) (hg : Grows s (.thread t clk) b b')
    (hk : k < b'.opened) (hu : u < N) {c : VectorClock}
    (hc : (after s t i sync).arrival u k = some c) :
    c ≤ (sync.atomics phase).clock ∨ ∃ v, s.pc v = .addPhase ∧ Merges (after s t i sync) v c := by
  have hold : k < b.opened → c ≤ (sync.atomics phase).clock ∨
      ∃ v, s.pc v = .addPhase ∧ Merges (after s t i sync) v c := by
    intro hk
    have hc : s.arrival u k = some c := by
      rcases after_arrival hc with hc | ⟨harr, rfl, rfl, -⟩
      · exact hc
      · obtain ⟨-, -, -, hround, -⟩ := stage_of_isArrival hsim hcode harr
        omega
    rcases h.opened k hk u hu c hc with hle | ⟨v, hpc, hm⟩
    · exact .inl (hle.trans (hsim.clock_le hcode hs phase))
    · rcases merges_after hcode hs hm with hm | ⟨rfl, hle⟩
      · exact .inr ⟨v, hpc, hm⟩
      · obtain ⟨hcalls, -⟩ : _ ∧ _ := by simpa only [hpc, PcOk] using hsim.pc v
        rw [hcalls.1] at hle
        exact .inl hle
  by_cases hop : Opens s (.thread t clk)
  · rw [hg.opens hop] at hk
    rcases Nat.lt_succ_iff_lt_or_eq.mp hk with hk | rfl
    · exact hold hk
    · -- the thread that opens the round knows all its arrivals
      obtain ⟨hpc, is, his⟩ := hop
      obtain ⟨rfl, rfl⟩ := List.cons.inj (hcode.symm.trans his)
      obtain ⟨hcalls, hticket⟩ : _ ∧ _ := by simpa only [hpc, PcOk] using hsim.pc t
      have ht := hsim.participant t (by simp [hpc])
      have hst : b.stage t = .cleared := by rw [hsim.stage, hpc, hcode]; simp [stageOf]
      have hround : s.round t = b.opened :=
        hsim.round ▸ (hsim.ok.closing t ht (.inr hst)).1
      have hc : s.arrival u b.opened = some c := by
        rcases after_arrival hc with hc | ⟨harr, -⟩
        · exact hc
        · simp [hpc, isArrival] at harr
      have hknows := h.last t ht hticket u hu c (hround ▸ hc)
      rw [hpc] at hknows
      refine .inr ⟨t, hpc, ⟨[.readClock, .unlock, .acquire], ?_⟩, ?_⟩
      · show (sync.threads t).code = _
        rw [(exec_frame hs).2.2.1]
        rcases fetchAdd_rest hsim hcode hcalls.2.1 hcalls.2.2 with h | h | h | h | h | h | h <;>
          simp_all
      · show c ≤ (sync.threads t).threadClock
        rw [(exec_threadClock hs (by simp)).1]
        exact hknows
  · rw [hg.same hop] at hk
    exact hold hk

theorem exec_spin (h : Visible N s b) (hsim : Sim N s b)
    (hcode : (s.sync.threads t).code = i :: rest)
    (hs : CXLAtomic.exec home s.sync t clk rest i = some sync) (hsim' : Sim N (after s t i sync) b')
    (hg : Grows s (.thread t clk) b b') {v : ℕ} {lp : BitVec 32} (hpc : s.pc v = .spin lp)
    (hret : (sync.threads v).ret ≠ lp) (hu : u < N) {c : VectorClock}
    (hc : (after s t i sync).arrival u (s.round v) = some c) :
    Sees (sync.threads v) (sync.atomics phase) c := by
  obtain ⟨hcalls, -, hless⟩ : _ ∧ _ ∧ _ := by simpa only [hpc, PcOk] using hsim.pc v
  by_cases hvt : v = t
  · subst hvt
    have hold : s.arrival u (s.round v) = some c := by
      rcases after_arrival hc with hc | ⟨harr, -⟩
      · exact hc
      · simp [hpc, isArrival] at harr
    have hrest := (exec_frame hs).2.2.1
    have hsees := h.spin v lp hpc
    unfold Sees at hsees ⊢
    rw [hrest]
    rw [hcode] at hsees
    rw [exec_ret hs] at hret
    rcases load_rest hsim hcode hcalls.2.1 hcalls.2.2 with ⟨rfl, rfl⟩ | ⟨rfl, rfl⟩ | ⟨rfl, rfl⟩ |
      ⟨rfl, rfl⟩ | ⟨rfl, rfl⟩
    · simp
    · -- it reads a phase that is not its own, and nobody is merging into the clock of the phase
      refine ⟨fun is _ => ?_, by simp, by simp⟩
      have hlt : s.round v < b.opened := by
        have hpc' := hsim'.pc v
        rw [after_pc, hpc, after_round] at hpc'
        rw [← hg.same (by simp [Opens, hpc])]
        refine hpc'.2.2 ?_ ?_
        · show _ ∉ (sync.threads v).code
          rw [hrest]
          simp
        · show (sync.threads v).ret ≠ lp
          rw [exec_ret hs]
          exact hret
      rw [exec_clock hs, hcalls.1, if_pos rfl]
      rcases h.opened _ hlt u hu c hold with hle | ⟨x, hx, ⟨is, his⟩, -⟩
      · exact hle
      · obtain ⟨hcalls', -⟩ : _ ∧ _ := by simpa only [hx, PcOk] using hsim.pc x
        have hxv := hsim.eq_of_inSection (hcalls'.1.trans hcalls.1.symm)
          (hsim.inSection_of_merges his) (by simp [hcode, InSection])
        rw [hxv, hpc] at hx
        cases hx
    · refine ⟨by simp, fun _ => ?_, by simp⟩
      rw [exec_localClock hs, if_pos rfl, hcalls.1]
      exact (hsees hret u hu c hold).1 _ rfl
    · refine ⟨by simp, fun _ => ?_, by simp⟩
      rw [exec_localClock hs, if_neg (by simp)]
      exact (hsees hret u hu c hold).2.1 (.inl rfl)
    · refine ⟨by simp, by simp, fun _ => ?_⟩
      rw [(exec_threadClock hs (by simp)).1, if_pos rfl]
      exact ((hsees hret u hu c hold).2.1 (.inr rfl)).trans VectorClock.le_merge_right
  · rw [(exec_frame hs).1 v hvt] at hret ⊢
    have hmono := hsim.clock_le hcode hs phase
    by_cases hload : .load true ∈ (s.sync.threads v).code
    · refine ⟨fun is his => ?_, fun his => ?_, fun his => ?_⟩
      · rw [his] at hload
        have hsuf := (hsim.sync.thread v).suffix
        rw [his] at hsuf
        obtain rfl : is = _ := follows_of_suffix hsuf
        simp at hload
      · rcases his with his | his <;> simp [his] at hload
      · simp [his] at hload
    · have hlt := hless hload hret
      have hc : s.arrival u (s.round v) = some c := by
        rcases after_arrival hc with hc | ⟨harr, rfl, hround, -⟩
        · exact hc
        · obtain ⟨-, -, -, hround', -⟩ := stage_of_isArrival hsim hcode harr
          omega
      obtain ⟨h₁, h₂, h₃⟩ := h.spin v lp hpc hret u hu c hc
      exact ⟨fun is his => (h₁ is his).trans hmono, h₂, h₃⟩

/-- Every access keeps what is visible. -/
theorem exec (h : Visible N s b) (hsim : Sim N s b) (hcode : (s.sync.threads t).code = i :: rest)
    (hs : CXLAtomic.exec home s.sync t clk rest i = some sync) (hsim' : Sim N (after s t i sync) b')
    (hg : Grows s (.thread t clk) b b') : Visible N (after s t i sync) b' where
  merged u k c hc := h.exec_merged hsim hcode hs hc
  clean u hu := by
    rw [after_pc] at hu
    exact h.exec_clean hcode hs hu
  last v hv hlast u hu c hc := by
    rw [after_round] at hlast hc
    rw [after_pc]
    exact h.exec_last hsim hcode hs hsim' hg hv hlast hu hc
  opened k hk u hu c hc := by
    rw [after_pc]
    exact h.exec_opened hsim hcode hs hg hk hu hc
  spin v lp hpc hret u hu c hc := by
    rw [after_pc] at hpc
    rw [after_round] at hc
    exact h.exec_spin hsim hcode hs hsim' hg hpc hret hu hc

theorem decide (h : Visible N s b) (d : Bool) : Visible N (s.decide t d) b :=
  ⟨h.merged, h.clean, h.last, h.opened, h.spin⟩

theorem step (h : Visible N s b) (hsim : Sim N s b) {a : Action} (hs : Step home N s a s')
    (hsim' : Sim N s' b') (hg : Grows s a b b') : Visible N s' b' := by
  have hquiet : s'.arrival = s.arrival → b'.ticket = b.ticket := fun heq => by
    funext u k
    exact hsim.ticket_eq hsim' hg (by rw [heq])
  cases hs with
  | @between t cl c hpc =>
      have hidle : (s.sync.threads t).code = [] := by simpa only [hpc, PcOk] using hsim.pc t
      exact h.between hidle hpc (hquiet rfl) (hg.same (by simp [Opens]))
  | @wait t ht hpc =>
      have hidle : (s.sync.threads t).code = [] := by simpa only [hpc, PcOk] using hsim.pc t
      exact h.call hidle (hquiet rfl) (hg.same (by simp [Opens])) (fun hc => absurd hc id)
        (fun _ _ _ _ _ => trivial) (fun _ hlp => by cases hlp)
  | @arrive t clk hcode hpc =>
      refine h.call hcode (hquiet rfl) (hg.same (by simp [Opens, hcode])) (fun hc => ?_)
        (fun _ _ _ _ _ => ?_) (fun _ hlp => by cases hlp)
      · exact absurd (by simp [code]) hc
      · constructor <;> simp [Thread.call, code]
  | @compare t clk lp hcode hpc =>
      refine h.call hcode (hquiet rfl) (hg.same (by simp [Opens, hcode])) (fun _ => ?_)
        (fun hlast u hu c hc => ?_) (fun _ hlp => by cases hlp)
      · refine h.clean t ?_
        rw [hpc, hcode]
        exact List.not_mem_nil
      · have hknows := h.last t (hsim.participant t (by simp [hpc])) hlast u hu c hc
        rw [hpc] at hknows
        exact hknows.2 hcode
  | @close t clk lp hcode hpc =>
      refine (h.decide true).call hcode (hquiet rfl) (hg.same (by simp [Opens, hcode])) (fun _ => ?_)
        (fun hlast u hu c hc => ?_) (fun _ hlp => by cases hlp)
      · refine h.clean t ?_
        rw [hpc]
        trivial
      · have hknows := h.last t (hsim.participant t (by simp [hpc])) hlast u hu c hc
        rw [hpc] at hknows
        exact hknows
  | @await t clk lp la hcode hpc hne =>
      exact (h.decide false).call hcode (hquiet rfl) (hg.same (by simp [Opens, hcode]))
        (fun hc => absurd hc id) (fun _ _ _ _ _ => trivial) (fun _ _ => ⟨rfl, rfl⟩)
  | @add t clk hcode hpc =>
      refine h.call hcode (hquiet rfl) (hg.same (by simp [Opens, hcode])) (fun _ => ?_)
        (fun hlast u hu c hc => ?_) (fun _ hlp => by cases hlp)
      · refine h.clean t ?_
        rw [hpc]
        trivial
      · have hknows := h.last t (hsim.participant t (by simp [hpc])) hlast u hu c hc
        rw [hpc] at hknows
        exact hknows
  | @again t clk lp hcode hpc hret =>
      exact h.call hcode (hquiet rfl) (hg.same (by simp [Opens, hcode])) (fun hc => absurd hc id)
        (fun _ _ _ _ _ => trivial) (fun _ _ => ⟨rfl, rfl⟩)
  | @leaveClosed t clk hcode hpc =>
      exact h.leave hcode (hquiet rfl) (hg.same (by simp [Opens, hcode]))
  | @leaveSpin t clk lp hcode hpc hne =>
      exact h.leave hcode (hquiet rfl) (hg.same (by simp [Opens, hcode]))
  | @exec t clk i rest sync hcode hexec => exact h.exec hsim hcode hexec hsim' hg

theorem initial (h : Initial home N s) : Visible N s start where
  merged u k c hc := by
    rw [h.arrival u k] at hc
    cases hc
  clean t ht := by
    rw [h.pc t] at ht
    exact absurd ht id
  last t _ _ u _ c hc := by
    rw [h.arrival] at hc
    cases hc
  opened k hk := absurd hk (Nat.not_lt_zero k)
  spin t lp hpc := by
    rw [h.pc t] at hpc
    cases hpc

end Visible

theorem visible_of_reachable (hN : N < 2 ^ 31) (h : (machine home N).Reachable s) :
    ∃ b, Sim N s b ∧ Visible N s b :=
  h.invariant (I := fun s => ∃ b, Sim N s b ∧ Visible N s b)
    (fun _ h₀ => ⟨start, sim_of_initial h₀, .initial h₀⟩)
    fun _ _ _ _ ⟨_, hsim, hvis⟩ _ hs =>
      let ⟨b', hsim', hg⟩ := hsim.step hN (step_cases hs)
      ⟨b', hsim', hvis.step hsim (step_cases hs) hsim' hg⟩

/-- When a call of `wait` returns, all threads have arrived in its round and the clock of the returning
thread is at least the clock of every one of them right after the `thread_release` of its arrival. -/
theorem barrier_safe (home : ℕ → ℕ) (N : ℕ) (hN : N < 2 ^ 31) (s s' : State) (a : Action) (t : ℕ)
    (h : (machine home N).Reachable s) (hstep : (machine home N).step s a = some s')
    (hret : s'.round t = s.round t + 1) :
    ∀ u < N, ∃ c, s'.arrival u (s.round t) = some c ∧ c ≤ (s'.sync.threads t).threadClock := by
  obtain ⟨b, hsim, hvis⟩ := visible_of_reachable hN h
  have hmove : ∀ v : ℕ, (s.leave v).round t = s.round t + 1 → v = t := fun v hv => by
    by_contra hne
    simp [State.leave, Ne.symm hne] at hv
  intro u hu
  cases step_cases hstep with
  | @leaveClosed v clk hcode hpc =>
      obtain rfl := hmove v hret
      obtain ⟨-, hticket⟩ : _ ∧ _ := by simpa only [hpc, PcOk] using hsim.pc v
      have hv := hsim.participant v (by simp [hpc])
      have hsome := hsim.ok.all_of_last hv hticket hu
      rw [← hsim.arrival] at hsome
      obtain ⟨c, hc⟩ := Option.isSome_iff_exists.mp hsome
      have hknows := hvis.last v hv hticket u hu c hc
      rw [hpc] at hknows
      exact ⟨c, hc, hknows⟩
  | @leaveSpin v clk lp hcode hpc hne =>
      obtain rfl := hmove v hret
      obtain ⟨-, -, hless⟩ : _ ∧ _ ∧ _ := by simpa only [hpc, PcOk] using hsim.pc v
      have hlt := hless (by simp [hcode]) hne
      obtain ⟨w, hw, hlast, -⟩ := hsim.ok.past _ hlt
      have hsome := hsim.ok.all_of_last hw hlast hu
      rw [← hsim.arrival] at hsome
      obtain ⟨c, hc⟩ := Option.isSome_iff_exists.mp hsome
      exact ⟨c, hc, (hvis.spin v lp hpc hne u hu c hc).2.2 hcode⟩
  | @exec v clk i rest sync hcode hexec =>
      have hround : (after s v i sync).round t = s.round t := congrFun after_round t
      have hret : (after s v i sync).round t = s.round t + 1 := hret
      omega
  | _ =>
      simp only [State.call, State.decide] at hret
      omega

/-- Thread `t` takes `n` steps; if it writes logs, their clock value is `t + 1`. -/
def steps (t n : ℕ) : List Action := List.replicate n (.thread t (t + 1))

/-- Two threads that have each stored a line meet; thread 1 comes last and is about to return. -/
def meeting : List Action :=
  [.between 0 (fun _ => 0) 5, .between 1 (fun _ => 0) 6, .wait 0] ++ steps 0 16 ++ [.wait 1] ++ steps 1 25

theorem barrier_safe_meeting : ∃ s : State, s.round 1 = 1 ∧ s.round 0 = 0 ∧
    ∀ u < 2, ∃ c, s.arrival u 0 = some c ∧ c ≤ (s.sync.threads 1).threadClock := by
  let M : Machine State Action := machine id 2
  obtain ⟨s₀, h₀, heval⟩ : ∃ s₀, Initial id 2 s₀ ∧
      ((M.exec (fun _ _ => true) s₀ meeting).bind fun s =>
        (M.step s (.thread 1 0)).map fun s' => (s.round 1, s'.round 0, s'.round 1)) =
        some (0, 0, 1) := by
    refine ⟨⟨_, fun _ => .idle, fun _ => 0, fun _ _ => none, fun _ _ => none⟩,
      ⟨⟨zero, 0, 0, 0, ⟨fun _ => rfl, fun _ => rfl, fun _ => rfl⟩, rfl⟩, fun _ => rfl, fun _ => rfl,
        fun _ _ => rfl, fun _ _ => rfl⟩, ?_⟩
    decide +kernel
  obtain ⟨s, hs, heval⟩ := Option.bind_eq_some_iff.mp heval
  obtain ⟨s', hs', hval⟩ := Option.map_eq_some_iff.mp heval
  simp only [Prod.mk.injEq] at hval
  obtain ⟨hbefore, hzero, hone⟩ := hval
  have hrun : M.Reachable s := Machine.Run.exec (.init h₀) (fun _ _ _ => trivial) hs
  refine ⟨s', hone, hzero, fun u hu => ?_⟩
  have hret : s'.round 1 = s.round 1 + 1 := by omega
  have := barrier_safe id 2 (by decide) s s' (.thread 1 0) 1 hrun hs' hret u hu
  rwa [hbefore] at this

end CXLBarrier

end RACoherence
