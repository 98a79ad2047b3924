import RACoherence.Cluster.Acquire

/-!
# What is recorded of a run

`emitted` is what a step adds to the trace. The entries of a ring that a node has processed, as the trace
has them, are those up to its head and the one that it is working on: every entry once, in the order of the
indices.
-/

namespace RACoherence

open Function LocalCLTable

namespace LogManager

/-- The consumer has started to process its entry. -/
def ConsPc.processing : ConsPc → Bool
  | .process _ _ _ _ | .consume _ | .storeHead _ _ => true
  | .idle | .loadIdx _ | .entry _ | .gotLog _ _ | .gotRel _ _ _ | .start _ _ => false

/-- The number of entries that node `n` has started to process. -/
def State.taken (s : State) (n : ℕ) : ℕ :=
  (s.subs n).head + if (s.cons n).processing then 1 else 0

end LogManager

namespace Cluster

variable (cfg : Config)

/-- What a step records. -/
def emitted (s : State) : Action → List Event
  | .thread t =>
      match (s.threads t).pc with
      | .store cl => [.store t cl]
      | .fill _ (entry :: _) => writebackEvents t entry
      | .produce _ =>
          match (s.rings (cfg.home t)).prod t with
          | .storeIdx _ _ j => [.publish (cfg.home t) j]
          | _ => []
      | .finish .release clk => [.release t clk]
      | .help h =>
          match h.stage with
          | .consuming _ _ => consEvents cfg (cfg.home t) h.i (s.rings h.i)
          | _ => []
      | _ => []
  | .agent n =>
      match s.agents n with
      | .consuming i _ _ => consEvents cfg n i (s.rings i)
      | _ => []
  | _ => []

/-- The indices that node `n` has processed of ring `i`. -/
def processed (n i : ℕ) : List Event → List ℕ :=
  List.filterMap fun
    | .process m k idx => if m = n ∧ k = i then some idx else none
    | _ => none

variable {cfg} {s s' : State} {a : Action} {n i : ℕ}

theorem trace_step (hs : Step cfg s a s') : s'.trace = s.trace ++ emitted cfg s a := by
  cases hs with
  | thread hs =>
      cases hs with
      | produceProd hpc _ => simp [emitted, hpc, State.setRing]
      | finishFlush hpc => simp [State.setThread, emitted, hpc]
      | _ => simp [emitted, State.setPc, State.setThread, State.setRing, State.emit, *]
  | help hpc hs =>
      cases hs <;>
        simp [emitted, State.setPc, State.setThread, State.setRing, State.setMtx, State.setClock, State.emit, *]
  | agent hm hs =>
      cases hs <;> simp [emitted, State.setAgent, State.setRing, State.setMtx, State.setClock, State.emit, *]
  | _ => simp [emitted, State.setPc, State.setThread]

theorem emitted_of_cons (ha : ringAction cfg s a = some (i, .cons n)) :
    emitted cfg s a = consEvents cfg n i (s.rings i) := by
  cases a with
  | thread t =>
      simp only [ringAction] at ha
      split at ha
      · split at ha <;> cases ha
      · cases ha
      · cases ha
      · cases ha
      · rename_i h hpc
        split at ha <;> cases ha
        simp [emitted, *]
      · cases ha
  | agent m =>
      simp only [ringAction] at ha
      split at ha
      · split at ha <;> cases ha
      · cases ha
        simp [emitted, *]
      · cases ha
  | _ => cases ha

theorem processed_append (tr tr' : List Event) :
    processed n i (tr ++ tr') = processed n i tr ++ processed n i tr' :=
  List.filterMap_append

/-- Other events do not count. -/
theorem processed_eq_nil {es : List Event} (h : ∀ idx, Event.process n i idx ∉ es) : processed n i es = [] := by
  refine List.filterMap_eq_nil_iff.mpr fun e he => ?_
  split
  · rename_i m k idx
    refine if_neg ?_
    rintro ⟨rfl, rfl⟩
    exact h idx he
  · rfl

theorem process_notMem_entryEvents {m entry idx : ℕ} : Event.process n i idx ∉ entryEvents m entry := by
  unfold entryEvents
  split <;> simp

theorem process_notMem_writebackEvents {t entry idx : ℕ} : Event.process n i idx ∉ writebackEvents t entry := by
  simp [writebackEvents]

theorem processed_consEvents_of_ne {m k : ℕ} (r : LogManager.State) (hne : ¬ (m = n ∧ k = i)) :
    processed n i (consEvents cfg m k r) = [] := by
  refine processed_eq_nil fun idx => ?_
  unfold consEvents
  split
  · simpa using fun h₁ h₂ => absurd ⟨h₁.symm, h₂.symm⟩ hne
  · split
    · exact process_notMem_entryEvents
    · simp
  · simp

theorem processed_of_ne (hne : ringAction cfg s a ≠ some (i, .cons n)) :
    processed n i (emitted cfg s a) = [] := by
  cases a with
  | thread t =>
      simp only [emitted]
      split
      · rfl
      · exact processed_eq_nil fun _ => process_notMem_writebackEvents
      · split <;> rfl
      · rfl
      · rename_i h hpc
        split
        · rename_i hst
          refine processed_consEvents_of_ne _ ?_
          rintro ⟨rfl, rfl⟩
          exact hne (by simp [ringAction, hpc, hst])
        · rfl
      · rfl
  | agent m =>
      simp only [emitted]
      split
      · rename_i hpc
        refine processed_consEvents_of_ne _ ?_
        rintro ⟨rfl, rfl⟩
        exact hne (by simp [ringAction, hpc])
      · rfl
  | _ => rfl

/-- A step of a consumer records an entry when it starts with it, the next one. -/
theorem taken_cons {r r' : LogManager.State} (hinv : LogManager.SubscribedInv cfg.toLogConfig i r)
    (hn : LogManager.Remote cfg.toLogConfig i n) (hwrap : LogManager.NoWrap cfg.toLogConfig r (.cons n))
    (hr : LogManager.step cfg.toLogConfig i (flushesCache 0) r (.cons n) = some r') :
    r'.taken n = r.taken n ∧ processed n i (consEvents cfg n i r) = [] ∨
      r'.taken n = r.taken n + 1 ∧ processed n i (consEvents cfg n i r) = [r.taken n + 1] := by
  cases LogManager.step_cases hr with
  | @start m log clk hpc =>
      -- the entry of the head is published and still in its slot
      obtain ⟨hpub, -⟩ := hinv.1.cons_at hpc
      have hfreed := (hinv.1.stable n (hinv.2.stable hn)).freed_le
      have hentry := hinv.1.entries.entry _ hfreed hpub
      refine .inr ⟨by simp [LogManager.State.taken, LogManager.State.setCons, hpc,
        LogManager.ConsPc.processing], ?_⟩
      simp [consEvents, hpc, processed, hentry, LogManager.State.taken, LogManager.ConsPc.processing]
  | @storeHead m hd clk hpc =>
      obtain ⟨-, rfl, -⟩ := hinv.1.cons_at hpc
      have hincr : LogManager.incr (r.subs n).head = (r.subs n).head + 1 := by
        refine LogManager.incr_eq ?_
        simpa only [LogManager.NoWrap, hpc] using hwrap
      exact .inl ⟨by simp [LogManager.State.taken, LogManager.State.setCons, hpc, hincr,
        LogManager.ConsPc.processing], by simp [consEvents, hpc, processed]⟩
  | _ =>
      rename_i hpc
      refine .inl ⟨by simp [LogManager.State.taken, LogManager.State.setCons, *,
        LogManager.ConsPc.processing], processed_eq_nil fun idx => ?_⟩
      simp only [consEvents, *]
      try split
      all_goals first | exact process_notMem_entryEvents | simp

/-- Only its own consumer makes a node start with an entry. -/
theorem taken_of_ne (hok : RingsOk cfg s) (hs : Step cfg s a s')
    (hn : LogManager.Remote cfg.toLogConfig i n) (hne : ringAction cfg s a ≠ some (i, .cons n)) :
    (s'.rings i).taken n = (s.rings i).taken n := by
  cases ringEffect hs with
  | none _ heq => rw [heq]
  | @step k b r ha hr hno heq =>
      rw [heq, update_apply]
      split
      · rename_i hk
        subst hk
        unfold LogManager.State.taken
        by_cases hc : LogManager.Consumes n b
        · cases b with
          | takeHead m =>
              obtain rfl : m = n := hc
              obtain ⟨hsubs, hidle, hcons⟩ := LogManager.takeHead_spec (LogManager.step_cases hr)
              rw [hsubs, hidle, hcons]
              rfl
          | cons m =>
              obtain rfl : m = n := hc
              exact absurd ha hne
          | _ => exact absurd hc id
        · obtain ⟨hsubs, hcons⟩ :=
            LogManager.head_of_not_consumes (hok.inv _ n hn).2 hno (LogManager.step_cases hr) hc
          rw [hsubs, hcons]
      · rfl

/-- The trace has every entry that a node has started with, once and in order. -/
def Processes (cfg : Config) (s : State) : Prop :=
  ∀ n i, LogManager.Remote cfg.toLogConfig i n →
    processed n i s.trace = (List.range ((s.rings i).taken n)).map (· + 1)

theorem Processes.initial : Processes cfg (initial cfg) := fun _ _ _ => rfl

theorem Processes.step (h : Processes cfg s) (hok : RingsOk cfg s) (hwrap : NoWrap cfg s a)
    (hs : Step cfg s a s') : Processes cfg s' := by
  intro n i hn
  have hold := h n i hn
  rw [trace_step hs, processed_append, hold]
  by_cases ha : ringAction cfg s a = some (i, .cons n)
  · cases ringEffect hs with
    | none hnone _ =>
        rw [hnone] at ha
        cases ha
    | @step k b r ha' hr hno heq =>
        obtain ⟨rfl, rfl⟩ := Prod.mk.inj (Option.some.inj (ha.symm.trans ha'))
        rw [emitted_of_cons ha, heq, update_self]
        rcases taken_cons (hok.inv i n hn) hn (hwrap _ _ ha) hr with ⟨htaken, hev⟩ | ⟨htaken, hev⟩
        · rw [htaken, hev, List.append_nil]
        · rw [htaken, hev, List.range_succ, List.map_append, List.map_singleton]
  · rw [processed_of_ne ha, List.append_nil, taken_of_ne hok hs hn ha]

end Cluster

end RACoherence
