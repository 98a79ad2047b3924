import RACoherence.Cluster.Coherence
import RACoherence.Cluster.Create

/-!
# Which stores happen before what a thread does

What a program may rely on, in its own terms: a store happens before whatever its thread does after it; a
release makes everything that happens before it available, a synchronisation object takes what a thread has
made available, and a thread that has acquired an object, or the clock of its parent, has what was available
there. Stores are named by their positions in the trace, and no clock is looked at. The clocks then cover
every store that happens before a thread's next access, if another thread has made it.
-/

namespace RACoherence

open Function LocalCLTable

namespace Cluster

/-- The stores that happen before what a thread does next; those that it would pass on; those that an object
has been given; and those that the thread is acquiring. -/
structure Knowledge where
  known : ℕ → List ℕ
  released : ℕ → List ℕ
  obj : ℕ → List ℕ
  incoming : ℕ → List ℕ

def Knowledge.initial : Knowledge := ⟨fun _ => [], fun _ => [], fun _ => [], fun _ => []⟩

/-- What becomes of it in a step from `s`. `thread_release` has its effect when it returns, and
`thread_acquire` too. -/
def Knowledge.step (cfg : Config) (s : State) (g : Knowledge) : Action → Knowledge
  | .release t =>
      if (s.threads t).recentCl = 0 then { g with released := update g.released t (g.known t) } else g
  | .acquire t o => { g with incoming := update g.incoming t (g.obj o) }
  | .create p c => { g with incoming := update g.incoming c (g.released p) }
  | .objStore t o => { g with obj := update g.obj o (g.released t) }
  | .objMerge t o => { g with obj := update g.obj o (g.obj o ++ g.released t) }
  | .thread t =>
      match (s.threads t).pc with
      | .store _ => { g with known := update g.known t (s.trace.length :: g.known t) }
      | .finish .release _ => { g with released := update g.released t (g.known t) }
      | .help h =>
          if h.stage = .merge ∧ cfg.nodeCount ≤ h.i then
            { g with
              known := update g.known t (g.known t ++ g.incoming t)
              released := update g.released t (g.released t ++ g.incoming t) }
          else g
      | _ => g
  | .logStore _ _ | .agent _ => g

/-- Every store to line `cl` by a thread of another node happens before what thread `t` does next. -/
def Ordered (cfg : Config) (s : State) (g : Knowledge) (t cl : ℕ) : Prop :=
  ∀ p u, s.trace[p]? = some (.store u cl) → cfg.home u ≠ cfg.home t → p ∈ g.known t

/-- `Ordered`, for the position `p`. -/
def orderedAt (cfg : Config) (s : State) (g : Knowledge) (t cl p : ℕ) : Bool :=
  match s.trace[p]? with
  | some (.store u k) => decide (k = cl → cfg.home u ≠ cfg.home t → p ∈ g.known t)
  | _ => true

variable {cfg : Config} {s s' : State} {a : Action} {g : Knowledge} {t p : ℕ}

theorem ordered_iff {cl : ℕ} :
    Ordered cfg s g t cl ↔ ∀ p < s.trace.length, orderedAt cfg s g t cl p = true := by
  constructor
  · intro h p _
    unfold orderedAt
    split
    · rename_i u k hstore
      exact decide_eq_true fun hk hne => h p u (hk ▸ hstore) hne
    · rfl
  · intro h p u hstore hne
    have hp := h p (List.getElem?_eq_some_iff.mp hstore).1
    rw [orderedAt, hstore] at hp
    exact of_decide_eq_true hp rfl hne

instance {cl : ℕ} : Decidable (Ordered cfg s g t cl) := decidable_of_iff' _ ordered_iff

/-! ## The clocks cover it -/

/-- The store at position `p` has been released since, with a clock that `c` covers. -/
def ReleasedBelow (cfg : Config) (tr : List Event) (c : VectorClock) (p : ℕ) : Prop :=
  ∃ u cl clk, tr[p]? = some (.store u cl) ∧ .release u clk ∈ tr.drop (p + 1) ∧ clk ≤ c (cfg.home u)

theorem ReleasedBelow.mono {tr es : List Event} {c c' : VectorClock} (h : ReleasedBelow cfg tr c p)
    (hc : ∀ i < cfg.nodeCount, c i ≤ c' i) : ReleasedBelow cfg (tr ++ es) c' p := by
  obtain ⟨u, cl, clk, hstore, hrel, hclk⟩ := h
  have hlt := (List.getElem?_eq_some_iff.mp hstore).1
  refine ⟨u, cl, clk, by rw [List.getElem?_append_left hlt, hstore], ?_,
    hclk.trans (hc _ (cfg.home_lt u))⟩
  rw [List.drop_append_of_le_length hlt]
  exact List.mem_append_left _ hrel

/-- The store at position `p` is the thread's own, and its next `thread_release` will not find `recent_cl`
zero, or it is in it. -/
def Unreleased (s : State) (t p : ℕ) : Prop :=
  (∃ cl, s.trace[p]? = some (.store t cl)) ∧
    ((s.threads t).recentCl ≠ 0 ∨ (s.threads t).pc.purpose = some .release)

/-- The clock that the thread will have after `merge`. -/
def State.merging (s : State) (t : ℕ) (h : Help) : VectorClock := fun i =>
  if h.stage = .merge ∧ i < h.i then (s.threads t).clock i else s.read h.target i

/-- What happens before a thread's next access is its own, or released with a clock that its own clock covers;
and so on for what it would pass on, for the objects, and for what it is acquiring. -/
structure KnowledgeOk (cfg : Config) (s : State) (g : Knowledge) : Prop where
  known : ∀ t, ∀ p ∈ g.known t, ReleasedBelow cfg s.trace (s.threads t).clock p ∨ Unreleased s t p
  released : ∀ t, ∀ p ∈ g.released t, ReleasedBelow cfg s.trace (s.threads t).clock p
  obj : ∀ o, ∀ p ∈ g.obj o, ReleasedBelow cfg s.trace (s.objs o) p
  incoming : ∀ t h, (s.threads t).pc = .help h → ∀ p ∈ g.incoming t,
    ReleasedBelow cfg s.trace (s.merging t h) p

theorem KnowledgeOk.initial : KnowledgeOk cfg (initial cfg) .initial where
  known _ p h := by cases h
  released _ p h := by cases h
  obj _ p h := by cases h
  incoming _ _ h := by cases h

/-! ## What a step adds -/

/-- `thread_acquire` of thread `t` returns in this step. -/
def Merged (cfg : Config) (s : State) (a : Action) (t : ℕ) : Prop :=
  a = .thread t ∧ ∃ h, (s.threads t).pc = .help h ∧ h.stage = .merge ∧ cfg.nodeCount ≤ h.i

theorem mem_known_step (hp : p ∈ (g.step cfg s a).known t) :
    p ∈ g.known t ∨ (a = .thread t ∧ (∃ cl, (s.threads t).pc = .store cl) ∧ p = s.trace.length) ∨
      Merged cfg s a t ∧ p ∈ g.incoming t := by
  cases a with
  | thread u =>
      simp only [Knowledge.step] at hp
      split at hp
      · rename_i cl hpc
        simp only [update_apply] at hp
        split at hp
        · rename_i ht
          subst ht
          rcases List.mem_cons.mp hp with hp | hp
          · exact .inr (.inl ⟨rfl, ⟨cl, hpc⟩, hp⟩)
          · exact .inl hp
        · exact .inl hp
      · exact .inl hp
      · rename_i h hpc
        split at hp
        · rename_i hret
          simp only [update_apply] at hp
          split at hp
          · rename_i ht
            subst ht
            rcases List.mem_append.mp hp with hp | hp
            · exact .inl hp
            · exact .inr (.inr ⟨⟨rfl, h, hpc, hret⟩, hp⟩)
          · exact .inl hp
        · exact .inl hp
      · exact .inl hp
  | release u =>
      simp only [Knowledge.step] at hp
      split at hp <;> exact .inl hp
  | _ => exact .inl hp

theorem mem_released_step (hp : p ∈ (g.step cfg s a).released t) :
    p ∈ g.released t ∨
      ((a = .release t ∧ (s.threads t).recentCl = 0 ∨
        a = .thread t ∧ ∃ clk, (s.threads t).pc = .finish .release clk) ∧ p ∈ g.known t) ∨
      Merged cfg s a t ∧ p ∈ g.incoming t := by
  cases a with
  | thread u =>
      simp only [Knowledge.step] at hp
      split at hp
      · exact .inl hp
      · rename_i clk hpc
        simp only [update_apply] at hp
        split at hp
        · rename_i ht
          subst ht
          exact .inr (.inl ⟨.inr ⟨rfl, clk, hpc⟩, hp⟩)
        · exact .inl hp
      · rename_i h hpc
        split at hp
        · rename_i hret
          simp only [update_apply] at hp
          split at hp
          · rename_i ht
            subst ht
            rcases List.mem_append.mp hp with hp | hp
            · exact .inl hp
            · exact .inr (.inr ⟨⟨rfl, h, hpc, hret⟩, hp⟩)
          · exact .inl hp
        · exact .inl hp
      · exact .inl hp
  | release u =>
      simp only [Knowledge.step] at hp
      split at hp
      · rename_i hzero
        simp only [update_apply] at hp
        split at hp
        · rename_i ht
          subst ht
          exact .inr (.inl ⟨.inl ⟨rfl, hzero⟩, hp⟩)
        · exact .inl hp
      · exact .inl hp
  | _ => exact .inl hp

/-- The clock of an object covers what it is given with the thread's clock. -/
theorem obj_step {o : ℕ} (hs : Step cfg s a s') (hp : p ∈ (g.step cfg s a).obj o) :
    (∃ t, p ∈ g.released t ∧ ∀ i, (s.threads t).clock i ≤ s'.objs o i) ∨
      p ∈ g.obj o ∧ ∀ i, s.objs o i ≤ s'.objs o i := by
  cases hs with
  | @objStore t o' hpc =>
      simp only [Knowledge.step, update_apply] at hp ⊢
      split at hp
      · exact .inl ⟨t, hp, fun i => le_of_eq (by simp [*])⟩
      · exact .inr ⟨hp, fun i => le_of_eq (by simp [*])⟩
  | @objMerge t o' hpc =>
      simp only [Knowledge.step, update_apply] at hp ⊢
      split at hp
      · rename_i ho
        subst ho
        rw [if_pos rfl]
        rcases List.mem_append.mp hp with hp | hp
        · exact .inr ⟨hp, fun i => le_max_left _ _⟩
        · exact .inl ⟨t, hp, fun i => le_max_right _ _⟩
      · exact .inr ⟨hp, fun i => le_of_eq (by simp [*])⟩
  | thread hs =>
      refine .inr ⟨?_, fun i => le_of_eq (by cases hs <;> rfl)⟩
      simp only [Knowledge.step] at hp
      split at hp <;> try split at hp
      all_goals exact hp
  | help hpc hs =>
      refine .inr ⟨?_, fun i => le_of_eq (by cases hs <;> rfl)⟩
      simp only [Knowledge.step] at hp
      split at hp <;> try split at hp
      all_goals exact hp
  | agent hm hs => exact .inr ⟨hp, fun i => le_of_eq (by cases hs <;> rfl)⟩
  | releaseNothing hpc hzero =>
      rw [Knowledge.step, if_pos hzero] at hp
      exact .inr ⟨hp, fun _ => le_rfl⟩
  | release hpc hne =>
      rw [Knowledge.step, if_neg hne] at hp
      exact .inr ⟨hp, fun _ => le_rfl⟩
  | _ => exact .inr ⟨hp, fun _ => le_rfl⟩

/-- A thread that is in a call is not given anything to acquire. -/
theorem incoming_of_busy (hs : Step cfg s a s') (hbusy : (s.threads t).pc ≠ .idle) :
    (g.step cfg s a).incoming t = g.incoming t := by
  cases hs with
  | @acquire u o hpc =>
      refine update_of_ne ?_ _ _
      rintro rfl
      exact hbusy hpc
  | @create q c hq hc hne hhome =>
      refine update_of_ne ?_ _ _
      rintro rfl
      exact hbusy hc
  | thread hs =>
      simp only [Knowledge.step]
      split <;> try split
      all_goals rfl
  | help hpc hs =>
      simp only [Knowledge.step]
      split <;> try split
      all_goals rfl
  | releaseNothing hpc hzero => rw [Knowledge.step, if_pos hzero]
  | release hpc hne => rw [Knowledge.step, if_neg hne]
  | _ => rfl

/-- What happens before a thread's next access keeps doing so. -/
theorem known_subset : g.known t ⊆ (g.step cfg s a).known t := by
  intro p hp
  cases a with
  | thread u =>
      simp only [Knowledge.step]
      split
      · simp only [update_apply]
        split
        · rename_i ht
          exact ht ▸ List.mem_cons_of_mem _ hp
        · exact hp
      · exact hp
      · split
        · simp only [update_apply]
          split
          · rename_i ht
            exact ht ▸ List.mem_append_left _ hp
          · exact hp
        · exact hp
      · exact hp
  | release u =>
      simp only [Knowledge.step]
      split <;> exact hp
  | _ => exact hp

/-- Only stores to an object change what it has been given. -/
theorem obj_of_ne {o : ℕ} (hstore : ∀ u, a ≠ .objStore u o) (hmerge : ∀ u, a ≠ .objMerge u o) :
    (g.step cfg s a).obj o = g.obj o := by
  cases a with
  | objStore u k =>
      refine update_of_ne ?_ _ _
      rintro rfl
      exact hstore u rfl
  | objMerge u k =>
      refine update_of_ne ?_ _ _
      rintro rfl
      exact hmerge u rfl
  | thread u =>
      simp only [Knowledge.step]
      split <;> try split
      all_goals rfl
  | release u =>
      simp only [Knowledge.step]
      split <;> rfl
  | _ => rfl

/-- The threads that an action calls. -/
def Action.callers : Action → List ℕ
  | .logStore t _ | .release t | .acquire t _ | .objStore t _ | .objMerge t _ => [t]
  | .create p c => [p, c]
  | .thread _ | .agent _ => []

/-- A call is made by a thread that is in no other call. -/
theorem idle_of_call (hs : Step cfg s a s') (ht : t ∈ a.callers) : (s.threads t).pc = .idle := by
  cases hs <;> simp only [Action.callers, List.mem_cons, List.not_mem_nil, or_false] at ht
  case create hp hc _ _ => rcases ht with rfl | rfl <;> assumption
  all_goals exact ht ▸ ‹_›

/-- `thread_acquire` begins with `help_consume`. -/
theorem help_of_acquire {o : ℕ} (hs : Step cfg s (.acquire t o) s') : ∃ h, (s'.threads t).pc = .help h := by
  cases hs with
  | acquire hpc => exact ⟨_, State.pc_setPc _ _ _⟩

/-- `thread_release` does nothing, or begins with `write_to_log`. -/
theorem purpose_of_release (hs : Step cfg s (.release t) s') :
    (s'.threads t).pc = .idle ∧ (s.threads t).recentCl = 0 ∨
      (s'.threads t).pc.purpose = some .release ∧ (s.threads t).recentCl ≠ 0 := by
  cases hs with
  | releaseNothing hpc hzero => exact .inl ⟨hpc, hzero⟩
  | release hpc hne => exact .inr ⟨by simp [State.setThread, ThreadPc.purpose], hne⟩

/-- A thread that is in no call, and is not called, stays as it is. -/
theorem idle_step (hs : Step cfg s a s') (hidle : (s.threads t).pc = .idle) (hno : t ∉ a.callers) :
    s'.threads t = s.threads t ∧ (g.step cfg s a).released t = g.released t := by
  have ha : a ≠ .thread t := by
    rintro rfl
    cases hs with
    | thread hs => cases hs <;> simp_all
    | help hpc _ => simp [hidle] at hpc
  constructor
  · rcases call_of_ne hs ha with heq | ⟨-, hcall⟩
    · exact heq
    · generalize s'.threads t = th at hcall
      cases hcall <;> simp [Action.callers] at hno
  · cases a with
    | thread u =>
        have hu : t ≠ u := by
          rintro rfl
          exact ha rfl
        simp only [Knowledge.step]
        split <;> try split
        all_goals first | rfl | exact update_of_ne hu _ _
    | release u =>
        have hu : t ≠ u := by simpa [Action.callers] using hno
        simp only [Knowledge.step]
        split
        · exact update_of_ne hu _ _
        · rfl
    | _ => rfl

/-- A thread in `thread_acquire` keeps what it is acquiring, or returns with it. -/
theorem acquiring_step (hs : Step cfg s a s') (hpc : ∃ h, (s.threads t).pc = .help h) :
    ((∃ h, (s'.threads t).pc = .help h) ∧ (g.step cfg s a).incoming t = g.incoming t) ∨
      (s'.threads t).pc = .idle ∧ g.incoming t ⊆ (g.step cfg s a).known t := by
  obtain ⟨h, hpc⟩ := hpc
  have hin := incoming_of_busy (g := g) hs (t := t) (by simp [hpc])
  by_cases ha : a = .thread t
  · subst ha
    cases hs with
    | thread hs => exact absurd hpc (hs.not_help h)
    | help hpc' hs =>
        obtain rfl := ThreadPc.help.inj (hpc.symm.trans hpc')
        cases hs with
        | return_ hst hi =>
            refine .inr ⟨by simp [State.setPc, State.setThread], fun p hp => ?_⟩
            simp only [Knowledge.step, hpc, if_pos (And.intro hst hi), update_self]
            exact List.mem_append_right _ hp
        | _ =>
            refine .inl ⟨?_, hin⟩
            simp [State.setPc, State.setThread, State.setRing, State.setMtx, State.setClock, State.emit, hpc]
  · rcases call_of_ne hs ha with heq | ⟨hidle, -⟩
    · exact .inl ⟨⟨h, by rw [heq, hpc]⟩, hin⟩
    · simp [hpc] at hidle

/-- A thread in `thread_release` stays in it, or returns and has made everything available. -/
theorem releasing_step (hs : Step cfg s a s') (hpc : (s.threads t).pc.purpose = some .release) :
    (s'.threads t).pc.purpose = some .release ∨
      (s'.threads t).pc = .idle ∧ (g.step cfg s a).released t = g.known t := by
  by_cases ha : a = .thread t
  · subst ha
    cases hs with
    | thread hs =>
        cases hs with
        | finishRelease hpc' =>
            refine .inr ⟨by simp [State.setThread], ?_⟩
            simp only [Knowledge.step, hpc', update_self]
        | _ =>
            refine .inl ?_
            simp_all [State.setPc, State.setThread, State.setRing, State.emit, ThreadPc.purpose]
    | help hpc' hs => simp [hpc', ThreadPc.purpose] at hpc
  · rcases call_of_ne hs ha with heq | ⟨hidle, -⟩
    · exact .inl (by rw [heq, hpc])
    · simp [hidle, ThreadPc.purpose] at hpc

/-! ## Every step keeps it -/

/-- A thread's own store stays unreleased until `thread_release` returns. -/
theorem Unreleased.step (h : Unreleased s t p) (hnhc : NhcStore a) (hs : Step cfg s a s') :
    ReleasedBelow cfg s'.trace (s'.threads t).clock p ∨ Unreleased s' t p := by
  obtain ⟨⟨cl, hstore⟩, hrecent⟩ := h
  have hlt := (List.getElem?_eq_some_iff.mp hstore).1
  have hstore' : s'.trace[p]? = some (.store t cl) := by
    rw [trace_step hs, List.getElem?_append_left hlt, hstore]
  by_cases ha : a = .thread t
  · subst ha
    cases hs with
    | thread hs =>
        cases hs with
        | @finishRelease clk hpc =>
            refine .inl ⟨t, cl, clk, hstore', ?_, by simp [State.setThread, VectorClock.assign]⟩
            show Event.release t clk ∈ (s.trace ++ [Event.release t clk]).drop (p + 1)
            rw [List.drop_append_of_le_length hlt]
            exact List.mem_append_right _ (List.mem_singleton.mpr rfl)
        | finishFlush hpc =>
            refine .inr ⟨⟨cl, hstore'⟩, .inl ?_⟩
            simp only [hpc, ThreadPc.purpose] at hrecent
            simpa [State.setThread] using hrecent
        | _ =>
            refine .inr ⟨⟨cl, hstore'⟩, ?_⟩
            simp_all [State.setPc, State.setThread, State.setRing, State.emit, ThreadPc.purpose]
    | help hpc hs =>
        have hne : (s.threads t).recentCl ≠ 0 := by simpa [hpc, ThreadPc.purpose] using hrecent
        refine .inr ⟨⟨cl, hstore'⟩, .inl ?_⟩
        cases hs <;>
          simpa [State.setPc, State.setThread, State.setRing, State.setMtx, State.setClock, State.emit] using hne
  · refine .inr ⟨⟨cl, hstore'⟩, ?_⟩
    rcases call_of_ne hs ha with heq | ⟨hidle, hcall⟩
    · rwa [heq]
    · have hne : (s.threads t).recentCl ≠ 0 := by simpa [hidle, ThreadPc.purpose] using hrecent
      generalize s'.threads t = th at hcall
      cases hcall with
      | insert hcl _ => exact .inl (line_ok hnhc hcl).1
      | full hcl _ => exact .inl (line_ok hnhc hcl).1
      | release => exact .inr rfl
      | _ => exact .inl hne

/-- What a thread is acquiring stays covered by what it will have. -/
theorem merging_step (hrel : Releases cfg s) (hs : Step cfg s a s') {h' : Help}
    (hpc' : (s'.threads t).pc = .help h') (hbusy : (s.threads t).pc ≠ .idle) :
    ∃ h, (s.threads t).pc = .help h ∧ ∀ i, s.merging t h i ≤ s'.merging t h' i := by
  have hclock := thread_clock_mono hrel hs
  have hread : ∀ target i, s.read target i ≤ s'.read target i := fun target i => by
    cases target with
    | copy c => exact le_rfl
    | parent q => exact hclock q i
  by_cases ha : a = .thread t
  · subst ha
    cases hs with
    | thread hs => cases hs <;> simp_all [State.setPc, State.setThread, State.setRing, State.emit]
    | @help _ h _ hpc hs =>
        refine ⟨h, hpc, fun i => ?_⟩
        -- before `merge` nothing but the target is looked at
        have hbefore : h.stage ≠ .merge → h'.target = h.target → (h'.stage = .merge → h'.i = 0) →
            s.merging t h i ≤ s'.merging t h' i := fun hne htarget hzero => by
          have hnot : ¬ (h'.stage = .merge ∧ i < h'.i) := by
            rintro ⟨hm, hi⟩
            rw [hzero hm] at hi
            exact absurd hi (Nat.not_lt_zero i)
          simp only [State.merging, hne, false_and, if_false, if_neg hnot, htarget]
          exact hread _ i
        cases hs with
        | @merge hst hlt =>
            simp only [State.setThread, update_self, ThreadPc.help.injEq] at hpc'
            subst hpc'
            show (if h.stage = .merge ∧ i < h.i then _ else _) ≤ if h.stage = .merge ∧ i < h.i + 1 then _ else _
            by_cases hi : i < h.i
            · rw [if_pos ⟨hst, hi⟩, if_pos ⟨hst, by omega⟩]
              exact hclock t i
            · rw [if_neg fun hlt => hi hlt.2]
              by_cases heq : i = h.i
              · subst heq
                rw [if_pos ⟨hst, by omega⟩]
                simp [State.setThread, VectorClock.assign]
              · rw [if_neg fun hlt => heq (by omega)]
                exact hread _ i
        | return_ hst _ => simp [State.setPc, State.setThread] at hpc'
        | cons hst _ _ =>
            obtain rfl := ThreadPc.help.inj (hpc.symm.trans hpc')
            exact hbefore (by simp [hst]) rfl (by simp [hst])
        | reachedAll hst hi _ =>
            rw [State.pc_setPc] at hpc'
            cases hpc'
            exact hbefore (by simp [hst]) rfl fun _ => hi
        | _ hst =>
            rw [State.pc_setPc] at hpc'
            cases hpc'
            exact hbefore (by simp [hst]) rfl (by simp [hst])
  · rcases call_of_ne hs ha with heq | ⟨hidle, -⟩
    · rw [heq] at hpc'
      refine ⟨h', hpc', fun i => ?_⟩
      simp only [State.merging, heq]
      split
      · exact le_rfl
      · exact hread _ i
    · exact absurd hidle hbusy

namespace KnowledgeOk

theorem known_step (hk : KnowledgeOk cfg s g) (hrel : Releases cfg s) (hlines : Lines cfg s) (hnhc : NhcStore a)
    (hs : Step cfg s a s') (hp : p ∈ (g.step cfg s a).known t) :
    ReleasedBelow cfg s'.trace (s'.threads t).clock p ∨ Unreleased s' t p := by
  have hclock := thread_clock_mono hrel hs t
  rcases mem_known_step hp with hp | ⟨rfl, ⟨cl, hpc⟩, rfl⟩ | ⟨⟨rfl, h, hpc, hst, hi⟩, hin⟩
  · rcases hk.known t p hp with hbelow | hown
    · rw [trace_step hs]
      exact .inl (hbelow.mono fun i _ => hclock i)
    · exact hown.step hnhc hs
  · -- the store itself
    obtain ⟨heq, hne⟩ := (hlines.table t).store cl hpc
    refine .inr ⟨⟨cl, ?_⟩, .inl ?_⟩
    · rw [trace_step hs]
      simp [emitted, hpc]
    · cases hs with
      | thread hs => cases hs <;> simp_all [State.setPc, State.setThread, State.emit]
      | help hpc' hs => simp [hpc] at hpc'
  · rw [trace_step hs]
    refine .inl ((hk.incoming t h hpc p hin).mono fun i hlt => le_trans (le_of_eq ?_) (hclock i))
    exact if_pos ⟨hst, hlt.trans_le hi⟩

theorem released_step (hk : KnowledgeOk cfg s g) (hrel : Releases cfg s) (hlines : Lines cfg s)
    (hnhc : NhcStore a) (hs : Step cfg s a s') (hp : p ∈ (g.step cfg s a).released t) :
    ReleasedBelow cfg s'.trace (s'.threads t).clock p := by
  have hclock := thread_clock_mono hrel hs t
  rcases mem_released_step hp with hp | ⟨hrelease, hp⟩ | ⟨⟨rfl, h, hpc, hst, hi⟩, hin⟩
  · rw [trace_step hs]
    exact (hk.released t p hp).mono fun i _ => hclock i
  · -- a release leaves no own store behind
    have hstep : ReleasedBelow cfg s'.trace (s'.threads t).clock p ∨ Unreleased s' t p := by
      rcases hk.known t p hp with hbelow | hown
      · rw [trace_step hs]
        exact .inl (hbelow.mono fun i _ => hclock i)
      · exact hown.step hnhc hs
    refine hstep.resolve_right fun ⟨_, hrecent⟩ => ?_
    rcases hrelease with ⟨rfl, hzero⟩ | ⟨rfl, clk, hpc⟩
    · cases hs with
      | releaseNothing hpc _ => simp [hpc, hzero, ThreadPc.purpose] at hrecent
      | release _ hne => exact hne hzero
    · cases hs with
      | thread hs =>
          cases hs with
          | finishRelease hpc' =>
              have hzero := (hlines.table t).release (by rw [hpc]; rfl)
              simp [State.setThread, hzero, ThreadPc.purpose] at hrecent
          | _ => simp_all
      | help hpc' hs => simp [hpc] at hpc'
  · rw [trace_step hs]
    refine (hk.incoming t h hpc p hin).mono fun i hlt => le_trans (le_of_eq ?_) (hclock i)
    exact if_pos ⟨hst, hlt.trans_le hi⟩

theorem incoming_step (hk : KnowledgeOk cfg s g) (hrel : Releases cfg s) (hs : Step cfg s a s') {h' : Help}
    (hpc' : (s'.threads t).pc = .help h') (hp : p ∈ (g.step cfg s a).incoming t) :
    ReleasedBelow cfg s'.trace (s'.merging t h') p := by
  rw [trace_step hs]
  by_cases hidle : (s.threads t).pc = .idle
  · have ha : a ≠ .thread t := by
      rintro rfl
      cases hs with
      | thread hs => cases hs <;> simp_all
      | help hpc _ => simp [hidle] at hpc
    rcases call_of_ne hs ha with heq | ⟨-, hcall⟩
    · rw [heq, hidle] at hpc'
      cases hpc'
    · have hclock := thread_clock_mono hrel hs
      generalize hth : s'.threads t = th at hcall hpc'
      cases hcall with
      | @acquire o =>
          cases hpc'
          simp only [Knowledge.step, update_self] at hp
          exact (hk.obj o p hp).mono fun i _ => le_of_eq (by simp [State.merging, State.read])
      | @create q hhome =>
          cases hpc'
          simp only [Knowledge.step, update_self] at hp
          refine (hk.released q p hp).mono fun i _ => (hclock q i).trans (le_of_eq ?_)
          simp [State.merging, State.read]
      | _ => cases hpc'
  · rw [incoming_of_busy hs hidle] at hp
    obtain ⟨h, hpc, hle⟩ := merging_step hrel hs hpc' hidle
    exact (hk.incoming t h hpc p hp).mono fun i _ => hle i

theorem step (hk : KnowledgeOk cfg s g) (hrel : Releases cfg s) (hlines : Lines cfg s) (hnhc : NhcStore a)
    (hs : Step cfg s a s') : KnowledgeOk cfg s' (g.step cfg s a) where
  known _ _ hp := hk.known_step hrel hlines hnhc hs hp
  released _ _ hp := hk.released_step hrel hlines hnhc hs hp
  obj o p hp := by
    rw [trace_step hs]
    rcases obj_step hs hp with ⟨t, hp, hle⟩ | ⟨hp, hle⟩
    · exact (hk.released t p hp).mono fun i _ => hle i
    · exact (hk.obj o p hp).mono fun i _ => hle i
  incoming _ _ hpc' _ hp := hk.incoming_step hrel hs hpc' hp

/-- The lines of stores that happen before an access have been written back and, since then, invalidated on
the thread's node. -/
theorem invalidated (hk : KnowledgeOk cfg s g) (hinv : Inv cfg s) (hlines : Lines cfg s) {u cl : ℕ}
    {earlier later : List Event} (ho : Ordered cfg s g t cl) (hne : cfg.home u ≠ cfg.home t)
    (htr : s.trace = earlier ++ .store u cl :: later) :
    ∃ q₁ q₂, later = q₁ ++ .writeback u cl :: q₂ ∧
      (.invalidate (cfg.home t) cl ∈ q₂ ∨ .wbinvd (cfg.home t) ∈ q₂) := by
  have hstore : s.trace[earlier.length]? = some (.store u cl) := by
    rw [htr, List.getElem?_append_right le_rfl, Nat.sub_self, List.getElem?_cons_zero]
  have hrem : LogManager.Remote cfg.toLogConfig (cfg.home u) (cfg.home t) := ⟨cfg.home_lt t, Ne.symm hne⟩
  rcases hk.known t _ (ho _ u hstore hne) with ⟨v, cl', clk, hstore', hrel, hclk⟩ | ⟨⟨cl', hstore'⟩, -⟩
  · obtain ⟨rfl, rfl⟩ := Event.store.inj (Option.some.inj (hstore.symm.trans hstore'))
    have hlater : .release u clk ∈ later := by
      rwa [htr, List.drop_length_add_append, List.drop_succ_cons, List.drop_zero] at hrel
    have hhead : clk ≤ s.head (cfg.home t) (cfg.home u) :=
      calc clk ≤ (s.threads t).clock (cfg.home u) := hclk
        _ ≤ s.clock (cfg.home t) (cfg.home u) := hinv.acquires.bound t _ hne
        _ ≤ _ := hinv.clocks.clock_le _ _ hrem
        _ ≤ s.head (cfg.home t) (cfg.home u) := LogManager.lastRel_le _ _
    exact hlines.invalidated hrem htr hlater hhead
  · obtain ⟨rfl, -⟩ := Event.store.inj (Option.some.inj (hstore.symm.trans hstore'))
    exact absurd rfl hne

end KnowledgeOk

end Cluster

end RACoherence
