import RACoherence.Cluster.Progress
import RACoherence.ThreadOps.Decode

/-!
# Where a stored line is

From the store to the invalidation: a line that a thread has stored to is in its dirty table, then among the
words that `write_to_log` has still to copy, then written back and in the log that the thread holds, and then
under an index of the ring, where every other node that has processed it has invalidated it.
-/

namespace RACoherence

open Function LocalCLTable ClGroup

namespace Cluster

variable {cfg : Config} {s s' : State} {a : Action} {t n cl : ℕ}

/-- `rac_storeN` calls `log_store` for addresses from `CXL_NHC_START` on. -/
def NhcStore : Action → Prop
  | .logStore _ addr => cxlNhcStart ≤ addr ∧ addr < 2 ^ virtualAddressBits
  | _ => True

/-! ## The dirty table -/

/-- What `write_to_log` is running for. -/
def ThreadPc.purpose : ThreadPc → Option Purpose
  | .getLog k | .fill k _ | .produce k | .finish k _ => some k
  | .idle | .store _ | .help _ => none

/-- The table, the inline cache and the position of a thread. -/
structure TableOk (th : Thread) : Prop where
  maskOnly : MaskOnly 0 th.dirtyCls
  /-- Between calls, and in `thread_acquire`, the line of the inline cache is in the table. -/
  recent : th.pc.purpose = none → th.recentCl ≠ 0 → Covered 0 th.dirtyCls th.recentCl
  store : ∀ cl, th.pc = .store cl → cl = th.recentCl ∧ cl ≠ 0
  flush : ∀ cl, th.pc.purpose = some (.flush cl) → cl = th.recentCl ∧ cl ≠ 0 ∧
    cl >>> groupSizeShift < 2 ^ groupIndexShift 0
  release : th.pc.purpose = some .release → th.recentCl = 0

theorem TableOk.initial : TableOk ((initial cfg).threads t) where
  maskOnly := maskOnly_empty 0
  recent _ h := absurd rfl h
  store _ h := by cases h
  flush _ h := by cases h
  release h := by cases h

/-- The line of an address that is not hardware coherent. -/
theorem line_ok {addr : ℕ} (h : NhcStore (.logStore t addr)) (hcl : cl = addr >>> virtualClShift 0) :
    cl ≠ 0 ∧ cl >>> groupSizeShift < 2 ^ groupIndexShift 0 := by
  obtain ⟨hge, hlt⟩ := h
  refine ⟨?_, hcl ▸ group_lt (by decide) hlt⟩
  rw [hcl, Nat.shiftRight_eq_div_pow]
  have hstart : 64 ≤ cxlNhcStart := by decide
  exact (Nat.div_pos (hstart.trans hge) (by decide)).ne'

/-- A new position outside `write_to_log` leaves table and inline cache alone. -/
theorem TableOk.setPc {th : Thread} (h : TableOk th) (hold : th.pc.purpose = none) {clock : VectorClock}
    {pc : ThreadPc} (hpc : pc.purpose = none) (hstore : ∀ cl, pc = .store cl → cl = th.recentCl ∧ cl ≠ 0) :
    TableOk { th with clock := clock, pc := pc } where
  maskOnly := h.maskOnly
  recent _ := h.recent hold
  store := hstore
  flush cl hcl := by
    rw [show ({ th with clock := clock, pc := pc } : Thread).pc.purpose = none from hpc] at hcl
    cases hcl
  release hcl := by
    rw [show ({ th with clock := clock, pc := pc } : Thread).pc.purpose = none from hpc] at hcl
    cases hcl

/-- So does a new position inside it. -/
theorem TableOk.purpose {th : Thread} (h : TableOk th) {k : Purpose} (hold : th.pc.purpose = some k)
    {pc : ThreadPc} (hpc : pc.purpose = some k) : TableOk { th with pc := pc } where
  maskOnly := h.maskOnly
  recent hnone := by
    rw [show ({ th with pc := pc } : Thread).pc.purpose = some k from hpc] at hnone
    cases hnone
  store cl hcl := by
    have : pc = .store cl := hcl
    rw [this] at hpc
    cases hpc
  flush cl hcl := h.flush cl (by rw [hold, ← hpc]; exact hcl)
  release hcl := h.release (by rw [hold, ← hpc]; exact hcl)

theorem TableOk.thread {s' : State} (h : TableOk (s.threads t)) (hs : ThreadStep cfg s t s') :
    TableOk (s'.threads t) := by
  cases hs with
  | @doStore cl hpc =>
      simp only [State.setPc, State.setThread, State.emit, update_self]
      exact h.setPc (by rw [hpc]; rfl) rfl (by simp)
  | getNewLog hpc hprod hr => exact h
  | gotLog hpc hprod =>
      simp only [State.setPc, State.setThread, update_self]
      exact h.purpose (by rw [hpc]; rfl) rfl
  | getLogProd hpc hr => exact h
  | produceTail hpc hr =>
      simp only [State.setPc, State.setThread, State.setRing, update_self]
      exact h.purpose (by rw [hpc]; rfl) rfl
  | writeEntry hpc hr =>
      simp only [State.setPc, State.setThread, State.setRing, State.emit, update_self]
      exact h.purpose (by rw [hpc]; rfl) rfl
  | publish hpc hprod hr =>
      simp only [State.setPc, State.setThread, State.setRing, State.emit, update_self]
      exact h.purpose (by rw [hpc]; rfl) rfl
  | produceProd hpc hne hr => exact h
  | @finishFlush cl clk hpc =>
      obtain ⟨hcl, hne, hgroup⟩ := h.flush cl (by rw [hpc]; rfl)
      have hins : insert 0 LocalCLTable.empty cl = (false, (insert 0 LocalCLTable.empty cl).2) :=
        Prod.ext (insert_empty hgroup) rfl
      obtain ⟨hmask, hcov⟩ := covered_insert_iff (maskOnly_empty 0) hgroup hins
      simp only [State.setThread, update_self]
      refine ⟨hmask, fun _ _ => (hcov _).mpr (.inr hcl.symm), ?_, by simp [ThreadPc.purpose],
        by simp [ThreadPc.purpose]⟩
      rintro cl' ⟨⟩
      exact ⟨hcl, hne⟩
  | finishRelease hpc =>
      have hzero := h.release (by rw [hpc]; rfl)
      simp only [State.setThread, State.emit, update_self]
      exact ⟨maskOnly_empty 0, fun _ hne => absurd hzero hne, by simp, by simp [ThreadPc.purpose],
        by simp [ThreadPc.purpose]⟩

theorem TableOk.help {h : Help} (htable : TableOk (s.threads t)) (hpc : (s.threads t).pc = .help h)
    (hs : HelpStep cfg s t h s') : TableOk (s'.threads t) := by
  have hnone : (s.threads t).pc.purpose = none := by rw [hpc]; rfl
  cases hs with
  | cons hst hr hout => exact htable
  | _ =>
      simp only [State.setPc, State.setThread, State.setRing, State.setMtx, State.setClock, State.emit,
        update_self]
      exact htable.setPc hnone rfl (by simp)

theorem TableOk.step (h : TableOk (s.threads t)) (hnhc : NhcStore a) (hs : Step cfg s a s') :
    TableOk (s'.threads t) := by
  by_cases ha : a = .thread t
  · subst ha
    cases hs with
    | thread hs => exact h.thread hs
    | help hpc hs => exact h.help hpc hs
  rcases call_of_ne hs ha with heq | ⟨hidle, hcall⟩
  · rwa [heq]
  have hnone : (s.threads t).pc.purpose = none := by rw [hidle]; rfl
  generalize s'.threads t = th at hcall
  cases hcall with
  | hit hcl heq => exact h.setPc hnone rfl (by rintro cl' ⟨⟩; exact ⟨heq, (line_ok hnhc hcl).1⟩)
  | @insert addr cl table hcl hins =>
      obtain ⟨hne, hgroup⟩ := line_ok hnhc hcl
      obtain ⟨hmask, hcov⟩ := covered_insert_iff h.maskOnly hgroup hins
      refine ⟨hmask, fun _ _ => (hcov cl).mpr (.inr rfl), ?_, by simp [ThreadPc.purpose],
        by simp [ThreadPc.purpose]⟩
      rintro cl' ⟨⟩
      exact ⟨rfl, hne⟩
  | @full addr cl table hcl hins =>
      -- the table is as it was
      obtain rfl := insertMask_full hins
      refine ⟨h.maskOnly, by simp [ThreadPc.purpose], by simp, ?_, by simp [ThreadPc.purpose]⟩
      rintro cl' ⟨⟩
      exact ⟨rfl, line_ok hnhc hcl⟩
  | release => exact ⟨h.maskOnly, by simp [ThreadPc.purpose], by simp, by simp [ThreadPc.purpose], by simp⟩
  | acquire => exact h.setPc hnone rfl (by simp)
  | create => exact h.setPc hnone rfl (by simp)

/-! ## From the table to the ring -/

/-- Entry number `k` of the log covers the line. -/
def Logged (log : Log) (k cl : ℕ) : Prop :=
  k < log.size ∧ log.entries k < 2 ^ 64 ∧ Covers 0 (log.entries k) cl

theorem Logged.write {log : Log} {k : ℕ} (h : Logged log k cl) (e : ℕ) : Logged (log.write e) k cl := by
  refine ⟨h.1.trans (Nat.lt_succ_self _), ?_⟩
  show update log.entries log.size e k < 2 ^ 64 ∧ Covers 0 (update log.entries log.size e k) cl
  rw [update_of_ne h.1.ne]
  exact h.2

theorem logged_write {log : Log} {e : ℕ} (hlt : e < 2 ^ 64) (hcov : Covers 0 e cl) :
    Logged (log.write e) log.size cl := by
  refine ⟨Nat.lt_succ_self _, ?_⟩
  show update log.entries log.size e log.size < 2 ^ 64 ∧ Covers 0 (update log.entries log.size e log.size) cl
  rw [update_self]
  exact ⟨hlt, hcov⟩

/-- The line is in the log of index `j`, has been written back, and since then been invalidated by node `n` if
that has processed it. -/
structure Published (cfg : Config) (s : State) (t n cl : ℕ) (later : List Event) (j k : ℕ) : Prop where
  lt_tail : j < (s.rings (cfg.home t)).tail
  logged : Logged ((s.rings (cfg.home t)).hist j).content k cl
  seen : ∃ q₁ q₂, later = q₁ ++ .writeback t cl :: q₂ ∧ ((s.rings (cfg.home t)).Processed n j k →
    .invalidate n cl ∈ q₂ ∨ .wbinvd n ∈ q₂)

theorem hist_step (hwrap : NoWrap cfg s a) (hs : Step cfg s a s') {i j : ℕ} (hj : j < (s.rings i).tail) :
    j < (s'.rings i).tail ∧ (s'.rings i).hist j = (s.rings i).hist j := by
  cases ringEffect hs with
  | none _ heq => rw [heq]; exact ⟨hj, rfl⟩
  | @step k b r ha hr hno heq =>
      rw [heq, update_apply]
      split
      · rename_i hk
        subst hk
        exact LogManager.hist_of_lt (hwrap _ b ha) (LogManager.step_cases hr) hj
      · exact ⟨hj, rfl⟩

/-- Nobody else writes to the log that a thread holds. -/
theorem buf_step {log : ℕ} (hok : RingsOk cfg s) (hn : LogManager.Remote cfg.toLogConfig (cfg.home t) n)
    (hs : Step cfg s a s') (hne : a ≠ .thread t) (hpc : (s.rings (cfg.home t)).prod t = .hold log) :
    (s'.rings (cfg.home t)).buf log = (s.rings (cfg.home t)).buf log := by
  cases ringEffect hs with
  | none _ heq => rw [heq]
  | @step k b r ha hr hno heq =>
      rw [heq, update_apply]
      split
      · rename_i hk
        subst hk
        refine LogManager.buf_of_hold (hok.inv _ n hn).1.owned (LogManager.step_cases hr) hpc fun hb => hne ?_
        exact (eq_of_producer ha hb).1
      · rfl

/-- The lines of an entry that a thread copies to a log are written back. -/
theorem mem_writebackEvents {entry : ℕ} (hentry : entry < 2 ^ 64) (hcov : Covers 0 entry cl) :
    .writeback t cl ∈ writebackEvents t entry := by
  refine List.mem_map.mpr ⟨cl, ?_, rfl⟩
  have hmem := (@mem_hwLines_writebackAddrs 0 entry cl (getMask16_lt hentry)).mpr (by simpa using hcov)
  simpa [linesOf, hwLines] using hmem

/-- The lines of an entry that a node processes are invalidated. -/
theorem mem_entryEvents {entry : ℕ} (hentry : entry < 2 ^ 64) (hcov : Covers 0 entry cl) :
    .invalidate n cl ∈ entryEvents n entry ∨ .wbinvd n ∈ entryEvents n entry := by
  unfold entryEvents
  split
  · exact .inr (List.mem_singleton.mpr rfl)
  · refine .inl (List.mem_map.mpr ⟨cl, ?_, rfl⟩)
    have hmem := (@mem_hwLines_eagerAddrs 0 entry cl (getMask16_lt hentry)).mpr (by simpa using hcov)
    simpa [linesOf, hwLines] using hmem

theorem processed_step {i j k : ℕ} (hok : RingsOk cfg s) (hwrap : NoWrap cfg s a) (hs : Step cfg s a s')
    (hn : LogManager.Remote cfg.toLogConfig i n) (hlog : Logged ((s.rings i).hist j).content k cl)
    (hp : (s'.rings i).Processed n j k) :
    (s.rings i).Processed n j k ∨ .invalidate n cl ∈ emitted cfg s a ∨ .wbinvd n ∈ emitted cfg s a := by
  cases ringEffect hs with
  | none _ heq =>
      rw [heq] at hp
      exact .inl hp
  | @step m b r ha hr hno heq =>
      rw [heq, update_apply] at hp
      split at hp
      · rename_i hm
        subst hm
        have hinv := hok.inv _ n hn
        by_cases hc : LogManager.Consumes n b
        · cases b with
          | takeHead m =>
              obtain rfl : m = n := hc
              obtain ⟨hsubs, -, hcons⟩ := LogManager.takeHead_spec (LogManager.step_cases hr)
              rw [LogManager.State.Processed, hsubs, hcons] at hp
              exact .inl (.inl (hp.resolve_right fun h => h.2))
          | cons m =>
              obtain rfl : m = n := hc
              obtain ⟨hk, hlt, hcov⟩ := hlog
              rcases LogManager.processed_cons hinv hn (hwrap _ _ ha) (LogManager.step_cases hr) hk hp with
                hold | ⟨log, clk, e, size, hpc, he, hbuf, hwhich⟩
              · exact .inl hold
              rw [emitted_of_cons ha, consEvents, hpc]
              simp only [he, if_true]
              refine .inr ?_
              rcases hwhich with rfl | hstops
              · rw [hbuf]
                exact mem_entryEvents hlt hcov
              · exact .inr (by simp [entryEvents, hstops])
          | _ => exact absurd hc id
        · obtain ⟨hsubs, hcons⟩ := LogManager.head_of_not_consumes hinv.2 hno (LogManager.step_cases hr) hc
          rw [LogManager.State.Processed, hsubs, hcons] at hp
          exact .inl hp
      · exact .inl hp

theorem Published.step {later : List Event} {j k : ℕ} (h : Published cfg s t n cl later j k)
    (hok : RingsOk cfg s) (hwrap : NoWrap cfg s a) (hs : Step cfg s a s')
    (hn : LogManager.Remote cfg.toLogConfig (cfg.home t) n) :
    Published cfg s' t n cl (later ++ emitted cfg s a) j k := by
  obtain ⟨htail, hhist⟩ := hist_step hwrap hs h.lt_tail
  obtain ⟨q₁, q₂, rfl, hseen⟩ := h.seen
  refine ⟨htail, hhist ▸ h.logged, q₁, q₂ ++ emitted cfg s a, by simp, fun hp => ?_⟩
  simp only [List.mem_append]
  rcases processed_step hok hwrap hs hn h.logged hp with hold | hinv | hwb
  · exact (hseen hold).imp .inl .inl
  · exact .inl (.inr hinv)
  · exact .inr (.inr hwb)

/-! ## Every store -/

/-- The table is what the thread has stored to since its last log. -/
def ThreadPc.collects : ThreadPc → Bool
  | .idle | .store _ | .getLog _ | .help _ => true
  | .fill _ _ | .produce _ | .finish _ _ => false

/-- Above the indices that thread `t` has reserved so far. -/
def State.limit (cfg : Config) (s : State) (t : ℕ) : ℕ :=
  match (s.threads t).pc with
  | .produce _ =>
      match ((s.rings (cfg.home t)).prod t).reserved with
      | some j => j + 1
      | none => (s.rings (cfg.home t)).tail
  | .finish _ clk => clk
  | _ => (s.rings (cfg.home t)).tail

/-- Where a line is that thread `t` has stored to, given what has been recorded since. Until it is in the
ring, the thread has not released. -/
inductive Located (cfg : Config) (s : State) (t n cl : ℕ) (later : List Event) : Prop
  | table : (s.threads t).pc.collects = true → Covered 0 (s.threads t).dirtyCls cl →
      (∀ clk, .release t clk ∉ later) → Located cfg s t n cl later
  | filling {k : Purpose} {rest : List ℕ} {entry : ℕ} : (s.threads t).pc = .fill k rest → entry ∈ rest →
      entry < 2 ^ 64 → Covers 0 entry cl → (∀ clk, .release t clk ∉ later) → Located cfg s t n cl later
  | held {k : Purpose} {rest : List ℕ} {log m : ℕ} : (s.threads t).pc = .fill k rest →
      (s.rings (cfg.home t)).prod t = .hold log → Logged ((s.rings (cfg.home t)).buf log) m cl →
      .writeback t cl ∈ later → (∀ clk, .release t clk ∉ later) → Located cfg s t n cl later
  | published {j k : ℕ} : Published cfg s t n cl later j k → j < s.limit cfg t →
      (∀ clk, .release t clk ∈ later → j < clk) → Located cfg s t n cl later

theorem mem_consEvents {m i : ℕ} {r : LogManager.State} {e : Event} (h : e ∈ consEvents cfg m i r) :
    (∃ idx, e = .process m i idx) ∨ (∃ cl, e = .invalidate m cl) ∨ e = .wbinvd m := by
  unfold consEvents entryEvents at h
  split at h
  · exact .inl ⟨_, List.mem_singleton.mp h⟩
  · split at h
    · split at h
      · exact .inr (.inr (List.mem_singleton.mp h))
      · obtain ⟨cl, -, rfl⟩ := List.mem_map.mp h
        exact .inr (.inl ⟨cl, rfl⟩)
    · cases h
  · cases h

theorem pc_of_release {clk : ℕ} (h : .release t clk ∈ emitted cfg s a) :
    a = .thread t ∧ (s.threads t).pc = .finish .release clk := by
  cases a with
  | thread u =>
      simp only [emitted] at h
      split at h
      · simp at h
      · simp [writebackEvents] at h
      · split at h <;> simp at h
      · rename_i hpc
        obtain ⟨rfl, rfl⟩ : t = u ∧ clk = _ := by simpa using h
        exact ⟨rfl, hpc⟩
      · split at h
        · rcases mem_consEvents h with ⟨_, h⟩ | ⟨_, h⟩ | h <;> cases h
        · cases h
      · cases h
  | agent m =>
      simp only [emitted] at h
      split at h
      · rcases mem_consEvents h with ⟨_, h⟩ | ⟨_, h⟩ | h <;> cases h
      · cases h
  | _ => cases h

theorem pc_of_store (h : .store t cl ∈ emitted cfg s a) :
    a = .thread t ∧ (s.threads t).pc = .store cl ∧ emitted cfg s a = [.store t cl] := by
  cases a with
  | thread u =>
      simp only [emitted] at h ⊢
      split at h
      · rename_i hpc
        obtain ⟨rfl, rfl⟩ : t = u ∧ cl = _ := by simpa using h
        exact ⟨rfl, hpc, rfl⟩
      · simp [writebackEvents] at h
      · split at h <;> simp at h
      · simp at h
      · split at h
        · rcases mem_consEvents h with ⟨_, h⟩ | ⟨_, h⟩ | h <;> cases h
        · cases h
      · cases h
  | agent m =>
      simp only [emitted] at h
      split at h
      · rcases mem_consEvents h with ⟨_, h⟩ | ⟨_, h⟩ | h <;> cases h
      · cases h
  | _ => cases h

/-- The tail of a ring only grows. -/
theorem tail_le_step (hwrap : NoWrap cfg s a) (hs : Step cfg s a s') (i : ℕ) :
    (s.rings i).tail ≤ (s'.rings i).tail := by
  by_contra hlt
  have := (hist_step hwrap hs (by omega : (s'.rings i).tail < (s.rings i).tail)).1
  omega

/-- No thread but `t` records its releases. -/
theorem release_notMem {later : List Event} (hno : ∀ clk, .release t clk ∉ later)
    (hpc : a ≠ .thread t ∨ ∀ clk, (s.threads t).pc ≠ .finish .release clk) (clk : ℕ) :
    .release t clk ∉ later ++ emitted cfg s a := by
  intro h
  rcases List.mem_append.mp h with hold | hnew
  · exact hno clk hold
  · obtain ⟨ha, hfin⟩ := pc_of_release hnew
    exact hpc.elim (fun hne => hne ha) fun hne => hne clk hfin

theorem limit_le_step (hwrap : NoWrap cfg s a) (hs : Step cfg s a s') (hne : a ≠ .thread t)
    (hsame : (s'.threads t).pc = (s.threads t).pc) : s.limit cfg t ≤ s'.limit cfg t := by
  have htail := tail_le_step hwrap hs (cfg.home t)
  unfold State.limit
  rw [hsame, prod_step hs hne]
  split
  · split
    · exact le_rfl
    · exact htail
  · exact le_rfl
  · exact htail

/-- A line stays where it is while another party moves. -/
theorem Located.frame {later : List Event} (h : Located cfg s t n cl later) (hok : RingsOk cfg s)
    (hwrap : NoWrap cfg s a) (hs : Step cfg s a s')
    (hn : LogManager.Remote cfg.toLogConfig (cfg.home t) n) (hne : a ≠ .thread t)
    (hsame : s'.threads t = s.threads t) : Located cfg s' t n cl (later ++ emitted cfg s a) := by
  cases h with
  | table hcol hcov hno => exact .table (hsame ▸ hcol) (hsame ▸ hcov) (release_notMem hno (.inl hne))
  | filling hpc hmem hlt hcov hno =>
      exact .filling (hsame ▸ hpc) hmem hlt hcov (release_notMem hno (.inl hne))
  | held hpc hprod hlog hwb hno =>
      rw [← buf_step hok hn hs hne hprod] at hlog
      exact .held (hsame ▸ hpc) ((prod_step hs hne _).trans hprod) hlog (List.mem_append_left _ hwb)
        (release_notMem hno (.inl hne))
  | published hpub hlt hrel =>
      refine .published (hpub.step hok hwrap hs hn)
        (hlt.trans_le (limit_le_step hwrap hs hne (by rw [hsame]))) fun clk hclk => ?_
      rcases List.mem_append.mp hclk with hold | hnew
      · exact hrel clk hold
      · exact absurd (pc_of_release hnew).1 hne

/-- The thread is called. -/
theorem Located.call {later : List Event} (h : Located cfg s t n cl later) (hok : RingsOk cfg s)
    (hwrap : NoWrap cfg s a) (hs : Step cfg s a s')
    (hn : LogManager.Remote cfg.toLogConfig (cfg.home t) n) (hne : a ≠ .thread t)
    (hidle : (s.threads t).pc = .idle) (hcall : Call cfg s t a (s'.threads t)) :
    Located cfg s' t n cl (later ++ emitted cfg s a) := by
  have htail := tail_le_step hwrap hs (cfg.home t)
  cases h with
  | table hcol hcov hno =>
      refine .table ?_ ?_ (release_notMem hno (.inl hne))
      · generalize s'.threads t = th at hcall
        cases hcall <;> rfl
      · generalize s'.threads t = th at hcall
        cases hcall with
        | insert hcl hins => exact covered_insert hins (.inl hcov)
        | full hcl hins =>
            obtain rfl := insertMask_full hins
            exact hcov
        | _ => exact hcov
  | filling hpc => rw [hidle] at hpc; cases hpc
  | held hpc => rw [hidle] at hpc; cases hpc
  | published hpub hlt hrel =>
      refine .published (hpub.step hok hwrap hs hn) ?_ fun clk hclk => ?_
      · have hlimit : s'.limit cfg t = (s'.rings (cfg.home t)).tail := by
          unfold State.limit
          generalize s'.threads t = th at hcall
          cases hcall <;> rfl
        rw [hlimit]
        exact hpub.lt_tail.trans_le htail
      · rcases List.mem_append.mp hclk with hold | hnew
        · exact hrel clk hold
        · exact absurd (pc_of_release hnew).1 hne

/-- The thread is in `thread_acquire`. -/
theorem Located.help {later : List Event} {h : Help} (hloc : Located cfg s t n cl later)
    (hok : RingsOk cfg s) (hwrap : NoWrap cfg s (.thread t)) (hpc : (s.threads t).pc = .help h)
    (hs : HelpStep cfg s t h s') (hn : LogManager.Remote cfg.toLogConfig (cfg.home t) n) :
    Located cfg s' t n cl (later ++ emitted cfg s (.thread t)) := by
  have hnot : ∀ clk, (s.threads t).pc ≠ .finish .release clk := by simp [hpc]
  have htail := tail_le_step hwrap (.help hpc hs) (cfg.home t)
  have hafter : (s'.threads t).dirtyCls = (s.threads t).dirtyCls ∧
      ((s'.threads t).pc = .idle ∨ ∃ h', (s'.threads t).pc = .help h') := by
    cases hs <;>
      simp [State.setPc, State.setThread, State.setRing, State.setMtx, State.setClock, State.emit, hpc]
  cases hloc with
  | table hcol hcov hno =>
      refine .table ?_ (hafter.1 ▸ hcov) (release_notMem hno (.inr hnot))
      rcases hafter.2 with h' | ⟨_, h'⟩ <;> rw [h'] <;> rfl
  | filling hpc' => rw [hpc] at hpc'; cases hpc'
  | held hpc' => rw [hpc] at hpc'; cases hpc'
  | published hpub hlt hrel =>
      refine .published (hpub.step hok hwrap (.help hpc hs) hn) ?_ fun clk hclk => ?_
      · have hlimit : s'.limit cfg t = (s'.rings (cfg.home t)).tail := by
          unfold State.limit
          rcases hafter.2 with h' | ⟨_, h'⟩ <;> rw [h']
        rw [hlimit]
        exact hpub.lt_tail.trans_le htail
      · rcases List.mem_append.mp hclk with hold | hnew
        · exact hrel clk hold
        · exact absurd (pc_of_release hnew).2 (hnot clk)

/-- The line is in the ring, and the thread goes on. -/
theorem Published.located {later : List Event} {j k : ℕ} (h : Published cfg s t n cl later j k)
    (hok : RingsOk cfg s) (hwrap : NoWrap cfg s (.thread t)) (hs : Step cfg s (.thread t) s')
    (hn : LogManager.Remote cfg.toLogConfig (cfg.home t) n) (hrel : ∀ clk, .release t clk ∈ later → j < clk)
    (hfin : ∀ clk, (s.threads t).pc = .finish .release clk → j < clk) (hlimit : j < s'.limit cfg t) :
    Located cfg s' t n cl (later ++ emitted cfg s (.thread t)) := by
  refine .published (h.step hok hwrap hs hn) hlimit fun clk hclk => ?_
  rcases List.mem_append.mp hclk with hold | hnew
  · exact hrel clk hold
  · exact hfin clk (pc_of_release hnew).2

/-- What a thread reserves is above what it has reserved before. -/
theorem limit_thread {j : ℕ} (hok : RingsOk cfg s) (hwrap : NoWrap cfg s (.thread t))
    (hs : ThreadStep cfg s t s') (hj : j < (s.rings (cfg.home t)).tail) (hlt : j < s.limit cfg t) :
    j < s'.limit cfg t := by
  have htail := hj.trans_le (tail_le_step hwrap (.thread hs) (cfg.home t))
  cases hs with
  | @produceTail k r hpc hr =>
      cases LogManager.step_cases hr
      simp only [State.limit, State.setPc, State.setThread, State.setRing, update_self,
        LogManager.State.setProd, LogManager.ProdPc.reserved]
      omega
  | @produceProd k r hpc hne hr =>
      have hres := LogManager.reserved_of_prod (LogManager.step_cases hr) hne
      simp only [State.limit, State.setRing, update_self, hpc, hres] at hlt htail ⊢
      split at hlt
      · exact hlt
      · exact htail
  | @publish k log i rel r hpc hprod hr =>
      have hrec := (hok.records (cfg.home t)).reserved t
      have hrange := (hok.records (cfg.home t)).tail_lt
      rw [hprod] at hrec
      simp only [State.limit, hpc, hprod, LogManager.ProdPc.reserved] at hlt
      simp only [State.limit, State.setPc, State.setThread, State.setRing, State.emit, update_self]
      rwa [LogManager.incr_eq (by have := hrec.1; omega)]
  | _ hpc =>
      simp only [State.limit, State.setPc, State.setThread, State.setRing, State.emit, update_self, hpc] at htail ⊢
      exact htail

/-- The thread goes on outside `thread_acquire`. -/
theorem Located.thread {later : List Event} (h : Located cfg s t n cl later) (hok : RingsOk cfg s)
    (htable : TableOk (s.threads t)) (hwrap : NoWrap cfg s (.thread t)) (hs : ThreadStep cfg s t s')
    (hn : LogManager.Remote cfg.toLogConfig (cfg.home t) n) :
    Located cfg s' t n cl (later ++ emitted cfg s (.thread t)) := by
  cases h with
  | published hpub hlt hrel =>
      refine hpub.located hok hwrap (.thread hs) hn hrel (fun clk hpc => ?_)
        (limit_thread hok hwrap hs hpub.lt_tail hlt)
      simpa only [State.limit, hpc] using hlt
  | table hcol hcov hno =>
      cases hs with
      | @doStore cl' hpc =>
          refine .table ?_ ?_ (release_notMem hno (.inr (by simp [hpc])))
          · simp [State.setPc, State.setThread, ThreadPc.collects]
          · simpa [State.setPc, State.setThread, State.emit] using hcov
      | getNewLog hpc hprod hr => exact .table hcol hcov (release_notMem hno (.inr (by simp [hpc])))
      | getLogProd hpc hr => exact .table hcol hcov (release_notMem hno (.inr (by simp [hpc])))
      | gotLog hpc hprod =>
          -- the words of the table are what is to be copied
          obtain ⟨entry, hmem, hentry⟩ := covered_iff_entries.mp hcov
          have hlt := MaskOnly.mem_entries htable.maskOnly hmem
          exact .filling (State.pc_setPc _ _ _) hmem (hlt.trans (by decide)) hentry
            (release_notMem hno (.inr (by simp [hpc])))
      | _ hpc => rw [hpc] at hcol; cases hcol
  | @filling k rest entry hpc hmem hlt hcov hno =>
      have hno' : ∀ clk, .release t clk ∉ later ++ emitted cfg s (.thread t) :=
        release_notMem hno (.inr (by simp [hpc]))
      cases hs with
      | @produceTail k' r hpc' hr =>
          rw [hpc] at hpc'
          cases hpc'
          cases hmem
      | @writeEntry k' entry' rest' r hpc' hr =>
          obtain ⟨rfl, rfl⟩ := ThreadPc.fill.inj (hpc.symm.trans hpc')
          rcases List.mem_cons.mp hmem with rfl | hrest
          · have hem : emitted cfg s (.thread t) = writebackEvents t entry := by simp [emitted, hpc]
            have hwb := List.mem_append_right later (hem ▸ mem_writebackEvents hlt hcov)
            cases LogManager.step_cases hr with
            | @write _ _ log hprod =>
                refine @Located.held _ _ _ _ _ _ _ _ log ((s.rings (cfg.home t)).buf log).size
                  (State.pc_setPc _ _ _) ?_ ?_ hwb hno'
                · simpa [State.setPc, State.setThread, State.setRing, State.emit] using hprod
                · simpa [State.setPc, State.setThread, State.setRing, State.emit] using logged_write hlt hcov
          · exact .filling (State.pc_setPc _ _ _) hrest hlt hcov hno'
      | _ hpc' => rw [hpc] at hpc'; cases hpc'
  | @held k rest log m hpc hprod hlog hwb hno =>
      have hno' : ∀ clk, .release t clk ∉ later ++ emitted cfg s (.thread t) :=
        release_notMem hno (.inr (by simp [hpc]))
      have hwb' := List.mem_append_left (emitted cfg s (.thread t)) hwb
      cases hs with
      | @produceTail k' r hpc' hr =>
          have hinv := hok.inv _ n hn
          have hlt : (s.rings (cfg.home t)).tail + 1 < idxRange := by
            have := hwrap (cfg.home t) (.produceTail t k'.isRelease) (by simp [ringAction, hpc'])
            exact this
          obtain ⟨q₁, q₂, hq⟩ := List.append_of_mem hwb'
          cases LogManager.step_cases hr with
          | @produceTail _ log' _ hprod' =>
              obtain rfl := LogManager.ProdPc.hold.inj (hprod.symm.trans hprod')
              refine @Located.published _ _ _ _ _ _ (s.rings (cfg.home t)).tail m ⟨?_, ?_, q₁, q₂, hq, ?_⟩ ?_
                fun clk hclk => absurd hclk (hno' clk)
              · simp [State.setPc, State.setThread, State.setRing, LogManager.State.setProd,
                  LogManager.incr_eq hlt]
              · simpa [State.setPc, State.setThread, State.setRing, LogManager.State.setProd] using hlog
              · -- nobody has processed an index that was not reserved
                intro hp
                refine absurd (hinv.lt_tail hn (j := (s.rings (cfg.home t)).tail) (k := m) ?_) (lt_irrefl _)
                simpa [LogManager.State.Processed, State.setPc, State.setThread, State.setRing,
                  LogManager.State.setProd] using hp
              · simp [State.limit, State.setPc, State.setThread, State.setRing, LogManager.State.setProd,
                  LogManager.ProdPc.reserved]
      | @writeEntry k' entry' rest' r hpc' hr =>
          cases LogManager.step_cases hr with
          | @write _ _ log' hprod' =>
              obtain rfl := LogManager.ProdPc.hold.inj (hprod.symm.trans hprod')
              refine @Located.held _ _ _ _ _ _ _ _ log m (State.pc_setPc _ _ _) ?_ ?_ hwb' hno'
              · simpa [State.setPc, State.setThread, State.setRing, State.emit] using hprod
              · simpa [State.setPc, State.setThread, State.setRing, State.emit] using hlog.write entry'
      | _ hpc' => rw [hpc] at hpc'; cases hpc'

theorem Located.step {later : List Event} (h : Located cfg s t n cl later) (hok : RingsOk cfg s)
    (htable : TableOk (s.threads t)) (hwrap : NoWrap cfg s a) (hs : Step cfg s a s')
    (hn : LogManager.Remote cfg.toLogConfig (cfg.home t) n) :
    Located cfg s' t n cl (later ++ emitted cfg s a) := by
  by_cases ha : a = .thread t
  · subst ha
    cases hs with
    | thread hs => exact h.thread hok htable hwrap hs hn
    | help hpc hs => exact h.help hok hwrap hpc hs hn
  · rcases call_of_ne hs ha with heq | ⟨hidle, hcall⟩
    · exact h.frame hok hwrap hs hn ha heq
    · exact h.call hok hwrap hs hn ha hidle hcall

/-- Every thread has its table in order, and the line of every store is somewhere on its way. -/
structure Lines (cfg : Config) (s : State) : Prop where
  table : ∀ t, TableOk (s.threads t)
  located : ∀ t n, LogManager.Remote cfg.toLogConfig (cfg.home t) n → ∀ cl earlier later,
    s.trace = earlier ++ .store t cl :: later → Located cfg s t n cl later

theorem Lines.initial : Lines cfg (initial cfg) where
  table _ := .initial
  located t n _ cl earlier later h := by simp [Cluster.initial] at h

/-- A line that is stored to is in the table. -/
theorem Lines.stored (h : Lines cfg s) (hem : .store t cl ∈ emitted cfg s a) (hs : Step cfg s a s') :
    Located cfg s' t n cl [] := by
  obtain ⟨rfl, hpc, -⟩ := pc_of_store hem
  obtain ⟨hcl, hne⟩ := (h.table t).store cl hpc
  have hcov := (h.table t).recent (by rw [hpc]; rfl) (hcl ▸ hne)
  cases hs with
  | thread hs =>
      cases hs with
      | doStore hpc' =>
          refine .table (by rw [State.pc_setPc]; rfl) ?_ (by simp)
          simpa [State.setPc, State.setThread, State.emit, hcl] using hcov
      | _ hpc' => rw [hpc] at hpc'; cases hpc'
  | help hpc' hs => rw [hpc] at hpc'; cases hpc'

theorem Lines.step (h : Lines cfg s) (hok : RingsOk cfg s) (hnhc : NhcStore a) (hwrap : NoWrap cfg s a)
    (hs : Step cfg s a s') : Lines cfg s' := by
  refine ⟨fun t => (h.table t).step hnhc hs, fun t n hn cl earlier later htr => ?_⟩
  rw [trace_step hs] at htr
  -- the store was recorded before, or it is that of this step, which then records nothing else
  have hnew : ∀ as, emitted cfg s a = as ++ .store t cl :: later → Located cfg s' t n cl later := by
    intro as has
    have hmem : .store t cl ∈ emitted cfg s a := by rw [has]; simp
    have hlen := congrArg List.length (has.symm.trans (pc_of_store hmem).2.2)
    simp only [List.length_append, List.length_cons, List.length_nil] at hlen
    obtain rfl : later = [] := List.eq_nil_of_length_eq_zero (by omega)
    exact h.stored hmem hs
  rcases List.append_eq_append_iff.mp htr with ⟨as, -, hem⟩ | ⟨bs, hbs, hem⟩
  · exact hnew as hem
  · cases bs with
    | nil => exact hnew [] hem.symm
    | cons b bs =>
        obtain ⟨rfl, rfl⟩ := List.cons.inj hem
        exact (h.located t n hn cl earlier bs hbs).step hok (h.table t) hwrap hs hn

end Cluster

end RACoherence
