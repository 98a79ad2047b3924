import RACoherence.ThreadBuild

/-!
# Write-back without the local table

Reference: `include/threadOps.hpp` with `LOCAL_CL_TABLE=0`, `INLINE_CACHING=1` and `CL_EXPAND_SHIFT=0`.

With `EAGER_WRITEBACK=1` the line in `recent_cl` is written back when another line is stored to and at
the release, and it is the only one that has to be. With `EAGER_WRITEBACK=0` the write-back is in
`log_store`, before the store that it is for, and no store is written back after it.
-/

namespace RACoherence

open ThreadOps

namespace ThreadBuild

/-- Whenever a log is published, the lines stored to in the epoch that are in it or in an earlier log of
the epoch are written back, other than the line of the store in progress; at a release, all of them. -/
def WrittenBackAtPublish : List Event → Prop
  | [] => True
  | .produce _ _ entries isRel :: trace => WrittenBackAtPublish trace ∧ ∀ line,
      storedInEpoch line trace = true →
      isRel = true ∨ ((line ∈ entries ∨ recordedInEpoch line trace = true) ∧
        inProgress trace ≠ some line) →
      pending line trace = false
  | _ :: trace => WrittenBackAtPublish trace

/-- The call stores to a line or releases. -/
def Op.NoRange : Op → Prop
  | .logRangeStore _ _ => False
  | _ => True

/-- The lines stored to, in order. -/
def storeLines (ops : List Op) : List ℕ :=
  ops.filterMap fun
    | .logStore addr => some (addr >>> cacheLineShift)
    | _ => none

/-- How often the line differs from the one before it, `prev` being before the first. -/
def lineChanges (prev : ℕ) : List ℕ → ℕ
  | [] => 0
  | line :: lines => (if line = prev then 0 else 1) + lineChanges line lines

/-- The calls publish no log: no release comes after a store, and the log does not overflow. -/
def NeverPublishes (logSize : ℕ) (ops : List Op) : Prop :=
  ops.Pairwise (fun op op' => storeLines [op] ≠ [] → op' ≠ .threadRelease) ∧
    lineChanges 0 (storeLines ops) ≤ logSize

theorem lineChanges_snoc (prev : ℕ) (lines : List ℕ) (line : ℕ) :
    lineChanges prev (lines ++ [line]) =
      lineChanges prev lines + if line = lines.getLastD prev then 0 else 1 := by
  induction lines generalizing prev with
  | nil => simp [lineChanges]
  | cons k lines ih =>
      rw [List.cons_append, lineChanges, ih, lineChanges, List.getLastD_cons, Nat.add_assoc]

theorem storeLines_snoc (ops : List Op) (op : Op) :
    storeLines (ops ++ [op]) = storeLines ops ++ storeLines [op] := by
  simp [storeLines, List.filterMap_append]

/-! ## The calls in this build -/

/-- The switches of this build. -/
structure Direct (b : Build) : Prop where
  localClTable : b.localClTable = false
  inlineCaching : b.inlineCaching = true
  sh : b.sh = 0
  logSize : 0 < b.logSize

variable {b : Build} {env : Env} {s : State} {cl : ℕ}

/-- What `write_cl_to_log` does: the log is appended to, or begun, or published and begun. -/
inductive WroteCl (b : Build) (env : Env) (cl : ℕ) (s : State) : State → Prop
  | append {log : CurrLog} : s.currLog = some log → log.isFull b.logSize = false →
      WroteCl b env cl s { s with
        currLog := some ⟨log.toLog.write cl, log.ptr⟩
        trace := .write log.ptr cl :: s.trace }
  | first : s.currLog = none →
      WroteCl b env cl s { s with
        currLog := some ⟨Log.empty.write cl, env.log s.obtained⟩
        obtained := s.obtained + 1
        trace := .write (env.log s.obtained) cl :: .newLog (env.log s.obtained) :: s.trace }
  | full {log : CurrLog} : s.currLog = some log → log.isFull b.logSize = true →
      WroteCl b env cl s { s with
        currLog := some ⟨Log.empty.write cl, env.log s.obtained⟩
        obtained := s.obtained + 1
        produced := s.produced + 1
        trace := .write (env.log s.obtained) cl :: .newLog (env.log s.obtained) ::
          .produce log.ptr (env.idx s.produced) log.toList false :: s.trace }

theorem wroteCl (hb : 0 < b.logSize) (cl : ℕ) (s : State) :
    WroteCl b env cl s (writeClToLog b env cl s) := by
  unfold writeClToLog
  cases hlog : s.currLog with
  | none =>
      have hempty : Log.empty.isFull b.logSize = false := by
        simp [Log.isFull, Log.empty, Nat.ne_of_lt hb]
      simp only [State.setToNewLog, CurrLog.toLog_new, hempty]
      exact .first hlog
  | some log =>
      cases hfull : log.isFull b.logSize with
      | false =>
          simp only [hfull]
          exact .append hlog hfull
      | true =>
          simp only [hfull]
          exact .full hlog hfull

/-- The write-back that precedes the record of line `cl`. -/
def earlyWriteback (b : Build) (s : State) (cl : ℕ) : List Event :=
  if b.eagerWriteback then (if s.recentCl = 0 then [] else [.writeback s.recentCl])
  else [.writeback cl]

theorem racStore_hit (hb : Direct b) {addr : ℕ} (h : addr >>> cacheLineShift = s.recentCl) :
    racStore b env addr s = { s with
      trace := .store (addr >>> cacheLineShift) :: .logStore (addr >>> cacheLineShift) :: s.trace } := by
  have hcl : addr >>> virtualClShift b.sh = s.recentCl := by
    rw [hb.sh]
    exact h
  simp [racStore, logStore, State.emit, hb.inlineCaching, hcl]

theorem racStore_miss (env : Env) (hb : Direct b) {addr : ℕ} (h : addr >>> cacheLineShift ≠ s.recentCl) :
    ∃ s', WroteCl b env (addr >>> cacheLineShift)
        { s with
          recentCl := addr >>> cacheLineShift
          trace := earlyWriteback b s (addr >>> cacheLineShift) ++
            .logStore (addr >>> cacheLineShift) :: s.trace } s' ∧
      racStore b env addr s = s'.emit (.store (addr >>> cacheLineShift)) := by
  have hcl : addr >>> virtualClShift b.sh = addr >>> cacheLineShift := by
    rw [hb.sh]
    rfl
  refine ⟨_, wroteCl hb.logSize _ _, ?_⟩
  rw [racStore, logStore, if_neg (by simp [State.emit, hcl, h]), hcl, hb.localClTable,
    clWritebacks_eq hb.sh]
  cases heager : b.eagerWriteback with
  | false => simp [State.emit, earlyWriteback, heager]
  | true =>
      by_cases hzero : s.recentCl = 0
      · simp [State.emit, earlyWriteback, heager, hzero]
      · simp [State.emit, State.emits, earlyWriteback, heager, hzero]

theorem threadRelease_eq (env : Env) (hb : Direct b) (h : s.recentCl ≠ 0) :
    ∃ log, (∀ k, s.currLog = some k → log = k) ∧ (threadRelease b env s).2 = { s with
      recentCl := 0
      currLog := none
      clock := env.idx s.produced
      produced := s.produced + 1
      trace := .produce log.ptr (env.idx s.produced) log.toList true ::
        (if b.eagerWriteback then [.writeback s.recentCl] else []) ++ s.trace } := by
  refine ⟨s.currLog.getD (.new 0), fun k hk => by simp [hk], ?_⟩
  rw [threadRelease, if_neg h, hb.localClTable, clWritebacks_eq hb.sh]
  cases heager : b.eagerWriteback <;> simp [State.emits, State.emit, State.produceTail]

/-! ## With eager write-back -/

/-- Only the line in `recent_cl` may have to be written back. -/
structure EagerInv (s : State) : Prop where
  good : WrittenBackAtPublish s.trace
  pending : ∀ line, pending line s.trace = true → line = s.recentCl ∧ line ≠ 0

/-- A log is published while nothing has to be written back. -/
theorem WroteCl.eager {s' : State} (h : WroteCl b env cl s s') (hgood : WrittenBackAtPublish s.trace)
    (hnone : ∀ line, ThreadBuild.pending line s.trace = false) :
    WrittenBackAtPublish s'.trace ∧ s'.recentCl = s.recentCl ∧
      ∀ line, ThreadBuild.pending line s'.trace = false := by
  cases h with
  | append => exact ⟨hgood, rfl, hnone⟩
  | first => exact ⟨hgood, rfl, hnone⟩
  | full => exact ⟨⟨hgood, fun line _ _ => hnone line⟩, rfl, hnone⟩

/-- After the write-back of `recent_cl` nothing is left. -/
theorem EagerInv.pending_writeback (h : EagerInv s) (line : ℕ) :
    ThreadBuild.pending line (.writeback s.recentCl :: s.trace) = false := by
  by_contra hne
  simp only [ThreadBuild.pending, Bool.not_eq_false, Bool.and_eq_true, decide_eq_true_iff] at hne
  exact hne.1 (h.pending line hne.2).1.symm

theorem EagerInv.racStore (hb : Direct b) (heager : b.eagerWriteback = true) (h : EagerInv s)
    {addr : ℕ} (hne : addr >>> cacheLineShift ≠ 0) : EagerInv (racStore b env addr s) := by
  by_cases hhit : addr >>> cacheLineShift = s.recentCl
  · rw [racStore_hit hb hhit]
    refine ⟨h.good, fun line hp => ?_⟩
    simp only [ThreadBuild.pending, Bool.or_eq_true, decide_eq_true_iff] at hp
    rcases hp with rfl | hp
    · exact ⟨hhit, hne⟩
    · exact h.pending line hp
  · obtain ⟨s', hwrote, heq⟩ := racStore_miss env hb hhit
    -- whether or not there was a line before this one, it is written back by now
    have hnone : ∀ line, ThreadBuild.pending line
        (earlyWriteback b s (addr >>> cacheLineShift) ++ .logStore (addr >>> cacheLineShift) :: s.trace) =
          false := fun line => by
      simp only [earlyWriteback, heager, if_true]
      split
      · by_contra hp
        obtain ⟨hrec, hpos⟩ := h.pending line (by simpa [ThreadBuild.pending] using hp)
        omega
      · exact h.pending_writeback line
    have hgood : WrittenBackAtPublish
        (earlyWriteback b s (addr >>> cacheLineShift) ++ .logStore (addr >>> cacheLineShift) :: s.trace) := by
      simp only [earlyWriteback, heager, if_true]
      split <;> exact h.good
    obtain ⟨hgood', hrec', hnone'⟩ := hwrote.eager hgood hnone
    rw [heq]
    refine ⟨hgood', fun line hp => ?_⟩
    simp only [State.emit, ThreadBuild.pending, hnone', Bool.or_false, decide_eq_true_iff] at hp
    subst hp
    exact ⟨hrec'.symm, hne⟩

theorem EagerInv.threadRelease (hb : Direct b) (heager : b.eagerWriteback = true) (h : EagerInv s) :
    EagerInv (threadRelease b env s).2 := by
  by_cases hzero : s.recentCl = 0
  · rw [ThreadBuild.threadRelease, if_pos hzero]
    exact h
  · obtain ⟨log, -, heq⟩ := threadRelease_eq env hb hzero
    rw [heq, heager]
    refine ⟨⟨h.good, fun line _ _ => h.pending_writeback line⟩, fun line hp => ?_⟩
    have hnone := h.pending_writeback line
    simp only [ThreadBuild.pending, if_true, List.cons_append, List.nil_append] at hp hnone
    rw [hnone] at hp
    cases hp

/-! ## Without eager write-back -/

theorem neverPublishes_snoc_store {n addr : ℕ} {ops : List Op} :
    NeverPublishes n (ops ++ [.logStore addr]) ↔ NeverPublishes n ops ∧
      lineChanges 0 (storeLines ops ++ [addr >>> cacheLineShift]) ≤ n := by
  rw [NeverPublishes, NeverPublishes, storeLines_snoc, List.pairwise_append]
  have hlines : storeLines [.logStore addr] = [addr >>> cacheLineShift] := rfl
  have hle := lineChanges_snoc 0 (storeLines ops) (addr >>> cacheLineShift)
  rw [hlines]
  constructor
  · rintro ⟨⟨hpair, -, -⟩, hlen⟩
    exact ⟨⟨hpair, by omega⟩, hlen⟩
  · rintro ⟨⟨hpair, -⟩, hlen⟩
    exact ⟨⟨hpair, List.pairwise_singleton _ _, by simp⟩, hlen⟩

theorem neverPublishes_snoc_release {n : ℕ} {ops : List Op} :
    NeverPublishes n (ops ++ [.threadRelease]) ↔ NeverPublishes n ops ∧ storeLines ops = [] := by
  rw [NeverPublishes, NeverPublishes, storeLines_snoc, List.pairwise_append]
  have hlines : storeLines [.threadRelease] = [] := rfl
  have hnil : storeLines ops = [] ↔ ∀ op ∈ ops, storeLines [op] = [] := by
    simp only [storeLines, List.filterMap_eq_nil_iff, List.mem_singleton, forall_eq]
  rw [hlines, List.append_nil, hnil]
  constructor
  · rintro ⟨⟨hpair, -, hlast⟩, hlen⟩
    refine ⟨⟨hpair, hlen⟩, fun op hop => ?_⟩
    by_contra hne
    exact hlast op hop _ (by simp) hne rfl
  · rintro ⟨⟨hpair, hlen⟩, hnone⟩
    exact ⟨⟨hpair, List.pairwise_singleton _ _, fun op hop _ _ hne => absurd (hnone op hop) hne⟩, hlen⟩

/-- The line in `recent_cl` is in the log and not written back. What the calls have done so far shows in
the length of the log as long as nothing is published. -/
structure LazyInv (b : Build) (ops : List Op) (s : State) : Prop where
  good : WrittenBackAtPublish s.trace ↔ s.produced = 0
  idle : s.recentCl = 0 → s.currLog = none
  recent : s.recentCl ≠ 0 → pending s.recentCl s.trace = true ∧
    storedInEpoch s.recentCl s.trace = true ∧ ∃ log, s.currLog = some log ∧ s.recentCl ∈ log.toList
  never : s.produced = 0 ↔ NeverPublishes b.logSize ops
  count : s.produced = 0 → s.recentCl = (storeLines ops).getLastD 0 ∧
    s.currLog.elim 0 (·.size) = lineChanges 0 (storeLines ops)

theorem lazyInv_fresh : LazyInv b [] fresh where
  good := by simp [fresh, WrittenBackAtPublish]
  idle _ := rfl
  recent h := absurd rfl h
  never := by simp [fresh, NeverPublishes, storeLines, lineChanges]
  count _ := ⟨rfl, rfl⟩

namespace LazyInv

variable {ops : List Op} {addr : ℕ}

theorem hit (hb : Direct b) (h : LazyInv b ops s) (hne : addr >>> cacheLineShift ≠ 0)
    (hhit : addr >>> cacheLineShift = s.recentCl) :
    LazyInv b (ops ++ [.logStore addr]) (racStore b env addr s) := by
  have hrec : s.recentCl ≠ 0 := hhit ▸ hne
  obtain ⟨hpend, hstored, hlog⟩ := h.recent hrec
  rw [racStore_hit hb hhit]
  refine ⟨h.good, h.idle, fun _ => ⟨?_, ?_, hlog⟩, ?_, fun hp => ?_⟩
  · simp [ThreadBuild.pending, hpend]
  · simp [storedInEpoch, hstored]
  · -- the number of line changes stays the same as long as it matters
    rw [neverPublishes_snoc_store, lineChanges_snoc]
    constructor
    · intro hp
      have hnever := h.never.mp hp
      rw [if_pos (hhit.trans (h.count hp).1), Nat.add_zero]
      exact ⟨hnever, hnever.2⟩
    · exact fun hn => h.never.mpr hn.1
  · obtain ⟨hlast, hlen⟩ := h.count hp
    have hlines : storeLines (ops ++ [.logStore addr]) = storeLines ops ++ [addr >>> cacheLineShift] := by
      rw [storeLines_snoc]
      rfl
    rw [hlines, lineChanges_snoc, if_pos (hhit.trans hlast), List.getLastD_concat]
    exact ⟨hhit.symm, hlen⟩

/-- The state after a store that was recorded: `s'` is the state before the store itself. -/
theorem of_recorded {s' : State} (hne : addr >>> cacheLineShift ≠ 0)
    (hrec : s'.recentCl = addr >>> cacheLineShift)
    (hlog : ∃ log, s'.currLog = some log ∧ addr >>> cacheLineShift ∈ log.toList)
    (hgood : WrittenBackAtPublish s'.trace ↔ s'.produced = 0)
    (hnever : s'.produced = 0 ↔ NeverPublishes b.logSize (ops ++ [.logStore addr]))
    (hcount : s'.produced = 0 → s'.currLog.elim 0 (·.size) =
      lineChanges 0 (storeLines ops ++ [addr >>> cacheLineShift])) :
    LazyInv b (ops ++ [.logStore addr]) (s'.emit (.store (addr >>> cacheLineShift))) where
  good := hgood
  idle hz := absurd (hrec.symm.trans hz) hne
  recent _ := by
    simp only [State.emit, hrec]
    exact ⟨by simp [ThreadBuild.pending], by simp [storedInEpoch], hlog⟩
  never := hnever
  count hp := by
    have hlines : storeLines (ops ++ [.logStore addr]) = storeLines ops ++ [addr >>> cacheLineShift] := by
      rw [storeLines_snoc]
      rfl
    rw [hlines, List.getLastD_concat]
    exact ⟨hrec, hcount hp⟩

/-- A log that overflows holds the line before the one in progress, which is not written back. -/
theorem miss (hb : Direct b) (hlazy : b.eagerWriteback = false) (h : LazyInv b ops s)
    (hne : addr >>> cacheLineShift ≠ 0) (hmiss : addr >>> cacheLineShift ≠ s.recentCl) :
    LazyInv b (ops ++ [.logStore addr]) (racStore b env addr s) := by
  obtain ⟨s', hwrote, heq⟩ := racStore_miss env hb hmiss
  have hchange : s.produced = 0 → lineChanges 0 (storeLines ops ++ [addr >>> cacheLineShift]) =
      s.currLog.elim 0 (·.size) + 1 := fun hp => by
    obtain ⟨hlast, hlen⟩ := h.count hp
    rw [lineChanges_snoc, if_neg (hlast ▸ hmiss), hlen]
  have hnever : NeverPublishes b.logSize (ops ++ [.logStore addr]) ↔
      s.produced = 0 ∧ s.currLog.elim 0 (·.size) + 1 ≤ b.logSize := by
    rw [neverPublishes_snoc_store, ← h.never]
    constructor
    · exact fun hn => ⟨hn.1, hchange hn.1 ▸ hn.2⟩
    · exact fun hn => ⟨hn.1, (hchange hn.1).symm ▸ hn.2⟩
  rw [heq]
  simp only [earlyWriteback, hlazy] at hwrote
  cases hwrote with
  | @append log hlog hfull =>
      have hlog' : s.currLog = some log := hlog
      have hlen : log.size ≠ b.logSize := by simpa [Log.isFull] using hfull
      refine of_recorded hne rfl ⟨_, rfl, by simp⟩ h.good ?_ fun hp => ?_
      · rw [hnever, hlog']
        refine ⟨fun hp => ⟨hp, ?_⟩, fun hn => hn.1⟩
        have hle := (h.never.mp hp).2
        rw [← (h.count hp).2, hlog'] at hle
        exact Nat.lt_of_le_of_ne hle hlen
      · rw [hchange hp, hlog']
        simp
  | first hlog =>
      have hlog' : s.currLog = none := hlog
      refine of_recorded hne rfl ⟨_, rfl, by simp⟩ h.good ?_ fun hp => ?_
      · rw [hnever, hlog']
        exact ⟨fun hp => ⟨hp, hb.logSize⟩, fun hn => hn.1⟩
      · rw [hchange hp, hlog']
        rfl
  | @full log hlog hfull =>
      have hlog' : s.currLog = some log := hlog
      have hlen : log.size = b.logSize := by simpa [Log.isFull] using hfull
      have hrec : s.recentCl ≠ 0 := fun hz => by
        rw [h.idle hz] at hlog'
        cases hlog'
      obtain ⟨hpend, hstored, log', hlog'', hmem⟩ := h.recent hrec
      obtain rfl : log = log' := Option.some.inj (hlog'.symm.trans hlog'')
      refine of_recorded hne rfl ⟨_, rfl, by simp⟩ ?_ ?_ fun hp => absurd hp (Nat.succ_ne_zero _)
      · refine ⟨fun hgood => ?_, fun hp => absurd hp (Nat.succ_ne_zero _)⟩
        -- the published log has the line of `recent_cl`, whose store is still in the cache
        have hbad := hgood.2 s.recentCl (by simpa [storedInEpoch] using hstored)
          (.inr ⟨.inl hmem, by simpa [inProgress] using hmiss⟩)
        simp [ThreadBuild.pending, hmiss, hpend] at hbad
      · rw [hnever, hlog']
        refine ⟨fun hp => absurd hp (Nat.succ_ne_zero _), fun hn => ?_⟩
        have hover : log.size + 1 ≤ b.logSize := hn.2
        omega

theorem threadRelease (hb : Direct b) (hlazy : b.eagerWriteback = false) (h : LazyInv b ops s)
    (hlines : ∀ line ∈ storeLines ops, line ≠ 0) :
    LazyInv b (ops ++ [.threadRelease]) (threadRelease b env s).2 := by
  have hsame : storeLines (ops ++ [.threadRelease]) = storeLines ops := by
    rw [storeLines_snoc]
    exact List.append_nil _
  by_cases hzero : s.recentCl = 0
  · -- nothing was stored since the last release
    rw [ThreadBuild.threadRelease, if_pos hzero]
    refine ⟨h.good, h.idle, h.recent, ?_, by rw [hsame]; exact h.count⟩
    rw [neverPublishes_snoc_release, h.never]
    refine ⟨fun hn => ⟨hn, ?_⟩, fun hn => hn.1⟩
    by_contra hne
    have hlast : (storeLines ops).getLastD 0 ∈ storeLines ops := by
      rw [List.getLastD_eq_getLast?, List.getLast?_eq_some_getLast hne]
      exact List.getLast_mem hne
    exact hlines _ hlast ((h.count (h.never.mpr hn)).1.symm.trans hzero)
  · obtain ⟨log, -, heq⟩ := threadRelease_eq env hb hzero
    obtain ⟨hpend, hstored, -⟩ := h.recent hzero
    rw [heq, hlazy]
    refine ⟨⟨fun hgood => ?_, fun hp => absurd hp (Nat.succ_ne_zero _)⟩, fun _ => rfl,
      fun hne => absurd rfl hne, ⟨fun hp => absurd hp (Nat.succ_ne_zero _), fun hn => ?_⟩,
      fun hp => absurd hp (Nat.succ_ne_zero _)⟩
    · have hbad := hgood.2 s.recentCl hstored (.inl rfl)
      rw [show ThreadBuild.pending s.recentCl s.trace = false from hbad] at hpend
      cases hpend
    · obtain ⟨hn, hnil⟩ := neverPublishes_snoc_release.mp hn
      have hlast := (h.count (h.never.mpr hn)).1
      rw [hnil] at hlast
      exact absurd hlast hzero

end LazyInv

/-! ## When lines are written back in time -/

theorem line_ne_zero {addr : ℕ} (h : (Op.logStore addr).Valid) : addr >>> cacheLineShift ≠ 0 :=
  virtualLine_ne_zero (Nat.zero_le 41) h.1

theorem storeLines_ne_zero {ops : List Op} (hvalid : ∀ op ∈ ops, op.Valid) :
    ∀ line ∈ storeLines ops, line ≠ 0 := by
  intro line hline
  obtain ⟨op, hop, hsome⟩ := List.mem_filterMap.mp hline
  cases op with
  | logStore addr =>
      obtain rfl := Option.some.inj hsome
      exact line_ne_zero (hvalid _ hop)
  | logRangeStore begin end_ => cases hsome
  | threadRelease => cases hsome

/-- One induction over the calls for both builds. -/
theorem direct_run (hb : Direct b) (env : Env) (fuel : ℕ) {ops : List Op}
    (hvalid : ∀ op ∈ ops, op.Valid ∧ Op.NoRange op) :
    ∃ s, run b env fuel ops = some s ∧
      if b.eagerWriteback then EagerInv s else LazyInv b ops s := by
  induction ops using List.reverseRecOn with
  | nil =>
      refine ⟨fresh, rfl, ?_⟩
      split
      · exact ⟨trivial, fun line hp => by cases hp⟩
      · exact lazyInv_fresh
  | append_singleton ops op ih =>
      obtain ⟨s, hrun, hinv⟩ := ih fun o ho => hvalid o (by simp [ho])
      obtain ⟨hv, hno⟩ := hvalid op (by simp)
      rw [run_snoc, hrun]
      cases op with
      | logStore addr =>
          have hne := line_ne_zero hv
          refine ⟨_, rfl, ?_⟩
          split at hinv
          · rename_i heager
            rw [if_pos heager]
            exact EagerInv.racStore hb heager hinv hne
          · rename_i hlazy
            rw [if_neg hlazy]
            by_cases hhit : addr >>> cacheLineShift = s.recentCl
            · exact hinv.hit hb hne hhit
            · exact hinv.miss hb (by simpa using hlazy) hne hhit
      | logRangeStore begin end_ => exact absurd hno id
      | threadRelease =>
          refine ⟨_, rfl, ?_⟩
          split at hinv
          · rename_i heager
            rw [if_pos heager]
            exact EagerInv.threadRelease hb heager hinv
          · rename_i hlazy
            rw [if_neg hlazy]
            exact hinv.threadRelease hb (by simpa using hlazy)
              (storeLines_ne_zero fun o ho => (hvalid o (by simp [ho])).1)

/-- In the build without the local table, for every sequence of stores and releases: the lines are
written back in time at every publication if and only if `EAGER_WRITEBACK` is on or the calls publish
nothing. -/
theorem direct_written_back_iff (b : Build) (env : Env) (fuel : ℕ) (ops : List Op) (hb : Direct b)
    (hvalid : ∀ op ∈ ops, op.Valid ∧ Op.NoRange op) :
    ∃ s, run b env fuel ops = some s ∧
      (WrittenBackAtPublish s.trace ↔ b.eagerWriteback = true ∨ NeverPublishes b.logSize ops) := by
  obtain ⟨s, hrun, hinv⟩ := direct_run hb env fuel hvalid
  refine ⟨s, hrun, ?_⟩
  split at hinv
  · rename_i heager
    exact ⟨fun _ => .inl heager, fun _ => hinv.good⟩
  · rename_i hlazy
    rw [hinv.good, hinv.never]
    exact ⟨.inr, fun h => h.resolve_left hlazy⟩

/-- The build without the local table, with the shipped log size. -/
def directBuild (eager : Bool) : Build := ⟨false, eager, false, true, 0, 64⟩

theorem direct_directBuild (eager : Bool) : Direct (directBuild eager) :=
  ⟨rfl, rfl, rfl, Nat.zero_lt_succ 63⟩

/-- A store and a release. -/
def storeRelease : List Op := [.logStore cxlNhcStart, .threadRelease]

theorem storeRelease_valid : ∀ op ∈ storeRelease, op.Valid ∧ Op.NoRange op := by
  intro op hop
  rcases List.mem_pair.mp hop with rfl | rfl
  · exact ⟨⟨le_rfl, by decide⟩, trivial⟩
  · exact ⟨trivial, trivial⟩

/-- With eager write-back the line of the store is written back before the release publishes it. -/
theorem direct_written_back_eager :
    ∃ s, run (directBuild true) Env.alone 0 storeRelease = some s ∧ s.produced = 1 ∧
      WrittenBackAtPublish s.trace := by
  obtain ⟨s, hrun, hiff⟩ := direct_written_back_iff (directBuild true) Env.alone 0 storeRelease
    (direct_directBuild true) storeRelease_valid
  refine ⟨s, hrun, ?_, hiff.mpr (.inl rfl)⟩
  have hprod : (run (directBuild true) Env.alone 0 storeRelease).map (·.produced) = some 1 := by
    decide +kernel
  simpa [hrun] using hprod

/-- Without it, the release publishes a line whose store has not been written back. -/
theorem direct_not_written_back :
    ¬ ∀ (b : Build) (env : Env) (fuel : ℕ) (ops : List Op) (s : State), Direct b →
      (∀ op ∈ ops, op.Valid ∧ Op.NoRange op) → run b env fuel ops = some s →
      WrittenBackAtPublish s.trace := by
  intro h
  have hgood := h (directBuild false) Env.alone 0 storeRelease _ (direct_directBuild false)
    storeRelease_valid rfl
  have hbad := hgood.2 (cxlNhcStart >>> cacheLineShift) (by decide +kernel) (.inl rfl)
  revert hbad
  decide +kernel

end ThreadBuild

end RACoherence
