import RACoherence.ThreadBuild.Direct

/-!
# Publishing a null log

Reference: `include/threadOps.hpp` with `LOCAL_CL_TABLE=0`, and `include/cacheInfo.hpp` (`process_log`).

`thread_release` publishes `curr_log` when `recent_cl` is not zero. `log_store` sets both of them.
`log_range_store` sets `recent_cl` in any case, but logs only the lines before that of `end`: none, where
the range ends in the line it begins in. When no other call has logged a line since the last release,
`curr_log` is null then, the release publishes the null pointer, and a consumer dereferences it.
-/

namespace RACoherence

open ThreadOps

/-- `set_to_new_log` goes on until it has a log, so the logs it returns are not null. -/
def Env.LogsExist (env : Env) : Prop := ∀ n, env.log n ≠ 0

/-- Logs at the addresses from 1 on. -/
def Env.fromOne : Env := { Env.alone with log := fun n => n + 1 }

namespace ThreadBuild

/-- The addresses of the call are in the region that is not hardware coherent. A range may be empty. -/
def Op.InNhc : Op → Prop
  | .logStore addr => cxlNhcStart ≤ addr
  | .logRangeStore begin end_ => cxlNhcStart ≤ begin ∧ begin ≤ end_
  | .threadRelease => True

/-- `process_log` without the local table: the addresses it invalidates, or `none` if it dereferences a null
pointer. -/
def processLog (sh ptr : ℕ) (entries : List ℕ) : Option (List ℕ) :=
  if ptr = 0 then none else some (entries.map fun entry => entry <<< virtualClShift sh)

/-- A consumer that processes the published logs one after the other. -/
def processLogs (sh : ℕ) : List Event → Option (List ℕ)
  | [] => some []
  | .produce ptr _ entries _ :: trace => do
      let before ← processLogs sh trace
      let last ← processLog sh ptr entries
      some (before ++ last)
  | _ :: trace => processLogs sh trace

/-- The event does not publish a null pointer. -/
def Event.NonNull : Event → Prop
  | .produce ptr _ _ _ => ptr ≠ 0
  | _ => True

/-- `thread_release` finds a log where it would publish one; so far only logs have been published, and a
consumer can process them. -/
structure Publishable (sh : ℕ) (s : State) : Prop where
  current : s.recentCl ≠ 0 → s.currLog ≠ none
  produced : ∀ e ∈ s.trace, e.NonNull
  processed : processLogs sh s.trace ≠ none

/-- The calls return, and after each of them what there is to publish is a log. -/
def NeverNull (b : Build) (env : Env) (fuel : ℕ) (ops : List Op) : Prop :=
  ∀ pre, pre <+: ops → ∃ s, run b env fuel pre = some s ∧ Publishable b.sh s

/-- The calls (latest first) have logged a line since the last release. -/
def LogOpen (sh : ℕ) : List Op → Prop
  | .logStore _ :: _ => True
  | .logRangeStore begin end_ :: ops =>
      begin >>> virtualClShift sh < end_ >>> virtualClShift sh ∨ LogOpen sh ops
  | _ => False

/-- A range that ends in the line it begins in comes only when a line has been logged since the last
release. -/
def ShortRangesFollow (sh : ℕ) (ops : List Op) : Prop :=
  ∀ pre begin end_, pre ++ [.logRangeStore begin end_] <+: ops →
    begin >>> virtualClShift sh = end_ >>> virtualClShift sh → LogOpen sh pre.reverse

theorem shortRangesFollow_nil (sh : ℕ) : ShortRangesFollow sh [] := by
  intro pre begin end_ hpre
  simp at hpre

theorem shortRangesFollow_snoc {sh : ℕ} {ops : List Op} {op : Op} :
    ShortRangesFollow sh (ops ++ [op]) ↔ ShortRangesFollow sh ops ∧
      ∀ begin end_, op = .logRangeStore begin end_ →
        begin >>> virtualClShift sh = end_ >>> virtualClShift sh → LogOpen sh ops.reverse := by
  constructor
  · intro h
    refine ⟨fun pre begin end_ hpre => h pre begin end_ (hpre.trans (List.prefix_append _ _)), ?_⟩
    rintro begin end_ rfl
    exact h ops begin end_ List.prefix_rfl
  · rintro ⟨hold, hnew⟩ pre begin end_ hpre
    rcases List.prefix_concat_iff.mp hpre with heq | hpre
    · obtain ⟨rfl, hop⟩ := List.append_inj' heq rfl
      exact hnew begin end_ (List.singleton_inj.mp hop).symm
    · exact hold pre begin end_ hpre

/-! ## What the calls do to the log -/

/-- The current log is not null, and no null pointer has been published. -/
structure NoNull (s : State) : Prop where
  ptr : ∀ log, s.currLog = some log → log.ptr ≠ 0
  trace : ∀ e ∈ s.trace, e.NonNull

variable {b : Build} {env : Env} {s : State}

theorem processLogs_ne_none {sh : ℕ} {trace : List Event} (h : ∀ e ∈ trace, e.NonNull) :
    processLogs sh trace ≠ none := by
  induction trace with
  | nil => simp [processLogs]
  | cons e trace ih =>
      obtain ⟨he, htrace⟩ := List.forall_mem_cons.mp h
      cases e with
      | produce ptr idx entries isRel =>
          obtain ⟨before, hbefore⟩ := Option.ne_none_iff_exists'.mp (ih htrace)
          have hptr : ptr ≠ 0 := he
          simp [processLogs, processLog, hbefore, hptr]
      | _ => exact ih htrace

theorem nonNull_clWritebacks (b : Build) (cl : ℕ) : ∀ e ∈ clWritebacks b cl, e.NonNull := by
  simp [clWritebacks, Event.NonNull]

/-- Whatever has been logged before, there is a log after `write_cl_to_log`. -/
theorem writeClToLog_spec (b : Build) (env : Env) (cl : ℕ) (s : State) :
    (writeClToLog b env cl s).currLog ≠ none ∧ (writeClToLog b env cl s).recentCl = s.recentCl := by
  unfold writeClToLog
  cases s.currLog <;> dsimp only <;> split <;> exact ⟨by simp, rfl⟩

namespace NoNull

theorem emit (h : NoNull s) {e : Event} (he : e.NonNull) : NoNull (s.emit e) :=
  ⟨h.ptr, List.forall_mem_cons.mpr ⟨he, h.trace⟩⟩

theorem emits (h : NoNull s) {es : List Event} (hes : ∀ e ∈ es, e.NonNull) : NoNull (s.emits es) where
  ptr := h.ptr
  trace e he := by
    rcases List.mem_append.mp he with he | he
    · exact hes e (List.mem_reverse.mp he)
    · exact h.trace e he

theorem logStoreCall (h : NoNull s) (line : ℕ) : NoNull (s.emit (.logStore line)) := h.emit trivial

theorem setRecentCl (h : NoNull s) (cl : ℕ) : NoNull { s with recentCl := cl } := ⟨h.ptr, h.trace⟩

theorem setToNewLog (h : NoNull s) (env : Env) : NoNull (s.setToNewLog env).2 :=
  ⟨h.ptr, List.forall_mem_cons.mpr ⟨trivial, h.trace⟩⟩

theorem produceTail (h : NoNull s) (env : Env) {log : CurrLog} (hlog : log.ptr ≠ 0) (isRel : Bool) :
    NoNull (s.produceTail env log isRel).2 :=
  ⟨h.ptr, List.forall_mem_cons.mpr ⟨hlog, h.trace⟩⟩

theorem write (h : NoNull s) {log : CurrLog} (hlog : log.ptr ≠ 0) (entry : ℕ) :
    NoNull { (log.write entry s).2 with currLog := some (log.write entry s).1 } where
  ptr _ heq := Option.some.inj heq ▸ hlog
  trace := List.forall_mem_cons.mpr ⟨trivial, h.trace⟩

/-- The log that is published because it is full is the current one, or a new one. -/
theorem writeClToLog (henv : env.LogsExist) (h : NoNull s) (cl : ℕ) : NoNull (writeClToLog b env cl s) := by
  unfold ThreadBuild.writeClToLog
  cases hlog : s.currLog with
  | none =>
      dsimp only
      split
      · exact (((h.setToNewLog env).produceTail env (henv _) false).setToNewLog env).write (henv _) cl
      · exact (h.setToNewLog env).write (henv _) cl
  | some log =>
      have hptr := h.ptr log hlog
      dsimp only
      split
      · exact ((h.produceTail env hptr false).setToNewLog env).write (henv _) cl
      · exact h.write hptr cl

end NoNull

/-- The loop of `log_range_store`, over the lines before that of `end`. -/
theorem writeLines_spec (b : Build) (env : Env) (lines : List ℕ) (s : State) :
    let s' := lines.foldl (fun s cl => writeClToLog b env cl s) s
    s'.recentCl = s.recentCl ∧ (lines ≠ [] → s'.currLog ≠ none) ∧
      (env.LogsExist → NoNull s → NoNull s') := by
  induction lines using List.reverseRecOn with
  | nil => exact ⟨rfl, fun h => absurd rfl h, fun _ h => h⟩
  | append_singleton lines cl ih =>
      obtain ⟨hrec, -, hsound⟩ := ih
      obtain ⟨hlog, hrec'⟩ := writeClToLog_spec b env cl
        (lines.foldl (fun s cl => writeClToLog b env cl s) s)
      rw [List.foldl_concat]
      exact ⟨hrec'.trans hrec, fun _ => hlog, fun henv h => (hsound henv h).writeClToLog henv cl⟩

/-- `log_store` of a line that it does not find in `recent_cl`. -/
theorem logStore_miss (htable : b.localClTable = false) (env : Env) {addr : ℕ}
    (hmiss : ¬ (b.inlineCaching = true ∧ addr >>> virtualClShift b.sh = s.recentCl)) :
    ∃ s₁ : State, s₁.recentCl = addr >>> virtualClShift b.sh ∧ (NoNull s → NoNull s₁) ∧
      logStore b env addr s = writeClToLog b env (addr >>> virtualClShift b.sh) s₁ := by
  have hmiss' : ¬ (b.inlineCaching = true ∧
      addr >>> virtualClShift b.sh = (s.emit (.logStore (addr >>> cacheLineShift))).recentCl) := hmiss
  rw [logStore, if_neg hmiss', htable]
  cases b.eagerWriteback with
  | false =>
      refine ⟨({ s.emit (.logStore _) with recentCl := _ } : State).emit (.writeback _), rfl,
        fun h => ?_, rfl⟩
      exact ((h.logStoreCall _).setRecentCl _).emit trivial
  | true =>
      by_cases hzero : s.recentCl = 0
      · refine ⟨_, rfl, fun h => (h.logStoreCall (addr >>> cacheLineShift)).setRecentCl _, ?_⟩
        simp [State.emit, hzero]
      · have hquiet := nonNull_clWritebacks b s.recentCl
        refine ⟨_, rfl, fun h =>
          ((h.logStoreCall (addr >>> cacheLineShift)).emits hquiet).setRecentCl _, ?_⟩
        simp [State.emit, hzero]

/-- A store finds its line in `recent_cl`, or there is a log after it. -/
theorem racStore_spec (htable : b.localClTable = false) (env : Env) (addr : ℕ) (s : State) :
    (racStore b env addr s).recentCl = addr >>> virtualClShift b.sh ∧
      ((addr >>> virtualClShift b.sh = s.recentCl ∧ (racStore b env addr s).currLog = s.currLog) ∨
        (racStore b env addr s).currLog ≠ none) ∧
      (env.LogsExist → NoNull s → NoNull (racStore b env addr s)) := by
  rw [racStore]
  by_cases hhit : b.inlineCaching = true ∧ addr >>> virtualClShift b.sh = s.recentCl
  · have heq : logStore b env addr s = s.emit (.logStore (addr >>> cacheLineShift)) := if_pos hhit
    rw [heq]
    exact ⟨hhit.2.symm, .inl ⟨hhit.2, rfl⟩, fun _ h => (h.logStoreCall _).emit trivial⟩
  · obtain ⟨s₁, hrec₁, hsound₁, heq⟩ := logStore_miss htable env hhit
    obtain ⟨hlog, hrec⟩ := writeClToLog_spec b env (addr >>> virtualClShift b.sh) s₁
    rw [heq]
    exact ⟨hrec.trans hrec₁, .inr hlog, fun henv h => ((hsound₁ h).writeClToLog henv _).emit trivial⟩

/-- A write to a range returns. There is a log after it if its lines go beyond the first one. -/
theorem racRangeStore_spec (htable : b.localClTable = false) (env : Env) (fuel begin end_ : ℕ)
    (s : State) :
    ∃ s', racRangeStore b env fuel begin end_ s = some s' ∧
      s'.recentCl = end_ >>> virtualClShift b.sh ∧
      (begin >>> virtualClShift b.sh < end_ >>> virtualClShift b.sh → s'.currLog ≠ none) ∧
      (begin >>> virtualClShift b.sh = end_ >>> virtualClShift b.sh → s'.currLog = s.currLog) ∧
      (env.LogsExist → NoNull s → NoNull s') := by
  obtain ⟨s₁, heq, hlog₁, hsound₁⟩ : ∃ s₁ : State,
      racRangeStore b env fuel begin end_ s = logRangeStore b env fuel begin end_ s₁ ∧
      s₁.currLog = s.currLog ∧ (NoNull s → NoNull s₁) := by
    have hstores : NoNull s → NoNull (s.emits ((rangeLines begin end_).map .store)) := fun h =>
      h.emits (by simp [Event.NonNull])
    rw [racRangeStore]
    split
    · exact ⟨_, rfl, (State.currLog_emits _ _).trans (State.currLog_emits s _),
        fun h => (hstores h).emits (by simp [Event.NonNull])⟩
    · exact ⟨_, rfl, State.currLog_emits s _, hstores⟩
  rw [heq, logRangeStore, htable]
  obtain ⟨hrec, hlog, hsound⟩ := writeLines_spec b env
    (List.range' (begin >>> virtualClShift b.sh)
      (end_ >>> virtualClShift b.sh - begin >>> virtualClShift b.sh))
    { s₁ with recentCl := end_ >>> virtualClShift b.sh }
  refine ⟨_, rfl, hrec, fun hlt => hlog ?_, fun hline => ?_, fun henv h =>
    hsound henv ((hsound₁ h).setRecentCl _)⟩
  · rw [Ne, List.range'_eq_nil_iff]
    omega
  · rw [hline, Nat.sub_self]
    exact hlog₁

/-- A release that publishes leaves no log behind. -/
theorem threadRelease_spec (htable : b.localClTable = false) (env : Env) (h : s.recentCl ≠ 0) :
    (threadRelease b env s).2.recentCl = 0 ∧ (threadRelease b env s).2.currLog = none ∧
      (s.currLog ≠ none → NoNull s → NoNull (threadRelease b env s).2) := by
  rw [threadRelease, if_neg h, htable]
  refine ⟨rfl, rfl, fun hlog hs => ?_⟩
  obtain ⟨log, hlog⟩ := Option.ne_none_iff_exists'.mp hlog
  have hptr : (s.currLog.getD (.new 0)).ptr ≠ 0 := by
    rw [hlog]
    exact hs.ptr log hlog
  refine ⟨fun _ hnone => (Option.some_ne_none _ hnone.symm).elim, ?_⟩
  cases b.eagerWriteback with
  | false => exact List.forall_mem_cons.mpr ⟨hptr, hs.trace⟩
  | true =>
      have hquiet := nonNull_clWritebacks b s.recentCl
      exact List.forall_mem_cons.mpr ⟨hptr, (hs.emits hquiet).trace⟩

/-! ## Sequences of calls -/

/-- Whether there is a current log shows in the calls: only if a line has been logged since the last
release, and, as long as short ranges only follow, exactly if so. -/
structure LogInv (sh : ℕ) (ops : List Op) (s : State) : Prop where
  idle : s.recentCl = 0 → s.currLog = none
  opened : s.currLog ≠ none → LogOpen sh ops.reverse
  logged : ShortRangesFollow sh ops → LogOpen sh ops.reverse → s.currLog ≠ none
  recent : ShortRangesFollow sh ops → s.recentCl ≠ 0 → s.currLog ≠ none
  sound : ShortRangesFollow sh ops → NoNull s

theorem logInv_fresh (sh : ℕ) : LogInv sh [] fresh where
  idle _ := rfl
  opened h := absurd rfl h
  logged _ h := absurd h id
  recent _ h := absurd rfl h
  sound _ := ⟨by simp [fresh], by simp [fresh]⟩

namespace LogInv

variable {ops : List Op}

theorem racStore (htable : b.localClTable = false) (henv : env.LogsExist) (h : LogInv b.sh ops s)
    {addr : ℕ} (hne : addr >>> virtualClShift b.sh ≠ 0) :
    LogInv b.sh (ops ++ [.logStore addr]) (racStore b env addr s) := by
  obtain ⟨hrec, hlog, hsound⟩ := racStore_spec htable env addr s
  have hfollow : ShortRangesFollow b.sh (ops ++ [.logStore addr]) → ShortRangesFollow b.sh ops :=
    fun hf => (shortRangesFollow_snoc.mp hf).1
  -- a line that is in `recent_cl` has been logged
  have hsome : ShortRangesFollow b.sh ops → (ThreadBuild.racStore b env addr s).currLog ≠ none := by
    intro hf
    rcases hlog with ⟨hhit, heq⟩ | hlog
    · rw [heq]
      exact h.recent hf (hhit ▸ hne)
    · exact hlog
  refine ⟨fun hz => absurd (hrec.symm.trans hz) hne, fun _ => ?_, fun hf _ => hsome (hfollow hf),
    fun hf _ => hsome (hfollow hf), fun hf => hsound henv (h.sound (hfollow hf))⟩
  rw [List.reverse_append]
  trivial

theorem racRangeStore (henv : env.LogsExist) (h : LogInv b.sh ops s)
    {begin end_ : ℕ} (hle : begin ≤ end_) (hne : end_ >>> virtualClShift b.sh ≠ 0) {s' : State}
    (hrec : s'.recentCl = end_ >>> virtualClShift b.sh)
    (hlong : begin >>> virtualClShift b.sh < end_ >>> virtualClShift b.sh → s'.currLog ≠ none)
    (hshort : begin >>> virtualClShift b.sh = end_ >>> virtualClShift b.sh → s'.currLog = s.currLog)
    (hsound : env.LogsExist → NoNull s → NoNull s') :
    LogInv b.sh (ops ++ [.logRangeStore begin end_]) s' := by
  have hlines : begin >>> virtualClShift b.sh ≤ end_ >>> virtualClShift b.sh := by
    rw [Nat.shiftRight_eq_div_pow, Nat.shiftRight_eq_div_pow]
    exact Nat.div_le_div_right hle
  have hsome : ShortRangesFollow b.sh (ops ++ [.logRangeStore begin end_]) → s'.currLog ≠ none := by
    intro hf
    obtain ⟨hold, hnew⟩ := shortRangesFollow_snoc.mp hf
    rcases hlines.lt_or_eq with hlt | heq
    · exact hlong hlt
    · rw [hshort heq]
      exact h.logged hold (hnew begin end_ rfl heq)
  refine ⟨fun hz => absurd (hrec.symm.trans hz) hne, fun hlog => ?_, fun hf _ => hsome hf,
    fun hf _ => hsome hf, fun hf => hsound henv (h.sound (shortRangesFollow_snoc.mp hf).1)⟩
  rw [List.reverse_append]
  rcases hlines.lt_or_eq with hlt | heq
  · exact .inl hlt
  · rw [hshort heq] at hlog
    exact .inr (h.opened hlog)

theorem threadRelease (htable : b.localClTable = false) (env : Env) (h : LogInv b.sh ops s) :
    LogInv b.sh (ops ++ [.threadRelease]) (threadRelease b env s).2 := by
  have hclosed : ¬ LogOpen b.sh (ops ++ [Op.threadRelease]).reverse := by
    rw [List.reverse_append]
    exact id
  have hfollow : ShortRangesFollow b.sh (ops ++ [.threadRelease]) → ShortRangesFollow b.sh ops :=
    fun hf => (shortRangesFollow_snoc.mp hf).1
  by_cases hzero : s.recentCl = 0
  · -- there is nothing to release, and no log
    have hnone := h.idle hzero
    rw [ThreadBuild.threadRelease, if_pos hzero]
    exact ⟨h.idle, fun hlog => absurd hnone hlog, fun _ hopen => absurd hopen hclosed,
      fun hf => h.recent (hfollow hf), fun hf => h.sound (hfollow hf)⟩
  · obtain ⟨hrec, hlog, hsound⟩ := threadRelease_spec htable env hzero
    exact ⟨fun _ => hlog, fun hsome => absurd hlog hsome, fun _ hopen => absurd hopen hclosed,
      fun _ hne => absurd hrec hne,
      fun hf => hsound (h.recent (hfollow hf) hzero) (h.sound (hfollow hf))⟩

end LogInv

/-- Every sequence of calls returns. -/
theorem logInv_run (htable : b.localClTable = false) (hsh : b.sh ≤ 41) (henv : env.LogsExist) (fuel : ℕ)
    {ops : List Op} (hvalid : ∀ op ∈ ops, Op.InNhc op) :
    ∃ s, run b env fuel ops = some s ∧ LogInv b.sh ops s := by
  induction ops using List.reverseRecOn with
  | nil => exact ⟨fresh, rfl, logInv_fresh b.sh⟩
  | append_singleton ops op ih =>
      obtain ⟨s, hrun, hinv⟩ := ih fun o ho => hvalid o (by simp [ho])
      have hv := hvalid op (by simp)
      rw [run_snoc, hrun]
      cases op with
      | logStore addr => exact ⟨_, rfl, hinv.racStore htable henv (virtualLine_ne_zero hsh hv)⟩
      | logRangeStore begin end_ =>
          obtain ⟨s', hs, hrec, hlong, hshort, hsound⟩ :=
            racRangeStore_spec htable env fuel begin end_ s
          exact ⟨s', hs, hinv.racRangeStore henv hv.2 (virtualLine_ne_zero hsh (hv.1.trans hv.2)) hrec
            hlong hshort hsound⟩
      | threadRelease => exact ⟨_, rfl, hinv.threadRelease htable env⟩

/-- In the build without the local table, for every sequence of calls: they return, `recent_cl` is not zero
only while there is a current log, and no null log is published or processed, if and only if every range that
ends in the line it begins in comes when a line has been logged since the last release. -/
theorem never_null_iff (b : Build) (env : Env) (fuel : ℕ) (ops : List Op)
    (htable : b.localClTable = false) (hsh : b.sh ≤ 41) (henv : env.LogsExist)
    (hvalid : ∀ op ∈ ops, Op.InNhc op) : NeverNull b env fuel ops ↔ ShortRangesFollow b.sh ops := by
  constructor
  · intro h pre begin end_ hpre hline
    -- without a line logged before it, the call leaves no log but a line in `recent_cl`
    by_contra hclosed
    have hv : ∀ op ∈ pre ++ [Op.logRangeStore begin end_], Op.InNhc op := fun op hop =>
      hvalid op (hpre.subset hop)
    obtain ⟨s, hrun, hinv⟩ := logInv_run htable hsh henv fuel fun op hop =>
      hv op (List.mem_append_left _ hop)
    obtain ⟨s', hs, hrec, -, hshort, -⟩ := racRangeStore_spec htable env fuel begin end_ s
    have hrange := hv (.logRangeStore begin end_) (by simp)
    obtain ⟨s'', hrun', hpub⟩ := h _ hpre
    rw [run_snoc, hrun] at hrun'
    obtain rfl : s' = s'' := Option.some.inj (hs.symm.trans hrun')
    refine hpub.current ?_ ?_
    · rw [hrec]
      exact virtualLine_ne_zero hsh (hrange.1.trans hrange.2)
    · rw [hshort hline]
      by_contra hlog
      exact hclosed (hinv.opened hlog)
  · intro h pre hpre
    obtain ⟨s, hrun, hinv⟩ := logInv_run htable hsh henv fuel fun op hop =>
      hvalid op (hpre.subset hop)
    have hf : ShortRangesFollow b.sh pre := fun p begin end_ hp => h p begin end_ (hp.trans hpre)
    have htrace := (hinv.sound hf).trace
    exact ⟨s, hrun, hinv.recent hf, htrace, processLogs_ne_none htrace⟩

/-- A store, a range in the line of the store, and a release. -/
theorem never_null_after_store :
    NeverNull (directBuild false) Env.fromOne 0
      [.logStore cxlNhcStart, .logRangeStore cxlNhcStart (cxlNhcStart + 8), .threadRelease] := by
  refine (never_null_iff (directBuild false) Env.fromOne 0 _ rfl (by decide) (fun n => Nat.succ_ne_zero n)
    (by simp [Op.InNhc])).mpr ?_
  have hstore : ShortRangesFollow 0 ([] ++ [.logStore cxlNhcStart]) :=
    shortRangesFollow_snoc.mpr ⟨shortRangesFollow_nil 0, by simp⟩
  have hrange := shortRangesFollow_snoc.mpr ⟨hstore, fun _ _ (_ : Op.logRangeStore cxlNhcStart
    (cxlNhcStart + 8) = _) _ => trivial⟩
  exact shortRangesFollow_snoc.mpr ⟨hrange, by simp⟩

/-- Without the store: the release publishes a null pointer, and a consumer dereferences it. -/
theorem release_publishes_null :
    ¬ NeverNull (directBuild false) Env.fromOne 0
      [.logRangeStore cxlNhcStart (cxlNhcStart + 8), .threadRelease] := by
  intro h
  obtain ⟨s, hrun, hpub⟩ := h _ List.prefix_rfl
  have hnull : (run (directBuild false) Env.fromOne 0
      [.logRangeStore cxlNhcStart (cxlNhcStart + 8), .threadRelease]).bind
        (fun s => processLogs 0 s.trace) = none := by
    decide +kernel
  rw [hrun] at hnull
  exact hpub.processed hnull

end ThreadBuild

end RACoherence
