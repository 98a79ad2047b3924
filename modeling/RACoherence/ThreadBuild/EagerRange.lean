import RACoherence.ThreadBuild

/-!
# Eager write-back and range stores

Reference: `include/threadOps.hpp` with `EAGER_WRITEBACK=1`, `LOCAL_CL_TABLE=1`, `DELAY_PUBLISH=0` and
`CL_EXPAND_SHIFT=0`, `include/runtime.hpp` (`rac_post_writeback`) and `include/flushUtils.hpp`
(`do_range_writeback`).

The line of the last store is not written back until another line is stored to or the thread releases;
`recent_cl` is the only record of it. `log_range_store` overwrites `recent_cl` without a write-back, and
`do_range_writeback`, which the caller does instead, only knows the lines of the range, of which it takes
the length as an `int`.
-/

namespace RACoherence

open LocalCLTable ThreadOps

namespace ThreadBuild

/-- Whenever a release publishes, all lines stored to since the last one are written back. -/
def WrittenBackAtRelease : List Event → Prop
  | [] => True
  | .produce _ _ _ true :: trace => WrittenBackAtRelease trace ∧
      ∀ line, storedInEpoch line trace = true → pending line trace = false
  | _ :: trace => WrittenBackAtRelease trace

/-- The line in `recent_cl` after the calls, latest call first. -/
def recentLine : List Op → ℕ
  | .logStore addr :: _ => addr >>> cacheLineShift
  | .logRangeStore _ end_ :: _ => end_ >>> cacheLineShift
  | _ => 0

/-- The line was stored to by the calls (latest first) since the last release, and since its last store
it was neither in `recent_cl` when another line was stored to nor reached by the write-back of a range
that stored to it. -/
def Unflushed (line : ℕ) : List Op → Prop
  | .logStore addr :: ops =>
      addr >>> cacheLineShift = line ∨ (Unflushed line ops ∧ recentLine ops ≠ line)
  | .logRangeStore begin end_ :: ops =>
      line ∉ rangeWritebackLines begin end_ ∧ (line ∈ rangeLines begin end_ ∨ Unflushed line ops)
  | _ => False

/-- At every release, the only line that is not yet written back is the one in `recent_cl`. -/
def LeavesNone (ops : List Op) : Prop :=
  ∀ pre post, ops = pre ++ .threadRelease :: post →
    ∀ line, Unflushed line pre.reverse → line = recentLine pre.reverse

theorem leavesNone_snoc (ops : List Op) (op : Op) :
    LeavesNone (ops ++ [op]) ↔ LeavesNone ops ∧
      (op = .threadRelease → ∀ line, Unflushed line ops.reverse → line = recentLine ops.reverse) := by
  constructor
  · intro h
    refine ⟨fun pre post heq => h pre (post ++ [op]) (by simp [heq]), ?_⟩
    rintro rfl
    exact h ops [] rfl
  · rintro ⟨hold, hnew⟩ pre post heq
    rcases List.eq_nil_or_concat post with rfl | ⟨post, last, rfl⟩
    · obtain ⟨rfl, hop⟩ := List.append_inj' heq rfl
      exact hnew (by simpa using hop)
    · have hsplit : ops ++ [op] = (pre ++ .threadRelease :: post) ++ [last] := by
        simpa using heq
      exact hold pre post (List.append_inj' hsplit rfl).1

/-! ## Events that do not matter -/

/-- The event neither stores, nor writes back, nor ends an epoch. -/
def Event.Inert : Event → Prop
  | .store _ | .writeback _ | .produce _ _ _ true => False
  | _ => True

theorem inert_append {es : List Event} (trace : List Event) (h : ∀ e ∈ es, e.Inert) :
    (∀ line, pending line (es ++ trace) = pending line trace) ∧
      (∀ line, storedInEpoch line (es ++ trace) = storedInEpoch line trace) ∧
      (WrittenBackAtRelease (es ++ trace) ↔ WrittenBackAtRelease trace) := by
  induction es with
  | nil => simp
  | cons e es ih =>
      obtain ⟨hp, hs, hw⟩ := ih fun e' he' => h e' (by simp [he'])
      have hin := h e (by simp)
      cases e with
      | store line => exact absurd hin id
      | writeback line => exact absurd hin id
      | produce ptr idx entries isRel =>
          cases isRel with
          | true => exact absurd hin id
          | false => exact ⟨hp, hs, hw⟩
      | logStore line => exact ⟨hp, hs, hw⟩
      | newLog ptr => exact ⟨hp, hs, hw⟩
      | write ptr entry => exact ⟨hp, hs, hw⟩

/-- The switches of this build. -/
structure EagerTable (b : Build) : Prop where
  localClTable : b.localClTable = true
  eagerWriteback : b.eagerWriteback = true
  delayPublish : b.delayPublish = false
  sh : b.sh = 0

/-- The two states agree but for the table, what the log manager has returned, and inert events. -/
structure Quiet (s s' : State) : Prop where
  recentCl : s'.recentCl = s.recentCl
  trace : ∃ es, (∀ e ∈ es, e.Inert) ∧ s'.trace = es ++ s.trace

variable {b : Build} {env : Env} {s s' : State}

theorem Quiet.refl (s : State) : Quiet s s := ⟨rfl, [], by simp, rfl⟩

theorem Quiet.trans {s'' : State} (h : Quiet s s') (h' : Quiet s' s'') : Quiet s s'' := by
  obtain ⟨es, hes, htr⟩ := h.trace
  obtain ⟨es', hes', htr'⟩ := h'.trace
  refine ⟨h'.recentCl.trans h.recentCl, es' ++ es, fun e he => ?_, by rw [htr', htr, List.append_assoc]⟩
  rcases List.mem_append.mp he with he | he
  · exact hes' e he
  · exact hes e he

theorem Quiet.emit {e : Event} (he : e.Inert) : Quiet s (s.emit e) :=
  ⟨rfl, [e], by simpa using he, rfl⟩

/-- The loop of `write_to_log` only writes to the log. -/
theorem quiet_visit (env : Env) (hb : EagerTable b) (isRel : Bool) (entries : List ℕ) (c : Cursor) :
    Quiet c.state (entries.foldl (Cursor.visit b env isRel) c).state := by
  induction entries generalizing c with
  | nil => exact Quiet.refl _
  | cons entry entries ih =>
      rw [List.foldl_cons]
      refine Quiet.trans ?_ (ih _)
      have hfull : c.publishFull b env isRel = c := by
        simp [Cursor.publishFull, hb.delayPublish]
      simp only [Cursor.visit, hfull, hb.eagerWriteback, if_true, CurrLog.write]
      exact Quiet.emit trivial

/-- `write_to_log` publishes one log after inert events. -/
theorem writeToLog_spec (env : Env) (hb : EagerTable b) (isRel : Bool) (s : State) :
    ∃ (s₁ : State) (log : CurrLog), Quiet s s₁ ∧ (writeToLog b env isRel s).2.recentCl = s.recentCl ∧
      (writeToLog b env isRel s).2.trace =
        .produce log.ptr (env.idx s₁.produced) log.toList isRel :: s₁.trace := by
  have hfirst : firstLog b env s = s.setToNewLog env := by
    simp [firstLog, hb.delayPublish]
  have hquiet : Quiet s (s.setToNewLog env).2 := ⟨rfl, [_], by simp [Event.Inert], rfl⟩
  have hloop := quiet_visit env hb isRel s.dirtyCls.entries
    ⟨(s.setToNewLog env).1, 0, (s.setToNewLog env).2⟩
  simp only [writeToLog, hfirst, hb.delayPublish]
  generalize s.dirtyCls.entries.foldl (Cursor.visit b env isRel)
    ⟨(s.setToNewLog env).1, 0, (s.setToNewLog env).2⟩ = c at hloop ⊢
  exact ⟨c.state, c.log, hquiet.trans hloop, (hquiet.trans hloop).recentCl, rfl⟩

theorem quiet_writeToLog (hb : EagerTable b) (s : State) : Quiet s (writeToLog b env false s).2 := by
  obtain ⟨s₁, log, hquiet, hrec, htrace⟩ := writeToLog_spec env hb false s
  obtain ⟨es, hes, htr⟩ := hquiet.trace
  refine ⟨hrec, _ :: es, ?_, by rw [htrace, htr]; rfl⟩
  intro e he
  rcases List.mem_cons.mp he with rfl | he
  · trivial
  · exact hes e he

theorem quiet_insertLine (hb : EagerTable b) (cl : ℕ) (s : State) : Quiet s (insertLine b env cl s) := by
  unfold insertLine
  split
  · exact ⟨rfl, [], by simp, rfl⟩
  · rename_i t _
    have h : Quiet { s with dirtyCls := t } (writeToLog b env false { s with dirtyCls := t }).2 :=
      quiet_writeToLog hb _
    exact ⟨h.recentCl, h.trace⟩

theorem quiet_rangeLoop (hb : EagerTable b) {fuel n begin end_ : ℕ}
    (h : rangeLoop b env fuel n s begin end_ = some s') : Quiet s s' := by
  induction n generalizing s begin end_ with
  | zero => cases h
  | succ n ih =>
      simp only [rangeLoop] at h
      split at h
      · cases h
      · rename_i r _
        split at h
        · have hflush : Quiet { s with dirtyCls := r.table }
              (writeToLog b env false { s with dirtyCls := r.table }).2 := quiet_writeToLog hb _
          have hrest := ih h
          exact Quiet.trans ⟨hflush.recentCl, hflush.trace⟩ hrest
        · cases h
          exact ⟨rfl, [], by simp, rfl⟩

/-! ## The lines of a range -/

/-- The loop of `do_range_writeback` ends, and flushes no line before the range or after its end. -/
theorem rangeWriteback_returns {begin end_ : ℕ} (hv : (Op.logRangeStore begin end_).Valid) :
    ∃ flushes, FlushUtils.doRangeWriteback ((end_ - begin) / cacheLineSize + 3) begin
        (FlushUtils.intArg (end_ - begin : ℕ)) = some flushes ∧
      rangeWritebackLines begin end_ = flushes.map FlushUtils.Flush.line := by
  obtain ⟨hnhc, hle, hend⟩ := hv
  have hstart : 2 ^ 31 ≤ begin := (show 2 ^ 31 ≤ cxlNhcStart by decide).trans hnhc
  obtain ⟨flushes, hcall⟩ := FlushUtils.doRange_returns .writeback hstart
    (show begin + (end_ - begin) ≤ 2 ^ 48 by omega) le_rfl
  refine ⟨flushes, hcall, ?_⟩
  unfold rangeWritebackLines
  exact congrArg (fun o => (o.getD []).map FlushUtils.Flush.line) hcall

theorem pending_stores {line : ℕ} {lines : List ℕ} {trace : List Event} :
    pending line ((lines.map .store).reverse ++ trace) = (decide (line ∈ lines) || pending line trace) := by
  induction lines generalizing trace with
  | nil => simp
  | cons k lines ih =>
      rw [List.map_cons, List.reverse_cons, List.append_assoc, ih]
      by_cases hk : k = line
      · simp [pending, hk]
      · simp [pending, hk, Ne.symm hk]

theorem storedInEpoch_stores {line : ℕ} {lines : List ℕ} {trace : List Event} :
    storedInEpoch line ((lines.map .store).reverse ++ trace) =
      (decide (line ∈ lines) || storedInEpoch line trace) := by
  induction lines generalizing trace with
  | nil => simp
  | cons k lines ih =>
      rw [List.map_cons, List.reverse_cons, List.append_assoc, ih]
      by_cases hk : k = line
      · simp [storedInEpoch, hk]
      · simp [storedInEpoch, hk, Ne.symm hk]

theorem pending_writebacks {line : ℕ} {lines : List ℕ} {trace : List Event} :
    pending line ((lines.map .writeback).reverse ++ trace) =
      (decide (line ∉ lines) && pending line trace) := by
  induction lines generalizing trace with
  | nil => simp
  | cons k lines ih =>
      rw [List.map_cons, List.reverse_cons, List.append_assoc, ih]
      by_cases hk : k = line
      · simp [pending, hk]
      · simp [pending, hk, Ne.symm hk]

theorem storedInEpoch_writebacks {line : ℕ} {lines : List ℕ} {trace : List Event} :
    storedInEpoch line ((lines.map .writeback).reverse ++ trace) = storedInEpoch line trace := by
  induction lines generalizing trace with
  | nil => rfl
  | cons k lines ih =>
      rw [List.map_cons, List.reverse_cons, List.append_assoc, ih]
      rfl

/-- Stores and write-backs publish nothing. -/
theorem writtenBackAtRelease_map {f : ℕ → Event} (hf : f = .store ∨ f = .writeback) {lines : List ℕ}
    {trace : List Event} :
    WrittenBackAtRelease ((lines.map f).reverse ++ trace) ↔ WrittenBackAtRelease trace := by
  induction lines generalizing trace with
  | nil => rfl
  | cons k lines ih =>
      rw [List.map_cons, List.reverse_cons, List.append_assoc, ih]
      rcases hf with rfl | rfl <;> rfl

/-! ## What the calls do to the lines -/

/-- The effect of a call that publishes no release: on `recent_cl`, on the lines that are not written
back, and on those stored to in the epoch. -/
structure Effect (s s' : State) (recent : ℕ) (pend stored : ℕ → Bool) : Prop where
  recentCl : s'.recentCl = recent
  pending : ∀ line, pending line s'.trace = pend line
  stored : ∀ line, storedInEpoch line s'.trace = stored line
  good : WrittenBackAtRelease s'.trace ↔ WrittenBackAtRelease s.trace

theorem Effect.quiet {recent : ℕ} {pend stored : ℕ → Bool} {s'' : State}
    (h : Effect s s' recent pend stored) (hq : Quiet s' s'') : Effect s s'' recent pend stored := by
  obtain ⟨es, hes, htr⟩ := hq.trace
  obtain ⟨hp, hs, hw⟩ := inert_append s'.trace hes
  refine ⟨hq.recentCl.trans h.recentCl, fun line => ?_, fun line => ?_, ?_⟩
  · rw [htr, hp, h.pending]
  · rw [htr, hs, h.stored]
  · rw [htr, hw, h.good]

/-- The store itself. -/
theorem Effect.store {recent : ℕ} {pend stored : ℕ → Bool} (h : Effect s s' recent pend stored)
    (k : ℕ) : Effect s (s'.emit (.store k)) recent (fun line => decide (k = line) || pend line)
      (fun line => decide (k = line) || stored line) where
  recentCl := h.recentCl
  pending line := by simp only [State.emit, ThreadBuild.pending, h.pending]
  stored line := by simp only [State.emit, storedInEpoch, h.stored]
  good := h.good

/-- A store writes the line in `recent_cl` back unless it is to the same line. -/
theorem racStore_effect (env : Env) (hb : EagerTable b) (s : State) (addr : ℕ) :
    Effect s (racStore b env addr s) (addr >>> cacheLineShift)
      (fun line => decide (addr >>> cacheLineShift = line) ||
        (decide (s.recentCl = 0 ∨ s.recentCl ≠ line) && pending line s.trace))
      (fun line => decide (addr >>> cacheLineShift = line) || storedInEpoch line s.trace) := by
  have hcl : addr >>> virtualClShift b.sh = addr >>> cacheLineShift := by
    rw [hb.sh]
    rfl
  rw [racStore, logStore, hcl]
  split
  · rename_i hhit
    obtain ⟨-, hhit⟩ := hhit
    have heff : Effect s (s.emit (.logStore (addr >>> cacheLineShift))) (addr >>> cacheLineShift)
        (fun line => pending line s.trace) (fun line => storedInEpoch line s.trace) :=
      ⟨hhit.symm, fun _ => rfl, fun _ => rfl, Iff.rfl⟩
    refine ⟨(heff.store _).recentCl, fun line => ?_, (heff.store _).stored, (heff.store _).good⟩
    rw [(heff.store _).pending]
    -- the line in `recent_cl` is the one stored to
    by_cases hl : addr >>> cacheLineShift = line
    · simp [hl]
    · have hne : s.recentCl ≠ line := fun h => hl (hhit.trans h)
      simp [hl, hne]
  · rw [hb.localClTable, clWritebacks_eq hb.sh]
    refine Effect.store (Effect.quiet ?_ (quiet_insertLine hb _ _)) _
    by_cases hzero : s.recentCl = 0
    · rw [if_neg fun h => h.2 hzero]
      refine ⟨rfl, fun line => ?_, fun _ => rfl, Iff.rfl⟩
      simp [State.emit, pending, hzero]
    · rw [if_pos ⟨hb.eagerWriteback, hzero⟩]
      refine ⟨rfl, fun line => ?_, fun _ => rfl, Iff.rfl⟩
      simp [State.emit, State.emits, pending, hzero]

/-- A range store writes back what `do_range_writeback` reaches, and forgets the line in `recent_cl`. -/
theorem racRangeStore_effect (hb : EagerTable b) {fuel begin end_ : ℕ}
    (h : racRangeStore b env fuel begin end_ s = some s') :
    Effect s s' (end_ >>> cacheLineShift)
      (fun line => decide (line ∉ rangeWritebackLines begin end_) &&
        (decide (line ∈ rangeLines begin end_) || pending line s.trace))
      (fun line => decide (line ∈ rangeLines begin end_) || storedInEpoch line s.trace) := by
  have hcl : end_ >>> virtualClShift b.sh = end_ >>> cacheLineShift := by
    rw [hb.sh]
    rfl
  simp only [racRangeStore, logRangeStore, hb.eagerWriteback, hb.localClTable, if_true, hcl] at h
  refine Effect.quiet ?_ (quiet_rangeLoop hb h)
  refine ⟨rfl, fun line => ?_, fun line => ?_, ?_⟩
  · simp only [State.emits, pending_writebacks, pending_stores]
  · simp only [State.emits, storedInEpoch_writebacks, storedInEpoch_stores]
  · simp only [State.emits]
    rw [writtenBackAtRelease_map (.inr rfl), writtenBackAtRelease_map (.inl rfl)]

/-- A release that publishes writes the line in `recent_cl` back and then needs all lines to be. -/
theorem threadRelease_effect (env : Env) (hb : EagerTable b) (s : State) (hne : s.recentCl ≠ 0) :
    (threadRelease b env s).2.recentCl = 0 ∧
      (∀ line, pending line (threadRelease b env s).2.trace =
        (decide (s.recentCl ≠ line) && pending line s.trace)) ∧
      (WrittenBackAtRelease (threadRelease b env s).2.trace ↔ WrittenBackAtRelease s.trace ∧
        ∀ line, storedInEpoch line s.trace = true → pending line s.trace = true →
          line = s.recentCl) := by
  obtain ⟨s₁, log, hquiet, hrec, htrace⟩ := writeToLog_spec env hb true
    { s with recentCl := 0, trace := .writeback s.recentCl :: s.trace }
  obtain ⟨es, hes, htr⟩ := hquiet.trace
  obtain ⟨hp, hs, hw⟩ := inert_append (.writeback s.recentCl :: s.trace) hes
  have heq : (threadRelease b env s).2.trace =
      .produce log.ptr (env.idx s₁.produced) log.toList true ::
        (es ++ .writeback s.recentCl :: s.trace) := by
    simp only [threadRelease, hne, hb.eagerWriteback, hb.localClTable, clWritebacks_eq hb.sh, State.emits]
    exact htrace.trans (by rw [htr])
  refine ⟨?_, fun line => ?_, ?_⟩
  · simp only [threadRelease, hne, hb.eagerWriteback, hb.localClTable, clWritebacks_eq hb.sh, State.emits]
    exact hrec
  · rw [heq]
    exact hp line
  · rw [heq, WrittenBackAtRelease, hw]
    refine and_congr Iff.rfl (forall_congr' fun line => ?_)
    rw [hs, hp]
    simp only [storedInEpoch, pending]
    refine imp_congr Iff.rfl ?_
    by_cases hline : s.recentCl = line
    · simp [hline]
    · simp [hline, Ne.symm hline]

/-! ## Along a sequence of calls -/

/-- The state tells the calls: `recent_cl`, and as long as no release has left a line behind, the lines
that are not written back. -/
structure RangeInv (ops : List Op) (s : State) : Prop where
  recentCl : s.recentCl = recentLine ops.reverse
  good : WrittenBackAtRelease s.trace ↔ LeavesNone ops
  pending : LeavesNone ops → ∀ line, pending line s.trace = true ↔ Unflushed line ops.reverse
  stored : LeavesNone ops → ∀ line, ThreadBuild.pending line s.trace = true →
    storedInEpoch line s.trace = true

theorem rangeInv_fresh : RangeInv [] fresh where
  recentCl := rfl
  good := by simp [fresh, WrittenBackAtRelease, LeavesNone]
  pending _ line := by simp [fresh, ThreadBuild.pending, Unflushed]
  stored _ line h := by cases h

/-- Lines that are not hardware coherent are not line 0. -/
theorem line_pos {a : ℕ} (h : cxlNhcStart ≤ a) : a >>> cacheLineShift ≠ 0 :=
  virtualLine_ne_zero (Nat.zero_le 41) h

/-- `recent_cl` is zero only where nothing was stored since the last release. -/
theorem not_unflushed {ops : List Op} (hvalid : ∀ op ∈ ops, op.Valid) (hzero : recentLine ops = 0)
    (line : ℕ) : ¬ Unflushed line ops := by
  cases ops with
  | nil => exact id
  | cons op ops =>
      have hv := hvalid op (by simp)
      cases op with
      | logStore addr => exact absurd hzero (line_pos hv.1)
      | logRangeStore begin end_ => exact absurd hzero (line_pos (hv.1.trans hv.2.1))
      | threadRelease => exact id

namespace RangeInv

variable {ops : List Op}

theorem racStore (env : Env) (hb : EagerTable b) (h : RangeInv ops s) (addr : ℕ)
    (hvalid : ∀ op ∈ ops, op.Valid) : RangeInv (ops ++ [.logStore addr]) (racStore b env addr s) := by
  obtain ⟨hrec, hpend, hstored, hgood⟩ := racStore_effect env hb s addr
  have hleaves : LeavesNone (ops ++ [.logStore addr]) ↔ LeavesNone ops := by
    simp [leavesNone_snoc]
  refine ⟨?_, ?_, fun hl line => ?_, fun hl line hp => ?_⟩
  · rw [hrec, List.reverse_append]
    rfl
  · rw [hgood, h.good, hleaves]
  · rw [hpend, List.reverse_append]
    show _ ↔ addr >>> cacheLineShift = line ∨
      (Unflushed line ops.reverse ∧ recentLine ops.reverse ≠ line)
    have hold := h.pending (hleaves.mp hl) line
    have hzero : s.recentCl = 0 → ¬ Unflushed line ops.reverse := fun hz =>
      not_unflushed (fun op hop => hvalid op (by simpa using hop)) (h.recentCl ▸ hz) line
    simp only [Bool.or_eq_true, Bool.and_eq_true, decide_eq_true_iff, hold]
    rw [h.recentCl] at hzero ⊢
    refine or_congr Iff.rfl ⟨fun hu => ⟨hu.2, hu.1.resolve_left fun hz => hzero hz hu.2⟩,
      fun hu => ⟨.inr hu.2, hu.1⟩⟩
  · rw [hpend] at hp
    rw [hstored]
    simp only [Bool.or_eq_true, Bool.and_eq_true] at hp ⊢
    exact hp.imp_right fun hp => h.stored (hleaves.mp hl) line hp.2

theorem racRangeStore (hb : EagerTable b) (h : RangeInv ops s) {fuel begin end_ : ℕ}
    (hs : racRangeStore b env fuel begin end_ s = some s') :
    RangeInv (ops ++ [.logRangeStore begin end_]) s' := by
  obtain ⟨hrec, hpend, hstored, hgood⟩ := racRangeStore_effect hb hs
  have hleaves : LeavesNone (ops ++ [.logRangeStore begin end_]) ↔ LeavesNone ops := by
    simp [leavesNone_snoc]
  refine ⟨?_, ?_, fun hl line => ?_, fun hl line hp => ?_⟩
  · rw [hrec, List.reverse_append]
    rfl
  · rw [hgood, h.good, hleaves]
  · rw [hpend, List.reverse_append]
    show _ ↔ line ∉ rangeWritebackLines begin end_ ∧
      (line ∈ rangeLines begin end_ ∨ Unflushed line ops.reverse)
    have hold := h.pending (hleaves.mp hl) line
    simp only [Bool.or_eq_true, Bool.and_eq_true, decide_eq_true_iff, hold]
  · rw [hpend] at hp
    rw [hstored]
    simp only [Bool.or_eq_true, Bool.and_eq_true] at hp ⊢
    exact hp.2.imp_right (h.stored (hleaves.mp hl) line)

theorem threadRelease (env : Env) (hb : EagerTable b) (h : RangeInv ops s)
    (hvalid : ∀ op ∈ ops, op.Valid) :
    RangeInv (ops ++ [.threadRelease]) (threadRelease b env s).2 := by
  have hrev : (ops ++ [Op.threadRelease]).reverse = Op.threadRelease :: ops.reverse := by simp
  by_cases hzero : s.recentCl = 0
  · -- nothing was stored since the last release, and the call returns at once
    have hnone : ∀ line, ¬ Unflushed line ops.reverse :=
      not_unflushed (fun op hop => hvalid op (by simpa using hop)) (h.recentCl ▸ hzero)
    have hleaves : LeavesNone (ops ++ [.threadRelease]) ↔ LeavesNone ops := by
      rw [leavesNone_snoc]
      exact and_iff_left fun _ line hu => absurd hu (hnone line)
    rw [ThreadBuild.threadRelease, if_pos hzero]
    refine ⟨by rw [hrev]; exact hzero, by rw [h.good, hleaves], fun hl line => ?_,
      fun hl => h.stored (hleaves.mp hl)⟩
    rw [h.pending (hleaves.mp hl), hrev]
    exact iff_of_false (hnone line) id
  · obtain ⟨hrec, hpend, hgood⟩ := threadRelease_effect env hb s hzero
    have hleaves : LeavesNone (ops ++ [.threadRelease]) ↔ LeavesNone ops ∧
        ∀ line, Unflushed line ops.reverse → line = recentLine ops.reverse := by
      rw [leavesNone_snoc]
      simp
    -- a release that leaves nothing behind leaves nothing to be written back
    have hclean : LeavesNone (ops ++ [.threadRelease]) → ∀ line,
        ThreadBuild.pending line (ThreadBuild.threadRelease b env s).2.trace = false := fun hl line => by
      obtain ⟨hl, hlast⟩ := hleaves.mp hl
      rw [hpend]
      by_contra hne
      simp only [Bool.not_eq_false, Bool.and_eq_true, decide_eq_true_iff] at hne
      have hline := hlast line ((h.pending hl line).mp hne.2)
      rw [← h.recentCl] at hline
      exact hne.1 hline.symm
    refine ⟨by rw [hrev]; exact hrec, ?_, fun hl line => ?_, fun hl line hp => ?_⟩
    · rw [hgood, h.good, hleaves]
      refine and_congr_right fun hl => forall_congr' fun line => ?_
      rw [← h.pending hl, h.recentCl]
      exact ⟨fun hall hp => hall (h.stored hl line hp) hp, fun hall _ hp => hall hp⟩
    · rw [hclean hl line, hrev]
      exact iff_of_false (by simp) id
    · rw [hclean hl line] at hp
      cases hp

end RangeInv

theorem rangeInv_run (hb : EagerTable b) {fuel : ℕ} {ops : List Op} (hvalid : ∀ op ∈ ops, op.Valid)
    (hrun : run b env fuel ops = some s) : RangeInv ops s := by
  induction ops using List.reverseRecOn generalizing s with
  | nil =>
      obtain rfl := Option.some.inj hrun
      exact rangeInv_fresh
  | append_singleton ops op ih =>
      rw [run_snoc] at hrun
      obtain ⟨s₀, hrun₀, hstep⟩ := Option.bind_eq_some_iff.mp hrun
      have hinv := ih (fun o ho => hvalid o (by simp [ho])) hrun₀
      have hv := hvalid op (by simp)
      cases op with
      | logStore addr =>
          obtain rfl := Option.some.inj hstep
          exact hinv.racStore env hb addr fun o ho => hvalid o (by simp [ho])
      | logRangeStore begin end_ => exact hinv.racRangeStore hb hstep
      | threadRelease =>
          obtain rfl := Option.some.inj hstep
          exact hinv.threadRelease env hb fun o ho => hvalid o (by simp [ho])

/-- With eager write-back, for every sequence of calls that returns: every release finds all lines of its
epoch written back if and only if no call leaves a line behind, that is, at every release the line in
`recent_cl` is the only one whose last store was neither followed by a store to another line while it was
in `recent_cl`, nor reached by the write-back of its own range. -/
theorem eager_range_iff (b : Build) (env : Env) (fuel : ℕ) (ops : List Op) (s : State)
    (hb : EagerTable b) (hvalid : ∀ op ∈ ops, op.Valid) (hrun : run b env fuel ops = some s) :
    WrittenBackAtRelease s.trace ↔ LeavesNone ops :=
  (rangeInv_run hb hvalid hrun).good

/-- The build with the local table and eager write-back. -/
def eagerBuild : Build := ⟨true, true, false, true, 0, 64⟩

theorem eagerTable_eagerBuild : EagerTable eagerBuild := ⟨rfl, rfl, rfl, rfl⟩

/-- A store, a write to a range of two lines from `begin` on, and a release. -/
def storeRange (begin : ℕ) : List Op :=
  [.logStore cxlNhcStart, .logRangeStore begin (begin + 128), .threadRelease]

theorem storeRange_valid {begin : ℕ} (hge : cxlNhcStart ≤ begin) (hlt : begin + 128 < 2 ^ 48) :
    ∀ op ∈ storeRange begin, op.Valid := by
  intro op hop
  simp only [storeRange, List.mem_cons, List.not_mem_nil, or_false] at hop
  rcases hop with rfl | rfl | rfl
  · exact ⟨le_rfl, by decide⟩
  · exact ⟨hge, by omega, hlt⟩
  · trivial

theorem leavesNone_storeRange : LeavesNone (storeRange cxlNhcStart) := by
  have hsplit : storeRange cxlNhcStart =
      (([] ++ [.logStore cxlNhcStart]) ++ [.logRangeStore cxlNhcStart (cxlNhcStart + 128)]) ++
        [.threadRelease] := rfl
  have hreach : rangeWritebackLines cxlNhcStart (cxlNhcStart + 128) =
      rangeLines cxlNhcStart (cxlNhcStart + 128) := by decide +kernel
  rw [hsplit, leavesNone_snoc, leavesNone_snoc, leavesNone_snoc]
  refine ⟨⟨⟨?_, by simp⟩, by simp⟩, fun _ line hu => ?_⟩
  · intro pre post heq
    simp at heq
  · -- the line of the store is in the range, and every line of the range is reached
    have hline : cxlNhcStart >>> cacheLineShift ∈ rangeLines cxlNhcStart (cxlNhcStart + 128) :=
      mem_rangeLines.mpr ⟨cxlNhcStart, le_rfl, by omega, by decide⟩
    simp only [List.nil_append, List.reverse_cons, List.reverse_nil, List.cons_append,
      Unflushed, hreach, false_and, or_false] at hu
    obtain ⟨hout, hin | rfl⟩ := hu
    · exact absurd hin hout
    · exact absurd hline hout

/-- A range that covers the line of the store is fine. -/
theorem eager_range_covered :
    ∃ s, run eagerBuild Env.alone 8 (storeRange cxlNhcStart) = some s ∧ s.produced = 1 ∧
      WrittenBackAtRelease s.trace := by
  obtain ⟨s, hrun, hprod⟩ : ∃ s, run eagerBuild Env.alone 8 (storeRange cxlNhcStart) = some s ∧
      s.produced = 1 := ⟨_, rfl, by decide +kernel⟩
  exact ⟨s, hrun, hprod, (eager_range_iff eagerBuild Env.alone 8 _ s eagerTable_eagerBuild
    (storeRange_valid le_rfl (by decide)) hrun).mpr leavesNone_storeRange⟩

/-- A range elsewhere overwrites `recent_cl`, and the line of the store is not written back. -/
theorem eager_range_loses_line :
    ¬ ∀ (b : Build) (env : Env) (fuel : ℕ) (ops : List Op) (s : State), EagerTable b →
      (∀ op ∈ ops, op.Valid) → run b env fuel ops = some s → WrittenBackAtRelease s.trace := by
  intro h
  obtain ⟨s, hrun, line, trace, hpub, hstored, hpend⟩ :
      ∃ s, run eagerBuild Env.alone 8 (storeRange (cxlNhcStart + 4096)) = some s ∧ ∃ line trace,
        (∃ ptr idx entries, s.trace = .produce ptr idx entries true :: trace) ∧
        storedInEpoch line trace = true ∧ pending line trace = true :=
    ⟨_, rfl, cxlNhcStart >>> cacheLineShift, _, ⟨_, _, _, rfl⟩, by decide +kernel, by decide +kernel⟩
  have hgood := h eagerBuild Env.alone 8 _ s eagerTable_eagerBuild
    (storeRange_valid (by decide) (by decide)) hrun
  obtain ⟨ptr, idx, entries, htrace⟩ := hpub
  rw [htrace] at hgood
  rw [hgood.2 line hstored] at hpend
  cases hpend

end ThreadBuild

end RACoherence
