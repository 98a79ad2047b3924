import Mathlib.Data.Option.Basic
import RACoherence.ThreadBuild

/-!
# Delayed publication

Reference: `include/threadOps.hpp` with `LOCAL_CL_TABLE=1`, for both values of `DELAY_PUBLISH`.

With `DELAY_PUBLISH=1` a table is written to the current log and stays there until the log is full or the
thread releases. What the two builds have in common is the stream of entries: `ThreadOps` publishes each
table as one log, and a thread of either build has published the same entries in the same order, up to
those in its current log.
-/

namespace RACoherence

open LocalCLTable ThreadOps

namespace ThreadBuild

/-! ## What the trace says about logs -/

/-- The entries of the published logs, in the order of publication. -/
def published : List Event → List ℕ
  | [] => []
  | .produce _ _ entries _ :: trace => published trace ++ entries
  | _ :: trace => published trace

/-- The entries that were written to logs, in order. -/
def written : List Event → List ℕ
  | [] => []
  | .write _ entry :: trace => written trace ++ [entry]
  | _ :: trace => written trace

/-- The number of entries in a log since it was obtained. -/
def sizeOf (ptr : ℕ) : List Event → ℕ
  | [] => 0
  | .newLog p :: trace => if p = ptr then 0 else sizeOf ptr trace
  | .write p _ :: trace => (if p = ptr then 1 else 0) + sizeOf ptr trace
  | _ :: trace => sizeOf ptr trace

/-- The log was obtained and has not been published since. -/
def holds (ptr : ℕ) : List Event → Bool
  | [] => false
  | .newLog p :: trace => decide (p = ptr) || holds ptr trace
  | .produce p _ _ _ :: trace => decide (p ≠ ptr) && holds ptr trace
  | _ :: trace => holds ptr trace

/-- No entry was written to a full log. -/
def NeverOverfull (logSize : ℕ) : List Event → Prop
  | [] => True
  | .write ptr _ :: trace => sizeOf ptr trace < logSize ∧ NeverOverfull logSize trace
  | _ :: trace => NeverOverfull logSize trace

/-- Every log was obtained anew before it was published. -/
def PublishedOnce : List Event → Prop
  | [] => True
  | .produce ptr _ _ _ :: trace => holds ptr trace = true ∧ PublishedOnce trace
  | _ :: trace => PublishedOnce trace

/-- The event has nothing to do with logs. -/
def Event.Other : Event → Prop
  | .logStore _ | .store _ | .writeback _ => True
  | _ => False

/-- A trace in which logs are used as they should be, `log` being the one that is written to. -/
structure Sound (b : Build) (env : Env) (produced : ℕ) (trace : List Event) (log : Option CurrLog) : Prop where
  overfull : NeverOverfull b.logSize trace
  once : PublishedOnce trace
  idx : ∀ ptr i entries isRel, Event.produce ptr i entries isRel ∈ trace → ∃ n < produced, i = env.idx n
  written : written trace = published trace ++ log.elim [] (·.toList)
  log : ∀ l, log = some l → holds l.ptr trace = true ∧ sizeOf l.ptr trace = l.size ∧ l.size ≤ b.logSize

namespace Sound

variable {b : Build} {env : Env} {produced : ℕ} {trace : List Event}

theorem other {log : Option CurrLog} (h : Sound b env produced trace log) {e : Event} (he : e.Other) :
    Sound b env produced (e :: trace) log := by
  have hidx : ∀ ptr i entries isRel, Event.produce ptr i entries isRel ∈ e :: trace →
      ∃ n < produced, i = env.idx n := fun ptr i entries isRel hmem => by
    rcases List.mem_cons.mp hmem with rfl | hmem
    · exact absurd he id
    · exact h.idx ptr i entries isRel hmem
  cases e with
  | logStore line => exact ⟨h.overfull, h.once, hidx, h.written, h.log⟩
  | store line => exact ⟨h.overfull, h.once, hidx, h.written, h.log⟩
  | writeback line => exact ⟨h.overfull, h.once, hidx, h.written, h.log⟩
  | newLog ptr => exact absurd he id
  | write ptr entry => exact absurd he id
  | produce ptr idx entries isRel => exact absurd he id

theorem others {log : Option CurrLog} (h : Sound b env produced trace log) {es : List Event}
    (hes : ∀ e ∈ es, e.Other) : Sound b env produced (es ++ trace) log := by
  induction es with
  | nil => exact h
  | cons e es ih => exact (ih fun e' he' => hes e' (by simp [he'])).other (hes e (by simp))

theorem newLog (h : Sound b env produced trace none) (ptr : ℕ) :
    Sound b env produced (.newLog ptr :: trace) (some (.new ptr)) where
  overfull := h.overfull
  once := h.once
  idx p i entries isRel hmem := h.idx p i entries isRel (by simpa using hmem)
  written := h.written
  log l hl := by
    obtain rfl := Option.some.inj hl
    exact ⟨by simp [holds], by simp [sizeOf, Log.empty], Nat.zero_le _⟩

theorem write {log : CurrLog} (h : Sound b env produced trace (some log))
    (hlt : log.size < b.logSize) (entry : ℕ) :
    Sound b env produced (.write log.ptr entry :: trace) (some ⟨log.toLog.write entry, log.ptr⟩) where
  overfull := ⟨by rw [(h.log log rfl).2.1]; exact hlt, h.overfull⟩
  once := h.once
  idx p i entries isRel hmem := h.idx p i entries isRel (by simpa using hmem)
  written := by
    simp only [ThreadBuild.written, published, h.written, Option.elim_some, List.append_assoc,
      Log.toList_write]
  log l hl := by
    obtain rfl := Option.some.inj hl
    obtain ⟨hheld, hsize, -⟩ := h.log log rfl
    refine ⟨hheld, ?_, ?_⟩
    · simp [sizeOf, hsize, Nat.add_comm]
    · rw [Log.size_write]
      omega

theorem produce {log : CurrLog} (h : Sound b env produced trace (some log)) (isRel : Bool) :
    Sound b env (produced + 1) (.produce log.ptr (env.idx produced) log.toList isRel :: trace) none where
  overfull := h.overfull
  once := ⟨(h.log log rfl).1, h.once⟩
  idx p i entries r hmem := by
    rcases List.mem_cons.mp hmem with heq | hmem
    · cases heq
      exact ⟨produced, by omega, rfl⟩
    · obtain ⟨n, hn, hi⟩ := h.idx p i entries r hmem
      exact ⟨n, by omega, hi⟩
  written := by
    simp only [ThreadBuild.written, published, h.written, Option.elim_some, Option.elim_none,
      List.append_nil]
  log l hl := by cases hl

end Sound

/-! ## `write_to_log` -/

/-- The entries of the cursor so far: published, and in the log. -/
def Cursor.stream (c : Cursor) : List ℕ := published c.state.trace ++ c.log.toList

/-- The trace of the cursor is sound. -/
def Cursor.IsSound (b : Build) (env : Env) (c : Cursor) : Prop :=
  Sound b env c.state.produced c.state.trace (some c.log)

/-- The loop has passed from `c` to `c'` over `entries`. -/
structure Cursor.Passed (b : Build) (env : Env) (c c' : Cursor) (entries : List ℕ) : Prop where
  sound : c'.IsSound b env
  stream : c'.stream = c.stream ++ entries
  recentCl : c'.state.recentCl = c.state.recentCl
  currLog : c'.state.currLog = c.state.currLog
  length : b.delayPublish = false → c'.log.size = c.log.size + entries.length

variable {b : Build} {env : Env}

/-- Publishing a full log keeps the stream, and leaves room for an entry. -/
theorem Cursor.publishFull_spec {c : Cursor} (h : c.IsSound b env) (hpos : 0 < b.logSize)
    (hroom : b.delayPublish = false → c.log.size < b.logSize) (isRel : Bool) :
    c.Passed b env (c.publishFull b env isRel) [] ∧
      (c.publishFull b env isRel).log.size < b.logSize := by
  have hle := (h.log c.log rfl).2.2
  unfold Cursor.publishFull
  split
  · rename_i hfull
    rw [Bool.and_eq_true] at hfull
    refine ⟨⟨?_, ?_, rfl, rfl, fun hd => ?_⟩, hpos⟩
    · exact (h.produce isRel).newLog _
    · simp [Cursor.stream, published, State.produceTail, State.setToNewLog, State.emit]
    · rw [hd] at hfull
      exact absurd hfull.1 (by simp)
  · rename_i hnot
    refine ⟨⟨h, by simp, rfl, rfl, fun _ => rfl⟩, ?_⟩
    cases hd : b.delayPublish with
    | false => exact hroom hd
    | true =>
        have hne : c.log.size ≠ b.logSize := by
          simpa [hd, Log.isFull] using hnot
        omega

theorem other_entryWritebacks (entry : ℕ) : ∀ e ∈ (entryWritebacks b entry).reverse, e.Other := by
  intro e he
  simp only [entryWritebacks, List.mem_reverse, List.mem_map] at he
  obtain ⟨a, -, rfl⟩ := he
  trivial

theorem published_others {es trace : List Event} (hes : ∀ e ∈ es, e.Other) :
    published (es ++ trace) = published trace := by
  induction es with
  | nil => rfl
  | cons e es ih =>
      have hrest := ih fun e' he' => hes e' (by simp [he'])
      have he := hes e (by simp)
      cases e with
      | logStore line => exact hrest
      | store line => exact hrest
      | writeback line => exact hrest
      | newLog ptr => exact absurd he id
      | write ptr entry => exact absurd he id
      | produce ptr idx entries isRel => exact absurd he id

theorem Cursor.visit_spec {c : Cursor} (h : c.IsSound b env) (hpos : 0 < b.logSize)
    (hroom : b.delayPublish = false → c.log.size < b.logSize) (isRel : Bool) (entry : ℕ) :
    c.Passed b env (c.visit b env isRel entry) [entry] := by
  obtain ⟨hpub, hlt⟩ := Cursor.publishFull_spec h hpos hroom isRel
  have hwrite := Sound.write hpub.sound hlt entry
  unfold Cursor.visit
  generalize c.publishFull b env isRel = c₁ at *
  cases heager : b.eagerWriteback with
  | true =>
      refine ⟨hwrite, ?_, hpub.recentCl, hpub.currLog, fun hd => ?_⟩
      · have hs := hpub.stream
        simp only [Cursor.stream, List.append_nil] at hs ⊢
        simp [CurrLog.write, State.emit, published, ← hs]
      · simp [CurrLog.write, hpub.length hd]
  | false =>
      refine ⟨hwrite.others (other_entryWritebacks entry), ?_, hpub.recentCl, hpub.currLog, fun hd => ?_⟩
      · have hs := hpub.stream
        simp only [Cursor.stream, List.append_nil] at hs ⊢
        simp [CurrLog.write, State.emit, State.emits, published_others (other_entryWritebacks entry),
          published, ← hs]
      · simp [CurrLog.write, hpub.length hd]

/-- The whole loop, by induction on the entries. Without `DELAY_PUBLISH` they all have to fit. -/
theorem Cursor.foldl_spec {c : Cursor} (h : c.IsSound b env) (hpos : 0 < b.logSize) (isRel : Bool)
    (entries : List ℕ)
    (hroom : b.delayPublish = false → c.log.size + entries.length ≤ b.logSize) :
    c.Passed b env (entries.foldl (Cursor.visit b env isRel) c) entries := by
  induction entries generalizing c with
  | nil => exact ⟨h, by simp, rfl, rfl, fun _ => rfl⟩
  | cons entry entries ih =>
      have hone := Cursor.visit_spec h hpos (fun hd => by
        have := hroom hd
        simp only [List.length_cons] at this
        omega) isRel entry
      have hrest := ih hone.sound fun hd => by
        have := hroom hd
        rw [hone.length hd]
        simp only [List.length_cons, List.length_nil] at this ⊢
        omega
      rw [List.foldl_cons]
      refine ⟨hrest.sound, ?_, hrest.recentCl.trans hone.recentCl, hrest.currLog.trans hone.currLog,
        fun hd => ?_⟩
      · rw [hrest.stream, hone.stream, List.append_assoc]
        rfl
      · rw [hrest.length hd, hone.length hd]
        simp only [List.length_cons, List.length_nil]
        omega

/-- The entries of the thread so far: published, and in the current log. -/
def State.stream (s : State) : List ℕ := published s.trace ++ s.currLog.elim [] (·.toList)

/-- The trace of the thread is sound, and without `DELAY_PUBLISH` no log outlives `write_to_log`. -/
structure State.IsSound (b : Build) (env : Env) (s : State) : Prop where
  trace : Sound b env s.produced s.trace s.currLog
  direct : b.delayPublish = false → s.currLog = none

theorem firstLog_spec {s : State} (h : s.IsSound b env) :
    Cursor.IsSound b env ⟨(firstLog b env s).1, 0, (firstLog b env s).2⟩ ∧
      Cursor.stream ⟨(firstLog b env s).1, 0, (firstLog b env s).2⟩ = s.stream ∧
      (firstLog b env s).2.recentCl = s.recentCl ∧
      (b.delayPublish = false → (firstLog b env s).1.size = 0 ∧
        (firstLog b env s).2.currLog = none) := by
  cases hlog : s.currLog with
  | none =>
      have hfirst : firstLog b env s = s.setToNewLog env := by
        unfold firstLog
        rw [hlog]
        cases b.delayPublish <;> rfl
      have hsound := h.trace
      rw [hlog] at hsound
      rw [hfirst]
      refine ⟨hsound.newLog _, ?_, rfl, fun _ => ⟨rfl, hlog⟩⟩
      simp [Cursor.stream, State.stream, hlog, State.setToNewLog, State.emit, published]
  | some log =>
      have hdelay : b.delayPublish = true := by
        by_contra hne
        have := h.direct (by simpa using hne)
        rw [hlog] at this
        cases this
      have hfirst : firstLog b env s = (log, s) := by
        unfold firstLog
        rw [hlog, hdelay]
      have hsound := h.trace
      rw [hlog] at hsound
      rw [hfirst]
      refine ⟨hsound, ?_, rfl, fun hd => ?_⟩
      · simp [Cursor.stream, State.stream, hlog]
      · rw [hdelay] at hd
        cases hd

theorem length_entries_le (t : LocalCLTable) : t.entries.length ≤ localClTableSize := by
  refine (List.length_filter_le _ _).trans ?_
  simp

/-- `write_to_log` appends the table to the stream. At a release nothing stays in the current log, and
the clock value is the index of the log that was published last. -/
structure Flushed (b : Build) (env : Env) (isRel : Bool) (s : State) (r : ℕ × State) : Prop where
  sound : r.2.IsSound b env
  stream : r.2.stream = s.stream ++ s.dirtyCls.entries
  dirtyCls : r.2.dirtyCls = LocalCLTable.empty
  recentCl : r.2.recentCl = s.recentCl
  release : isRel = true → r.2.currLog = none ∧ ∃ ptr entries trace k,
    r.2.trace = .produce ptr r.1 entries true :: trace ∧ r.1 = env.idx k ∧ r.2.produced = k + 1

theorem flushed_writeToLog (hsize : localClTableSize ≤ b.logSize) {s : State} (h : s.IsSound b env)
    (isRel : Bool) : Flushed b env isRel s (writeToLog b env isRel s) := by
  have hpos : 0 < b.logSize := lt_of_lt_of_le (by decide) hsize
  obtain ⟨hsound, hstream, hrec, hdirect⟩ := firstLog_spec h
  have hloop := Cursor.foldl_spec hsound hpos isRel s.dirtyCls.entries fun hd => by
    rw [(hdirect hd).1]
    have := length_entries_le s.dirtyCls
    omega
  unfold writeToLog
  generalize hcur : s.dirtyCls.entries.foldl (Cursor.visit b env isRel)
    ⟨(firstLog b env s).1, 0, (firstLog b env s).2⟩ = c at hloop
  have hpub : published c.state.trace ++ c.log.toList = s.stream ++ s.dirtyCls.entries :=
    hloop.stream.trans (by rw [hstream])
  have hrec' : c.state.recentCl = s.recentCl := hloop.recentCl.trans hrec
  have hproduce := Sound.produce hloop.sound isRel
  dsimp only
  rw [hcur]
  cases hd : b.delayPublish with
  | false =>
      have hnone : c.state.currLog = none := hloop.currLog.trans (hdirect hd).2
      refine ⟨⟨?_, fun _ => hnone⟩, ?_, rfl, hrec', fun hrel => ⟨hnone, ?_⟩⟩
      · exact hnone.symm ▸ hproduce
      · show published c.state.trace ++ c.log.toList ++ c.state.currLog.elim [] (·.toList) = _
        rw [hnone, hpub]
        exact List.append_nil _
      · subst hrel
        exact ⟨_, _, _, _, rfl, rfl, rfl⟩
  | true =>
      cases isRel with
      | true =>
          refine ⟨⟨hproduce, fun hfalse => by rw [hd] at hfalse; cases hfalse⟩, ?_, rfl, hrec',
            fun _ => ⟨rfl, _, _, _, _, rfl, rfl, rfl⟩⟩
          show published c.state.trace ++ c.log.toList ++ [] = _
          rw [hpub, List.append_nil]
      | false =>
          exact ⟨⟨hloop.sound, fun hfalse => by rw [hd] at hfalse; cases hfalse⟩, hpub, rfl, hrec',
            fun hfalse => by cases hfalse⟩

/-! ## Both builds refine `ThreadOps` -/

/-- The thread has the table and the inline cache of `st`, and its stream is what `st` has published. -/
structure Agrees (b : Build) (env : Env) (s : State) (st : ThreadOps) : Prop where
  sound : s.IsSound b env
  dirtyCls : s.dirtyCls = st.dirtyCls
  recentCl : s.recentCl = st.recentCl
  stream : s.stream = st.published.flatMap (·.entries)

variable {s : State} {st : ThreadOps}

namespace Agrees

/-- Events that have nothing to do with logs do not matter. -/
theorem emits (h : Agrees b env s st) {es : List Event} (hes : ∀ e ∈ es, e.Other) :
    Agrees b env (s.emits es) st := by
  have hrev : ∀ e ∈ es.reverse, e.Other := fun e he => hes e (by simpa using he)
  refine ⟨⟨h.sound.trace.others hrev, h.sound.direct⟩, h.dirtyCls, h.recentCl, ?_⟩
  rw [← h.stream]
  simp only [State.stream, State.emits, published_others hrev]

theorem emit (h : Agrees b env s st) {e : Event} (he : e.Other) : Agrees b env (s.emit e) st :=
  have hes : Agrees b env (s.emits [e]) st := h.emits (by simpa using he)
  hes

theorem setRecentCl (h : Agrees b env s st) (cl : ℕ) :
    Agrees b env { s with recentCl := cl } { st with recentCl := cl } :=
  ⟨⟨h.sound.trace, h.sound.direct⟩, h.dirtyCls, rfl, h.stream⟩

theorem setDirtyCls (h : Agrees b env s st) (t : LocalCLTable) :
    Agrees b env { s with dirtyCls := t } { st with dirtyCls := t } :=
  ⟨⟨h.sound.trace, h.sound.direct⟩, rfl, h.recentCl, h.stream⟩

theorem writeToLog (hsize : localClTableSize ≤ b.logSize) (h : Agrees b env s st) (isRel : Bool) :
    Agrees b env (writeToLog b env isRel s).2 (ThreadOps.writeToLog isRel st) := by
  have hf := flushed_writeToLog hsize h.sound isRel
  refine ⟨hf.sound, hf.dirtyCls, hf.recentCl.trans h.recentCl, ?_⟩
  rw [hf.stream, h.stream, h.dirtyCls]
  simp [ThreadOps.writeToLog]

theorem insertLine (hsize : localClTableSize ≤ b.logSize) (h : Agrees b env s st) (cl : ℕ) :
    Agrees b env (insertLine b env cl s) (recordLine b.sh cl st) := by
  unfold ThreadBuild.insertLine recordLine
  rw [h.dirtyCls]
  rcases insert b.sh st.dirtyCls cl with ⟨full, t⟩
  cases full with
  | false => exact h.setDirtyCls t
  | true =>
      have hw := (h.setDirtyCls t).writeToLog hsize false
      have hempty := (flushed_writeToLog hsize (h.setDirtyCls t).sound false).dirtyCls
      simp only [hempty]
      exact hw.setDirtyCls (insert b.sh LocalCLTable.empty cl).2

/-- `rac_storeN` against `log_store`. -/
theorem racStore (htable : b.localClTable = true) (hsize : localClTableSize ≤ b.logSize)
    (h : Agrees b env s st) (addr : ℕ) :
    Agrees b env (racStore b env addr s) (ThreadOps.logStore b.sh b.inlineCaching addr st) := by
  refine Agrees.emit ?_ trivial
  have hcall : Agrees b env (s.emit (.logStore (addr >>> cacheLineShift))) st := h.emit trivial
  unfold ThreadBuild.logStore ThreadOps.logStore
  dsimp only
  rw [hcall.recentCl, htable]
  split
  · exact hcall
  · refine Agrees.insertLine hsize (Agrees.setRecentCl ?_ _) _
    split
    · refine hcall.emits fun e he => ?_
      simp only [clWritebacks, List.mem_map] at he
      obtain ⟨i, -, rfl⟩ := he
      trivial
    · exact hcall

theorem rangeLoop (hsize : localClTableSize ≤ b.logSize) (h : Agrees b env s st)
    {fuel n begin end_ : ℕ} :
    Option.Rel (Agrees b env) (rangeLoop b env fuel n s begin end_)
      (ThreadOps.rangeLoop b.sh fuel n st begin end_) := by
  induction n generalizing s st begin end_ with
  | zero => exact .none
  | succ n ih =>
      simp only [ThreadBuild.rangeLoop, ThreadOps.rangeLoop, h.dirtyCls]
      cases rangeInsert b.sh fuel st.dirtyCls begin end_ with
      | none => exact .none
      | some r =>
          cases hfull : r.full with
          | true =>
              simp only [hfull]
              exact ih ((h.setDirtyCls r.table).writeToLog hsize false)
          | false =>
              simp only [hfull]
              exact .some (h.setDirtyCls r.table)

/-- A range write and `rac_post_writeback` against `log_range_store`. -/
theorem racRangeStore (htable : b.localClTable = true) (hsize : localClTableSize ≤ b.logSize)
    (h : Agrees b env s st) {fuel begin end_ : ℕ} :
    Option.Rel (Agrees b env) (racRangeStore b env fuel begin end_ s)
      (ThreadOps.logRangeStore b.sh fuel begin end_ st) := by
  have hstores : Agrees b env (s.emits ((rangeLines begin end_).map .store)) st :=
    h.emits fun e he => by
      obtain ⟨line, -, rfl⟩ := List.mem_map.mp he
      trivial
  unfold ThreadBuild.racRangeStore ThreadBuild.logRangeStore ThreadOps.logRangeStore
  dsimp only
  rw [htable]
  refine Agrees.rangeLoop hsize (Agrees.setRecentCl ?_ _)
  split
  · refine hstores.emits fun e he => ?_
    obtain ⟨line, -, rfl⟩ := List.mem_map.mp he
    trivial
  · exact hstores

/-- Where `thread_release` publishes, nothing is left in the current log. -/
theorem threadRelease (htable : b.localClTable = true) (hsize : localClTableSize ≤ b.logSize)
    (h : Agrees b env s st) (hidle : s.recentCl = 0 → s.currLog = none) :
    (threadRelease b env s).1 = (ThreadOps.threadRelease st).1 ∧
      Agrees b env (threadRelease b env s).2 (ThreadOps.threadRelease st).2 ∧
      (threadRelease b env s).2.currLog = none ∧
      ((threadRelease b env s).1 = true → ∃ ptr entries trace k,
        (threadRelease b env s).2.trace =
          .produce ptr (threadRelease b env s).2.clock entries true :: trace ∧
        (threadRelease b env s).2.clock = env.idx k ∧ (threadRelease b env s).2.produced = k + 1) := by
  unfold ThreadBuild.threadRelease ThreadOps.threadRelease
  rw [← h.recentCl]
  by_cases hzero : s.recentCl = 0
  · rw [if_pos hzero, if_pos hzero]
    exact ⟨rfl, h, hidle hzero, fun hfalse => by cases hfalse⟩
  · rw [if_neg hzero, if_neg hzero, htable]
    have hwb : Agrees b env
        (if b.eagerWriteback then s.emits (clWritebacks b s.recentCl) else s) st := by
      split
      · refine h.emits fun e he => ?_
        simp only [clWritebacks, List.mem_map] at he
        obtain ⟨i, -, rfl⟩ := he
        trivial
      · exact h
    have hset := hwb.setRecentCl 0
    have hf := flushed_writeToLog hsize hset.sound true
    have hw := hset.writeToLog hsize true
    obtain ⟨hnone, ptr, entries, trace, k, htr, hclk, hprod⟩ := hf.release rfl
    refine ⟨rfl, ⟨⟨hw.sound.trace, hw.sound.direct⟩, hw.dirtyCls, hw.recentCl, hw.stream⟩, hnone,
      fun _ => ⟨ptr, entries, trace, k, htr, hclk, hprod⟩⟩

end Agrees

end ThreadBuild

end RACoherence
