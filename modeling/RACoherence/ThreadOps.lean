import RACoherence.CacheInfo
import RACoherence.LocalCLTable.Coverage

/-!
# One thread's logging

Reference: `include/threadOps.hpp`, with `LOCAL_CL_TABLE=1`, `DELAY_PUBLISH=0` and no
`LOCAL_CL_TABLE_BUFFER`; `INLINE_CACHING` is an argument.

This is the view of a single thread: its dirty table, its inline cache `recent_cl`, and the logs it
has published so far. `set_to_new_log` always ends with an empty log here, and what other nodes do
with a published log is the business of the cluster model.
-/

namespace RACoherence

open ClGroup LocalCLTable

/-- A log as the thread publishes it: its entries, and whether it was a release. -/
structure PubLog where
  entries : List ℕ
  isRel : Bool
  deriving DecidableEq, Repr

/-- The thread-local data of `ThreadOps`, and the logs published so far. -/
structure ThreadOps where
  dirtyCls : LocalCLTable
  recentCl : ℕ
  published : List PubLog

namespace ThreadOps

/-- A thread that has not stored anything yet. -/
def fresh : ThreadOps := ⟨LocalCLTable.empty, 0, []⟩

/-- `write_to_log`: publish the table as one log and clear it. -/
def writeToLog (isRelease : Bool) (st : ThreadOps) : ThreadOps :=
  { st with
    published := st.published ++ [⟨st.dirtyCls.entries, isRelease⟩]
    dirtyCls := LocalCLTable.empty }

variable (sh : ℕ)

/-- The addresses that `write_to_log` writes back for one entry with `EAGER_WRITEBACK=0`. -/
def writebackAddrs (entry : ℕ) : List ℕ :=
  if isLengthBased entry then
    (lengthRange sh entry).flatMap fun clAddr =>
      (List.range (groupSize * clExpandFactor sh)).map fun i => clAddr + i * cacheLineSize
  else maskAddrs sh entry

/-- The part of `log_store` after the inline cache: record the line, flushing a full table. -/
def recordLine (cl : ℕ) (st : ThreadOps) : ThreadOps :=
  match insert sh st.dirtyCls cl with
  | (false, t) => { st with dirtyCls := t }
  | (true, t) =>
      let flushed := writeToLog false { st with dirtyCls := t }
      { flushed with dirtyCls := (insert sh flushed.dirtyCls cl).2 }

/-- `log_store` -/
def logStore (inlineCaching : Bool) (addr : ℕ) (st : ThreadOps) : ThreadOps :=
  let cl := addr >>> virtualClShift sh
  if inlineCaching ∧ cl = st.recentCl then st
  else recordLine sh cl { st with recentCl := cl }

/-- The loop `while (dirty_cls.range_insert(begin, end)) write_to_log(false)`; `none` when the fuel
does not suffice for it to end. -/
def rangeLoop (fuel : ℕ) : ℕ → ThreadOps → ℕ → ℕ → Option ThreadOps
  | 0, _, _, _ => none
  | n + 1, st, begin, end_ =>
      match rangeInsert sh fuel st.dirtyCls begin end_ with
      | none => none
      | some r =>
          if r.full then
            rangeLoop fuel n (writeToLog false { st with dirtyCls := r.table }) r.begin r.end_
          else some { st with dirtyCls := r.table }

/-- `log_range_store` -/
def logRangeStore (fuel begin end_ : ℕ) (st : ThreadOps) : Option ThreadOps :=
  rangeLoop sh fuel fuel { st with recentCl := end_ >>> virtualClShift sh }
    (begin >>> virtualClShift sh) (end_ >>> virtualClShift sh)

/-- `thread_release`, without the clock: whether it published, and the new state. -/
def threadRelease (st : ThreadOps) : Bool × ThreadOps :=
  if st.recentCl = 0 then (false, st)
  else (true, writeToLog true { st with recentCl := 0 })

/-! ## Lines a thread has recorded -/

/-- Some entry of some of the logs covers the line. -/
def LogsCover (logs : List PubLog) (cl : ℕ) : Prop :=
  ∃ log ∈ logs, ∃ e ∈ log.entries, Covers sh e cl

instance (logs : List PubLog) (cl : ℕ) : Decidable (LogsCover sh logs cl) :=
  inferInstanceAs (Decidable (∃ log ∈ logs, ∃ e ∈ log.entries, Covers sh e cl))

/-- Line `cl` is in the dirty table, or in a log published after the first `base` ones. -/
def Recorded (st : ThreadOps) (base cl : ℕ) : Prop :=
  Covered sh st.dirtyCls cl ∨ LogsCover sh (st.published.drop base) cl

variable {sh}

theorem recentCl_recordLine {cl : ℕ} {st : ThreadOps} : (recordLine sh cl st).recentCl = st.recentCl := by
  unfold recordLine
  split <;> rfl

theorem logsCover_append {as bs : List PubLog} {cl : ℕ} :
    LogsCover sh (as ++ bs) cl ↔ LogsCover sh as cl ∨ LogsCover sh bs cl := by
  simp only [LogsCover, List.mem_append, or_and_right, exists_or]

/-- The log made from a table covers what the table covers. -/
theorem logsCover_table {t : LocalCLTable} {r : Bool} {cl : ℕ} :
    LogsCover sh [⟨t.entries, r⟩] cl ↔ Covered sh t cl := by
  simp [LogsCover, covered_iff_entries]

/-- Flushing the table moves its lines to the published logs. -/
theorem recorded_writeToLog (st : ThreadOps) {base cl : ℕ} {r : Bool}
    (hbase : base ≤ st.published.length) :
    Recorded sh (writeToLog r st) base cl ↔ Recorded sh st base cl := by
  simp only [Recorded, writeToLog, List.drop_append_of_le_length hbase, logsCover_append,
    logsCover_table, not_covered_empty, false_or, or_comm]

end ThreadOps

end RACoherence
