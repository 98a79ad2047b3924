import RACoherence.FlushUtils
import RACoherence.Log
import RACoherence.ThreadOps.InlineCache

/-!
# One thread in every build

Reference: `include/threadOps.hpp`, `include/runtime.hpp` (`rac_storeN`, `rac_post_writeback`) and
`include/flushUtils.hpp` (`do_range_writeback`), without `LOCAL_CL_TABLE_BUFFER`.

`ThreadOps` is the default build, as far as it concerns what is published. Here the switches are
arguments, and the thread leaves a trace: its stores, its write-backs, and what it does with logs. Log
pointers and log indices come from the log manager, which other threads use too; they are given by an
`Env`.
-/

namespace RACoherence

open ClGroup LocalCLTable ThreadOps

/-- The switches of `config.hpp` that concern one thread. -/
structure Build where
  localClTable : Bool
  eagerWriteback : Bool
  delayPublish : Bool
  inlineCaching : Bool
  sh : ℕ
  logSize : ℕ

/-- What the log manager returns to this thread: the log of the `n`-th `get_new_log`, and the index of the
`n`-th `produce_tail`. -/
structure Env where
  log : ℕ → ℕ
  idx : ℕ → ℕ
  idx_lt : ∀ n, idx n < idx (n + 1)

/-- Logs and indices as they come when no other thread of the node publishes. -/
def Env.alone : Env := ⟨id, fun n => n + 1, fun n => by omega⟩

namespace ThreadBuild

/-- What can be seen of a thread. Lines are hardware lines; `logStore` is the call, `store` the store
after it. -/
inductive Event
  | logStore (line : ℕ)
  | store (line : ℕ)
  | writeback (line : ℕ)
  | newLog (ptr : ℕ)
  | write (ptr entry : ℕ)
  | produce (ptr idx : ℕ) (entries : List ℕ) (isRel : Bool)
  deriving DecidableEq, Repr

/-- A log of the log manager, and its address. -/
structure CurrLog extends Log where
  ptr : ℕ

/-- The log at `ptr`, as `set_to_new_log` returns it. -/
def CurrLog.new (ptr : ℕ) : CurrLog := ⟨Log.empty, ptr⟩

@[simp] theorem CurrLog.ptr_new (ptr : ℕ) : (CurrLog.new ptr).ptr = ptr := rfl

@[simp] theorem CurrLog.toLog_new (ptr : ℕ) : (CurrLog.new ptr).toLog = Log.empty := rfl

/-- The thread-local data, how many logs the thread has obtained and produced, and its trace, latest event
first. `clock` is the component of the own node in `thread_clock`. -/
structure State where
  dirtyCls : LocalCLTable
  recentCl : ℕ
  currLog : Option CurrLog
  clock : ℕ
  obtained : ℕ
  produced : ℕ
  trace : List Event

def fresh : State := ⟨LocalCLTable.empty, 0, none, 0, 0, 0, []⟩

variable (b : Build) (env : Env)

/-- The write-backs of the hardware lines of a virtual line. -/
def clWritebacks (cl : ℕ) : List Event :=
  (List.range (clExpandFactor b.sh)).map fun i =>
    .writeback ((cl <<< virtualClShift b.sh + i * cacheLineSize) >>> cacheLineShift)

/-- The write-backs of `write_to_log` for one entry. -/
def entryWritebacks (entry : ℕ) : List Event :=
  (writebackAddrs b.sh entry).map fun a => .writeback (a >>> cacheLineShift)

namespace State

def emit (s : State) (e : Event) : State := { s with trace := e :: s.trace }

/-- Several events, the first one first. -/
def emits (s : State) (es : List Event) : State := { s with trace := es.reverse ++ s.trace }

theorem currLog_emits (s : State) (es : List Event) : (s.emits es).currLog = s.currLog := rfl

/-- `set_to_new_log`, which waits until there is one. -/
def setToNewLog (s : State) : CurrLog × State :=
  (.new (env.log s.obtained),
    { s with obtained := s.obtained + 1 }.emit (.newLog (env.log s.obtained)))

/-- `produce_tail`: the index it returns, and the state after it. -/
def produceTail (s : State) (log : CurrLog) (isRel : Bool) : ℕ × State :=
  (env.idx s.produced,
    { s with produced := s.produced + 1 }.emit
      (.produce log.ptr (env.idx s.produced) log.toList isRel))

end State

/-- `Log::write` -/
def CurrLog.write (log : CurrLog) (entry : ℕ) (s : State) : CurrLog × State :=
  (⟨log.toLog.write entry, log.ptr⟩, s.emit (.write log.ptr entry))

/-! ## Without the local table -/

/-- `write_cl_to_log` -/
def writeClToLog (cl : ℕ) (s : State) : State :=
  let (log, s) := match s.currLog with
    | some log => (log, s)
    | none => s.setToNewLog env
  let (log, s) := if log.isFull b.logSize then (s.produceTail env log false).2.setToNewLog env else (log, s)
  let (log, s) := log.write cl s
  { s with currLog := some log }

/-! ## With the local table -/

/-- The variables of the loop in `write_to_log`. -/
structure Cursor where
  log : CurrLog
  clk : ℕ
  state : State

/-- With `DELAY_PUBLISH`, a full log is published before the next entry. -/
def Cursor.publishFull (isRel : Bool) (c : Cursor) : Cursor :=
  if b.delayPublish && c.log.isFull b.logSize then
    let (clk, s) := c.state.produceTail env c.log isRel
    let (log, s) := s.setToNewLog env
    ⟨log, clk, s⟩
  else c

/-- The loop body of `write_to_log`. -/
def Cursor.visit (isRel : Bool) (c : Cursor) (entry : ℕ) : Cursor :=
  let c := c.publishFull b env isRel
  let (log, s) := c.log.write entry c.state
  ⟨log, c.clk, if b.eagerWriteback then s else s.emits (entryWritebacks b entry)⟩

/-- The log that `write_to_log` starts with. -/
def firstLog (s : State) : CurrLog × State :=
  match b.delayPublish, s.currLog with
  | true, some log => (log, s)
  | _, _ => s.setToNewLog env

/-- `write_to_log`: the clock value and the state. -/
def writeToLog (isRel : Bool) (s : State) : ℕ × State :=
  let (log, s') := firstLog b env s
  let c := s.dirtyCls.entries.foldl (Cursor.visit b env isRel) ⟨log, 0, s'⟩
  let (clk, s') :=
    if b.delayPublish then
      if isRel then
        let (clk, s') := c.state.produceTail env c.log isRel
        (clk, { s' with currLog := none })
      else (c.clk, { c.state with currLog := some c.log })
    else c.state.produceTail env c.log isRel
  (clk, { s' with dirtyCls := LocalCLTable.empty })

/-- The part of `log_store` that records the line in the table. -/
def insertLine (cl : ℕ) (s : State) : State :=
  match insert b.sh s.dirtyCls cl with
  | (false, t) => { s with dirtyCls := t }
  | (true, t) =>
      let s := (writeToLog b env false { s with dirtyCls := t }).2
      { s with dirtyCls := (insert b.sh s.dirtyCls cl).2 }

/-- The loop of `log_range_store`; `none` when the fuel does not suffice for it to end. -/
def rangeLoop (fuel : ℕ) : ℕ → State → ℕ → ℕ → Option State
  | 0, _, _, _ => none
  | n + 1, s, begin, end_ =>
      match rangeInsert b.sh fuel s.dirtyCls begin end_ with
      | none => none
      | some r =>
          if r.full then
            rangeLoop fuel n (writeToLog b env false { s with dirtyCls := r.table }).2 r.begin r.end_
          else some { s with dirtyCls := r.table }

/-! ## The calls -/

/-- `log_store` -/
def logStore (addr : ℕ) (s : State) : State :=
  let cl := addr >>> virtualClShift b.sh
  let s := s.emit (.logStore (addr >>> cacheLineShift))
  if b.inlineCaching ∧ cl = s.recentCl then s
  else
    let s := if b.eagerWriteback ∧ s.recentCl ≠ 0 then s.emits (clWritebacks b s.recentCl) else s
    let s := { s with recentCl := cl }
    if b.localClTable then insertLine b env cl s
    else
      let s := if b.eagerWriteback then s else s.emit (.writeback (addr >>> cacheLineShift))
      writeClToLog b env cl s

/-- `log_range_store` -/
def logRangeStore (fuel begin end_ : ℕ) (s : State) : Option State :=
  let beginAddr := begin >>> virtualClShift b.sh
  let endAddr := end_ >>> virtualClShift b.sh
  let s := { s with recentCl := endAddr }
  if b.localClTable then rangeLoop b env fuel fuel s beginAddr endAddr
  else
    some ((List.range' beginAddr (endAddr - beginAddr)).foldl (fun s cl => writeClToLog b env cl s) s)

/-- `thread_release`: whether it published, and the state. -/
def threadRelease (s : State) : Bool × State :=
  if s.recentCl = 0 then (false, s)
  else
    let s := if b.eagerWriteback then s.emits (clWritebacks b s.recentCl) else s
    let s := { s with recentCl := 0 }
    let (clk, s) :=
      if b.localClTable then writeToLog b env true s
      else
        -- a null pointer is the address 0: `curr_log` may be null if `recent_cl` is from a range
        let (clk, s) := s.produceTail env (s.currLog.getD (.new 0)) true
        (clk, { s with currLog := none })
    (true, { s with clock := clk })

/-- The lines that `do_range_writeback(begin, end_ - begin)` writes back. The fuel suffices for the addresses
of the calls (`rangeWriteback_returns`). -/
@[irreducible] def rangeWritebackLines (begin end_ : ℕ) : List ℕ :=
  ((FlushUtils.doRangeWriteback ((end_ - begin) / cacheLineSize + 3) begin
    (FlushUtils.intArg (end_ - begin : ℕ))).getD []).map FlushUtils.Flush.line

/-- `rac_storeN` at an address that is not hardware coherent. -/
def racStore (addr : ℕ) (s : State) : State :=
  (logStore b env addr s).emit (.store (addr >>> cacheLineShift))

/-- A write to a range, and `rac_post_writeback` on it. -/
def racRangeStore (fuel begin end_ : ℕ) (s : State) : Option State :=
  let s := s.emits ((rangeLines begin end_).map .store)
  let s := if b.eagerWriteback then s.emits ((rangeWritebackLines begin end_).map .writeback) else s
  logRangeStore b env fuel begin end_ s

/-- One call. -/
def step (fuel : ℕ) (s : State) : Op → Option State
  | .logStore addr => some (racStore b env addr s)
  | .logRangeStore begin end_ => racRangeStore b env fuel begin end_ s
  | .threadRelease => some (threadRelease b env s).2

/-- A sequence of calls of a new thread; `none` when the fuel does not suffice. -/
def run (fuel : ℕ) (ops : List Op) : Option State := ops.foldlM (step b env fuel) fresh

variable {b env}

theorem run_snoc (fuel : ℕ) (ops : List Op) (op : Op) :
    run b env fuel (ops ++ [op]) = (run b env fuel ops).bind fun s => step b env fuel s op := by
  rw [run, List.foldlM_append]
  simp [run]

/-- Without expansion a virtual line is a hardware line. -/
theorem clWritebacks_eq (hb : b.sh = 0) (cl : ℕ) : clWritebacks b cl = [.writeback cl] := by
  have hline : (cl <<< 6 + 0 * 64) >>> 6 = cl := by
    rw [Nat.zero_mul, Nat.add_zero, Nat.shiftLeft_shiftRight]
  simp only [clWritebacks, hb]
  show [Event.writeback ((cl <<< 6 + 0 * 64) >>> 6)] = _
  rw [hline]

/-- The virtual line of an address that is not hardware coherent is not line 0. -/
theorem virtualLine_ne_zero {sh a : ℕ} (hsh : sh ≤ 41) (h : cxlNhcStart ≤ a) :
    a >>> virtualClShift sh ≠ 0 := by
  have hge : 3 * 2 ^ 46 ≤ a := h
  have hpow : 2 ^ virtualClShift sh ≤ 2 ^ 47 :=
    Nat.pow_le_pow_right (by omega) (by simp only [virtualClShift, cacheLineShift]; omega)
  have hdiv : 0 < a / 2 ^ virtualClShift sh := Nat.div_pos (by omega) (Nat.two_pow_pos _)
  rw [Nat.shiftRight_eq_div_pow]
  omega

/-! ## Reading a trace -/

/-- The last store to the line is not yet written back. -/
def pending (line : ℕ) : List Event → Bool
  | [] => false
  | .store k :: trace => decide (k = line) || pending line trace
  | .writeback k :: trace => decide (k ≠ line) && pending line trace
  | _ :: trace => pending line trace

/-- The line was stored to since the last log of a `thread_release`. -/
def storedInEpoch (line : ℕ) : List Event → Bool
  | [] => false
  | .store k :: trace => decide (k = line) || storedInEpoch line trace
  | .produce _ _ _ true :: _ => false
  | _ :: trace => storedInEpoch line trace

/-- The line is an entry of a log published since the last log of a `thread_release`. -/
def recordedInEpoch (line : ℕ) : List Event → Bool
  | [] => false
  | .produce _ _ _ true :: _ => false
  | .produce _ _ entries false :: trace => decide (line ∈ entries) || recordedInEpoch line trace
  | _ :: trace => recordedInEpoch line trace

/-- The line of the store that `log_store` has been called for and that has not happened yet. -/
def inProgress : List Event → Option ℕ
  | [] => none
  | .logStore line :: _ => some line
  | .store _ :: _ => none
  | _ :: trace => inProgress trace

end ThreadBuild

end RACoherence
