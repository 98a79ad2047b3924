import RACoherence.CacheInfo
import RACoherence.LogManager
import RACoherence.ThreadOps
import RACoherence.VectorClock

/-!
# Nodes, threads and cache agents

Reference: `include/threadOps.hpp` (`write_to_log`, `help_consume`, `thread_release`,
`thread_acquire`, `log_store`), `src/cacheAgent.cpp`, `include/cacheInfo.hpp` and
`include/vectorClock.hpp`, in the configuration `LOCAL_CL_TABLE=1`, `EAGER_INVALIDATE=1`,
`EAGER_WRITEBACK=0`, `DELAY_PUBLISH=0`, `INLINE_CACHING=1`, `CONSUME_HELPING=1`, with
`CL_EXPAND_SHIFT=0`.

Every node has a log ring, a cache clock and a log-head mutex. Its threads store, by `rac_storeN` only,
release and acquire; its agent consumes the rings of the other nodes in batches, and a thread that acquires
helps. The clocks of synchronisation objects are what clocks pass through from thread to thread: an object
takes a copy of a thread's clock or merges it into its own. A thread that is created by another one of its
node (`rac_thread_create` of `src/runtime.cpp`) instead acquires the clock of its parent, which it reads
component by component while the parent may go on. What is done to the caches is recorded in `trace`,
together with the publication and the processing of logs; a flush instruction counts as done when it is
issued.
-/

namespace RACoherence

open Function LocalCLTable

namespace Cluster

/-- What `write_to_log` was called for: a full table in `log_store`, or `thread_release`. -/
inductive Purpose
  | flush (cl : ℕ)
  | release
  deriving DecidableEq, Repr

/-- The argument `is_release`. -/
def Purpose.isRelease : Purpose → Bool
  | .flush _ => false
  | .release => true

/-- The argument of `thread_acquire`: a clock that stays as it is, or the clock of the thread that has
created this one. -/
inductive Target
  | copy (c : VectorClock)
  | parent (p : ℕ)

/-- Where a thread is in the loop of `help_consume` over the nodes, or in `merge` after it. `start` is the
clock it read when it got the mutex. -/
inductive HelpStage
  | loop
  | check
  | compare (clk : ℕ)
  | isSubscribed
  | tryLock
  | readClk
  | inner (start clk : ℕ)
  | take (start clk : ℕ)
  | consuming (start clk : ℕ)
  | unlock
  | merge
  deriving DecidableEq, Repr

/-- The local variables of `help_consume` and `merge`. -/
structure Help where
  target : Target
  done : Bool
  nodeDone : ℕ → Bool
  i : ℕ
  stage : HelpStage

/-- Where a thread is. In `getLog` and `produce` it is inside `get_new_log` and `produce_tail` of its
node's ring, which has the rest of its position. -/
inductive ThreadPc
  | idle
  | store (cl : ℕ)
  | getLog (k : Purpose)
  | fill (k : Purpose) (rest : List ℕ)
  | produce (k : Purpose)
  | finish (k : Purpose) (clk : ℕ)
  | help (h : Help)

/-- The thread-local data of `ThreadOps`. -/
structure Thread where
  clock : VectorClock
  dirtyCls : LocalCLTable
  recentCl : ℕ
  pc : ThreadPc

/-- Where a cache agent is in `run`. -/
inductive AgentPc
  | loop (i : ℕ)
  | tryLock (i : ℕ)
  | batch (i j clk : ℕ)
  | consuming (i j clk : ℕ)
  | update (i clk : ℕ)
  | unlock (i : ℕ)
  deriving DecidableEq, Repr

/-- A possible holder of the log-head mutex of a node. -/
inductive Party
  | agent
  | thread (t : ℕ)
  deriving DecidableEq, Repr

/-- What is recorded of a run, oldest first. -/
inductive Event
  | store (t cl : ℕ)
  | writeback (t cl : ℕ)
  | publish (i j : ℕ)
  | release (t clk : ℕ)
  | process (n i idx : ℕ)
  | invalidate (n cl : ℕ)
  | wbinvd (n : ℕ)
  deriving DecidableEq, Repr

structure State where
  rings : ℕ → LogManager.State
  clock : ℕ → VectorClock
  headMtx : ℕ → Option Party
  threads : ℕ → Thread
  agents : ℕ → AgentPc
  objs : ℕ → VectorClock
  trace : List Event

/-- A call of a thread, or the next step of a thread or an agent. -/
inductive Action
  | logStore (t addr : ℕ)
  | release (t : ℕ)
  | acquire (t o : ℕ)
  | create (p c : ℕ)
  | objStore (t o : ℕ)
  | objMerge (t o : ℕ)
  | thread (t : ℕ)
  | agent (n : ℕ)
  deriving DecidableEq, Repr

/-- The nodes of the cluster and where its threads run. -/
structure Config extends LogConfig where
  home : ℕ → ℕ
  home_lt : ∀ t, home t < nodeCount

variable (cfg : Config)

def initial : State where
  rings _ := LogManager.initial cfg.toLogConfig
  clock _ _ := 0
  headMtx _ := none
  threads _ := ⟨fun _ => 0, LocalCLTable.empty, 0, .idle⟩
  agents _ := .loop 0
  objs _ _ := 0
  trace := []

namespace State

/-- Replace the data of thread `t`. -/
def setThread (s : State) (t : ℕ) (th : Thread) : State := { s with threads := update s.threads t th }

/-- Move thread `t` to `pc`. -/
def setPc (s : State) (t : ℕ) (pc : ThreadPc) : State :=
  s.setThread t { s.threads t with pc := pc }

/-- Move the agent of node `n` to `pc`. -/
def setAgent (s : State) (n : ℕ) (pc : AgentPc) : State := { s with agents := update s.agents n pc }

/-- Record events. -/
def emit (s : State) (es : List Event) : State := { s with trace := s.trace ++ es }

/-- Replace the ring of node `i`. -/
def setRing (s : State) (i : ℕ) (r : LogManager.State) : State :=
  { s with rings := update s.rings i r }

/-- `update_clock` of node `n`. -/
def setClock (s : State) (n i clk : ℕ) : State :=
  { s with clock := update s.clock n (update (s.clock n) i clk) }

/-- Store to the log-head mutex of node `n`. -/
def setMtx (s : State) (n : ℕ) (p : Option Party) : State :=
  { s with headMtx := update s.headMtx n p }

/-- What a thread reads of its target. -/
def read (s : State) : Target → VectorClock
  | .copy c => c
  | .parent p => (s.threads p).clock

end State

/-- One step of the ring of node `i`. -/
def ringStep (s : State) (i : ℕ) (b : LogManager.Action) : Option State :=
  (LogManager.step cfg.toLogConfig i (flushesCache 0) (s.rings i) b).map (s.setRing i)

/-- The lines of a list of addresses. -/
def linesOf (addrs : List ℕ) : List ℕ := addrs.map (· >>> cacheLineShift)

/-- The events of copying an entry into the log. -/
def writebackEvents (t entry : ℕ) : List Event :=
  (linesOf (ThreadOps.writebackAddrs 0 entry)).map (.writeback t)

/-- The events of processing one entry. -/
def entryEvents (n entry : ℕ) : List Event :=
  if flushesCache 0 entry then [.wbinvd n] else (linesOf (eagerAddrs 0 entry)).map (.invalidate n)

/-- The events of the next step of node `n` as a consumer of ring `r` of node `i`. -/
def consEvents (n i : ℕ) (r : LogManager.State) : List Event :=
  match r.cons n with
  | .start _ _ => [.process n i (r.pub (LogManager.getIdx cfg.toLogConfig (r.subs n).head)).idx]
  | .process log _ k size => if k < size then entryEvents n ((r.buf log).entries k) else []
  | _ => []

/-- How `take_head` … `consume_head` ends when the next step ends it: without an entry, or with the
clock value of the entry if it is a release. -/
inductive Outcome
  | null
  | consumed (clk : Option ℕ)
  deriving DecidableEq, Repr

def consOutcome (n : ℕ) (r r' : LogManager.State) : Option Outcome :=
  match r.cons n with
  | .storeHead clk _ => some (.consumed clk)
  | .loadIdx _ => if r'.cons n = .idle then some .null else none
  | _ => none

/-- The next step of node `n` as a consumer of the ring of node `i`. -/
def consStep (s : State) (n i : ℕ) : Option (State × Option Outcome) :=
  (ringStep cfg s i (.cons n)).map fun s' =>
    (s'.emit (consEvents cfg n i (s.rings i)), consOutcome n (s.rings i) (s'.rings i))

/-- The next step of a thread in `thread_acquire`. -/
def stepHelp (s : State) (t : ℕ) (h : Help) : Option State :=
  let n := cfg.home t
  match h.stage with
  | .loop =>
      if h.i = 0 then
        if h.done then some (s.setPc t (.help { h with stage := .merge }))
        else some (s.setPc t (.help { h with done := true, i := cfg.nodeCount }))
      else
        let i := h.i - 1
        if h.nodeDone i ∨ i = n then some (s.setPc t (.help { h with i := i }))
        else some (s.setPc t (.help { h with i := i, stage := .check }))
  | .check => some (s.setPc t (.help { h with stage := .compare (s.clock n h.i) }))
  | .compare clk =>
      if s.read h.target h.i ≤ clk then
        some (s.setPc t (.help { h with nodeDone := update h.nodeDone h.i true, stage := .loop }))
      else some (s.setPc t (.help { h with stage := .isSubscribed }))
  | .isSubscribed =>
      if ((s.rings h.i).subs n).isSubbed then some (s.setPc t (.help { h with stage := .tryLock }))
      else some (s.setPc t
        (.help { h with nodeDone := update h.nodeDone h.i true, stage := .loop }))
  | .tryLock =>
      match s.headMtx n with
      | none => some ((s.setMtx n (some (.thread t))).setPc t (.help { h with stage := .readClk }))
      | some _ => some (s.setPc t (.help { h with done := false, stage := .loop }))
  | .readClk =>
      some (s.setPc t (.help { h with stage := .inner (s.clock n h.i) (s.clock n h.i) }))
  | .inner start clk =>
      if clk < s.read h.target h.i then some (s.setPc t (.help { h with stage := .take start clk }))
      else
        some ((s.setClock n h.i clk).setPc t
          (.help { h with nodeDone := update h.nodeDone h.i true, stage := .unlock }))
  | .take start clk =>
      (ringStep cfg s h.i (.takeHead n)).map fun s' =>
        s'.setPc t (.help { h with stage := .consuming start clk })
  | .consuming start clk =>
      (consStep cfg s n h.i).map fun (s', out) =>
        match out with
        | none => s'
        | some .null => s'.setPc t (.help { h with stage := .take start clk })
        | some (.consumed c) => s'.setPc t (.help { h with stage := .inner start (c.getD clk) })
  | .unlock => some ((s.setMtx n none).setPc t (.help { h with stage := .loop }))
  | .merge =>
      -- `thread_clock.merge(clock)`, one component at a time, and `thread_acquire` returns
      if h.i < cfg.nodeCount then
        let c := (s.threads t).clock
        some (s.setThread t { s.threads t with
          clock := c.assign h.i (max (c h.i) (s.read h.target h.i))
          pc := .help { h with i := h.i + 1 } })
      else some (s.setPc t .idle)

/-- The next step of thread `t`. -/
def stepThread (s : State) (t : ℕ) : Option State :=
  let i := cfg.home t
  match (s.threads t).pc with
  | .idle => none
  | .store cl => some ((s.emit [.store t cl]).setPc t .idle)
  | .getLog k =>
      match (s.rings i).prod t with
      | .idle => ringStep cfg s i (.getNewLog t)
      | .hold _ => some (s.setPc t (.fill k (s.threads t).dirtyCls.entries))
      | _ => ringStep cfg s i (.prod t)
  | .fill k [] =>
      (ringStep cfg s i (.produceTail t k.isRelease)).map fun s' => s'.setPc t (.produce k)
  | .fill k (entry :: rest) =>
      (ringStep cfg s i (.write t entry)).map fun s' =>
        (s'.emit (writebackEvents t entry)).setPc t (.fill k rest)
  | .produce k =>
      match (s.rings i).prod t with
      | .storeIdx _ _ j =>
          (ringStep cfg s i (.prod t)).map fun s' =>
            (s'.emit [.publish i j]).setPc t (.finish k (LogManager.incr j))
      | _ => ringStep cfg s i (.prod t)
  | .finish (.flush cl) _ =>
      some (s.setThread t { s.threads t with
        dirtyCls := (insert 0 LocalCLTable.empty cl).2
        pc := .store cl })
  | .finish .release clk =>
      some ((s.emit [.release t clk]).setThread t { s.threads t with
        dirtyCls := LocalCLTable.empty
        clock := (s.threads t).clock.assign i clk
        pc := .idle })
  | .help h => stepHelp cfg s t h

/-- The next step of the agent of node `n`. -/
def stepAgent (s : State) (n : ℕ) : Option State :=
  match s.agents n with
  | .loop i =>
      if cfg.nodeCount ≤ i then some (s.setAgent n (.loop 0))
      else if i = n ∨ ¬ ((s.rings i).subs n).isSubbed then some (s.setAgent n (.loop (i + 1)))
      else some (s.setAgent n (.tryLock i))
  | .tryLock i =>
      match s.headMtx n with
      | none => some ((s.setMtx n (some .agent)).setAgent n (.batch i 0 0))
      | some _ => some (s.setAgent n (.loop (i + 1)))
  | .batch i j clk =>
      if j < logMaxBatch then
        (ringStep cfg s i (.takeHead n)).map fun s' => s'.setAgent n (.consuming i j clk)
      else some (s.setAgent n (.update i clk))
  | .consuming i j clk =>
      (consStep cfg s n i).map fun (s', out) =>
        match out with
        | none => s'
        | some .null => s'.setAgent n (.update i clk)
        | some (.consumed c) => s'.setAgent n (.batch i (j + 1) (c.getD clk))
  | .update i clk =>
      if clk = 0 then some (s.setAgent n (.unlock i))
      else some ((s.setClock n i clk).setAgent n (.unlock i))
  | .unlock i => some ((s.setMtx n none).setAgent n (.loop (i + 1)))

/-- One step of the cluster; `none` when the action is not enabled. A call is enabled when the thread
is in no other call. `create` is the part of `rac_thread_create` after the release of the parent, and the
`thread_acquire` that the new thread begins with; a thread that has not run yet has new `ThreadOps`. -/
def step (s : State) : Action → Option State
  | .logStore t addr =>
      match (s.threads t).pc with
      | .idle =>
          let th := s.threads t
          let cl := addr >>> virtualClShift 0
          if cl = th.recentCl then some (s.setPc t (.store cl))
          else
            match insert 0 th.dirtyCls cl with
            | (false, table) =>
                some (s.setThread t { th with recentCl := cl, dirtyCls := table, pc := .store cl })
            | (true, table) =>
                some (s.setThread t
                  { th with recentCl := cl, dirtyCls := table, pc := .getLog (.flush cl) })
      | _ => none
  | .release t =>
      match (s.threads t).pc with
      | .idle =>
          if (s.threads t).recentCl = 0 then some s
          else some (s.setThread t { s.threads t with recentCl := 0, pc := .getLog .release })
      | _ => none
  | .acquire t o =>
      match (s.threads t).pc with
      | .idle => some (s.setPc t (.help ⟨.copy (s.objs o), false, fun _ => false, 0, .loop⟩))
      | _ => none
  | .create p c =>
      match (s.threads p).pc, (s.threads c).pc with
      | .idle, .idle =>
          if c ≠ p ∧ cfg.home c = cfg.home p then
            some (s.setPc c (.help ⟨.parent p, false, fun _ => false, 0, .loop⟩))
          else none
      | _, _ => none
  | .objStore t o =>
      match (s.threads t).pc with
      | .idle => some { s with objs := update s.objs o (s.threads t).clock }
      | _ => none
  | .objMerge t o =>
      match (s.threads t).pc with
      | .idle =>
          some { s with objs := update s.objs o ((s.objs o).merge (s.threads t).clock) }
      | _ => none
  | .thread t => stepThread cfg s t
  | .agent n => if n < cfg.nodeCount then stepAgent cfg s n else none

/-- The cluster as a transition system. -/
def machine : Machine State Action where
  init s := s = initial cfg
  step := step cfg

end Cluster

end RACoherence
