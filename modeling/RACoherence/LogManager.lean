import Mathlib.Logic.Function.Basic
import RACoherence.Config
import RACoherence.Lib.Machine
import RACoherence.Log

/-!
# The log ring of one node

Reference: `include/logManager.hpp`, `LogManager`, and for the consuming side the part of
`src/cacheAgent.cpp` and `help_consume` between `take_head` and `consume_head`.

The producers of the node `nid`, the consumers of all other nodes and the subscribers interleave at
single loads and stores of the shared members. Every thread, consumer and subscriber has a program
counter that also holds its local variables. `freelist` is a FIFO queue with atomic operations. Logs
are named by their position in `buf`; 32-bit arithmetic is modulo `idxRange`. The assertions of the
source are not checked, as in the release build.

The last four fields of the state are not in the program: the number of logs that `perform_gc` has
recycled, what was published under every index, which indices are published, and the value that the
last `add_subscriber` of a node returned.
-/

namespace RACoherence

open Function

namespace LogManager

/-- `PubEntry` -/
structure PubEntry where
  log : ℕ
  idx : ℕ
  isRel : Bool
  deriving DecidableEq, Repr

/-- `SubStatus` -/
structure SubStatus where
  head : ℕ
  isSubbed : Bool
  deriving DecidableEq, Repr

/-- Where a producer thread is in `get_new_log`, `perform_gc` or `produce_tail`. -/
inductive ProdPc
  | idle
  | tryDequeue
  | lockGc
  | retryDequeue
  | gcScan (i newB : ℕ) (subscribed : Bool)
  | gcHead (i newB : ℕ)
  | gcLoad (i newB : ℕ) (subscribed : Bool)
  | gcCheck (i newB log : ℕ)
  | gcEnqueue (i newB : ℕ) (subscribed : Bool) (log : ℕ)
  | gcStore (newB : ℕ)
  | lastDequeue
  | unlockGc (log : Option ℕ)
  | reset (log : ℕ)
  | hold (log : ℕ)
  | storeRel (log : ℕ) (r : Bool) (t : ℕ)
  | storeLog (log : ℕ) (r : Bool) (t : ℕ)
  | storeIdx (log : ℕ) (r : Bool) (t : ℕ)
  deriving DecidableEq, Repr

/-- Where the consumer of a node is between `take_head` and `consume_head`. The clock value of the
entry, when it is a release, is carried along as `clk`. -/
inductive ConsPc
  | idle
  | loadIdx (h : ℕ)
  | entry (slot : ℕ)
  | gotLog (slot log : ℕ)
  | gotRel (slot log : ℕ) (isRel : Bool)
  | start (log : ℕ) (clk : Option ℕ)
  | process (log : ℕ) (clk : Option ℕ) (i size : ℕ)
  | consume (clk : Option ℕ)
  | storeHead (clk : Option ℕ) (h : ℕ)
  deriving DecidableEq, Repr

/-- Where a node is in `add_subscriber`. -/
inductive SubPc
  | idle
  | loadTail
  | storeHead (t : ℕ)
  | recheck (t : ℕ)
  deriving DecidableEq, Repr

/-- What `produce_tail` published under an index. -/
structure Record where
  log : ℕ
  isRel : Bool
  content : Log

structure State where
  buf : ℕ → Log
  pub : ℕ → PubEntry
  tail : ℕ
  subs : ℕ → SubStatus
  gcMtx : Option ℕ
  freelist : List ℕ
  bound : ℕ
  prod : ℕ → ProdPc
  cons : ℕ → ConsPc
  sub : ℕ → SubPc
  freed : ℕ
  hist : ℕ → Record
  published : ℕ → Bool
  subBase : ℕ → ℕ

/-- One step of a party. -/
inductive Action
  | getNewLog (t : ℕ)
  | write (t e : ℕ)
  | produceTail (t : ℕ) (r : Bool)
  | prod (t : ℕ)
  | takeHead (n : ℕ)
  | cons (n : ℕ)
  | removeSubscriber (n : ℕ)
  | addSubscriber (n : ℕ)
  | sub (n : ℕ)
  deriving DecidableEq, Repr

variable (cfg : LogConfig) (nid : ℕ) (stops : ℕ → Bool)

/-- `next_round` -/
def nextRound (idx : ℕ) : ℕ := (idx + cfg.logCount) % idxRange

/-- `prev_round` -/
def prevRound (idx : ℕ) : ℕ := (idx + (idxRange - cfg.logCount)) % idxRange

/-- `get_idx` -/
def getIdx (idx : ℕ) : ℕ := idx &&& (cfg.logCount - 1)

/-- `x + 1` on `idx_t`. -/
def incr (idx : ℕ) : ℕ := (idx + 1) % idxRange

/-- A node other than the owner of the ring. -/
def Remote (n : ℕ) : Prop := n < cfg.nodeCount ∧ n ≠ nid

instance (n : ℕ) : Decidable (Remote cfg nid n) := inferInstanceAs (Decidable (_ ∧ _))

/-- The state after the constructor of `LogManager`. -/
def initial : State where
  buf _ := ⟨fun _ => 0, 0⟩
  pub k := ⟨k, 0, false⟩
  tail := 0
  subs _ := ⟨0, true⟩
  gcMtx := none
  freelist := List.range cfg.logCount
  bound := nextRound cfg 0
  prod _ := .idle
  cons _ := .idle
  sub _ := .idle
  freed := 0
  hist _ := ⟨0, false, ⟨fun _ => 0, 0⟩⟩
  published _ := false
  subBase _ := 0

/-- Move thread `t` to `pc`. -/
def State.setProd (s : State) (t : ℕ) (pc : ProdPc) : State := { s with prod := update s.prod t pc }

/-- Move the consumer of node `n` to `pc`. -/
def State.setCons (s : State) (n : ℕ) (pc : ConsPc) : State := { s with cons := update s.cons n pc }

/-- Move the subscriber of node `n` to `pc`. -/
def State.setSub (s : State) (n : ℕ) (pc : SubPc) : State := { s with sub := update s.sub n pc }

/-- `perform_gc` takes the log of the next slot and recycles it. -/
def State.take (s : State) : State := { s with freed := s.freed + 1 }

/-- The next step of a producer in `get_new_log` (with `perform_gc`) or `produce_tail`. -/
def stepProd (s : State) (t : ℕ) : Option State :=
  match s.prod t with
  | .idle | .hold _ => none
  | .tryDequeue =>
      match s.freelist with
      | [] => some (s.setProd t .lockGc)
      | log :: rest => some ({ s with freelist := rest }.setProd t (.reset log))
  | .lockGc =>
      match s.gcMtx with
      | none => some ({ s with gcMtx := some t }.setProd t .retryDequeue)
      | some _ => none
  | .retryDequeue =>
      match s.freelist with
      | [] => some (s.setProd t (.gcScan 0 (nextRound cfg s.bound) false))
      | log :: rest => some ({ s with freelist := rest }.setProd t (.unlockGc (some log)))
  | .gcScan i newB subscribed =>
      if i < cfg.nodeCount then
        if i ≠ nid ∧ (s.subs i).isSubbed then some (s.setProd t (.gcHead i newB))
        else some (s.setProd t (.gcScan (i + 1) newB subscribed))
      else some (s.setProd t (.gcLoad s.bound newB subscribed))
  | .gcHead i newB =>
      let h := nextRound cfg (s.subs i).head
      some (s.setProd t (.gcScan (i + 1) (if h < newB ∧ s.bound ≤ h then h else newB) true))
  | .gcLoad i newB subscribed =>
      if i = newB then some (s.setProd t (.gcStore newB))
      else
        let log := (s.pub (getIdx cfg i)).log
        if subscribed then some (s.take.setProd t (.gcEnqueue i newB true log))
        else some (s.setProd t (.gcCheck i newB log))
  | .gcCheck i newB log =>
      if (s.pub (getIdx cfg i)).idx = incr (prevRound cfg i) then
        some (s.take.setProd t (.gcEnqueue i newB false log))
      else some (s.setProd t (.gcStore i))
  | .gcEnqueue i newB subscribed log =>
      some ({ s with freelist := s.freelist ++ [log] }.setProd t (.gcLoad (incr i) newB subscribed))
  | .gcStore newB => some ({ s with bound := newB }.setProd t .lastDequeue)
  | .lastDequeue =>
      match s.freelist with
      | [] => some (s.setProd t (.unlockGc none))
      | log :: rest => some ({ s with freelist := rest }.setProd t (.unlockGc (some log)))
  | .unlockGc none => some ({ s with gcMtx := none }.setProd t .idle)
  | .unlockGc (some log) => some ({ s with gcMtx := none }.setProd t (.reset log))
  | .reset log =>
      some ({ s with buf := update s.buf log (s.buf log).reset }.setProd t (.hold log))
  | .storeRel log r j =>
      let k := getIdx cfg j
      some ({ s with pub := update s.pub k { s.pub k with isRel := r } }.setProd t (.storeLog log r j))
  | .storeLog log r j =>
      let k := getIdx cfg j
      some ({ s with pub := update s.pub k { s.pub k with log := log } }.setProd t (.storeIdx log r j))
  | .storeIdx _ _ j =>
      let k := getIdx cfg j
      some ({ s with
        pub := update s.pub k { s.pub k with idx := incr j }
        published := update s.published j true }.setProd t .idle)

/-- The next step of the consumer of node `n`. -/
def stepCons (s : State) (n : ℕ) : Option State :=
  match s.cons n with
  | .idle => none
  | .loadIdx h =>
      if (s.pub (getIdx cfg h)).idx = incr h then some (s.setCons n (.entry (getIdx cfg h)))
      else some (s.setCons n .idle)
  | .entry k => some (s.setCons n (.gotLog k (s.pub k).log))
  | .gotLog k log => some (s.setCons n (.gotRel k log (s.pub k).isRel))
  | .gotRel k log isRel =>
      some (s.setCons n (.start log (if isRel then some (s.pub k).idx else none)))
  | .start log clk => some (s.setCons n (.process log clk 0 (s.buf log).size))
  | .process log clk i size =>
      if i < size ∧ ¬ stops ((s.buf log).entries i) then
        some (s.setCons n (.process log clk (i + 1) size))
      else some (s.setCons n (.consume clk))
  | .consume clk => some (s.setCons n (.storeHead clk (s.subs n).head))
  | .storeHead _ h =>
      some ({ s with subs := update s.subs n { s.subs n with head := incr h } }.setCons n .idle)

/-- The next step of `add_subscriber(n)`. -/
def stepSub (s : State) (n : ℕ) : Option State :=
  match s.sub n with
  | .idle => none
  | .loadTail => some (s.setSub n (.storeHead s.tail))
  | .storeHead t =>
      some ({ s with subs := update s.subs n { s.subs n with head := t } }.setSub n (.recheck t))
  | .recheck t =>
      if nextRound cfg t < s.tail then some (s.setSub n (.storeHead s.tail))
      else some ({ s with subBase := update s.subBase n t }.setSub n .idle)

/-- One step of the ring; `none` when the action is not enabled. -/
def step (s : State) : Action → Option State
  | .getNewLog t => if s.prod t = .idle then some (s.setProd t .tryDequeue) else none
  | .write t e =>
      match s.prod t with
      | .hold log => some { s with buf := update s.buf log ((s.buf log).write e) }
      | _ => none
  | .produceTail t r =>
      match s.prod t with
      | .hold log =>
          some ({ s with
            tail := incr s.tail
            hist := update s.hist s.tail ⟨log, r, s.buf log⟩ }.setProd t (.storeRel log r s.tail))
      | _ => none
  | .prod t => stepProd cfg nid s t
  | .takeHead n =>
      if Remote cfg nid n ∧ s.cons n = .idle then some (s.setCons n (.loadIdx (s.subs n).head))
      else none
  | .cons n => stepCons cfg stops s n
  | .removeSubscriber n =>
      if Remote cfg nid n ∧ s.sub n = .idle ∧ (s.subs n).isSubbed then
        some { s with subs := update s.subs n { s.subs n with isSubbed := false } }
      else none
  | .addSubscriber n =>
      if Remote cfg nid n ∧ s.sub n = .idle ∧ ¬ (s.subs n).isSubbed then
        some ({ s with subs := update s.subs n { s.subs n with isSubbed := true } }.setSub n .loadTail)
      else none
  | .sub n => stepSub cfg s n

/-- The ring of node `nid` as a transition system. -/
def machine : Machine State Action where
  init s := s = initial cfg
  step := step cfg nid stops

end LogManager

end RACoherence
