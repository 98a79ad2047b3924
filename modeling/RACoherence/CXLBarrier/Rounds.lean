import RACoherence.CXLAtomic.ReleaseSequence
import RACoherence.CXLBarrier
import RACoherence.Lib.CountingBarrier

/-!
# The barrier counts arrivals

`wait` refines the barrier of `CountingBarrier`: `arrived` holds the count, `phase` the number of
opened rounds, and the values that threads get from them go through a `char`. That does no harm to the
phase, which is only compared with itself, but the count must not exceed what a `char` can hold: the
last of more than 128 threads does not recognise itself.
-/

namespace RACoherence

open Function CXLAtomic CountingBarrier

namespace CXLBarrier

/-! ## Values through a `char` -/

theorem toInt_retVal (x : ℕ) : (retVal true (BitVec.ofNat 32 x)).toInt = (x : ℤ).bmod 256 := by
  have hset : (BitVec.ofNat 32 x).setWidth 8 = BitVec.ofNat 8 x := by simp
  rw [retVal, if_pos rfl, hset, BitVec.toInt_signExtend_of_le (by decide),
    BitVec.toInt_eq_toNat_bmod, BitVec.toNat_ofNat]
  simp only [Int.bmod_def]
  omega

/-- The comparison with `target` of the thread that has counted itself after `x` others. -/
theorem eq_target_iff {N x : ℕ} (hN : N < 2 ^ 31) (hx : x < N) :
    retVal true (BitVec.ofNat 32 x) + 1 = BitVec.ofNat 32 N ↔ x + 1 = N ∧ N ≤ 128 := by
  have hone : (1 : BitVec 32).toInt = 1 := by decide
  rw [← BitVec.toInt_inj, BitVec.toInt_add, toInt_retVal, hone, BitVec.toInt_eq_toNat_bmod,
    BitVec.toNat_ofNat]
  simp only [Int.bmod_def]
  omega

/-! ## The transitions -/

variable (home : ℕ → ℕ) (N : ℕ)

/-- The transitions of the barrier. -/
inductive Step (s : State) : Action → State → Prop
  | between {t cl : ℕ} {c : VectorClock} : s.pc t = .idle →
      Step s (.between t c cl) { s with
        sync := s.sync.setThread t { s.sync.threads t with threadClock := c, recentCl := cl } }
  | wait {t : ℕ} : t < N → s.pc t = .idle →
      Step s (.wait t) (s.call t .loadPhase phase .load .acquire)
  | arrive {t clk : ℕ} : (s.sync.threads t).code = [] → s.pc t = .loadPhase →
      Step s (.thread t clk)
        (s.call t (.arrive (s.sync.threads t).ret) arrived (.fetchAdd 1) .acqRel)
  | compare {t clk : ℕ} {lp : BitVec 32} : (s.sync.threads t).code = [] → s.pc t = .arrive lp →
      Step s (.thread t clk)
        (s.call t (.loadTarget lp ((s.sync.threads t).ret + 1)) target .load .relaxed)
  | close {t clk : ℕ} {lp : BitVec 32} : (s.sync.threads t).code = [] →
      s.pc t = .loadTarget lp (s.sync.threads t).ret →
      Step s (.thread t clk) ((s.decide t true).call t .reset arrived (.store 0) .relaxed)
  | await {t clk : ℕ} {lp la : BitVec 32} : (s.sync.threads t).code = [] →
      s.pc t = .loadTarget lp la → la ≠ (s.sync.threads t).ret →
      Step s (.thread t clk) ((s.decide t false).call t (.spin lp) phase .load .acquire)
  | add {t clk : ℕ} : (s.sync.threads t).code = [] → s.pc t = .reset →
      Step s (.thread t clk) (s.call t .addPhase phase (.fetchAdd 1) .acqRel)
  | again {t clk : ℕ} {lp : BitVec 32} : (s.sync.threads t).code = [] → s.pc t = .spin lp →
      (s.sync.threads t).ret = lp →
      Step s (.thread t clk) (s.call t (.spin lp) phase .load .acquire)
  | leaveClosed {t clk : ℕ} : (s.sync.threads t).code = [] → s.pc t = .addPhase →
      Step s (.thread t clk) (s.leave t)
  | leaveSpin {t clk : ℕ} {lp : BitVec 32} : (s.sync.threads t).code = [] → s.pc t = .spin lp →
      (s.sync.threads t).ret ≠ lp → Step s (.thread t clk) (s.leave t)
  | exec {t clk : ℕ} {i : Instr 32} {rest : List (Instr 32)} {sync : CXLAtomic.State 32} :
      (s.sync.threads t).code = i :: rest → CXLAtomic.exec home s.sync t clk rest i = some sync →
      Step s (.thread t clk) { if isArrival (s.pc t) i then s.arriveAt t else s with sync := sync }

variable {home N} {s s' : State}

theorem step_cases {a : Action} (hs : step home N s a = some s') : Step home N s a s' := by
  cases a with
  | between t c cl =>
      simp only [step] at hs
      split at hs <;> cases hs
      exact .between ‹_›
  | wait t =>
      simp only [step] at hs
      split at hs <;> cases hs
      rename_i h
      exact .wait h.1 h.2
  | thread t clk =>
      simp only [step] at hs
      split at hs
      · rename_i hcode
        unfold control at hs
        dsimp only at hs
        split at hs
        · cases hs
        · cases hs
          exact .arrive hcode ‹_›
        · cases hs
          exact .compare hcode ‹_›
        · rename_i hpc
          split at hs <;> cases hs
          · rename_i heq
            subst heq
            exact .close hcode hpc
          · exact .await hcode hpc ‹_›
        · cases hs
          exact .add hcode ‹_›
        · cases hs
          exact .leaveClosed hcode ‹_›
        · rename_i hpc
          split at hs <;> cases hs
          · exact .again hcode hpc ‹_›
          · exact .leaveSpin hcode hpc ‹_›
      · rename_i hcode
        obtain ⟨sync, hexec, rfl⟩ := Option.map_eq_some_iff.mp hs
        exact .exec hcode hexec

/-! ## The simulation -/

/-- The operation that a thread is in. -/
def Calls (th : Thread 32) (l : ℕ) (op : Op 32) (order : MemoryOrder) : Prop :=
  th.loc = l ∧ th.op = op ∧ th.order = order

/-- Where a thread of the program is in its round. -/
def stageOf : Pc → List (Instr 32) → Stage
  | .idle, _ | .loadPhase, _ => .out
  | .arrive _, is => if .fetchAdd 1 true ∈ is then .out else .arrived
  | .loadTarget _ _, _ | .spin _, _ => .arrived
  | .reset, is => if is = [] then .cleared else .closing
  | .addPhase, is => if .fetchAdd 1 true ∈ is then .cleared else .opened

/-- What the local variables of a thread are in round `r`, in which it has the ticket `ticket`, when
`K` rounds are opened. -/
def PcOk (N : ℕ) (th : Thread 32) (r : ℕ) (ticket : Option ℕ) (K : ℕ) : Pc → Prop
  | .idle => th.code = []
  | .loadPhase => Calls th phase .load .acquire ∧
      (.load true ∉ th.code → th.ret = retVal true (BitVec.ofNat 32 r))
  | .arrive lp => Calls th arrived (.fetchAdd 1) .acqRel ∧ lp = retVal true (BitVec.ofNat 32 r) ∧
      (.fetchAdd 1 true ∉ th.code →
        ∃ x, ticket = some x ∧ th.ret = retVal true (BitVec.ofNat 32 x))
  | .loadTarget lp la => Calls th target .load .relaxed ∧ lp = retVal true (BitVec.ofNat 32 r) ∧
      (∃ x, ticket = some x ∧ la = retVal true (BitVec.ofNat 32 x) + 1) ∧
      (th.code = [] → th.ret = BitVec.ofNat 32 N)
  | .reset => Calls th arrived (.store 0) .relaxed ∧ ticket = some (N - 1)
  | .addPhase => Calls th phase (.fetchAdd 1) .acqRel ∧ ticket = some (N - 1)
  | .spin lp => Calls th phase .load .acquire ∧ lp = retVal true (BitVec.ofNat 32 r) ∧
      (.load true ∉ th.code → th.ret ≠ lp → r < K)

/-- The program and the counting barrier agree. -/
structure Sim (N : ℕ) (s : State) (b : CountingBarrier.State) : Prop where
  sync : CXLAtomic.Inv s.sync
  ok : Ok N b
  round : b.round = s.round
  stage : ∀ t, b.stage t = stageOf (s.pc t) (s.sync.threads t).code
  target : (s.sync.atomics target).data = BitVec.ofNat 32 N
  arrived : (s.sync.atomics arrived).data = BitVec.ofNat 32 b.count
  phase : (s.sync.atomics phase).data = BitVec.ofNat 32 b.opened
  participant : ∀ t, s.pc t ≠ .idle → t < N
  pc : ∀ t, PcOk N (s.sync.threads t) (s.round t) (b.ticket t (s.round t)) b.opened (s.pc t)
  decided : ∀ t k d, s.decided t k = some d →
    ∃ x, b.ticket t k = some x ∧ (d = true ↔ x + 1 = N ∧ N ≤ 128)
  arrival : ∀ t k, (s.arrival t k).isSome = (b.ticket t k).isSome

theorem PcOk.mono {th : Thread 32} {r K K' : ℕ} {ticket : Option ℕ} {pc : Pc}
    (h : PcOk N th r ticket K pc) (hK : K ≤ K') : PcOk N th r ticket K' pc := by
  cases pc with
  | spin lp => exact ⟨h.1, h.2.1, fun hl hne => (h.2.2 hl hne).trans_le hK⟩
  | _ => exact h

variable {b b' : CountingBarrier.State} {t clk : ℕ}

theorem move_self {st : Stage} (h : b.stage t = st) : b.move t st = b := by
  simp [CountingBarrier.State.move, ← h]

/-- The step increments `phase`. -/
def Opens (s : State) : Action → Prop
  | .thread t _ => s.pc t = .addPhase ∧ ∃ rest, (s.sync.threads t).code = .fetchAdd 1 true :: rest
  | _ => False

/-- How the counting barrier moves along with a step: tickets stay, and only the increment of `phase`
opens a round. -/
structure Grows (s : State) (a : Action) (b b' : CountingBarrier.State) : Prop where
  ticket : ∀ u k x, b.ticket u k = some x → b'.ticket u k = some x
  opens : Opens s a → b'.opened = b.opened + 1
  same : ¬ Opens s a → b'.opened = b.opened

theorem Grows.of_not_opens {a : Action} (h : ¬ Opens s a)
    (hticket : ∀ u k x, b.ticket u k = some x → b'.ticket u k = some x)
    (hopened : b'.opened = b.opened) : Grows s a b b' :=
  ⟨hticket, fun ho => absurd ho h, fun _ => hopened⟩

namespace Sim

/-- A thread between two operations starts the next one. -/
theorem call (h : Sim N s b) {pc : Pc} {l : ℕ} {op : Op 32} {order : MemoryOrder}
    (hcode : (s.sync.threads t).code = []) (ht : t < N)
    (hok : Ok N (b.move t (stageOf pc (code op order))))
    (hpc : PcOk N ((s.sync.threads t).call l op order) (s.round t) (b.ticket t (s.round t)) b.opened pc) :
    Sim N (s.call t pc l op order) (b.move t (stageOf pc (code op order))) where
  sync := by
    refine h.sync.begin hcode (fun a => ⟨List.suffix_rfl, fun _ _ => rfl, ?_, ?_, ?_⟩)
      (not_inSection_code op order)
    · exact fun hsec => absurd hsec (not_inSection_code op order)
    · exact fun _ _ c hc => absurd hc id
    · exact fun _ c hc => absurd hc id
  ok := hok
  round := h.round
  stage u := by
    have := h.stage u
    simp only [State.call, CountingBarrier.State.move, CXLAtomic.State.setThread, update_apply]
    split <;> simp_all [Thread.call]
  target := h.target
  arrived := h.arrived
  phase := h.phase
  participant u hu := by
    by_cases hut : u = t
    · exact hut ▸ ht
    · refine h.participant u ?_
      simpa [State.call, hut] using hu
  pc u := by
    have := h.pc u
    simp only [State.call, CountingBarrier.State.move, CXLAtomic.State.setThread, update_apply]
    split
    · rename_i hu
      subst hu
      exact hpc
    · exact this
  decided := h.decided
  arrival := h.arrival

theorem decide (h : Sim N s b) {d : Bool} {x : ℕ} (hx : b.ticket t (s.round t) = some x)
    (hd : d = true ↔ x + 1 = N ∧ N ≤ 128) : Sim N (s.decide t d) b where
  sync := h.sync
  ok := h.ok
  round := h.round
  stage := h.stage
  target := h.target
  arrived := h.arrived
  phase := h.phase
  participant := h.participant
  pc := h.pc
  decided u k e he := by
    simp only [State.decide, update_apply] at he
    have := h.decided u k e
    grind
  arrival := h.arrival

/-- `wait` returns. -/
theorem leave (h : Sim N s b) (hcode : (s.sync.threads t).code = []) (ht : t < N)
    (hst : b.stage t = .opened ∨ (b.stage t = .arrived ∧ b.round t < b.opened)) :
    Sim N (s.leave t) ({ b with round := update b.round t (b.round t + 1) }.move t .out) where
  sync := h.sync
  ok := h.ok.leave ht hst
  round := by
    have := h.round
    simp only [State.leave, CountingBarrier.State.move, this]
  stage u := by
    have := h.stage u
    simp only [State.leave, CountingBarrier.State.move, update_apply]
    split <;> simp_all [stageOf]
  target := h.target
  arrived := h.arrived
  phase := h.phase
  participant u hu := by
    by_cases hut : u = t
    · exact hut ▸ ht
    · refine h.participant u ?_
      simpa [State.leave, hut] using hu
  pc u := by
    have := h.pc u
    simp only [State.leave, CountingBarrier.State.move, update_apply]
    split
    · rename_i hu
      subst hu
      exact hcode
    · exact this
  decided := h.decided
  arrival := h.arrival

/-- An access of thread `t` that the counting barrier follows with a step of `t` or with nothing. -/
theorem exec (h : Sim N s b) {i : Instr 32} {rest : List (Instr 32)} {sync : CXLAtomic.State 32}
    (hcode : (s.sync.threads t).code = i :: rest)
    (hs : CXLAtomic.exec home s.sync t clk rest i = some sync) (hok : Ok N b')
    (hround : b'.round = b.round) (hstage : b'.stage = update b.stage t (stageOf (s.pc t) rest))
    (hticket : ∀ u k, u ≠ t ∨ k ≠ s.round t → b'.ticket u k = b.ticket u k)
    (hkeep : ∀ x, b.ticket t (s.round t) = some x → b'.ticket t (s.round t) = some x)
    (hopened : b.opened ≤ b'.opened)
    (htarget : (sync.atomics CXLBarrier.target).data = BitVec.ofNat 32 N)
    (harrived : (sync.atomics CXLBarrier.arrived).data = BitVec.ofNat 32 b'.count)
    (hphase : (sync.atomics CXLBarrier.phase).data = BitVec.ofNat 32 b'.opened)
    (hpc : PcOk N (sync.threads t) (s.round t) (b'.ticket t (s.round t)) b'.opened (s.pc t))
    (harrival : (b'.ticket t (s.round t)).isSome =
      ((b.ticket t (s.round t)).isSome || isArrival (s.pc t) i)) :
    Sim N { if isArrival (s.pc t) i then s.arriveAt t else s with sync := sync } b' := by
  obtain ⟨hother, -, hrest, -⟩ := exec_frame hs
  have hpcs : (if isArrival (s.pc t) i then s.arriveAt t else s).pc = s.pc := by split <;> rfl
  have hrounds : (if isArrival (s.pc t) i then s.arriveAt t else s).round = s.round := by
    split <;> rfl
  have hdecided : (if isArrival (s.pc t) i then s.arriveAt t else s).decided = s.decided := by
    split <;> rfl
  refine ⟨h.sync.exec hcode hs, hok, ?round, fun u => ?stage, htarget, harrived, hphase,
    ?participant, fun u => ?pc, ?decided, fun u k => ?arrival⟩
  case round =>
    rw [hround, h.round]
    exact hrounds.symm
  case stage =>
    have := h.stage u
    simp only [hstage, hpcs, update_apply]
    split
    · rename_i hu
      rw [hu, hrest]
    · rename_i hu
      rw [hother u hu, this]
  case participant =>
    simpa only [hpcs] using h.participant
  case pc =>
    simp only [hpcs, hrounds]
    by_cases hu : u = t
    · subst hu
      exact hpc
    · rw [hother u hu, hticket u _ (.inl hu)]
      exact (h.pc u).mono hopened
  case decided =>
    intro u k d hd
    simp only [hdecided] at hd
    obtain ⟨x, hx, hxd⟩ := h.decided u k d hd
    refine ⟨x, ?_, hxd⟩
    by_cases hpos : u ≠ t ∨ k ≠ s.round t
    · rw [hticket u k hpos, hx]
    · push Not at hpos
      obtain ⟨rfl, rfl⟩ := hpos
      exact hkeep x hx
  case arrival =>
    have hold := h.arrival u k
    by_cases hpos : u ≠ t ∨ k ≠ s.round t
    · rw [hticket u k hpos, ← hold]
      simp only
      split
      · simp only [State.arriveAt, update_apply]
        grind
      · rfl
    · push Not at hpos
      obtain ⟨rfl, rfl⟩ := hpos
      rw [harrival, ← hold]
      simp only
      split
      · rename_i harr
        simp [State.arriveAt, harr]
      · rename_i harr
        simp [harr]

section Exec

variable {i : Instr 32} {rest : List (Instr 32)} {sync : CXLAtomic.State 32}

/-- An access that writes no value is nothing to the counting barrier. -/
theorem exec_quiet (h : Sim N s b) (hcode : (s.sync.threads t).code = i :: rest)
    (hs : CXLAtomic.exec home s.sync t clk rest i = some sync)
    (hdata : ∀ v : BitVec 32, i.dataAfter v = v)
    (hstage : stageOf (s.pc t) rest = stageOf (s.pc t) (i :: rest))
    (harr : isArrival (s.pc t) i = false)
    (hpc : PcOk N (sync.threads t) (s.round t) (b.ticket t (s.round t)) b.opened (s.pc t)) :
    Sim N { if isArrival (s.pc t) i then s.arriveAt t else s with sync := sync } b := by
  have hsame : ∀ l, (sync.atomics l).data = (s.sync.atomics l).data := fun l => by
    rw [exec_data hs l, hdata]
    split <;> rfl
  refine h.exec hcode hs h.ok rfl ?_ (fun _ _ _ => rfl) (fun _ => id) le_rfl ?_ ?_ ?_ hpc ?_
  · rw [hstage, ← hcode, ← h.stage t, update_eq_self]
  · rw [hsame, h.target]
  · rw [hsame, h.arrived]
  · rw [hsame, h.phase]
  · simp [harr]

/-- The accesses of an acquire load. -/
theorem load_cases (h : Sim N s b) (hcode : (s.sync.threads t).code = i :: rest)
    (hop : (s.sync.threads t).op = .load) (horder : (s.sync.threads t).order = .acquire) :
    (∀ v : BitVec 32, i.dataAfter v = v) ∧ (i = .load true ∨
      ((∀ v ret : BitVec 32, i.retAfter v ret = ret) ∧ (.load true ∉ rest → .load true ∉ i :: rest))) := by
  have hsuf := (h.sync.thread t).suffix
  rw [hcode, hop, horder] at hsuf
  simp only [code, List.suffix_cons_iff, List.suffix_nil, List.cons.injEq, reduceCtorEq, or_false,
    or_true, if_true] at hsuf
  rcases hsuf with ⟨rfl, rfl⟩ | ⟨rfl, rfl⟩ | ⟨rfl, rfl⟩ | ⟨rfl, rfl⟩ | ⟨rfl, rfl⟩ <;>
    simp [Instr.dataAfter, Instr.retAfter]

/-- The accesses of an `acq_rel` `fetch_add`. -/
theorem fetchAdd_cases (h : Sim N s b) (hcode : (s.sync.threads t).code = i :: rest)
    (hop : (s.sync.threads t).op = .fetchAdd 1) (horder : (s.sync.threads t).order = .acqRel) :
    (i = .fetchAdd 1 true ∧ .fetchAdd 1 true ∉ rest) ∨ ((∀ v : BitVec 32, i.dataAfter v = v) ∧
      (∀ v ret : BitVec 32, i.retAfter v ret = ret) ∧
      (.fetchAdd 1 true ∈ rest ↔ .fetchAdd 1 true ∈ i :: rest) ∧
      ∀ pc, isArrival pc i = false) := by
  have hsuf := (h.sync.thread t).suffix
  rw [hcode, hop, horder] at hsuf
  simp only [code, List.suffix_cons_iff, List.suffix_nil, List.cons.injEq, reduceCtorEq, or_false,
    or_true, if_true] at hsuf
  rcases hsuf with ⟨rfl, rfl⟩ | ⟨rfl, rfl⟩ | ⟨rfl, rfl⟩ | ⟨rfl, rfl⟩ | ⟨rfl, rfl⟩ | ⟨rfl, rfl⟩ |
    ⟨rfl, rfl⟩ <;> simp [Instr.dataAfter, Instr.retAfter, isArrival]

theorem calls_exec {l : ℕ} {op : Op 32} {order : MemoryOrder}
    (h : Calls (s.sync.threads t) l op order)
    (hs : CXLAtomic.exec home s.sync t clk rest i = some sync) :
    Calls (sync.threads t) l op order := by
  obtain ⟨-, -, -, hloc, hop, horder⟩ := exec_frame hs
  exact ⟨hloc.trans h.1, hop.trans h.2.1, horder.trans h.2.2⟩

theorem exec_loadPhase (h : Sim N s b) (hpc : s.pc t = .loadPhase)
    (hcode : (s.sync.threads t).code = i :: rest)
    (hs : CXLAtomic.exec home s.sync t clk rest i = some sync) :
    Sim N { if isArrival (s.pc t) i then s.arriveAt t else s with sync := sync } b := by
  obtain ⟨hcalls, hret⟩ : _ ∧ _ := by simpa only [hpc, PcOk] using h.pc t
  have ht := h.participant t (by simp [hpc])
  obtain ⟨hdata, hcases⟩ := h.load_cases hcode hcalls.2.1 hcalls.2.2
  refine h.exec_quiet hcode hs hdata (by simp [hpc, stageOf]) (by simp [hpc, isArrival]) ?_
  rw [hpc]
  refine ⟨calls_exec hcalls hs, fun hnot => ?_⟩
  rw [exec_ret hs, hcalls.1]
  rw [(exec_frame hs).2.2.1] at hnot
  rcases hcases with rfl | ⟨hsame, hmem⟩
  · have hout : b.round t = b.opened := h.ok.out t ht (by rw [h.stage, hpc]; rfl)
    rw [Instr.retAfter, h.phase, ← hout, h.round]
  · rw [hsame]
    exact hret (hcode ▸ hmem hnot)

theorem exec_spin (h : Sim N s b) {lp : BitVec 32} (hpc : s.pc t = .spin lp)
    (hcode : (s.sync.threads t).code = i :: rest)
    (hs : CXLAtomic.exec home s.sync t clk rest i = some sync) :
    Sim N { if isArrival (s.pc t) i then s.arriveAt t else s with sync := sync } b := by
  obtain ⟨hcalls, hlp, hret⟩ : _ ∧ _ ∧ _ := by simpa only [hpc, PcOk] using h.pc t
  have ht := h.participant t (by simp [hpc])
  obtain ⟨hdata, hcases⟩ := h.load_cases hcode hcalls.2.1 hcalls.2.2
  refine h.exec_quiet hcode hs hdata (by simp [hpc, stageOf]) (by simp [hpc, isArrival]) ?_
  rw [hpc]
  refine ⟨calls_exec hcalls hs, hlp, fun hnot hne => ?_⟩
  rw [exec_ret hs, hcalls.1] at hne
  rw [(exec_frame hs).2.2.1] at hnot
  rcases hcases with rfl | ⟨hsame, hmem⟩
  · -- the phase it reads is not the one of its own round
    have hbounds := h.ok.bounds t ht
    rw [h.round] at hbounds
    refine lt_of_le_of_ne hbounds.1 fun heq => hne ?_
    rw [Instr.retAfter, h.phase, hlp, heq]
  · rw [hsame] at hne
    exact hret (hcode ▸ hmem hnot) hne

theorem exec_loadTarget (h : Sim N s b) {lp la : BitVec 32} (hpc : s.pc t = .loadTarget lp la)
    (hcode : (s.sync.threads t).code = i :: rest)
    (hs : CXLAtomic.exec home s.sync t clk rest i = some sync) :
    Sim N { if isArrival (s.pc t) i then s.arriveAt t else s with sync := sync } b := by
  obtain ⟨hcalls, hlp, hticket, -⟩ : _ ∧ _ ∧ _ ∧ _ := by simpa only [hpc, PcOk] using h.pc t
  have hsuf := (h.sync.thread t).suffix
  rw [hcode, hcalls.2.1, hcalls.2.2] at hsuf
  obtain ⟨rfl, rfl⟩ : i = .load false ∧ rest = [] := by
    simpa [code, List.suffix_cons_iff] using hsuf
  refine h.exec_quiet hcode hs (fun _ => rfl) (by simp [hpc, stageOf]) (by simp [hpc, isArrival]) ?_
  rw [hpc]
  refine ⟨calls_exec hcalls hs, hlp, hticket, fun _ => ?_⟩
  rw [exec_ret hs, hcalls.1, Instr.retAfter, h.target]
  rfl

/-- The arrival. -/
theorem exec_arrive (h : Sim N s b) {lp : BitVec 32} (hpc : s.pc t = .arrive lp)
    (hcode : (s.sync.threads t).code = i :: rest)
    (hs : CXLAtomic.exec home s.sync t clk rest i = some sync) :
    ∃ b', Sim N { if isArrival (s.pc t) i then s.arriveAt t else s with sync := sync } b' ∧
      Grows s (.thread t clk) b b' := by
  obtain ⟨hcalls, hlp, hret⟩ : _ ∧ _ ∧ _ := by simpa only [hpc, PcOk] using h.pc t
  have ht := h.participant t (by simp [hpc])
  have hrest := (exec_frame hs).2.2.1
  rcases h.fetchAdd_cases hcode hcalls.2.1 hcalls.2.2 with ⟨rfl, hnot⟩ | ⟨hdata, hsame, hmem, harr⟩
  · have hout : b.stage t = .out := by rw [h.stage, hpc, hcode]; simp [stageOf]
    have hround : b.round t = s.round t := congrFun h.round t
    have hnone : b.ticket t (s.round t) = none := by
      have := (h.ok.has t ht (s.round t)).not.mpr (by simp [hround, hout])
      simpa using this
    have hnew : ((b.takeTicket t).move t .arrived).ticket t (s.round t) = some b.count := by
      simp [CountingBarrier.State.takeTicket, CountingBarrier.State.move, hround]
    have hkeep : ∀ u k, u ≠ t ∨ k ≠ s.round t →
        ((b.takeTicket t).move t .arrived).ticket u k = b.ticket u k := by
      intro u k hpos
      simp only [CountingBarrier.State.takeTicket, CountingBarrier.State.move, hround, update_apply]
      grind
    refine ⟨(b.takeTicket t).move t .arrived, h.exec hcode hs (h.ok.arrive ht hout) rfl ?_ hkeep ?_
      le_rfl ?_ ?_ ?_ ?_ ?_, .of_not_opens (by simp [Opens, hpc]) (fun u k x hx => ?_) rfl⟩
    · rw [hpc, stageOf, if_neg hnot]
      rfl
    · intro x hx
      rw [hnone] at hx
      cases hx
    · rw [exec_data hs, hcalls.1, if_neg (by decide), h.target]
    · rw [exec_data hs, hcalls.1, if_pos rfl, h.arrived]
      exact (BitVec.ofNat_add (n := 32) b.count 1).symm
    · rw [exec_data hs, hcalls.1, if_neg (by decide), h.phase]
      rfl
    · rw [hpc]
      refine ⟨calls_exec hcalls hs, hlp, fun _ => ⟨b.count, hnew, ?_⟩⟩
      rw [exec_ret hs, hcalls.1, Instr.retAfter, h.arrived]
    · rw [hnew, hpc]
      simp [isArrival]
    · rw [hkeep u k, hx]
      by_contra hpos
      push Not at hpos
      rw [hpos.1, hpos.2, hnone] at hx
      cases hx
  · refine ⟨b, h.exec_quiet hcode hs hdata ?_ (harr _) ?_,
      .of_not_opens (by simp [Opens, hpc]) (fun _ _ _ => id) rfl⟩
    · rw [hpc]
      simp only [stageOf, hmem]
    · rw [hpc]
      refine ⟨calls_exec hcalls hs, hlp, fun hnot => ?_⟩
      rw [exec_ret hs, hsame]
      rw [hrest, hmem, ← hcode] at hnot
      exact hret hnot

/-- The reset of `arrived`. -/
theorem exec_reset (h : Sim N s b) (hpc : s.pc t = .reset)
    (hcode : (s.sync.threads t).code = i :: rest)
    (hs : CXLAtomic.exec home s.sync t clk rest i = some sync) :
    ∃ b', Sim N { if isArrival (s.pc t) i then s.arriveAt t else s with sync := sync } b' ∧
      Grows s (.thread t clk) b b' := by
  obtain ⟨hcalls, hticket⟩ : _ ∧ _ := by simpa only [hpc, PcOk] using h.pc t
  have ht := h.participant t (by simp [hpc])
  have hsuf := (h.sync.thread t).suffix
  rw [hcode, hcalls.2.1, hcalls.2.2] at hsuf
  obtain ⟨rfl, rfl⟩ : i = .store 0 ∧ rest = [] := by
    simpa [code, List.suffix_cons_iff] using hsuf
  have hst : b.stage t = .closing := by rw [h.stage, hpc, hcode]; simp [stageOf]
  refine ⟨{ b with count := 0 }.move t .cleared, h.exec hcode hs (h.ok.clear ht hst) rfl ?_
    (fun _ _ _ => rfl) (fun _ => id) le_rfl ?_ ?_ ?_ ?_ ?_,
    .of_not_opens (by simp [Opens, hpc]) (fun _ _ _ => id) rfl⟩
  · rw [hpc]
    rfl
  · rw [exec_data hs, hcalls.1, if_neg (by decide), h.target]
  · rw [exec_data hs, hcalls.1, if_pos rfl]
    rfl
  · rw [exec_data hs, hcalls.1, if_neg (by decide), h.phase]
    rfl
  · rw [hpc]
    exact ⟨calls_exec hcalls hs, hticket⟩
  · rw [hpc]
    simp [isArrival, CountingBarrier.State.move]

/-- The increment of `phase`. -/
theorem exec_addPhase (h : Sim N s b) (hpc : s.pc t = .addPhase)
    (hcode : (s.sync.threads t).code = i :: rest)
    (hs : CXLAtomic.exec home s.sync t clk rest i = some sync) :
    ∃ b', Sim N { if isArrival (s.pc t) i then s.arriveAt t else s with sync := sync } b' ∧
      Grows s (.thread t clk) b b' := by
  obtain ⟨hcalls, hticket⟩ : _ ∧ _ := by simpa only [hpc, PcOk] using h.pc t
  have ht := h.participant t (by simp [hpc])
  rcases h.fetchAdd_cases hcode hcalls.2.1 hcalls.2.2 with ⟨rfl, hnot⟩ | ⟨hdata, hsame, hmem, harr⟩
  · have hst : b.stage t = .cleared := by rw [h.stage, hpc, hcode]; simp [stageOf]
    refine ⟨{ b with opened := b.opened + 1 }.move t .opened, h.exec hcode hs (h.ok.open_ ht hst) rfl ?_
      (fun _ _ _ => rfl) (fun _ => id) (Nat.le_succ _) ?_ ?_ ?_ ?_ ?_,
      ⟨fun _ _ _ => id, fun _ => rfl, fun hno => absurd ⟨hpc, rest, hcode⟩ hno⟩⟩
    · rw [hpc, stageOf, if_neg hnot]
      rfl
    · rw [exec_data hs, hcalls.1, if_neg (by decide), h.target]
    · rw [exec_data hs, hcalls.1, if_neg (by decide), h.arrived]
      rfl
    · rw [exec_data hs, hcalls.1, if_pos rfl, h.phase]
      exact (BitVec.ofNat_add (n := 32) b.opened 1).symm
    · rw [hpc]
      exact ⟨calls_exec hcalls hs, hticket⟩
    · rw [hpc]
      simp [isArrival, CountingBarrier.State.move]
  · refine ⟨b, h.exec_quiet hcode hs hdata ?_ (harr _) ?_,
      .of_not_opens ?_ (fun _ _ _ => id) rfl⟩
    · rw [hpc]
      simp only [stageOf, hmem]
    · rw [hpc]
      exact ⟨calls_exec hcalls hs, hticket⟩
    · rintro ⟨-, is, his⟩
      rw [hcode] at his
      obtain rfl := (List.cons.inj his).1
      have := harr (.arrive 0)
      simp [isArrival] at this

end Exec

/-- Every step of the program is followed by the counting barrier. -/
theorem step (h : Sim N s b) (hN : N < 2 ^ 31) {a : Action} (hs : Step home N s a s') :
    ∃ b', Sim N s' b' ∧ Grows s a b b' := by
  have hstay : ∀ {t : ℕ} {pc : Pc} {is : List (Instr 32)}, b.stage t = stageOf pc is →
      Ok N (b.move t (stageOf pc is)) := fun hst => (move_self hst).symm ▸ h.ok
  cases hs with
  | @between t cl c hpc =>
      have hidle : (s.sync.threads t).code = [] := by simpa only [hpc, PcOk] using h.pc t
      refine ⟨b, ⟨?_, h.ok, h.round, fun u => ?_, h.target, h.arrived, h.phase, h.participant,
        fun u => ?_, h.decided, h.arrival⟩, .of_not_opens (by simp [Opens]) (fun _ _ _ => id) rfl⟩
      · refine h.sync.begin hidle (fun a => ⟨?_, ?_, ?_, ?_, ?_⟩) ?_ <;>
          simp [hidle, InSection, List.nil_suffix]
      · have := h.stage u
        simp only [CXLAtomic.State.setThread, update_apply]
        split <;> simp_all
      · have := h.pc u
        simp only [CXLAtomic.State.setThread, update_apply]
        split
        · rename_i hu
          subst hu
          simp only [hpc, PcOk, hidle]
        · exact this
  | @wait t ht hpc =>
      have hidle : (s.sync.threads t).code = [] := by simpa only [hpc, PcOk] using h.pc t
      have hst : b.stage t = stageOf .loadPhase (code (.load : Op 32) .acquire) := by
        rw [h.stage, hpc]; rfl
      refine ⟨_, h.call hidle ht (hstay hst) ?_, .of_not_opens (by simp [Opens]) (fun _ _ _ => id) rfl⟩
      exact ⟨⟨rfl, rfl, rfl⟩, fun hno => absurd (by simp [Thread.call, code]) hno⟩
  | @arrive t clk hcode hpc =>
      obtain ⟨hcalls, hret⟩ : _ ∧ _ := by simpa only [hpc, PcOk] using h.pc t
      have ht := h.participant t (by simp [hpc])
      have hst : b.stage t = stageOf (.arrive (s.sync.threads t).ret)
          (code (.fetchAdd 1 : Op 32) .acqRel) := by rw [h.stage, hpc]; simp [stageOf, code]
      refine ⟨_, h.call hcode ht (hstay hst) ?_,
        .of_not_opens (by simp [Opens, hpc]) (fun _ _ _ => id) rfl⟩
      exact ⟨⟨rfl, rfl, rfl⟩, hret (by simp [hcode]), fun hno => absurd (by simp [Thread.call, code]) hno⟩
  | @compare t clk lp hcode hpc =>
      obtain ⟨hcalls, hlp, hret⟩ : _ ∧ _ ∧ _ := by simpa only [hpc, PcOk] using h.pc t
      have ht := h.participant t (by simp [hpc])
      obtain ⟨x, hx, hval⟩ := hret (by simp [hcode])
      have hst : b.stage t = stageOf (.loadTarget lp ((s.sync.threads t).ret + 1))
          (code (.load : Op 32) .relaxed) := by rw [h.stage, hpc, hcode]; simp [stageOf]
      refine ⟨_, h.call hcode ht (hstay hst) ?_,
        .of_not_opens (by simp [Opens, hpc]) (fun _ _ _ => id) rfl⟩
      exact ⟨⟨rfl, rfl, rfl⟩, hlp, ⟨x, hx, by rw [hval]⟩, fun hno => absurd hno (by simp [Thread.call, code])⟩
  | @close t clk lp hcode hpc =>
      obtain ⟨hcalls, hlp, ⟨x, hx, hla⟩, hret⟩ : _ ∧ _ ∧ _ ∧ _ := by
        simpa only [hpc, PcOk] using h.pc t
      have ht := h.participant t (by simp [hpc])
      have hlt := h.ok.lt t ht _ x hx
      have hbranch := (eq_target_iff hN hlt).mp (by rw [← hla, hret hcode])
      obtain rfl : x = N - 1 := by omega
      have hst : b.stage t = .arrived := by rw [h.stage, hpc]; rfl
      have hround : b.round t = s.round t := congrFun h.round t
      have hok : Ok N (b.move t (stageOf .reset (code (.store 0 : Op 32) .relaxed))) := by
        refine h.ok.close ht hst ?_
        rw [hround]
        exact hx
      refine ⟨_, (h.decide hx (by simp [hbranch])).call hcode ht hok ?_,
        .of_not_opens (by simp [Opens, hpc]) (fun _ _ _ => id) rfl⟩
      exact ⟨⟨rfl, rfl, rfl⟩, hx⟩
  | @await t clk lp la hcode hpc hne =>
      obtain ⟨hcalls, hlp, ⟨x, hx, hla⟩, hret⟩ : _ ∧ _ ∧ _ ∧ _ := by
        simpa only [hpc, PcOk] using h.pc t
      have ht := h.participant t (by simp [hpc])
      have hbranch := (eq_target_iff hN (h.ok.lt t ht _ x hx)).not.mp (by rwa [← hla, ← hret hcode])
      have hst : b.stage t = stageOf (.spin lp) (code (.load : Op 32) .acquire) := by
        rw [h.stage, hpc]; rfl
      refine ⟨_, (h.decide hx (by simp [hbranch])).call hcode ht (hstay hst) ?_,
        .of_not_opens (by simp [Opens, hpc]) (fun _ _ _ => id) rfl⟩
      exact ⟨⟨rfl, rfl, rfl⟩, hlp, fun hno => absurd (by simp [Thread.call, code]) hno⟩
  | @add t clk hcode hpc =>
      obtain ⟨hcalls, hticket⟩ : _ ∧ _ := by simpa only [hpc, PcOk] using h.pc t
      have ht := h.participant t (by simp [hpc])
      have hst : b.stage t = stageOf .addPhase (code (.fetchAdd 1 : Op 32) .acqRel) := by
        rw [h.stage, hpc, hcode]; simp [stageOf, code]
      refine ⟨_, h.call hcode ht (hstay hst) ?_,
        .of_not_opens (by simp [Opens, hpc]) (fun _ _ _ => id) rfl⟩
      exact ⟨⟨rfl, rfl, rfl⟩, hticket⟩
  | @again t clk lp hcode hpc hret =>
      obtain ⟨hcalls, hlp, -⟩ : _ ∧ _ ∧ _ := by simpa only [hpc, PcOk] using h.pc t
      have ht := h.participant t (by simp [hpc])
      have hst : b.stage t = stageOf (.spin lp) (code (.load : Op 32) .acquire) := by
        rw [h.stage, hpc]; rfl
      refine ⟨_, h.call hcode ht (hstay hst) ?_,
        .of_not_opens (by simp [Opens, hpc]) (fun _ _ _ => id) rfl⟩
      exact ⟨⟨rfl, rfl, rfl⟩, hlp, fun hno => absurd (by simp [Thread.call, code]) hno⟩
  | @leaveClosed t clk hcode hpc =>
      have ht := h.participant t (by simp [hpc])
      have hst : b.stage t = .opened := by rw [h.stage, hpc, hcode]; simp [stageOf]
      exact ⟨_, h.leave hcode ht (.inl hst), .of_not_opens (by simp [Opens, hcode]) (fun _ _ _ => id) rfl⟩
  | @leaveSpin t clk lp hcode hpc hne =>
      obtain ⟨-, -, hret⟩ : _ ∧ _ ∧ _ := by simpa only [hpc, PcOk] using h.pc t
      have ht := h.participant t (by simp [hpc])
      have hst : b.stage t = .arrived := by rw [h.stage, hpc]; rfl
      have hround : b.round t = s.round t := congrFun h.round t
      refine ⟨_, h.leave hcode ht (.inr ⟨hst, ?_⟩),
        .of_not_opens (by simp [Opens, hcode]) (fun _ _ _ => id) rfl⟩
      rw [hround]
      exact hret (by simp [hcode]) hne
  | @exec t clk i rest sync hcode hexec =>
      cases hpc : s.pc t with
      | idle =>
          have hidle : (s.sync.threads t).code = [] := by simpa only [hpc, PcOk] using h.pc t
          simp [hidle] at hcode
      | loadPhase =>
          exact ⟨b, hpc ▸ h.exec_loadPhase hpc hcode hexec,
            .of_not_opens (by simp [Opens, hpc]) (fun _ _ _ => id) rfl⟩
      | arrive lp => exact hpc ▸ h.exec_arrive hpc hcode hexec
      | loadTarget lp la =>
          exact ⟨b, hpc ▸ h.exec_loadTarget hpc hcode hexec,
            .of_not_opens (by simp [Opens, hpc]) (fun _ _ _ => id) rfl⟩
      | reset => exact hpc ▸ h.exec_reset hpc hcode hexec
      | addPhase => exact hpc ▸ h.exec_addPhase hpc hcode hexec
      | spin lp =>
          exact ⟨b, hpc ▸ h.exec_spin hpc hcode hexec,
            .of_not_opens (by simp [Opens, hpc]) (fun _ _ _ => id) rfl⟩

end Sim

/-! ## The initial state -/

/-- `init` leaves the values of the three atomics as it writes them. -/
theorem init_spec {s₀ s : CXLAtomic.State 32} {t c₁ c₂ : ℕ} {count : BitVec 32}
    (h₀ : CXLAtomic.Initial s₀)
    (h : (CXLAtomic.machine home).exec (fun _ _ => true) s₀ (initActions t c₁ c₂ count) = some s) :
    (∀ u, (s.threads u).code = []) ∧ (s.atomics target).data = count ∧
      (s.atomics arrived).data = 0 ∧ (s.atomics phase).data = 0 := by
  rw [initActions, Machine.exec_append, Machine.exec_append] at h
  obtain ⟨s₂, h₂, h₃⟩ := Option.bind_eq_some_iff.mp h
  obtain ⟨s₁, h₁, h₂⟩ := Option.bind_eq_some_iff.mp h₂
  obtain ⟨-, hother₁, hdata₁⟩ := exec_call rfl h₁
  obtain ⟨-, hother₂, hdata₂⟩ := exec_call rfl h₂
  obtain ⟨hdone, hother₃, hdata₃⟩ := exec_call rfl h₃
  refine ⟨fun u => ?_, ?_, ?_, ?_⟩
  · by_cases hu : u = t
    · rw [hu, hdone]
    · rw [hother₃ u hu, hother₂ u hu, hother₁ u hu, h₀.code]
  · rw [hdata₃, if_neg (by decide), hdata₂, if_neg (by decide), hdata₁, if_pos rfl]
    rfl
  · rw [hdata₃, if_neg (by decide), hdata₂, if_pos rfl]
    rfl
  · rw [hdata₃, if_pos rfl]
    rfl

/-- The counting barrier before anybody has arrived. -/
def start : CountingBarrier.State := ⟨0, 0, fun _ => 0, fun _ => .out, fun _ _ => none⟩

theorem ok_start : Ok N start where
  out _ _ _ := rfl
  bounds _ _ := ⟨le_rfl, Nat.zero_le _⟩
  has _ _ k := by simp [start]
  inj _ _ _ _ _ _ h := by cases h
  lt _ _ _ _ h := by cases h
  counted _ := by
    refine ⟨?_, fun _ _ _ h => by cases h⟩
    simp [current, start]
  cleared _ _ h := by cases h
  closing _ _ h := by rcases h with h | h <;> cases h
  past k hk := absurd hk (Nat.not_lt_zero k)
  opened _ _ h := by cases h

theorem sim_of_initial (h : Initial home N s) : Sim N s start := by
  obtain ⟨s₀, t, c₁, c₂, h₀, hexec⟩ := h.init
  obtain ⟨hcode, htarget, harrived, hphase⟩ := init_spec h₀ hexec
  have hrun : (CXLAtomic.machine home).Reachable s.sync :=
    Machine.Run.exec (.init h₀) (fun _ _ _ => trivial) hexec
  refine ⟨inv_of_reachable hrun, ok_start, ?round, fun u => ?stage, htarget, harrived, hphase,
    fun u hu => ?participant, fun u => ?pc, fun u k d hd => ?decided, fun u k => ?arrival⟩
  case round =>
    funext u
    exact (h.round u).symm
  case stage =>
    rw [h.pc u]
    rfl
  case participant =>
    exact absurd (h.pc u) hu
  case pc =>
    rw [h.pc u]
    exact hcode u
  case decided =>
    rw [h.decided u k] at hd
    cases hd
  case arrival =>
    rw [h.arrival u k]
    rfl

theorem sim_of_reachable (hN : N < 2 ^ 31) (h : (machine home N).Reachable s) : ∃ b, Sim N s b :=
  h.invariant (I := fun s => ∃ b, Sim N s b) (fun _ h₀ => ⟨start, sim_of_initial h₀⟩)
    fun _ _ _ _ ⟨_, hsim⟩ _ hs =>
      let ⟨b', h', _⟩ := hsim.step hN (step_cases hs)
      ⟨b', h'⟩

end CXLBarrier

end RACoherence
