import RACoherence.LogManager

/-!
# The steps of the ring, one by one

`Step` lists every transition with its guard and its effect, and `step_cases` says that the step
function does nothing else. Invariants are proved by cases on `Step`.
-/

namespace RACoherence

open Function

namespace LogManager

variable (cfg : LogConfig) (nid : ℕ) (stops : ℕ → Bool)

/-- The transitions of the ring. -/
inductive Step (s : State) : Action → State → Prop
  | getNewLog {t : ℕ} : s.prod t = .idle → Step s (.getNewLog t) (s.setProd t .tryDequeue)
  | write {t e log : ℕ} : s.prod t = .hold log →
      Step s (.write t e) { s with buf := update s.buf log ((s.buf log).write e) }
  | produceTail {t log : ℕ} {r : Bool} : s.prod t = .hold log →
      Step s (.produceTail t r) ({ s with
        tail := incr s.tail
        hist := update s.hist s.tail ⟨log, r, s.buf log⟩ }.setProd t (.storeRel log r s.tail))
  | dequeue {t log : ℕ} {rest : List ℕ} : s.prod t = .tryDequeue → s.freelist = log :: rest →
      Step s (.prod t) ({ s with freelist := rest }.setProd t (.reset log))
  | dequeueEmpty {t : ℕ} : s.prod t = .tryDequeue → s.freelist = [] →
      Step s (.prod t) (s.setProd t .lockGc)
  | lock {t : ℕ} : s.prod t = .lockGc → s.gcMtx = none →
      Step s (.prod t) ({ s with gcMtx := some t }.setProd t .retryDequeue)
  | redequeue {t log : ℕ} {rest : List ℕ} : s.prod t = .retryDequeue → s.freelist = log :: rest →
      Step s (.prod t) ({ s with freelist := rest }.setProd t (.unlockGc (some log)))
  | gcStart {t : ℕ} : s.prod t = .retryDequeue → s.freelist = [] →
      Step s (.prod t) (s.setProd t (.gcScan 0 (nextRound cfg s.bound) false))
  | gcSkip {t i newB : ℕ} {sub : Bool} : s.prod t = .gcScan i newB sub → i < cfg.nodeCount →
      ¬ (i ≠ nid ∧ (s.subs i).isSubbed = true) →
      Step s (.prod t) (s.setProd t (.gcScan (i + 1) newB sub))
  | gcSubscribed {t i newB : ℕ} {sub : Bool} : s.prod t = .gcScan i newB sub →
      i < cfg.nodeCount → i ≠ nid → (s.subs i).isSubbed = true →
      Step s (.prod t) (s.setProd t (.gcHead i newB))
  | gcScanned {t i newB : ℕ} {sub : Bool} : s.prod t = .gcScan i newB sub → cfg.nodeCount ≤ i →
      Step s (.prod t) (s.setProd t (.gcLoad s.bound newB sub))
  | gcHead {t i newB h : ℕ} : s.prod t = .gcHead i newB → h = nextRound cfg (s.subs i).head →
      Step s (.prod t)
        (s.setProd t (.gcScan (i + 1) (if h < newB ∧ s.bound ≤ h then h else newB) true))
  | gcEnd {t newB : ℕ} {sub : Bool} : s.prod t = .gcLoad newB newB sub →
      Step s (.prod t) (s.setProd t (.gcStore newB))
  | gcTake {t i newB : ℕ} : s.prod t = .gcLoad i newB true → i ≠ newB →
      Step s (.prod t) (s.take.setProd t (.gcEnqueue i newB true (s.pub (getIdx cfg i)).log))
  | gcPeek {t i newB : ℕ} : s.prod t = .gcLoad i newB false → i ≠ newB →
      Step s (.prod t) (s.setProd t (.gcCheck i newB (s.pub (getIdx cfg i)).log))
  | gcChecked {t i newB log : ℕ} : s.prod t = .gcCheck i newB log →
      (s.pub (getIdx cfg i)).idx = incr (prevRound cfg i) →
      Step s (.prod t) (s.take.setProd t (.gcEnqueue i newB false log))
  | gcStop {t i newB log : ℕ} : s.prod t = .gcCheck i newB log →
      (s.pub (getIdx cfg i)).idx ≠ incr (prevRound cfg i) →
      Step s (.prod t) (s.setProd t (.gcStore i))
  | gcEnqueue {t i newB log : ℕ} {sub : Bool} : s.prod t = .gcEnqueue i newB sub log →
      Step s (.prod t)
        ({ s with freelist := s.freelist ++ [log] }.setProd t (.gcLoad (incr i) newB sub))
  | gcStore {t newB : ℕ} : s.prod t = .gcStore newB →
      Step s (.prod t) ({ s with bound := newB }.setProd t .lastDequeue)
  | lastDequeue {t log : ℕ} {rest : List ℕ} : s.prod t = .lastDequeue →
      s.freelist = log :: rest →
      Step s (.prod t) ({ s with freelist := rest }.setProd t (.unlockGc (some log)))
  | lastEmpty {t : ℕ} : s.prod t = .lastDequeue → s.freelist = [] →
      Step s (.prod t) (s.setProd t (.unlockGc none))
  | unlockNull {t : ℕ} : s.prod t = .unlockGc none →
      Step s (.prod t) ({ s with gcMtx := none }.setProd t .idle)
  | unlock {t log : ℕ} : s.prod t = .unlockGc (some log) →
      Step s (.prod t) ({ s with gcMtx := none }.setProd t (.reset log))
  | reset {t log : ℕ} : s.prod t = .reset log →
      Step s (.prod t)
        ({ s with buf := update s.buf log (s.buf log).reset }.setProd t (.hold log))
  | storeRel {t log j k : ℕ} {r : Bool} : s.prod t = .storeRel log r j → k = getIdx cfg j →
      Step s (.prod t) ({ s with
        pub := update s.pub k { s.pub k with isRel := r } }.setProd t (.storeLog log r j))
  | storeLog {t log j k : ℕ} {r : Bool} : s.prod t = .storeLog log r j → k = getIdx cfg j →
      Step s (.prod t) ({ s with
        pub := update s.pub k { s.pub k with log := log } }.setProd t (.storeIdx log r j))
  | storeIdx {t log j k : ℕ} {r : Bool} : s.prod t = .storeIdx log r j → k = getIdx cfg j →
      Step s (.prod t) ({ s with
        pub := update s.pub k { s.pub k with idx := incr j }
        published := update s.published j true }.setProd t .idle)
  | takeHead {n : ℕ} : Remote cfg nid n → s.cons n = .idle →
      Step s (.takeHead n) (s.setCons n (.loadIdx (s.subs n).head))
  | takeNull {n h : ℕ} : s.cons n = .loadIdx h → (s.pub (getIdx cfg h)).idx ≠ incr h →
      Step s (.cons n) (s.setCons n .idle)
  | takeEntry {n h : ℕ} : s.cons n = .loadIdx h → (s.pub (getIdx cfg h)).idx = incr h →
      Step s (.cons n) (s.setCons n (.entry (getIdx cfg h)))
  | loadLog {n k : ℕ} : s.cons n = .entry k →
      Step s (.cons n) (s.setCons n (.gotLog k (s.pub k).log))
  | loadRel {n k log : ℕ} : s.cons n = .gotLog k log →
      Step s (.cons n) (s.setCons n (.gotRel k log (s.pub k).isRel))
  | loadClk {n k log : ℕ} {isRel : Bool} : s.cons n = .gotRel k log isRel →
      Step s (.cons n) (s.setCons n (.start log (if isRel then some (s.pub k).idx else none)))
  | start {n log : ℕ} {clk : Option ℕ} : s.cons n = .start log clk →
      Step s (.cons n) (s.setCons n (.process log clk 0 (s.buf log).size))
  | processNext {n log i size : ℕ} {clk : Option ℕ} : s.cons n = .process log clk i size →
      i < size → stops ((s.buf log).entries i) = false →
      Step s (.cons n) (s.setCons n (.process log clk (i + 1) size))
  | processEnd {n log i size : ℕ} {clk : Option ℕ} : s.cons n = .process log clk i size →
      (i < size → stops ((s.buf log).entries i) = true) →
      Step s (.cons n) (s.setCons n (.consume clk))
  | loadHead {n : ℕ} {clk : Option ℕ} : s.cons n = .consume clk →
      Step s (.cons n) (s.setCons n (.storeHead clk (s.subs n).head))
  | storeHead {n h : ℕ} {clk : Option ℕ} : s.cons n = .storeHead clk h →
      Step s (.cons n)
        ({ s with subs := update s.subs n { s.subs n with head := incr h } }.setCons n .idle)
  | remove {n : ℕ} : Remote cfg nid n → s.sub n = .idle → (s.subs n).isSubbed = true →
      Step s (.removeSubscriber n)
        { s with subs := update s.subs n { s.subs n with isSubbed := false } }
  | add {n : ℕ} : Remote cfg nid n → s.sub n = .idle → (s.subs n).isSubbed = false →
      Step s (.addSubscriber n)
        ({ s with subs := update s.subs n { s.subs n with isSubbed := true } }.setSub n .loadTail)
  | subTail {n : ℕ} : s.sub n = .loadTail → Step s (.sub n) (s.setSub n (.storeHead s.tail))
  | subStore {n t : ℕ} : s.sub n = .storeHead t →
      Step s (.sub n)
        ({ s with subs := update s.subs n { s.subs n with head := t } }.setSub n (.recheck t))
  | subAgain {n t : ℕ} : s.sub n = .recheck t → nextRound cfg t < s.tail →
      Step s (.sub n) (s.setSub n (.storeHead s.tail))
  | subDone {n t : ℕ} : s.sub n = .recheck t → s.tail ≤ nextRound cfg t →
      Step s (.sub n) ({ s with subBase := update s.subBase n t }.setSub n .idle)

variable {cfg nid stops} {s s' : State}

private theorem stepProd_cases {t : ℕ} (h : stepProd cfg nid s t = some s') :
    Step cfg nid stops s (.prod t) s' := by
  unfold stepProd at h
  split at h
  · exact absurd h (by simp)
  · exact absurd h (by simp)
  · rename_i hpc
    split at h <;> cases h
    · exact .dequeueEmpty hpc ‹_›
    · exact .dequeue hpc ‹_›
  · rename_i hpc
    split at h <;> cases h
    exact .lock hpc ‹_›
  · rename_i hpc
    split at h <;> cases h
    · exact .gcStart hpc ‹_›
    · exact .redequeue hpc ‹_›
  · rename_i hpc
    split at h
    · rename_i hi
      split at h <;> cases h
      · rename_i hsub
        exact .gcSubscribed hpc hi hsub.1 hsub.2
      · exact .gcSkip hpc hi ‹_›
    · cases h
      exact .gcScanned hpc (by omega)
  · rename_i hpc
    cases h
    exact .gcHead hpc rfl
  · rename_i sub hpc
    split at h
    · rename_i heq
      subst heq
      cases h
      exact .gcEnd hpc
    · rename_i hne
      cases sub
      · cases h
        exact .gcPeek hpc hne
      · cases h
        exact .gcTake hpc hne
  · rename_i hpc
    split at h <;> cases h
    · exact .gcChecked hpc ‹_›
    · exact .gcStop hpc ‹_›
  · rename_i hpc
    cases h
    exact .gcEnqueue hpc
  · rename_i hpc
    cases h
    exact .gcStore hpc
  · rename_i hpc
    split at h <;> cases h
    · exact .lastEmpty hpc ‹_›
    · exact .lastDequeue hpc ‹_›
  · rename_i hpc
    cases h
    exact .unlockNull hpc
  · rename_i hpc
    cases h
    exact .unlock hpc
  · rename_i hpc
    cases h
    exact .reset hpc
  · rename_i hpc
    cases h
    exact .storeRel hpc rfl
  · rename_i hpc
    cases h
    exact .storeLog hpc rfl
  · rename_i hpc
    cases h
    exact .storeIdx hpc rfl

private theorem stepCons_cases {n : ℕ} (h : stepCons cfg stops s n = some s') :
    Step cfg nid stops s (.cons n) s' := by
  unfold stepCons at h
  split at h
  · exact absurd h (by simp)
  · rename_i hpc
    split at h <;> cases h
    · exact .takeEntry hpc ‹_›
    · exact .takeNull hpc ‹_›
  · rename_i hpc
    cases h
    exact .loadLog hpc
  · rename_i hpc
    cases h
    exact .loadRel hpc
  · rename_i hpc
    cases h
    exact .loadClk hpc
  · rename_i hpc
    cases h
    exact .start hpc
  · rename_i hpc
    split at h <;> cases h
    · rename_i hnext
      exact .processNext hpc hnext.1 (by simpa using hnext.2)
    · rename_i hend
      exact .processEnd hpc fun hi => by simpa [hi] using hend
  · rename_i hpc
    cases h
    exact .loadHead hpc
  · rename_i hpc
    cases h
    exact .storeHead hpc

private theorem stepSub_cases {n : ℕ} (h : stepSub cfg s n = some s') :
    Step cfg nid stops s (.sub n) s' := by
  unfold stepSub at h
  split at h
  · exact absurd h (by simp)
  · rename_i hpc
    cases h
    exact .subTail hpc
  · rename_i hpc
    cases h
    exact .subStore hpc
  · rename_i hpc
    split at h <;> cases h
    · exact .subAgain hpc ‹_›
    · exact .subDone hpc (by omega)

/-- The step function takes only the listed transitions. -/
theorem step_cases {a : Action} (h : step cfg nid stops s a = some s') :
    Step cfg nid stops s a s' := by
  cases a with
  | getNewLog t =>
      simp only [step] at h
      split at h <;> cases h
      exact .getNewLog ‹_›
  | write t e =>
      simp only [step] at h
      split at h <;> cases h
      exact .write ‹_›
  | produceTail t r =>
      simp only [step] at h
      split at h <;> cases h
      exact .produceTail ‹_›
  | prod t => exact stepProd_cases h
  | takeHead n =>
      simp only [step] at h
      split at h <;> cases h
      rename_i hn
      exact .takeHead hn.1 hn.2
  | cons n => exact stepCons_cases h
  | removeSubscriber n =>
      simp only [step] at h
      split at h <;> cases h
      rename_i hn
      exact .remove hn.1 hn.2.1 hn.2.2
  | addSubscriber n =>
      simp only [step] at h
      split at h <;> cases h
      rename_i hn
      exact .add hn.1 hn.2.1 (by simpa using hn.2.2)
  | sub n => exact stepSub_cases h

end LogManager

end RACoherence
