import RACoherence.LogManager.Ownership

/-!
# The invariant of the log ring

`Inv` holds in every state of a run whose steps all meet `Safe`. Beside the ownership of the logs it
says that a published entry that is not recycled is still in its slot with the content it was
published with, that `bound` and the pass of `perform_gc` are in step with the number of recycled
logs, and that a subscriber whose `add_subscriber` has returned is never overtaken.

The conditions in `Safe` are where the source needs help: no 32-bit sum wraps; the subscribed branch
of `perform_gc` takes only published slots, which the other branch checks; that other branch does not
pair a log with the index of a later publication; and `add_subscriber` overlaps neither a pass of
`perform_gc` nor the consumer of its own node.
-/

namespace RACoherence

open Function

namespace LogManager

variable (cfg : LogConfig) (nid : ℕ)

/-! ## What a step must respect -/

/-- The 32-bit sum that the step computes, if any, does not wrap. -/
def NoWrap (s : State) : Action → Prop
  | .produceTail _ _ => s.tail + 1 < idxRange
  | .prod t =>
      match s.prod t with
      | .retryDequeue => s.freelist = [] → s.bound + cfg.logCount < idxRange
      | .gcHead i _ => (s.subs i).head + cfg.logCount < idxRange
      | _ => True
  | .cons n =>
      match s.cons n with
      | .loadIdx h | .storeHead _ h => h + 1 < idxRange
      | _ => True
  | .sub n =>
      match s.sub n with
      | .recheck t => t + cfg.logCount < idxRange
      | _ => True
  | _ => True

/-- Slot `i` is published for the round before: the check of the unsubscribed branch. -/
def SlotPublished (s : State) (i : ℕ) : Prop :=
  (s.pub (getIdx cfg i)).idx = incr (prevRound cfg i)

/-- The subscribed branch of `perform_gc` recycles a published slot. -/
def RecyclesPublished (s : State) : Action → Prop
  | .prod t =>
      match s.prod t with
      | .gcLoad i newB true => i ≠ newB → SlotPublished cfg s i
      | _ => True
  | _ => True

/-- When the check of the unsubscribed branch succeeds, the log that was loaded before it is still in
the slot. -/
def RecyclesLoaded (s : State) : Action → Prop
  | .prod t =>
      match s.prod t with
      | .gcCheck i _ log => SlotPublished cfg s i → (s.pub (getIdx cfg i)).log = log
      | _ => True
  | _ => True

/-- `add_subscriber` does not overlap a pass of `perform_gc`. -/
def SubscribesOutsideGc (s : State) : Action → Prop
  | .addSubscriber _ => ∀ t, (s.prod t).inPass = false
  | .prod t => s.prod t = .retryDequeue → s.freelist = [] → ∀ n, s.sub n = .idle
  | _ => True

/-- `add_subscriber(n)` does not overlap the consumer of node `n`. -/
def SubscribesOutsideConsume (s : State) : Action → Prop
  | .addSubscriber n => s.cons n = .idle
  | .takeHead n => s.sub n = .idle
  | _ => True

/-- All of the above. -/
structure Safe (s : State) (a : Action) : Prop where
  noWrap : NoWrap cfg s a
  published : RecyclesPublished cfg s a
  loaded : RecyclesLoaded cfg s a
  gc : SubscribesOutsideGc s a
  consume : SubscribesOutsideConsume s a

/-! ## The invariant -/

/-- Node `n` is subscribed and its `add_subscriber` has returned. -/
def Stable (s : State) (n : ℕ) : Prop :=
  Remote cfg nid n ∧ (s.subs n).isSubbed = true ∧ s.sub n = .idle

/-- What a thread in `perform_gc` knows: `newB` is at most a round past every stable head that it
has looked at, and the loop variable counts the recycled logs. -/
def GcOk (s : State) : ProdPc → Prop
  | .gcScan i newB sub => s.bound ≤ newB ∧ newB ≤ s.bound + cfg.logCount ∧ newB < idxRange ∧
      ∀ n < i, Stable cfg nid s n → sub = true ∧ newB ≤ (s.subs n).head + cfg.logCount
  | .gcHead i newB => s.bound ≤ newB ∧ newB ≤ s.bound + cfg.logCount ∧ newB < idxRange ∧
      ∀ n < i, Stable cfg nid s n → newB ≤ (s.subs n).head + cfg.logCount
  | .gcLoad i newB sub => i = s.freed + cfg.logCount ∧ i ≤ newB ∧ newB < idxRange ∧
      ∀ n, Stable cfg nid s n → sub = true ∧ newB ≤ (s.subs n).head + cfg.logCount
  | .gcCheck i newB _ => i = s.freed + cfg.logCount ∧ i < newB ∧ newB < idxRange ∧
      ∀ n, ¬ Stable cfg nid s n
  | .gcEnqueue i newB sub _ => i + 1 = s.freed + cfg.logCount ∧ i < newB ∧ newB < idxRange ∧
      ∀ n, Stable cfg nid s n → sub = true ∧ newB ≤ (s.subs n).head + cfg.logCount
  | .gcStore newB => newB = s.freed + cfg.logCount
  | _ => True

/-- A thread in `produce_tail` publishes its own reserved index, and has stored what it says. -/
def ReservedOk (s : State) : ProdPc → Prop
  | .storeRel log r j => j < s.tail ∧ s.published j = false ∧ (s.hist j).log = log ∧
      (s.hist j).isRel = r
  | .storeLog log r j => j < s.tail ∧ s.published j = false ∧ (s.hist j).log = log ∧
      (s.hist j).isRel = r ∧ (s.pub (getIdx cfg j)).isRel = r
  | .storeIdx log r j => j < s.tail ∧ s.published j = false ∧ (s.hist j).log = log ∧
      (s.hist j).isRel = r ∧ (s.pub (getIdx cfg j)).isRel = r ∧ (s.pub (getIdx cfg j)).log = log
  | _ => True

/-- The clock value that a consumer takes from an entry. -/
def Record.clk (rec : Record) (j : ℕ) : Option ℕ := if rec.isRel then some (j + 1) else none

/-- Where a consumer is, it is at its head, which is published; and what it has loaded of the entry
is right as long as the node is subscribed. -/
def ConsOk (s : State) (n : ℕ) : ConsPc → Prop
  | .idle => True
  | .loadIdx h => h = (s.subs n).head
  | .entry k => s.published (s.subs n).head = true ∧ k = getIdx cfg (s.subs n).head
  | .gotLog k log => s.published (s.subs n).head = true ∧ k = getIdx cfg (s.subs n).head ∧
      (Stable cfg nid s n → log = (s.hist (s.subs n).head).log)
  | .gotRel k log isRel => s.published (s.subs n).head = true ∧ k = getIdx cfg (s.subs n).head ∧
      (Stable cfg nid s n → log = (s.hist (s.subs n).head).log ∧
        isRel = (s.hist (s.subs n).head).isRel)
  | .start log clk => s.published (s.subs n).head = true ∧
      (Stable cfg nid s n → log = (s.hist (s.subs n).head).log ∧
        clk = (s.hist (s.subs n).head).clk (s.subs n).head)
  | .process log clk i size => s.published (s.subs n).head = true ∧
      (Stable cfg nid s n → log = (s.hist (s.subs n).head).log ∧
        clk = (s.hist (s.subs n).head).clk (s.subs n).head ∧
        size = (s.hist (s.subs n).head).content.size ∧ i ≤ size)
  | .consume clk => s.published (s.subs n).head = true ∧
      (Stable cfg nid s n → clk = (s.hist (s.subs n).head).clk (s.subs n).head)
  | .storeHead clk h => s.published (s.subs n).head = true ∧ h = (s.subs n).head ∧
      (Stable cfg nid s n → clk = (s.hist (s.subs n).head).clk (s.subs n).head)

/-- `add_subscriber` has loaded a position that is not recycled. -/
def SubOk (s : State) (n : ℕ) : SubPc → Prop
  | .idle => True
  | .loadTail => (s.subs n).isSubbed = true
  | .storeHead t => (s.subs n).isSubbed = true ∧ s.freed ≤ t ∧ t ≤ s.tail
  | .recheck t => (s.subs n).isSubbed = true ∧ s.freed ≤ t ∧ t ≤ s.tail ∧ (s.subs n).head = t

/-- The entries of the ring: what is published and not recycled is still in its slot. -/
structure Entries (s : State) : Prop where
  tail_lt : s.tail < idxRange
  published_lt : ∀ j, s.published j = true → j < s.tail
  freed_published : ∀ j < s.freed, s.published j = true
  entry : ∀ j, s.freed ≤ j → s.published j = true →
    s.pub (getIdx cfg j) = ⟨(s.hist j).log, j + 1, (s.hist j).isRel⟩
  idx : ∀ k, (s.pub k).idx ≠ 0 → ∃ j, s.published j = true ∧ (s.pub k).idx = j + 1
  reserved : ∀ t, ReservedOk cfg s (s.prod t)
  reserved_inj : ∀ t u j, (s.prod t).reserved = some j → (s.prod u).reserved = some j → t = u
  content : ∀ j, s.freed ≤ j → j < s.tail → s.buf (s.hist j).log = (s.hist j).content

/-- A stable subscriber is where `add_subscriber` left it or further, everything it has passed is
published, and nothing it has not passed is recycled. -/
structure Subscribed (s : State) (n : ℕ) : Prop where
  base_le : s.subBase n ≤ (s.subs n).head
  freed_le : s.freed ≤ (s.subs n).head
  le_tail : (s.subs n).head ≤ s.tail
  published : ∀ j, s.subBase n ≤ j → j < (s.subs n).head → s.published j = true

/-- The invariant of the ring. -/
structure Inv (s : State) : Prop where
  owned : Owned cfg s
  entries : Entries cfg s
  mutex : ∀ t, (s.prod t).inGc = true ↔ s.gcMtx = some t
  gc : ∀ t, GcOk cfg nid s (s.prod t)
  bound : (∀ t, (s.prod t).recycling = false) → s.bound = s.freed + cfg.logCount
  stable : ∀ n, Stable cfg nid s n → Subscribed s n
  cons : ∀ n, ConsOk cfg nid s n (s.cons n)
  sub : ∀ n, SubOk s n (s.sub n)
  quiet : ∀ n t, s.sub n ≠ .idle → (s.prod t).inPass = false
  apart : ∀ n, s.sub n ≠ .idle → s.cons n = .idle

variable {cfg nid} {stops : ℕ → Bool} {s s' : State} {a : Action}

/-! ## Indices and slots -/

theorem getIdx_eq (j : ℕ) : getIdx cfg j = j % cfg.logCount :=
  Nat.and_two_pow_sub_one_eq_mod j cfg.logCountShift

theorem getIdx_add_logCount (j : ℕ) : getIdx cfg (j + cfg.logCount) = getIdx cfg j := by
  rw [getIdx_eq, getIdx_eq, Nat.add_mod_right]

theorem nextRound_eq {x : ℕ} (h : x + cfg.logCount < idxRange) :
    nextRound cfg x = x + cfg.logCount :=
  Nat.mod_eq_of_lt h

theorem incr_eq {x : ℕ} (h : x + 1 < idxRange) : incr x = x + 1 :=
  Nat.mod_eq_of_lt h

theorem prevRound_add_logCount {x : ℕ} (h : x + cfg.logCount < idxRange) :
    prevRound cfg (x + cfg.logCount) = x := by
  have hlt := cfg.logCount_lt
  rw [prevRound, show x + cfg.logCount + (idxRange - cfg.logCount) = x + idxRange by omega,
    Nat.add_mod_right, Nat.mod_eq_of_lt (by omega)]

/-- Two indices less than a round apart have different slots. -/
theorem eq_of_getIdx_eq {b i j : ℕ} (hi : b ≤ i) (hi' : i < b + cfg.logCount) (hj : b ≤ j)
    (hj' : j < b + cfg.logCount) (h : getIdx cfg i = getIdx cfg j) : i = j := by
  have hpos := cfg.logCount_pos
  rw [getIdx_eq, getIdx_eq] at h
  have hi₂ := Nat.div_add_mod i cfg.logCount
  have hj₂ := Nat.div_add_mod j cfg.logCount
  rcases lt_trichotomy (i / cfg.logCount) (j / cfg.logCount) with hlt | heq | hgt
  · have := Nat.mul_le_mul_left cfg.logCount hlt
    rw [Nat.mul_succ] at this
    omega
  · rw [heq] at hi₂
    omega
  · have := Nat.mul_le_mul_left cfg.logCount hgt
    rw [Nat.mul_succ] at this
    omega

/-! ## Reserved indices -/

theorem ReservedOk.of_none {pc : ProdPc} (h : pc.reserved = none) : ReservedOk cfg s pc := by
  cases pc <;> simp_all [ReservedOk, ProdPc.reserved]

theorem ReservedOk.spec {pc : ProdPc} {j : ℕ} (h : ReservedOk cfg s pc)
    (hj : pc.reserved = some j) : j < s.tail ∧ s.published j = false := by
  cases pc <;> simp_all [ReservedOk, ProdPc.reserved]

/-- The fact depends on the slot, the record and the publication of the reserved index only. -/
theorem ReservedOk.congr {pc : ProdPc} (h : ReservedOk cfg s pc) (ht : s.tail ≤ s'.tail)
    (hsame : ∀ j, pc.reserved = some j → s'.published j = s.published j ∧ s'.hist j = s.hist j ∧
      s'.pub (getIdx cfg j) = s.pub (getIdx cfg j)) : ReservedOk cfg s' pc := by
  cases pc with
  | storeRel log r j =>
      obtain ⟨h₁, h₂, -⟩ := hsame j rfl
      obtain ⟨hlt, hrest⟩ := h
      exact ⟨hlt.trans_le ht, by rwa [h₁, h₂]⟩
  | storeLog log r j =>
      obtain ⟨h₁, h₂, h₃⟩ := hsame j rfl
      obtain ⟨hlt, hrest⟩ := h
      exact ⟨hlt.trans_le ht, by rwa [h₁, h₂, h₃]⟩
  | storeIdx log r j =>
      obtain ⟨h₁, h₂, h₃⟩ := hsame j rfl
      obtain ⟨hlt, hrest⟩ := h
      exact ⟨hlt.trans_le ht, by rwa [h₁, h₂, h₃]⟩
  | _ => trivial

/-! ## Passes of `perform_gc` -/

theorem GcOk.of_not_inPass {pc : ProdPc} (h : pc.inPass = false) : GcOk cfg nid s pc := by
  cases pc <;> simp_all [GcOk, ProdPc.inPass]

/-- Stable heads that move forward, and subscribers that leave, do not disturb a pass. -/
theorem GcOk.mono {pc : ProdPc} (h : GcOk cfg nid s pc) (hb : s'.bound = s.bound)
    (hf : s'.freed = s.freed)
    (hst : ∀ n, Stable cfg nid s' n → Stable cfg nid s n ∧ (s.subs n).head ≤ (s'.subs n).head) :
    GcOk cfg nid s' pc := by
  cases pc with
  | gcScan i newB sub =>
      obtain ⟨h₁, h₂, h₃, h₄⟩ := h
      refine ⟨by rwa [hb], by rwa [hb], h₃, fun n hn hstable => ?_⟩
      obtain ⟨hn₁, hn₂⟩ := hst n hstable
      have := h₄ n hn hn₁
      exact ⟨this.1, by omega⟩
  | gcHead i newB =>
      obtain ⟨h₁, h₂, h₃, h₄⟩ := h
      refine ⟨by rwa [hb], by rwa [hb], h₃, fun n hn hstable => ?_⟩
      obtain ⟨hn₁, hn₂⟩ := hst n hstable
      have := h₄ n hn hn₁
      omega
  | gcLoad i newB sub =>
      obtain ⟨h₁, h₂, h₃, h₄⟩ := h
      refine ⟨by rwa [hf], h₂, h₃, fun n hstable => ?_⟩
      obtain ⟨hn₁, hn₂⟩ := hst n hstable
      have := h₄ n hn₁
      exact ⟨this.1, by omega⟩
  | gcCheck i newB log =>
      obtain ⟨h₁, h₂, h₃, h₄⟩ := h
      exact ⟨by rwa [hf], h₂, h₃, fun n hstable => h₄ n (hst n hstable).1⟩
  | gcEnqueue i newB sub log =>
      obtain ⟨h₁, h₂, h₃, h₄⟩ := h
      refine ⟨by rwa [hf], h₂, h₃, fun n hstable => ?_⟩
      obtain ⟨hn₁, hn₂⟩ := hst n hstable
      have := h₄ n hn₁
      exact ⟨this.1, by omega⟩
  | gcStore newB => exact h.trans (by rw [hf])
  | _ => trivial

/-! ## Consumers -/

/-- What a consumer has loaded stays right when its head does not move and its entry is not
rewritten. -/
theorem ConsOk.mono {n : ℕ} {pc : ConsPc} (h : ConsOk cfg nid s n pc)
    (hhead : (s'.subs n).head = (s.subs n).head)
    (hpub : s.published (s.subs n).head = true → s'.published (s.subs n).head = true ∧
      s'.hist (s.subs n).head = s.hist (s.subs n).head)
    (hst : Stable cfg nid s' n → Stable cfg nid s n) : ConsOk cfg nid s' n pc := by
  cases pc with
  | idle => trivial
  | loadIdx hd => exact h.trans hhead.symm
  | entry k =>
      obtain ⟨hp, hk⟩ := h
      exact ⟨hhead ▸ (hpub hp).1, hhead ▸ hk⟩
  | gotLog k log =>
      obtain ⟨hp, hk, hlog⟩ := h
      refine ⟨hhead ▸ (hpub hp).1, hhead ▸ hk, fun hs => ?_⟩
      rw [hhead, (hpub hp).2]
      exact hlog (hst hs)
  | gotRel k log isRel =>
      obtain ⟨hp, hk, hlog⟩ := h
      refine ⟨hhead ▸ (hpub hp).1, hhead ▸ hk, fun hs => ?_⟩
      rw [hhead, (hpub hp).2]
      exact hlog (hst hs)
  | start log clk =>
      obtain ⟨hp, hlog⟩ := h
      refine ⟨hhead ▸ (hpub hp).1, fun hs => ?_⟩
      rw [hhead, (hpub hp).2]
      exact hlog (hst hs)
  | process log clk i size =>
      obtain ⟨hp, hlog⟩ := h
      refine ⟨hhead ▸ (hpub hp).1, fun hs => ?_⟩
      rw [hhead, (hpub hp).2]
      exact hlog (hst hs)
  | consume clk =>
      obtain ⟨hp, hclk⟩ := h
      refine ⟨hhead ▸ (hpub hp).1, fun hs => ?_⟩
      rw [hhead, (hpub hp).2]
      exact hclk (hst hs)
  | storeHead clk hd =>
      obtain ⟨hp, hd', hclk⟩ := h
      refine ⟨hhead ▸ (hpub hp).1, hd'.trans hhead.symm, fun hs => ?_⟩
      rw [hhead, (hpub hp).2]
      exact hclk (hst hs)

namespace Inv

theorem freed_le_tail (h : Entries cfg s) : s.freed ≤ s.tail := by
  by_contra hlt
  have := h.published_lt _ (h.freed_published s.tail (by omega))
  omega

end Inv

end LogManager

end RACoherence
