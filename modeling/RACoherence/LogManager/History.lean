import RACoherence.LogManager.Safety

/-!
# What a ring has published

The records of published entries never change, so what a consumer has learned from them stays true.
`lastRel` is the clock value that the consumed entries amount to.
-/

namespace RACoherence

open Function

namespace LogManager

/-- The `idx` of the last release entry among the first `h`, or 0. -/
def lastRel (s : State) : ℕ → ℕ
  | 0 => 0
  | h + 1 => if (s.hist h).isRel then h + 1 else lastRel s h

/-- `v` is the `idx` of a published release entry. -/
def IsRelease (s : State) (v : ℕ) : Prop :=
  ∃ j, v = j + 1 ∧ s.published j = true ∧ (s.hist j).isRel = true

/-- What was published before stays as it was. -/
def Extends (s s' : State) : Prop :=
  ∀ j, s.published j = true → s'.published j = true ∧ s'.hist j = s.hist j

variable {cfg : LogConfig} {nid : ℕ} {stops : ℕ → Bool} {s s' : State} {a : Action} {n h : ℕ}

theorem lastRel_le (s : State) (h : ℕ) : lastRel s h ≤ h := by
  induction h with
  | zero => exact le_rfl
  | succ h ih =>
      unfold lastRel
      split <;> omega

theorem lastRel_le_succ (s : State) (h : ℕ) : lastRel s h ≤ lastRel s (h + 1) := by
  have := lastRel_le s h
  conv_rhs => unfold lastRel
  split <;> omega

theorem lastRel_mono (s : State) : Monotone (lastRel s) := monotone_nat_of_le_succ (lastRel_le_succ s)

/-- A release entry below `h` bounds `lastRel`. -/
theorem le_lastRel {j : ℕ} (hj : j < h) (hrel : (s.hist j).isRel = true) : j + 1 ≤ lastRel s h := by
  have hone : lastRel s (j + 1) = j + 1 := by simp [lastRel, hrel]
  exact hone.symm.trans_le (lastRel_mono s hj)

theorem lastRel_congr (hsame : ∀ j < h, s'.hist j = s.hist j) : lastRel s' h = lastRel s h := by
  induction h with
  | zero => rfl
  | succ h ih =>
      unfold lastRel
      rw [hsame h (Nat.lt_succ_self h), ih fun j hj => hsame j (by omega)]

/-- Taking the clock of one more entry. -/
theorem lastRel_succ (s : State) (h : ℕ) :
    lastRel s (h + 1) = ((s.hist h).clk h).getD (lastRel s h) := by
  rw [lastRel, Record.clk]
  split <;> rfl

theorem Extends.refl (s : State) : Extends s s := fun _ hj => ⟨hj, rfl⟩

theorem IsRelease.extend {v : ℕ} (h : IsRelease s v) (hext : Extends s s') : IsRelease s' v := by
  obtain ⟨j, hv, hpub, hrel⟩ := h
  obtain ⟨hpub', hhist⟩ := hext j hpub
  exact ⟨j, hv, hpub', by rw [hhist, hrel]⟩

theorem Extends.lastRel (hext : Extends s s') (hpub : ∀ j < h, s.published j = true) :
    LogManager.lastRel s' h = LogManager.lastRel s h :=
  lastRel_congr fun j hj => (hext j (hpub j hj)).2

/-! ## Records -/

/-- The record that a thread is about to publish. -/
def RecordOk (tail : ℕ) (hist : ℕ → Record) : ProdPc → Prop
  | .storeRel _ r j | .storeLog _ r j | .storeIdx _ r j => j < tail ∧ (hist j).isRel = r
  | _ => True

/-- The part of the invariant that does not depend on subscribers. -/
structure Records (s : State) : Prop where
  tail_lt : s.tail < idxRange
  published_lt : ∀ j, s.published j = true → j < s.tail
  reserved : ∀ t, RecordOk s.tail s.hist (s.prod t)

theorem records_initial : Records (initial cfg) where
  tail_lt := by
    show 0 < 2 ^ 32
    decide
  published_lt _ h := by cases h
  reserved _ := trivial

theorem RecordOk.extend {tail tail' : ℕ} {hist hist' : ℕ → Record} {pc : ProdPc}
    (h : RecordOk tail hist pc) (htail : tail ≤ tail') (hsame : ∀ j < tail, hist' j = hist j) :
    RecordOk tail' hist' pc := by
  cases pc with
  | storeRel log r j => exact ⟨h.1.trans_le htail, by rw [hsame j h.1, h.2]⟩
  | storeLog log r j => exact ⟨h.1.trans_le htail, by rw [hsame j h.1, h.2]⟩
  | storeIdx log r j => exact ⟨h.1.trans_le htail, by rw [hsame j h.1, h.2]⟩
  | _ => trivial

namespace Records

theorem step (h : Records s) (hwrap : NoWrap cfg s a) (hs : Step cfg nid stops s a s') :
    Records s' ∧ Extends s s' := by
  cases hs with
  | @produceTail t log r hpc =>
      have hincr : incr s.tail = s.tail + 1 := incr_eq hwrap
      refine ⟨⟨?_, fun j hj => ?_, fun u => ?_⟩, fun j hj => ⟨hj, ?_⟩⟩
      · show incr s.tail < idxRange
        rw [hincr]
        exact hwrap
      · have := h.published_lt j hj
        show j < incr s.tail
        omega
      · have hold := h.reserved u
        simp only [State.setProd, update_apply]
        split
        · exact ⟨by rw [hincr]; exact Nat.lt_succ_self _, by simp⟩
        · refine hold.extend (by omega) fun j hj => ?_
          simp [show j ≠ s.tail by omega]
      · have := h.published_lt j hj
        exact update_of_ne (by omega) _ _
  | @storeIdx t log j k r hpc hk =>
      have hres := h.reserved t
      rw [hpc] at hres
      refine ⟨⟨h.tail_lt, fun i hi => ?_, fun u => ?_⟩, fun i hi => ⟨?_, rfl⟩⟩
      · simp only [State.setProd, update_apply] at hi
        split at hi
        · rename_i hij
          exact hij ▸ hres.1
        · exact h.published_lt i hi
      · simp only [State.setProd, update_apply]
        split
        · trivial
        · exact (h.reserved u).extend le_rfl fun _ _ => rfl
      · simp only [State.setProd, update_apply]
        split
        · rfl
        · exact hi
  | _ =>
      refine ⟨⟨h.tail_lt, h.published_lt, fun u => ?_⟩, fun j hj => ⟨hj, rfl⟩⟩
      have hold := h.reserved u
      simp only [State.setProd, State.setCons, State.setSub, State.take, update_apply]
      grind [RecordOk]

end Records

/-! ## Producers -/

/-- The thread whose step in `get_new_log`, `produce_tail` or `write` this is. -/
def Action.producer : Action → Option ℕ
  | .getNewLog t | .write t _ | .produceTail t _ | .prod t => some t
  | .takeHead _ | .cons _ | .removeSubscriber _ | .addSubscriber _ | .sub _ => none

/-- What a thread in `produce_tail` is publishing, and under which index. -/
def ProdPc.publishing : ProdPc → Option (Bool × ℕ)
  | .storeRel _ r j | .storeLog _ r j | .storeIdx _ r j => some (r, j)
  | _ => none

theorem prod_of_ne {t : ℕ} (hs : Step cfg nid stops s a s') (hne : a.producer ≠ some t) :
    s'.prod t = s.prod t := by
  cases hs <;>
    simp only [Action.producer, ne_eq, Option.some.injEq] at hne <;>
    simp [State.setProd, State.setCons, State.setSub, State.take, update_of_ne (Ne.symm hne)]

/-- Inside `produce_tail` the index stays. -/
theorem publishing_of_prod {t : ℕ} {x : Bool × ℕ} (hs : Step cfg nid stops s (.prod t) s')
    (hx : (s'.prod t).publishing = some x) : (s.prod t).publishing = some x := by
  cases hs <;>
    simp only [State.setProd, State.take, update_self, ProdPc.publishing] at hx <;>
    simp_all [ProdPc.publishing]

/-- Until it is published, so does a reserved index. -/
theorem reserved_of_prod {t : ℕ} (hs : Step cfg nid stops s (.prod t) s')
    (hne : ∀ log r j, s.prod t ≠ .storeIdx log r j) : (s'.prod t).reserved = (s.prod t).reserved := by
  cases hs with
  | storeIdx hpc => exact absurd hpc (hne _ _ _)
  | _ => simp [State.setProd, State.take, ProdPc.reserved, *]

/-- What is reserved stays as it was reserved. -/
theorem hist_of_lt (hwrap : NoWrap cfg s a) (hs : Step cfg nid stops s a s') {j : ℕ} (hj : j < s.tail) :
    j < s'.tail ∧ s'.hist j = s.hist j := by
  cases hs with
  | produceTail hpc =>
      have hincr : incr s.tail = s.tail + 1 := incr_eq hwrap
      simp only [State.setProd, hincr]
      exact ⟨by omega, update_of_ne (by omega) _ _⟩
  | _ => exact ⟨hj, rfl⟩

/-- Nobody else writes to a log that a thread holds. -/
theorem buf_of_hold {t log : ℕ} (howned : Owned cfg s) (hs : Step cfg nid stops s a s')
    (hpc : s.prod t = .hold log) (hne : a.producer ≠ some t) : s'.buf log = s.buf log := by
  have hown : OwnedBy s (.producer t) log := by simp [OwnedBy, hpc, ProdPc.holds]
  have hother : ∀ u log', (s.prod u).holds = some log' → some u ≠ some t → log ≠ log' := by
    rintro u log' hu hut rfl
    exact hut (congrArg some (Owner.producer.inj (howned.exclusive.eq hu hown)))
  cases hs with
  | @write u e log' hu => exact update_of_ne (hother u log' (by rw [hu]; rfl) hne) _ _
  | @reset u log' hu => exact update_of_ne (hother u log' (by rw [hu]; rfl) hne) _ _
  | _ => rfl

/-! ## Clocks -/

/-- `v` is zero or names a release. -/
def Named (s : State) (v : ℕ) : Prop := v ≠ 0 → IsRelease s v

theorem Named.extend {v : ℕ} (h : Named s v) (hext : Extends s s') : Named s' v := fun hv =>
  (h hv).extend hext

theorem Named.max {v w : ℕ} (hv : Named s v) (hw : Named s w) : Named s (max v w) := by
  rcases Nat.le_total v w with hle | hle
  · rwa [Nat.max_eq_right hle]
  · rwa [Nat.max_eq_left hle]

theorem Named.le_tail {v : ℕ} (h : Named s v) (hrec : Records s) : v ≤ s.tail := by
  rcases Nat.eq_zero_or_pos v with rfl | hpos
  · exact Nat.zero_le _
  · obtain ⟨j, rfl, hpub, -⟩ := h (by omega)
    exact hrec.published_lt j hpub

/-! ## Heads -/

/-- The step is one of the consumer of node `n`. -/
def Consumes (n : ℕ) : Action → Prop
  | .takeHead m | .cons m => m = n
  | _ => False

/-- Only its own consumer moves the head of a node. -/
theorem head_of_not_consumes (hall : AllSubscribed cfg nid s) (hno : NoSubscription a)
    (hs : Step cfg nid stops s a s') (hn : ¬ Consumes n a) :
    s'.subs n = s.subs n ∧ s'.cons n = s.cons n := by
  cases hs with
  | remove => exact absurd hno id
  | add => exact absurd hno id
  | @subTail m hpc => exact absurd (hall.idle m) (by simp [hpc])
  | @subStore m t hpc => exact absurd (hall.idle m) (by simp [hpc])
  | @subAgain m t hpc => exact absurd (hall.idle m) (by simp [hpc])
  | @subDone m t hpc => exact absurd (hall.idle m) (by simp [hpc])
  | _ =>
      simp only [Consumes, State.setProd, State.setCons, State.take] at hn ⊢
      grind [update_apply]

theorem takeHead_spec (hs : Step cfg nid stops s (.takeHead n) s') :
    s'.subs n = s.subs n ∧ s.cons n = .idle ∧ s'.cons n = .loadIdx (s.subs n).head := by
  cases hs with
  | takeHead hrem hpc => exact ⟨rfl, hpc, by simp [State.setCons]⟩

/-! ## Processed entries -/

/-- The consumer has processed entry number `k` of the log at its head. -/
def ConsPc.Passed (k : ℕ) : ConsPc → Prop
  | .process _ _ i _ => k < i
  | .consume _ | .storeHead _ _ => True
  | .idle | .loadIdx _ | .entry _ | .gotLog _ _ | .gotRel _ _ _ | .start _ _ => False

/-- Node `n` has processed entry number `k` of the log of index `j`. -/
def State.Processed (s : State) (n j k : ℕ) : Prop :=
  j < (s.subs n).head ∨ j = (s.subs n).head ∧ (s.cons n).Passed k

/-- An index that nobody has reserved is not processed. -/
theorem SubscribedInv.lt_tail {j k : ℕ} (hinv : SubscribedInv cfg nid s) (hn : Remote cfg nid n)
    (hp : s.Processed n j k) : j < s.tail := by
  rcases hp with hlt | ⟨rfl, hpassed⟩
  · exact hlt.trans_le (hinv.1.stable n (hinv.2.stable hn)).le_tail
  · refine hinv.1.entries.published_lt _ ?_
    cases hpc : s.cons n with
    | process log clk i size => exact (hinv.1.cons_at hpc).1
    | consume clk => exact (hinv.1.cons_at hpc).1
    | storeHead clk hd => exact (hinv.1.cons_at hpc).1
    | _ => rw [hpc] at hpassed; exact hpassed.elim

/-- What a consumer has processed after a step it had processed before, or it is the entry of this step, or
that entry makes it stop. -/
theorem processed_cons {j k : ℕ} (hinv : SubscribedInv cfg nid s) (hn : Remote cfg nid n)
    (hwrap : NoWrap cfg s (.cons n)) (hs : Step cfg nid stops s (.cons n) s')
    (hk : k < (s.hist j).content.size) (hp : s'.Processed n j k) :
    s.Processed n j k ∨ ∃ log clk i size, s.cons n = .process log clk i size ∧ i < size ∧
      s.buf log = (s.hist j).content ∧ (i = k ∨ stops ((s.buf log).entries i) = true) := by
  have hst := hinv.2.stable hn
  -- the log of the head is as it was published
  have hcontent : ∀ {log clk i size}, s.cons n = .process log clk i size → j = (s.subs n).head →
      size = (s.hist j).content.size ∧ s.buf log = (s.hist j).content := by
    rintro log clk i size hpc rfl
    obtain ⟨hpub, hlog⟩ := hinv.1.cons_at hpc
    obtain ⟨rfl, -, hsize, -⟩ := hlog hst
    exact ⟨hsize, hinv.1.entries.content _ (hinv.1.stable n hst).freed_le
      (hinv.1.entries.published_lt _ hpub)⟩
  cases hs with
  | @storeHead m hd clk hpc =>
      obtain ⟨-, rfl, -⟩ := hinv.1.cons_at hpc
      have hincr : incr (s.subs n).head = (s.subs n).head + 1 := by
        refine incr_eq ?_
        simpa only [NoWrap, hpc] using hwrap
      simp only [State.Processed, State.setCons, update_self, hincr, ConsPc.Passed, and_false,
        or_false] at hp
      refine .inl ?_
      rcases Nat.lt_succ_iff_lt_or_eq.mp hp with hlt | heq
      · exact .inl hlt
      · exact .inr ⟨heq, by rw [hpc]; trivial⟩
  | @processNext m log i size clk hpc hi hgo =>
      simp only [State.Processed, State.setCons, update_self, ConsPc.Passed] at hp
      rcases hp with hlt | ⟨heq, hki⟩
      · exact .inl (.inl hlt)
      rcases Nat.lt_succ_iff_lt_or_eq.mp hki with hlt | rfl
      · exact .inl (.inr ⟨heq, by rw [hpc]; exact hlt⟩)
      · exact .inr ⟨log, clk, k, size, hpc, hi, (hcontent hpc heq).2, .inl rfl⟩
  | @processEnd m log i size clk hpc hend =>
      simp only [State.Processed, State.setCons, update_self, ConsPc.Passed, and_true] at hp
      rcases hp with hlt | heq
      · exact .inl (.inl hlt)
      obtain ⟨hsize, hbuf⟩ := hcontent hpc heq
      rcases Nat.lt_or_ge i size with hi | hi
      · exact .inr ⟨log, clk, i, size, hpc, hi, hbuf, .inr (hend hi)⟩
      · exact .inl (.inr ⟨heq, by rw [hpc]; exact hk.trans_le (hsize ▸ hi)⟩)
  | @loadHead m clk hpc =>
      refine .inl (hp.imp_right fun h => ⟨h.1, ?_⟩)
      rw [hpc]
      trivial
  | @start m log clk hpc =>
      simp only [State.Processed, State.setCons, update_self, ConsPc.Passed, Nat.not_lt_zero, and_false,
        or_false] at hp
      exact .inl (.inl hp)
  | _ =>
      simp only [State.Processed, State.setCons, update_self, ConsPc.Passed, and_false, or_false] at hp
      exact .inl (.inl hp)

end LogManager

end RACoherence
