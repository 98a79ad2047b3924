import RACoherence.LogManager.Invariant

/-!
# Every safe step keeps the invariant
-/

namespace RACoherence

open Function

namespace LogManager

variable {cfg : LogConfig} {nid n : ℕ} {stops : ℕ → Bool} {s s' : State} {a : Action}

namespace Inv

theorem gc_at (h : Inv cfg nid s) {t : ℕ} {pc : ProdPc} (hpc : s.prod t = pc) :
    GcOk cfg nid s pc :=
  hpc ▸ h.gc t

/-- The slot that `perform_gc` looks at next belongs to the oldest index that is not recycled; when it
is published, its log is the one that was published there. -/
theorem oldest (h : Entries cfg s) {i : ℕ} (hi : i = s.freed + cfg.logCount) (hlt : i < idxRange)
    (hpub : SlotPublished cfg s i) :
    s.published s.freed = true ∧ (s.pub (getIdx cfg i)).log = (s.hist s.freed).log := by
  subst hi
  have hpos := cfg.logCount_pos
  rw [SlotPublished, prevRound_add_logCount hlt, incr_eq (by omega)] at hpub
  obtain ⟨j, hj, hidx⟩ := h.idx _ (by rw [hpub]; omega)
  obtain rfl : j = s.freed := by omega
  exact ⟨hj, by rw [getIdx_add_logCount, h.entry _ le_rfl hj]⟩

/-- The taken slot, for both branches of `perform_gc`. -/
theorem oldest_of_gcLoad (h : Inv cfg nid s) {t i newB : ℕ} {sub : Bool}
    (hpc : s.prod t = .gcLoad i newB sub) (hpub : SlotPublished cfg s i) :
    s.published s.freed = true ∧ (s.pub (getIdx cfg i)).log = (s.hist s.freed).log := by
  obtain ⟨hi, hle, hlt, -⟩ := h.gc_at hpc
  exact oldest h.entries hi (by omega) hpub

theorem oldest_of_gcCheck (h : Inv cfg nid s) {t i newB log : ℕ}
    (hpc : s.prod t = .gcCheck i newB log) (hpub : SlotPublished cfg s i) :
    s.published s.freed = true ∧ (s.pub (getIdx cfg i)).log = (s.hist s.freed).log := by
  obtain ⟨hi, hle, hlt, -⟩ := h.gc_at hpc
  exact oldest h.entries hi (by omega) hpub

theorem owned_step (h : Inv cfg nid s) (hok : Safe cfg s a) (hs : Step cfg nid stops s a s') :
    Owned cfg s' := by
  cases hs with
  | produceTail hpc =>
      exact h.owned.produce hpc (freed_le_tail h.entries) hok.noWrap
  | dequeue hpc hq => exact h.owned.dequeue hq (by simp [hpc, ProdPc.holds, ProdPc.inHand]) ⟨rfl, rfl⟩
  | redequeue hpc hq =>
      exact h.owned.dequeue hq (by simp [hpc, ProdPc.holds, ProdPc.inHand]) ⟨rfl, rfl⟩
  | lastDequeue hpc hq =>
      exact h.owned.dequeue hq (by simp [hpc, ProdPc.holds, ProdPc.inHand]) ⟨rfl, rfl⟩
  | @gcTake t i newB hpc hne =>
      have hpub : SlotPublished cfg s i := by
        have := hok.published
        simp only [RecyclesPublished, hpc] at this
        exact this hne
      obtain ⟨hF, hlog⟩ := h.oldest_of_gcLoad hpc hpub
      exact h.owned.take (h.entries.published_lt _ hF)
        (by simp [hpc, ProdPc.holds, ProdPc.inHand]) ⟨rfl, by rw [hlog]; rfl⟩
  | @gcChecked t i newB log hpc hpub =>
      have hsame : (s.pub (getIdx cfg i)).log = log := by
        have := hok.loaded
        simp only [RecyclesLoaded, hpc] at this
        exact this hpub
      obtain ⟨hF, hlog⟩ := h.oldest_of_gcCheck hpc hpub
      exact h.owned.take (h.entries.published_lt _ hF)
        (by simp [hpc, ProdPc.holds, ProdPc.inHand]) ⟨rfl, by rw [← hlog, hsame]; rfl⟩
  | gcEnqueue hpc =>
      exact h.owned.enqueue (by simp [hpc, ProdPc.holds, ProdPc.inHand]) ⟨rfl, rfl⟩
  | _ =>
      refine h.owned.frame rfl rfl rfl rfl fun u => ?_
      simp only [State.setProd, State.setCons, State.setSub, update_apply]
      grind [ProdPc.holds, ProdPc.inHand]

/-- A producer that stays in `perform_gc`, or outside of it, leaves the mutex to its owner. -/
theorem mutex_move (h : Inv cfg nid s) {t : ℕ} {pc : ProdPc} (hpc : pc.inGc = (s.prod t).inGc) (u : ℕ) :
    (update s.prod t pc u).inGc = true ↔ s.gcMtx = some u := by
  rw [← h.mutex u, update_apply]
  split
  · rename_i hut
    rw [hpc, hut]
  · rfl

/-- The thread that unlocks the mutex is the one that was in `perform_gc`. -/
theorem mutex_unlock (h : Inv cfg nid s) {t : ℕ} {pc : ProdPc} (hin : (s.prod t).inGc = true)
    (hout : pc.inGc = false) (u : ℕ) : (update s.prod t pc u).inGc = true ↔ none = some u := by
  have howner := (h.mutex t).mp hin
  rw [update_apply]
  split
  · simp [hout]
  · rename_i hut
    rw [h.mutex u, howner, Option.some.injEq]
    exact iff_of_false (Ne.symm hut) (by simp)

theorem mutex_step (h : Inv cfg nid s) (hs : Step cfg nid stops s a s') (u : ℕ) :
    (s'.prod u).inGc = true ↔ s'.gcMtx = some u := by
  cases hs with
  | @lock t hpc hfree =>
      simp only [State.setProd, update_apply]
      split
      · rename_i hut
        simp [ProdPc.inGc, hut]
      · rename_i hut
        rw [h.mutex u, hfree, Option.some.injEq]
        exact iff_of_false (by simp) (Ne.symm hut)
  | unlockNull hpc => exact h.mutex_unlock (by rw [hpc]; rfl) rfl u
  | unlock hpc => exact h.mutex_unlock (by rw [hpc]; rfl) rfl u
  | _ =>
      first
      | exact h.mutex u
      | exact h.mutex_move (by simp only [*, ProdPc.inGc]) u

/-! ## The entries -/

/-- Unrecycled indices have different slots. -/
theorem getIdx_inj (h : Inv cfg nid s) {i j : ℕ} (hi : s.freed ≤ i) (hi' : i < s.tail)
    (hj : s.freed ≤ j) (hj' : j < s.tail) (heq : getIdx cfg i = getIdx cfg j) : i = j := by
  have hle := h.owned.tail_le
  exact eq_of_getIdx_eq hi (by omega) hj (by omega) heq

theorem freed_le_of_not_published (h : Inv cfg nid s) {j : ℕ} (hj : s.published j = false) :
    s.freed ≤ j := by
  by_contra hlt
  rw [h.entries.freed_published j (by omega)] at hj
  exact absurd hj (by simp)

/-- What a thread in `produce_tail` has reserved. -/
theorem reserved_spec (h : Inv cfg nid s) {t j : ℕ} (hj : (s.prod t).reserved = some j) :
    s.freed ≤ j ∧ j < s.tail ∧ s.published j = false := by
  have hnp := (h.entries.reserved t).spec hj
  exact ⟨h.freed_le_of_not_published hnp.2, hnp⟩

/-- Stores to the slot of a reserved index touch no published entry. -/
theorem slot_ne_of_published (h : Inv cfg nid s) {t i j : ℕ} (hj : (s.prod t).reserved = some j)
    (hi : s.freed ≤ i) (hpub : s.published i = true) : getIdx cfg i ≠ getIdx cfg j := by
  obtain ⟨hj₁, hj₂, hj₃⟩ := h.reserved_spec hj
  intro heq
  obtain rfl := h.getIdx_inj hi (h.entries.published_lt i hpub) hj₁ hj₂ heq
  rw [hpub] at hj₃
  exact absurd hj₃ (by simp)

/-- Two threads in `produce_tail` store to different slots. -/
theorem slot_ne_of_reserved (h : Inv cfg nid s) {t u i j : ℕ} (hi : (s.prod u).reserved = some i)
    (hj : (s.prod t).reserved = some j) (hne : u ≠ t) : getIdx cfg i ≠ getIdx cfg j := by
  obtain ⟨hi₁, hi₂, -⟩ := h.reserved_spec hi
  obtain ⟨hj₁, hj₂, -⟩ := h.reserved_spec hj
  intro heq
  obtain rfl := h.getIdx_inj hi₁ hi₂ hj₁ hj₂ heq
  exact hne (h.entries.reserved_inj u t i hi hj)

/-- A log that a producer holds is published under no unrecycled index. -/
theorem hist_ne_of_holds (h : Inv cfg nid s) {t log j : ℕ} (hlog : (s.prod t).holds = some log)
    (hj : s.freed ≤ j) (hj' : j < s.tail) : (s.hist j).log ≠ log := by
  rintro rfl
  have hidx : OwnedBy s (.index j) (s.hist j).log := ⟨hj, hj', rfl⟩
  have hprod : OwnedBy s (.producer t) (s.hist j).log := hlog
  exact absurd (h.owned.exclusive.eq hidx hprod) (by simp)

/-- Steps that leave the slots and the reserved indices alone; `perform_gc` may have taken the oldest
log. -/
private theorem entries_frame (h : Inv cfg nid s)
    (hf : s'.freed = s.freed ∨ (s'.freed = s.freed + 1 ∧ s.published s.freed = true))
    (ht : s'.tail = s.tail) (hh : s'.hist = s.hist) (hp : s'.pub = s.pub)
    (hpd : s'.published = s.published)
    (hpc : ∀ t, s'.prod t = s.prod t ∨ (s'.prod t).reserved = none)
    (hbuf : ∀ j, s.freed ≤ j → j < s.tail → s'.buf (s.hist j).log = s.buf (s.hist j).log) :
    Entries cfg s' where
  tail_lt := ht ▸ h.entries.tail_lt
  published_lt := by simpa only [ht, hpd] using h.entries.published_lt
  freed_published j hj := by
    rw [hpd]
    by_cases hlt : j < s.freed
    · exact h.entries.freed_published j hlt
    · obtain ⟨hfr, hpub⟩ := hf.resolve_left (by omega)
      rwa [show j = s.freed by omega]
  entry j hj := by
    rw [hpd, hp, hh]
    exact h.entries.entry j (by omega)
  idx := by simpa only [hp, hpd] using h.entries.idx
  reserved u := by
    rcases hpc u with heq | hnone
    · rw [heq]
      exact (h.entries.reserved u).congr ht.ge fun j _ => by rw [hpd, hh, hp]; exact ⟨rfl, rfl, rfl⟩
    · exact .of_none hnone
  reserved_inj u v j hu hv := by
    have hinj := h.entries.reserved_inj u v j
    grind
  content j hj hj' := by
    rw [ht] at hj'
    rw [hh, hbuf j (by omega) hj', h.entries.content j (by omega) hj']

/-- A store to the slot of a reserved index that does not publish it yet. -/
private theorem entries_store (h : Inv cfg nid s) {t j : ℕ} {pc : ProdPc} {e : PubEntry}
    (hj : (s.prod t).reserved = some j) (hpc : pc.reserved = some j)
    (hidx : e.idx = (s.pub (getIdx cfg j)).idx)
    (hres : ReservedOk cfg { s with pub := update s.pub (getIdx cfg j) e } pc) :
    Entries cfg ({ s with pub := update s.pub (getIdx cfg j) e }.setProd t pc) where
  tail_lt := h.entries.tail_lt
  published_lt := h.entries.published_lt
  freed_published := h.entries.freed_published
  entry i hi hpub := by
    have hne := h.slot_ne_of_published hj hi hpub
    simp only [State.setProd, update_of_ne hne]
    exact h.entries.entry i hi hpub
  idx k hk := by
    simp only [State.setProd, update_apply] at hk ⊢
    split at hk
    · rename_i heq
      rw [if_pos heq, hidx]
      exact h.entries.idx _ (by rwa [← hidx])
    · rename_i hne
      rw [if_neg hne]
      exact h.entries.idx k hk
  reserved u := by
    by_cases hu : u = t
    · subst hu
      simp only [State.setProd, update_self]
      exact hres
    · simp only [State.setProd, update_of_ne hu]
      refine (h.entries.reserved u).congr le_rfl fun i hi => ⟨rfl, rfl, ?_⟩
      exact update_of_ne (h.slot_ne_of_reserved hi hj hu) _ _
  reserved_inj u v i hu hv := by
    have hinj := h.entries.reserved_inj u v i
    simp only [State.setProd, update_apply] at hu hv
    grind
  content := h.entries.content

/-- The store of `idx` publishes the reserved index. -/
private theorem entries_publish (h : Inv cfg nid s) {t log j : ℕ} {r : Bool}
    (hpc : s.prod t = .storeIdx log r j) :
    Entries cfg ({ s with
      pub := update s.pub (getIdx cfg j) { s.pub (getIdx cfg j) with idx := incr j }
      published := update s.published j true }.setProd t .idle) where
  tail_lt := h.entries.tail_lt
  published_lt i hi := by
    simp only [State.setProd, update_apply] at hi ⊢
    split at hi
    · rename_i heq
      rw [heq]
      exact (h.reserved_spec (by rw [hpc]; rfl)).2.1
    · exact h.entries.published_lt i hi
  freed_published i hi := by
    simp only [State.setProd, update_apply]
    split
    · rfl
    · exact h.entries.freed_published i hi
  entry i hi hpub := by
    have hres := h.entries.reserved t
    have hj : (s.prod t).reserved = some j := by rw [hpc]; rfl
    have hlt := h.entries.tail_lt
    rw [hpc] at hres
    obtain ⟨hjt, -, hlog, hrel, hrel', hlog'⟩ := hres
    simp only [State.setProd, update_apply] at hpub ⊢
    split at hpub
    · -- the entry that is published by this store
      rename_i heq
      subst heq
      rw [if_pos rfl, incr_eq (by omega), hrel', hlog', hlog, hrel]
    · rw [if_neg (h.slot_ne_of_published hj hi hpub)]
      exact h.entries.entry i hi hpub
  idx k hk := by
    have hlt := h.entries.tail_lt
    have hjt := (h.reserved_spec (t := t) (j := j) (by rw [hpc]; rfl)).2.1
    simp only [State.setProd, update_apply] at hk ⊢
    split
    · exact ⟨j, by simp, incr_eq (by omega)⟩
    · rename_i hne
      rw [if_neg hne] at hk
      obtain ⟨i, hi, heq⟩ := h.entries.idx k hk
      exact ⟨i, by simp [hi], heq⟩
  reserved u := by
    by_cases hu : u = t
    · subst hu
      simp only [State.setProd, update_self]
      trivial
    · have hj : (s.prod t).reserved = some j := by rw [hpc]; rfl
      simp only [State.setProd, update_of_ne hu]
      refine (h.entries.reserved u).congr le_rfl fun i hi => ⟨?_, rfl, ?_⟩
      · refine update_of_ne (fun heq => hu ?_) _ _
        subst heq
        exact h.entries.reserved_inj u t i hi hj
      · exact update_of_ne (h.slot_ne_of_reserved hi hj hu) _ _
  reserved_inj u v i hu hv := by
    have hinj := h.entries.reserved_inj u v i
    simp only [State.setProd, update_apply] at hu hv
    grind [ProdPc.reserved]
  content := h.entries.content

/-- `produce_tail` reserves the next index. -/
private theorem entries_produce (h : Inv cfg nid s) {t log : ℕ} {r : Bool}
    (hwrap : s.tail + 1 < idxRange) :
    Entries cfg ({ s with
      tail := incr s.tail
      hist := update s.hist s.tail ⟨log, r, s.buf log⟩ }.setProd t (.storeRel log r s.tail)) := by
  have hincr : incr s.tail = s.tail + 1 := incr_eq hwrap
  have hunpub : s.published s.tail = false := by
    by_contra hpub
    have := h.entries.published_lt s.tail (by simpa using hpub)
    omega
  simp only [State.setProd, hincr]
  constructor
  · exact hwrap
  · intro i hi
    exact (h.entries.published_lt i hi).trans (Nat.lt_succ_self _)
  · exact h.entries.freed_published
  · intro i hi hpub
    have hne : i ≠ s.tail := (h.entries.published_lt i hpub).ne
    simp only [update_of_ne hne]
    exact h.entries.entry i hi hpub
  · exact h.entries.idx
  · intro u
    by_cases hu : u = t
    · subst hu
      simp only [update_self, ReservedOk]
      exact ⟨Nat.lt_succ_self _, hunpub, trivial, trivial⟩
    · simp only [update_of_ne hu]
      refine (h.entries.reserved u).congr (Nat.le_succ _) fun i hi => ⟨rfl, ?_, rfl⟩
      exact update_of_ne (h.reserved_spec hi).2.1.ne _ _
  · -- an index reserved before is below the new one
    intro u v i hu hv
    have hinj := h.entries.reserved_inj u v i
    have hlt : ∀ w, (s.prod w).reserved = some i → i < s.tail := fun w hw => (h.reserved_spec hw).2.1
    have hu' := hlt u
    have hv' := hlt v
    simp only [update_apply] at hu hv
    grind [ProdPc.reserved]
  · intro j hj hjt
    by_cases heq : j = s.tail
    · subst heq
      simp only [update_self]
    · simp only [update_of_ne heq]
      exact h.entries.content j hj (by simp only at hjt; omega)

theorem entries_step (h : Inv cfg nid s) (hok : Safe cfg s a) (hs : Step cfg nid stops s a s') :
    Entries cfg s' := by
  cases hs with
  | write hpc =>
      refine h.entries_frame (.inl rfl) rfl rfl rfl rfl (fun _ => .inl rfl) fun j hj hjt => ?_
      exact update_of_ne (h.hist_ne_of_holds (by rw [hpc]; rfl) hj hjt) _ _
  | @reset t _ hpc =>
      refine h.entries_frame (.inl rfl) rfl rfl rfl rfl (fun u => ?_) fun j hj hjt => ?_
      · simp only [State.setProd, update_apply]
        grind [ProdPc.reserved]
      · exact update_of_ne (h.hist_ne_of_holds (by rw [hpc]; rfl) hj hjt) _ _
  | produceTail hpc => exact h.entries_produce hok.noWrap
  | @gcTake t i newB hpc hne =>
      have hpub : SlotPublished cfg s i := by
        have := hok.published
        simp only [RecyclesPublished, hpc] at this
        exact this hne
      refine h.entries_frame (.inr ⟨rfl, (h.oldest_of_gcLoad hpc hpub).1⟩) rfl rfl rfl rfl
        (fun u => ?_) fun _ _ _ => rfl
      simp only [State.setProd, State.take, update_apply]
      grind [ProdPc.reserved]
  | gcChecked hpc hpub =>
      refine h.entries_frame (.inr ⟨rfl, (h.oldest_of_gcCheck hpc hpub).1⟩) rfl rfl rfl rfl
        (fun u => ?_) fun _ _ _ => rfl
      simp only [State.setProd, State.take, update_apply]
      grind [ProdPc.reserved]
  | @storeRel t log j k r hpc hk =>
      subst hk
      have hres := h.entries.reserved t
      rw [hpc] at hres
      refine h.entries_store (by rw [hpc]; rfl) rfl rfl ?_
      simpa [ReservedOk] using hres
  | @storeLog t log j k r hpc hk =>
      subst hk
      have hres := h.entries.reserved t
      rw [hpc] at hres
      refine h.entries_store (by rw [hpc]; rfl) rfl rfl ?_
      simpa [ReservedOk] using hres
  | storeIdx hpc hk =>
      subst hk
      exact h.entries_publish hpc
  | _ =>
      refine h.entries_frame (.inl rfl) rfl rfl rfl rfl (fun u => ?_) fun _ _ _ => rfl
      simp only [State.setProd, State.setCons, State.setSub, update_apply]
      grind [ProdPc.reserved]

/-! ## Passes of `perform_gc` -/

/-- While a thread holds the gc mutex, no other thread is in `perform_gc`. -/
theorem not_inPass_of_ne (h : Inv cfg nid s) {t u : ℕ} (ht : (s.prod t).inGc = true) (hne : u ≠ t) :
    (s.prod u).inPass = false := by
  by_contra hpass
  have hu := (h.mutex u).mp (ProdPc.inGc_of_inPass (by simpa using hpass))
  rw [(h.mutex t).mp ht] at hu
  exact hne (Option.some.inj hu).symm

theorem not_recycling_of_ne (h : Inv cfg nid s) {t u : ℕ} (ht : (s.prod t).inGc = true)
    (hne : u ≠ t) : (s.prod u).recycling = false := by
  by_contra hrec
  have hpass := ProdPc.inPass_of_recycling (by simpa using hrec)
  rw [h.not_inPass_of_ne ht hne] at hpass
  exact absurd hpass (by simp)

/-- `bound` is up to date unless the thread itself is recycling. -/
theorem bound_eq (h : Inv cfg nid s) {t : ℕ} (ht : (s.prod t).inGc = true)
    (hrec : (s.prod t).recycling = false) : s.bound = s.freed + cfg.logCount := by
  refine h.bound fun u => ?_
  by_cases hu : u = t
  · rwa [hu]
  · exact h.not_recycling_of_ne ht hu

/-- A thread in a pass sees no subscription in progress. -/
theorem sub_idle_of_inPass (h : Inv cfg nid s) {t : ℕ} (ht : (s.prod t).inPass = true) (n : ℕ) :
    s.sub n = .idle := by
  by_contra hne
  rw [h.quiet n t hne] at ht
  exact absurd ht (by simp)

private theorem gc_actor (h : Inv cfg nid s) {t : ℕ} {pc : ProdPc} {prod : ℕ → ProdPc}
    (ht : (s.prod t).inGc = true) (hprod : prod = update s.prod t pc) (hpc : GcOk cfg nid s' pc)
    (u : ℕ) : GcOk cfg nid s' (prod u) := by
  rw [hprod]
  by_cases hu : u = t
  · rwa [hu, update_self]
  · rw [update_of_ne hu]
    exact .of_not_inPass (h.not_inPass_of_ne ht hu)

private theorem gc_other (h : Inv cfg nid s)
    (hpc : ∀ u, s'.prod u = s.prod u ∨ (s'.prod u).inPass = false) (hb : s'.bound = s.bound)
    (hf : s'.freed = s.freed)
    (hst : ∀ n, Stable cfg nid s' n → Stable cfg nid s n ∧ (s.subs n).head ≤ (s'.subs n).head)
    (u : ℕ) : GcOk cfg nid s' (s'.prod u) := by
  rcases hpc u with heq | hnot
  · rw [heq]
    exact (h.gc u).mono hb hf hst
  · exact .of_not_inPass hnot

theorem gc_step (h : Inv cfg nid s) (hok : Safe cfg s a) (hs : Step cfg nid stops s a s') (u : ℕ) :
    GcOk cfg nid s' (s'.prod u) := by
  have hpos := cfg.logCount_pos
  cases hs with
  | @gcStart t hpc hq =>
      have hwrap : s.bound + cfg.logCount < idxRange := by
        have := hok.noWrap
        simp only [NoWrap, hpc] at this
        exact this hq
      refine h.gc_actor (t := t) (by rw [hpc]; rfl) rfl ?_ u
      rw [nextRound_eq hwrap]
      exact ⟨Nat.le_add_right _ _, le_rfl, hwrap, fun n hn => absurd hn (Nat.not_lt_zero n)⟩
  | @gcSkip t i newB sub hpc hi hskip =>
      obtain ⟨h₁, h₂, h₃, h₄⟩ := h.gc_at hpc
      refine h.gc_actor (t := t) (by rw [hpc]; rfl) rfl ?_ u
      refine ⟨h₁, h₂, h₃, fun n hn hst => ?_⟩
      rcases Nat.lt_succ_iff_lt_or_eq.mp hn with hlt | rfl
      · exact h₄ n hlt hst
      · exact absurd ⟨hst.1.2, hst.2.1⟩ hskip
  | @gcSubscribed t i newB sub hpc hi hne hsub =>
      obtain ⟨h₁, h₂, h₃, h₄⟩ := h.gc_at hpc
      refine h.gc_actor (t := t) (by rw [hpc]; rfl) rfl ?_ u
      exact ⟨h₁, h₂, h₃, fun n hn hst => (h₄ n hn hst).2⟩
  | @gcScanned t i newB sub hpc hi =>
      obtain ⟨h₁, h₂, h₃, h₄⟩ := h.gc_at hpc
      have hb := h.bound_eq (t := t) (by rw [hpc]; rfl) (by rw [hpc]; rfl)
      refine h.gc_actor (t := t) (by rw [hpc]; rfl) rfl ?_ u
      refine ⟨hb, h₁, h₃, fun n hst => h₄ n ?_ hst⟩
      exact hst.1.1.trans_le hi
  | @gcHead t i newB hd hpc hhd =>
      obtain ⟨h₁, h₂, h₃, h₄⟩ := h.gc_at hpc
      have hb := h.bound_eq (t := t) (by rw [hpc]; rfl) (by rw [hpc]; rfl)
      have hwrap : (s.subs i).head + cfg.logCount < idxRange := by
        have := hok.noWrap
        simpa only [NoWrap, hpc] using this
      rw [nextRound_eq hwrap] at hhd
      refine h.gc_actor (t := t) (by rw [hpc]; rfl) rfl ?_ u
      refine ⟨?_, ?_, ?_, fun n hn hst => ⟨rfl, ?_⟩⟩
      · show s.bound ≤ _
        split <;> omega
      · show _ ≤ s.bound + _
        split <;> omega
      · split <;> omega
      · -- a stable head is at least `freed`, so `h` is at least `bound` and is taken into account
        show _ ≤ (s.subs n).head + _
        rcases Nat.lt_succ_iff_lt_or_eq.mp hn with hlt | rfl
        · have := h₄ n hlt hst
          split <;> omega
        · have := (h.stable n hst).freed_le
          split <;> omega
  | @gcEnd t newB sub hpc =>
      refine h.gc_actor (t := t) (by rw [hpc]; rfl) rfl ?_ u
      exact (h.gc_at hpc).1
  | @gcTake t i newB hpc hne =>
      obtain ⟨h₁, h₂, h₃, h₄⟩ := h.gc_at hpc
      refine h.gc_actor (t := t) (by rw [hpc]; rfl) rfl ?_ u
      refine ⟨?_, by omega, h₃, h₄⟩
      show i + 1 = s.freed + 1 + cfg.logCount
      omega
  | @gcPeek t i newB hpc hne =>
      obtain ⟨h₁, h₂, h₃, h₄⟩ := h.gc_at hpc
      refine h.gc_actor (t := t) (by rw [hpc]; rfl) rfl ?_ u
      refine ⟨h₁, by omega, h₃, fun n hst => ?_⟩
      exact absurd (h₄ n hst).1 (by simp)
  | @gcChecked t i newB log hpc hpub =>
      obtain ⟨h₁, h₂, h₃, h₄⟩ := h.gc_at hpc
      refine h.gc_actor (t := t) (by rw [hpc]; rfl) rfl ?_ u
      refine ⟨?_, h₂, h₃, fun n hst => absurd hst (h₄ n)⟩
      show i + 1 = s.freed + 1 + cfg.logCount
      omega
  | @gcStop t i newB log hpc hpub =>
      refine h.gc_actor (t := t) (by rw [hpc]; rfl) rfl ?_ u
      exact (h.gc_at hpc).1
  | @gcEnqueue t i newB log sub hpc =>
      obtain ⟨h₁, h₂, h₃, h₄⟩ := h.gc_at hpc
      refine h.gc_actor (t := t) (by rw [hpc]; rfl) rfl ?_ u
      rw [incr_eq (by omega)]
      exact ⟨h₁, h₂, h₃, h₄⟩
  | @gcStore t newB hpc =>
      refine h.gc_actor (t := t) (by rw [hpc]; rfl) rfl ?_ u
      trivial
  | @storeHead n hd clk hpc =>
      refine h.gc_other ?_ ?_ ?_ (fun m hm => ?_) u
      · exact fun _ => .inl rfl
      · rfl
      · rfl
      have hcons := h.cons n
      rw [hpc] at hcons
      have hwrap : hd + 1 < idxRange := by
        have := hok.noWrap
        simpa only [NoWrap, hpc] using this
      simp only [Stable, State.setCons, update_apply] at hm ⊢
      split
      · rename_i heq
        subst heq
        rw [if_pos rfl] at hm
        rw [incr_eq hwrap, hcons.2.1]
        exact ⟨hm, Nat.le_succ _⟩
      · rename_i hne
        rw [if_neg hne] at hm
        exact ⟨hm, le_rfl⟩
  | @remove n =>
      refine h.gc_other ?_ ?_ ?_ (fun m hm => ?_) u
      · exact fun _ => .inl rfl
      · rfl
      · rfl
      simp only [Stable, update_apply] at hm ⊢
      grind
  | add => exact .of_not_inPass (hok.gc u)
  | @subTail n hpc => exact .of_not_inPass (h.quiet n u (by simp [hpc]))
  | @subStore n t hpc => exact .of_not_inPass (h.quiet n u (by simp [hpc]))
  | @subAgain n t hpc => exact .of_not_inPass (h.quiet n u (by simp [hpc]))
  | @subDone n t hpc => exact .of_not_inPass (h.quiet n u (by simp [hpc]))
  | _ =>
      refine h.gc_other ?_ ?_ ?_ ?_ u
      · intro v
        simp only [State.setProd, State.setCons, update_apply]
        grind [ProdPc.inPass]
      · rfl
      · rfl
      · exact fun n hn => ⟨hn, le_rfl⟩

/-- As long as no thread recycles, and the one that has moved did not do so before, `bound` is in step. -/
theorem bound_move (h : Inv cfg nid s) {t : ℕ} {pc : ProdPc}
    (hnot : ∀ u, (update s.prod t pc u).recycling = false)
    (hpc : (s.prod t).recycling = true → pc.recycling = true) :
    s.bound = s.freed + cfg.logCount := by
  apply h.bound
  intro u
  have hu := hnot u
  rw [update_apply] at hu
  split at hu
  · rename_i hut
    rw [hut, Bool.eq_false_iff]
    intro hin
    rw [hpc hin] at hu
    cases hu
  · exact hu

/-- `bound` is behind only while some thread recycles. -/
theorem bound_step (h : Inv cfg nid s) (hs : Step cfg nid stops s a s')
    (hnot : ∀ t, (s'.prod t).recycling = false) : s'.bound = s'.freed + cfg.logCount := by
  cases hs with
  | @gcTake t => exact absurd (hnot t) (by simp [State.setProd, ProdPc.recycling])
  | @gcChecked t => exact absurd (hnot t) (by simp [State.setProd, ProdPc.recycling])
  | @gcStore t newB hpc => exact (h.gc_at hpc :)
  | _ =>
      first
      | exact h.bound hnot
      | exact h.bound_move hnot (by simp only [*, ProdPc.recycling, imp_self, Bool.false_eq_true, false_imp_iff])

/-! ## Subscribers and consumers -/

/-- What a step may do to a subscriber that is stable before and after it. -/
private theorem subscribed_frame (h : Subscribed s n) (hbase : s'.subBase n = s.subBase n)
    (hhead : s'.subs n = s.subs n) (htail : s.tail ≤ s'.tail) (hfreed : s'.freed ≤ (s.subs n).head)
    (hpub : ∀ j, s.published j = true → s'.published j = true) : Subscribed s' n where
  base_le := by rw [hbase, hhead]; exact h.base_le
  freed_le := by rw [hhead]; exact hfreed
  le_tail := by rw [hhead]; exact h.le_tail.trans htail
  published j hj hlt := by
    rw [hbase] at hj
    rw [hhead] at hlt
    exact hpub j (h.published j hj hlt)

theorem stable_step (h : Inv cfg nid s) (hok : Safe cfg s a) (hs : Step cfg nid stops s a s')
    (m : ℕ) (hst : Stable cfg nid s' m) : Subscribed s' m := by
  have hpos := cfg.logCount_pos
  cases hs with
  | produceTail hpc =>
      have hs := h.stable m hst
      refine subscribed_frame hs rfl rfl ?_ hs.freed_le fun _ => id
      show s.tail ≤ incr s.tail
      rw [incr_eq hok.noWrap]
      omega
  | @gcTake t i newB hpc hne =>
      obtain ⟨h₁, h₂, h₃, h₄⟩ := h.gc_at hpc
      have hs := h.stable m hst
      have hle := (h₄ m hst).2
      refine subscribed_frame hs rfl rfl le_rfl ?_ fun _ => id
      show s.freed + 1 ≤ _
      omega
  | @gcChecked t i newB log hpc hpub =>
      obtain ⟨h₁, h₂, h₃, h₄⟩ := h.gc_at hpc
      exact absurd hst (h₄ m)
  | @storeIdx t log j k r hpc hk =>
      have hs := h.stable m hst
      refine subscribed_frame hs rfl rfl le_rfl hs.freed_le fun i hi => ?_
      simp [State.setProd, update_apply, hi]
  | @storeHead n hd clk hpc =>
      have hcons := h.cons n
      rw [hpc] at hcons
      obtain ⟨hpub, rfl, -⟩ := hcons
      have hwrap : (s.subs n).head + 1 < idxRange := by
        have := hok.noWrap
        simpa only [NoWrap, hpc] using this
      by_cases hm : m = n
      · subst hm
        have hs := h.stable m (by simpa [Stable, State.setCons] using hst)
        have hlt := h.entries.published_lt _ hpub
        obtain ⟨hb, hf, ht, hp⟩ := hs
        simp only [State.setCons, incr_eq hwrap]
        refine ⟨?_, ?_, ?_, fun j hj hlt => ?_⟩ <;> simp only [update_self] at *
        · omega
        · omega
        · omega
        · rcases Nat.lt_succ_iff_lt_or_eq.mp hlt with hlt | rfl
          · exact hp j hj hlt
          · exact hpub
      · have hs := h.stable m (by simpa [Stable, State.setCons, update_of_ne hm] using hst)
        exact subscribed_frame hs rfl (update_of_ne hm _ _) le_rfl hs.freed_le fun _ => id
  | @remove n =>
      have hm : m ≠ n := by
        rintro rfl
        simp [Stable] at hst
      have hs := h.stable m (by simpa [Stable, update_of_ne hm] using hst)
      exact subscribed_frame hs rfl (update_of_ne hm _ _) le_rfl hs.freed_le fun _ => id
  | @add n hn hsub =>
      have hm : m ≠ n := by
        rintro rfl
        simp [Stable, State.setSub] at hst
      have hs := h.stable m (by simpa [Stable, State.setSub, update_of_ne hm] using hst)
      exact subscribed_frame hs rfl (update_of_ne hm _ _) le_rfl hs.freed_le fun _ => id
  | @subTail n hpc =>
      have hm : m ≠ n := by
        rintro rfl
        simp [Stable, State.setSub] at hst
      have hs := h.stable m (by simpa [Stable, State.setSub, update_of_ne hm] using hst)
      exact subscribed_frame hs rfl rfl le_rfl hs.freed_le fun _ => id
  | @subStore n t hpc =>
      have hm : m ≠ n := by
        rintro rfl
        simp [Stable, State.setSub] at hst
      have hs := h.stable m (by simpa [Stable, State.setSub, update_of_ne hm] using hst)
      exact subscribed_frame hs rfl (update_of_ne hm _ _) le_rfl hs.freed_le fun _ => id
  | @subAgain n t hpc =>
      have hm : m ≠ n := by
        rintro rfl
        simp [Stable, State.setSub] at hst
      have hs := h.stable m (by simpa [Stable, State.setSub, update_of_ne hm] using hst)
      exact subscribed_frame hs rfl rfl le_rfl hs.freed_le fun _ => id
  | @subDone n t hpc hle =>
      by_cases hm : m = n
      · subst hm
        have hsub := h.sub m
        rw [hpc] at hsub
        obtain ⟨-, hf, ht, hhead⟩ := hsub
        refine ⟨?_, ?_, ?_, fun j hj hlt => ?_⟩ <;> simp only [State.setSub, update_self] at *
        all_goals omega
      · have hs := h.stable m (by simpa [Stable, State.setSub, update_of_ne hm] using hst)
        exact subscribed_frame hs (update_of_ne hm _ _) rfl le_rfl hs.freed_le fun _ => id
  | _ =>
      exact subscribed_frame (h.stable m hst) rfl rfl le_rfl (h.stable m hst).freed_le fun _ => id


/-- The entry at a stable head is in its slot, and its log has the published content. -/
theorem entry_at_head (h : Inv cfg nid s) (hst : Stable cfg nid s n)
    (hpub : s.published (s.subs n).head = true) :
    s.pub (getIdx cfg (s.subs n).head) =
        ⟨(s.hist (s.subs n).head).log, (s.subs n).head + 1, (s.hist (s.subs n).head).isRel⟩ ∧
      s.buf (s.hist (s.subs n).head).log = (s.hist (s.subs n).head).content :=
  ⟨h.entries.entry _ (h.stable n hst).freed_le hpub,
    h.entries.content _ (h.stable n hst).freed_le (h.entries.published_lt _ hpub)⟩

private theorem cons_other (h : Inv cfg nid s)
    (hpub : ∀ j, s.published j = true → s'.published j = true ∧ s'.hist j = s.hist j)
    (hsub : ∀ m, s.cons m ≠ .idle → (s'.subs m).head = (s.subs m).head ∧
      (Stable cfg nid s' m → Stable cfg nid s m)) (m : ℕ) : ConsOk cfg nid s' m (s.cons m) := by
  by_cases hidle : s.cons m = .idle
  · rw [hidle]
    trivial
  · exact (h.cons m).mono (hsub m hidle).1 (hpub _) (hsub m hidle).2

private theorem cons_actor (h : Inv cfg nid s) {pc : ConsPc}
    (hpc : ConsOk cfg nid (s.setCons n pc) n pc) (m : ℕ) :
    ConsOk cfg nid (s.setCons n pc) m ((s.setCons n pc).cons m) := by
  by_cases hm : m = n
  · subst hm
    simp only [State.setCons, update_self]
    exact hpc
  · simp only [State.setCons, update_of_ne hm]
    exact (h.cons m).mono rfl (fun hp => ⟨hp, rfl⟩) id

theorem cons_at (h : Inv cfg nid s) {pc : ConsPc} (hpc : s.cons n = pc) : ConsOk cfg nid s n pc :=
  hpc ▸ h.cons n

theorem cons_step (h : Inv cfg nid s) (hok : Safe cfg s a) (hs : Step cfg nid stops s a s')
    (m : ℕ) : ConsOk cfg nid s' m (s'.cons m) := by
  cases hs with
  | takeHead hn hpc =>
      refine h.cons_actor ?_ m
      rfl
  | takeNull hpc hne =>
      refine h.cons_actor ?_ m
      trivial
  | @takeEntry n hd hpc hidx =>
      have hwrap : hd + 1 < idxRange := by
        have := hok.noWrap
        simpa only [NoWrap, hpc] using this
      obtain rfl : hd = (s.subs n).head := h.cons_at hpc
      rw [incr_eq hwrap] at hidx
      obtain ⟨j, hj, heq⟩ := h.entries.idx _ (by rw [hidx]; omega)
      obtain rfl : j = (s.subs n).head := by omega
      refine h.cons_actor ?_ m
      exact ⟨hj, rfl⟩
  | @loadLog n k hpc =>
      obtain ⟨hp, rfl⟩ := h.cons_at hpc
      refine h.cons_actor ?_ m
      refine ⟨hp, rfl, fun hst => ?_⟩
      rw [(h.entry_at_head hst hp).1]
      rfl
  | @loadRel n k log hpc =>
      obtain ⟨hp, rfl, hlog⟩ := h.cons_at hpc
      refine h.cons_actor ?_ m
      refine ⟨hp, rfl, fun hst => ⟨hlog hst, ?_⟩⟩
      rw [(h.entry_at_head hst hp).1]
      rfl
  | @loadClk n k log isRel hpc =>
      obtain ⟨hp, rfl, hlog⟩ := h.cons_at hpc
      refine h.cons_actor ?_ m
      refine ⟨hp, fun hst => ⟨(hlog hst).1, ?_⟩⟩
      rw [(h.entry_at_head hst hp).1, (hlog hst).2]
      rfl
  | @start n log clk hpc =>
      obtain ⟨hp, hlog⟩ := h.cons_at hpc
      refine h.cons_actor ?_ m
      refine ⟨hp, fun hst => ⟨(hlog hst).1, (hlog hst).2, ?_, Nat.zero_le _⟩⟩
      rw [(hlog hst).1, (h.entry_at_head hst hp).2]
      rfl
  | @processNext n log i size clk hpc hi =>
      obtain ⟨hp, hlog⟩ := h.cons_at hpc
      refine h.cons_actor ?_ m
      exact ⟨hp, fun hst => ⟨(hlog hst).1, (hlog hst).2.1, (hlog hst).2.2.1, hi⟩⟩
  | processEnd hpc =>
      obtain ⟨hp, hlog⟩ := h.cons_at hpc
      refine h.cons_actor ?_ m
      exact ⟨hp, fun hst => (hlog hst).2.1⟩
  | loadHead hpc =>
      obtain ⟨hp, hclk⟩ := h.cons_at hpc
      refine h.cons_actor ?_ m
      exact ⟨hp, rfl, hclk⟩
  | @storeHead n hd clk hpc =>
      by_cases hm : m = n
      · subst hm
        simp only [State.setCons, update_self]
        trivial
      · simp only [State.setCons, update_of_ne hm]
        refine (h.cons m).mono ?_ (fun hp => ⟨hp, rfl⟩) ?_
        · simp [update_of_ne hm]
        · simp [Stable, update_of_ne hm]
  | produceTail hpc =>
      refine h.cons_other ?_ ?_ m
      · intro j hj
        exact ⟨hj, update_of_ne (h.entries.published_lt j hj).ne _ _⟩
      · exact fun _ _ => ⟨rfl, id⟩
  | storeIdx hpc hk =>
      refine h.cons_other ?_ ?_ m
      · intro j hj
        simp [State.setProd, update_apply, hj]
      · exact fun _ _ => ⟨rfl, id⟩
  | @remove n =>
      refine h.cons_other ?_ ?_ m
      · exact fun j hj => ⟨hj, rfl⟩
      · intro u _
        simp only [Stable, update_apply]
        grind
  | @add n =>
      refine h.cons_other ?_ ?_ m
      · exact fun j hj => ⟨hj, rfl⟩
      · intro u hu
        have hidle : s.cons n = .idle := hok.consume
        simp only [Stable, State.setSub, update_apply]
        grind
  | @subTail n hpc =>
      refine h.cons_other ?_ ?_ m
      · exact fun j hj => ⟨hj, rfl⟩
      · intro u hu
        have hidle := h.apart n (by simp [hpc])
        simp only [Stable, State.setSub, update_apply]
        grind
  | @subStore n t hpc =>
      refine h.cons_other ?_ ?_ m
      · exact fun j hj => ⟨hj, rfl⟩
      · intro u hu
        have hidle := h.apart n (by simp [hpc])
        simp only [Stable, State.setSub, update_apply]
        grind
  | @subAgain n t hpc =>
      refine h.cons_other ?_ ?_ m
      · exact fun j hj => ⟨hj, rfl⟩
      · intro u hu
        have hidle := h.apart n (by simp [hpc])
        simp only [Stable, State.setSub, update_apply]
        grind
  | @subDone n t hpc =>
      refine h.cons_other ?_ ?_ m
      · exact fun j hj => ⟨hj, rfl⟩
      · intro u hu
        have hidle := h.apart n (by simp [hpc])
        simp only [Stable, State.setSub, update_apply]
        grind
  | _ =>
      refine h.cons_other ?_ ?_ m
      · exact fun j hj => ⟨hj, rfl⟩
      · exact fun _ _ => ⟨rfl, id⟩

/-! ## Subscriptions in progress -/

theorem sub_at (h : Inv cfg nid s) {pc : SubPc} (hpc : s.sub n = pc) : SubOk s n pc :=
  hpc ▸ h.sub n

/-- A subscription in progress sees the tail grow and nothing recycled. -/
private theorem sub_other {pc : SubPc} (h : SubOk s n pc) (hf : pc ≠ .idle → s'.freed = s.freed)
    (ht : s.tail ≤ s'.tail) (hsub : pc ≠ .idle → s'.subs n = s.subs n) : SubOk s' n pc := by
  cases pc with
  | idle => trivial
  | loadTail => rwa [SubOk, hsub (by simp)]
  | storeHead t =>
      obtain ⟨h₁, h₂, h₃⟩ := h
      rw [SubOk, hsub (by simp), hf (by simp)]
      exact ⟨h₁, h₂, h₃.trans ht⟩
  | recheck t =>
      obtain ⟨h₁, h₂, h₃, h₄⟩ := h
      rw [SubOk, hsub (by simp), hf (by simp)]
      exact ⟨h₁, h₂, h₃.trans ht, h₄⟩

theorem sub_step (h : Inv cfg nid s) (hok : Safe cfg s a) (hs : Step cfg nid stops s a s')
    (m : ℕ) : SubOk s' m (s'.sub m) := by
  cases hs with
  | produceTail hpc =>
      refine sub_other (h.sub m) (fun _ => rfl) ?_ fun _ => rfl
      show s.tail ≤ incr s.tail
      rw [incr_eq hok.noWrap]
      omega
  | @gcTake t i newB hpc =>
      refine sub_other (h.sub m) (fun hne => ?_) le_rfl fun _ => rfl
      exact absurd (h.sub_idle_of_inPass (t := t) (by rw [hpc]; rfl) m) hne
  | @gcChecked t i newB log hpc =>
      refine sub_other (h.sub m) (fun hne => ?_) le_rfl fun _ => rfl
      exact absurd (h.sub_idle_of_inPass (t := t) (by rw [hpc]; rfl) m) hne
  | @storeHead n hd clk hpc =>
      refine sub_other (h.sub m) (fun _ => rfl) le_rfl fun hne => ?_
      have hm : m ≠ n := by
        rintro rfl
        have := h.apart m hne
        simp [hpc] at this
      simp [State.setCons, update_of_ne hm]
  | @remove n _ hidle =>
      refine sub_other (h.sub m) (fun _ => rfl) le_rfl fun hne => ?_
      have hm : m ≠ n := by
        rintro rfl
        exact hne hidle
      simp [update_of_ne hm]
  | @add n _ hidle =>
      by_cases hm : m = n
      · subst hm
        simp [State.setSub, SubOk]
      · simp only [State.setSub, update_of_ne hm]
        exact sub_other (h.sub m) (fun _ => rfl) le_rfl fun _ => by simp [update_of_ne hm]
  | @subTail n hpc =>
      by_cases hm : m = n
      · subst hm
        simp only [State.setSub, update_self, SubOk]
        exact ⟨h.sub_at hpc, freed_le_tail h.entries, le_rfl⟩
      · simp only [State.setSub, update_of_ne hm]
        exact sub_other (h.sub m) (fun _ => rfl) le_rfl fun _ => rfl
  | @subStore n t hpc =>
      by_cases hm : m = n
      · subst hm
        obtain ⟨h₁, h₂, h₃⟩ := h.sub_at hpc
        simp only [State.setSub, update_self, SubOk]
        exact ⟨h₁, h₂, h₃, trivial⟩
      · simp only [State.setSub, update_of_ne hm]
        exact sub_other (h.sub m) (fun _ => rfl) le_rfl fun _ => by simp [update_of_ne hm]
  | @subAgain n t hpc =>
      by_cases hm : m = n
      · subst hm
        obtain ⟨h₁, h₂, h₃, h₄⟩ := h.sub_at hpc
        simp only [State.setSub, update_self, SubOk]
        exact ⟨h₁, freed_le_tail h.entries, le_rfl⟩
      · simp only [State.setSub, update_of_ne hm]
        exact sub_other (h.sub m) (fun _ => rfl) le_rfl fun _ => rfl
  | @subDone n t hpc =>
      by_cases hm : m = n
      · subst hm
        simp only [State.setSub, update_self]
        trivial
      · simp only [State.setSub, update_of_ne hm]
        exact sub_other (h.sub m) (fun _ => rfl) le_rfl fun _ => rfl
  | _ => exact sub_other (h.sub m) (fun _ => rfl) le_rfl fun _ => rfl

theorem quiet_step (h : Inv cfg nid s) (hok : Safe cfg s a) (hs : Step cfg nid stops s a s')
    (m u : ℕ) (hm : s'.sub m ≠ .idle) : (s'.prod u).inPass = false := by
  have hmove : ∀ {t : ℕ} {pc : ProdPc}, s.sub m ≠ .idle →
      (pc.inPass = true → (s.prod t).inPass = true) → (update s.prod t pc u).inPass = false := by
    intro t pc hsub hpc
    rw [update_apply]
    split
    · rw [Bool.eq_false_iff]
      intro hin
      rw [h.quiet m t hsub] at hpc
      exact absurd (hpc hin) (by simp)
    · exact h.quiet m u hsub
  cases hs with
  | @gcStart t hpc hempty =>
      -- a pass starts only when no subscription is in progress
      have hidle : ∀ n, s.sub n = .idle := hok.gc hpc hempty
      exact absurd (hidle m) hm
  | add => exact hok.gc u
  | @subTail n hpc => exact h.quiet n u (by simp [hpc])
  | @subStore n t hpc => exact h.quiet n u (by simp [hpc])
  | @subAgain n t hpc => exact h.quiet n u (by simp [hpc])
  | @subDone n t hpc => exact h.quiet n u (by simp [hpc])
  | _ =>
      first
      | exact h.quiet m u hm
      | exact hmove hm (by simp only [*, ProdPc.inPass, imp_self, Bool.false_eq_true, false_imp_iff])

theorem apart_step (h : Inv cfg nid s) (hok : Safe cfg s a) (hs : Step cfg nid stops s a s')
    (m : ℕ) (hm : s'.sub m ≠ .idle) : s'.cons m = .idle := by
  -- a consumer that moves is not that of a node that is subscribing
  have hcons : ∀ {n : ℕ} {pc : ConsPc}, s.cons n ≠ .idle → s.sub m ≠ .idle →
      update s.cons n pc m = .idle := by
    intro n pc hn hsub
    have hidle := h.apart m hsub
    rw [update_of_ne, hidle]
    rintro rfl
    exact hn hidle
  have hsub : ∀ {n : ℕ} {pc : SubPc}, s.sub n ≠ .idle → update s.sub n pc m ≠ .idle → s.cons m = .idle := by
    intro n pc hn hsub
    apply h.apart m
    by_cases hmn : m = n
    · rwa [hmn]
    · rwa [update_of_ne hmn] at hsub
  cases hs with
  | @takeHead n hn hpc =>
      have hidle : s.sub n = .idle := hok.consume
      have hne : m ≠ n := by
        rintro rfl
        exact hm hidle
      exact (update_of_ne hne _ _).trans (h.apart m hm)
  | @add n hn hidle _ =>
      by_cases hmn : m = n
      · rw [hmn]
        exact hok.consume
      · have hm' : update s.sub n .loadTail m ≠ .idle := hm
        rw [update_of_ne hmn] at hm'
        exact h.apart m hm'
  | subTail hpc | subStore hpc | subAgain hpc _ | subDone hpc _ => exact hsub (by simp [hpc]) hm
  | _ =>
      first
      | exact h.apart m hm
      | exact hcons (by simp [*]) hm

/-- A safe step keeps the invariant. -/
theorem step (h : Inv cfg nid s) (hok : Safe cfg s a) (hs : Step cfg nid stops s a s') :
    Inv cfg nid s' where
  owned := h.owned_step hok hs
  entries := h.entries_step hok hs
  mutex := h.mutex_step hs
  gc := h.gc_step hok hs
  bound := h.bound_step hs
  stable := h.stable_step hok hs
  cons := h.cons_step hok hs
  sub := h.sub_step hok hs
  quiet := h.quiet_step hok hs
  apart := h.apart_step hok hs

end Inv

/-- The invariant holds of the constructed ring. -/
theorem inv_initial : Inv cfg nid (initial cfg) where
  owned := by
    refine ⟨⟨fun log hlog => ⟨.queued, ?_, ?_⟩, ?_⟩, List.nodup_range⟩
    · simpa [OwnedBy, initial] using hlog
    · rintro (_ | t | t | j) ho
      · rfl
      all_goals simp [OwnedBy, initial, ProdPc.inHand, ProdPc.holds] at ho
    · rintro (_ | t | t | j) log ho
      · simpa [OwnedBy, initial] using ho
      all_goals simp [OwnedBy, initial, ProdPc.inHand, ProdPc.holds] at ho
  entries := by
    constructor <;> simp [initial, ReservedOk, ProdPc.reserved, idxRange]
  mutex t := by simp [initial, ProdPc.inGc]
  gc t := trivial
  bound _ := by simp [initial, nextRound_eq (x := 0) (by simpa using cfg.logCount_lt)]
  stable n _ := by constructor <;> simp [initial]
  cons n := trivial
  sub n := trivial
  quiet n t hn := absurd rfl hn
  apart n hn := absurd rfl hn

end LogManager

end RACoherence
