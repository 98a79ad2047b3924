import RACoherence.CLTracker.Invalidate

/-!
# A call that nobody interrupts

A call of the lazy path is a function of the tracker in one place and a thread that moves step by step
among others in another. As long as no other thread moves the two are the same: the steps of the thread
lead to the tracker that the function returns, and flush the lines that it returns. This is for
`CL_EXPAND_SHIFT=0`.
-/

namespace RACoherence

open Function Relation CacheLineTracker

namespace LazyInvalidate

/-- The steps of thread `t`. -/
abbrev Walks (t : ℕ) : State → State → Prop := ReflTransGen (machine.Next fun _ a => a = .thread t)

/-- The lines of the addresses `vas` are flushed. -/
def flushAll (flushed : ℕ → Bool) (vas : List ℕ) : ℕ → Bool :=
  vas.foldl (fun f va => update f (lineOf 0 va) true) flushed

/-- A call with the outcome `o` has taken effect. -/
def State.after (s : State) (o : Outcome) : State :=
  { s with tracker := o.tracker, flushed := flushAll s.flushed o.invalidated }

variable {s s' : State} {t addr end_ : ℕ}

theorem after_start : s.after (.start s.tracker) = s := rfl

theorem after_after (o o' : Outcome) :
    (s.after o).after o' = s.after (o.andThen o') := by
  simp [State.after, flushAll, Outcome.andThen]

theorem walks_setPc {pc : Pc} (hs : stepThread (s.setPc t pc) t = some s') :
    Walks t (s.setPc t pc) s' :=
  .single ⟨.thread t, rfl, hs⟩

/-! ## The range path -/

/-- The flushes of one leaf. -/
theorem walks_flush {bits : ℕ} (hbits : bits < 2 ^ 64) (s : State) :
    Walks t (s.setPc t (.rangeFlush addr end_ bits))
      ({ s with flushed := flushAll s.flushed ((Bits.popBits 64 64 bits).map (lineVa 0 addr)) }.setPc t
        (.rangeLoop (pageEndVa 0 addr) end_)) := by
  refine Bits.popBits_induction (P := fun bits l => ∀ s : State,
    Walks t (s.setPc t (.rangeFlush addr end_ bits))
      ({ s with flushed := flushAll s.flushed (l.map (lineVa 0 addr)) }.setPc t
        (.rangeLoop (pageEndVa 0 addr) end_))) ?_ ?_ hbits s
  · intro s
    apply walks_setPc
    simp [stepThread, State.setPc, flushAll]
  · intro m l hm hrest s
    have hnext := hrest (s.doInvalidate (lineVa 0 addr (Bits.ctz 64 m)))
    refine (walks_setPc ?_).trans hnext
    simp [stepThread, State.setPc, State.doInvalidate, hm]

/-- One iteration. -/
theorem walks_rangeBody (s : State) (hlt : addr < end_) :
    Walks t (s.setPc t (.rangeLoop addr end_))
      ((s.after (rangeBody 0 end_ ⟨addr, .start s.tracker⟩).out).setPc t
        (.rangeLoop (rangeBody 0 end_ ⟨addr, .start s.tracker⟩).addr end_)) := by
  have henter : Walks t (s.setPc t (.rangeLoop addr end_)) (s.setPc t (.rangeL2 addr end_)) := by
    apply walks_setPc
    simp [stepThread, State.setPc, hlt]
  apply henter.trans
  unfold rangeBody
  dsimp only [Outcome.start]
  cases hl2 : s.tracker (splitVa 0 addr).l1 with
  | none =>
      dsimp only
      apply walks_setPc
      simp [stepThread, State.setPc, hl2, State.after, flushAll]
  | some l2 =>
      have hload : Walks t (s.setPc t (.rangeL2 addr end_)) (s.setPc t (.rangeLeaf addr end_)) := by
        apply walks_setPc
        simp [stepThread, State.setPc, hl2]
      apply hload.trans
      dsimp only
      cases hleaf : l2 (splitVa 0 addr).l2 with
      | none =>
          dsimp only
          apply walks_setPc
          simp [stepThread, State.setPc, hl2, hleaf, State.after, flushAll]
      | some leaf =>
          have hclear : Walks t (s.setPc t (.rangeLeaf addr end_)) (s.setPc t (.rangeClear addr end_)) := by
            apply walks_setPc
            simp [stepThread, State.setPc, hl2, hleaf]
          apply hclear.trans
          dsimp only
          have hmask := @rangeMask_lt 0 addr end_
          have hdirty : leafMask 0 s.tracker addr = leaf := by
            simp [leafMask, hl2, hleaf]
          have hflush := @walks_flush t addr end_ _ (Nat.and_le_right.trans_lt hmask : leaf &&& _ < _)
            { s with tracker := clearMask 0 addr (rangeMask 0 addr end_) s.tracker }
          refine .trans (walks_setPc ?_) hflush
          simp [stepThread, State.setPc, hdirty]

/-- The loop: what it has done before does not matter. -/
theorem walks_rangeLoop {fuel : ℕ} {r : RangeState} {o : Outcome}
    (hloop : rangeLoop 0 end_ fuel r = some o) (s : State)
    (htracker : s.tracker = r.out.tracker) :
    ∃ o', o = r.out.andThen o' ∧
      Walks t (s.setPc t (.rangeLoop r.addr end_)) ((s.after o').setPc t .idle) := by
  induction fuel generalizing r s with
  | zero => simp [rangeLoop] at hloop
  | succ fuel ih =>
      rw [rangeLoop] at hloop
      split at hloop
      · rename_i hlt
        have hout := @out_rangeBody 0 end_ r
        have haddr : (rangeBody 0 end_ r).addr =
            (rangeBody 0 end_ ⟨r.addr, .start r.out.tracker⟩).addr := by
          rw [rangeBody_eq, rangeBody_eq]
        have hbody := @walks_rangeBody t r.addr end_ s hlt
        rw [htracker, ← haddr] at hbody
        obtain ⟨o', ho, hrest⟩ := ih hloop (s.after _) (by rw [hout]; rfl)
        refine ⟨_, ?_, hbody.trans (by rw [after_after] at hrest; exact hrest)⟩
        rw [ho, hout]
        simp [Outcome.andThen, Bool.or_assoc]
      · rename_i hlt
        obtain rfl := Option.some.inj hloop
        refine ⟨.start r.out.tracker, by simp [Outcome.andThen,
          Outcome.start], ?_⟩
        rw [← htracker, after_start]
        apply walks_setPc
        simp [stepThread, State.setPc, hlt]

/-! ## Whole calls -/

theorem setPc_after {o : Outcome} (hidle : s.pc t = .idle) :
    ((s.after o).setPc t .idle) = s.after o := by
  simp [State.setPc, State.after, ← hidle]

/-- `invalidate_range_if_dirty` of one thread. -/
theorem invalidateRange_alone {begin fuel : ℕ} {o : Outcome} (hidle : s.pc t = .idle)
    (hcall : invalidateRangeIfDirty 0 fuel begin end_ s.tracker = some o) :
    ∃ s₁, step s (.invalidateRange t begin end_) = some s₁ ∧ Walks t s₁ (s.after o) := by
  refine ⟨_, if_pos hidle, ?_⟩
  obtain ⟨o', ho, hwalk⟩ := @walks_rangeLoop t end_ fuel _ o hcall s rfl
  rw [rangeStart, Outcome.start_andThen] at ho
  rwa [← ho, setPc_after hidle] at hwalk

/-- `invalidate_if_dirty` of one thread. -/
theorem invalidate_alone {va : ℕ} (hidle : s.pc t = .idle) :
    ∃ s₁, step s (.invalidate t va) = some s₁ ∧
      Walks t s₁ (s.after (invalidateIfDirty 0 va s.tracker)) := by
  refine ⟨_, if_pos hidle, ?_⟩
  rw [← setPc_after hidle]
  have hmove : ∀ {s : State} {pc pc' : Pc}, stepThread (s.setPc t pc) t = some (s.setPc t pc') →
      Walks t (s.setPc t pc) (s.setPc t pc') := walks_setPc
  cases hl2 : s.tracker (splitVa 0 va).l1 with
  | none =>
      have hclean : isDirty 0 s.tracker va = false := by simp [isDirty, hl2]
      rw [invalidateIfDirty, if_neg (by simp [hclean]), after_start]
      apply hmove
      simp [stepThread, State.setPc, hl2]
  | some l2 =>
      apply ReflTransGen.trans (b := s.setPc t (.loadLeaf va))
      · apply hmove
        simp [stepThread, State.setPc, hl2]
      cases hleaf : l2 (splitVa 0 va).l2 with
      | none =>
          have hclean : isDirty 0 s.tracker va = false := by simp [isDirty, hl2, hleaf]
          rw [invalidateIfDirty, if_neg (by simp [hclean]), after_start]
          apply hmove
          simp [stepThread, State.setPc, hl2, hleaf]
      | some leaf =>
          apply ReflTransGen.trans (b := s.setPc t (.test va))
          · apply hmove
            simp [stepThread, State.setPc, hl2, hleaf]
          by_cases hdirty : isDirty 0 s.tracker va = true
          · rw [invalidateIfDirty, if_pos hdirty]
            apply ReflTransGen.trans (b := s.setPc t (.flush va))
            · apply hmove
              simp [stepThread, State.setPc, hdirty]
            apply ReflTransGen.trans (b := (s.doInvalidate va).setPc t (.fence va))
            · apply walks_setPc
              simp [stepThread, State.setPc, State.doInvalidate]
            apply ReflTransGen.trans (b := (s.doInvalidate va).setPc t (.clear va))
            · apply walks_setPc
              simp [stepThread, State.setPc]
            apply walks_setPc
            simp [stepThread, State.setPc, State.doInvalidate, State.after, flushAll]
          · rw [invalidateIfDirty, if_neg hdirty, after_start]
            apply hmove
            simp [stepThread, State.setPc, hdirty]

end LazyInvalidate

end RACoherence
