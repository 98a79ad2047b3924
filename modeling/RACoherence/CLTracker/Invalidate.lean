import RACoherence.CLTracker.Flush
import RACoherence.Lib.Machine

/-!
# Lazy invalidation

Reference: `include/clTracker.hpp`, `invalidate_if_dirty` and `invalidate_range_if_dirty`, with
`CL_EXPAND_SHIFT=0`.

Any number of threads of a node check lines before they read them. For a single line the flush comes
first and the bit is cleared after it; the range path clears the bits of a leaf in one step and flushes
the lines afterwards, so that in between another thread finds the line clean while its copy is stale.

Not in the program is what is known of a line: whether it has ever been marked, and whether it has been
flushed since the last mark.
-/

namespace RACoherence

open Function CacheLineTracker

namespace LazyInvalidate

/-- Where a thread is in `invalidate_if_dirty(va)` or in `invalidate_range_if_dirty`, whose `addr` and
`end` it carries. -/
inductive Pc
  | idle
  | loadL2 (va : ℕ)
  | loadLeaf (va : ℕ)
  | test (va : ℕ)
  | flush (va : ℕ)
  | fence (va : ℕ)
  | clear (va : ℕ)
  | rangeLoop (addr end_ : ℕ)
  | rangeL2 (addr end_ : ℕ)
  | rangeLeaf (addr end_ : ℕ)
  | rangeClear (addr end_ : ℕ)
  | rangeFlush (addr end_ bits : ℕ)
  deriving DecidableEq, Repr

structure State where
  tracker : CacheLineTracker
  pc : ℕ → Pc
  marked : ℕ → Bool
  flushed : ℕ → Bool

inductive Action
  | mark (va mask : ℕ)
  | invalidate (t va : ℕ)
  | invalidateRange (t begin end_ : ℕ)
  | thread (t : ℕ)
  deriving DecidableEq, Repr

def initial : State where
  tracker := CacheLineTracker.empty
  pc _ := .idle
  marked _ := false
  flushed _ := false

/-- Line `l` is among those that `mark_dirty(va, mask)` marks. -/
def MarkedBy (va mask l : ℕ) : Prop := l / 64 = blockOf 0 va ∧ mask.testBit (l % 64) = true

instance (va mask l : ℕ) : Decidable (MarkedBy va mask l) :=
  inferInstanceAs (Decidable (_ ∧ _))

namespace State

/-- Move thread `t` to `pc`. -/
def setPc (s : State) (t : ℕ) (pc : Pc) : State := { s with pc := update s.pc t pc }

/-- `do_invalidate` on the line of `va`. -/
def doInvalidate (s : State) (va : ℕ) : State :=
  { s with flushed := update s.flushed (lineOf 0 va) true }

/-- `mark_dirty(va, mask)` -/
def mark (s : State) (va mask : ℕ) : State :=
  { s with
    tracker := markDirty 0 va mask s.tracker
    marked := fun l => decide (MarkedBy va mask l) || s.marked l
    flushed := fun l => !decide (MarkedBy va mask l) && s.flushed l }

end State

/-- The next step of thread `t`. -/
def stepThread (s : State) (t : ℕ) : Option State :=
  match s.pc t with
  | .idle => none
  | .loadL2 va =>
      match s.tracker (splitVa 0 va).l1 with
      | none => some (s.setPc t .idle)
      | some _ => some (s.setPc t (.loadLeaf va))
  | .loadLeaf va =>
      match (s.tracker (splitVa 0 va).l1).bind fun l2 => l2 (splitVa 0 va).l2 with
      | none => some (s.setPc t .idle)
      | some _ => some (s.setPc t (.test va))
  | .test va => some (s.setPc t (if isDirty 0 s.tracker va then .flush va else .idle))
  | .flush va => some ((s.doInvalidate va).setPc t (.fence va))
  | .fence va => some (s.setPc t (.clear va))
  | .clear va => some ({ s with tracker := clearDirty 0 va s.tracker }.setPc t .idle)
  | .rangeLoop addr end_ => some (s.setPc t (if addr < end_ then .rangeL2 addr end_ else .idle))
  | .rangeL2 addr end_ =>
      match s.tracker (splitVa 0 addr).l1 with
      | none => some (s.setPc t (.rangeLoop (pageEndVa 0 addr) end_))
      | some _ => some (s.setPc t (.rangeLeaf addr end_))
  | .rangeLeaf addr end_ =>
      match (s.tracker (splitVa 0 addr).l1).bind fun l2 => l2 (splitVa 0 addr).l2 with
      | none => some (s.setPc t (.rangeLoop (pageEndVa 0 addr) end_))
      | some _ => some (s.setPc t (.rangeClear addr end_))
  | .rangeClear addr end_ =>
      some ({ s with tracker := clearMask 0 addr (rangeMask 0 addr end_) s.tracker }.setPc t
        (.rangeFlush addr end_ (leafMask 0 s.tracker addr &&& rangeMask 0 addr end_)))
  | .rangeFlush addr end_ bits =>
      if bits = 0 then some (s.setPc t (.rangeLoop (pageEndVa 0 addr) end_))
      else
        some ((s.doInvalidate (lineVa 0 addr (Bits.ctz 64 bits))).setPc t
          (.rangeFlush addr end_ (bits &&& (bits - 1))))

/-- One step; `none` when the action is not enabled. -/
def step (s : State) : Action → Option State
  | .mark va mask => some (s.mark va mask)
  | .invalidate t va => if s.pc t = .idle then some (s.setPc t (.loadL2 va)) else none
  | .invalidateRange t begin end_ =>
      if s.pc t = .idle then
        some (s.setPc t (.rangeLoop ((begin >>> virtualClShift 0) <<< virtualClShift 0) end_))
      else none
  | .thread t => stepThread s t

/-- The threads of a node as a transition system. -/
def machine : Machine State Action where
  init s := s = initial
  step := step

/-- The lines that the rest of the call is about. -/
def Pc.Works (l : ℕ) : Pc → Prop
  | .idle => False
  | .loadL2 va | .loadLeaf va | .test va | .flush va | .fence va | .clear va => lineOf 0 va = l
  | .rangeLoop addr end_ | .rangeL2 addr end_ | .rangeLeaf addr end_ | .rangeClear addr end_
  | .rangeFlush addr end_ _ => lineOf 0 addr ≤ l ∧ l * cacheLineSize < end_

/-- No line is marked while a call is about it. -/
def NotMarkedMeanwhile (s : State) : Action → Prop
  | .mark va mask => ∀ t l, MarkedBy va mask l → ¬ (s.pc t).Works l
  | _ => True

/-- The range path clears the bits of lines that are not dirty only, and lines are marked and checked one by
one at addresses of `A`. -/
def ClearsClean (A : Set ℕ) (s : State) : Action → Prop
  | .mark va _ | .invalidate _ va => va ∈ A
  | .thread t => ∀ addr end_, s.pc t = .rangeClear addr end_ → ∀ va, SameLeaf 0 addr va →
      (rangeMask 0 addr end_).testBit (splitVa 0 va).line = true → isDirty 0 s.tracker va = false
  | _ => True

/-- What the steps of a run have to meet. -/
def Orderly (A : Set ℕ) (s : State) (a : Action) : Prop := NotMarkedMeanwhile s a ∧ ClearsClean A s a

/-- Every line that was marked and is now clean has been flushed since. -/
def NoStale (s : State) : Prop :=
  ∀ va, s.marked (lineOf 0 va) = true → isDirty 0 s.tracker va = false → s.flushed (lineOf 0 va) = true

/-! ## The single-line path -/

/-- The address that the thread checks. -/
def Pc.single : Pc → Option ℕ
  | .loadL2 va | .loadLeaf va | .test va | .flush va | .fence va | .clear va => some va
  | _ => none

/-- The address whose line the thread has flushed and not yet cleared. -/
def Pc.done : Pc → Option ℕ
  | .fence va | .clear va => some va
  | _ => none

structure Inv (A : Set ℕ) (s : State) : Prop where
  noStale : NoStale s
  marked : ∀ l, s.marked l = true → ∃ va ∈ A, blockOf 0 va = l / 64
  mem : ∀ t va, (s.pc t).single = some va → va ∈ A
  done : ∀ t va, (s.pc t).done = some va → s.flushed (lineOf 0 va) = true

variable {A : Set ℕ} {s s' : State} {a : Action}

theorem inv_initial : Inv A initial where
  noStale va h := by cases h
  marked l h := by cases h
  mem t va h := by cases h
  done t va h := by cases h

/-- A flushed line is one the thread works on. -/
theorem Pc.works_of_done {pc : Pc} {va : ℕ} (h : pc.done = some va) : pc.Works (lineOf 0 va) := by
  cases pc <;> cases h <;> exact rfl

namespace Inv

/-- A thread moves, and lines may have been flushed. -/
theorem setPc (h : Inv A s) {t : ℕ} {pc : Pc} {flushed : ℕ → Bool}
    (hfl : ∀ l, s.flushed l = true → flushed l = true)
    (hmem : ∀ va, pc.single = some va → va ∈ A)
    (hdone : ∀ va, pc.done = some va → flushed (lineOf 0 va) = true) :
    Inv A ({ s with flushed := flushed }.setPc t pc) where
  noStale va hm hd := hfl _ (h.noStale va hm hd)
  marked := h.marked
  mem u va hu := by
    simp only [State.setPc, update_apply] at hu
    split at hu
    · exact hmem va hu
    · exact h.mem u va hu
  done u va hu := by
    simp only [State.setPc, update_apply] at hu ⊢
    split at hu
    · exact hdone va hu
    · exact hfl _ (h.done u va hu)

/-- A step that neither flushes nor clears. -/
theorem move (h : Inv A s) {t : ℕ} {pc : Pc} (hmem : ∀ va, pc.single = some va → va ∈ A)
    (hdone : ∀ va, pc.done = some va → (s.pc t).done = some va) : Inv A (s.setPc t pc) :=
  h.setPc (fun _ => id) hmem fun va hva => h.done t va (hdone va hva)

theorem mark (h : Inv A s) {va mask : ℕ} (hva : va ∈ A) (hno : NotMarkedMeanwhile s (.mark va mask)) :
    Inv A (s.mark va mask) where
  noStale va' hm hd := by
    have hnot : ¬ MarkedBy va mask (lineOf 0 va') := by
      -- a line that has just been marked is dirty
      rintro ⟨hblock, hbit⟩
      have hdirty : isDirty 0 (markDirty 0 va mask s.tracker) va' = true := by
        rw [isDirty_markDirty, sameLeaf_iff_mod, splitVa_line]
        refine .inr ⟨?_, hbit⟩
        rw [← hblock]
        rfl
      rw [State.mark, hdirty] at hd
      cases hd
    have hclean : isDirty 0 s.tracker va' = false := by
      by_contra hne
      have hdirty : isDirty 0 (markDirty 0 va mask s.tracker) va' = true :=
        isDirty_markDirty.mpr (.inl (by simpa using hne))
      rw [State.mark, hdirty] at hd
      cases hd
    simp only [State.mark, hnot, decide_false, Bool.false_or] at hm
    simpa [State.mark, hnot] using h.noStale va' hm hclean
  marked l hm := by
    simp only [State.mark, Bool.or_eq_true, decide_eq_true_eq] at hm
    rcases hm with hnew | hold
    · exact ⟨va, hva, hnew.1.symm⟩
    · exact h.marked l hold
  mem := h.mem
  done t va' ht := by
    have hnot : ¬ MarkedBy va mask (lineOf 0 va') := fun hmk =>
      hno t _ hmk (Pc.works_of_done ht)
    simpa [State.mark, hnot] using h.done t va' ht

/-- The bit of a line that has been flushed is cleared. No other marked line has it. -/
theorem clear (h : Inv A s) (hsep : Separated 0 A) {t va : ℕ} (hpc : s.pc t = .clear va) :
    Inv A ({ s with tracker := clearDirty 0 va s.tracker }.setPc t .idle) where
  noStale va' hm hd := by
    by_cases hclean : isDirty 0 s.tracker va' = false
    · exact h.noStale va' hm hclean
    · have hva : va ∈ A := h.mem t va (by rw [hpc]; rfl)
      have hsame : SameLeaf 0 va va' ∧
          (1 <<< (splitVa 0 va).line).testBit (splitVa 0 va').line = true := by
        by_contra hnot
        have hdirty := isDirty_clearMask.mpr ⟨by simpa using hclean, hnot⟩
        simp only [State.setPc, clearDirty] at hd
        rw [hdirty] at hd
        cases hd
      obtain ⟨hleaf, hbit⟩ := hsame
      have hline : lineOf 0 va = lineOf 0 va' := by
        rw [Nat.one_shiftLeft, Nat.testBit_two_pow, decide_eq_true_iff, splitVa_line, splitVa_line] at hbit
        obtain ⟨a, ha, hblock⟩ := h.marked _ hm
        have hmod := sameLeaf_iff_mod.mp hleaf
        rw [show blockOf 0 va' = blockOf 0 a from hblock.symm] at hmod
        exact lineOf_eq_iff.mpr ⟨(hsep va hva a ha hmod).trans hblock, hbit⟩
      show s.flushed (lineOf 0 va') = true
      rw [← hline]
      exact h.done t va (by rw [hpc]; rfl)
  marked := h.marked
  mem u va' hu := by
    simp only [State.setPc, update_apply] at hu
    split at hu
    · cases hu
    · exact h.mem u va' hu
  done u va' hu := by
    simp only [State.setPc, update_apply] at hu
    split at hu
    · cases hu
    · exact h.done u va' hu

/-- The range path, where it clears nothing. -/
theorem rangeClear (h : Inv A s) {t addr end_ bits : ℕ}
    (hclean : ∀ va, SameLeaf 0 addr va →
      (rangeMask 0 addr end_).testBit (splitVa 0 va).line = true → isDirty 0 s.tracker va = false) :
    Inv A ({ s with tracker := clearMask 0 addr (rangeMask 0 addr end_) s.tracker }.setPc t
      (.rangeFlush addr end_ bits)) where
  noStale va hm hd := by
    refine h.noStale va hm ?_
    by_contra hne
    have hdirty : isDirty 0 s.tracker va = true := by simpa using hne
    have hnot : ¬ (SameLeaf 0 addr va ∧
        (rangeMask 0 addr end_).testBit (splitVa 0 va).line = true) := fun hin => by
      rw [hclean va hin.1 hin.2] at hdirty
      cases hdirty
    have hstill := isDirty_clearMask.mpr ⟨hdirty, hnot⟩
    simp only [State.setPc] at hd
    rw [hstill] at hd
    cases hd
  marked := h.marked
  mem u va hu := by
    simp only [State.setPc, update_apply] at hu
    split at hu
    · cases hu
    · exact h.mem u va hu
  done u va hu := by
    simp only [State.setPc, update_apply] at hu
    split at hu
    · cases hu
    · exact h.done u va hu

/-- One step of a thread, by its place. -/
theorem stepThread (h : Inv A s) (hsep : Separated 0 A) {t : ℕ} (hclears : ClearsClean A s (.thread t))
    (hs : LazyInvalidate.stepThread s t = some s') : Inv A s' := by
  have hmem := h.mem t
  unfold LazyInvalidate.stepThread at hs
  split at hs
  · cases hs
  · rename_i va hpc
    rw [hpc] at hmem
    split at hs <;> cases hs
    · exact h.move (fun _ h => by cases h) (fun _ h => by cases h)
    · exact h.move hmem (fun _ h => by cases h)
  · rename_i va hpc
    rw [hpc] at hmem
    split at hs <;> cases hs
    · exact h.move (fun _ h => by cases h) (fun _ h => by cases h)
    · exact h.move hmem (fun _ h => by cases h)
  · rename_i va hpc
    rw [hpc] at hmem
    cases hs
    refine h.move (fun va' h' => ?_) (fun va' h' => ?_)
    · split at h'
      · exact hmem va' h'
      · cases h'
    · split at h' <;> cases h'
  · rename_i va hpc
    rw [hpc] at hmem
    cases hs
    refine h.setPc (fun l hl => ?_) hmem (fun va' h' => ?_)
    · by_cases hline : l = lineOf 0 va
      · rw [hline, update_self]
      · rwa [update_of_ne hline]
    · cases h'
      exact update_self _ _ _
  · rename_i va hpc
    rw [hpc] at hmem
    cases hs
    exact h.move hmem fun va' h' => by rw [hpc]; exact h'
  · rename_i va hpc
    cases hs
    exact h.clear hsep hpc
  · rename_i addr end_ hpc
    cases hs
    refine h.move (fun va' h' => ?_) (fun va' h' => ?_) <;> split at h' <;> cases h'
  · split at hs <;> cases hs <;> exact h.move (fun _ h => by cases h) (fun _ h => by cases h)
  · split at hs <;> cases hs <;> exact h.move (fun _ h => by cases h) (fun _ h => by cases h)
  · rename_i addr end_ hpc
    cases hs
    exact h.rangeClear (hclears addr end_ hpc)
  · rename_i addr end_ bits hpc
    split at hs <;> cases hs
    · exact h.move (fun _ h => by cases h) (fun _ h => by cases h)
    · refine h.setPc (fun l hl => ?_) (fun _ h => by cases h) (fun _ h => by cases h)
      by_cases hline : l = lineOf 0 (lineVa 0 addr (Bits.ctz 64 bits))
      · rw [hline, update_self]
      · rwa [update_of_ne hline]

theorem step (h : Inv A s) (hsep : Separated 0 A) (hord : Orderly A s a)
    (hs : LazyInvalidate.step s a = some s') : Inv A s' := by
  cases a with
  | mark va mask =>
      cases hs
      exact h.mark hord.2 hord.1
  | invalidate t va =>
      simp only [LazyInvalidate.step] at hs
      split at hs <;> cases hs
      refine h.move (fun va' h' => ?_) (fun _ h => by cases h)
      cases h'
      exact hord.2
  | invalidateRange t begin end_ =>
      simp only [LazyInvalidate.step] at hs
      split at hs <;> cases hs
      exact h.move (fun _ h => by cases h) (fun _ h => by cases h)
  | thread t => exact h.stepThread hsep hord.2 hs

end Inv

/-- In every run in which no line is marked while a call is about it, `invalidate_range_if_dirty` clears the
bits of clean lines only, and lines are marked and checked at addresses in separate blocks: every line that
was marked and is now reported clean has been flushed since it was marked. -/
theorem clean_after_flush (A : Set ℕ) (s : State) (hsep : Separated 0 A)
    (h : machine.Run (Orderly A) s) : NoStale s := by
  have hinv : Inv A s := h.invariant (by rintro s rfl; exact inv_initial)
    fun _ _ _ _ hinv hord hs => hinv.step hsep hord hs
  exact hinv.noStale

/-- Addresses in one window of 512 GiB are in separate blocks. -/
theorem separated_window (w : ℕ) : Separated 0 {va | va / 2 ^ 39 = w} := by
  intro a ha b hb hmod
  have hblock : ∀ va, blockOf 0 va = va / 2 ^ 12 := fun va => by
    rw [blockOf, lineOf, Nat.shiftRight_eq_div_pow, Nat.div_div_eq_div_mul]
    rfl
  have ha' : a / 2 ^ 39 = w := ha
  have hb' : b / 2 ^ 39 = w := hb
  rw [hblock, hblock] at hmod ⊢
  omega

/-- A guard that can be evaluated: no marks, and unless `ranges` allows it no bits cleared by the range
path. -/
def unmarked (ranges : Bool) (s : State) : Action → Bool
  | .mark _ _ => false
  | .invalidate _ va => va / 2 ^ 39 == 384
  | .invalidateRange _ _ _ => true
  | .thread t => ranges || match s.pc t with
      | .rangeClear _ _ => false
      | _ => true

theorem notMarkedMeanwhile_of_unmarked {ranges : Bool} (h : unmarked ranges s a = true) :
    NotMarkedMeanwhile s a := by
  cases a with
  | mark va mask => cases h
  | _ => trivial

theorem orderly_of_unmarked (h : unmarked false s a = true) : Orderly {va | va / 2 ^ 39 = 384} s a := by
  refine ⟨notMarkedMeanwhile_of_unmarked h, ?_⟩
  cases a with
  | invalidate t va => exact beq_iff_eq.mp h
  | thread t =>
      intro addr end_ hpc
      simp [unmarked, hpc] at h
  | _ => trivial

/-- The first step of a run may mark anything. -/
theorem run_mark {ok : State → Action → Prop} (va mask : ℕ) (hok : ok initial (.mark va mask)) :
    machine.Run ok (initial.mark va mask) :=
  .step (.init rfl) hok rfl

/-- Two threads check a line that was marked; both find it dirty, and both flush it. -/
theorem clean_after_flush_twice :
    ∃ s : State, machine.Run (Orderly {va | va / 2 ^ 39 = 384}) s ∧
      s.marked (lineOf 0 cxlNhcStart) = true ∧ isDirty 0 s.tracker cxlNhcStart = false ∧
      s.flushed (lineOf 0 cxlNhcStart) = true := by
  obtain ⟨s, hs, hmarked, hclean⟩ : ∃ s, machine.exec (unmarked false) (initial.mark cxlNhcStart 1)
      ([.invalidate 0 cxlNhcStart, .invalidate 1 cxlNhcStart] ++
        [.thread 0, .thread 0, .thread 0, .thread 1, .thread 1, .thread 1, .thread 0, .thread 0,
          .thread 1, .thread 1, .thread 1]) = some s ∧
      s.marked (lineOf 0 cxlNhcStart) = true ∧ isDirty 0 s.tracker cxlNhcStart = false :=
    ⟨_, rfl, by decide +kernel, by decide +kernel⟩
  have hrun := Machine.Run.exec (run_mark _ _ ⟨fun _ _ _ h => h, show cxlNhcStart / 2 ^ 39 = 384 by decide⟩)
    (fun _ _ => orderly_of_unmarked) hs
  exact ⟨s, hrun, hmarked, hclean,
    clean_after_flush _ s (separated_window 384) hrun cxlNhcStart hmarked hclean⟩

/-- A thread in the range path has cleared the bit of a line and not yet flushed it. -/
theorem clean_before_flush :
    ¬ ∀ s : State, machine.Run NotMarkedMeanwhile s → NoStale s := by
  intro h
  obtain ⟨s, hs, hmarked, hclean, hnot⟩ : ∃ s, machine.exec (unmarked true)
      (initial.mark cxlNhcStart 1)
      [.invalidateRange 0 cxlNhcStart (cxlNhcStart + 64), .thread 0, .thread 0, .thread 0, .thread 0] =
        some s ∧ s.marked (lineOf 0 cxlNhcStart) = true ∧ isDirty 0 s.tracker cxlNhcStart = false ∧
      s.flushed (lineOf 0 cxlNhcStart) = false :=
    ⟨_, rfl, by decide +kernel, by decide +kernel, by decide +kernel⟩
  have hrun := Machine.Run.exec (run_mark _ _ fun _ _ _ h => h)
    (fun _ _ => notMarkedMeanwhile_of_unmarked) hs
  have hflushed := h s hrun cxlNhcStart hmarked hclean
  rw [hnot] at hflushed
  cases hflushed

end LazyInvalidate

end RACoherence
