import RACoherence.CLTracker.RangeCheck

/-!
# The boundaries of a range store

Reference: `include/runtime.hpp`, `invalidate_boundaries`, with `PROTOCOL_OFF=0`, `EAGER_INVALIDATE=0`
and `CL_EXPAND_SHIFT=0`.

A range store overwrites the lines it covers completely; a line it covers only in part has to be fresh
before. `invalidate_boundaries` checks the line of `begin` for both ends, so the line of `end` is checked
only when it is the same one.
-/

namespace RACoherence

namespace CacheLineTracker

/-- `CACHE_LINE_MASK` -/
def cacheLineMask : ℕ := cacheLineSize - 1

/-- `if (bptr & CACHE_LINE_MASK) check_invalidate(begin);` -/
def checkHead (begin : ℕ) (tracker : CacheLineTracker) : Outcome :=
  if begin &&& cacheLineMask ≠ 0 then invalidateIfDirty 0 begin tracker else .start tracker

/-- The second `if` of `invalidate_boundaries`, which is about the tail but checks `begin`. -/
def checkTail (begin end_ : ℕ) (tracker : CacheLineTracker) : Outcome :=
  if end_ &&& cacheLineMask ≠ 0 ∧ begin &&& cacheLineMask ≠ end_ &&& cacheLineMask then
    invalidateIfDirty 0 begin tracker
  else .start tracker

/-- `invalidate_boundaries` -/
def invalidateBoundaries (begin end_ : ℕ) (tracker : CacheLineTracker) : Outcome :=
  let head := checkHead begin tracker
  head.andThen (checkTail begin end_ head.tracker)

/-- `[begin, end_)` contains some bytes of cache line `l`, but not all. -/
def PartlyCovers (begin end_ l : ℕ) : Prop :=
  Touches begin end_ l ∧ ¬ (begin ≤ cacheLineSize * l ∧ cacheLineSize * (l + 1) ≤ end_)

/-- After `invalidate_boundaries` no partly covered line is dirty, and those that were have been
flushed. -/
def BoundariesFresh (tracker : CacheLineTracker) (begin end_ : ℕ) : Prop :=
  ∀ l, PartlyCovers begin end_ l →
    isDirty 0 (invalidateBoundaries begin end_ tracker).tracker (lineAddr 0 l) = false ∧
    (isDirty 0 tracker (lineAddr 0 l) = true →
      ∃ va ∈ (invalidateBoundaries begin end_ tracker).invalidated, lineOf 0 va = l)

variable {tracker : CacheLineTracker} {begin end_ : ℕ}

theorem and_cacheLineMask (x : ℕ) : x &&& cacheLineMask = x % 64 :=
  Nat.and_two_pow_sub_one_eq_mod x 6

/-- A range covers its first and its last line in part, if any. -/
theorem partlyCovers_iff {l : ℕ} (hlt : begin < end_) : PartlyCovers begin end_ l ↔
    (l = begin / 64 ∧ (begin % 64 ≠ 0 ∨ end_ < 64 * (l + 1))) ∨ (l = end_ / 64 ∧ end_ % 64 ≠ 0) := by
  rw [PartlyCovers, touches_iff hlt, cacheLineSize]
  omega

/-- A call for one address, as far as other addresses can tell. -/
theorem isDirty_invalidateIfDirty {va va' : ℕ}
    (h : isDirty 0 (invalidateIfDirty 0 va tracker).tracker va' = true) :
    isDirty 0 tracker va' = true ∧ lineOf 0 va ≠ lineOf 0 va' := by
  unfold invalidateIfDirty at h
  split at h
  · rw [clearDirty, isDirty_clearMask, Nat.one_shiftLeft, Nat.testBit_two_pow, decide_eq_true_eq,
      splitVa_line, splitVa_line, sameBit_iff] at h
    exact ⟨h.1, fun heq => h.2 (by rw [heq])⟩
  · rename_i hclean
    refine ⟨h, fun heq => hclean ?_⟩
    have hsame : isDirty 0 tracker va = isDirty 0 tracker va' := isDirty_congr_line (by rw [heq])
    rw [hsame]
    exact h

theorem isDirty_checkHead {va : ℕ} (h : isDirty 0 (checkHead begin tracker).tracker va = true) :
    isDirty 0 tracker va = true ∧ (begin % 64 ≠ 0 → lineOf 0 begin ≠ lineOf 0 va) := by
  unfold checkHead at h
  rw [and_cacheLineMask] at h
  split at h
  · obtain ⟨hdirty, hne⟩ := isDirty_invalidateIfDirty h
    exact ⟨hdirty, fun _ => hne⟩
  · exact ⟨h, fun hne => absurd hne ‹_›⟩

theorem isDirty_checkTail {va : ℕ} (h : isDirty 0 (checkTail begin end_ tracker).tracker va = true) :
    isDirty 0 tracker va = true ∧
      (end_ % 64 ≠ 0 ∧ begin % 64 ≠ end_ % 64 → lineOf 0 begin ≠ lineOf 0 va) := by
  unfold checkTail at h
  rw [and_cacheLineMask, and_cacheLineMask] at h
  split at h
  · obtain ⟨hdirty, hne⟩ := isDirty_invalidateIfDirty h
    exact ⟨hdirty, fun _ => hne⟩
  · exact ⟨h, fun hne => absurd hne ‹_›⟩

/-- Only `begin` is ever flushed. -/
theorem mem_invalidateBoundaries {va : ℕ}
    (h : va ∈ (invalidateBoundaries begin end_ tracker).invalidated) : va = begin := by
  have hhead : va ∈ (checkHead begin tracker).invalidated → va = begin := by
    unfold checkHead
    split
    · exact fun h => (mem_invalidated_invalidateIfDirty.mp h).2
    · exact fun h => absurd h (List.not_mem_nil)
  have htail : va ∈ (checkTail begin end_ (checkHead begin tracker).tracker).invalidated →
      va = begin := by
    unfold checkTail
    split
    · exact fun h => (mem_invalidated_invalidateIfDirty.mp h).2
    · exact fun h => absurd h (List.not_mem_nil)
  exact (List.mem_append.mp h).elim hhead htail

/-- A clean line stays clean. -/
theorem clean_invalidateBoundaries {va : ℕ} (h : isDirty 0 tracker va = false) :
    isDirty 0 (invalidateBoundaries begin end_ tracker).tracker va = false := by
  rw [← Bool.not_eq_true] at h ⊢
  intro hdirty
  exact h (isDirty_checkHead (isDirty_checkTail hdirty).1).1

/-- One of the two checks takes place. -/
def ChecksBegin (begin end_ : ℕ) : Prop :=
  begin % 64 ≠ 0 ∨ (end_ % 64 ≠ 0 ∧ begin % 64 ≠ end_ % 64)

/-- Then the line of `begin` is clean afterwards. -/
theorem isDirty_invalidateBoundaries (hcheck : ChecksBegin begin end_) {va : ℕ}
    (h : isDirty 0 (invalidateBoundaries begin end_ tracker).tracker va = true) :
    isDirty 0 tracker va = true ∧ lineOf 0 begin ≠ lineOf 0 va := by
  obtain ⟨hmid, htail⟩ := isDirty_checkTail h
  obtain ⟨hdirty, hhead⟩ := isDirty_checkHead hmid
  exact ⟨hdirty, hcheck.elim hhead htail⟩

/-- And flushed, if it was dirty. -/
theorem begin_mem_invalidateBoundaries (hcheck : ChecksBegin begin end_)
    (hdirty : isDirty 0 tracker begin = true) :
    begin ∈ (invalidateBoundaries begin end_ tracker).invalidated := by
  apply List.mem_append.mpr
  by_cases hhead : begin % 64 ≠ 0
  · left
    rw [checkHead, and_cacheLineMask, if_pos hhead]
    exact mem_invalidated_invalidateIfDirty.mpr ⟨hdirty, rfl⟩
  · right
    rw [checkHead, and_cacheLineMask, if_neg hhead, checkTail, and_cacheLineMask, and_cacheLineMask,
      if_pos (hcheck.resolve_left hhead)]
    exact mem_invalidated_invalidateIfDirty.mpr ⟨hdirty, rfl⟩

/-- `invalidate_boundaries` freshens both ends if and only if the range ends on a line boundary, in the
line it begins in, or in a clean line. -/
theorem boundaries_fresh_iff (tracker : CacheLineTracker) (begin end_ : ℕ) (hlt : begin < end_) :
    BoundariesFresh tracker begin end_ ↔ end_ % cacheLineSize = 0 ∨
      end_ / cacheLineSize = begin / cacheLineSize ∨ isDirty 0 tracker end_ = false := by
  rw [cacheLineSize]
  constructor
  · intro h
    by_contra hno
    obtain ⟨hpart, hother, hdirty⟩ := by simpa only [not_or] using hno
    rw [Bool.not_eq_false, ← isDirty_lineAddr_div] at hdirty
    obtain ⟨va, hva, heq⟩ := (h (end_ / 64) ((partlyCovers_iff hlt).mpr (.inr ⟨rfl, hpart⟩))).2 hdirty
    rw [mem_invalidateBoundaries hva, lineOf_zero] at heq
    exact hother heq.symm
  · intro h l hl
    rw [partlyCovers_iff hlt] at hl
    have hcases : (l = begin / 64 ∧ ChecksBegin begin end_) ∨
        isDirty 0 tracker (lineAddr 0 l) = false := by
      -- a clean end line needs no check; otherwise the partly covered line is that of `begin`
      by_cases hend : l = end_ / 64 ∧ isDirty 0 tracker end_ = false
      · rw [hend.1, isDirty_lineAddr_div]
        exact .inr hend.2
      · left
        unfold ChecksBegin
        have hnot : ¬ (l = end_ / 64 ∧ end_ % 64 ≠ 0 ∧ end_ / 64 ≠ begin / 64) := by
          rintro ⟨hle, hpart, hother⟩
          exact hend ⟨hle, (h.resolve_left hpart).resolve_left hother⟩
        omega
    rcases hcases with ⟨rfl, hcheck⟩ | hclean
    · constructor
      · rw [← Bool.not_eq_true]
        intro hdirty
        refine (isDirty_invalidateBoundaries hcheck hdirty).2 ?_
        rw [lineOf_lineAddr, lineOf_zero]
      · intro hdirty
        rw [isDirty_lineAddr_div] at hdirty
        exact ⟨begin, begin_mem_invalidateBoundaries hcheck hdirty, lineOf_zero begin⟩
    · constructor
      · exact clean_invalidateBoundaries hclean
      · intro hdirty
        rw [hclean] at hdirty
        exact absurd hdirty (by simp)

/-- A store of 8 bytes inside one line. -/
theorem boundaries_fresh_one_line :
    BoundariesFresh (markLine 0 cxlNhcStart empty) (cxlNhcStart + 8) (cxlNhcStart + 16) :=
  (boundaries_fresh_iff _ _ _ (by decide)).mpr (.inr (.inl (by decide)))

/-- A store of a line and a half to an aligned address, whose second line is dirty. -/
theorem boundaries_stale_tail :
    ¬ BoundariesFresh (markLine 0 (cxlNhcStart + 64) empty) cxlNhcStart (cxlNhcStart + 96) := by
  intro h
  have hpart : PartlyCovers cxlNhcStart (cxlNhcStart + 96) (cxlNhcStart / 64 + 1) := by
    refine (partlyCovers_iff (by decide)).mpr (.inr ⟨by decide, by decide⟩)
  obtain ⟨va, hva, heq⟩ := (h _ hpart).2 (by decide +kernel)
  rw [mem_invalidateBoundaries hva] at heq
  exact absurd heq (by decide)

end CacheLineTracker

end RACoherence
