import RACoherence.CLTracker.Flush
import RACoherence.CacheLine

/-!
# The range call against the per-line calls

With `CL_EXPAND_SHIFT=0`. `invalidate_range_if_dirty(begin, end)` and a call of `invalidate_if_dirty` for
each line have the same effect on the lines from that of `begin` up to, and without, that of `end`:
`Checked` says what that effect is, and consecutive pieces of a range compose. The line of `end` itself is
never checked, although a range that ends inside it covers a part of it; and in the last 4 KiB of the
address space the address of the next leaf wraps to 0, so that the loop does not end.
-/

namespace RACoherence

open Function

namespace CacheLineTracker

/-- `invalidate_if_dirty` for one line after another. -/
def invalidateLines : List ℕ → CacheLineTracker → Outcome
  | [], tracker => .start tracker
  | l :: ls, tracker =>
      let o := invalidateIfDirty 0 (lineAddr 0 l) tracker
      o.andThen (invalidateLines ls o.tracker)

/-- Exactly the dirty lines of `[begin, end_)` have been flushed and cleared, in the window of 512 GiB
that the tracker tells apart. -/
structure ExactOn (tracker : CacheLineTracker) (begin end_ : ℕ) (o : Outcome) : Prop where
  invalidated : ∀ l, (∃ va ∈ o.invalidated, lineOf 0 va = l) ↔
    Touches begin end_ l ∧ isDirty 0 tracker (lineAddr 0 l) = true
  cleared : ∀ va, va / 2 ^ 39 = begin / 2 ^ 39 → (isDirty 0 o.tracker va = true ↔
    isDirty 0 tracker va = true ∧ ¬ Touches begin end_ (lineOf 0 va))
  result : o.anyDirty = true ↔
    ∃ l, Touches begin end_ l ∧ isDirty 0 tracker (lineAddr 0 l) = true

/-- The two calls cannot be told apart by what they leave behind. -/
structure SameEffect (o o' : Outcome) : Prop where
  anyDirty : o.anyDirty = o'.anyDirty
  invalidated : ∀ va, va ∈ o.invalidated ↔ va ∈ o'.invalidated
  cleared : ∀ va, isDirty 0 o.tracker va = isDirty 0 o'.tracker va

/-- `invalidate_range_if_dirty(begin, end)` returns, is exact, and has the effect of the calls for each
line. -/
def RangeAgrees (tracker : CacheLineTracker) (begin end_ : ℕ) : Prop :=
  ∃ fuel o, invalidateRangeIfDirty 0 fuel begin end_ tracker = some o ∧
    ExactOn tracker begin end_ o ∧ SameEffect o (invalidateLines (rangeLines begin end_) tracker)

/-! ## Consecutive lines -/

/-- Lines `lo … hi - 1` have been checked. -/
structure Checked (lo hi : ℕ) (tracker : CacheLineTracker) (o : Outcome) : Prop where
  invalidated : ∀ va, va ∈ o.invalidated ↔
    ∃ l, (lo ≤ l ∧ l < hi) ∧ isDirty 0 tracker (lineAddr 0 l) = true ∧ va = lineAddr 0 l
  cleared : ∀ va, isDirty 0 o.tracker va = true ↔ isDirty 0 tracker va = true ∧
    ¬ ∃ l, (lo ≤ l ∧ l < hi) ∧ l % 2 ^ 33 = lineOf 0 va % 2 ^ 33
  anyDirty : o.anyDirty = true ↔
    ∃ l, (lo ≤ l ∧ l < hi) ∧ isDirty 0 tracker (lineAddr 0 l) = true

/-- The tracker tells 33 bits of the line number apart. -/
theorem sameBit_iff {va va' : ℕ} :
    (SameLeaf 0 va va' ∧ lineOf 0 va % 64 = lineOf 0 va' % 64) ↔
      lineOf 0 va % 2 ^ 33 = lineOf 0 va' % 2 ^ 33 := by
  rw [sameLeaf_iff_mod, blockOf, blockOf]
  omega

theorem isDirty_congr_line {tracker : CacheLineTracker} {va va' : ℕ}
    (h : lineOf 0 va % 2 ^ 33 = lineOf 0 va' % 2 ^ 33) :
    isDirty 0 tracker va = isDirty 0 tracker va' := by
  obtain ⟨hleaf, hline⟩ := sameBit_iff.mpr h
  exact isDirty_congr hleaf hline

/-- A property of some line of a range, by the two pieces of the range. -/
theorem exists_line_split {lo mid hi : ℕ} {P : ℕ → Prop} (hlo : lo ≤ mid) (hhi : mid ≤ hi) :
    (∃ l, (lo ≤ l ∧ l < hi) ∧ P l) ↔
      (∃ l, (lo ≤ l ∧ l < mid) ∧ P l) ∨ ∃ l, (mid ≤ l ∧ l < hi) ∧ P l := by
  rw [← exists_or]
  refine exists_congr fun l => ?_
  rw [← or_and_right]
  refine and_congr_left fun _ => ?_
  omega

theorem exists_line_one {l : ℕ} {P : ℕ → Prop} : (∃ l', (l ≤ l' ∧ l' < l + 1) ∧ P l') ↔ P l := by
  constructor
  · rintro ⟨l', h, hP⟩
    rwa [show l' = l by omega] at hP
  · intro hP
    exact ⟨l, ⟨le_rfl, Nat.lt_succ_self l⟩, hP⟩

namespace Checked

variable {lo mid hi : ℕ} {tracker : CacheLineTracker} {o o' : Outcome}

theorem start (lo : ℕ) (tracker : CacheLineTracker) : Checked lo lo tracker (.start tracker) where
  invalidated va := iff_of_false (by simp [Outcome.start]) fun ⟨l, h, _⟩ => by omega
  cleared va := (and_iff_left fun ⟨l, h, _⟩ => by omega).symm
  anyDirty := iff_of_false (by simp [Outcome.start]) fun ⟨l, h, _⟩ => by omega

/-- A line further on shares no bit with the lines before it. -/
private theorem isDirty_later (h : Checked lo mid tracker o) (hspan : hi ≤ lo + 2 ^ 33) {l : ℕ}
    (hl : mid ≤ l ∧ l < hi) :
    isDirty 0 o.tracker (lineAddr 0 l) = true ↔ isDirty 0 tracker (lineAddr 0 l) = true := by
  rw [h.cleared, lineOf_lineAddr, and_iff_left_iff_imp]
  rintro - ⟨l', hl', heq⟩
  omega

/-- One piece of a range after another. -/
theorem andThen (h : Checked lo mid tracker o) (h' : Checked mid hi o.tracker o') (hlo : lo ≤ mid)
    (hhi : mid ≤ hi) (hspan : hi ≤ lo + 2 ^ 33) : Checked lo hi tracker (o.andThen o') where
  invalidated va := by
    rw [exists_line_split hlo hhi, Outcome.andThen, List.mem_append, h.invalidated, h'.invalidated]
    refine or_congr_right (exists_congr fun l => and_congr_right fun hl => ?_)
    rw [h.isDirty_later hspan hl]
  cleared va := by
    rw [exists_line_split hlo hhi, not_or, ← and_assoc, ← h.cleared]
    exact h'.cleared va
  anyDirty := by
    rw [exists_line_split hlo hhi, Outcome.andThen, Bool.or_eq_true, h.anyDirty, h'.anyDirty]
    refine or_congr_right (exists_congr fun l => and_congr_right fun hl => ?_)
    exact h.isDirty_later hspan hl

/-- A clean line needs no check. -/
theorem extend (h : Checked lo hi tracker o) (hle : lo ≤ hi)
    (hclean : isDirty 0 tracker (lineAddr 0 hi) = false) : Checked lo (hi + 1) tracker o where
  invalidated va := by
    rw [h.invalidated, exists_line_split hle (Nat.le_succ hi), exists_line_one, hclean]
    simp
  cleared va := by
    rw [h.cleared, exists_line_split hle (Nat.le_succ hi), exists_line_one]
    refine and_congr_right fun hd => not_congr (or_iff_left fun heq => ?_).symm
    rw [← @lineOf_lineAddr 0 hi] at heq
    rw [isDirty_congr_line heq, hd] at hclean
    exact absurd hclean (by simp)
  anyDirty := by
    rw [h.anyDirty, exists_line_split hle (Nat.le_succ hi), exists_line_one, hclean]
    simp

/-- One call for one line. -/
theorem invalidateIfDirty (l : ℕ) (tracker : CacheLineTracker) :
    Checked l (l + 1) tracker (invalidateIfDirty 0 (lineAddr 0 l) tracker) := by
  cases hd : isDirty 0 tracker (lineAddr 0 l) with
  | false =>
      have hcall : CacheLineTracker.invalidateIfDirty 0 (lineAddr 0 l) tracker = .start tracker := by
        rw [CacheLineTracker.invalidateIfDirty, if_neg (by simp [hd])]
      rw [hcall]
      exact (start l tracker).extend le_rfl hd
  | true =>
      have hcall : CacheLineTracker.invalidateIfDirty 0 (lineAddr 0 l) tracker =
          ⟨true, [lineAddr 0 l], clearDirty 0 (lineAddr 0 l) tracker⟩ := if_pos hd
      rw [hcall]
      refine ⟨fun va => ?_, fun va => ?_, ?_⟩
      · rw [exists_line_one, List.mem_singleton, and_iff_right hd]
      · rw [exists_line_one, clearDirty, isDirty_clearMask, Nat.one_shiftLeft, Nat.testBit_two_pow,
          decide_eq_true_eq, splitVa_line, splitVa_line, sameBit_iff, lineOf_lineAddr]
      · rw [exists_line_one, hd]

theorem invalidateLines (lo n : ℕ) (tracker : CacheLineTracker) (hn : n ≤ 2 ^ 33) :
    Checked lo (lo + n) tracker (invalidateLines (List.range' lo n) tracker) := by
  induction n generalizing lo tracker with
  | zero => exact start lo tracker
  | succ n ih =>
      have hnext := ih (lo + 1) (CacheLineTracker.invalidateIfDirty 0 (lineAddr 0 lo) tracker).tracker
        (by omega)
      rw [show lo + 1 + n = lo + (n + 1) by omega] at hnext
      exact (invalidateIfDirty lo tracker).andThen hnext (by omega) (by omega) (by omega)

end Checked

/-! ## The loop -/

theorem lineOf_zero (va : ℕ) : lineOf 0 va = va / 64 := Nat.shiftRight_eq_div_pow va 6

/-- The dirty bit of an address is that of the line it lies in. -/
theorem isDirty_lineAddr_div (tracker : CacheLineTracker) (va : ℕ) :
    isDirty 0 tracker (lineAddr 0 (va / 64)) = isDirty 0 tracker va := by
  apply isDirty_congr_line
  rw [lineOf_lineAddr, lineOf_zero]

theorem pageEndVa_zero (addr : ℕ) : pageEndVa 0 addr = (addr / 4096 + 1) * 4096 % 2 ^ 64 := by
  have hshift : leafShift 0 = 12 := rfl
  rw [pageEndVa, shl64, hshift, Nat.shiftRight_eq_div_pow, Nat.shiftLeft_eq]

/-- The first line that the iteration at `addr` does not check. -/
theorem endLine_zero {addr end_ : ℕ} (hlt : addr < end_) (hend : end_ ≤ 2 ^ 64 - 4096) :
    64 * blockOf 0 addr + endLine 0 addr end_ = min (64 * (addr / 4096 + 1)) (end_ / 64) := by
  have hmask : 1 <<< leafBits - 1 = 2 ^ 6 - 1 := rfl
  have hleaf : 1 <<< leafBits = 64 := rfl
  have hpage : pageEndVa 0 addr = (addr / 4096 + 1) * 4096 := by
    rw [pageEndVa_zero, Nat.mod_eq_of_lt]
    omega
  rw [endLine, hpage, hmask, hleaf, Nat.and_two_pow_sub_one_eq_mod, leafBits,
    Nat.shiftRight_eq_div_pow, blockOf, lineOf_zero]
  split
  · omega
  · omega

/-- The lines that the iteration at a line address is about. -/
theorem checks_iff {addr end_ l : ℕ} (hlt : addr < end_) (hend : end_ ≤ 2 ^ 64 - 4096) :
    Checks 0 addr end_ l ↔ addr / 64 ≤ l ∧ l < min (64 * (addr / 4096 + 1)) (end_ / 64) := by
  have hstop := endLine_zero hlt hend
  have hle := endLine_le 0 addr end_
  rw [Checks, testBit_rangeMask]
  rw [blockOf, lineOf_zero] at *
  omega

/-- One iteration checks the lines up to the end of its leaf or to the end line. -/
theorem checked_rangeBody {addr end_ : ℕ} (tracker : CacheLineTracker) (hlt : addr < end_)
    (hend : end_ ≤ 2 ^ 64 - 4096) :
    Checked (addr / 64) (min (64 * (addr / 4096 + 1)) (end_ / 64)) tracker
      (rangeBody 0 end_ ⟨addr, .start tracker⟩).out where
  invalidated va := by
    rw [mem_invalidated_rangeBody]
    simp only [checks_iff hlt hend, Outcome.start, List.not_mem_nil, false_or]
  cleared va := by
    rw [isDirty_rangeBody]
    refine and_congr_right fun _ => not_congr ?_
    simp only [← checks_iff hlt hend]
    constructor
    · rintro ⟨hleaf, hmask⟩
      have hblock : (64 * blockOf 0 addr + lineOf 0 va % 64) / 64 = blockOf 0 addr := by omega
      have hline : (64 * blockOf 0 addr + lineOf 0 va % 64) % 64 = lineOf 0 va % 64 := by omega
      refine ⟨_, ⟨hblock, by rwa [hline]⟩, ?_⟩
      rw [sameLeaf_iff_mod] at hleaf
      rw [blockOf, blockOf] at *
      omega
    · rintro ⟨l, ⟨hblock, hmask⟩, heq⟩
      rw [sameLeaf_iff_mod, ← hblock]
      have hline : lineOf 0 va % 64 = l % 64 := by omega
      refine ⟨?_, by rwa [hline]⟩
      rw [blockOf]
      omega
  anyDirty := by
    rw [anyDirty_rangeBody]
    simp only [checks_iff hlt hend, Outcome.start, Bool.false_eq_true, false_or]

/-- The next leaf, while its address does not wrap. -/
theorem addr_rangeBody {end_ : ℕ} {s : RangeState} (hlt : s.addr < end_)
    (hend : end_ ≤ 2 ^ 64 - 4096) : (rangeBody 0 end_ s).addr = 4096 * (s.addr / 4096 + 1) := by
  rw [rangeBody_eq]
  dsimp only
  rw [pageEndVa_zero, Nat.mod_eq_of_lt (by omega), Nat.mul_comm]

/-- What has been checked when the loop ends: by induction on its iterations, all lines up to `addr` or to
the end line, whichever comes first. -/
theorem checked_rangeLoop {end_ lo fuel : ℕ} {tracker : CacheLineTracker} {s : RangeState} {o : Outcome}
    (hend : end_ ≤ 2 ^ 64 - 4096) (hspan : end_ / 64 ≤ lo + 2 ^ 33) (hlo : lo ≤ s.addr / 64)
    (hle : lo ≤ end_ / 64) (h : Checked lo (min (s.addr / 64) (end_ / 64)) tracker s.out)
    (hloop : rangeLoop 0 end_ fuel s = some o) : Checked lo (end_ / 64) tracker o := by
  induction fuel generalizing s with
  | zero => simp [rangeLoop] at hloop
  | succ fuel ih =>
      rw [rangeLoop] at hloop
      by_cases hlt : s.addr < end_
      · rw [if_pos hlt] at hloop
        have haddr := addr_rangeBody hlt hend
        refine ih (by omega) ?_ hloop
        rw [out_rangeBody, haddr]
        have hnext := checked_rangeBody s.out.tracker hlt hend
        have hfrom : min (s.addr / 64) (end_ / 64) = s.addr / 64 := by omega
        have hto : 4096 * (s.addr / 4096 + 1) / 64 = 64 * (s.addr / 4096 + 1) := by omega
        rw [hfrom] at h
        rw [hto]
        exact h.andThen hnext hlo (by omega) (by omega)
      · rw [if_neg hlt] at hloop
        obtain rfl := Option.some.inj hloop
        rwa [show min (s.addr / 64) (end_ / 64) = end_ / 64 by omega] at h

/-- Below the last 4 KiB of the address space the loop ends: each iteration moves on by a leaf. -/
theorem rangeLoop_returns {end_ : ℕ} (hend : end_ ≤ 2 ^ 64 - 4096) (n : ℕ) {s : RangeState}
    (hn : end_ ≤ 4096 * (s.addr / 4096 + n)) : ∃ o, rangeLoop 0 end_ (n + 1) s = some o := by
  induction n generalizing s with
  | zero =>
      refine ⟨s.out, ?_⟩
      rw [rangeLoop, if_neg (by omega)]
  | succ n ih =>
      rw [rangeLoop]
      by_cases hlt : s.addr < end_
      · rw [if_pos hlt]
        apply ih
        rw [addr_rangeBody hlt hend]
        omega
      · exact ⟨s.out, if_neg hlt⟩

/-- In the last 4 KiB it does not end: the address of the next leaf is always below `end`. -/
theorem rangeLoop_diverges {end_ fuel : ℕ} (hend : 2 ^ 64 - 4096 < end_) {s : RangeState}
    (hlt : s.addr < end_) : rangeLoop 0 end_ fuel s = none := by
  induction fuel generalizing s with
  | zero => rfl
  | succ fuel ih =>
      rw [rangeLoop, if_pos hlt]
      apply ih
      rw [rangeBody_eq]
      dsimp only
      rw [pageEndVa_zero]
      omega

/-! ## The range call -/

/-- The range call checks the lines from that of `begin` to the one before that of `end`. -/
theorem checked_invalidateRangeIfDirty {tracker : CacheLineTracker} {begin end_ fuel : ℕ} {o : Outcome}
    (hlt : begin < end_) (hend : end_ ≤ 2 ^ 64 - 4096)
    (hwindow : begin / 2 ^ 39 = (end_ - 1) / 2 ^ 39)
    (h : invalidateRangeIfDirty 0 fuel begin end_ tracker = some o) :
    Checked (begin / 64) (end_ / 64) tracker o := by
  have haddr : (rangeStart 0 begin tracker).addr = 64 * (begin / 64) := by
    rw [Nat.mul_comm]
    show (begin >>> 6) <<< 6 = _
    rw [Nat.shiftRight_eq_div_pow, Nat.shiftLeft_eq]
  refine checked_rangeLoop hend (by omega) (by omega) (by omega) ?_ h
  have hfrom : min ((rangeStart 0 begin tracker).addr / 64) (end_ / 64) = begin / 64 := by omega
  rw [hfrom]
  exact .start _ tracker

theorem touches_iff_lt {begin end_ l : ℕ} (hlt : begin < end_) :
    Touches begin end_ l ↔ begin / 64 ≤ l ∧ l < (end_ + 63) / 64 := by
  rw [touches_iff hlt]
  omega

theorem Checked.exactOn {tracker : CacheLineTracker} {begin end_ : ℕ} {o : Outcome}
    (hlt : begin < end_) (hwindow : begin / 2 ^ 39 = (end_ - 1) / 2 ^ 39)
    (h : Checked (begin / 64) ((end_ + 63) / 64) tracker o) : ExactOn tracker begin end_ o where
  invalidated l := by
    simp only [h.invalidated, touches_iff_lt hlt]
    constructor
    · rintro ⟨va, ⟨l', hl', hdirty, rfl⟩, rfl⟩
      rw [lineOf_lineAddr]
      exact ⟨hl', hdirty⟩
    · rintro ⟨hl, hdirty⟩
      exact ⟨_, ⟨l, hl, hdirty, rfl⟩, lineOf_lineAddr l⟩
  cleared va hva := by
    rw [h.cleared, touches_iff_lt hlt]
    refine and_congr_right fun _ => not_congr ?_
    rw [lineOf_zero]
    constructor
    · rintro ⟨l, hl, heq⟩
      omega
    · intro hl
      exact ⟨_, hl, rfl⟩
  result := by
    simp only [h.anyDirty, touches_iff_lt hlt]

theorem Checked.sameEffect {lo hi : ℕ} {tracker : CacheLineTracker} {o o' : Outcome}
    (h : Checked lo hi tracker o) (h' : Checked lo hi tracker o') : SameEffect o o' where
  anyDirty := by rw [Bool.eq_iff_iff, h.anyDirty, h'.anyDirty]
  invalidated va := by rw [h.invalidated, h'.invalidated]
  cleared va := by rw [Bool.eq_iff_iff, h.cleared, h'.cleared]

/-- The range call agrees with the calls for each line if and only if the range does not reach into the
last 4 KiB of the address space, and ends on a line boundary or inside a clean line. -/
theorem range_agrees_iff (tracker : CacheLineTracker) (begin end_ : ℕ) (hlt : begin < end_)
    (hend : end_ < 2 ^ 64) (hwindow : begin / 2 ^ 39 = (end_ - 1) / 2 ^ 39) :
    RangeAgrees tracker begin end_ ↔
      end_ ≤ 2 ^ 64 - 4096 ∧ (end_ % cacheLineSize = 0 ∨ isDirty 0 tracker end_ = false) := by
  have hlast := isDirty_lineAddr_div tracker end_
  rw [cacheLineSize]
  constructor
  · rintro ⟨fuel, o, hcall, hexact, -⟩
    have hstart : (rangeStart 0 begin tracker).addr < end_ := by
      show (begin >>> 6) <<< 6 < end_
      rw [Nat.shiftRight_eq_div_pow, Nat.shiftLeft_eq]
      omega
    have hbelow : end_ ≤ 2 ^ 64 - 4096 := by
      by_contra hhigh
      rw [invalidateRangeIfDirty, rangeLoop_diverges (by omega) hstart] at hcall
      exact absurd hcall (by simp)
    refine ⟨hbelow, ?_⟩
    by_contra hno
    obtain ⟨hpart, hdirty⟩ := not_or.mp hno
    rw [Bool.not_eq_false, ← hlast] at hdirty
    have hchecked := checked_invalidateRangeIfDirty hlt hbelow hwindow hcall
    obtain ⟨va, hva, hline⟩ := (hexact.invalidated (end_ / 64)).mpr
      ⟨(touches_iff hlt).mpr ⟨by omega, by omega⟩, hdirty⟩
    obtain ⟨l, hl, -, rfl⟩ := (hchecked.invalidated va).mp hva
    rw [lineOf_lineAddr] at hline
    omega
  · rintro ⟨hbelow, hclean⟩
    obtain ⟨o, hcall⟩ := rangeLoop_returns hbelow (end_ / 4096 + 1)
      (show end_ ≤ 4096 * ((rangeStart 0 begin tracker).addr / 4096 + (end_ / 4096 + 1)) by omega)
    have hchecked : Checked (begin / 64) ((end_ + 63) / 64) tracker o := by
      have hto := checked_invalidateRangeIfDirty hlt hbelow hwindow hcall
      by_cases hpart : end_ % 64 = 0
      · rwa [show (end_ + 63) / 64 = end_ / 64 by omega]
      · rw [show (end_ + 63) / 64 = end_ / 64 + 1 by omega]
        exact hto.extend (by omega) (hlast.trans (hclean.resolve_left hpart))
    refine ⟨_, o, hcall, hchecked.exactOn hlt hwindow, hchecked.sameEffect ?_⟩
    have heach := Checked.invalidateLines (begin / 64) ((end_ + 63) / 64 - begin / 64) tracker (by omega)
    rw [Nat.add_sub_cancel' (by omega)] at heach
    rw [rangeLines_of_lt hlt]
    exact heach

/-- A dirty line in the middle of a range that ends inside a clean one. -/
theorem range_agrees_clean_end :
    RangeAgrees (markLine 0 (cxlNhcStart + 64) empty) cxlNhcStart (cxlNhcStart + 200) :=
  (range_agrees_iff _ _ _ (by decide) (by decide) (by decide)).mpr
    ⟨by decide, .inr (by decide +kernel)⟩

/-- The only line of the range is dirty, and the range ends inside it: nothing is flushed. -/
theorem range_misses_last_line :
    ¬ RangeAgrees (markLine 0 cxlNhcStart empty) cxlNhcStart (cxlNhcStart + 8) := by
  rintro ⟨fuel, o, hcall, hexact, -⟩
  have hchecked := checked_invalidateRangeIfDirty (by decide) (by decide) (by decide) hcall
  obtain ⟨va, hva, -⟩ := (hexact.invalidated (cxlNhcStart / 64)).mpr
    ⟨(touches_iff (by decide)).mpr ⟨by decide, by decide⟩, by decide +kernel⟩
  obtain ⟨l, hl, -⟩ := (hchecked.invalidated va).mp hva
  have hempty : ¬ (cxlNhcStart / 64 ≤ l ∧ l < (cxlNhcStart + 8) / 64) := by
    rw [show (cxlNhcStart + 8) / 64 = cxlNhcStart / 64 by decide]
    omega
  exact hempty hl

end CacheLineTracker

end RACoherence
