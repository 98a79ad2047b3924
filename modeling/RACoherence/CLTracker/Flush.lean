import RACoherence.CLTracker.LineSet

/-!
# One call of the lazy path

Reference: `include/clTracker.hpp`, `invalidate_if_dirty` and `invalidate_range_if_dirty`, called by one
thread while no other thread uses the tracker.

A call returns whether it found a dirty line, and on the way flushes hardware lines and clears bits. The
dirty bit of a virtual line stands for `CL_EXPAND_FACTOR` hardware lines; both calls flush the first one,
or the one they were given, and no other.
-/

namespace RACoherence

open Function

namespace CacheLineTracker

/-- What a call leaves behind: its result, the addresses it has passed to `do_invalidate`, in order, and
the tracker. -/
structure Outcome where
  anyDirty : Bool
  invalidated : List ℕ
  tracker : CacheLineTracker

namespace Outcome

/-- Nothing has been done yet. -/
def start (tracker : CacheLineTracker) : Outcome := ⟨false, [], tracker⟩

/-- A call and the one after it. -/
def andThen (o o' : Outcome) : Outcome :=
  ⟨o.anyDirty || o'.anyDirty, o.invalidated ++ o'.invalidated, o'.tracker⟩

@[simp] theorem start_andThen (tracker : CacheLineTracker) (o : Outcome) :
    (start tracker).andThen o = o := rfl

end Outcome

variable (sh : ℕ)

/-- `invalidate_if_dirty` -/
def invalidateIfDirty (va : ℕ) (tracker : CacheLineTracker) : Outcome :=
  if isDirty sh tracker va then ⟨true, [va], clearDirty sh va tracker⟩ else .start tracker

/-- `VIRTUAL_CL_SIZE` -/
def virtualClSize : ℕ := cacheLineSize * clExpandFactor sh

/-- `leaf_shift` -/
def leafShift : ℕ := virtualClShift sh + leafBits

/-- `page_end_va`: the start of the next leaf, on a 64-bit word. -/
def pageEndVa (addr : ℕ) : ℕ := shl64 (addr >>> leafShift sh + 1) (leafShift sh)

/-- `end_line` -/
def endLine (addr end_ : ℕ) : ℕ :=
  if pageEndVa sh addr > end_ then (end_ >>> leafBits) &&& (1 <<< leafBits - 1) else 1 <<< leafBits

/-- `mask` -/
def rangeMask (addr end_ : ℕ) : ℕ :=
  let startLine := (splitVa sh addr).line
  if endLine sh addr end_ = 1 <<< leafBits then shl64 (2 ^ 64 - 1) startLine
  else (1 <<< endLine sh addr end_ - 1) &&& (2 ^ 64 - 1 - (1 <<< startLine - 1))

/-- `line_va` -/
def lineVa (addr bit : ℕ) : ℕ :=
  (addr >>> leafShift sh) <<< leafShift sh + bit * virtualClSize sh

/-- The locals of `invalidate_range_if_dirty`, and what it has done so far. -/
structure RangeState where
  addr : ℕ
  out : Outcome

/-- The loop body of `invalidate_range_if_dirty`. -/
def rangeBody (end_ : ℕ) (s : RangeState) : RangeState :=
  let parts := splitVa sh s.addr
  match s.out.tracker parts.l1 with
  | none => { s with addr := pageEndVa sh s.addr }
  | some l2 =>
      match l2 parts.l2 with
      | none => { s with addr := pageEndVa sh s.addr }
      | some leaf =>
          let mask := rangeMask sh s.addr end_
          let wasDirty := leaf &&& mask
          { addr := pageEndVa sh s.addr
            out :=
              { anyDirty := s.out.anyDirty || wasDirty != 0
                invalidated := s.out.invalidated ++ (Bits.popBits 64 64 wasDirty).map (lineVa sh s.addr)
                tracker := clearMask sh s.addr mask s.out.tracker } }

/-- `while (addr < end)`; `none` when the fuel does not suffice for it to end. -/
def rangeLoop (end_ : ℕ) : ℕ → RangeState → Option Outcome
  | 0, _ => none
  | fuel + 1, s => if s.addr < end_ then rangeLoop end_ fuel (rangeBody sh end_ s) else some s.out

/-- Where the loop starts: `begin` is rounded down to its virtual line. -/
def rangeStart (begin : ℕ) (tracker : CacheLineTracker) : RangeState :=
  ⟨(begin >>> virtualClShift sh) <<< virtualClShift sh, .start tracker⟩

/-- `invalidate_range_if_dirty` -/
def invalidateRangeIfDirty (fuel begin end_ : ℕ) (tracker : CacheLineTracker) : Option Outcome :=
  rangeLoop sh end_ fuel (rangeStart sh begin tracker)

/-! ## What one iteration does -/

/-- The address of a virtual line. -/
def lineAddr (l : ℕ) : ℕ := l <<< virtualClShift sh

/-- The iteration at `addr` is about virtual line `l`. -/
def Checks (addr end_ l : ℕ) : Prop :=
  l / 64 = blockOf sh addr ∧ (rangeMask sh addr end_).testBit (l % 64) = true

/-- The dirty mask of the leaf of `va`. -/
def leafMask (tracker : CacheLineTracker) (va : ℕ) : ℕ :=
  match tracker (splitVa sh va).l1 with
  | none => 0
  | some l2 => (l2 (splitVa sh va).l2).getD 0

variable {sh}

@[simp] theorem lineOf_lineAddr (l : ℕ) : lineOf sh (lineAddr sh l) = l :=
  Nat.shiftLeft_shiftRight l _

theorem blockOf_eq_shiftRight (va : ℕ) : blockOf sh va = va >>> leafShift sh := by
  rw [leafShift, Nat.shiftRight_add, Nat.shiftRight_eq_div_pow _ leafBits]
  rfl

theorem virtualClSize_eq (sh : ℕ) : virtualClSize sh = 2 ^ virtualClShift sh := by
  have hline : cacheLineSize = 2 ^ cacheLineShift := rfl
  rw [virtualClSize, clExpandFactor, virtualClShift, hline, pow_add, Nat.one_shiftLeft]

theorem lineVa_eq (addr bit : ℕ) : lineVa sh addr bit = lineAddr sh (64 * blockOf sh addr + bit) := by
  have hleaf : (2 : ℕ) ^ leafShift sh = 2 ^ virtualClShift sh * 64 := pow_add 2 _ _
  rw [lineVa, lineAddr, blockOf_eq_shiftRight, virtualClSize_eq, Nat.shiftLeft_eq, Nat.shiftLeft_eq,
    hleaf]
  ring

/-- Dirtiness is a bit of the leaf. -/
theorem isDirty_eq_testBit (tracker : CacheLineTracker) (va : ℕ) :
    isDirty sh tracker va = (leafMask sh tracker va).testBit (splitVa sh va).line := by
  unfold isDirty leafMask
  dsimp only
  cases tracker (splitVa sh va).l1 with
  | none => simp
  | some l2 =>
      cases hleaf : l2 (splitVa sh va).l2 with
      | none => simp [hleaf]
      | some leaf =>
          simp only [hleaf, Option.getD_some, Nat.one_shiftLeft, Nat.and_two_pow]
          cases leaf.testBit (splitVa sh va).line <;> simp

/-- Only the leaf and the line in it count. -/
theorem isDirty_congr {tracker : CacheLineTracker} {va va' : ℕ} (hleaf : SameLeaf sh va va')
    (hline : lineOf sh va % 64 = lineOf sh va' % 64) :
    isDirty sh tracker va = isDirty sh tracker va' := by
  have hparts : splitVa sh va = splitVa sh va' := by
    have hl := @splitVa_line sh va
    rw [hline, ← splitVa_line] at hl
    cases h : splitVa sh va
    cases h' : splitVa sh va'
    rw [SameLeaf, h, h'] at hleaf
    rw [h, h'] at hl
    simp only [VaParts.mk.injEq]
    exact ⟨hleaf.1, hleaf.2, hl⟩
  simp only [isDirty, hparts]

/-- An absent leaf has nothing to flush and nothing to clear, so the three paths through the body are
one. -/
theorem rangeBody_eq (end_ : ℕ) (s : RangeState) :
    rangeBody sh end_ s =
      { addr := pageEndVa sh s.addr
        out := s.out.andThen
          { anyDirty := (leafMask sh s.out.tracker s.addr &&& rangeMask sh s.addr end_) != 0
            invalidated := (Bits.popBits 64 64 (leafMask sh s.out.tracker s.addr &&&
              rangeMask sh s.addr end_)).map (lineVa sh s.addr)
            tracker := clearMask sh s.addr (rangeMask sh s.addr end_) s.out.tracker } } := by
  unfold rangeBody leafMask clearMask Outcome.andThen
  dsimp only
  cases s.out.tracker (splitVa sh s.addr).l1 with
  | none => simp [Bits.popBits]
  | some l2 =>
      cases hleaf : l2 (splitVa sh s.addr).l2 with
      | none => simp [hleaf, Bits.popBits]
      | some leaf => simp [hleaf]

/-- What an iteration does depends on what was done before through the tracker only. -/
theorem out_rangeBody (end_ : ℕ) (s : RangeState) :
    (rangeBody sh end_ s).out =
      s.out.andThen (rangeBody sh end_ ⟨s.addr, .start s.out.tracker⟩).out := by
  rw [rangeBody_eq, rangeBody_eq, Outcome.start_andThen]
  rfl

theorem endLine_le (sh addr end_ : ℕ) : endLine sh addr end_ ≤ 64 := by
  have hmask : 1 <<< leafBits - 1 = 2 ^ 6 - 1 := rfl
  have hleaf : 1 <<< leafBits = 64 := rfl
  unfold endLine
  split
  · rw [hmask, Nat.and_two_pow_sub_one_eq_mod]
    omega
  · omega

/-- The mask selects the lines from `addr` up to the end line. -/
theorem testBit_rangeMask {addr end_ i : ℕ} :
    (rangeMask sh addr end_).testBit i = true ↔
      lineOf sh addr % 64 ≤ i ∧ i < endLine sh addr end_ := by
  have hleaf : 1 <<< leafBits = 64 := rfl
  have hstart := splitVa_line_lt sh addr
  have hend := endLine_le sh addr end_
  rw [← splitVa_line, rangeMask, hleaf]
  split
  · rename_i hfull
    rw [hfull]
    simp only [shl64, Nat.testBit_mod_two_pow, Nat.testBit_shiftLeft, Nat.testBit_two_pow_sub_one,
      Bool.and_eq_true, decide_eq_true_eq]
    omega
  · have hpow : 2 ^ (splitVa sh addr).line ≤ 2 ^ 63 := Nat.pow_le_pow_right (by omega) (by omega)
    have hpos := Nat.two_pow_pos (splitVa sh addr).line
    have hnot : 2 ^ 64 - 1 - (2 ^ (splitVa sh addr).line - 1) =
        2 ^ 64 - ((2 ^ (splitVa sh addr).line - 1) + 1) := by omega
    rw [Nat.one_shiftLeft, Nat.one_shiftLeft, hnot, Nat.testBit_and, Nat.testBit_two_pow_sub_one,
      Nat.testBit_two_pow_sub_succ (by omega), Nat.testBit_two_pow_sub_one]
    simp only [Bool.and_eq_true, decide_eq_true_eq, Bool.not_eq_true', decide_eq_false_iff_not]
    omega

theorem rangeMask_lt (addr end_ : ℕ) : rangeMask sh addr end_ < 2 ^ 64 := by
  apply Nat.lt_pow_two_of_testBit
  intro i hi
  have hend := endLine_le sh addr end_
  rw [← Bool.not_eq_true, testBit_rangeMask]
  omega

theorem sameLeaf_of_block {va va' : ℕ} (h : blockOf sh va = blockOf sh va') : SameLeaf sh va va' := by
  rw [sameLeaf_iff_mod, h]

theorem blockOf_lineAddr (l : ℕ) : blockOf sh (lineAddr sh l) = l / 64 := by
  rw [blockOf, lineOf_lineAddr]

/-- A line of the leaf is dirty when its bit is set. -/
theorem isDirty_lineAddr {tracker : CacheLineTracker} {addr l : ℕ} (hl : l / 64 = blockOf sh addr) :
    isDirty sh tracker (lineAddr sh l) = (leafMask sh tracker addr).testBit (l % 64) := by
  obtain ⟨h₁, h₂⟩ := sameLeaf_of_block ((blockOf_lineAddr l).trans hl)
  rw [isDirty_eq_testBit, splitVa_line, lineOf_lineAddr]
  simp only [leafMask, h₁, h₂]

/-- What one iteration flushes. -/
theorem mem_invalidated_rangeBody {end_ va : ℕ} {s : RangeState} :
    va ∈ (rangeBody sh end_ s).out.invalidated ↔ va ∈ s.out.invalidated ∨
      ∃ l, Checks sh s.addr end_ l ∧ isDirty sh s.out.tracker (lineAddr sh l) = true ∧
        va = lineAddr sh l := by
  have hlt : leafMask sh s.out.tracker s.addr &&& rangeMask sh s.addr end_ < 2 ^ 64 :=
    Nat.and_le_right.trans_lt (rangeMask_lt _ _)
  have hend := endLine_le sh s.addr end_
  simp only [rangeBody_eq, Outcome.andThen, List.mem_append, List.mem_map,
    Bits.popBits_eq_setBits hlt, Bits.mem_setBits hlt, Nat.testBit_and, Bool.and_eq_true]
  refine or_congr_right ?_
  constructor
  · rintro ⟨i, ⟨hdirty, hmask⟩, rfl⟩
    have hi := (testBit_rangeMask.mp hmask).2
    have hblock : (64 * blockOf sh s.addr + i) / 64 = blockOf sh s.addr := by omega
    have hline : (64 * blockOf sh s.addr + i) % 64 = i := by omega
    refine ⟨_, ⟨hblock, by rwa [hline]⟩, ?_, lineVa_eq _ _⟩
    rwa [isDirty_lineAddr hblock, hline]
  · rintro ⟨l, ⟨hblock, hmask⟩, hdirty, rfl⟩
    rw [isDirty_lineAddr hblock] at hdirty
    refine ⟨l % 64, ⟨hdirty, hmask⟩, ?_⟩
    rw [lineVa_eq, ← hblock, Nat.div_add_mod]

/-- Whether one iteration has found a dirty line. -/
theorem anyDirty_rangeBody {end_ : ℕ} {s : RangeState} :
    (rangeBody sh end_ s).out.anyDirty = true ↔ s.out.anyDirty = true ∨
      ∃ l, Checks sh s.addr end_ l ∧ isDirty sh s.out.tracker (lineAddr sh l) = true := by
  have hlt : leafMask sh s.out.tracker s.addr &&& rangeMask sh s.addr end_ < 2 ^ 64 :=
    Nat.and_le_right.trans_lt (rangeMask_lt _ _)
  have hend := endLine_le sh s.addr end_
  simp only [rangeBody_eq, Outcome.andThen, Bool.or_eq_true, bne_iff_ne]
  refine or_congr_right ?_
  constructor
  · intro hne
    obtain ⟨hbit, -⟩ := Bits.testBit_ctz hne hlt
    rw [Nat.testBit_and, Bool.and_eq_true] at hbit
    generalize Bits.ctz 64 _ = i at hbit
    have hi := (testBit_rangeMask.mp hbit.2).2
    have hblock : (64 * blockOf sh s.addr + i) / 64 = blockOf sh s.addr := by omega
    have hline : (64 * blockOf sh s.addr + i) % 64 = i := by omega
    refine ⟨_, ⟨hblock, by rw [hline]; exact hbit.2⟩, ?_⟩
    rw [isDirty_lineAddr hblock, hline]
    exact hbit.1
  · rintro ⟨l, ⟨hblock, hmask⟩, hdirty⟩ h0
    rw [isDirty_lineAddr hblock] at hdirty
    have hbit : (leafMask sh s.out.tracker s.addr &&& rangeMask sh s.addr end_).testBit (l % 64) = true := by
      rw [Nat.testBit_and, hdirty, hmask]
      rfl
    rw [h0] at hbit
    exact absurd hbit (by simp)

/-- What one iteration clears: the lines it is about, and those that share a leaf bit with them. -/
theorem isDirty_rangeBody {end_ va : ℕ} {s : RangeState} :
    isDirty sh (rangeBody sh end_ s).out.tracker va = true ↔ isDirty sh s.out.tracker va = true ∧
      ¬ (SameLeaf sh s.addr va ∧
        (rangeMask sh s.addr end_).testBit (lineOf sh va % 64) = true) := by
  rw [rangeBody_eq, ← splitVa_line]
  exact isDirty_clearMask

/-- What one call for a single address flushes, and what it clears. -/
theorem mem_invalidated_invalidateIfDirty {va a : ℕ} {tracker : CacheLineTracker} :
    a ∈ (invalidateIfDirty sh va tracker).invalidated ↔ isDirty sh tracker va = true ∧ a = va := by
  unfold invalidateIfDirty Outcome.start
  split
  · rename_i h
    simp [h]
  · rename_i h
    simp [h]

/-! ## Hardware lines -/

/-- Each of the hardware lines of virtual line `l` is among those of the addresses. -/
def FlushedWhole (sh : ℕ) (addrs : List ℕ) (l : ℕ) : Prop :=
  ∀ hw, hw >>> sh = l → ∃ va ∈ addrs, va >>> cacheLineShift = hw

/-- If `invalidate_if_dirty(va)` clears the dirty bit of the line of `va`, it has flushed the line
whole. -/
def IfDirtyWhole (sh : ℕ) (tracker : CacheLineTracker) (va : ℕ) : Prop :=
  isDirty sh tracker va = true →
    isDirty sh (invalidateIfDirty sh va tracker).tracker va = false →
    FlushedWhole sh (invalidateIfDirty sh va tracker).invalidated (lineOf sh va)

/-- The states in which `invalidate_range_if_dirty(begin, end)` tests the loop condition. -/
def Visits (sh begin end_ : ℕ) (tracker : CacheLineTracker) : RangeState → Prop :=
  Relation.ReflTransGen (fun s s' => s.addr < end_ ∧ s' = rangeBody sh end_ s)
    (rangeStart sh begin tracker)

/-- Whenever an iteration of `invalidate_range_if_dirty(begin, end)` clears the dirty bit of a line of its
leaf, the call has flushed the line whole by the end of the iteration. -/
def RangeWhole (sh : ℕ) (tracker : CacheLineTracker) (begin end_ : ℕ) : Prop :=
  ∀ s, Visits sh begin end_ tracker s → s.addr < end_ → ∀ l, l / 64 = blockOf sh s.addr →
    isDirty sh s.out.tracker (lineAddr sh l) = true →
    isDirty sh (rangeBody sh end_ s).out.tracker (lineAddr sh l) = false →
    FlushedWhole sh (rangeBody sh end_ s).out.invalidated l

/-- Where the loop of `invalidate_range_if_dirty(begin, …)` is after `k` iterations, whatever the
tracker. -/
def visitAddr (sh begin : ℕ) : ℕ → ℕ
  | 0 => (begin >>> virtualClShift sh) <<< virtualClShift sh
  | k + 1 => pageEndVa sh (visitAddr sh begin k)

/-- `invalidate_range_if_dirty(begin, end)` has an iteration that is about virtual line `l`. -/
def Selects (sh begin end_ l : ℕ) : Prop :=
  ∃ k, (∀ j ≤ k, visitAddr sh begin j < end_) ∧ Checks sh (visitAddr sh begin k) end_ l

theorem flushedWhole_zero {addrs : List ℕ} {l : ℕ} :
    FlushedWhole 0 addrs l ↔ ∃ va ∈ addrs, lineOf 0 va = l :=
  ⟨fun h => h l (Nat.shiftRight_zero), fun h hw hl => by rwa [← Nat.shiftRight_zero (n := hw), hl]⟩

/-- Flushing virtual lines at their first hardware line only never reaches the second. -/
theorem not_flushedWhole_of_lineAddr {addrs : List ℕ} {l : ℕ} (hsh : sh ≠ 0)
    (haddrs : ∀ va ∈ addrs, ∃ l', va = lineAddr sh l') : ¬ FlushedWhole sh addrs l := by
  intro h
  have hpow : 2 ^ sh = 2 * 2 ^ (sh - 1) := by
    rw [← pow_succ', Nat.sub_add_cancel (by omega)]
  have hsecond : (2 ^ sh * l + 1) >>> sh = l := by
    rw [Nat.shiftRight_eq_div_pow, Nat.mul_add_div (Nat.two_pow_pos _), Nat.div_eq_of_lt, Nat.add_zero]
    have hpos := Nat.two_pow_pos (sh - 1)
    omega
  obtain ⟨va, hva, heq⟩ := h _ hsecond
  obtain ⟨l', rfl⟩ := haddrs va hva
  have hfirst : lineAddr sh l' >>> cacheLineShift = 2 ^ sh * l' := by
    rw [lineAddr, virtualClShift, Nat.add_comm, Nat.shiftLeft_add, Nat.shiftLeft_shiftRight,
      Nat.shiftLeft_eq, Nat.mul_comm]
  rw [hfirst, hpow, Nat.mul_assoc, Nat.mul_assoc] at heq
  omega

/-- A single check flushes one hardware line, which is the whole line only with `CL_EXPAND_SHIFT=0`. -/
theorem ifDirtyWhole_iff (tracker : CacheLineTracker) (va : ℕ) :
    IfDirtyWhole sh tracker va ↔ sh = 0 ∨ isDirty sh tracker va = false := by
  constructor
  · intro h
    by_contra hno
    obtain ⟨hsh, hdirty⟩ := not_or.mp hno
    rw [Bool.not_eq_false] at hdirty
    have hcall : invalidateIfDirty sh va tracker = ⟨true, [va], clearDirty sh va tracker⟩ := if_pos hdirty
    have hclear : isDirty sh (clearDirty sh va tracker) va = false := by
      rw [← Bool.not_eq_true, clearDirty, isDirty_clearMask, Nat.one_shiftLeft, Nat.testBit_two_pow_self]
      exact fun h => h.2 ⟨⟨rfl, rfl⟩, rfl⟩
    have hwhole := h hdirty (by rwa [hcall])
    rw [hcall] at hwhole
    -- one address cannot reach two hardware lines
    have hpow : 2 ^ sh = 2 * 2 ^ (sh - 1) := by
      rw [← pow_succ', Nat.sub_add_cancel (by omega)]
    have hpos := Nat.two_pow_pos (sh - 1)
    have hline : ∀ i < 2 ^ sh, (2 ^ sh * lineOf sh va + i) >>> sh = lineOf sh va := by
      intro i hi
      rw [Nat.shiftRight_eq_div_pow, Nat.mul_add_div (Nat.two_pow_pos _), Nat.div_eq_of_lt hi,
        Nat.add_zero]
    obtain ⟨a, ha, hfirst⟩ := hwhole _ (hline 0 (by omega))
    obtain ⟨b, hb, hsecond⟩ := hwhole _ (hline 1 (by omega))
    rw [List.mem_singleton] at ha hb
    rw [ha] at hfirst
    rw [hb] at hsecond
    omega
  · rintro (rfl | hclean) hdirty -
    · rw [flushedWhole_zero]
      exact ⟨va, mem_invalidated_invalidateIfDirty.mpr ⟨hdirty, rfl⟩, rfl⟩
    · rw [hclean] at hdirty
      exact absurd hdirty (by simp)

/-! ## The loop, iteration by iteration -/

/-- What holds whenever the loop condition is tested. -/
structure Visited (sh begin end_ : ℕ) (tracker : CacheLineTracker) (s : RangeState) : Prop where
  addr : ∃ k, s.addr = visitAddr sh begin k ∧ ∀ j < k, visitAddr sh begin j < end_
  lines : ∀ va ∈ s.out.invalidated, ∃ l, va = lineAddr sh l
  dirty : ∀ va, isDirty sh s.out.tracker va = true → isDirty sh tracker va = true

theorem Visited.rangeBody {begin end_ : ℕ} {tracker : CacheLineTracker} {s : RangeState}
    (h : Visited sh begin end_ tracker s) (hlt : s.addr < end_) :
    Visited sh begin end_ tracker (rangeBody sh end_ s) := by
  obtain ⟨k, hk, hbefore⟩ := h.addr
  refine ⟨⟨k + 1, ?_, ?_⟩, ?_, ?_⟩
  · rw [rangeBody_eq, visitAddr, hk]
  · intro j hj
    rcases Nat.lt_succ_iff_lt_or_eq.mp hj with hj | rfl
    · exact hbefore j hj
    · rwa [← hk]
  · intro va hva
    rcases mem_invalidated_rangeBody.mp hva with hva | ⟨l, -, -, rfl⟩
    · exact h.lines va hva
    · exact ⟨l, rfl⟩
  · intro va hva
    exact h.dirty va (isDirty_rangeBody.mp hva).1

theorem Visits.visited {begin end_ : ℕ} {tracker : CacheLineTracker} {s : RangeState}
    (h : Visits sh begin end_ tracker s) : Visited sh begin end_ tracker s := by
  induction h with
  | refl => exact ⟨⟨0, rfl, by simp⟩, by simp [rangeStart, Outcome.start], fun _ => id⟩
  | tail _ hstep ih =>
      obtain ⟨hlt, rfl⟩ := hstep
      exact ih.rangeBody hlt

/-- The loop gets to every address before which it does not stop. -/
theorem exists_visits {begin end_ : ℕ} (tracker : CacheLineTracker) (k : ℕ)
    (hk : ∀ j < k, visitAddr sh begin j < end_) :
    ∃ s, Visits sh begin end_ tracker s ∧ s.addr = visitAddr sh begin k := by
  induction k with
  | zero => exact ⟨rangeStart sh begin tracker, .refl, rfl⟩
  | succ k ih =>
      obtain ⟨s, hs, haddr⟩ := ih fun j hj => hk j (by omega)
      have hlt : s.addr < end_ := by
        rw [haddr]
        exact hk k (by omega)
      refine ⟨rangeBody sh end_ s, hs.tail ⟨hlt, rfl⟩, ?_⟩
      rw [rangeBody_eq, visitAddr, haddr]

/-- With `CL_EXPAND_SHIFT > 0` a call that flushes whole lines finds nothing to clear. -/
theorem RangeWhole.clears_none {begin end_ : ℕ} {tracker : CacheLineTracker} {s : RangeState}
    (h : RangeWhole sh tracker begin end_) (hsh : sh ≠ 0) (hs : Visits sh begin end_ tracker s)
    (hlt : s.addr < end_) {va : ℕ} (hleaf : SameLeaf sh s.addr va)
    (hmask : (rangeMask sh s.addr end_).testBit (lineOf sh va % 64) = true) :
    isDirty sh s.out.tracker va = false := by
  by_contra hdirty
  rw [Bool.not_eq_false] at hdirty
  -- the line of this leaf that shares its bit with the line of `va`
  have hblock : (64 * blockOf sh s.addr + lineOf sh va % 64) / 64 = blockOf sh s.addr := by omega
  have hline : (64 * blockOf sh s.addr + lineOf sh va % 64) % 64 = lineOf sh va % 64 := by omega
  have hsame : SameLeaf sh s.addr (lineAddr sh (64 * blockOf sh s.addr + lineOf sh va % 64)) :=
    sameLeaf_of_block (by rw [blockOf_lineAddr, hblock])
  have hbefore : isDirty sh s.out.tracker
      (lineAddr sh (64 * blockOf sh s.addr + lineOf sh va % 64)) = true := by
    rw [← hdirty]
    apply isDirty_congr
    · exact ⟨hsame.1.symm.trans hleaf.1, hsame.2.symm.trans hleaf.2⟩
    · rw [lineOf_lineAddr, hline]
  have hafter : isDirty sh (CacheLineTracker.rangeBody sh end_ s).out.tracker
      (lineAddr sh (64 * blockOf sh s.addr + lineOf sh va % 64)) = false := by
    rw [← Bool.not_eq_true, isDirty_rangeBody, lineOf_lineAddr, hline]
    exact fun hd => hd.2 ⟨hsame, hmask⟩
  exact not_flushedWhole_of_lineAddr hsh (hs.visited.rangeBody hlt).lines
    (h s hs hlt _ hblock hbefore hafter)

/-- Then the tracker stays as it was. -/
theorem RangeWhole.isDirty_eq {begin end_ : ℕ} {tracker : CacheLineTracker} {s : RangeState}
    (h : RangeWhole sh tracker begin end_) (hsh : sh ≠ 0) (hs : Visits sh begin end_ tracker s)
    (va : ℕ) : isDirty sh s.out.tracker va = true ↔ isDirty sh tracker va = true := by
  induction hs with
  | refl => exact Iff.rfl
  | tail hprev hstep ih =>
      obtain ⟨hlt, rfl⟩ := hstep
      rw [isDirty_rangeBody, ← ih, and_iff_left_iff_imp]
      rintro hdirty ⟨hleaf, hmask⟩
      rw [h.clears_none hsh hprev hlt hleaf hmask] at hdirty
      exact absurd hdirty (by simp)

theorem rangeWhole_iff (tracker : CacheLineTracker) (begin end_ : ℕ) :
    RangeWhole sh tracker begin end_ ↔
      sh = 0 ∨ ∀ l, Selects sh begin end_ l → isDirty sh tracker (lineAddr sh l) = false := by
  constructor
  · intro h
    by_cases hsh : sh = 0
    · exact .inl hsh
    · right
      rintro l ⟨k, hk, hblock, hmask⟩
      obtain ⟨s, hs, haddr⟩ := exists_visits tracker k fun j hj => hk j hj.le
      have hlt : s.addr < end_ := by
        rw [haddr]
        exact hk k le_rfl
      rw [← haddr] at hblock hmask
      have hclean := h.clears_none hsh hs hlt
        (sameLeaf_of_block (by rw [blockOf_lineAddr, hblock]) : SameLeaf sh s.addr (lineAddr sh l))
        (by rwa [lineOf_lineAddr])
      rwa [← Bool.not_eq_true, h.isDirty_eq hsh hs, Bool.not_eq_true] at hclean
  · intro h s hs hlt l hblock hbefore hafter
    have hcleared : Checks sh s.addr end_ l := by
      rw [← Bool.not_eq_true, isDirty_rangeBody, lineOf_lineAddr] at hafter
      by_contra hno
      exact hafter ⟨hbefore, fun hin => hno ⟨hblock, hin.2⟩⟩
    rcases h with rfl | hclean
    · rw [flushedWhole_zero]
      refine ⟨lineAddr 0 l, mem_invalidated_rangeBody.mpr (.inr ⟨l, hcleared, hbefore, rfl⟩), ?_⟩
      exact lineOf_lineAddr l
    · obtain ⟨k, haddr, hbounds⟩ := hs.visited.addr
      rw [haddr] at hcleared hlt
      have hselects : Selects sh begin end_ l := by
        refine ⟨k, fun j hj => ?_, hcleared⟩
        rcases hj.lt_or_eq with hj | rfl
        · exact hbounds j hj
        · exact hlt
      have hdirty := hs.visited.dirty _ hbefore
      rw [hclean l hselects] at hdirty
      exact absurd hdirty (by simp)

/-- Whatever `CL_EXPAND_SHIFT` and the tracker: a call flushes whole each line whose bit it clears if and
only if the shift is 0 or the call finds none of its lines dirty. -/
theorem expanded_lines_flushed_iff (sh : ℕ) (tracker : CacheLineTracker) :
    (∀ va, IfDirtyWhole sh tracker va ↔ sh = 0 ∨ isDirty sh tracker va = false) ∧
    (∀ begin end_, RangeWhole sh tracker begin end_ ↔
      sh = 0 ∨ ∀ l, Selects sh begin end_ l → isDirty sh tracker (lineAddr sh l) = false) :=
  ⟨ifDirtyWhole_iff tracker, rangeWhole_iff tracker⟩

/-- Two hardware lines to a virtual line, the first line that is not hardware coherent marked: the second
half is not flushed by either call. -/
theorem expanded_line_flushed_half :
    ¬ IfDirtyWhole 1 (markLine 1 cxlNhcStart empty) cxlNhcStart ∧
      ¬ RangeWhole 1 (markLine 1 cxlNhcStart empty) cxlNhcStart (cxlNhcStart + 8192) := by
  constructor
  · rw [ifDirtyWhole_iff]
    decide +kernel
  · rw [rangeWhole_iff]
    rintro (h | h)
    · exact absurd h (by decide)
    · have hclean := h (cxlNhcStart / 128) ⟨0, by decide +kernel, by decide +kernel, by decide +kernel⟩
      revert hclean
      decide +kernel

end CacheLineTracker

end RACoherence
