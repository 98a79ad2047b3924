import RACoherence.CLTracker

/-!
# Processing a log

Reference: `include/cacheInfo.hpp` with `LOCAL_CL_TABLE=1`; `WBINVD_PATH` is defined.

`process_log` either invalidates the lines of a log at once (`EAGER_INVALIDATE=1`) or marks them in
the tracker. The eager branch touches exactly the lines that the entries cover. The lazy branch does
so only for entries whose group is the first of its leaf: `get_mask16_to_64_shift` shifts a mask by
`0` or `8` instead of sixteen times the position of the group in the leaf, and the loop for a length
entry advances the address by bytes.
-/

namespace RACoherence

open ClGroup CacheLineTracker

variable (sh : ℕ)

/-- The entry is long enough for `process_log` to flush the whole cache and return. -/
def flushesCache (entry : ℕ) : Bool :=
  isLengthBased entry && decide (wbinvdThreshold ≤ getLength sh entry)

/-- The hardware lines of the virtual lines that a mask entry names. -/
def maskAddrs (entry : ℕ) : List ℕ :=
  (maskRange sh (getPtr sh entry) (getMask16 sh entry)).flatMap fun clAddr =>
    (List.range (clExpandFactor sh)).map fun i => clAddr + i * cacheLineSize

/-- The addresses that `process_log` invalidates for one entry with `EAGER_INVALIDATE=1`. -/
def eagerAddrs (entry : ℕ) : List ℕ :=
  if isLengthBased entry then
    (List.range (getLength sh entry * groupSize * clExpandFactor sh)).map fun i =>
      getPtr sh entry + i * cacheLineSize
  else maskAddrs sh entry

/-- What `process_log` marks for one entry with `EAGER_INVALIDATE=0`. -/
def markEntry (entry : ℕ) (tracker : CacheLineTracker) : CacheLineTracker :=
  if isLengthBased entry then
    let clAddr := getPtr sh entry
    (List.range (getLength sh entry)).foldl
      (fun tracker i => markDirty sh (clAddr + i) (shl64 fullMask (getMask16To64Shift clAddr)) tracker)
      tracker
  else
    markDirty sh (getPtr sh entry) (shl64 (getMask16 sh entry) (getMask16To64Shift entry)) tracker

/-- `process_log` with `EAGER_INVALIDATE=0`. -/
def processLogLazy : List ℕ → CacheLineTracker → CacheLineTracker
  | [], tracker => tracker
  | entry :: log, tracker =>
      if flushesCache sh entry then tracker else processLogLazy log (markEntry sh entry tracker)

/-! ## What the lazy branch marks -/

/-- Processing `entry` lazily marks address `va`. -/
def Marks (entry va : ℕ) : Prop :=
  if isLengthBased entry then
    ∃ i < getLength sh entry, SameLeaf sh (getPtr sh entry + i) va ∧
      (shl64 fullMask (getMask16To64Shift (getPtr sh entry))).testBit (splitVa sh va).line = true
  else
    SameLeaf sh (getPtr sh entry) va ∧
      (shl64 (getMask16 sh entry) (getMask16To64Shift entry)).testBit (splitVa sh va).line = true

variable {sh}

private theorem isDirty_foldl_markDirty {ptr mask va n : ℕ} {tracker : CacheLineTracker} :
    isDirty sh ((List.range n).foldl (fun tr i => markDirty sh (ptr + i) mask tr) tracker) va ↔
      isDirty sh tracker va ∨ ∃ i < n, SameLeaf sh (ptr + i) va ∧
        mask.testBit (splitVa sh va).line = true := by
  induction n with
  | zero => simp
  | succ n ih =>
      rw [List.range_succ, List.foldl_append, List.foldl_cons, List.foldl_nil, isDirty_markDirty, ih]
      constructor
      · rintro ((h | ⟨i, hi, h⟩) | h)
        · exact .inl h
        · exact .inr ⟨i, by omega, h⟩
        · exact .inr ⟨n, by omega, h⟩
      · rintro (h | ⟨i, hi, h⟩)
        · exact .inl (.inl h)
        · rcases Nat.lt_succ_iff_lt_or_eq.mp hi with hlt | rfl
          · exact .inl (.inr ⟨i, hlt, h⟩)
          · exact .inr h

theorem isDirty_markEntry {entry va : ℕ} {tracker : CacheLineTracker} :
    isDirty sh (markEntry sh entry tracker) va ↔ isDirty sh tracker va ∨ Marks sh entry va := by
  unfold markEntry Marks
  split
  · exact isDirty_foldl_markDirty
  · exact isDirty_markDirty

/-- A log of short entries marks what its entries mark. -/
theorem isDirty_processLogLazy {log : List ℕ} {va : ℕ} {tracker : CacheLineTracker}
    (hshort : ∀ entry ∈ log, flushesCache sh entry = false) :
    isDirty sh (processLogLazy sh log tracker) va ↔
      isDirty sh tracker va ∨ ∃ entry ∈ log, Marks sh entry va := by
  induction log generalizing tracker with
  | nil => simp [processLogLazy]
  | cons entry log ih =>
      have hne := hshort entry (by simp)
      rw [processLogLazy, if_neg (by simp [hne]), ih fun e he => hshort e (by simp [he]),
        isDirty_markEntry]
      simp [or_assoc]

end RACoherence
