import RACoherence.Config

/-!
# The cache lines of a range

Which hardware lines a range of bytes touches. A range without bytes touches no line, wherever it is.
-/

namespace RACoherence

/-- The line contains a byte of those from `begin` up to `end_`. -/
def Touches (begin end_ line : ℕ) : Prop := ∃ a, begin ≤ a ∧ a < end_ ∧ a / cacheLineSize = line

/-- The lines from `line` on that begin below `end_`, in order. -/
def linesBelow (line end_ : ℕ) : List ℕ :=
  List.range' line ((end_ + (cacheLineSize - 1)) / cacheLineSize - line)

/-- The lines of the bytes from `begin` up to `end_`, in order. -/
def rangeLines (begin end_ : ℕ) : List ℕ :=
  if begin < end_ then linesBelow (begin / cacheLineSize) end_ else []

variable {begin end_ line : ℕ}

theorem Touches.lt (h : Touches begin end_ line) : begin < end_ := by
  obtain ⟨a, hle, hlt, -⟩ := h
  omega

theorem touches_iff (hlt : begin < end_) :
    Touches begin end_ line ↔ begin / 64 ≤ line ∧ 64 * line < end_ := by
  constructor
  · rintro ⟨a, hle, ha, rfl⟩
    rw [cacheLineSize]
    omega
  · rintro ⟨hle, ha⟩
    refine ⟨max begin (64 * line), by omega, by omega, ?_⟩
    rw [cacheLineSize]
    omega

theorem linesBelow_of_lt (h : 64 * line < end_) :
    linesBelow line end_ = line :: linesBelow (line + 1) end_ := by
  have hcount : (end_ + 63) / 64 - line = (end_ + 63) / 64 - (line + 1) + 1 := by omega
  simp only [linesBelow, cacheLineSize, Nat.reduceSub]
  rw [hcount, List.range'_succ]

theorem linesBelow_of_le (h : end_ ≤ 64 * line) : linesBelow line end_ = [] := by
  have hcount : (end_ + 63) / 64 - line = 0 := by omega
  simp only [linesBelow, cacheLineSize, Nat.reduceSub]
  rw [hcount, List.range'_zero]

theorem mem_linesBelow {first : ℕ} : line ∈ linesBelow first end_ ↔ first ≤ line ∧ 64 * line < end_ := by
  rw [linesBelow, cacheLineSize, List.mem_range'_1]
  omega

theorem rangeLines_of_lt (hlt : begin < end_) : rangeLines begin end_ = linesBelow (begin / 64) end_ :=
  if_pos hlt

theorem mem_rangeLines : line ∈ rangeLines begin end_ ↔ Touches begin end_ line := by
  by_cases hlt : begin < end_
  · rw [rangeLines_of_lt hlt, mem_linesBelow, touches_iff hlt]
  · rw [rangeLines, if_neg hlt]
    exact iff_of_false List.not_mem_nil fun h => hlt h.lt

end RACoherence
