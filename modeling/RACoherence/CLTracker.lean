import Mathlib.Logic.Function.Basic
import RACoherence.ClGroup

/-!
# The dirty line tracker

Reference: `include/clTracker.hpp`.

With `EAGER_INVALIDATE=0` a node only remembers which lines a log invalidates, in a table of three
levels: `split_va` takes the position in a leaf, the leaf and the second-level table from the low
bits of the line number. Tables are created on first use, so both upper levels are partial.
-/

namespace RACoherence

open Function

/-- `LEAF_BITS` -/
def leafBits : ℕ := 6

/-- `L1_BITS` -/
def l1Bits : ℕ := 19

/-- `L2_BITS` -/
def l2Bits : ℕ := 8

/-- `CacheLineTableL2`: the dirty mask of every leaf that exists. -/
abbrev CacheLineTableL2 : Type := ℕ → Option ℕ

/-- `CacheLineTracker` -/
abbrev CacheLineTracker : Type := ℕ → Option CacheLineTableL2

/-- Where `split_va` finds an address: the second-level table, the leaf in it, the line in that. -/
structure VaParts where
  l1 : ℕ
  l2 : ℕ
  line : ℕ
  deriving DecidableEq, Repr

/-- `split_va` -/
def splitVa (sh va : ℕ) : VaParts where
  line := (va >>> virtualClShift sh) &&& (1 <<< leafBits - 1)
  l2 := (va >>> (virtualClShift sh + leafBits)) &&& (1 <<< l2Bits - 1)
  l1 := (va >>> (virtualClShift sh + leafBits + l2Bits)) &&& (1 <<< l1Bits - 1)

namespace CacheLineTracker

variable (sh : ℕ)

/-- The tracker of a node that has not processed a log. -/
def empty : CacheLineTracker := fun _ => none

/-- `mark_dirty(va, mask)`: `get_or_create_leaf`, then OR the mask into the leaf. -/
def markDirty (va mask : ℕ) (tracker : CacheLineTracker) : CacheLineTracker :=
  let parts := splitVa sh va
  let l2 : CacheLineTableL2 := (tracker parts.l1).getD fun _ => none
  let leaf := (l2 parts.l2).getD 0
  update tracker parts.l1 (some (update l2 parts.l2 (some (leaf ||| mask))))

/-- `mark_dirty(va)`: one line. -/
def markLine (va : ℕ) (tracker : CacheLineTracker) : CacheLineTracker :=
  markDirty sh va (1 <<< (splitVa sh va).line) tracker

/-- The mask of a leaf without the bits of `mask`: `fetch_and(~mask)`. -/
def clearBits (leaf mask : ℕ) : ℕ := leaf &&& (2 ^ 64 - 1 - mask % 2 ^ 64)

/-- `clear_dirty_with_mask` on the leaf of `va`, if there is one. -/
def clearMask (va mask : ℕ) (tracker : CacheLineTracker) : CacheLineTracker :=
  let parts := splitVa sh va
  match tracker parts.l1 with
  | none => tracker
  | some l2 =>
      match l2 parts.l2 with
      | none => tracker
      | some leaf => update tracker parts.l1 (some (update l2 parts.l2 (some (clearBits leaf mask))))

/-- `clear_dirty` -/
def clearDirty (va : ℕ) (tracker : CacheLineTracker) : CacheLineTracker :=
  clearMask sh va (1 <<< (splitVa sh va).line) tracker

/-- `is_dirty` -/
def isDirty (tracker : CacheLineTracker) (va : ℕ) : Bool :=
  let parts := splitVa sh va
  match tracker parts.l1 with
  | none => false
  | some l2 =>
      match l2 parts.l2 with
      | none => false
      | some leaf => leaf &&& (1 <<< parts.line) != 0

/-- The two addresses have the same leaf. -/
def SameLeaf (va va' : ℕ) : Prop :=
  (splitVa sh va).l1 = (splitVa sh va').l1 ∧ (splitVa sh va).l2 = (splitVa sh va').l2

variable {sh}

private theorem and_one_shiftLeft_ne_zero (m k : ℕ) : (m &&& (1 <<< k) != 0) = m.testBit k := by
  rw [Nat.one_shiftLeft, Nat.and_two_pow]
  cases m.testBit k <;> simp

/-- Marking a leaf adds the lines of the mask in that leaf and no other line. -/
theorem isDirty_markDirty {va va' mask : ℕ} {tracker : CacheLineTracker} :
    isDirty sh (markDirty sh va mask tracker) va' = true ↔
      isDirty sh tracker va' = true ∨
        (SameLeaf sh va va' ∧ mask.testBit (splitVa sh va').line = true) := by
  simp only [isDirty, markDirty, SameLeaf, and_one_shiftLeft_ne_zero]
  by_cases h₁ : (splitVa sh va).l1 = (splitVa sh va').l1
  · rw [← h₁, update_self]
    by_cases h₂ : (splitVa sh va).l2 = (splitVa sh va').l2
    · -- the marked leaf, which may have to be created together with its table
      rw [← h₂]
      simp only [update_self, Nat.testBit_or, Bool.or_eq_true, true_and]
      cases tracker (splitVa sh va).l1 with
      | none => simp
      | some l2 =>
          cases h : l2 (splitVa sh va).l2 with
          | none => simp [h]
          | some leaf => simp [h]
    · have hne := Ne.symm h₂
      simp only [update_of_ne hne, h₂, and_false, false_and, or_false]
      cases tracker (splitVa sh va).l1 <;> simp
  · have hne := Ne.symm h₁
    simp only [update_of_ne hne, h₁, false_and, or_false]

theorem splitVa_line_lt (sh va : ℕ) : (splitVa sh va).line < 64 := by
  have hmask : 1 <<< leafBits - 1 = 2 ^ 6 - 1 := rfl
  rw [splitVa, hmask, Nat.and_two_pow_sub_one_eq_mod]
  exact Nat.mod_lt _ (by omega)

theorem testBit_clearBits {leaf mask i : ℕ} (hi : i < 64) :
    (clearBits leaf mask).testBit i = (leaf.testBit i && !mask.testBit i) := by
  have hmod : mask % 2 ^ 64 < 2 ^ 64 := Nat.mod_lt _ (by omega)
  have hsub : 2 ^ 64 - 1 - mask % 2 ^ 64 = 2 ^ 64 - (mask % 2 ^ 64 + 1) := by omega
  rw [clearBits, Nat.testBit_and, hsub, Nat.testBit_two_pow_sub_succ hmod, Nat.testBit_mod_two_pow]
  simp [hi]

/-- Clearing bits of a leaf removes the lines of the mask in that leaf and no other line. -/
theorem isDirty_clearMask {va va' mask : ℕ} {tracker : CacheLineTracker} :
    isDirty sh (clearMask sh va mask tracker) va' = true ↔
      isDirty sh tracker va' = true ∧
        ¬ (SameLeaf sh va va' ∧ mask.testBit (splitVa sh va').line = true) := by
  have hline := splitVa_line_lt sh va'
  simp only [isDirty, clearMask, SameLeaf, and_one_shiftLeft_ne_zero]
  by_cases h₁ : (splitVa sh va).l1 = (splitVa sh va').l1
  · rw [← h₁]
    by_cases h₂ : (splitVa sh va).l2 = (splitVa sh va').l2
    · rw [← h₂]
      cases h : tracker (splitVa sh va).l1 with
      | none => simp [h]
      | some l2 =>
          cases hleaf : l2 (splitVa sh va).l2 with
          | none => simp [h, hleaf]
          | some leaf => simp [hleaf, testBit_clearBits hline]
    · have hne := Ne.symm h₂
      cases h : tracker (splitVa sh va).l1 with
      | none => simp [h]
      | some l2 =>
          cases hleaf : l2 (splitVa sh va).l2 with
          | none => simp [h, hleaf, h₂]
          | some leaf => simp [hleaf, hne, h₂]
  · have hne := Ne.symm h₁
    cases h : tracker (splitVa sh va).l1 with
    | none => simp [h₁]
    | some l2 =>
        cases hleaf : l2 (splitVa sh va).l2 with
        | none => simp [hleaf, h₁]
        | some leaf => simp [hleaf, hne, h₁]

end CacheLineTracker

end RACoherence
