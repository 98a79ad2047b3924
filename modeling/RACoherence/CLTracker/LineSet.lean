import Mathlib.Data.Set.Basic
import RACoherence.CLTracker

/-!
# The tracker as a set of lines

Reference: `include/clTracker.hpp`, `mark_dirty`, `clear_dirty`, `is_dirty` and `split_va`.

`split_va` uses 33 bits of a line number: 6 for the line in a leaf, 8 for the leaf and 19 for the table.
Line numbers have `42 - CL_EXPAND_SHIFT` bits, and those of the region that is not hardware coherent
differ in up to `40 - CL_EXPAND_SHIFT` of them. So leaves `2 ^ 27` blocks apart are one, and the tracker
is a set of lines exactly as long as no two such blocks are in use.
-/

namespace RACoherence

namespace CacheLineTracker

/-- The operations that change the tracker. -/
inductive Op
  | mark (va : ℕ)
  | markMask (va mask : ℕ)
  | clear (va : ℕ)
  deriving DecidableEq, Repr

/-- The address that an operation is given. -/
def Op.va : Op → ℕ
  | .mark va | .markMask va _ | .clear va => va

variable (sh : ℕ)

def apply (tracker : CacheLineTracker) : Op → CacheLineTracker
  | .mark va => markLine sh va tracker
  | .markMask va mask => markDirty sh va mask tracker
  | .clear va => clearDirty sh va tracker

/-- The operations in order, on an empty tracker. -/
def run (ops : List Op) : CacheLineTracker := ops.foldl (apply sh) empty

/-- The virtual line of an address. -/
def lineOf (va : ℕ) : ℕ := va >>> virtualClShift sh

/-- The block of 64 lines of an address. -/
def blockOf (va : ℕ) : ℕ := lineOf sh va / 64

/-- What the operation makes of the line of `va`: dirty, clean, or nothing. -/
def Op.touch (va : ℕ) : Op → Option Bool
  | .mark a => if lineOf sh a = lineOf sh va then some true else none
  | .markMask a mask =>
      if blockOf sh a = blockOf sh va ∧ mask.testBit (lineOf sh va % 64) = true then some true else none
  | .clear a => if lineOf sh a = lineOf sh va then some false else none

/-- The last operation that touched the line of `va` was a mark. -/
def lastMarks (ops : List Op) (va : ℕ) : Bool :=
  ops.foldl (fun dirty op => (op.touch sh va).getD dirty) false

/-- Used on addresses of `A` only, the tracker is a set of lines. -/
structure IsLineSet (A : Set ℕ) : Prop where
  isDirty_iff : ∀ ops : List Op, (∀ op ∈ ops, op.va ∈ A) → ∀ va ∈ A,
    (isDirty sh (run sh ops) va = true ↔ lastMarks sh ops va = true)
  frame : ∀ ops : List Op, (∀ op ∈ ops, op.va ∈ A) → ∀ op : Op, op.va ∈ A → ∀ va ∈ A,
    op.touch sh va = none → isDirty sh (run sh (ops ++ [op])) va = isDirty sh (run sh ops) va

/-- No two addresses of `A` are in different blocks that `split_va` takes for one. -/
def Separated (A : Set ℕ) : Prop :=
  ∀ a ∈ A, ∀ b ∈ A, blockOf sh a % 2 ^ 27 = blockOf sh b % 2 ^ 27 → blockOf sh a = blockOf sh b

variable {sh}

theorem splitVa_line (va : ℕ) : (splitVa sh va).line = lineOf sh va % 64 := by
  have hmask : 1 <<< leafBits - 1 = 2 ^ 6 - 1 := rfl
  rw [splitVa, hmask, Nat.and_two_pow_sub_one_eq_mod]
  rfl

theorem splitVa_l2 (va : ℕ) : (splitVa sh va).l2 = blockOf sh va % 2 ^ 8 := by
  have hmask : 1 <<< l2Bits - 1 = 2 ^ 8 - 1 := rfl
  show va >>> (virtualClShift sh + leafBits) &&& (1 <<< l2Bits - 1) = _
  rw [hmask, Nat.and_two_pow_sub_one_eq_mod, Nat.shiftRight_add, Nat.shiftRight_eq_div_pow _ leafBits]
  rfl

theorem splitVa_l1 (va : ℕ) : (splitVa sh va).l1 = blockOf sh va / 2 ^ 8 % 2 ^ 19 := by
  have hmask : 1 <<< l1Bits - 1 = 2 ^ 19 - 1 := rfl
  show va >>> (virtualClShift sh + leafBits + l2Bits) &&& (1 <<< l1Bits - 1) = _
  rw [hmask, Nat.and_two_pow_sub_one_eq_mod, Nat.shiftRight_add, Nat.shiftRight_add,
    Nat.shiftRight_eq_div_pow _ leafBits, Nat.shiftRight_eq_div_pow _ l2Bits]
  rfl

/-- The leaf is found from 27 bits of the block number. -/
theorem sameLeaf_iff_mod {a b : ℕ} : SameLeaf sh a b ↔ blockOf sh a % 2 ^ 27 = blockOf sh b % 2 ^ 27 := by
  rw [SameLeaf, splitVa_l1, splitVa_l1, splitVa_l2, splitVa_l2]
  omega

theorem lineOf_eq_iff {a b : ℕ} :
    lineOf sh a = lineOf sh b ↔ blockOf sh a = blockOf sh b ∧ lineOf sh a % 64 = lineOf sh b % 64 := by
  simp only [blockOf]
  omega

private theorem testBit_one_shiftLeft {k i : ℕ} : (1 <<< k).testBit i = true ↔ k = i := by
  rw [Nat.one_shiftLeft, Nat.testBit_two_pow]
  exact decide_eq_true_iff

/-- What one operation does, on addresses in separate blocks. -/
theorem isDirty_apply {tracker : CacheLineTracker} {op : Op} {va : ℕ}
    (hsep : blockOf sh op.va % 2 ^ 27 = blockOf sh va % 2 ^ 27 → blockOf sh op.va = blockOf sh va) :
    isDirty sh (apply sh tracker op) va = (op.touch sh va).getD (isDirty sh tracker va) := by
  have hleaf : SameLeaf sh op.va va ↔ blockOf sh op.va = blockOf sh va := by
    rw [sameLeaf_iff_mod]
    exact ⟨hsep, fun h => by rw [h]⟩
  rw [Bool.eq_iff_iff]
  cases op with
  | mark a =>
      simp only [Op.va] at hleaf
      rw [apply, markLine, isDirty_markDirty, testBit_one_shiftLeft, splitVa_line, splitVa_line, hleaf,
        ← lineOf_eq_iff]
      by_cases h : lineOf sh a = lineOf sh va <;> simp [Op.touch, h]
  | markMask a mask =>
      simp only [Op.va] at hleaf
      rw [apply, isDirty_markDirty, splitVa_line, hleaf]
      by_cases h : blockOf sh a = blockOf sh va ∧ mask.testBit (lineOf sh va % 64) = true <;>
        simp [Op.touch, h]
  | clear a =>
      simp only [Op.va] at hleaf
      rw [apply, clearDirty, isDirty_clearMask, testBit_one_shiftLeft, splitVa_line, splitVa_line, hleaf,
        ← lineOf_eq_iff]
      by_cases h : lineOf sh a = lineOf sh va <;> simp [Op.touch, h]

/-- Along a whole sequence: by induction on the operations, from any tracker. -/
theorem isDirty_foldl {ops : List Op} {va : ℕ} (tracker : CacheLineTracker)
    (hsep : ∀ op ∈ ops, blockOf sh op.va % 2 ^ 27 = blockOf sh va % 2 ^ 27 →
      blockOf sh op.va = blockOf sh va) :
    isDirty sh (ops.foldl (apply sh) tracker) va =
      ops.foldl (fun dirty op => (op.touch sh va).getD dirty) (isDirty sh tracker va) := by
  induction ops generalizing tracker with
  | nil => rfl
  | cons op ops ih =>
      rw [List.foldl_cons, List.foldl_cons, ih _ fun o ho => hsep o (by simp [ho]),
        isDirty_apply (hsep op (by simp))]

theorem isLineSet_of_separated {A : Set ℕ} (h : Separated sh A) : IsLineSet sh A where
  isDirty_iff ops hops va hva := by
    rw [run, isDirty_foldl empty fun op ho => h op.va (hops op ho) va hva]
    rfl
  frame ops hops op hop va hva htouch := by
    rw [run, List.foldl_append, List.foldl_cons, List.foldl_nil, isDirty_apply (h op.va hop va hva), htouch]
    rfl

/-- One mark is enough to tell two blocks in one leaf from a set of lines. -/
theorem separated_of_isLineSet {A : Set ℕ} (h : IsLineSet sh A) : Separated sh A := by
  intro a ha b hb hmod
  by_contra hne
  have hdirty : isDirty sh (run sh [.markMask a (1 <<< (lineOf sh b % 64))]) b = true := by
    show isDirty sh (markDirty sh a _ empty) b = true
    rw [isDirty_markDirty, sameLeaf_iff_mod, splitVa_line, testBit_one_shiftLeft]
    exact .inr ⟨hmod, rfl⟩
  rw [h.isDirty_iff _ (by simpa [Op.va] using ha) b hb] at hdirty
  simp [lastMarks, Op.touch, hne] at hdirty

/-- Whatever `CL_EXPAND_SHIFT`: on a set of addresses the tracker answers as a set of virtual lines does,
for every sequence of operations, exactly when no two of the addresses lie in different blocks of 64
lines whose numbers agree modulo `2 ^ 27`. -/
theorem tracker_isLineSet_iff (sh : ℕ) (A : Set ℕ) : IsLineSet sh A ↔ Separated sh A :=
  ⟨separated_of_isLineSet, isLineSet_of_separated⟩

/-- Two addresses of the region that is not hardware coherent, 512 GiB apart: clearing one loses the mark
of the other. -/
theorem tracker_not_isLineSet :
    ¬ ∀ sh ≤ 5, IsLineSet sh {va | cxlNhcStart ≤ va ∧ va < 2 ^ virtualAddressBits} := by
  intro h
  have hops := (h 0 (by omega)).isDirty_iff
    [.mark (cxlNhcStart + 2 ^ 39), .mark cxlNhcStart, .clear cxlNhcStart] (by decide)
    (cxlNhcStart + 2 ^ 39) (by decide)
  revert hops
  decide +kernel

end CacheLineTracker

end RACoherence
