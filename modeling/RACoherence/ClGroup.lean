import RACoherence.Config
import RACoherence.Lib.Bits

/-!
# Cache line groups

Reference: `include/clGroup.hpp`.

A `cl_group_t` word is either a length entry (top bit set, then the number of consecutive groups,
then the index of the first group) or a mask entry (the dirty lines of one group of sixteen, then
the group index). Words are natural numbers below `2 ^ 64`; the two shifts that could leave that
range truncate explicitly.
-/

namespace RACoherence

/-- `x << k` on a 64-bit word. -/
def shl64 (x k : ℕ) : ℕ := (x <<< k) % 2 ^ 64

namespace ClGroup

/-- `TYPE_MASK` -/
def typeMask : ℕ := 1 <<< 63

/-- `GROUP_SIZE_SHIFT` -/
def groupSizeShift : ℕ := 4

/-- `GROUP_SIZE` -/
def groupSize : ℕ := 1 <<< groupSizeShift

/-- `FULL_MASK` -/
def fullMask : ℕ := (1 <<< groupSize) - 1

/-- `GROUP_SIZE_MASK` -/
def groupSizeMask : ℕ := groupSize - 1

variable (sh : ℕ)

/-- `GROUP_SHIFT` -/
def groupShift : ℕ := virtualClShift sh + groupSizeShift

/-- `GROUP_INDEX_SHIFT` -/
def groupIndexShift : ℕ := virtualAddressBits - groupShift sh

/-- `GROUP_INDEX_MASK` -/
def groupIndexMask : ℕ := (1 <<< groupIndexShift sh) - 1

/-- `GROUP_LEN_MAX` -/
def groupLenMax : ℕ := (1 <<< (63 - groupIndexShift sh)) - 1

/-- `is_length_based` -/
def isLengthBased (cg : ℕ) : Bool := cg &&& typeMask != 0

/-- `get_length` -/
def getLength (cg : ℕ) : ℕ := (cg &&& (2 ^ 64 - 1 - typeMask)) >>> groupIndexShift sh

/-- `get_index` -/
def getIndex (cg : ℕ) : ℕ := cg &&& groupIndexMask sh

/-- `get_ptr` -/
def getPtr (cg : ℕ) : ℕ := (cg &&& groupIndexMask sh) <<< groupShift sh

/-- `get_mask16` -/
def getMask16 (cg : ℕ) : ℕ := cg >>> groupIndexShift sh

/-- `get_mask16_to_64_shift` -/
def getMask16To64Shift (cg : ℕ) : ℕ := groupSizeShift * (cg &&& 2)

/-- `try_coalesce`: the coalesced entry, or zero when the ranges are taken to be disjoint. -/
def tryCoalesce (index1 index2 len1 len2 : ℕ) : ℕ :=
  let end1 := index1 + len1
  let end2 := index2 + len2
  if end1 > index2 ∨ end2 > index1 then
    let newIndex := if index1 > index2 then index1 else index2
    let newLen := (if end1 > end2 then end1 else end2) - newIndex
    newIndex ||| shl64 newLen (groupIndexShift sh) ||| typeMask
  else 0

/-- The addresses a `LengthCLRange` iterates over: one per group. -/
def lengthRange (cg : ℕ) : List ℕ :=
  (List.range (getLength sh cg)).map fun k => getPtr sh cg + k <<< groupShift sh

/-- The addresses a `MaskCLRange` iterates over: one per set bit, lowest first. -/
def maskRange (ptr mask : ℕ) : List ℕ :=
  (Bits.setBits 64 64 mask).map fun p => ptr + p <<< virtualClShift sh

/-! ## The fields as numbers -/

theorem groupSize_eq : groupSize = 16 := rfl

theorem typeMask_eq : typeMask = 2 ^ 63 := rfl

theorem isLengthBased_eq (cg : ℕ) : isLengthBased cg = cg.testBit 63 := by
  rw [isLengthBased, typeMask_eq, Nat.and_two_pow]
  cases cg.testBit 63 <;> simp

theorem getIndex_eq (cg : ℕ) : getIndex sh cg = cg % 2 ^ groupIndexShift sh := by
  rw [getIndex, groupIndexMask, Nat.one_shiftLeft, Nat.and_two_pow_sub_one_eq_mod]

theorem getPtr_eq (cg : ℕ) : getPtr sh cg = getIndex sh cg * 2 ^ groupShift sh := by
  rw [getPtr, getIndex, Nat.shiftLeft_eq]

theorem getLength_eq (cg : ℕ) : getLength sh cg = cg % 2 ^ 63 / 2 ^ groupIndexShift sh := by
  have hmask : 2 ^ 64 - 1 - typeMask = 2 ^ 63 - 1 := by decide
  rw [getLength, hmask, Nat.and_two_pow_sub_one_eq_mod, Nat.shiftRight_eq_div_pow]

/-! ## What an entry covers -/

/-- Entry `cg` covers virtual line `cl`: a length entry covers every line of its groups, a mask
entry the lines of its group whose bit is set. -/
def Covers (cg cl : ℕ) : Prop :=
  if isLengthBased cg then
    groupSize * getIndex sh cg ≤ cl ∧ cl < groupSize * (getIndex sh cg + getLength sh cg)
  else
    ∃ p, (getMask16 sh cg).testBit p = true ∧ cl = groupSize * getIndex sh cg + p

theorem covers_length {cg cl : ℕ} (h : isLengthBased cg = true) :
    Covers sh cg cl ↔
      groupSize * getIndex sh cg ≤ cl ∧ cl < groupSize * (getIndex sh cg + getLength sh cg) := by
  rw [Covers, if_pos h]

theorem covers_mask {cg cl : ℕ} (h : isLengthBased cg = false) :
    Covers sh cg cl ↔
      ∃ p, (getMask16 sh cg).testBit p = true ∧ cl = groupSize * getIndex sh cg + p := by
  rw [Covers, if_neg (by simp [h])]

/-- Coverage by a mask entry as a bit test. -/
theorem covers_mask_iff_testBit {cg cl : ℕ} (h : isLengthBased cg = false) :
    Covers sh cg cl ↔ groupSize * getIndex sh cg ≤ cl ∧
      (getMask16 sh cg).testBit (cl - groupSize * getIndex sh cg) = true := by
  rw [covers_mask sh h]
  constructor
  · rintro ⟨p, hp, rfl⟩
    exact ⟨by omega, by rwa [Nat.add_sub_cancel_left]⟩
  · rintro ⟨hle, hbit⟩
    exact ⟨_, hbit, by omega⟩

instance (cg cl : ℕ) : Decidable (Covers sh cg cl) :=
  match h : isLengthBased cg with
  | true => decidable_of_iff _ (covers_length sh h).symm
  | false => decidable_of_iff _ (covers_mask_iff_testBit sh h).symm

/-- The empty slot covers nothing. -/
theorem not_covers_zero (cl : ℕ) : ¬ Covers sh 0 cl := by
  rw [covers_mask sh (by decide)]
  simp [getMask16]

end ClGroup

end RACoherence
