import RACoherence.ClGroup
import Mathlib.Logic.Function.Basic

/-!
# The local dirty table

Reference: `include/localCLTable.hpp` (without `LOCAL_CL_TABLE_BUFFER`).

A thread collects the lines it has written in a small hash table of `cl_group_t` words. Point
inserts probe a few slots from the hash of the group; range inserts split the range into a head
mask, a tail mask and either full-group masks or length entries. Each insert reports whether the
table was full. `length_entry_count` is only read with the buffer and is left out.
-/

namespace RACoherence

open ClGroup Function

/-- `table[LOCAL_CL_TABLE_SIZE]`: the word in each slot, zero when the slot is empty. Only slots
below `localClTableSize` are used. -/
abbrev LocalCLTable := ℕ → ℕ

namespace LocalCLTable

/-- `GROUP_LEN_MIN` -/
def groupLenMin : ℕ := 4

/-- `clear_table` -/
def empty : LocalCLTable := fun _ => 0

/-- The nonzero words in slot order, as `write_to_log` walks over them. -/
def entries (t : LocalCLTable) : List ℕ :=
  ((List.range localClTableSize).map t).filter (· ≠ 0)

variable (sh : ℕ)

/-- The word that `insert_mask` compares at a slot: the slot's own, or the bare group index. -/
def probeValue (t : LocalCLTable) (tableindex groupIndex : ℕ) : ℕ :=
  if t tableindex ≠ 0 then t tableindex else groupIndex

/-- The probe loop of `insert_mask` from probe `i`, with the remaining iterations as recursion. -/
def insertMaskFrom (t : LocalCLTable) (groupIndex mask i : ℕ) : ℕ → Bool × LocalCLTable
  | 0 => (true, t)
  | n + 1 =>
      let tableindex := (groupIndex + i) &&& (localClTableSize - 1)
      let value := probeValue t tableindex groupIndex
      if value &&& groupIndexMask sh = groupIndex then
        (false, update t tableindex (value ||| shl64 mask (groupIndexShift sh)))
      else insertMaskFrom t groupIndex mask (i + 1) n

/-- `insert_mask`: `true` when the table is full. -/
def insertMask (t : LocalCLTable) (groupIndex mask : ℕ) : Bool × LocalCLTable :=
  insertMaskFrom sh t groupIndex mask 0 localClTableSearchIters

/-- `insert`: the virtual line `clAddr`. -/
def insert (t : LocalCLTable) (clAddr : ℕ) : Bool × LocalCLTable :=
  insertMask sh t (clAddr >>> groupSizeShift) (1 <<< (clAddr &&& groupSizeMask))

/-- The locals of the scan in `insert_length`. -/
structure Scan where
  table : LocalCLTable
  entry : ℕ
  insertPos : Option ℕ

/-- `table[i]` is emptied or found empty: it becomes the insert position if none is known yet. -/
def Scan.claim (sc : Scan) (i : ℕ) : Option ℕ := sc.insertPos.or (some i)

/-- The loop body of `insert_length` at slot `i`. -/
def Scan.visit (groupIndex length : ℕ) (sc : Scan) (i : ℕ) : Scan :=
  let val := sc.table i
  let valIndex := getIndex sh val
  if val = 0 then { sc with insertPos := sc.claim i }
  else if isLengthBased val then
    let newEntry := tryCoalesce sh valIndex groupIndex (getLength sh val) length
    if newEntry ≠ 0 then
      { table := update sc.table i 0, entry := newEntry, insertPos := sc.claim i }
    else sc
  else if valIndex ≥ groupIndex ∧ valIndex < groupIndex + length then
    { sc with table := update sc.table i 0, insertPos := sc.claim i }
  else sc

/-- The whole scan of `insert_length`, over the first `n` slots. -/
@[irreducible] def scanSlots (t : LocalCLTable) (groupIndex length n : ℕ) : Scan :=
  (List.range n).foldl (Scan.visit sh groupIndex length)
    ⟨t, groupIndex ||| shl64 length (groupIndexShift sh) ||| typeMask, none⟩

/-- `insert_length`: `true` when the table is full. -/
def insertLength (t : LocalCLTable) (groupIndex length : ℕ) : Bool × LocalCLTable :=
  let sc := scanSlots sh t groupIndex length localClTableSize
  match sc.insertPos with
  | some pos => (false, update sc.table pos sc.entry)
  | none => (true, sc.table)

/-- What `range_insert` leaves behind: its result, the table, and its two reference arguments. -/
structure RangeResult where
  full : Bool
  table : LocalCLTable
  begin : ℕ
  end_ : ℕ

/-- The loop of full-group masks in `range_insert`, over `n` groups from `beginIndex`. -/
def insertGroups (t : LocalCLTable) (end_ beginIndex : ℕ) : ℕ → RangeResult
  | 0 => ⟨false, t, end_, end_⟩
  | n + 1 =>
      match insertMask sh t beginIndex fullMask with
      | (true, t') => ⟨true, t', beginIndex <<< groupSizeShift, end_⟩
      | (false, t') => insertGroups t' end_ (beginIndex + 1) n

/-- A run of `range_insert`: the lengths that it passes to `insert_length`, in order, and what it leaves
behind, `none` when the fuel does not suffice for it to end. -/
structure RangeRun where
  lengths : List ℕ
  result : Option RangeResult

/-- A run that ends without a length entry. -/
def RangeRun.done (r : RangeResult) : RangeRun := ⟨[], some r⟩

@[simp] theorem RangeRun.lengths_done (r : RangeResult) : (RangeRun.done r).lengths = [] := rfl

@[simp] theorem RangeRun.result_done (r : RangeResult) : (RangeRun.done r).result = some r := rfl

/-- The loop `while (len)` of length entries in `range_insert`. -/
def insertLengths (end_ : ℕ) : ℕ → LocalCLTable → ℕ → ℕ → RangeRun
  | 0, _, _, _ => ⟨[], none⟩
  | fuel + 1, t, beginIndex, len =>
      if len = 0 then .done ⟨false, t, end_, end_⟩
      else
        let l := len &&& groupLenMax sh
        match insertLength sh t beginIndex l with
        | (true, t') => ⟨[l], some ⟨true, t', beginIndex <<< groupSizeShift, end_⟩⟩
        | (false, t') =>
            let rest := insertLengths end_ fuel t' (beginIndex + l) (len - l)
            ⟨l :: rest.lengths, rest.result⟩

/-- `range_insert` once both ends are on a group boundary. -/
def rangeInsertGroups (fuel : ℕ) (t : LocalCLTable) (begin end_ : ℕ) : RangeRun :=
  let beginIndex := begin >>> groupSizeShift
  let len := (end_ >>> groupSizeShift) - beginIndex
  if len < groupLenMin then .done (insertGroups sh t end_ beginIndex len)
  else insertLengths sh end_ fuel t beginIndex len

/-- `range_insert` after the head mask: the tail mask, then the groups. -/
def rangeInsertTail (fuel : ℕ) (t : LocalCLTable) (begin end_ : ℕ) : RangeRun :=
  let endPos := end_ &&& groupSizeMask
  if endPos ≠ 0 then
    match insertMask sh t (end_ >>> groupSizeShift) (1 <<< endPos) with
    | (true, t') => .done ⟨true, t', begin, end_⟩
    | (false, t') => rangeInsertGroups sh fuel t' begin (end_ - endPos)
  else rangeInsertGroups sh fuel t begin end_

/-- A run of `range_insert` on the line range from `begin` to `end_`, both passed by reference. -/
def rangeInsertRun (fuel : ℕ) (t : LocalCLTable) (begin end_ : ℕ) : RangeRun :=
  let endIndex := end_ >>> groupSizeShift
  let beginPos := begin &&& groupSizeMask
  let endPos := end_ &&& groupSizeMask
  if beginPos ≠ 0 then
    let beginIndex := begin >>> groupSizeShift
    let beginMask := (fullMask <<< beginPos) &&& fullMask
    if beginIndex = endIndex then
      match insertMask sh t beginIndex (beginMask &&& 1 <<< endPos) with
      | (true, t') => .done ⟨true, t', begin, end_⟩
      | (false, t') => .done ⟨false, t', end_, end_⟩
    else
      match insertMask sh t beginIndex beginMask with
      | (true, t') => .done ⟨true, t', begin, end_⟩
      | (false, t') => rangeInsertTail sh fuel t' (begin + (groupSize - beginPos)) end_
  else rangeInsertTail sh fuel t begin end_

/-- `range_insert` -/
def rangeInsert (fuel : ℕ) (t : LocalCLTable) (begin end_ : ℕ) : Option RangeResult :=
  (rangeInsertRun sh fuel t begin end_).result

end LocalCLTable

end RACoherence
