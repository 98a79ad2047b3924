import Mathlib.Data.Set.Basic
import RACoherence.ThreadOps

/-!
# What producer and consumer decode from an entry

Reference: `include/clGroup.hpp`, `include/threadOps.hpp` (`write_to_log`) and
`include/cacheInfo.hpp` (`process_log` with `EAGER_INVALIDATE=1`).

The producer walks a length entry group by group and line by line, the consumer in one loop with a
32-bit counter over all its lines. Both arrive at the hardware lines of the virtual lines that the entry
covers, whatever `CL_EXPAND_SHIFT` is.
-/

namespace RACoherence

open ClGroup LocalCLTable ThreadOps

/-- The hardware lines that a flush of each of the addresses touches. -/
def hwLines (addrs : List ℕ) : Set ℕ := {l | ∃ a ∈ addrs, a >>> cacheLineShift = l}

/-- The values of `i` in `for (unsigned i = 0; i < bound; i++)` from `i` on, with a 32-bit counter and a
64-bit bound; `none` when the fuel does not suffice for the loop to end. -/
def counterLoop (bound : ℕ) : ℕ → ℕ → Option (List ℕ)
  | 0, _ => none
  | fuel + 1, i =>
      if i < bound then (counterLoop bound fuel ((i + 1) % 2 ^ 32)).map (i :: ·) else some []

variable (sh : ℕ)

/-- What `process_log` invalidates for one entry; `length` is an `unsigned`. -/
def invalidateEntry (fuel entry : ℕ) : Option (List ℕ) :=
  if isLengthBased entry then
    (counterLoop (getLength sh entry % 2 ^ 32 * groupSize * clExpandFactor sh) fuel 0).map
      (List.map fun i => getPtr sh entry + i * cacheLineSize)
  else some (maskAddrs sh entry)

/-- The addresses that `process_log` passes to `do_invalidate`, up to the entry that makes it flush the
whole cache instead. -/
def processLogEager (fuel : ℕ) : List ℕ → Option (List ℕ)
  | [] => some []
  | entry :: log =>
      if flushesCache sh entry then some []
      else
        (invalidateEntry sh fuel entry).bind fun addrs =>
          (processLogEager fuel log).map (addrs ++ ·)

/-- The addresses that `write_to_log` writes back for a table. -/
def tableWritebacks (t : LocalCLTable) : List ℕ := t.entries.flatMap (writebackAddrs sh)

/-- Insert the virtual lines of the addresses one by one; `none` when the table is full for one. -/
def insertAll : List ℕ → LocalCLTable → Option LocalCLTable
  | [], t => some t
  | a :: addrs, t =>
      match insert sh t (a >>> virtualClShift sh) with
      | (false, t') => insertAll addrs t'
      | (true, _) => none

variable {sh}

theorem mem_hwLines {addrs : List ℕ} {l : ℕ} : l ∈ hwLines addrs ↔ ∃ a ∈ addrs, a / 64 = l := by
  simp [hwLines, cacheLineShift, Nat.shiftRight_eq_div_pow]

theorem hwLines_append (as bs : List ℕ) : hwLines (as ++ bs) = hwLines as ∪ hwLines bs := by
  ext l
  simp only [mem_hwLines, Set.mem_union, List.mem_append, or_and_right, exists_or]

/-- A counter below a bound that fits 32 bits does not wrap. -/
theorem counterLoop_eq {bound fuel : ℕ} (hbound : bound < 2 ^ 32) (hfuel : bound < fuel) :
    counterLoop bound fuel 0 = some (List.range bound) := by
  -- from `i` the loop takes the rest of the range, and needs one pass more than that
  suffices h : ∀ n i fuel, i + n = bound → n < fuel →
      counterLoop bound fuel i = some (List.range' i n) by
    rw [h bound 0 fuel (by omega) hfuel, List.range_eq_range']
  intro n
  induction n with
  | zero =>
      intro i fuel hi hf
      obtain ⟨fuel, rfl⟩ : ∃ k, fuel = k + 1 := ⟨fuel - 1, by omega⟩
      rw [counterLoop, if_neg (by omega)]
      rfl
  | succ n ih =>
      intro i fuel hi hf
      obtain ⟨fuel, rfl⟩ : ∃ k, fuel = k + 1 := ⟨fuel - 1, by omega⟩
      rw [counterLoop, if_pos (by omega), Nat.mod_eq_of_lt (by omega),
        ih (i + 1) fuel (by omega) (by omega)]
      rfl

/-! ## Lines of one entry -/

/-- The hardware lines of `k` consecutive blocks of `n` lines from block `g` on. -/
theorem exists_line_iff {k g n l : ℕ} (hn : 0 < n) :
    (∃ i < k * n, (g * (n * 64) + i * 64) / 64 = l) ↔ g ≤ l / n ∧ l / n < g + k := by
  have hdiv : ∀ i, (g * (n * 64) + i * 64) / 64 = g * n + i := fun i => by
    rw [← Nat.mul_assoc, ← Nat.add_mul, Nat.mul_div_cancel _ (by omega)]
  simp only [hdiv]
  rw [Nat.le_div_iff_mul_le hn, Nat.div_lt_iff_lt_mul hn, Nat.add_mul]
  constructor
  · rintro ⟨i, hi, rfl⟩
    omega
  · rintro ⟨hle, hlt⟩
    exact ⟨l - g * n, by omega, by omega⟩

theorem two_pow_virtualClShift (sh : ℕ) : 2 ^ virtualClShift sh = 2 ^ sh * 64 := by
  rw [virtualClShift, cacheLineShift, pow_add, Nat.mul_comm]
  rfl

theorem two_pow_groupShift (sh : ℕ) : 2 ^ groupShift sh = 16 * 2 ^ sh * 64 := by
  rw [groupShift, pow_add, two_pow_virtualClShift, groupSizeShift]
  omega

theorem clExpandFactor_eq (sh : ℕ) : clExpandFactor sh = 2 ^ sh := Nat.one_shiftLeft sh

/-- A mask entry stands for the hardware lines of the virtual lines it covers. -/
theorem mem_hwLines_maskAddrs {entry l : ℕ} (hlen : isLengthBased entry = false)
    (hmask : getMask16 sh entry < 2 ^ 64) :
    l ∈ hwLines (maskAddrs sh entry) ↔ Covers sh entry (l / 2 ^ sh) := by
  have hpos : 0 < 2 ^ sh := Nat.two_pow_pos sh
  rw [mem_hwLines, covers_mask sh hlen]
  simp only [maskAddrs, maskRange, List.mem_flatMap, List.mem_map, List.mem_range, clExpandFactor_eq,
    cacheLineSize]
  have hptr : ∀ p, getPtr sh entry + p <<< virtualClShift sh =
      (groupSize * getIndex sh entry + p) * (2 ^ sh * 64) := fun p => by
    rw [getPtr_eq, two_pow_groupShift, Nat.shiftLeft_eq, two_pow_virtualClShift, groupSize_eq]
    ring
  have hline : ∀ p, (∃ i < 2 ^ sh, ((groupSize * getIndex sh entry + p) * (2 ^ sh * 64) + i * 64) / 64 = l)
      ↔ l / 2 ^ sh = groupSize * getIndex sh entry + p := fun p => by
    have h := exists_line_iff (k := 1) (g := groupSize * getIndex sh entry + p) (l := l) hpos
    rw [Nat.one_mul] at h
    rw [h]
    omega
  constructor
  · rintro ⟨_, ⟨_, ⟨p, hp, rfl⟩, i, hi, rfl⟩, hl⟩
    rw [hptr] at hl
    exact ⟨p, (Bits.mem_setBits hmask p).mp hp, (hline p).mp ⟨i, hi, hl⟩⟩
  · rintro ⟨p, hp, hl⟩
    obtain ⟨i, hi, hl⟩ := (hline p).mpr hl
    refine ⟨_, ⟨_, ⟨p, (Bits.mem_setBits hmask p).mpr hp, rfl⟩, i, hi, rfl⟩, ?_⟩
    rw [hptr]
    exact hl

/-- The virtual lines of a length entry, by groups. -/
theorem covers_length_div {entry l : ℕ} (hlen : isLengthBased entry = true) :
    Covers sh entry (l / 2 ^ sh) ↔ getIndex sh entry ≤ l / (16 * 2 ^ sh) ∧
      l / (16 * 2 ^ sh) < getIndex sh entry + getLength sh entry := by
  rw [covers_length sh hlen, groupSize_eq, Nat.mul_comm 16 (2 ^ sh), ← Nat.div_div_eq_div_mul]
  omega

/-- The producer's walk over a length entry. -/
theorem mem_hwLines_writebackAddrs {entry l : ℕ} (hmask : getMask16 sh entry < 2 ^ 64) :
    l ∈ hwLines (writebackAddrs sh entry) ↔ Covers sh entry (l / 2 ^ sh) := by
  unfold writebackAddrs
  split
  · rename_i hlen
    have hpos : 0 < 16 * 2 ^ sh := Nat.mul_pos (by omega) (Nat.two_pow_pos sh)
    rw [mem_hwLines, covers_length_div hlen]
    simp only [lengthRange, List.mem_flatMap, List.mem_map, List.mem_range, clExpandFactor_eq,
      cacheLineSize, groupSize_eq]
    have hptr : ∀ k, getPtr sh entry + k <<< groupShift sh =
        (getIndex sh entry + k) * (16 * 2 ^ sh * 64) := fun k => by
      rw [getPtr_eq, Nat.shiftLeft_eq, two_pow_groupShift]
      ring
    have hline : ∀ k, (∃ i < 16 * 2 ^ sh, ((getIndex sh entry + k) * (16 * 2 ^ sh * 64) + i * 64) / 64 = l)
        ↔ l / (16 * 2 ^ sh) = getIndex sh entry + k := fun k => by
      have h := exists_line_iff (k := 1) (g := getIndex sh entry + k) (l := l) hpos
      rw [Nat.one_mul] at h
      rw [h]
      omega
    constructor
    · rintro ⟨_, ⟨_, ⟨k, hk, rfl⟩, i, hi, rfl⟩, hl⟩
      rw [hptr] at hl
      have := (hline k).mp ⟨i, hi, hl⟩
      omega
    · rintro ⟨hle, hlt⟩
      obtain ⟨i, hi, hl⟩ := (hline (l / (16 * 2 ^ sh) - getIndex sh entry)).mpr (by omega)
      refine ⟨_, ⟨_, ⟨l / (16 * 2 ^ sh) - getIndex sh entry, by omega, rfl⟩, i, hi, rfl⟩, ?_⟩
      rw [hptr]
      exact hl
  · rename_i hlen
    exact mem_hwLines_maskAddrs (by simpa using hlen) hmask

/-- The consumer's flat walk over a length entry. -/
theorem mem_hwLines_eagerAddrs {entry l : ℕ} (hmask : getMask16 sh entry < 2 ^ 64) :
    l ∈ hwLines (eagerAddrs sh entry) ↔ Covers sh entry (l / 2 ^ sh) := by
  unfold eagerAddrs
  split
  · rename_i hlen
    have hpos : 0 < 16 * 2 ^ sh := Nat.mul_pos (by omega) (Nat.two_pow_pos sh)
    rw [mem_hwLines, covers_length_div hlen, ← exists_line_iff hpos]
    simp only [List.mem_map, List.mem_range, clExpandFactor_eq, cacheLineSize, groupSize_eq, getPtr_eq,
      two_pow_groupShift, Nat.mul_assoc]
    constructor
    · rintro ⟨_, ⟨i, hi, rfl⟩, hl⟩
      exact ⟨i, hi, hl⟩
    · rintro ⟨i, hi, hl⟩
      exact ⟨_, ⟨i, hi, rfl⟩, hl⟩
  · rename_i hlen
    exact mem_hwLines_maskAddrs (by simpa using hlen) hmask

/-! ## The counter fits -/

theorem getMask16_lt {entry : ℕ} (h : entry < 2 ^ 64) : getMask16 sh entry < 2 ^ 64 := by
  rw [getMask16, Nat.shiftRight_eq_div_pow]
  exact (Nat.div_le_self _ _).trans_lt h

/-- Below the threshold, neither `length` nor the counter of `process_log` leaves 32 bits. -/
theorem invalidateEntry_eq {entry fuel : ℕ} (hsh : sh ≤ 5) (hfuel : 2 ^ 28 ≤ fuel)
    (hshort : flushesCache sh entry = false) :
    invalidateEntry sh fuel entry = some (eagerAddrs sh entry) := by
  unfold invalidateEntry eagerAddrs
  split
  · rename_i hlen
    have hlt : getLength sh entry < 2 ^ 19 := by
      simp only [flushesCache, hlen, Bool.true_and] at hshort
      exact Nat.lt_of_not_le (of_decide_eq_false hshort)
    have hexpand : clExpandFactor sh ≤ 2 ^ 5 := by
      rw [clExpandFactor_eq]
      exact Nat.pow_le_pow_right (by omega) hsh
    have hbound : getLength sh entry * groupSize * clExpandFactor sh < 2 ^ 28 := by
      rw [groupSize_eq]
      calc getLength sh entry * 16 * clExpandFactor sh
          ≤ getLength sh entry * 16 * 2 ^ 5 := Nat.mul_le_mul_left _ hexpand
        _ < 2 ^ 28 := by omega
    rw [Nat.mod_eq_of_lt (by omega), counterLoop_eq (by omega) (by omega)]
    rfl
  · rfl

/-- A log of short entries is invalidated entry by entry. -/
theorem processLogEager_eq {fuel : ℕ} {log : List ℕ} (hsh : sh ≤ 5) (hfuel : 2 ^ 28 ≤ fuel)
    (hshort : ∀ entry ∈ log, flushesCache sh entry = false) :
    processLogEager sh fuel log = some (log.flatMap (eagerAddrs sh)) := by
  induction log with
  | nil => rfl
  | cons entry log ih =>
      have hentry := hshort entry (by simp)
      have hlog := ih fun e he => hshort e (by simp [he])
      rw [processLogEager, if_neg (by simp [hentry]), invalidateEntry_eq hsh hfuel hentry, hlog]
      rfl

/-- The lines of a log are those its entries cover, by either walk. -/
theorem hwLines_flatMap {addrs : ℕ → List ℕ} {log : List ℕ}
    (h : ∀ entry ∈ log, ∀ l, l ∈ hwLines (addrs entry) ↔ Covers sh entry (l / 2 ^ sh)) :
    hwLines (log.flatMap addrs) = {l | ∃ entry ∈ log, Covers sh entry (l / 2 ^ sh)} := by
  induction log with
  | nil =>
      ext l
      simp [mem_hwLines]
  | cons entry log ih =>
      rw [List.flatMap_cons, hwLines_append, ih fun e he => h e (by simp [he])]
      ext l
      simp [h entry (by simp) l]

/-! ## Tables -/

/-- The lines that `insert` is given have a group index that fits its field. -/
theorem group_lt {a : ℕ} (hsh : sh ≤ 5) (ha : a < 2 ^ virtualAddressBits) :
    a >>> virtualClShift sh >>> groupSizeShift < 2 ^ groupIndexShift sh := by
  rw [← Nat.shiftRight_add, Nat.shiftRight_eq_div_pow]
  refine Nat.div_lt_of_lt_mul ?_
  rw [← pow_add]
  have hsum : virtualClShift sh + groupSizeShift + groupIndexShift sh = virtualAddressBits := by
    simp only [groupIndexShift, groupShift, virtualClShift, cacheLineShift, groupSizeShift,
      virtualAddressBits]
    omega
  rwa [hsum]

/-- One point insert into a table of mask entries. -/
theorem covered_insert_iff {t t' : LocalCLTable} {cl : ℕ} (ht : MaskOnly sh t)
    (hcl : cl >>> groupSizeShift < 2 ^ groupIndexShift sh) (h : insert sh t cl = (false, t')) :
    MaskOnly sh t' ∧ ∀ cl', Covered sh t' cl' ↔ Covered sh t cl' ∨ cl' = cl := by
  have hm := one_shiftLeft_and_lt cl
  refine ⟨ht.insertMask hm hcl h, fun cl' => ?_⟩
  rw [covered_insertMask_iff hm ht hcl h, maskLines_insert]

/-- The table covers what was inserted and what it covered before. -/
theorem covered_insertAll {t t' : LocalCLTable} {addrs : List ℕ} (hsh : sh ≤ 5)
    (haddrs : ∀ a ∈ addrs, a < 2 ^ virtualAddressBits) (ht : MaskOnly sh t)
    (h : insertAll sh addrs t = some t') :
    MaskOnly sh t' ∧
      ∀ cl, Covered sh t' cl ↔ Covered sh t cl ∨ ∃ a ∈ addrs, cl = a >>> virtualClShift sh := by
  induction addrs generalizing t with
  | nil =>
      obtain rfl := Option.some.inj h
      exact ⟨ht, fun cl => by simp⟩
  | cons a addrs ih =>
      rw [insertAll] at h
      split at h
      · rename_i t₁ hins
        obtain ⟨hmask₁, hcov₁⟩ := covered_insert_iff ht (group_lt hsh (haddrs a (by simp))) hins
        obtain ⟨hmask, hcov⟩ := ih (fun b hb => haddrs b (by simp [hb])) hmask₁ h
        refine ⟨hmask, fun cl => ?_⟩
        rw [hcov cl, hcov₁ cl]
        simp [or_assoc]
      · cases h

theorem MaskOnly.mem_entries {t : LocalCLTable} {entry : ℕ} (ht : MaskOnly sh t)
    (h : entry ∈ t.entries) : entry < 2 ^ (groupIndexShift sh + 16) := by
  simp only [entries, List.mem_filter, List.mem_map, List.mem_range] at h
  obtain ⟨⟨k, hk, rfl⟩, -⟩ := h
  exact ht k hk

/-- For every `CL_EXPAND_SHIFT` from 0 to 5: if lines are inserted into an empty table without filling
it, `write_to_log` writes back, and `process_log` of the log that results invalidates, exactly the
hardware lines of the inserted virtual lines; and for a length entry below the threshold the two touch
the same lines. `process_log` ends in both cases. -/
theorem producer_consumer_agree (sh fuel : ℕ) (hsh : sh ≤ 5) (hfuel : 2 ^ 28 ≤ fuel) :
    (∀ (addrs : List ℕ) (t : LocalCLTable), (∀ a ∈ addrs, a < 2 ^ virtualAddressBits) →
      insertAll sh addrs LocalCLTable.empty = some t →
      ∃ inv, processLogEager sh fuel t.entries = some inv ∧
        hwLines (tableWritebacks sh t) = {l | ∃ a ∈ addrs, l >>> sh = a >>> virtualClShift sh} ∧
        hwLines inv = {l | ∃ a ∈ addrs, l >>> sh = a >>> virtualClShift sh}) ∧
    (∀ entry < 2 ^ 64, isLengthBased entry = true → getLength sh entry < wbinvdThreshold →
      ∃ inv, processLogEager sh fuel [entry] = some inv ∧
        hwLines (writebackAddrs sh entry) = hwLines inv) := by
  constructor
  · intro addrs t haddrs hins
    obtain ⟨hmask, hcov⟩ := covered_insertAll hsh haddrs (maskOnly_empty sh) hins
    have hlt : ∀ entry ∈ t.entries, entry < 2 ^ (groupIndexShift sh + 16) :=
      fun entry => MaskOnly.mem_entries hmask
    have hword : ∀ entry ∈ t.entries, getMask16 sh entry < 2 ^ 64 := fun entry he =>
      getMask16_lt ((hlt entry he).trans_le
        (Nat.pow_le_pow_right (by omega) (by have := groupIndexShift_le sh; omega)))
    have hshort : ∀ entry ∈ t.entries, flushesCache sh entry = false := fun entry he => by
      rw [flushesCache, not_isLengthBased_of_lt (hlt entry he)]
      rfl
    -- what the entries cover is what was inserted
    have hset : {l | ∃ entry ∈ t.entries, Covers sh entry (l / 2 ^ sh)} =
        {l | ∃ a ∈ addrs, l >>> sh = a >>> virtualClShift sh} := by
      ext l
      rw [Set.mem_ofPred_eq, ← covered_iff_entries, hcov, Set.mem_ofPred_eq, Nat.shiftRight_eq_div_pow l sh]
      simp [not_covered_empty]
    refine ⟨_, processLogEager_eq hsh hfuel hshort, ?_, ?_⟩
    · rw [tableWritebacks, hwLines_flatMap fun entry he l => mem_hwLines_writebackAddrs (hword entry he),
        hset]
    · rw [hwLines_flatMap fun entry he l => mem_hwLines_eagerAddrs (hword entry he), hset]
  · intro entry hentry hlen hthr
    have hmask : getMask16 sh entry < 2 ^ 64 := getMask16_lt hentry
    have hshort : flushesCache sh entry = false := by simp [flushesCache, hthr]
    refine ⟨_, processLogEager_eq hsh hfuel (by simpa using hshort), ?_⟩
    ext l
    rw [mem_hwLines_writebackAddrs hmask, ← mem_hwLines_eagerAddrs hmask]
    simp

/-- Two lines of one group and one of the next, with 32 hardware lines to a virtual one. -/
theorem producer_consumer_agree_three_lines :
    ∃ t inv, insertAll 5 [cxlNhcStart, cxlNhcStart + 2048, cxlNhcStart + 32768] LocalCLTable.empty =
        some t ∧ processLogEager 5 (2 ^ 28) t.entries = some inv ∧
      hwLines (tableWritebacks 5 t) = hwLines inv := by
  obtain ⟨t, ht⟩ : ∃ t, insertAll 5 [cxlNhcStart, cxlNhcStart + 2048, cxlNhcStart + 32768]
      LocalCLTable.empty = some t := ⟨_, rfl⟩
  obtain ⟨inv, hinv, hwb, hin⟩ :=
    (producer_consumer_agree 5 (2 ^ 28) (by decide) (by decide)).1 _ t (by decide) ht
  exact ⟨t, inv, ht, hinv, hwb.trans hin.symm⟩

end RACoherence
