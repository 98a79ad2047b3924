import RACoherence.CacheInfo
import RACoherence.LocalCLTable.Range

/-!
# Lazy processing against coverage

With `CL_EXPAND_SHIFT=0` a leaf holds the 64 lines of one 4 KiB page, so four groups. The lazy branch
never marks a line beyond position 23 of a leaf, and positions 16 to 23 only for groups whose own
lines lie beyond them. So on a tracker that has none of the log's lines yet, marking is exact if and
only if every entry is `LeafAligned`.
-/

namespace RACoherence

open ClGroup CacheLineTracker LocalCLTable

/-- A mask entry has only its sixteen mask bits above the index; a length entry is below the
`wbinvd` threshold. -/
def WellFormed (entry : ℕ) : Prop :=
  if isLengthBased entry then getLength 0 entry < wbinvdThreshold else getMask16 0 entry < 2 ^ 16

/-- An entry that covers nothing, or the first group of a leaf and nothing else. -/
def LeafAligned (entry : ℕ) : Prop :=
  if isLengthBased entry then
    getLength 0 entry = 0 ∨ (getLength 0 entry = 1 ∧ getIndex 0 entry % 4 = 0)
  else getMask16 0 entry = 0 ∨ getIndex 0 entry % 4 = 0

/-- The lines of the entry lie in the window of `2 ^ 33` lines (512 GiB) with number `w`. -/
def InWindow (w entry : ℕ) : Prop := ∀ cl, Covers 0 entry cl → cl / 2 ^ 33 = w

/-- After `process_log`, the addresses of the window that are dirty are those that were before and
those whose line the log covers. -/
def LazyExact (w : ℕ) (log : List ℕ) (tracker : CacheLineTracker) : Prop :=
  ∀ va, va / 2 ^ 39 = w →
    (isDirty 0 (processLogLazy 0 log tracker) va ↔
      isDirty 0 tracker va ∨ ∃ entry ∈ log, Covers 0 entry (va / 64))

theorem WellFormed.not_flushesCache {entry : ℕ} (h : WellFormed entry) :
    flushesCache 0 entry = false := by
  rw [WellFormed] at h
  rw [flushesCache, Bool.and_eq_false_iff, decide_eq_false_iff_not, Nat.not_le]
  split at h
  · exact .inr h
  · rename_i hlen
    exact .inl (by simpa using hlen)

private theorem splitVa_zero (va : ℕ) :
    splitVa 0 va = ⟨va / 2 ^ 20 % 2 ^ 19, va / 2 ^ 12 % 2 ^ 8, va / 2 ^ 6 % 2 ^ 6⟩ := by
  have hand : ∀ x k : ℕ, x &&& (1 <<< k - 1) = x % 2 ^ k := fun x k => by
    rw [Nat.one_shiftLeft, Nat.and_two_pow_sub_one_eq_mod]
  simp only [splitVa, hand, Nat.shiftRight_eq_div_pow, virtualClShift, cacheLineShift, leafBits,
    l1Bits, l2Bits]

/-- Addresses of one window share a leaf exactly when they share a page. -/
private theorem sameLeaf_iff {va va' : ℕ} (h : va / 2 ^ 39 = va' / 2 ^ 39) :
    SameLeaf 0 va va' ↔ va / 4096 = va' / 4096 := by
  simp only [SameLeaf, splitVa_zero]
  omega

private theorem getPtr_zero (entry : ℕ) : getPtr 0 entry = getIndex 0 entry * 1024 :=
  getPtr_eq 0 entry

/-- The shift that the code derives from the entry: bit 1 of the group index, times four. -/
private theorem getMask16To64Shift_eq (x : ℕ) : getMask16To64Shift x = x / 2 % 2 * 8 := by
  have hand : x &&& 2 = x / 2 % 2 * 2 := by
    have hpow : x &&& 2 = (x.testBit 1).toNat * 2 := Nat.and_two_pow x 1
    rw [hpow, Nat.testBit_eq_decide_div_mod_eq, pow_one]
    rcases Nat.mod_two_eq_zero_or_one (x / 2) with h | h <;> rw [h] <;> rfl
  rw [getMask16To64Shift, hand, groupSizeShift]
  omega

private theorem getIndex_div_two (entry : ℕ) : getIndex 0 entry / 2 % 2 = entry / 2 % 2 := by
  have hshift : groupIndexShift 0 = 38 := rfl
  rw [getIndex_eq, hshift]
  omega

private theorem testBit_shl64 {m k i : ℕ} (hm : m < 2 ^ 16) (hk : k ≤ 8) :
    (shl64 m k).testBit i = true ↔ k ≤ i ∧ m.testBit (i - k) = true := by
  have hlt : m <<< k < 2 ^ 64 := by
    rw [Nat.shiftLeft_eq]
    calc m * 2 ^ k < 2 ^ 16 * 2 ^ k := Nat.mul_lt_mul_of_pos_right hm (Nat.two_pow_pos k)
      _ ≤ 2 ^ 16 * 2 ^ 8 := Nat.mul_le_mul_left _ (Nat.pow_le_pow_right (by omega) hk)
      _ ≤ 2 ^ 64 := by decide
  rw [shl64, Nat.mod_eq_of_lt hlt, Nat.testBit_shiftLeft]
  simp

private theorem lt_of_testBit {m i : ℕ} (hm : m < 2 ^ 16) (h : m.testBit i = true) : i < 16 := by
  by_contra hge
  have hle : 2 ^ 16 ≤ 2 ^ i := Nat.pow_le_pow_right (by omega) (by omega)
  rw [Nat.testBit_lt_two_pow (hm.trans_le hle)] at h
  exact absurd h (by simp)

/-! ## What one entry marks -/

/-- A length entry marks the first group of every page it takes an address from. -/
private theorem marks_length {entry va : ℕ} (hlen : isLengthBased entry = true) :
    Marks 0 entry va ↔ va / 64 % 64 < 16 ∧
      ∃ i < getLength 0 entry, SameLeaf 0 (getIndex 0 entry * 1024 + i) va := by
  have hshift : getMask16To64Shift (getIndex 0 entry * 1024) = 0 := by
    rw [getMask16To64Shift_eq]
    omega
  have hmask : fullMask = 2 ^ 16 - 1 := rfl
  have hbit : (shl64 fullMask 0).testBit (va / 64 % 64) = true ↔ va / 64 % 64 < 16 := by
    rw [testBit_shl64 fullMask_lt (by omega), hmask, Nat.testBit_two_pow_sub_one]
    simp
  rw [Marks, if_pos hlen, getPtr_zero, hshift]
  simp only [splitVa_zero] at hbit ⊢
  constructor
  · rintro ⟨i, hi, hleaf, h⟩
    exact ⟨hbit.mp h, i, hi, hleaf⟩
  · rintro ⟨h, i, hi, hleaf⟩
    exact ⟨i, hi, hleaf, hbit.mpr h⟩

/-- A mask entry marks its bits at the shifted position in the leaf. -/
private theorem marks_mask {entry va : ℕ} (hlen : isLengthBased entry = false)
    (hm : getMask16 0 entry < 2 ^ 16) :
    Marks 0 entry va ↔ SameLeaf 0 (getIndex 0 entry * 1024) va ∧
      ∃ p, (getMask16 0 entry).testBit p = true ∧
        va / 64 % 64 = getIndex 0 entry / 2 % 2 * 8 + p := by
  have hline : (splitVa 0 va).line = va / 64 % 64 := congrArg VaParts.line (splitVa_zero va)
  rw [Marks, if_neg (by simp [hlen]), getPtr_zero, hline, getMask16To64Shift_eq, getIndex_div_two,
    testBit_shl64 hm (by omega)]
  refine and_congr_right fun _ => ⟨?_, ?_⟩
  · rintro ⟨hle, h⟩
    exact ⟨_, h, by omega⟩
  · rintro ⟨p, hp, heq⟩
    refine ⟨by omega, ?_⟩
    rwa [heq, Nat.add_sub_cancel_left]

/-- Nothing is ever marked beyond position 23 of a leaf, and nothing beyond 15 except by a mask entry
for the upper half of a leaf. -/
private theorem Marks.position {entry va : ℕ} (hwf : WellFormed entry) (h : Marks 0 entry va) :
    va / 64 % 64 < 16 ∨ (va / 64 % 64 < 24 ∧ isLengthBased entry = false ∧
      getIndex 0 entry / 2 % 2 = 1 ∧ getMask16 0 entry ≠ 0) := by
  cases hlen : isLengthBased entry with
  | true => exact .inl ((marks_length hlen).mp h).1
  | false =>
      rw [WellFormed, if_neg (by simp [hlen])] at hwf
      obtain ⟨-, p, hp, heq⟩ := (marks_mask hlen hwf).mp h
      have hp16 := lt_of_testBit hwf hp
      by_cases hlow : va / 64 % 64 < 16
      · exact .inl hlow
      · refine .inr ⟨by omega, rfl, by omega, ?_⟩
        rintro h0
        simp [h0] at hp

/-- An aligned entry marks exactly the lines it covers. -/
private theorem marks_iff_covers {entry va w : ℕ} (hwf : WellFormed entry)
    (hal : LeafAligned entry) (hwin : InWindow w entry) (hva : va / 2 ^ 39 = w) :
    Marks 0 entry va ↔ Covers 0 entry (va / 64) := by
  cases hlen : isLengthBased entry with
  | true =>
      rw [LeafAligned, if_pos hlen] at hal
      rw [marks_length hlen, covers_length 0 hlen, groupSize_eq]
      rcases hal with hzero | ⟨hone, hidx⟩
      · rw [hzero]
        simp only [not_lt_zero, false_and, exists_false, and_false, false_iff]
        omega
      · have hcov := hwin (16 * getIndex 0 entry)
          ((covers_length 0 hlen).mpr ⟨le_rfl, by rw [groupSize_eq]; omega⟩)
        rw [hone]
        simp only [Nat.lt_one_iff, exists_eq_left, Nat.add_zero]
        rw [sameLeaf_iff (by omega)]
        omega
  | false =>
      rw [WellFormed, if_neg (by simp [hlen])] at hwf
      rw [LeafAligned, if_neg (by simp [hlen])] at hal
      rw [marks_mask hlen hwf, covers_mask 0 hlen, groupSize_eq]
      rcases hal with hzero | hidx
      · simp [hzero]
      · have hpage : ∀ p, (getMask16 0 entry).testBit p = true →
            (SameLeaf 0 (getIndex 0 entry * 1024) va ↔ getIndex 0 entry / 4 = va / 4096) := by
          intro p hp
          have hp16 := lt_of_testBit hwf hp
          have hcov := hwin _ ((covers_mask 0 hlen).mpr ⟨p, hp, rfl⟩)
          rw [groupSize_eq] at hcov
          rw [sameLeaf_iff (by omega)]
          omega
        constructor
        · rintro ⟨hleaf, p, hp, heq⟩
          have hsame := (hpage p hp).mp hleaf
          exact ⟨p, hp, by omega⟩
        · rintro ⟨p, hp, heq⟩
          have hp16 := lt_of_testBit hwf hp
          exact ⟨(hpage p hp).mpr (by omega), p, hp, by omega⟩

/-! ## Exactness -/

theorem lazyExact_of_aligned {w : ℕ} {log : List ℕ} (tracker : CacheLineTracker)
    (hwf : ∀ entry ∈ log, WellFormed entry) (hwin : ∀ entry ∈ log, InWindow w entry)
    (hal : ∀ entry ∈ log, LeafAligned entry) : LazyExact w log tracker := by
  intro va hva
  rw [isDirty_processLogLazy fun e he => (hwf e he).not_flushesCache]
  refine or_congr_right (exists_congr fun entry => and_congr_right fun hmem => ?_)
  exact marks_iff_covers (hwf entry hmem) (hal entry hmem) (hwin entry hmem) hva

/-- On a tracker without the log's lines, an exactly processed log has aligned entries only. -/
theorem aligned_of_lazyExact {w : ℕ} {log : List ℕ} {tracker : CacheLineTracker}
    (hwf : ∀ entry ∈ log, WellFormed entry) (hwin : ∀ entry ∈ log, InWindow w entry)
    (hclean : ∀ entry ∈ log, ∀ cl, Covers 0 entry cl → isDirty 0 tracker (64 * cl) = false)
    (hexact : LazyExact w log tracker) : ∀ entry ∈ log, LeafAligned entry := by
  -- every covered line is marked by some entry of the log
  have hmarked : ∀ entry ∈ log, ∀ cl, Covers 0 entry cl →
      ∃ e ∈ log, Marks 0 e (64 * cl) := by
    intro entry hmem cl hcov
    have hva : 64 * cl / 2 ^ 39 = w := by
      have := hwin entry hmem cl hcov
      omega
    have hdirty := (hexact (64 * cl) hva).mpr (.inr ⟨entry, hmem, by
      rwa [Nat.mul_div_cancel_left cl (by omega)]⟩)
    rw [isDirty_processLogLazy fun e he => (hwf e he).not_flushesCache,
      hclean entry hmem cl hcov] at hdirty
    simpa using hdirty
  -- so no entry covers a line beyond position 23
  have hpos : ∀ entry ∈ log, ∀ cl, Covers 0 entry cl → cl % 64 < 24 := by
    intro entry hmem cl hcov
    obtain ⟨e, he, hmark⟩ := hmarked entry hmem cl hcov
    have := hmark.position (hwf e he)
    omega
  -- and therefore none beyond position 15: the upper half of a leaf has no entry left to mark them
  have hpos' : ∀ entry ∈ log, ∀ cl, Covers 0 entry cl → cl % 64 < 16 := by
    intro entry hmem cl hcov
    obtain ⟨e, he, hmark⟩ := hmarked entry hmem cl hcov
    rcases hmark.position (hwf e he) with h | ⟨-, hlen, hhalf, hne⟩
    · omega
    · obtain ⟨p, hp⟩ := Nat.exists_testBit_of_ne_zero hne
      have hm := hwf e he
      rw [WellFormed, if_neg (by simp [hlen])] at hm
      have hp16 := lt_of_testBit hm hp
      have hbad := hpos e he _ ((covers_mask 0 hlen).mpr ⟨p, hp, rfl⟩)
      rw [groupSize_eq] at hbad
      omega
  intro entry hmem
  cases hlen : isLengthBased entry with
  | true =>
      rw [LeafAligned, if_pos hlen]
      by_contra hnot
      rw [not_or] at hnot
      have hcov : ∀ k < 16 * getLength 0 entry, Covers 0 entry (16 * getIndex 0 entry + k) := by
        intro k hk
        rw [covers_length 0 hlen, groupSize_eq]
        omega
      have h₁ := hpos' entry hmem _ (hcov 0 (by omega))
      have h₂ : getLength 0 entry ≠ 1 → (16 * getIndex 0 entry + 16) % 64 < 16 := fun hne =>
        hpos' entry hmem _ (hcov 16 (by omega))
      omega
  | false =>
      rw [LeafAligned, if_neg (by simp [hlen])]
      by_contra hnot
      rw [not_or] at hnot
      obtain ⟨p, hp⟩ := Nat.exists_testBit_of_ne_zero hnot.1
      have hm := hwf entry hmem
      rw [WellFormed, if_neg (by simp [hlen])] at hm
      have hp16 := lt_of_testBit hm hp
      have hbad := hpos' entry hmem _ ((covers_mask 0 hlen).mpr ⟨p, hp, rfl⟩)
      rw [groupSize_eq] at hbad
      omega

/-- When lazy processing marks exactly the covered lines: if every entry is aligned to a leaf, whatever
the tracker holds; and only then if the tracker holds none of the covered lines yet. -/
theorem process_log_lazy_exact_iff (w : ℕ) (log : List ℕ) (tracker : CacheLineTracker)
    (hwf : ∀ entry ∈ log, WellFormed entry) (hwin : ∀ entry ∈ log, InWindow w entry) :
    ((∀ entry ∈ log, LeafAligned entry) → LazyExact w log tracker) ∧
    ((∀ entry ∈ log, ∀ cl, Covers 0 entry cl → isDirty 0 tracker (64 * cl) = false) →
      LazyExact w log tracker → ∀ entry ∈ log, LeafAligned entry) :=
  ⟨lazyExact_of_aligned tracker hwf hwin, aligned_of_lazyExact hwf hwin⟩

/-- The mask entry for the first line of the group with number `g` in the region that is not hardware
coherent. -/
def firstLineEntry (g : ℕ) : ℕ := 2 ^ 38 + (cxlNhcStart / 1024 + g)

private theorem firstLineEntry_fields {g : ℕ} (hg : g < 4) :
    isLengthBased (firstLineEntry g) = false ∧ getMask16 0 (firstLineEntry g) = 1 ∧
      getIndex 0 (firstLineEntry g) = 3 * 2 ^ 36 + g := by
  have key : ∀ g < 4, isLengthBased (firstLineEntry g) = false ∧
      getMask16 0 (firstLineEntry g) = 1 ∧
      getIndex 0 (firstLineEntry g) = 3 * 2 ^ 36 + g := by decide
  exact key g hg

private theorem wellFormed_firstLineEntry {g : ℕ} (hg : g < 4) : WellFormed (firstLineEntry g) := by
  obtain ⟨hlen, hmask, -⟩ := firstLineEntry_fields hg
  rw [WellFormed, if_neg (by simp [hlen]), hmask]
  decide

private theorem covers_firstLineEntry {g cl : ℕ} (hg : g < 4)
    (h : Covers 0 (firstLineEntry g) cl) : cl = 16 * (3 * 2 ^ 36 + g) := by
  obtain ⟨hlen, hmask, hidx⟩ := firstLineEntry_fields hg
  obtain ⟨p, hp, rfl⟩ := (covers_mask 0 hlen).mp h
  rw [hmask, Nat.testBit_one_eq_true_iff_self_eq_zero] at hp
  rw [groupSize_eq, hidx, hp, Nat.add_zero]

private theorem inWindow_firstLineEntry {g : ℕ} (hg : g < 4) : InWindow 384 (firstLineEntry g) := by
  intro cl hcov
  have := covers_firstLineEntry hg hcov
  omega

/-- The first group of a leaf is marked exactly. -/
theorem process_log_lazy_exact_first :
    LazyExact 384 [firstLineEntry 0] CacheLineTracker.empty := by
  refine (process_log_lazy_exact_iff 384 _ _ ?_ ?_).1 ?_ <;> rw [List.forall_mem_singleton]
  · exact wellFormed_firstLineEntry (by omega)
  · exact inWindow_firstLineEntry (by omega)
  · obtain ⟨hlen, -, hidx⟩ := firstLineEntry_fields (g := 0) (by omega)
    rw [LeafAligned, if_neg (by simp [hlen]), hidx]
    exact .inr rfl

/-- The second group of a leaf is marked in the place of the first. -/
theorem process_log_lazy_wrong_group :
    WellFormed (firstLineEntry 1) ∧ InWindow 384 (firstLineEntry 1) ∧
      ¬ LazyExact 384 [firstLineEntry 1] CacheLineTracker.empty := by
  have hwf := wellFormed_firstLineEntry (g := 1) (by omega)
  have hwin := inWindow_firstLineEntry (g := 1) (by omega)
  refine ⟨hwf, hwin, fun hexact => ?_⟩
  have hal := aligned_of_lazyExact (by rwa [List.forall_mem_singleton])
    (by rwa [List.forall_mem_singleton]) (fun _ _ _ _ => rfl) hexact (firstLineEntry 1) (by simp)
  obtain ⟨hlen, hmask, hidx⟩ := firstLineEntry_fields (g := 1) (by omega)
  rw [LeafAligned, if_neg (by simp [hlen]), hmask, hidx] at hal
  omega

end RACoherence
