import RACoherence.ThreadOps.RangeStore

/-!
# When range insertion ends

`range_insert` takes a range of full groups in chunks of `len & GROUP_LEN_MAX` groups. Up to
`GROUP_LEN_MAX` groups that is a single chunk, with a length that `insert_length` accepts, and both
the call and the retry loop of `log_range_store` end, whatever the table holds. Beyond that the chunks
do not add up to the range: the last ones have length 0, and every call of the retry loop reports a
full table.
-/

namespace RACoherence

open ClGroup Function

namespace LocalCLTable

variable {sh : ℕ}

/-! ## One call on a range of at most `GROUP_LEN_MAX` full groups -/

/-- The bounds that a call leaves behind are within those it was given. -/
structure Within (b e : ℕ) (r : RangeResult) : Prop where
  lower : b ≤ r.begin
  ordered : r.begin ≤ r.end_
  upper : r.end_ ≤ e

theorem Within.mono {b b' e e' : ℕ} {r : RangeResult} (h : Within b' e' r) (hb : b ≤ b')
    (he : e' ≤ e) : Within b e r :=
  ⟨hb.trans h.lower, h.ordered, h.upper.trans he⟩

theorem Within.fullGroups_le {b e : ℕ} {r : RangeResult} (h : Within b e r) :
    fullGroups r.begin r.end_ ≤ fullGroups b e := by
  have hlower := h.lower
  have hupper := h.upper
  simp only [fullGroups]
  omega

theorem within_insertGroups {t : LocalCLTable} {g n : ℕ} :
    Within (16 * g) (16 * (g + n)) (insertGroups sh t (16 * (g + n)) g n) := by
  induction n generalizing t g with
  | zero => exact ⟨le_rfl, le_rfl, le_rfl⟩
  | succ n ih =>
      have hsucc : 16 * (g + (n + 1)) = 16 * (g + 1 + n) := by ring
      rcases hins : insertMask sh t g fullMask with ⟨full, t'⟩
      cases full with
      | true =>
          simp only [insertGroups, hins, shiftLeft_groupSizeShift]
          exact ⟨by dsimp only; omega, by dsimp only; omega, le_rfl⟩
      | false =>
          simp only [insertGroups, hins, hsucc]
          exact ih.mono (by omega) le_rfl

theorem and_groupLenMax_of_le {n : ℕ} (hn : n ≤ groupLenMax sh) : n &&& groupLenMax sh = n := by
  have hpos := Nat.two_pow_pos (63 - groupIndexShift sh)
  rw [groupLenMax, Nat.one_shiftLeft] at hn ⊢
  rw [Nat.and_two_pow_sub_one_eq_mod, Nat.mod_eq_of_lt (by omega)]

/-- What a call with any table does: it returns within the bounds, and every length that it passes is
between 1 and `GROUP_LEN_MAX`, with whatever fuel it runs. -/
structure Returns (sh b e : ℕ) (run : ℕ → RangeRun) : Prop where
  result : ∀ fuel, ∃ r, (run (fuel + 2)).result = some r ∧ Within b e r
  lengths : ∀ fuel, ∀ l ∈ (run fuel).lengths, 1 ≤ l ∧ l ≤ groupLenMax sh

/-- A call that returns without a length insert. -/
theorem Returns.of_mask {b e : ℕ} {r : RangeResult} (h : Within b e r) :
    Returns sh b e fun _ => .done r :=
  ⟨fun _ => ⟨r, rfl, h⟩, by simp⟩

theorem Returns.mono {b b' e e' : ℕ} {run : ℕ → RangeRun} (h : Returns sh b' e' run)
    (hb : b ≤ b') (he : e' ≤ e) : Returns sh b e run := by
  refine ⟨fun fuel => ?_, h.lengths⟩
  obtain ⟨r, hr, hwithin⟩ := h.result fuel
  exact ⟨r, hr, hwithin.mono hb he⟩

/-- A single chunk takes the whole range. -/
theorem returns_insertLengths {t : LocalCLTable} {g n : ℕ} (hpos : 1 ≤ n) (hmax : n ≤ groupLenMax sh) :
    Returns sh (16 * g) (16 * (g + n))
      fun fuel => insertLengths sh (16 * (g + n)) fuel t g n := by
  have hchunk := and_groupLenMax_of_le hmax
  constructor
  · intro fuel
    rcases hins : insertLength sh t g n with ⟨full, t'⟩
    rw [insertLengths, if_neg (by omega)]
    simp only [hchunk, hins]
    cases full with
    | true =>
        refine ⟨_, rfl, ?_⟩
        rw [shiftLeft_groupSizeShift]
        exact ⟨by dsimp only; omega, by dsimp only; omega, le_rfl⟩
    | false =>
        refine ⟨⟨false, t', 16 * (g + n), 16 * (g + n)⟩, ?_, ⟨by dsimp only; omega, le_rfl, le_rfl⟩⟩
        simp only [Nat.sub_self, insertLengths, if_true, RangeRun.result_done]
  · intro fuel l hl
    have hone : l = n := by
      cases fuel with
      | zero => simp [insertLengths] at hl
      | succ fuel =>
          rw [insertLengths, if_neg (by omega)] at hl
          rcases hins : insertLength sh t g n with ⟨full, t'⟩
          simp only [hchunk, hins] at hl
          cases full with
          | true => simpa using hl
          | false =>
              cases fuel with
              | zero => simpa [insertLengths] using hl
              | succ fuel => simpa [insertLengths] using hl
    omega

theorem returns_rangeInsertGroups {t : LocalCLTable} {b e : ℕ} (hbe : b ≤ e) (hb0 : b % 16 = 0)
    (he0 : e % 16 = 0) (hmax : fullGroups b e ≤ groupLenMax sh) :
    Returns sh b e fun fuel => rangeInsertGroups sh fuel t b e := by
  obtain ⟨g, rfl⟩ : ∃ g, b = 16 * g := ⟨b / 16, by omega⟩
  obtain ⟨n, rfl⟩ : ∃ n, e = 16 * (g + n) := ⟨e / 16 - g, by omega⟩
  have hg : (16 * g) / 16 = g := by omega
  have hn : (16 * (g + n)) / 16 - g = n := by omega
  have hgroups : fullGroups (16 * g) (16 * (g + n)) = n := by
    simp only [fullGroups]
    omega
  rw [hgroups] at hmax
  simp only [rangeInsertGroups, shiftRight_groupSizeShift, hg, hn]
  by_cases hmin : n < groupLenMin
  · simp only [if_pos hmin]
    exact .of_mask within_insertGroups
  · simp only [if_neg hmin]
    rw [groupLenMin] at hmin
    exact returns_insertLengths (by omega) hmax

theorem returns_rangeInsertTail {t : LocalCLTable} {b e : ℕ} (hbe : b ≤ e) (hb0 : b % 16 = 0)
    (hmax : fullGroups b e ≤ groupLenMax sh) :
    Returns sh b e fun fuel => rangeInsertTail sh fuel t b e := by
  simp only [rangeInsertTail, and_groupSizeMask, shiftRight_groupSizeShift]
  by_cases he0 : e % 16 = 0
  · simp only [he0, ne_eq, not_true, if_false]
    exact returns_rangeInsertGroups hbe hb0 he0 hmax
  · simp only [ne_eq, he0, not_false_iff, if_true]
    rcases hins : insertMask sh t (e / 16) (1 <<< (e % 16)) with ⟨full, t'⟩
    cases full with
    | true => exact .of_mask ⟨le_rfl, hbe, le_rfl⟩
    | false =>
        have hgroups : fullGroups b (e - e % 16) ≤ groupLenMax sh := by
          simp only [fullGroups] at hmax ⊢
          omega
        exact (returns_rangeInsertGroups (by omega) hb0 (by omega) hgroups).mono le_rfl (by omega)

/-- A call on a range of at most `GROUP_LEN_MAX` full groups, whatever the table holds. -/
theorem returns_rangeInsert {t : LocalCLTable} {b e : ℕ} (hbe : b ≤ e)
    (hmax : fullGroups b e ≤ groupLenMax sh) :
    Returns sh b e fun fuel => rangeInsertRun sh fuel t b e := by
  simp only [rangeInsertRun, and_groupSizeMask, shiftRight_groupSizeShift]
  by_cases hb0 : b % 16 = 0
  · simp only [hb0, ne_eq, not_true, if_false]
    exact returns_rangeInsertTail hbe hb0 hmax
  · simp only [ne_eq, hb0, not_false_iff, if_true]
    by_cases hsame : b / 16 = e / 16
    · simp only [if_pos hsame]
      rcases hins : insertMask sh t (b / 16) ((fullMask <<< (b % 16)) &&& fullMask &&& 1 <<< (e % 16))
        with ⟨full, t'⟩
      cases full with
      | true => exact .of_mask ⟨le_rfl, hbe, le_rfl⟩
      | false => exact .of_mask ⟨hbe, le_rfl, le_rfl⟩
    · simp only [if_neg hsame]
      rcases hins : insertMask sh t (b / 16) ((fullMask <<< (b % 16)) &&& fullMask) with ⟨full, t'⟩
      cases full with
      | true => exact .of_mask ⟨le_rfl, hbe, le_rfl⟩
      | false =>
          have hnext : b + (groupSize - b % 16) = 16 * (b / 16 + 1) := by
            rw [groupSize_eq]
            omega
          have hgroups : fullGroups (16 * (b / 16 + 1)) e ≤ groupLenMax sh := by
            simp only [fullGroups] at hmax ⊢
            omega
          simp only [hnext]
          exact (returns_rangeInsertTail (by omega) (by omega) hgroups).mono (by omega) le_rfl

end LocalCLTable

namespace ThreadOps

open LocalCLTable

variable {sh : ℕ}

/-- `range_insert(b, e)` on the table returns, passes only lengths from 1 to `GROUP_LEN_MAX` to
`insert_length`, and the retry loop of `log_range_store` ends when it starts with this table. -/
structure RangeTerminates (sh : ℕ) (t : LocalCLTable) (b e : ℕ) : Prop where
  returns : ∃ fuel r, rangeInsert sh fuel t b e = some r
  lengths : ∀ fuel, ∀ l ∈ (rangeInsertRun sh fuel t b e).lengths, 1 ≤ l ∧ l ≤ groupLenMax sh
  retry : ∀ st : ThreadOps, st.dirtyCls = t → ∃ fuel n st', rangeLoop sh fuel n st b e = some st'

/-- The retry loop ends: after one call at most, the table is empty. -/
theorem rangeLoop_returns {st : ThreadOps} {b e : ℕ} (hbe : b ≤ e)
    (he : e / 16 < 2 ^ groupIndexShift sh) (hmax : fullGroups b e ≤ groupLenMax sh) :
    ∃ fuel n st', rangeLoop sh fuel n st b e = some st' := by
  obtain ⟨r, hrun, hwithin⟩ := (@returns_rangeInsert sh st.dirtyCls b e hbe hmax).result 0
  have hr : rangeInsert sh 2 st.dirtyCls b e = some r := hrun
  cases hfull : r.full with
  | false =>
      refine ⟨2, 1, { st with dirtyCls := r.table }, ?_⟩
      simp only [rangeLoop, hr, hfull, Bool.false_eq_true, if_false]
  | true =>
      let flushed := writeToLog false { st with dirtyCls := r.table }
      obtain ⟨st', hst', -⟩ : ∃ st', rangeLoop sh 2 (pending r.begin r.end_ + 1) flushed
          r.begin r.end_ = some st' ∧ _ :=
        rangeLoop_of_empty 0 (Nat.lt_succ_self _) (rfl : flushed.dirtyCls = LocalCLTable.empty)
          hwithin.ordered ((Nat.div_le_div_right hwithin.upper).trans_lt he)
          (hwithin.fullGroups_le.trans hmax) (Nat.zero_le _)
      refine ⟨2, pending r.begin r.end_ + 2, st', ?_⟩
      rw [rangeLoop, hr]
      simpa only [hfull, if_true] using hst'

/-- Range insertion terminates, on any table, if and only if the range has at most `GROUP_LEN_MAX`
full groups. -/
theorem range_insert_terminates_iff (sh : ℕ) (t : LocalCLTable) (b e : ℕ) (hbe : b ≤ e)
    (he : e < groupSize * 2 ^ groupIndexShift sh) :
    RangeTerminates sh t b e ↔ fullGroups b e ≤ groupLenMax sh := by
  rw [groupSize_eq] at he
  constructor
  · intro h
    by_contra hlong
    obtain ⟨fuel, n, st', hst'⟩ := h.retry { fresh with dirtyCls := t } rfl
    rw [rangeLoop_overlong fuel (by omega)] at hst'
    exact absurd hst' (by simp)
  · intro hmax
    have hret := @returns_rangeInsert sh t b e hbe hmax
    obtain ⟨r, hr, -⟩ := hret.result 0
    exact ⟨⟨2, r, hr⟩, hret.lengths, fun st _ => rangeLoop_returns hbe (by omega) hmax⟩

/-- The longest range that `range_insert` takes, into an empty table. -/
theorem range_insert_terminates_longest :
    16 * (2 ^ 25 - 1) < groupSize * 2 ^ groupIndexShift 0 ∧
      RangeTerminates 0 LocalCLTable.empty 0 (16 * (2 ^ 25 - 1)) :=
  ⟨by decide, (range_insert_terminates_iff 0 LocalCLTable.empty 0 (16 * (2 ^ 25 - 1)) (by decide)
    (by decide)).mpr (by decide)⟩

/-- One group more and the retry loop does not end. -/
theorem range_insert_overlong_diverges :
    16 * 2 ^ 25 < 2 ^ 42 ∧ ¬ RangeTerminates 0 LocalCLTable.empty 0 (16 * 2 ^ 25) := by
  refine ⟨by decide, fun h => ?_⟩
  obtain ⟨fuel, n, st', hst'⟩ := h.retry fresh rfl
  rw [rangeLoop_overlong fuel (by decide)] at hst'
  exact absurd hst' (by simp)

end ThreadOps

end RACoherence
