import RACoherence.CacheLine
import RACoherence.LocalCLTable.Landing
import RACoherence.ThreadOps

/-!
# Range stores

`log_range_store` calls `range_insert` until it no longer reports a full table, flushing the table in
between. The lines that it inserts are `RangeLines` of the range; those of the byte range that are not among
them are `Missed`: the tail mask `1 << end_pos` names the end line alone, and nothing at all is inserted for
the end group when the end line is its first. From a table that has been flushed the call records exactly
the lines that are left. On the table that it finds, a mask that lands on a length entry adds lines to it,
and the length entry of the range makes way for, or swallows, what the table holds.
-/

namespace RACoherence

open ClGroup LocalCLTable

namespace ThreadOps

variable {sh : ℕ}

/-- Replacing the table changes only the table's part of what is recorded. -/
private theorem recorded_withTable {st : ThreadOps} {t : LocalCLTable} {base cl : ℕ} :
    Recorded sh { st with dirtyCls := t } base cl ↔
      Covered sh t cl ∨ LogsCover sh (st.published.drop base) cl :=
  Iff.rfl

/-- Flushing a table that an interrupted call has filled. -/
private theorem recorded_flush {st : ThreadOps} {t : LocalCLTable} {base cl : ℕ}
    (hbase : base ≤ st.published.length) :
    Recorded sh (writeToLog false { st with dirtyCls := t }) base cl ↔
      Covered sh t cl ∨ LogsCover sh (st.published.drop base) cl :=
  recorded_writeToLog { st with dirtyCls := t } hbase

/-- The retry loop from an empty table ends and records exactly the range: each call that stops
early has inserted something, and `pending` counts what is left. -/
theorem rangeLoop_of_empty {st : ThreadOps} {b e base n : ℕ} (fuel : ℕ) (hn : pending b e < n)
    (ht : st.dirtyCls = LocalCLTable.empty) (hbe : b ≤ e) (he : e / 16 < 2 ^ groupIndexShift sh)
    (hlen : fullGroups b e ≤ groupLenMax sh) (hbase : base ≤ st.published.length) :
    ∃ st', rangeLoop sh (fuel + 2) n st b e = some st' ∧
      ∀ cl, Recorded sh st' base cl ↔ Recorded sh st base cl ∨ RangeLines b e cl := by
  induction n generalizing st b e with
  | zero => omega
  | succ n ih =>
      have hmask : MaskOnly sh st.dirtyCls := ht ▸ maskOnly_empty sh
      obtain ⟨r, hr, hspec⟩ := rangeInsert_spec fuel hbe he (.inr ⟨hmask, hlen⟩)
      have hiff : ∀ cl, Covered sh r.table cl ∨ r.Rest cl ↔
          Covered sh st.dirtyCls cl ∨ RangeLines b e cl :=
        fun cl => ⟨hspec.exact hmask cl, hspec.adds cl⟩
      rw [rangeLoop, hr]
      cases hfull : r.full with
      | false =>
          refine ⟨_, by simp only [hfull]; rfl, fun cl => ?_⟩
          have hcl := hiff cl
          simp only [RangeResult.Rest, hfull, Bool.false_eq_true, false_and, or_false] at hcl
          rw [recorded_withTable, hcl, Recorded]
          exact or_right_comm
      | true =>
          obtain ⟨h₁, h₂, h₃, -⟩ := hspec.bounds hfull
          have hprog := hspec.progress ht hfull
          let flushed := writeToLog false { st with dirtyCls := r.table }
          have hflush : ∀ cl, Recorded sh flushed base cl ↔ _ := fun _ => recorded_flush hbase
          obtain ⟨st', hst', hrec⟩ : ∃ st', rangeLoop sh (fuel + 2) n flushed r.begin r.end_ =
              some st' ∧ _ := ih (by omega) rfl h₁
            ((Nat.div_le_div_right h₂).trans_lt he) (h₃.trans hlen)
            (by simp only [flushed, writeToLog, List.length_append]; omega)
          refine ⟨st', by simpa only [hfull, if_true] using hst', fun cl => ?_⟩
          have hcl := hiff cl
          simp only [RangeResult.Rest, hfull, true_and] at hcl
          rw [hrec, hflush, Recorded, or_right_comm, hcl]
          exact or_right_comm

/-- The retry loop from any table it can insert into: it ends, keeps what was recorded, and records
the range; on a table of mask entries it records nothing else. -/
theorem rangeLoop_spec (st : ThreadOps) {b e base n : ℕ} (fuel : ℕ) (hn : pending b e + 1 < n)
    (hok : Insertable sh st.dirtyCls b e) (hbe : b ≤ e) (he : e / 16 < 2 ^ groupIndexShift sh)
    (hlen : fullGroups b e ≤ groupLenMax sh) (hbase : base ≤ st.published.length) :
    ∃ st', rangeLoop sh (fuel + 2) n st b e = some st' ∧
      (∀ cl, Recorded sh st base cl ∨ RangeLines b e cl → Recorded sh st' base cl) ∧
      (MaskOnly sh st.dirtyCls → ∀ cl, Recorded sh st' base cl →
        Recorded sh st base cl ∨ RangeLines b e cl) := by
  obtain ⟨n, rfl⟩ : ∃ m, n = m + 1 := ⟨n - 1, by omega⟩
  obtain ⟨r, hr, hspec⟩ := rangeInsert_spec fuel hbe he hok
  rw [rangeLoop, hr]
  cases hfull : r.full with
  | false =>
      refine ⟨_, by simp only [hfull]; rfl, fun cl h => ?_, fun hmask cl h => ?_⟩
      · have hadds := hspec.adds cl
        simp only [RangeResult.Rest, hfull, Bool.false_eq_true, false_and, or_false] at hadds
        rw [recorded_withTable]
        rw [Recorded, or_right_comm] at h
        exact h.imp_left hadds
      · have hexact := hspec.exact hmask cl
        simp only [RangeResult.Rest, hfull, Bool.false_eq_true, false_and, or_false] at hexact
        rw [recorded_withTable] at h
        rw [Recorded, or_right_comm]
        exact h.imp_left hexact
  | true =>
      obtain ⟨h₁, h₂, h₃, h₄⟩ := hspec.bounds hfull
      let flushed := writeToLog false { st with dirtyCls := r.table }
      have hflush : ∀ cl, Recorded sh flushed base cl ↔ _ := fun _ => recorded_flush hbase
      have hbase' : base ≤ flushed.published.length := by
        simp only [flushed, writeToLog, List.length_append]
        omega
      obtain ⟨st', hst', hrec⟩ := rangeLoop_of_empty fuel (by omega : pending r.begin r.end_ < n)
        (rfl : flushed.dirtyCls = LocalCLTable.empty) h₁ ((Nat.div_le_div_right h₂).trans_lt he)
        (h₃.trans hlen) hbase'
      refine ⟨st', by simpa only [hfull, if_true] using hst', fun cl h => ?_, fun hmask cl h => ?_⟩
      · have hadds := hspec.adds cl
        simp only [RangeResult.Rest, hfull, true_and] at hadds
        rw [hrec, hflush, or_right_comm]
        rw [Recorded, or_right_comm] at h
        exact h.imp_left hadds
      · have hexact := hspec.exact hmask cl
        simp only [RangeResult.Rest, hfull, true_and] at hexact
        rw [hrec, hflush, or_right_comm] at h
        rw [Recorded, or_right_comm]
        exact h.imp_left hexact

/-- The retry loop leaves `recent_cl` alone, and the logs it publishes are not releases. -/
theorem rangeLoop_frame {st st' : ThreadOps} {b e fuel n : ℕ}
    (h : rangeLoop sh fuel n st b e = some st') :
    st'.recentCl = st.recentCl ∧
      ∃ logs, st'.published = st.published ++ logs ∧ ∀ log ∈ logs, log.isRel = false := by
  induction n generalizing st b e with
  | zero => simp [rangeLoop] at h
  | succ n ih =>
      rw [rangeLoop] at h
      cases hr : rangeInsert sh fuel st.dirtyCls b e with
      | none => simp [hr] at h
      | some r =>
          simp only [hr] at h
          split at h
          · obtain ⟨hrec, logs, hpub, hrel⟩ := ih h
            refine ⟨hrec, ⟨r.table.entries, false⟩ :: logs, ?_, by simpa using hrel⟩
            simp [hpub, writeToLog]
          · obtain rfl := Option.some.inj h
            exact ⟨rfl, [], by simp⟩

/-- Short ranges leave only mask entries in a table of mask entries. -/
theorem maskOnly_rangeLoop {st st' : ThreadOps} {b e n : ℕ} (fuel : ℕ) (hbe : b ≤ e)
    (he : e / 16 < 2 ^ groupIndexShift sh) (hmin : fullGroups b e < groupLenMin)
    (ht : MaskOnly sh st.dirtyCls) (h : rangeLoop sh (fuel + 2) n st b e = some st') :
    MaskOnly sh st'.dirtyCls := by
  induction n generalizing st b e with
  | zero => simp [rangeLoop] at h
  | succ n ih =>
      obtain ⟨r, hr, hspec⟩ := rangeInsert_spec fuel hbe he (.inl hmin)
      rw [rangeLoop, hr] at h
      cases hfull : r.full with
      | false =>
          simp only [hfull] at h
          obtain rfl := Option.some.inj h
          exact hspec.maskOnly ht hmin
      | true =>
          obtain ⟨h₁, h₂, h₃, -⟩ := hspec.bounds hfull
          simp only [hfull, if_true] at h
          exact ih h₁ ((Nat.div_le_div_right h₂).trans_lt he) (h₃.trans_lt hmin)
            (maskOnly_empty sh) h

/-- More fuel does not change what the retry loop returns. -/
theorem rangeLoop_mono {st st' : ThreadOps} {b e fuel fuel' n n' : ℕ} (hfuel : fuel ≤ fuel')
    (hn : n ≤ n') (h : rangeLoop sh fuel n st b e = some st') :
    rangeLoop sh fuel' n' st b e = some st' := by
  induction n generalizing st b e n' with
  | zero => simp [rangeLoop] at h
  | succ n ih =>
      obtain ⟨n', rfl⟩ : ∃ m, n' = m + 1 := ⟨n' - 1, by omega⟩
      rw [rangeLoop] at h ⊢
      cases hr : rangeInsert sh fuel st.dirtyCls b e with
      | none => simp [hr] at h
      | some r =>
          rw [rangeInsert_mono hfuel hr]
          simp only [hr] at h ⊢
          split at h
          · rename_i hfull
            rw [if_pos hfull]
            exact ih (by omega) h
          · rename_i hfull
            rwa [if_neg hfull]

/-- Two runs of one call return the same state. -/
theorem logRangeStore_unique {st st₁ st₂ : ThreadOps} {begin end_ fuel₁ fuel₂ : ℕ}
    (h₁ : logRangeStore sh fuel₁ begin end_ st = some st₁)
    (h₂ : logRangeStore sh fuel₂ begin end_ st = some st₂) : st₁ = st₂ := by
  have h₁' := rangeLoop_mono (le_max_left fuel₁ fuel₂) (le_max_left fuel₁ fuel₂) h₁
  have h₂' := rangeLoop_mono (le_max_right fuel₁ fuel₂) (le_max_right fuel₁ fuel₂) h₂
  exact Option.some.inj (h₁'.symm.trans h₂')

/-- The retry loop never ends on a range of more than `GROUP_LEN_MAX` full groups. -/
theorem rangeLoop_overlong {st : ThreadOps} {b e n : ℕ} (fuel : ℕ)
    (hlong : groupLenMax sh < fullGroups b e) : rangeLoop sh fuel n st b e = none := by
  induction n generalizing st b e with
  | zero => rfl
  | succ n ih =>
      rw [rangeLoop]
      cases hr : rangeInsert sh fuel st.dirtyCls b e with
      | none => rfl
      | some r =>
          obtain ⟨hfull, hrest⟩ := rangeInsert_overlong hlong hr
          simp only [hfull, if_true]
          exact ih hrest

/-! ## When a byte range is fully logged -/

/-- `log_range_store(begin, end_)` returns, and every line of the range is then in the dirty table
or in a log that the call published. -/
def RangeLogged (st : ThreadOps) (begin end_ : ℕ) : Prop :=
  ∃ fuel st', logRangeStore 0 fuel begin end_ st = some st' ∧
    ∀ cl, Touches begin end_ cl → Recorded 0 st' st.published.length cl

/-- The lines of the range that `range_insert` never inserts: those of the group of the end line,
except the end line itself when it is not the first of the group. -/
def Missed (begin end_ cl : ℕ) : Prop :=
  Touches begin end_ cl ∧ 16 * (end_ / 64 / 16) ≤ cl ∧ (cl ≠ end_ / 64 ∨ end_ / 64 % 16 = 0)

theorem shiftRight_virtualClShift_zero (x : ℕ) : x >>> virtualClShift 0 = x / 64 :=
  Nat.shiftRight_eq_div_pow x 6

/-- A line of the range is either inserted or missed. -/
private theorem rangeLines_or_missed {begin end_ cl : ℕ} (h : Touches begin end_ cl) :
    RangeLines (begin / 64) (end_ / 64) cl ∨ Missed begin end_ cl := by
  have h' := (touches_iff h.lt).mp h
  simp only [RangeLines, Missed, h, true_and]
  omega

private theorem not_rangeLines_of_missed {begin end_ cl : ℕ} (h : Missed begin end_ cl) :
    ¬ RangeLines (begin / 64) (end_ / 64) cl := by
  obtain ⟨-, h₁, h₂⟩ := h
  simp only [RangeLines]
  omega

/-- What a thread records in one call, on any table. -/
def CallRecords (t : LocalCLTable) (b e cl : ℕ) : Prop :=
  if fullGroups b e < groupLenMin ∨ ¬ HasRoom 0 t (rangeMasks b e) then
    MasksRecord 0 t (rangeMasks b e) b e cl
  else LengthRecords 0 t (rangeMasks b e) b e cl

private theorem callRecords_iff {t : LocalCLTable} {b e : ℕ} {r : RangeResult}
    (h : LandingSpec 0 t (rangeMasks b e) b e r) (cl : ℕ) :
    Covered 0 r.table cl ∨ r.Rest cl ↔ CallRecords t b e cl := by
  rw [CallRecords]
  split
  · exact h.masks ‹_› cl
  · rename_i hlong
    obtain ⟨hmin, hroom⟩ := not_or.mp hlong
    exact h.length (Nat.not_lt.mp hmin) (not_not.mp hroom) cl

/-- The retry loop from any table: it ends, as the table is empty from the second call on. -/
private theorem rangeLoop_records (st : ThreadOps) {b e : ℕ} (hbe : b ≤ e)
    (he : e / 16 < 2 ^ groupIndexShift 0)
    (hlen : fullGroups b e ≤ groupLenMax 0) :
    ∃ fuel st', rangeLoop 0 fuel fuel st b e = some st' ∧
      ∀ cl, Recorded 0 st' st.published.length cl ↔ CallRecords st.dirtyCls b e cl := by
  have hcall (fuel : ℕ) := rangeInsert_landing fuel st.dirtyCls hbe he hlen
  obtain ⟨r, hr, hspec⟩ := hcall 0
  cases hfull : r.full with
  | false =>
      refine ⟨2, _, by simp only [rangeLoop, hr, hfull]; rfl, fun cl => ?_⟩
      have hcl := callRecords_iff hspec cl
      simp only [RangeResult.Rest, hfull, Bool.false_eq_true, false_and, or_false] at hcl
      rw [recorded_withTable, ← hcl]
      simp [LogsCover]
  | true =>
      obtain ⟨h₁, h₂, h₃⟩ := hspec.bounds hfull
      let flushed := writeToLog false { st with dirtyCls := r.table }
      have hbase : st.published.length ≤ flushed.published.length := by
        simp only [flushed, writeToLog, List.length_append]
        omega
      obtain ⟨st', hst', hrec⟩ := rangeLoop_of_empty (pending r.begin r.end_) (Nat.lt_succ_self _)
        (rfl : flushed.dirtyCls = LocalCLTable.empty) h₁ ((Nat.div_le_div_right h₂).trans_lt he)
        (h₃.trans hlen) hbase
      refine ⟨pending r.begin r.end_ + 2, st', ?_, fun cl => ?_⟩
      · rw [rangeLoop, rangeInsert_mono (by omega) hr]
        simpa only [hfull, if_true] using hst'
      · have hcl := callRecords_iff hspec cl
        simp only [RangeResult.Rest, hfull, true_and] at hcl
        rw [hrec, recorded_flush le_rfl, ← hcl]
        simp [LogsCover]

/-- One call of `log_range_store`, on any table. -/
private theorem logRangeStore_records (st : ThreadOps) {begin end_ : ℕ} (hlt : begin < end_)
    (hend : end_ < 2 ^ 48)
    (hlen : fullGroups (begin / 64) (end_ / 64) ≤ groupLenMax 0) :
    ∃ fuel st', logRangeStore 0 fuel begin end_ st = some st' ∧
      ∀ cl, Recorded 0 st' st.published.length cl ↔ CallRecords st.dirtyCls (begin / 64) (end_ / 64) cl := by
  have hshift : groupIndexShift 0 = 38 := rfl
  have hgroup : end_ / 64 / 16 < 2 ^ groupIndexShift 0 := by
    rw [hshift]
    omega
  simp only [logRangeStore, shiftRight_virtualClShift_zero]
  exact rangeLoop_records { st with recentCl := end_ / 64 } (Nat.div_le_div_right hlt.le) hgroup hlen

/-- A range is fully logged if and only if the call returns and records its lines. -/
private theorem rangeLogged_iff_records {st : ThreadOps} {begin end_ : ℕ} (hlt : begin < end_)
    (hend : end_ < 2 ^ 48) :
    RangeLogged st begin end_ ↔ fullGroups (begin / 64) (end_ / 64) ≤ groupLenMax 0 ∧
      ∀ cl, Touches begin end_ cl → CallRecords st.dirtyCls (begin / 64) (end_ / 64) cl := by
  constructor
  · rintro ⟨fuel, st', hst', hrec⟩
    have hlen : fullGroups (begin / 64) (end_ / 64) ≤ groupLenMax 0 := by
      by_contra hlong
      rw [logRangeStore, shiftRight_virtualClShift_zero, shiftRight_virtualClShift_zero,
        rangeLoop_overlong fuel (by omega)] at hst'
      simp at hst'
    obtain ⟨fuel', st'', hst'', hiff⟩ := logRangeStore_records st hlt hend hlen
    obtain rfl := logRangeStore_unique hst' hst''
    exact ⟨hlen, fun cl hcl => (hiff cl).mp (hrec cl hcl)⟩
  · rintro ⟨hlen, hrec⟩
    obtain ⟨fuel, st', hst', hiff⟩ := logRangeStore_records st hlt hend hlen
    exact ⟨fuel, st', hst', fun cl hcl => (hiff cl).mpr (hrec cl hcl)⟩

/-- When a range store on table `t` logs its byte range. The range has at most `GROUP_LEN_MAX` full groups.
With fewer than `GROUP_LEN_MIN`, or when there is no room for a mask of the range, so that the table is
flushed first, every missed line is in the table already, or a mask of the range lands on a length entry
that then reaches it. Otherwise a length entry is made, and every line of the range is in it, or in an entry
that it leaves alone. -/
def RangeFits (t : LocalCLTable) (begin end_ : ℕ) : Prop :=
  let b := begin / 64
  let e := end_ / 64
  let ls := landings 0 t [] (rangeMasks b e)
  fullGroups b e ≤ groupLenMax 0 ∧
    if fullGroups b e < groupLenMin ∨ ¬ HasRoom 0 t (rangeMasks b e) then
      ∀ cl, Missed begin end_ cl → Covered 0 t cl ∨ Widened 0 t ls cl
    else
      ∀ cl, Touches begin end_ cl →
        Stays 0 t ls ((b + 15) / 16) (fullGroups b e) cl ∨
          InNewEntry 0 t ls ((b + 15) / 16) (fullGroups b e) cl

/-- When `log_range_store` logs a byte range completely, whatever the table holds. -/
theorem log_range_store_complete_iff (st : ThreadOps) (begin end_ : ℕ) (hlt : begin < end_)
    (hend : end_ < 2 ^ 48) : RangeLogged st begin end_ ↔ RangeFits st.dirtyCls begin end_ := by
  rw [rangeLogged_iff_records hlt hend, RangeFits]
  refine and_congr_right fun _ => ?_
  simp only [CallRecords]
  split
  · -- the lines that are not missed are inserted
    constructor
    · intro h cl hmiss
      have hcl := h cl hmiss.1
      rw [MasksRecord, ← or_assoc] at hcl
      exact hcl.resolve_right (not_rangeLines_of_missed hmiss)
    · intro h cl hcl
      rw [MasksRecord, ← or_assoc]
      exact (rangeLines_or_missed hcl).symm.imp_left (h cl)
  · exact Iff.rfl

/-- The first group of the region that is not hardware coherent. -/
def nhcGroup : ℕ := cxlNhcStart / 1024

/-- A thread whose table has masks of other groups in all the slots that group `nhcGroup` is looked for in,
and a length entry for groups that are far away. -/
def crowded : ThreadOps where
  dirtyCls k :=
    if k < 5 then nhcGroup + 64 * (k + 1) ||| shl64 1 (groupIndexShift 0)
    else if k = 5 then nhcGroup + 2 ^ 30 ||| shl64 4 (groupIndexShift 0) ||| typeMask
    else 0
  recentCl := 0
  published := []

/-- A range of five full groups, which begins in the first group: there is no room for its head, the table is
flushed, and the empty table takes the whole range. -/
theorem log_range_store_complete_group : RangeLogged crowded (cxlNhcStart + 64) (cxlNhcStart + 6144) := by
  have hroom :
      ¬ HasRoom 0 crowded.dirtyCls (rangeMasks ((cxlNhcStart + 64) / 64) ((cxlNhcStart + 6144) / 64)) := by
    decide +kernel
  refine (log_range_store_complete_iff crowded (cxlNhcStart + 64) (cxlNhcStart + 6144) (by omega)
    (by decide)).mpr ⟨by decide, ?_⟩
  rw [if_pos (.inr hroom)]
  rintro cl ⟨h, hge, -⟩
  have hlast := ((touches_iff h.lt).mp h).2
  simp only [cxlNhcStart, virtualAddressBits] at hlast hge
  omega

/-- A fresh thread that stores lines 1 and 2 of the first group logs line 3 instead. -/
theorem log_range_store_misses_lines :
    ¬ RangeLogged fresh (cxlNhcStart + 64) (cxlNhcStart + 192) := by
  rw [rangeLogged_iff_records (by omega) (by decide)]
  rintro ⟨-, h⟩
  have hline := h (cxlNhcStart / 64 + 1) ((touches_iff (by omega)).mpr ⟨by decide, by decide⟩)
  rw [CallRecords, if_pos (.inl (by decide))] at hline
  rcases hline with hcov | hwide | hin
  · exact not_covered_empty _ hcov
  · obtain ⟨l, -, hkind, -⟩ := hwide
    have hmask : isLengthBased (fresh.dirtyCls l.2) = false := isLengthBased_zero
    rw [hmask] at hkind
    cases hkind
  · revert hin
    simp only [RangeLines, cxlNhcStart, virtualAddressBits]
    omega

end ThreadOps

end RACoherence
