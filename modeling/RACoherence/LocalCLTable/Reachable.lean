import RACoherence.LocalCLTable.Range

/-!
# Reachable tables and point inserts

A reachable table mixes mask entries and length entries. `insert_mask` recognises a slot by its group
index alone, and on a length entry the bit of the new line lands in the length. `LineFits` are the
tables on which a point insert is exact all the same.
-/

namespace RACoherence

open ClGroup Function

namespace LocalCLTable

variable {sh : ℕ}

/-! ## Reachable tables -/

/-- The tables that `insert`, `range_insert` and `clear_table` build up. -/
inductive Reachable (sh : ℕ) : LocalCLTable → Prop
  | clear_table : Reachable sh empty
  | insert {t t' : LocalCLTable} {cl : ℕ} {full : Bool} (ht : Reachable sh t)
      (h : insert sh t cl = (full, t')) : Reachable sh t'
  | range_insert {t : LocalCLTable} {fuel b e : ℕ} {r : RangeResult} (ht : Reachable sh t)
      (hbe : b ≤ e) (h : rangeInsert sh fuel t b e = some r) : Reachable sh r.table

/-- A property of tables that both kinds of insert preserve. -/
structure Preserved (sh : ℕ) (P : LocalCLTable → Prop) : Prop where
  insertMask : ∀ {t t' : LocalCLTable} {g m : ℕ} {full : Bool}, m < 2 ^ 16 → P t →
    LocalCLTable.insertMask sh t g m = (full, t') → P t'
  insertLength : ∀ {t t' : LocalCLTable} {g len : ℕ} {full : Bool}, P t →
    LocalCLTable.insertLength sh t g len = (full, t') → P t'

namespace Preserved

variable {P : LocalCLTable → Prop}

theorem insertGroups (hP : Preserved sh P) {t : LocalCLTable} {e g n : ℕ} (ht : P t) :
    P (LocalCLTable.insertGroups sh t e g n).table := by
  induction n generalizing t g with
  | zero => exact ht
  | succ n ih =>
      rcases hins : LocalCLTable.insertMask sh t g fullMask with ⟨full, t'⟩
      have ht' := hP.insertMask fullMask_lt ht hins
      cases full with
      | true => simpa only [LocalCLTable.insertGroups, hins] using ht'
      | false => simpa only [LocalCLTable.insertGroups, hins] using ih ht'

theorem insertLengths (hP : Preserved sh P) {t : LocalCLTable} {e g n fuel : ℕ} {r : RangeResult}
    (ht : P t) (h : (LocalCLTable.insertLengths sh e fuel t g n).result = some r) : P r.table := by
  induction fuel generalizing t g n with
  | zero => simp [LocalCLTable.insertLengths] at h
  | succ fuel ih =>
      rw [LocalCLTable.insertLengths] at h
      by_cases hn : n = 0
      · rw [if_pos hn] at h
        obtain rfl := Option.some.inj h
        exact ht
      · rw [if_neg hn] at h
        rcases hins : LocalCLTable.insertLength sh t g (n &&& groupLenMax sh) with ⟨full, t'⟩
        have ht' := hP.insertLength ht hins
        simp only [hins] at h
        cases full with
        | true =>
            obtain rfl := Option.some.inj h
            exact ht'
        | false => exact ih ht' h

theorem rangeInsertGroups (hP : Preserved sh P) {t : LocalCLTable} {b e fuel : ℕ} {r : RangeResult}
    (ht : P t) (h : (LocalCLTable.rangeInsertGroups sh fuel t b e).result = some r) : P r.table := by
  simp only [LocalCLTable.rangeInsertGroups] at h
  split at h
  · obtain rfl := Option.some.inj h
    exact hP.insertGroups ht
  · exact hP.insertLengths ht h

theorem rangeInsertTail (hP : Preserved sh P) {t : LocalCLTable} {b e fuel : ℕ} {r : RangeResult}
    (ht : P t) (h : (LocalCLTable.rangeInsertTail sh fuel t b e).result = some r) : P r.table := by
  simp only [LocalCLTable.rangeInsertTail] at h
  split at h
  · rcases hins : LocalCLTable.insertMask sh t (e >>> groupSizeShift) (1 <<< (e &&& groupSizeMask))
      with ⟨full, t'⟩
    have ht' := hP.insertMask (one_shiftLeft_and_lt e) ht hins
    simp only [hins] at h
    cases full with
    | true =>
        obtain rfl := Option.some.inj h
        exact ht'
    | false => exact hP.rangeInsertGroups ht' h
  · exact hP.rangeInsertGroups ht h

theorem rangeInsert (hP : Preserved sh P) {t : LocalCLTable} {b e fuel : ℕ} {r : RangeResult}
    (ht : P t) (h : LocalCLTable.rangeInsert sh fuel t b e = some r) : P r.table := by
  simp only [LocalCLTable.rangeInsert, rangeInsertRun] at h
  split at h
  · split at h
    · rcases hins : LocalCLTable.insertMask sh t (b >>> groupSizeShift)
        ((fullMask <<< (b &&& groupSizeMask)) &&& fullMask &&& 1 <<< (e &&& groupSizeMask))
        with ⟨full, t'⟩
      have ht' := hP.insertMask (Nat.and_le_left.trans_lt (beginMask_lt _)) ht hins
      simp only [hins] at h
      cases full <;> obtain rfl := Option.some.inj h <;> exact ht'
    · rcases hins : LocalCLTable.insertMask sh t (b >>> groupSizeShift)
        ((fullMask <<< (b &&& groupSizeMask)) &&& fullMask) with ⟨full, t'⟩
      have ht' := hP.insertMask (beginMask_lt _) ht hins
      simp only [hins] at h
      cases full with
      | true =>
          obtain rfl := Option.some.inj h
          exact ht'
      | false => exact hP.rangeInsertTail ht' h
  · exact hP.rangeInsertTail ht h

/-- What both inserts preserve holds of every reachable table, once it holds of the empty one. -/
theorem reachable (hP : Preserved sh P) (hempty : P empty) {t : LocalCLTable}
    (ht : Reachable sh t) : P t := by
  induction ht with
  | clear_table => exact hempty
  | insert _ h ih => exact hP.insertMask (one_shiftLeft_and_lt _) ih h
  | range_insert _ _ h ih => exact hP.rangeInsert ih h

end Preserved

/-- Every mask entry has zero padding; nothing is said of the length entries. -/
def Padded (sh : ℕ) (t : LocalCLTable) : Prop :=
  ∀ k, isLengthBased (t k) = false → t k < 2 ^ (groupIndexShift sh + 16)

theorem isLengthBased_or_typeMask (x : ℕ) : isLengthBased (x ||| typeMask) = true := by
  rw [isLengthBased_eq, typeMask_eq, Nat.testBit_or, Nat.testBit_two_pow]
  simp

theorem isLengthBased_tryCoalesce {i g n len : ℕ} (h : tryCoalesce sh i g n len ≠ 0) :
    isLengthBased (tryCoalesce sh i g n len) = true := by
  unfold tryCoalesce at h ⊢
  dsimp only at h ⊢
  split at h
  · rw [if_pos ‹_›]
    exact isLengthBased_or_typeMask _
  · exact absurd rfl h

/-- One slot of the scan empties at most that slot, and leaves a length entry to be inserted. -/
private theorem Scan.visit_table {sc : Scan} {g len i : ℕ} (hentry : isLengthBased sc.entry = true) :
    (∀ k, (Scan.visit sh g len sc i).table k = sc.table k ∨
      (Scan.visit sh g len sc i).table k = 0) ∧
      isLengthBased (Scan.visit sh g len sc i).entry = true := by
  have hclear : ∀ k, update sc.table i 0 k = sc.table k ∨ update sc.table i 0 k = 0 := by
    intro k
    by_cases hk : k = i
    · exact .inr (by rw [hk, update_self])
    · exact .inl (update_of_ne hk _ _)
  simp only [Scan.visit]
  split
  · exact ⟨fun _ => .inl rfl, hentry⟩
  · split
    · split
      · exact ⟨hclear, isLengthBased_tryCoalesce ‹_›⟩
      · exact ⟨fun _ => .inl rfl, hentry⟩
    · split
      · exact ⟨hclear, hentry⟩
      · exact ⟨fun _ => .inl rfl, hentry⟩

theorem scanSlots_table (t : LocalCLTable) (g len n : ℕ) :
    (∀ k, (scanSlots sh t g len n).table k = t k ∨ (scanSlots sh t g len n).table k = 0) ∧
      isLengthBased (scanSlots sh t g len n).entry = true := by
  induction n with
  | zero => simp [scanSlots, isLengthBased_or_typeMask]
  | succ n ih =>
      have hstep : scanSlots sh t g len (n + 1) =
          Scan.visit sh g len (scanSlots sh t g len n) n := by
        simp [scanSlots, List.range_succ]
      obtain ⟨htable, hentry⟩ := ih
      obtain ⟨hvisit, hentry'⟩ := @Scan.visit_table sh _ g len n hentry
      rw [hstep]
      refine ⟨fun k => ?_, hentry'⟩
      rcases hvisit k with heq | h0
      · rw [heq]
        exact htable k
      · exact .inr h0

theorem preserved_padded (sh : ℕ) : Preserved sh (Padded sh) where
  insertMask {t t' g m full} hm ht h := by
    cases full with
    | true =>
        rw [insertMask_full h]
        exact ht
    | false =>
        obtain ⟨k, -, v, hv, hidx, rfl⟩ := insertMask_ok h
        intro j hj
        by_cases hjk : j = k
        · subst hjk
          rw [update_self, shl64_mask hm] at hj ⊢
          rw [isLengthBased_or_mask hm] at hj
          have hvlt : v < 2 ^ (groupIndexShift sh + 16) := by
            rcases hv with rfl | ⟨rfl, -⟩
            · exact ht j hj
            · rw [← hidx, getIndex_eq]
              exact (Nat.mod_lt _ (Nat.two_pow_pos _)).trans_le
                (Nat.pow_le_pow_right (by omega) (by omega))
          exact or_mask_lt hvlt hm
        · rw [update_of_ne hjk] at hj ⊢
          exact ht j hj
  insertLength {t t' g len full} ht h := by
    obtain ⟨htable, hentry⟩ := @scanSlots_table sh t g len localClTableSize
    have hpad : ∀ k, isLengthBased ((scanSlots sh t g len localClTableSize).table k) = false →
        (scanSlots sh t g len localClTableSize).table k < 2 ^ (groupIndexShift sh + 16) := by
      intro k hk
      rcases htable k with heq | h0
      · rw [heq] at hk ⊢
        exact ht k hk
      · rw [h0]
        exact Nat.two_pow_pos _
    unfold insertLength at h
    dsimp only at h
    split at h
    · rename_i pos _
      obtain ⟨-, rfl⟩ := Prod.mk.inj h
      intro k hk
      by_cases hkp : k = pos
      · rw [hkp, update_self, hentry] at hk
        exact absurd hk (by simp)
      · rw [update_of_ne hkp] at hk ⊢
        exact hpad k hk
    · obtain ⟨-, rfl⟩ := Prod.mk.inj h
      exact hpad

theorem Reachable.padded {t : LocalCLTable} (ht : Reachable sh t) : Padded sh t :=
  (preserved_padded sh).reachable (fun _ _ => Nat.two_pow_pos _) ht

/-- The table that holds one length entry, for the four groups from 0. -/
def fourGroups : LocalCLTable := update empty 0 (0 ||| shl64 4 (groupIndexShift 0) ||| typeMask)

theorem scanSlots_empty (g len n : ℕ) :
    scanSlots sh empty g len (n + 1) =
      ⟨empty, g ||| shl64 len (groupIndexShift sh) ||| typeMask, some 0⟩ := by
  induction n with
  | zero => simp [scanSlots, Scan.visit, Scan.claim, empty]
  | succ n ih =>
      have hstep : scanSlots sh empty g len (n + 1 + 1) =
          Scan.visit sh g len (scanSlots sh empty g len (n + 1)) (n + 1) := by
        simp [scanSlots, List.range_succ]
      rw [hstep, ih]
      simp [Scan.visit, Scan.claim, empty]

theorem insertLength_of_empty (sh g len : ℕ) :
    insertLength sh empty g len =
      (false, update empty 0 (g ||| shl64 len (groupIndexShift sh) ||| typeMask)) := by
  have hscan : scanSlots sh empty g len localClTableSize =
      ⟨empty, g ||| shl64 len (groupIndexShift sh) ||| typeMask, some 0⟩ := scanSlots_empty g len 63
  simp only [insertLength, hscan]

theorem rangeInsert_fourGroups : rangeInsert 0 2 empty 0 64 = some ⟨false, fourGroups, 64, 64⟩ := by
  have hstart : rangeInsert 0 2 empty 0 64 = (insertLengths 0 64 2 empty 0 4).result := rfl
  have hchunk : 4 &&& groupLenMax 0 = 4 := by decide
  have hins := insertLength_of_empty 0 0 4
  simp only [hstart, insertLengths, hchunk, hins]
  rfl

theorem reachable_fourGroups : Reachable 0 fourGroups :=
  .range_insert .clear_table (by decide) rangeInsert_fourGroups

/-! ## `insert` -/

/-- Probe `i` of group `g` finds the group, or an empty slot. -/
def Hit (sh : ℕ) (t : LocalCLTable) (g i : ℕ) : Prop :=
  getIndex sh (probeValue t ((g + i) &&& (localClTableSize - 1)) g) = g

/-- Slot `k` is the first one in which the probe loop of `insert_mask` finds group `g`, or nothing. -/
def FirstHit (sh : ℕ) (t : LocalCLTable) (g k : ℕ) : Prop :=
  ∃ i < localClTableSearchIters, k = (g + i) &&& (localClTableSize - 1) ∧ Hit sh t g i ∧
    ∀ j < i, ¬ Hit sh t g j

private theorem insertMaskFrom_cases (t : LocalCLTable) (g m i n : ℕ) :
    (∃ j < n, Hit sh t g (i + j) ∧ (∀ l < j, ¬ Hit sh t g (i + l)) ∧
      insertMaskFrom sh t g m i n =
        (false, update t ((g + (i + j)) &&& (localClTableSize - 1))
          (probeValue t ((g + (i + j)) &&& (localClTableSize - 1)) g |||
            shl64 m (groupIndexShift sh)))) ∨
    ((∀ j < n, ¬ Hit sh t g (i + j)) ∧ insertMaskFrom sh t g m i n = (true, t)) := by
  induction n generalizing i with
  | zero => exact .inr ⟨by simp, rfl⟩
  | succ n ih =>
      by_cases hhit : Hit sh t g i
      · refine .inl ⟨0, by omega, hhit, by simp, ?_⟩
        rw [insertMaskFrom]
        exact if_pos hhit
      · have hnext : insertMaskFrom sh t g m i (n + 1) = insertMaskFrom sh t g m (i + 1) n := by
          rw [insertMaskFrom]
          exact if_neg hhit
        have hmiss : ∀ {j : ℕ}, (∀ l < j, ¬ Hit sh t g (i + 1 + l)) →
            ∀ l < j + 1, ¬ Hit sh t g (i + l) := by
          intro j hj l hl
          cases l with
          | zero => exact hhit
          | succ l =>
              have hprev := hj l (by omega)
              rwa [show i + 1 + l = i + (l + 1) by omega] at hprev
        rw [hnext]
        rcases ih (i + 1) with ⟨j, hj, hjhit, hjmiss, hins⟩ | ⟨hall, hins⟩
        · rw [show i + 1 + j = i + (j + 1) by omega] at hjhit hins
          exact .inl ⟨j + 1, by omega, hjhit, hmiss hjmiss, hins⟩
        · exact .inr ⟨hmiss hall, hins⟩

/-- `insert_mask` by what the probe loop finds. -/
theorem insertMask_cases (sh : ℕ) (t : LocalCLTable) (g m : ℕ) :
    (∃ k, FirstHit sh t g k ∧ insertMask sh t g m =
      (false, update t k (probeValue t k g ||| shl64 m (groupIndexShift sh)))) ∨
    ((∀ k, ¬ FirstHit sh t g k) ∧ insertMask sh t g m = (true, t)) := by
  have hcases := @insertMaskFrom_cases sh t g m 0 localClTableSearchIters
  simp only [Nat.zero_add] at hcases
  refine hcases.imp ?_ ?_
  · rintro ⟨j, hj, hhit, hmiss, hins⟩
    exact ⟨_, ⟨j, hj, rfl, hhit, hmiss⟩, hins⟩
  · rintro ⟨hall, hins⟩
    refine ⟨?_, hins⟩
    rintro k ⟨i, hi, -, hhit, -⟩
    exact hall i hi hhit

theorem FirstHit.unique {t : LocalCLTable} {g k k' : ℕ} (h : FirstHit sh t g k)
    (h' : FirstHit sh t g k') : k = k' := by
  obtain ⟨i, -, rfl, hi, hmiss⟩ := h
  obtain ⟨i', -, rfl, hi', hmiss'⟩ := h'
  rcases Nat.lt_trichotomy i i' with hlt | rfl | hlt
  · exact absurd hi (hmiss' i hlt)
  · rfl
  · exact absurd hi' (hmiss i' hlt)

theorem FirstHit.slot_lt {t : LocalCLTable} {g k : ℕ} (h : FirstHit sh t g k) :
    k < localClTableSize := by
  obtain ⟨i, -, rfl, -⟩ := h
  exact probe_lt _

theorem FirstHit.getIndex_eq {t : LocalCLTable} {g k : ℕ} (h : FirstHit sh t g k) :
    getIndex sh (probeValue t k g) = g := by
  obtain ⟨i, -, rfl, hi, -⟩ := h
  exact hi

/-- What a table covers once slot `k` is overwritten. -/
theorem covered_update_iff {t : LocalCLTable} {k v cl : ℕ} (hk : k < localClTableSize) :
    Covered sh (update t k v) cl ↔
      Covers sh v cl ∨ ∃ j < localClTableSize, j ≠ k ∧ Covers sh (t j) cl := by
  constructor
  · rintro ⟨j, hj, hc⟩
    by_cases hjk : j = k
    · rw [hjk, update_self] at hc
      exact .inl hc
    · rw [update_of_ne hjk] at hc
      exact .inr ⟨j, hj, hjk, hc⟩
  · rintro (hc | ⟨j, hj, hjk, hc⟩)
    · exact ⟨k, hk, by rwa [update_self]⟩
    · exact ⟨j, hj, by rwa [update_of_ne hjk]⟩

/-- What a table covers, with slot `k` apart from the others. -/
theorem covered_iff_slot {t : LocalCLTable} {k : ℕ} (hk : k < localClTableSize) (cl : ℕ) :
    Covered sh t cl ↔ Covers sh (t k) cl ∨ ∃ j < localClTableSize, j ≠ k ∧ Covers sh (t j) cl := by
  conv_lhs => rw [← update_eq_self k t]
  exact covered_update_iff hk

/-- `insert(cl)` adds the line and nothing else, and leaves a full table alone. -/
def InsertExact (sh : ℕ) (t : LocalCLTable) (cl : ℕ) : Prop :=
  match insert sh t cl with
  | (false, t') => ∀ cl', Covered sh t' cl' ↔ Covered sh t cl' ∨ cl' = cl
  | (true, t') => t' = t

/-- Line `cl` fits into the slot the probe finds for it. A length entry of that group takes the bit of
the line into its length `n`, so the bit must be set already, or every line of the groups by which the
entry grows must be covered or be the line itself. -/
def LineFits (sh : ℕ) (t : LocalCLTable) (cl : ℕ) : Prop :=
  ∀ k, FirstHit sh t (cl >>> groupSizeShift) k → isLengthBased (t k) = true →
    (getLength sh (t k)).testBit (cl &&& groupSizeMask) = true ∨
    ∀ cl', groupSize * (cl >>> groupSizeShift + getLength sh (t k)) ≤ cl' →
      cl' < groupSize * (cl >>> groupSizeShift + getLength sh (t k) +
        1 <<< (cl &&& groupSizeMask)) → Covered sh t cl' ∨ cl' = cl

theorem isLengthBased_getIndex {v : ℕ} : isLengthBased (getIndex sh v) = false := by
  have hlt : getIndex sh v < 2 ^ groupIndexShift sh := by
    rw [ClGroup.getIndex_eq]
    exact Nat.mod_lt _ (Nat.two_pow_pos _)
  have hpow : 2 ^ groupIndexShift sh ≤ 2 ^ (groupIndexShift sh + 16) :=
    Nat.pow_le_pow_right (by omega) (by omega)
  exact not_isLengthBased_of_lt (hlt.trans_le hpow)

/-- The bare index of a group covers nothing: its mask is empty. -/
theorem not_covers_getIndex {v cl : ℕ} : ¬ Covers sh (getIndex sh v) cl := by
  rw [covers_mask sh isLengthBased_getIndex, getMask16, Nat.shiftRight_eq_div_pow,
    ClGroup.getIndex_eq, Nat.div_eq_of_lt (Nat.mod_lt _ (Nat.two_pow_pos _))]
  simp

/-- At a slot of the group, the word that `insert_mask` extends is of the slot's kind and covers what
the slot covers. -/
theorem FirstHit.probeValue {t : LocalCLTable} {g k : ℕ} (h : FirstHit sh t g k) :
    isLengthBased (probeValue t k g) = isLengthBased (t k) ∧
      ∀ cl, Covers sh (LocalCLTable.probeValue t k g) cl ↔ Covers sh (t k) cl := by
  have hidx := h.getIndex_eq
  rcases probeValue_cases t k g with heq | ⟨heq, h0⟩
  · rw [heq]
    exact ⟨rfl, fun _ => Iff.rfl⟩
  · rw [heq] at hidx ⊢
    rw [h0, ← hidx, isLengthBased_getIndex, isLengthBased_zero]
    exact ⟨rfl, fun cl => iff_of_false not_covers_getIndex (not_covers_zero sh cl)⟩

/-- A line found in, or put into, a mask entry. -/
theorem insertExact_of_mask {t : LocalCLTable} {cl k : ℕ}
    (hk : FirstHit sh t (cl >>> groupSizeShift) k) (hmask : isLengthBased (t k) = false)
    (hins : insert sh t cl = (false, update t k (probeValue t k (cl >>> groupSizeShift) |||
      shl64 (1 <<< (cl &&& groupSizeMask)) (groupIndexShift sh)))) :
    InsertExact sh t cl := by
  have hm := one_shiftLeft_and_lt cl
  obtain ⟨hkind, hcov⟩ := hk.probeValue
  rw [InsertExact, hins]
  intro cl'
  rw [covered_update_iff hk.slot_lt, shl64_mask hm, covers_or_mask_iff hm (hkind.trans hmask),
    hk.getIndex_eq, maskLines_insert, hcov]
  rw [covered_iff_slot hk.slot_lt, or_right_comm]

/-- The groups from `g` with length `n`, next to other lines, and what setting bit `p` of the length
adds to them. -/
private theorem growth_exact_iff {g n p cl : ℕ} {others : ℕ → Prop}
    (hself : 16 * g ≤ cl ∧ cl < 16 * (g + 1)) :
    (∀ cl', (16 * g ≤ cl' ∧ cl' < 16 * (g + (n ||| 2 ^ p))) ∨ others cl' ↔
      ((16 * g ≤ cl' ∧ cl' < 16 * (g + n)) ∨ others cl') ∨ cl' = cl) ↔
    n.testBit p = true ∨ ∀ cl', 16 * (g + n) ≤ cl' → cl' < 16 * (g + n + 2 ^ p) →
      ((16 * g ≤ cl' ∧ cl' < 16 * (g + n)) ∨ others cl') ∨ cl' = cl := by
  have hpos := Nat.two_pow_pos p
  cases hbit : n.testBit p with
  | true =>
      have hn := Nat.ge_two_pow_of_testBit hbit
      rw [Bits.or_two_pow_of_testBit hbit]
      refine iff_of_true (fun cl' => ⟨.inl, ?_⟩) (.inl rfl)
      rintro (hc | rfl)
      · exact hc
      · exact .inl ⟨hself.1, by omega⟩
  | false =>
      rw [Bits.or_two_pow_of_not_testBit hbit]
      generalize 2 ^ p = d at hpos
      constructor
      · intro h
        right
        intro cl' hlo hhi
        exact (h cl').mp (.inl ⟨by omega, by omega⟩)
      · intro h cl'
        have hgrow := h.resolve_left (by simp) cl'
        constructor
        · rintro (⟨hlo, hhi⟩ | hc)
          · by_cases hold : cl' < 16 * (g + n)
            · exact .inl (.inl ⟨hlo, hold⟩)
            · exact hgrow (by omega) (by omega)
          · exact .inl (.inr hc)
        · rintro ((⟨hlo, hhi⟩ | hc) | rfl)
          · exact .inl ⟨hlo, by omega⟩
          · exact .inr hc
          · exact .inl ⟨hself.1, by omega⟩

/-- A line whose group is found in a length entry. -/
theorem insertExact_iff_of_length {t : LocalCLTable} {cl k : ℕ}
    (hk : FirstHit sh t (cl >>> groupSizeShift) k) (hlen : isLengthBased (t k) = true)
    (hins : insert sh t cl = (false, update t k (probeValue t k (cl >>> groupSizeShift) |||
      shl64 (1 <<< (cl &&& groupSizeMask)) (groupIndexShift sh)))) :
    InsertExact sh t cl ↔ (getLength sh (t k)).testBit (cl &&& groupSizeMask) = true ∨
      ∀ cl', groupSize * (cl >>> groupSizeShift + getLength sh (t k)) ≤ cl' →
        cl' < groupSize * (cl >>> groupSizeShift + getLength sh (t k) +
          1 <<< (cl &&& groupSizeMask)) → Covered sh t cl' ∨ cl' = cl := by
  have hm := one_shiftLeft_and_lt cl
  have hword : probeValue t k (cl >>> groupSizeShift) = t k := by
    rcases probeValue_cases t k (cl >>> groupSizeShift) with heq | ⟨-, h0⟩
    · exact heq
    · rw [h0, isLengthBased_zero] at hlen
      exact absurd hlen (by simp)
  have hidx := hk.getIndex_eq
  have hself : 16 * (cl >>> groupSizeShift) ≤ cl ∧ cl < 16 * (cl >>> groupSizeShift + 1) := by
    rw [shiftRight_groupSizeShift]
    omega
  rw [hword] at hidx hins
  rw [shl64_mask hm] at hins
  have hnew : ∀ cl', Covers sh (t k ||| (1 <<< (cl &&& groupSizeMask)) <<< groupIndexShift sh) cl' ↔
      groupSize * (cl >>> groupSizeShift) ≤ cl' ∧ cl' < groupSize * (cl >>> groupSizeShift +
        (getLength sh (t k) ||| 1 <<< (cl &&& groupSizeMask))) := by
    intro cl'
    rw [covers_length sh ((isLengthBased_or_mask hm).trans hlen), getIndex_or_mask,
      getLength_or_mask hm, hidx]
  rw [InsertExact, hins]
  simp only [covered_update_iff hk.slot_lt, covered_iff_slot (t := t) hk.slot_lt,
    covers_length sh hlen, hidx, hnew]
  rw [Nat.one_shiftLeft]
  exact growth_exact_iff hself

/-- A point insert is exact if and only if the line fits into the slot the probe finds. -/
theorem insert_exact_iff (sh : ℕ) (t : LocalCLTable) (cl : ℕ) :
    InsertExact sh t cl ↔ LineFits sh t cl := by
  rcases insertMask_cases sh t (cl >>> groupSizeShift) (1 <<< (cl &&& groupSizeMask)) with
    ⟨k, hk, hins⟩ | ⟨hnone, hins⟩
  · cases hkind : isLengthBased (t k) with
    | false =>
        refine iff_of_true (insertExact_of_mask hk hkind hins) fun k' hk' hlen => ?_
        rw [hk'.unique hk, hkind] at hlen
        exact absurd hlen (by simp)
    | true =>
        rw [insertExact_iff_of_length hk hkind hins]
        constructor
        · intro h k' hk' _
          rwa [hk'.unique hk]
        · exact fun h => h k hk hkind
  · have hfull : insert sh t cl = (true, t) := hins
    refine iff_of_true ?_ fun k hk => absurd hk (hnone k)
    rw [InsertExact, hfull]

/-- Line 3 is in the first of the four groups: its bit makes twelve groups of them. -/
theorem insert_fourGroups_grows :
    Reachable 0 fourGroups ∧ 3 < 2 ^ 42 ∧ ¬ InsertExact 0 fourGroups 3 := by
  refine ⟨reachable_fourGroups, by decide, fun h => ?_⟩
  have hins : insert 0 fourGroups 3 =
      (false, update fourGroups 0 (fourGroups 0 ||| shl64 8 (groupIndexShift 0))) := rfl
  have hnew : Covered 0 (update fourGroups 0 (fourGroups 0 ||| shl64 8 (groupIndexShift 0))) 64 :=
    ⟨0, by decide, by decide⟩
  rw [InsertExact, hins] at h
  rcases (h 64).mp hnew with ⟨k, -, hc⟩ | heq
  · by_cases hk0 : k = 0
    · subst hk0
      exact absurd hc (by decide)
    · rw [fourGroups, update_of_ne hk0] at hc
      exact not_covers_zero 0 64 hc
  · exact absurd heq (by decide)

end LocalCLTable

end RACoherence
