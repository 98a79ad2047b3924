import RACoherence.LocalCLTable.Coverage

/-!
# What one `range_insert` call adds

`RangeLines b e` are the lines that a complete `range_insert(b, e)` puts into the table. A call that
runs into a full table stops early and leaves `begin` and `end` so that the lines still to be added
are `RangeLines` of the new bounds; `RangeSpec` says so for both outcomes at once. Only point inserts
run when fewer than `GROUP_LEN_MIN` full groups lie in the range, and they never lose a line; a
length insert is exact on a table of mask entries. A range of `2 ^ 25` full groups or more never
completes: the chunk `len & GROUP_LEN_MAX` is eventually zero.
-/

namespace RACoherence

open ClGroup Function

namespace LocalCLTable

variable {sh : ℕ}

theorem shiftRight_groupSizeShift (x : ℕ) : x >>> groupSizeShift = x / 16 :=
  Nat.shiftRight_eq_div_pow x 4

theorem shiftLeft_groupSizeShift (x : ℕ) : x <<< groupSizeShift = x * 16 :=
  Nat.shiftLeft_eq x 4

theorem and_groupSizeMask (x : ℕ) : x &&& groupSizeMask = x % 16 :=
  Nat.and_two_pow_sub_one_eq_mod x 4

/-! ## The masks of a range -/

theorem maskLines_fullMask {g cl : ℕ} :
    MaskLines g fullMask cl ↔ 16 * g ≤ cl ∧ cl < 16 * (g + 1) := by
  have hmask : fullMask = 2 ^ 16 - 1 := rfl
  simp only [MaskLines, hmask, Nat.testBit_two_pow_sub_one, decide_eq_true_eq, groupSize_eq]
  constructor
  · rintro ⟨p, hp, rfl⟩
    omega
  · rintro ⟨h₁, h₂⟩
    exact ⟨cl - 16 * g, by omega, by omega⟩

theorem maskLines_beginMask {g p cl : ℕ} :
    MaskLines g ((fullMask <<< p) &&& fullMask) cl ↔ 16 * g + p ≤ cl ∧ cl < 16 * (g + 1) := by
  have hmask : fullMask = 2 ^ 16 - 1 := rfl
  simp only [MaskLines, hmask, Nat.testBit_and, Nat.testBit_shiftLeft, Nat.testBit_two_pow_sub_one,
    Bool.and_eq_true, decide_eq_true_eq, groupSize_eq]
  constructor
  · rintro ⟨q, hq, rfl⟩
    omega
  · rintro ⟨h₁, h₂⟩
    exact ⟨cl - 16 * g, by omega, by omega⟩

/-- Masking the head mask with the single end bit leaves the end bit. -/
theorem beginMask_and_endMask {p q : ℕ} (hpq : p ≤ q) (hq : q < 16) :
    (fullMask <<< p) &&& fullMask &&& 1 <<< q = 1 <<< q := by
  have hmask : fullMask = 2 ^ 16 - 1 := rfl
  refine Nat.eq_of_testBit_eq fun i => ?_
  simp only [hmask, Nat.testBit_and, Nat.testBit_shiftLeft, Nat.testBit_two_pow_sub_one,
    Nat.one_shiftLeft, Nat.testBit_two_pow]
  by_cases hi : q = i
  · subst hi
    simp only [decide_true, Bool.and_true, Bool.and_eq_true, decide_eq_true_eq]
    omega
  · simp [hi]

theorem fullMask_lt : fullMask < 2 ^ 16 := by decide

theorem fullMask_ne_zero : fullMask ≠ 0 := by decide

theorem beginMask_lt (p : ℕ) : (fullMask <<< p) &&& fullMask < 2 ^ 16 :=
  Nat.and_le_right.trans_lt fullMask_lt

theorem beginMask_ne_zero {p : ℕ} (hp : p < 16) : (fullMask <<< p) &&& fullMask ≠ 0 := by
  intro h0
  obtain ⟨q, hq, -⟩ := (@maskLines_beginMask 0 p p).mpr ⟨by omega, by omega⟩
  rw [h0, Nat.zero_testBit] at hq
  cases hq

/-! ## The lines of a range -/

/-- The lines a complete `range_insert(b, e)` adds: everything from `b` up to the group of `e`, and
of that group only the line `e` itself, unless it is the first of its group. -/
def RangeLines (b e cl : ℕ) : Prop := b ≤ cl ∧ (cl < 16 * (e / 16) ∨ (cl = e ∧ e % 16 ≠ 0))

/-- Full groups between the ends of the range. -/
def fullGroups (b e : ℕ) : ℕ := e / 16 - (b + 15) / 16

/-- The inserts a range still needs: head mask, tail mask, full groups. -/
def pending (b e : ℕ) : ℕ :=
  (if b % 16 ≠ 0 then 1 else 0) + (if e % 16 ≠ 0 then 1 else 0) + fullGroups b e

/-- The lines that an interrupted call still has to add. -/
def RangeResult.Rest (r : RangeResult) (cl : ℕ) : Prop :=
  r.full = true ∧ RangeLines r.begin r.end_ cl

/-! ## The inserts of one call -/

/-- A mask of lines of one group. -/
structure GroupMask where
  group : ℕ
  mask : ℕ

/-- The head mask of `range_insert(b, e)`. -/
def headMask (b e : ℕ) : List GroupMask :=
  if b % 16 ≠ 0 ∧ b / 16 ≠ e / 16 then [⟨b / 16, (fullMask <<< (b % 16)) &&& fullMask⟩] else []

/-- The tail mask, which is also that of a range in one group. -/
def tailMask (e : ℕ) : List GroupMask := if e % 16 ≠ 0 then [⟨e / 16, 1 <<< (e % 16)⟩] else []

/-- The masks of the full groups, unless they are made a length entry. -/
def groupMasks (b e : ℕ) : List GroupMask :=
  if fullGroups b e < groupLenMin then
    (List.range' ((b + 15) / 16) (fullGroups b e)).map fun g => ⟨g, fullMask⟩
  else []

/-- The masks that `range_insert(b, e)` inserts, in order. -/
def rangeMasks (b e : ℕ) : List GroupMask := headMask b e ++ tailMask e ++ groupMasks b e

theorem headMask_of_aligned {b : ℕ} (e : ℕ) (hb : b % 16 = 0) : headMask b e = [] :=
  if_neg fun h => h.1 hb

theorem tailMask_of_aligned {e : ℕ} (he : e % 16 = 0) : tailMask e = [] :=
  if_neg (not_not.mpr he)

theorem groupMasks_congr {b b' e e' : ℕ} (hstart : (b' + 15) / 16 = (b + 15) / 16)
    (hgroups : fullGroups b' e' = fullGroups b e) : groupMasks b' e' = groupMasks b e := by
  rw [groupMasks, groupMasks, hstart, hgroups]

theorem mem_rangeMasks_tail {b e : ℕ} (he : e % 16 ≠ 0) : ⟨e / 16, 1 <<< (e % 16)⟩ ∈ rangeMasks b e := by
  rw [rangeMasks, tailMask, if_pos he]
  simp

theorem group_of_mem_tailMask {e : ℕ} {p : GroupMask} (h : p ∈ tailMask e) : p.group = e / 16 := by
  rw [tailMask] at h
  split at h
  · rw [List.mem_singleton.mp h]
  · cases h

theorem group_of_mem_groupMasks {b e : ℕ} {p : GroupMask} (h : p ∈ groupMasks b e) :
    (b + 15) / 16 ≤ p.group ∧ p.group < e / 16 := by
  rw [groupMasks] at h
  split at h
  · obtain ⟨g, hg, rfl⟩ := List.mem_map.mp h
    obtain ⟨hle, hlt⟩ := List.mem_range'_1.mp hg
    simp only [fullGroups] at hlt
    refine ⟨hle, ?_⟩
    show g < e / 16
    omega
  · cases h

/-- One call of `range_insert`, insert by insert: it stops at the first mask for which the table is full,
and makes `GROUP_LEN_MIN` full groups or more one length entry at the end. -/
inductive RangeInserts (sh : ℕ) : LocalCLTable → List GroupMask → ℕ → ℕ → RangeResult → Prop
  | done {t : LocalCLTable} {g e : ℕ} : RangeInserts sh t [] (16 * g) (16 * g) ⟨false, t, e, e⟩
  | full {t : LocalCLTable} {p : GroupMask} {ps : List GroupMask} {b e : ℕ} (hbe : b ≤ e)
      (hg : p.group < 2 ^ groupIndexShift sh) (hins : insertMask sh t p.group p.mask = (true, t)) :
      RangeInserts sh t (p :: ps) b e ⟨true, t, b, e⟩
  | mask {t t' : LocalCLTable} {p : GroupMask} {ps : List GroupMask} {b e b' e' : ℕ} {r : RangeResult}
      (hm : p.mask < 2 ^ 16) (hm0 : p.mask ≠ 0) (hg : p.group < 2 ^ groupIndexShift sh)
      (hins : insertMask sh t p.group p.mask = (false, t'))
      (hlines : ∀ cl, RangeLines b e cl ↔ MaskLines p.group p.mask cl ∨ RangeLines b' e' cl) (he : e' ≤ e)
      (hpending : pending b' e' < pending b e) (hgroups : fullGroups b' e' ≤ fullGroups b e)
      (hlong : groupLenMin ≤ fullGroups b e → (b' + 15) / 16 = (b + 15) / 16 ∧
        fullGroups b' e' = fullGroups b e ∧
        ¬ ((b + 15) / 16 ≤ p.group ∧ p.group < (b + 15) / 16 + fullGroups b e))
      (hother : ∀ q ∈ ps, q.group ≠ p.group) (hrest : RangeInserts sh t' ps b' e' r) :
      RangeInserts sh t (p :: ps) b e r
  | length {t t' : LocalCLTable} {g len : ℕ} {full : Bool} (hmin : groupLenMin ≤ len)
      (hmax : len ≤ groupLenMax sh) (hg : g + len ≤ 2 ^ groupIndexShift sh)
      (hins : insertLength sh t g len = (full, t')) :
      RangeInserts sh t [] (16 * g) (16 * (g + len))
        ⟨full, t', if full then 16 * g else 16 * (g + len), 16 * (g + len)⟩

theorem groupLenMin_le_groupLenMax (sh : ℕ) : groupLenMin ≤ groupLenMax sh := by
  have hle := groupIndexShift_le sh
  have hpow : 2 ^ 3 ≤ 2 ^ (63 - groupIndexShift sh) := Nat.pow_le_pow_right (by omega) (by omega)
  rw [groupLenMin, groupLenMax, Nat.one_shiftLeft]
  omega

/-- Fewer than `GROUP_LEN_MIN` full groups, as masks. -/
private theorem rangeInserts_groups {t : LocalCLTable} {bi n : ℕ} (hn : bi + n ≤ 2 ^ groupIndexShift sh)
    (hmin : n < groupLenMin) :
    RangeInserts sh t ((List.range' bi n).map fun g => ⟨g, fullMask⟩) (16 * bi) (16 * (bi + n))
      (insertGroups sh t (16 * (bi + n)) bi n) := by
  induction n generalizing t bi with
  | zero => exact .done
  | succ n ih =>
      have hsucc : 16 * (bi + (n + 1)) = 16 * (bi + 1 + n) := by ring
      rcases hins : insertMask sh t bi fullMask with ⟨full, t'⟩
      cases full with
      | true =>
          obtain rfl := insertMask_full hins
          have heq : insertGroups sh t' (16 * (bi + (n + 1))) bi (n + 1) =
              ⟨true, t', 16 * bi, 16 * (bi + (n + 1))⟩ := by
            simp only [insertGroups, hins, shiftLeft_groupSizeShift, Nat.mul_comm]
          rw [heq]
          exact .full (by omega) (show bi < _ by omega) hins
      | false =>
          have heq : insertGroups sh t (16 * (bi + (n + 1))) bi (n + 1) =
              insertGroups sh t' (16 * (bi + 1 + n)) (bi + 1) n := by
            simp only [insertGroups, hins, hsucc]
          rw [heq, hsucc, List.range'_succ, List.map_cons]
          refine .mask fullMask_lt fullMask_ne_zero (show bi < _ by omega) hins ?_ le_rfl ?_ ?_ ?_ ?_
            (ih (by omega) (by omega))
          · intro cl
            simp only [RangeLines, maskLines_fullMask]
            omega
          · simp only [pending, fullGroups]
            rw [if_neg (by omega), if_neg (by omega), if_neg (by omega)]
            omega
          · simp only [fullGroups]
            omega
          · intro hlong
            simp only [fullGroups] at hlong
            omega
          · intro q hq
            obtain ⟨g, hg, rfl⟩ := List.mem_map.mp hq
            have hlt := (List.mem_range'_1.mp hg).1
            show g ≠ bi
            omega

/-- A range of between `GROUP_LEN_MIN` and `GROUP_LEN_MAX` full groups is one length entry. -/
private theorem rangeInserts_length {t : LocalCLTable} {bi n : ℕ} (fuel : ℕ)
    (hn : bi + n ≤ 2 ^ groupIndexShift sh) (hmin : groupLenMin ≤ n) (hlen : n ≤ groupLenMax sh) :
    ∃ r, (insertLengths sh (16 * (bi + n)) (fuel + 2) t bi n).result = some r ∧
      RangeInserts sh t [] (16 * bi) (16 * (bi + n)) r := by
  have hpos : n ≠ 0 := by
    simp only [groupLenMin] at hmin
    omega
  have hchunk : n &&& groupLenMax sh = n := by
    rw [groupLenMax, Nat.one_shiftLeft] at hlen ⊢
    have hpow := Nat.two_pow_pos (63 - groupIndexShift sh)
    rw [Nat.and_two_pow_sub_one_eq_mod, Nat.mod_eq_of_lt (by omega)]
  rcases hins : insertLength sh t bi n with ⟨full, t'⟩
  refine ⟨_, ?_, .length hmin hlen hn hins⟩
  rw [insertLengths, if_neg hpos]
  cases full with
  | true => simp only [hchunk, hins, shiftLeft_groupSizeShift, Nat.mul_comm bi 16, if_true]
  | false =>
      simp only [hchunk, hins, Nat.sub_self]
      rw [insertLengths, if_pos rfl]
      rfl

/-- The whole groups of a range. -/
private theorem rangeInserts_aligned (fuel : ℕ) {t : LocalCLTable} {b e : ℕ} (hbe : b ≤ e)
    (he : e / 16 < 2 ^ groupIndexShift sh) (hb0 : b % 16 = 0) (he0 : e % 16 = 0)
    (hlen : fullGroups b e ≤ groupLenMax sh) :
    ∃ r, (rangeInsertGroups sh (fuel + 2) t b e).result = some r ∧
      RangeInserts sh t (rangeMasks b e) b e r := by
  obtain ⟨bi, rfl⟩ : ∃ bi, b = 16 * bi := ⟨b / 16, by omega⟩
  obtain ⟨n, rfl⟩ : ∃ n, e = 16 * (bi + n) := ⟨e / 16 - bi, by omega⟩
  have hbi : (16 * bi) / 16 = bi := by omega
  have hceil : (16 * bi + 15) / 16 = bi := by omega
  have hsub : (16 * (bi + n)) / 16 - bi = n := by omega
  have hgroups : fullGroups (16 * bi) (16 * (bi + n)) = n := by
    simp only [fullGroups]
    omega
  rw [hgroups] at hlen
  simp only [rangeInsertGroups, shiftRight_groupSizeShift, hbi, hsub, rangeMasks, headMask_of_aligned _ hb0,
    tailMask_of_aligned he0, List.nil_append, groupMasks, hgroups, hceil]
  by_cases hmin : n < groupLenMin
  · rw [if_pos hmin, if_pos hmin]
    exact ⟨_, rfl, rangeInserts_groups (by omega) hmin⟩
  · rw [if_neg hmin, if_neg hmin]
    exact rangeInserts_length fuel (by omega) (by omega) hlen

/-- The range after its head. -/
private theorem rangeInserts_tail (fuel : ℕ) {t : LocalCLTable} {b e : ℕ} (hbe : b ≤ e)
    (he : e / 16 < 2 ^ groupIndexShift sh) (hb0 : b % 16 = 0) (hlen : fullGroups b e ≤ groupLenMax sh) :
    ∃ r, (rangeInsertTail sh (fuel + 2) t b e).result = some r ∧
      RangeInserts sh t (rangeMasks b e) b e r := by
  simp only [rangeInsertTail, and_groupSizeMask, shiftRight_groupSizeShift]
  by_cases he0 : e % 16 = 0
  · rw [if_neg (by omega)]
    exact rangeInserts_aligned fuel hbe he hb0 he0 hlen
  · rw [if_pos he0]
    have hgroups : fullGroups b (e - e % 16) = fullGroups b e := by
      simp only [fullGroups]
      omega
    have halign : (e - e % 16) % 16 = 0 := by omega
    have hmasks : rangeMasks b e = ⟨e / 16, 1 <<< (e % 16)⟩ :: rangeMasks b (e - e % 16) := by
      simp only [rangeMasks, headMask_of_aligned _ hb0, tailMask_of_aligned halign, List.nil_append,
        groupMasks_congr rfl hgroups]
      rw [tailMask, if_pos he0]
      rfl
    rw [hmasks]
    rcases hins : insertMask sh t (e / 16) (1 <<< (e % 16)) with ⟨full, t'⟩
    cases full with
    | true =>
        obtain rfl := insertMask_full hins
        exact ⟨_, rfl, .full hbe he hins⟩
    | false =>
        obtain ⟨r, hr, hrest⟩ := rangeInserts_aligned fuel (t := t') (b := b) (e := e - e % 16) (by omega)
          (by omega) hb0 (by omega) (hgroups.le.trans hlen)
        refine ⟨r, hr, .mask (and_groupSizeMask e ▸ one_shiftLeft_and_lt e)
          (and_groupSizeMask e ▸ one_shiftLeft_and_ne_zero e) he hins ?_ (Nat.sub_le _ _) ?_ hgroups.le
          ?_ ?_ hrest⟩
        · intro cl
          rw [maskLines_one_shiftLeft, groupSize_eq]
          simp only [RangeLines]
          omega
        · simp only [pending, hgroups]
          rw [if_pos he0, if_neg (not_not.mpr halign), if_neg (not_not.mpr hb0)]
          omega
        · intro _
          refine ⟨rfl, hgroups, ?_⟩
          simp only [fullGroups]
          omega
        · intro q hq
          rw [rangeMasks, headMask_of_aligned _ hb0, tailMask_of_aligned halign] at hq
          exact ((group_of_mem_groupMasks hq).2.trans_le (Nat.div_le_div_right (Nat.sub_le _ _))).ne

/-- What one call of `range_insert` does, unless the range has too many full groups. -/
theorem rangeInsert_inserts (fuel : ℕ) (t : LocalCLTable) {b e : ℕ} (hbe : b ≤ e)
    (he : e / 16 < 2 ^ groupIndexShift sh) (hlen : fullGroups b e ≤ groupLenMax sh) :
    ∃ r, rangeInsert sh (fuel + 2) t b e = some r ∧ RangeInserts sh t (rangeMasks b e) b e r := by
  simp only [rangeInsert, rangeInsertRun, and_groupSizeMask, shiftRight_groupSizeShift]
  by_cases hb0 : b % 16 = 0
  · rw [if_neg (by omega)]
    exact rangeInserts_tail fuel hbe he hb0 hlen
  · rw [if_pos hb0]
    by_cases hsame : b / 16 = e / 16
    · have he0 : e % 16 ≠ 0 := by omega
      have hzero : fullGroups b e = 0 := by
        simp only [fullGroups]
        omega
      have hmasks : rangeMasks b e = [⟨e / 16, 1 <<< (e % 16)⟩] := by
        rw [rangeMasks, headMask, if_neg (fun h => h.2 hsame), tailMask, if_pos he0, groupMasks, hzero]
        rfl
      rw [if_pos hsame, beginMask_and_endMask (by omega) (by omega), hmasks, hsame]
      rcases hins : insertMask sh t (e / 16) (1 <<< (e % 16)) with ⟨full, t'⟩
      cases full with
      | true =>
          obtain rfl := insertMask_full hins
          exact ⟨_, rfl, .full hbe he hins⟩
      | false =>
          have hdone : RangeInserts sh t' [] (16 * (e / 16)) (16 * (e / 16)) ⟨false, t', e, e⟩ := .done
          refine ⟨_, rfl, .mask ?_ ?_ he hins ?_ (by omega) ?_ ?_ ?_ (by simp) hdone⟩
          · exact and_groupSizeMask e ▸ one_shiftLeft_and_lt e
          · exact and_groupSizeMask e ▸ one_shiftLeft_and_ne_zero e
          · intro cl
            rw [maskLines_one_shiftLeft, groupSize_eq]
            simp only [RangeLines]
            omega
          · simp only [pending, fullGroups]
            rw [if_pos hb0, if_pos he0, if_neg (by omega)]
            omega
          · simp only [fullGroups]
            omega
          · intro hlong
            rw [hzero] at hlong
            simp [groupLenMin] at hlong
    · rw [if_neg hsame]
      have hnext : b + (groupSize - b % 16) = 16 * (b / 16 + 1) := by
        rw [groupSize_eq]
        omega
      have hgroups : fullGroups (16 * (b / 16 + 1)) e = fullGroups b e := by
        simp only [fullGroups]
        omega
      have hceil : (16 * (b / 16 + 1) + 15) / 16 = (b + 15) / 16 := by omega
      have hmasks : rangeMasks b e = ⟨b / 16, (fullMask <<< (b % 16)) &&& fullMask⟩ ::
          rangeMasks (16 * (b / 16 + 1)) e := by
        have halign : 16 * (b / 16 + 1) % 16 = 0 := Nat.mul_mod_right 16 _
        rw [rangeMasks, rangeMasks, headMask_of_aligned e halign, groupMasks_congr hceil hgroups, headMask,
          if_pos ⟨hb0, hsame⟩]
        rfl
      rw [hmasks, hnext]
      rcases hins : insertMask sh t (b / 16) ((fullMask <<< (b % 16)) &&& fullMask) with ⟨full, t'⟩
      cases full with
      | true =>
          obtain rfl := insertMask_full hins
          exact ⟨_, rfl, .full hbe (show b / 16 < _ by omega) hins⟩
      | false =>
          obtain ⟨r, hr, hrest⟩ :=
            rangeInserts_tail fuel (t := t') (b := 16 * (b / 16 + 1)) (e := e) (by omega)
              he (by omega) (hgroups.le.trans hlen)
          refine ⟨r, hr, .mask (beginMask_lt _) (beginMask_ne_zero (by omega)) (show b / 16 < _ by omega) hins
            ?_ le_rfl ?_ hgroups.le ?_ ?_ hrest⟩
          · intro cl
            rw [maskLines_beginMask]
            simp only [RangeLines]
            omega
          · simp only [pending, hgroups]
            rw [if_pos hb0, if_neg (by omega)]
            omega
          · intro _
            refine ⟨hceil, hgroups, ?_⟩
            show ¬ (_ ≤ b / 16 ∧ _)
            omega
          · intro q hq
            rw [rangeMasks, headMask_of_aligned _ (by omega), List.nil_append] at hq
            show q.group ≠ b / 16
            rcases List.mem_append.mp hq with hq | hq
            · rw [group_of_mem_tailMask hq]
              exact fun heq => hsame heq.symm
            · have hle := (group_of_mem_groupMasks hq).1
              omega

/-! ## The specification -/

/-- The outcome `r` of inserting the range `b … e` into `t`. -/
structure RangeSpec (sh : ℕ) (t : LocalCLTable) (b e : ℕ) (r : RangeResult) : Prop where
  adds : ∀ cl, Covered sh t cl ∨ RangeLines b e cl → Covered sh r.table cl ∨ r.Rest cl
  exact : MaskOnly sh t → ∀ cl, Covered sh r.table cl ∨ r.Rest cl →
    Covered sh t cl ∨ RangeLines b e cl
  maskOnly : MaskOnly sh t → fullGroups b e < groupLenMin → MaskOnly sh r.table
  bounds : r.full = true → r.begin ≤ r.end_ ∧ r.end_ ≤ e ∧
    fullGroups r.begin r.end_ ≤ fullGroups b e ∧ pending r.begin r.end_ ≤ pending b e
  progress : t = empty → r.full = true → pending r.begin r.end_ < pending b e

/-- A full table before anything was inserted. -/
theorem RangeSpec.of_full {t : LocalCLTable} {b e : ℕ} (hbe : b ≤ e) (ht : t ≠ empty) :
    RangeSpec sh t b e ⟨true, t, b, e⟩ where
  adds _ h := h.imp_right fun h => ⟨rfl, h⟩
  exact _ _ h := h.imp_right (·.2)
  maskOnly ht _ := ht
  bounds _ := ⟨hbe, le_rfl, le_rfl, le_rfl⟩
  progress h := absurd h ht

/-- A mask insert followed by the rest of the call. -/
theorem RangeSpec.of_insertMask {t t' : LocalCLTable} {g m b e b' e' : ℕ} {r : RangeResult}
    (hm : m < 2 ^ 16) (hg : g < 2 ^ groupIndexShift sh)
    (hins : insertMask sh t g m = (false, t')) (hrest : RangeSpec sh t' b' e' r)
    (hlines : ∀ cl, RangeLines b e cl ↔ MaskLines g m cl ∨ RangeLines b' e' cl)
    (he : e' ≤ e) (hgroups : fullGroups b' e' ≤ fullGroups b e)
    (hpending : pending b' e' < pending b e) :
    RangeSpec sh t b e r where
  adds cl h := by
    rw [hlines] at h
    refine hrest.adds cl ?_
    rcases h with h | h | h
    · exact .inl (covered_insertMask hm hins (.inl h))
    · exact .inl (covered_insertMask hm hins (.inr h))
    · exact .inr h
  exact ht cl h := by
    rw [hlines]
    rcases hrest.exact (ht.insertMask hm hg hins) cl h with h | h
    · rw [covered_insertMask_iff hm ht hg hins] at h
      exact h.imp_right .inl
    · exact .inr (.inr h)
  maskOnly ht hmin := hrest.maskOnly (ht.insertMask hm hg hins) (hgroups.trans_lt hmin)
  bounds hfull := by
    obtain ⟨h₁, h₂, h₃, h₄⟩ := hrest.bounds hfull
    exact ⟨h₁, h₂.trans he, h₃.trans hgroups, h₄.trans hpending.le⟩
  progress _ hfull := (hrest.bounds hfull).2.2.2.trans_lt hpending

/-- The empty table is not full for a group index in range, so a full one is not empty. -/
theorem ne_empty_of_full {t t' : LocalCLTable} {g m : ℕ} (hg : g < 2 ^ groupIndexShift sh)
    (h : insertMask sh t g m = (true, t')) : t ≠ empty := by
  rintro rfl
  have hok := insertMask_of_empty (t := empty) m hg rfl
  rw [h] at hok
  exact absurd hok (by simp)

/-- A length insert on a table of mask entries. -/
theorem RangeSpec.of_insertLength {t t' : LocalCLTable} {g len : ℕ} {full : Bool} (ht : MaskOnly sh t)
    (hmin : groupLenMin ≤ len) (hlen : len ≤ groupLenMax sh) (hg : g + len ≤ 2 ^ groupIndexShift sh)
    (hins : insertLength sh t g len = (full, t')) :
    RangeSpec sh t (16 * g) (16 * (g + len))
      ⟨full, t', if full then 16 * g else 16 * (g + len), 16 * (g + len)⟩ := by
  have hgroups : fullGroups (16 * g) (16 * (g + len)) = len := by
    simp only [fullGroups]
    omega
  simp only [groupLenMin] at hmin
  cases full with
  | true =>
      have hsame := insertLength_full ht hins
      have hcov : ∀ cl, Covered sh t' cl ↔ Covered sh t cl := fun cl =>
        exists_congr fun k => and_congr_right fun hk => by rw [hsame k hk]
      have hne : t ≠ empty := by
        rintro rfl
        have hok := insertLength_empty sh g len
        rw [hins] at hok
        cases hok
      refine ⟨?_, ?_, fun _ hlt => ?_, fun _ => ⟨?_, le_rfl, le_rfl, le_rfl⟩, fun h => absurd h hne⟩
      · rintro cl (h | h)
        · exact .inl ((hcov cl).mpr h)
        · exact .inr ⟨rfl, h⟩
      · rintro - cl (h | h)
        · exact .inl ((hcov cl).mp h)
        · exact .inr h.2
      · rw [hgroups] at hlt
        simp only [groupLenMin] at hlt
        omega
      · show 16 * g ≤ 16 * (g + len)
        omega
  | false =>
      have hlenlt : len < 2 ^ (63 - groupIndexShift sh) := by
        rw [groupLenMax, Nat.one_shiftLeft] at hlen
        omega
      have hcov : ∀ cl, Covered sh t' cl ↔ _ := fun _ => covered_insertLength_iff ht (by omega) hlenlt hins
      simp only [groupSize_eq] at hcov
      refine ⟨?_, ?_, fun _ hlt => ?_, by simp, by simp⟩
      · rintro cl (h | h)
        · exact .inl ((hcov cl).mpr (.inl h))
        · refine .inl ((hcov cl).mpr (.inr ?_))
          simp only [RangeLines] at h
          omega
      · rintro - cl (h | h)
        · refine ((hcov cl).mp h).imp_right fun h => ?_
          simp only [RangeLines]
          omega
        · exact absurd h.1 (by simp)
      · rw [hgroups] at hlt
        simp only [groupLenMin] at hlt
        omega

/-! ## The whole call -/

/-- The condition under which `range_insert` loses nothing: it needs no length entry, or it adds
one that fits to a table of mask entries. -/
def Insertable (sh : ℕ) (t : LocalCLTable) (b e : ℕ) : Prop :=
  fullGroups b e < groupLenMin ∨ (MaskOnly sh t ∧ fullGroups b e ≤ groupLenMax sh)

/-- The inserts of a call that loses nothing. -/
theorem RangeInserts.spec {t : LocalCLTable} {ps : List GroupMask} {b e : ℕ} {r : RangeResult}
    (h : RangeInserts sh t ps b e r) (hok : Insertable sh t b e) : RangeSpec sh t b e r := by
  induction h with
  | done =>
      refine ⟨?_, ?_, fun ht _ => ht, by simp, by simp⟩
      · rintro cl (h | ⟨h₁, h₂⟩)
        · exact .inl h
        · omega
      · rintro - cl (h | ⟨h, -⟩)
        · exact .inl h
        · cases h
  | full hbe hg hins => exact .of_full hbe (ne_empty_of_full hg hins)
  | mask hm _ hg hins hlines he hpending hgroups _ _ _ ih =>
      refine .of_insertMask hm hg hins (ih ?_) hlines he hgroups hpending
      exact hok.imp hgroups.trans_lt fun h => ⟨h.1.insertMask hm hg hins, hgroups.trans h.2⟩
  | @length t _ g len _ hmin hmax hg hins =>
      have hlong : ¬ fullGroups (16 * g) (16 * (g + len)) < groupLenMin := by
        simp only [fullGroups]
        omega
      exact .of_insertLength (hok.resolve_left hlong).1 hmin hmax hg hins

/-- One call of `range_insert`: what it adds, and what it leaves for the next call. -/
theorem rangeInsert_spec (fuel : ℕ) {t : LocalCLTable} {b e : ℕ} (hbe : b ≤ e)
    (he : e / 16 < 2 ^ groupIndexShift sh) (hok : Insertable sh t b e) :
    ∃ r, rangeInsert sh (fuel + 2) t b e = some r ∧ RangeSpec sh t b e r := by
  have hlen : fullGroups b e ≤ groupLenMax sh := by
    rcases hok with hmin | ⟨-, hmax⟩
    · exact hmin.le.trans (groupLenMin_le_groupLenMax sh)
    · exact hmax
  obtain ⟨r, hr, hinserts⟩ := rangeInsert_inserts fuel t hbe he hlen
  exact ⟨r, hr, hinserts.spec hok⟩

/-! ## More fuel does not change a result -/

private theorem insertLengths_mono {t : LocalCLTable} {end_ bi len fuel fuel' : ℕ}
    {r : RangeResult} (hle : fuel ≤ fuel') (h : (insertLengths sh end_ fuel t bi len).result = some r) :
    (insertLengths sh end_ fuel' t bi len).result = some r := by
  induction fuel generalizing t bi len fuel' with
  | zero => simp [insertLengths] at h
  | succ fuel ih =>
      obtain ⟨fuel', rfl⟩ : ∃ f, fuel' = f + 1 := ⟨fuel' - 1, by omega⟩
      rw [insertLengths] at h ⊢
      split at h
      · rename_i h0
        rwa [if_pos h0]
      · rename_i h0
        rw [if_neg h0]
        rcases hins : insertLength sh t bi (len &&& groupLenMax sh) with ⟨full, t'⟩
        simp only [hins] at h ⊢
        cases full with
        | true => exact h
        | false => exact ih (by omega) h

private theorem rangeInsertTail_mono {t : LocalCLTable} {b e fuel fuel' : ℕ} {r : RangeResult}
    (hle : fuel ≤ fuel') (h : (rangeInsertTail sh fuel t b e).result = some r) :
    (rangeInsertTail sh fuel' t b e).result = some r := by
  have hgroups : ∀ {t e'}, (rangeInsertGroups sh fuel t b e').result = some r →
      (rangeInsertGroups sh fuel' t b e').result = some r := by
    intro t e' h
    simp only [rangeInsertGroups] at h ⊢
    split at h
    · rename_i hmin
      rwa [if_pos hmin]
    · rename_i hmin
      rw [if_neg hmin]
      exact insertLengths_mono hle h
  simp only [rangeInsertTail] at h ⊢
  split at h
  · rename_i hpos
    rw [if_pos hpos]
    rcases hins : insertMask sh t (e >>> groupSizeShift) (1 <<< (e &&& groupSizeMask)) with
      ⟨full, t'⟩
    simp only [hins] at h ⊢
    cases full with
    | true => exact h
    | false => exact hgroups h
  · rename_i hpos
    rw [if_neg hpos]
    exact hgroups h

theorem rangeInsert_mono {t : LocalCLTable} {b e fuel fuel' : ℕ} {r : RangeResult}
    (hle : fuel ≤ fuel') (h : rangeInsert sh fuel t b e = some r) :
    rangeInsert sh fuel' t b e = some r := by
  simp only [rangeInsert, rangeInsertRun] at h ⊢
  split at h
  · rename_i hpos
    rw [if_pos hpos]
    split at h
    · rename_i hsame
      rwa [if_pos hsame]
    · rename_i hsame
      rw [if_neg hsame]
      rcases hins : insertMask sh t (b >>> groupSizeShift)
        ((fullMask <<< (b &&& groupSizeMask)) &&& fullMask) with ⟨full, t'⟩
      simp only [hins] at h ⊢
      cases full with
      | true => exact h
      | false => exact rangeInsertTail_mono hle h
  · rename_i hpos
    rw [if_neg hpos]
    exact rangeInsertTail_mono hle h

/-! ## Ranges that are too long -/

/-- The chunk of an overlong range never uses it up. -/
private theorem insertLengths_overlong {t : LocalCLTable} {end_ bi len fuel : ℕ} {r : RangeResult}
    (hlen : groupLenMax sh < len) (hend : end_ = 16 * (bi + len))
    (h : (insertLengths sh end_ fuel t bi len).result = some r) :
    r.full = true ∧ groupLenMax sh < fullGroups r.begin r.end_ := by
  have hpow : groupLenMax sh = 2 ^ (63 - groupIndexShift sh) - 1 := by
    rw [groupLenMax, Nat.one_shiftLeft]
  have hpos := Nat.two_pow_pos (63 - groupIndexShift sh)
  induction fuel generalizing t bi len with
  | zero => simp [insertLengths] at h
  | succ fuel ih =>
      rw [insertLengths, if_neg (by omega)] at h
      have hmod : len &&& groupLenMax sh = len % 2 ^ (63 - groupIndexShift sh) := by
        rw [hpow, Nat.and_two_pow_sub_one_eq_mod]
      generalize 2 ^ (63 - groupIndexShift sh) = M at hpow hpos hmod
      rcases hins : insertLength sh t bi (len &&& groupLenMax sh) with ⟨full, t'⟩
      simp only [hins] at h
      cases full with
      | true =>
          obtain rfl := Option.some.inj h
          refine ⟨rfl, ?_⟩
          simp only [shiftLeft_groupSizeShift, fullGroups, hend]
          omega
      | false =>
          have hle : len % M ≤ len := Nat.mod_le len M
          have hrest : groupLenMax sh < len - len % M := by
            have hdiv : 1 ≤ len / M := Nat.div_pos (by omega) hpos
            have hsplit : M * (len / M) + len % M = len := Nat.div_add_mod len M
            have hmul : M * 1 ≤ M * (len / M) := Nat.mul_le_mul_left M hdiv
            omega
          rw [hmod] at h
          exact ih hrest (by omega) h

private theorem rangeInsertTail_overlong {t : LocalCLTable} {b e fuel : ℕ} {r : RangeResult}
    (hb0 : b % 16 = 0) (hlong : groupLenMax sh < fullGroups b e)
    (h : (rangeInsertTail sh fuel t b e).result = some r) :
    r.full = true ∧ groupLenMax sh < fullGroups r.begin r.end_ := by
  have hmin := groupLenMin_le_groupLenMax sh
  have hgroups : ∀ {t e'}, e' % 16 = 0 → fullGroups b e' = fullGroups b e →
      (rangeInsertGroups sh fuel t b e').result = some r →
      r.full = true ∧ groupLenMax sh < fullGroups r.begin r.end_ := by
    intro t e' he' heq h
    rw [← heq] at hlong
    simp only [fullGroups] at hlong
    simp only [rangeInsertGroups, shiftRight_groupSizeShift] at h
    rw [if_neg (by omega)] at h
    exact insertLengths_overlong (by omega) (by omega) h
  simp only [rangeInsertTail, and_groupSizeMask, shiftRight_groupSizeShift] at h
  by_cases he0 : e % 16 = 0
  · rw [if_neg (by omega)] at h
    exact hgroups he0 rfl h
  · rw [if_pos he0] at h
    rcases hins : insertMask sh t (e / 16) (1 <<< (e % 16)) with ⟨full, t'⟩
    simp only [hins] at h
    cases full with
    | true =>
        obtain rfl := Option.some.inj h
        exact ⟨rfl, hlong⟩
    | false =>
        refine hgroups (by omega) ?_ h
        simp only [fullGroups]
        omega

/-- A range of more than `GROUP_LEN_MAX` full groups is never finished by one call. -/
theorem rangeInsert_overlong {t : LocalCLTable} {b e fuel : ℕ} {r : RangeResult}
    (hlong : groupLenMax sh < fullGroups b e) (h : rangeInsert sh fuel t b e = some r) :
    r.full = true ∧ groupLenMax sh < fullGroups r.begin r.end_ := by
  simp only [rangeInsert, rangeInsertRun, and_groupSizeMask, shiftRight_groupSizeShift] at h
  by_cases hb0 : b % 16 = 0
  · rw [if_neg (by omega)] at h
    exact rangeInsertTail_overlong hb0 hlong h
  · have hne : b / 16 ≠ e / 16 := by
      simp only [fullGroups] at hlong
      omega
    rw [if_pos hb0, if_neg hne] at h
    rcases hins : insertMask sh t (b / 16) ((fullMask <<< (b % 16)) &&& fullMask) with ⟨full, t'⟩
    simp only [hins] at h
    cases full with
    | true =>
        obtain rfl := Option.some.inj h
        exact ⟨rfl, hlong⟩
    | false =>
        have hnext : b + (groupSize - b % 16) = 16 * (b / 16 + 1) := by
          rw [groupSize_eq]
          omega
        simp only [hnext] at h
        refine rangeInsertTail_overlong (by omega) (hlong.trans_le ?_) h
        simp only [fullGroups]
        omega

end LocalCLTable

end RACoherence
