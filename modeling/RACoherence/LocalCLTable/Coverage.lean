import RACoherence.LocalCLTable

/-!
# What the dirty table covers

The table stands for a set of virtual lines, the lines its words cover. Point inserts only ever add
lines; on a table of mask entries they add exactly the requested ones. A length insert does the same
there, since the mask entries it drops lie inside the range it adds.
-/

namespace RACoherence

open ClGroup Function

namespace ClGroup

variable {sh : ℕ}

theorem groupIndexShift_le (sh : ℕ) : groupIndexShift sh ≤ 38 := by
  simp only [groupIndexShift, groupShift, virtualClShift, virtualAddressBits, cacheLineShift,
    groupSizeShift]
  omega

theorem shl64_of_lt {x k : ℕ} (h : x <<< k < 2 ^ 64) : shl64 x k = x <<< k :=
  Nat.mod_eq_of_lt h

theorem shl64_mask {m : ℕ} (hm : m < 2 ^ 16) :
    shl64 m (groupIndexShift sh) = m <<< groupIndexShift sh := by
  refine shl64_of_lt ?_
  have hpow : 2 ^ groupIndexShift sh ≤ 2 ^ 38 := Nat.pow_le_pow_right (by omega) (groupIndexShift_le sh)
  rw [Nat.shiftLeft_eq]
  calc m * 2 ^ groupIndexShift sh ≤ m * 2 ^ 38 := Nat.mul_le_mul_left _ hpow
    _ < 2 ^ 64 := by omega

/-! ## Adding mask bits to a word -/

/-- Mask bits stay below the padding. -/
theorem or_mask_lt {v m : ℕ} (hv : v < 2 ^ (groupIndexShift sh + 16)) (hm : m < 2 ^ 16) :
    v ||| m <<< groupIndexShift sh < 2 ^ (groupIndexShift sh + 16) := by
  refine Nat.or_lt_two_pow hv ?_
  rw [Nat.shiftLeft_eq, Nat.add_comm, pow_add]
  exact Nat.mul_lt_mul_of_pos_right hm (Nat.two_pow_pos _)

theorem isLengthBased_or_mask {v m : ℕ} (hm : m < 2 ^ 16) :
    isLengthBased (v ||| m <<< groupIndexShift sh) = isLengthBased v := by
  have hle := groupIndexShift_le sh
  have hbit : m.testBit (63 - groupIndexShift sh) = false :=
    Nat.testBit_lt_two_pow (lt_of_lt_of_le hm (Nat.pow_le_pow_right (by omega) (by omega)))
  simp [isLengthBased_eq, Nat.testBit_or, hbit]

theorem getIndex_or_mask {v m : ℕ} :
    getIndex sh (v ||| m <<< groupIndexShift sh) = getIndex sh v := by
  simp [getIndex_eq, Nat.or_mod_two_pow, Nat.shiftLeft_eq]

theorem getMask16_or_mask {v m : ℕ} :
    getMask16 sh (v ||| m <<< groupIndexShift sh) = getMask16 sh v ||| m := by
  simp [getMask16, Nat.shiftRight_or_distrib]

theorem getLength_or_mask {v m : ℕ} (hm : m < 2 ^ 16) :
    getLength sh (v ||| m <<< groupIndexShift sh) = getLength sh v ||| m := by
  have hle := groupIndexShift_le sh
  refine Nat.eq_of_testBit_eq fun i => ?_
  have hmask : 2 ^ 64 - 1 - typeMask = 2 ^ 63 - 1 := by decide
  simp only [getLength, hmask, Nat.testBit_shiftRight, Nat.testBit_and, Nat.testBit_or,
    Nat.testBit_shiftLeft, Nat.testBit_two_pow_sub_one]
  by_cases hi : groupIndexShift sh + i < 63
  · simp [hi]
  · have hbit : m.testBit i = false :=
      Nat.testBit_lt_two_pow (lt_of_lt_of_le hm (Nat.pow_le_pow_right (by omega) (by omega)))
    simp [hi, hbit]

/-- The lines of group `g` named by the mask `m`. -/
def MaskLines (g m cl : ℕ) : Prop := ∃ p, m.testBit p = true ∧ cl = groupSize * g + p

theorem covers_or_mask_iff {v m cl : ℕ} (hm : m < 2 ^ 16) (hv : isLengthBased v = false) :
    Covers sh (v ||| m <<< groupIndexShift sh) cl ↔
      Covers sh v cl ∨ MaskLines (getIndex sh v) m cl := by
  rw [covers_mask sh hv, covers_mask sh (by rw [isLengthBased_or_mask hm, hv]), getIndex_or_mask,
    getMask16_or_mask]
  simp only [MaskLines, Nat.testBit_or, Bool.or_eq_true, or_and_right, exists_or]

/-- Adding mask bits never uncovers a line, whichever kind of entry the word is: on a length entry
the bits land in the length, which can only grow. -/
theorem covers_or_mask {v m cl : ℕ} (hm : m < 2 ^ 16)
    (h : Covers sh v cl ∨ MaskLines (getIndex sh v) m cl) :
    Covers sh (v ||| m <<< groupIndexShift sh) cl := by
  cases hv : isLengthBased v with
  | false => exact (covers_or_mask_iff hm hv).mpr h
  | true =>
      rw [covers_length sh (by rw [isLengthBased_or_mask hm, hv]), getIndex_or_mask,
        getLength_or_mask hm, groupSize_eq]
      rcases h with h | ⟨p, hp, rfl⟩
      · rw [covers_length sh hv, groupSize_eq] at h
        have hle : getLength sh v ≤ getLength sh v ||| m := Nat.left_le_or
        omega
      · have hpow : 2 ^ p ≤ m := Nat.ge_two_pow_of_testBit hp
        have hlt : p < 16 := (Nat.pow_lt_pow_iff_right (by omega)).mp (hpow.trans_lt hm)
        have hle : m ≤ getLength sh v ||| m := Nat.right_le_or
        have hpos : 0 < 2 ^ p := Nat.two_pow_pos p
        rw [groupSize_eq]
        omega

/-! ## A fresh length entry -/

theorem shl64_length {len : ℕ} (hlen : len < 2 ^ (63 - groupIndexShift sh)) :
    shl64 len (groupIndexShift sh) = len <<< groupIndexShift sh ∧
      len <<< groupIndexShift sh < 2 ^ 63 := by
  have hle := groupIndexShift_le sh
  have hlt : len <<< groupIndexShift sh < 2 ^ 63 := by
    rw [Nat.shiftLeft_eq]
    calc len * 2 ^ groupIndexShift sh
        < 2 ^ (63 - groupIndexShift sh) * 2 ^ groupIndexShift sh :=
          Nat.mul_lt_mul_of_pos_right hlen (Nat.two_pow_pos _)
      _ = 2 ^ 63 := by rw [← pow_add]; congr 1; omega
  exact ⟨shl64_of_lt (hlt.trans (by decide)), hlt⟩

theorem covers_lengthEntry {g len cl : ℕ} (hg : g < 2 ^ groupIndexShift sh)
    (hlen : len < 2 ^ (63 - groupIndexShift sh)) :
    Covers sh (g ||| shl64 len (groupIndexShift sh) ||| typeMask) cl ↔
      groupSize * g ≤ cl ∧ cl < groupSize * (g + len) := by
  have hle := groupIndexShift_le sh
  obtain ⟨hshl, hlt⟩ := shl64_length hlen
  have hgw : g < 2 ^ 63 := hg.trans_le (Nat.pow_le_pow_right (by omega) (by omega))
  rw [hshl]
  have htype : isLengthBased (g ||| len <<< groupIndexShift sh ||| typeMask) = true := by
    rw [isLengthBased_eq, typeMask_eq, Nat.testBit_or, Nat.testBit_two_pow]
    simp
  have hindex : getIndex sh (g ||| len <<< groupIndexShift sh ||| typeMask) = g := by
    have htm : typeMask % 2 ^ groupIndexShift sh = 0 := by
      rw [typeMask_eq]
      exact Nat.mod_eq_zero_of_dvd (Nat.pow_dvd_pow _ (by omega))
    rw [getIndex_eq, Nat.or_mod_two_pow, Nat.or_mod_two_pow, htm, Nat.shiftLeft_eq,
      Nat.mul_mod_left, Nat.or_zero, Nat.or_zero, Nat.mod_eq_of_lt hg]
  have hlength : getLength sh (g ||| len <<< groupIndexShift sh ||| typeMask) = len := by
    have htm : typeMask % 2 ^ 63 = 0 := by decide
    rw [getLength_eq, Nat.or_mod_two_pow, htm, Nat.or_zero,
      Nat.mod_eq_of_lt (Nat.or_lt_two_pow hgw hlt), ← Nat.shiftRight_eq_div_pow,
      Nat.shiftRight_or_distrib, Nat.shiftLeft_shiftRight, Nat.shiftRight_eq_div_pow,
      Nat.div_eq_of_lt hg, Nat.zero_or]
  rw [covers_length sh htype, hindex, hlength]

end ClGroup

namespace LocalCLTable

variable (sh : ℕ)

/-- Some word of the table covers the line. -/
def Covered (t : LocalCLTable) (cl : ℕ) : Prop :=
  ∃ k < localClTableSize, Covers sh (t k) cl

/-- Every word is empty or a mask entry with zero padding. -/
def MaskOnly (t : LocalCLTable) : Prop :=
  ∀ k < localClTableSize, t k < 2 ^ (groupIndexShift sh + 16)

variable {sh}

theorem not_covered_empty (cl : ℕ) : ¬ Covered sh empty cl := by
  rintro ⟨k, -, h⟩
  exact not_covers_zero sh cl h

theorem maskOnly_empty (sh : ℕ) : MaskOnly sh empty := fun _ _ => Nat.two_pow_pos _

/-- The covered lines are those of the words that `write_to_log` copies out. -/
theorem covered_iff_entries {t : LocalCLTable} {cl : ℕ} :
    Covered sh t cl ↔ ∃ e ∈ t.entries, Covers sh e cl := by
  simp only [entries, List.mem_filter, List.mem_map, List.mem_range, Covered]
  constructor
  · rintro ⟨k, hk, hc⟩
    refine ⟨t k, ⟨⟨k, hk, rfl⟩, ?_⟩, hc⟩
    have hne : t k ≠ 0 := fun h0 => not_covers_zero sh cl (h0 ▸ hc)
    simpa using hne
  · rintro ⟨e, ⟨⟨k, hk, rfl⟩, -⟩, hc⟩
    exact ⟨k, hk, hc⟩

theorem not_isLengthBased_of_lt {v : ℕ} (hv : v < 2 ^ (groupIndexShift sh + 16)) :
    isLengthBased v = false := by
  have hle := groupIndexShift_le sh
  rw [isLengthBased_eq]
  exact Nat.testBit_lt_two_pow (hv.trans_le (Nat.pow_le_pow_right (by omega) (by omega)))

/-- A padded mask entry covers lines of its own group only. -/
theorem Covers.group_of_lt {v cl : ℕ} (hv : v < 2 ^ (groupIndexShift sh + 16))
    (h : Covers sh v cl) :
    groupSize * getIndex sh v ≤ cl ∧ cl < groupSize * (getIndex sh v + 1) := by
  obtain ⟨p, hp, rfl⟩ := (covers_mask sh (not_isLengthBased_of_lt hv)).mp h
  have hmask : getMask16 sh v < 2 ^ 16 := by
    rw [getMask16, Nat.shiftRight_eq_div_pow]
    exact Nat.div_lt_of_lt_mul (by rwa [← pow_add])
  have hlt : p < 16 :=
    (Nat.pow_lt_pow_iff_right (by omega)).mp ((Nat.ge_two_pow_of_testBit hp).trans_lt hmask)
  rw [groupSize_eq]
  omega

/-! ## `insert_mask` -/

theorem probe_lt (i : ℕ) : i &&& (localClTableSize - 1) < localClTableSize := by
  have hmask : localClTableSize - 1 = 2 ^ 6 - 1 := rfl
  rw [hmask, Nat.and_two_pow_sub_one_eq_mod]
  exact Nat.mod_lt _ (by decide)

private theorem insertMaskFrom_full {t t' : LocalCLTable} {g m i n : ℕ}
    (h : insertMaskFrom sh t g m i n = (true, t')) : t' = t := by
  induction n generalizing i with
  | zero => simp_all [insertMaskFrom]
  | succ n ih =>
      simp only [insertMaskFrom] at h
      split at h
      · simp at h
      · exact ih h

/-- A full table is reported and left alone. -/
theorem insertMask_full {t t' : LocalCLTable} {g m : ℕ}
    (h : insertMask sh t g m = (true, t')) : t' = t :=
  insertMaskFrom_full h

/-- A successful probe ORs the mask into a slot whose word has the group's index. -/
theorem insertMaskFrom_ok {t t' : LocalCLTable} {g m i n : ℕ}
    (h : insertMaskFrom sh t g m i n = (false, t')) :
    ∃ k < localClTableSize, getIndex sh (probeValue t k g) = g ∧
      t' = update t k (probeValue t k g ||| shl64 m (groupIndexShift sh)) := by
  induction n generalizing i with
  | zero => simp [insertMaskFrom] at h
  | succ n ih =>
      simp only [insertMaskFrom] at h
      split at h
      · rename_i hidx
        exact ⟨_, probe_lt (g + i), hidx, by simpa using h.symm⟩
      · exact ih h

theorem probeValue_cases (t : LocalCLTable) (k g : ℕ) :
    probeValue t k g = t k ∨ (probeValue t k g = g ∧ t k = 0) := by
  unfold probeValue
  split
  · exact .inl rfl
  · rename_i h0
    exact .inr ⟨rfl, by simpa using h0⟩

/-- A successful mask insert ORs the mask into one word of the group, or into a fresh one. -/
theorem insertMask_ok {t t' : LocalCLTable} {g m : ℕ} (h : insertMask sh t g m = (false, t')) :
    ∃ k < localClTableSize, ∃ v, (v = t k ∨ (v = g ∧ t k = 0)) ∧ getIndex sh v = g ∧
      t' = update t k (v ||| shl64 m (groupIndexShift sh)) := by
  obtain ⟨k, hk, hidx, ht'⟩ := insertMaskFrom_ok h
  exact ⟨k, hk, _, probeValue_cases t k g, hidx, ht'⟩

/-- A mask insert never fails when the first probed slot is empty. -/
theorem insertMask_of_empty {t : LocalCLTable} {g : ℕ} (m : ℕ) (hg : g < 2 ^ groupIndexShift sh)
    (h0 : t (g &&& (localClTableSize - 1)) = 0) : (insertMask sh t g m).1 = false := by
  have hidx : g &&& groupIndexMask sh = g := by
    rw [groupIndexMask, Nat.one_shiftLeft, Nat.and_two_pow_sub_one_eq_mod, Nat.mod_eq_of_lt hg]
  simp [insertMask, insertMaskFrom, probeValue, localClTableSearchIters, h0, hidx]

/-- A mask insert keeps every covered line and adds the requested ones. -/
theorem covered_insertMask {t t' : LocalCLTable} {g m cl : ℕ} (hm : m < 2 ^ 16)
    (h : insertMask sh t g m = (false, t')) (hc : Covered sh t cl ∨ MaskLines g m cl) :
    Covered sh t' cl := by
  obtain ⟨k, hk, v, hv, hidx, rfl⟩ := insertMask_ok h
  rw [shl64_mask hm]
  rcases hc with ⟨j, hj, hc⟩ | hc
  · by_cases hjk : j = k
    · subst hjk
      refine ⟨j, hj, ?_⟩
      rw [update_self]
      rcases hv with rfl | ⟨-, h0⟩
      · exact covers_or_mask hm (.inl hc)
      · exact absurd (h0 ▸ hc) (not_covers_zero sh cl)
    · exact ⟨j, hj, by rwa [update_of_ne hjk]⟩
  · refine ⟨k, hk, ?_⟩
    rw [update_self]
    exact covers_or_mask hm (.inr (hidx ▸ hc))

/-- On a table of mask entries a mask insert adds nothing else. -/
theorem covered_insertMask_iff {t t' : LocalCLTable} {g m cl : ℕ} (hm : m < 2 ^ 16)
    (ht : MaskOnly sh t) (hg : g < 2 ^ groupIndexShift sh)
    (h : insertMask sh t g m = (false, t')) :
    Covered sh t' cl ↔ Covered sh t cl ∨ MaskLines g m cl := by
  refine ⟨?_, covered_insertMask hm h⟩
  obtain ⟨k, hk, v, hv, hidx, rfl⟩ := insertMask_ok h
  rw [shl64_mask hm]
  rintro ⟨j, hj, hc⟩
  by_cases hjk : j = k
  · subst hjk
    rw [update_self] at hc
    have hgv : g < 2 ^ (groupIndexShift sh + 16) :=
      hg.trans_le (Nat.pow_le_pow_right (by omega) (by omega))
    rcases hv with rfl | ⟨rfl, h0⟩
    · rw [covers_or_mask_iff hm (not_isLengthBased_of_lt (ht j hj)), hidx] at hc
      exact hc.imp (fun hc => ⟨j, hj, hc⟩) id
    · rw [covers_or_mask_iff hm (not_isLengthBased_of_lt hgv), hidx] at hc
      refine .inr (hc.resolve_left fun hc => ?_)
      -- the fresh word is the bare group index: its mask is still empty
      obtain ⟨p, hp, -⟩ := (covers_mask sh (not_isLengthBased_of_lt hgv)).mp hc
      rw [getMask16, Nat.shiftRight_eq_div_pow, Nat.div_eq_of_lt hg] at hp
      simp at hp
  · rw [update_of_ne hjk] at hc
    exact .inl ⟨j, hj, hc⟩

theorem MaskOnly.insertMask {t t' : LocalCLTable} {g m : ℕ} (hm : m < 2 ^ 16)
    (ht : MaskOnly sh t) (hg : g < 2 ^ groupIndexShift sh)
    (h : insertMask sh t g m = (false, t')) : MaskOnly sh t' := by
  obtain ⟨k, hk, v, hv, -, rfl⟩ := insertMask_ok h
  have hvlt : v < 2 ^ (groupIndexShift sh + 16) := by
    rcases hv with rfl | ⟨rfl, -⟩
    · exact ht k hk
    · exact hg.trans_le (Nat.pow_le_pow_right (by omega) (by omega))
  intro j hj
  by_cases hjk : j = k
  · subst hjk
    rw [update_self, shl64_mask hm]
    exact or_mask_lt hvlt hm
  · rw [update_of_ne hjk]
    exact ht j hj

/-! ## `insert` -/

theorem maskLines_one_shiftLeft {g p cl : ℕ} :
    MaskLines g (1 <<< p) cl ↔ cl = groupSize * g + p := by
  simp [MaskLines, Nat.one_shiftLeft, Nat.testBit_two_pow]

theorem one_shiftLeft_and_lt (p : ℕ) : 1 <<< (p &&& groupSizeMask) < 2 ^ 16 := by
  have hmask : groupSizeMask = 2 ^ 4 - 1 := rfl
  rw [hmask, Nat.and_two_pow_sub_one_eq_mod, Nat.one_shiftLeft]
  exact Nat.pow_lt_pow_right (by omega) (Nat.mod_lt _ (by omega))

theorem one_shiftLeft_and_ne_zero (p : ℕ) : 1 <<< (p &&& groupSizeMask) ≠ 0 := by
  rw [Nat.one_shiftLeft]
  exact (Nat.two_pow_pos _).ne'

/-- The group and position that `insert` computes name the line itself. -/
theorem maskLines_insert {cl cl' : ℕ} :
    MaskLines (cl >>> groupSizeShift) (1 <<< (cl &&& groupSizeMask)) cl' ↔ cl' = cl := by
  have hmask : groupSizeMask = 2 ^ 4 - 1 := rfl
  rw [maskLines_one_shiftLeft, hmask, Nat.and_two_pow_sub_one_eq_mod, Nat.shiftRight_eq_div_pow,
    groupSize_eq, groupSizeShift]
  omega

/-- A point insert covers its line and loses none. -/
theorem covered_insert {t t' : LocalCLTable} {cl cl' : ℕ} (h : insert sh t cl = (false, t'))
    (hc : Covered sh t cl' ∨ cl' = cl) : Covered sh t' cl' :=
  covered_insertMask (one_shiftLeft_and_lt cl) h (hc.imp_right maskLines_insert.mpr)

/-- A point insert into the empty table succeeds. -/
theorem insert_empty {cl : ℕ} (hcl : cl >>> groupSizeShift < 2 ^ groupIndexShift sh) :
    (insert sh empty cl).1 = false :=
  insertMask_of_empty _ hcl rfl

/-! ## `insert_length` -/

/-- A word that `insert_length` drops because its group lies in the new range. -/
def InRange (sh g len v : ℕ) : Prop := v ≠ 0 ∧ g ≤ getIndex sh v ∧ getIndex sh v < g + len

/-- A word that the scan of `insert_length` removes from the table: a length entry, which is coalesced,
or a mask entry in the new range. -/
def Dropped (sh g len v : ℕ) : Prop := isLengthBased v = true ∨ InRange sh g len v

/-- What the scan of `insert_length` has done to a table after `n` slots. Every length entry is
coalesced with the new range alone, so only the last of them counts. -/
structure Scanned (sh : ℕ) (t : LocalCLTable) (g len n : ℕ) (sc : Scan) : Prop where
  entry : (∀ k < n, isLengthBased (t k) = false) →
    sc.entry = g ||| shl64 len (groupIndexShift sh) ||| typeMask
  coalesced : ∀ k < n, isLengthBased (t k) = true →
    (∀ j < n, isLengthBased (t j) = true → j ≤ k) →
    sc.entry = tryCoalesce sh (getIndex sh (t k)) g (getLength sh (t k)) len
  dropped : ∀ k < n, Dropped sh g len (t k) → sc.table k = 0
  kept : ∀ k, (n ≤ k ∨ ¬ Dropped sh g len (t k)) → sc.table k = t k
  pos : ∀ p, sc.insertPos = some p → p < n ∧ sc.table p = 0
  none : sc.insertPos = none → ∀ k < n, t k ≠ 0 ∧ ¬ Dropped sh g len (t k)

/-- What the scan of `insert_length` has done to a table of mask entries after `n` slots. -/
structure ScanSpec (sh : ℕ) (t : LocalCLTable) (g len n : ℕ) (sc : Scan) : Prop where
  entry : sc.entry = g ||| shl64 len (groupIndexShift sh) ||| typeMask
  dropped : ∀ k < n, InRange sh g len (t k) → sc.table k = 0
  kept : ∀ k, (n ≤ k ∨ ¬ InRange sh g len (t k)) → sc.table k = t k
  pos : ∀ p, sc.insertPos = some p → p < n ∧ sc.table p = 0
  none : sc.insertPos = none → ∀ k < n, t k ≠ 0 ∧ ¬ InRange sh g len (t k)

private theorem Scan.claim_eq_some {sc : Scan} {i p : ℕ} (h : sc.claim i = some p) :
    sc.insertPos = some p ∨ (sc.insertPos = none ∧ p = i) := by
  unfold Scan.claim at h
  cases hpos : sc.insertPos with
  | none => simp [hpos] at h; exact .inr ⟨rfl, h.symm⟩
  | some q => simp [hpos] at h; exact .inl (by rw [h])

private theorem Scan.claim_ne_none {sc : Scan} {i : ℕ} : sc.claim i ≠ none := by
  unfold Scan.claim
  cases sc.insertPos <;> simp

theorem isLengthBased_zero : isLengthBased 0 = false := by decide

/-- A slot that is emptied, or found empty, and may become the insert position. -/
private theorem Scanned.drop {t : LocalCLTable} {g len n entry : ℕ} {sc : Scan} {table : LocalCLTable}
    (h : Scanned sh t g len n sc) (htable : table = update sc.table n 0)
    (hzero : t n = 0 ∨ Dropped sh g len (t n))
    (hentry : isLengthBased (t n) = false → entry = sc.entry)
    (hlength : isLengthBased (t n) = true →
      entry = tryCoalesce sh (getIndex sh (t n)) g (getLength sh (t n)) len) :
    Scanned sh t g len (n + 1) ⟨table, entry, sc.claim n⟩ where
  entry hnone := by
    rw [hentry (hnone n (by omega))]
    exact h.entry fun k hk => hnone k (by omega)
  coalesced k hk hlen hlast := by
    by_cases hkn : k = n
    · subst hkn
      exact hlength hlen
    · have hmask : isLengthBased (t n) = false := by
        by_contra hne
        have hle := hlast n (by omega) (by simpa using hne)
        omega
      rw [hentry hmask]
      exact h.coalesced k (by omega) hlen fun j hj => hlast j (by omega)
  dropped k hk hd := by
    show table k = 0
    rw [htable]
    by_cases hkn : k = n
    · rw [hkn, update_self]
    · rw [update_of_ne hkn]
      exact h.dropped k (by omega) hd
  kept k hk := by
    show table k = t k
    rw [htable]
    by_cases hkn : k = n
    · subst hkn
      rw [update_self]
      rcases hzero with h0 | hd
      · exact h0.symm
      · exact absurd hd (hk.resolve_left (by omega))
    · rw [update_of_ne hkn]
      exact h.kept k (hk.imp (by omega) id)
  pos p hp := by
    show p < n + 1 ∧ table p = 0
    rw [htable]
    rcases Scan.claim_eq_some hp with hp | ⟨-, rfl⟩
    · obtain ⟨hlt, hz⟩ := h.pos p hp
      have hne : p ≠ n := by omega
      exact ⟨by omega, (update_of_ne hne 0 sc.table).trans hz⟩
    · exact ⟨by omega, update_self _ _ _⟩
  none hp := absurd hp Scan.claim_ne_none

/-- A slot that the scan leaves alone. -/
private theorem Scanned.keep {t : LocalCLTable} {g len n : ℕ} {sc : Scan}
    (h : Scanned sh t g len n sc) (h0 : t n ≠ 0) (hkept : ¬ Dropped sh g len (t n)) :
    Scanned sh t g len (n + 1) sc where
  entry hnone := h.entry fun k hk => hnone k (by omega)
  coalesced k hk hlen hlast := by
    have hkn : k ≠ n := by
      rintro rfl
      exact hkept (.inl hlen)
    exact h.coalesced k (by omega) hlen fun j hj => hlast j (by omega)
  dropped k hk hd := by
    have hkn : k ≠ n := by
      rintro rfl
      exact hkept hd
    exact h.dropped k (by omega) hd
  kept k hk := by
    by_cases hkn : k = n
    · exact h.kept k (.inl hkn.ge)
    · exact h.kept k (hk.imp (by omega) id)
  pos p hp := by
    obtain ⟨hlt, hz⟩ := h.pos p hp
    exact ⟨by omega, hz⟩
  none hp k hk := by
    rcases Nat.lt_succ_iff_lt_or_eq.mp hk with hk | rfl
    · exact h.none hp k hk
    · exact ⟨h0, hkept⟩

/-- One slot of the scan, by what is in it. -/
private theorem Scanned.visit {t : LocalCLTable} {g len n : ℕ} {sc : Scan}
    (hco : isLengthBased (t n) = true →
      tryCoalesce sh (getIndex sh (t n)) g (getLength sh (t n)) len ≠ 0)
    (h : Scanned sh t g len n sc) :
    Scanned sh t g len (n + 1) (Scan.visit sh g len sc n) := by
  have hval : sc.table n = t n := h.kept n (.inl le_rfl)
  simp only [Scan.visit, hval]
  by_cases h0 : t n = 0
  · rw [if_pos h0]
    have hself : sc.table = update sc.table n 0 := by
      rw [← h0, ← hval, update_eq_self]
    refine h.drop hself (.inl h0) (fun _ => rfl) fun hlen => ?_
    rw [h0, isLengthBased_zero] at hlen
    exact absurd hlen (by simp)
  · rw [if_neg h0]
    by_cases hlen : isLengthBased (t n) = true
    · rw [if_pos hlen, if_pos (hco hlen)]
      refine h.drop rfl (.inr (.inl hlen)) (fun hmask => ?_) fun _ => rfl
      rw [hlen] at hmask
      exact absurd hmask (by simp)
    · rw [if_neg hlen]
      by_cases hr : getIndex sh (t n) ≥ g ∧ getIndex sh (t n) < g + len
      · rw [if_pos hr]
        exact h.drop rfl (.inr (.inr ⟨h0, hr⟩)) (fun _ => rfl) fun hl => absurd hl hlen
      · rw [if_neg hr]
        refine h.keep h0 ?_
        rintro (hl | hin)
        · exact hlen hl
        · exact hr hin.2

/-- The scan over any table, as long as no length entry is taken to be apart from the new range. -/
theorem scanSlots_scanned {t : LocalCLTable} {g len n : ℕ}
    (hco : ∀ k < n, isLengthBased (t k) = true →
      tryCoalesce sh (getIndex sh (t k)) g (getLength sh (t k)) len ≠ 0) :
    Scanned sh t g len n (scanSlots sh t g len n) := by
  induction n with
  | zero =>
      exact ⟨by simp [scanSlots], by simp, by simp, by simp [scanSlots], by simp [scanSlots], by simp⟩
  | succ n ih =>
      have hstep : scanSlots sh t g len (n + 1) =
          Scan.visit sh g len (scanSlots sh t g len n) n := by
        simp [scanSlots, List.range_succ]
      rw [hstep]
      exact (ih fun k hk => hco k (by omega)).visit (hco n (by omega))

theorem scanSlots_spec {t : LocalCLTable} (g len : ℕ) {n : ℕ} (ht : MaskOnly sh t)
    (hn : n ≤ localClTableSize) : ScanSpec sh t g len n (scanSlots sh t g len n) := by
  have hmask : ∀ k < n, isLengthBased (t k) = false := fun k hk =>
    not_isLengthBased_of_lt (ht k (by omega))
  have hscan : Scanned sh t g len n (scanSlots sh t g len n) := by
    apply scanSlots_scanned
    intro k hk hlen
    rw [hmask k hk] at hlen
    exact absurd hlen (by simp)
  have hdropped : ∀ k < n, Dropped sh g len (t k) → InRange sh g len (t k) := by
    intro k hk hd
    refine hd.resolve_left ?_
    simp [hmask k hk]
  refine ⟨hscan.entry hmask, fun k hk hr => hscan.dropped k hk (.inr hr), fun k hk => ?_, hscan.pos,
    fun hp k hk => ⟨(hscan.none hp k hk).1, fun hr => (hscan.none hp k hk).2 (.inr hr)⟩⟩
  by_cases hkn : n ≤ k
  · exact hscan.kept k (.inl hkn)
  · exact hscan.kept k (.inr fun hd => hk.resolve_left hkn (hdropped k (by omega) hd))

/-- On a table of mask entries, a full `insert_length` changes nothing. -/
theorem insertLength_full {t t' : LocalCLTable} {g len : ℕ} (ht : MaskOnly sh t)
    (h : insertLength sh t g len = (true, t')) : ∀ k < localClTableSize, t' k = t k := by
  have hspec := scanSlots_spec g len ht le_rfl
  unfold insertLength at h
  generalize scanSlots sh t g len localClTableSize = sc at h hspec
  dsimp only at h
  split at h
  · simp at h
  · rename_i hpos
    obtain rfl : _ = t' := by simpa using h
    intro k hk
    exact hspec.kept k (.inr (hspec.none hpos k hk).2)

/-- On a table of mask entries, a successful `insert_length` adds exactly the new range. -/
theorem covered_insertLength_iff {t t' : LocalCLTable} {g len cl : ℕ} (ht : MaskOnly sh t)
    (hg : g < 2 ^ groupIndexShift sh) (hlen : len < 2 ^ (63 - groupIndexShift sh))
    (h : insertLength sh t g len = (false, t')) :
    Covered sh t' cl ↔
      Covered sh t cl ∨ (groupSize * g ≤ cl ∧ cl < groupSize * (g + len)) := by
  have hspec := scanSlots_spec g len ht le_rfl
  unfold insertLength at h
  generalize scanSlots sh t g len localClTableSize = sc at h hspec
  dsimp only at h
  split at h
  · rename_i pos hpos
    obtain ⟨hposlt, hpos0⟩ := hspec.pos pos hpos
    obtain rfl : update _ pos _ = t' := by simpa using h
    constructor
    · rintro ⟨k, hk, hc⟩
      by_cases hkp : k = pos
      · subst hkp
        rw [update_self, hspec.entry] at hc
        exact .inr ((covers_lengthEntry hg hlen).mp hc)
      · rw [update_of_ne hkp] at hc
        by_cases hr : InRange sh g len (t k)
        · rw [hspec.dropped k hk hr] at hc
          exact absurd hc (not_covers_zero sh cl)
        · rw [hspec.kept k (.inr hr)] at hc
          exact .inl ⟨k, hk, hc⟩
    · rintro (⟨k, hk, hc⟩ | hc)
      · by_cases hr : InRange sh g len (t k)
        · -- a dropped mask entry lies inside the new range
          obtain ⟨hlo, hhi⟩ := Covers.group_of_lt (ht k hk) hc
          refine ⟨pos, hposlt, ?_⟩
          rw [update_self, hspec.entry, covers_lengthEntry hg hlen]
          obtain ⟨-, hge, hlt⟩ := hr
          rw [groupSize_eq] at *
          omega
        · have hkp : k ≠ pos := by
            rintro rfl
            rw [hspec.kept k (.inr hr)] at hpos0
            exact not_covers_zero sh cl (hpos0 ▸ hc)
          exact ⟨k, hk, by rwa [update_of_ne hkp, hspec.kept k (.inr hr)]⟩
      · refine ⟨pos, hposlt, ?_⟩
        rw [update_self, hspec.entry]
        exact (covers_lengthEntry hg hlen).mpr hc
  · simp at h

/-- A length insert into the empty table succeeds. -/
theorem insertLength_empty (sh g len : ℕ) : (insertLength sh empty g len).1 = false := by
  have hspec := scanSlots_spec g len (maskOnly_empty sh) le_rfl
  unfold insertLength
  generalize scanSlots sh empty g len localClTableSize = sc at hspec
  dsimp only
  split
  · rfl
  · rename_i hpos
    exact absurd rfl (hspec.none hpos 0 (by decide)).1

end LocalCLTable

end RACoherence
