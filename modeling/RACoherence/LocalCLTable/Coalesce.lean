import RACoherence.LocalCLTable.Reachable

/-!
# Length inserts and coalescing

`insert_length` coalesces every length entry with the new range alone, so of several only the last
one counts, and the coalesced entry starts at the larger of the two indices. `LengthFits` are the
tables on which a length insert is exact all the same.
-/

namespace RACoherence

open ClGroup Function

namespace LocalCLTable

variable {sh : ℕ}

/-- The line is covered by a length entry. -/
def CoveredByLength (sh : ℕ) (t : LocalCLTable) (cl : ℕ) : Prop :=
  ∃ k < localClTableSize, isLengthBased (t k) = true ∧ Covers sh (t k) cl

/-- The line is covered by a mask entry. -/
def CoveredByMask (sh : ℕ) (t : LocalCLTable) (cl : ℕ) : Prop :=
  ∃ k < localClTableSize, isLengthBased (t k) = false ∧ Covers sh (t k) cl

/-- The lines of groups `g … g + len - 1`. -/
def GroupLines (g len cl : ℕ) : Prop := groupSize * g ≤ cl ∧ cl < groupSize * (g + len)

/-- The last length entry of the table in slot order. -/
def LastLength (t : LocalCLTable) (k : ℕ) : Prop :=
  k < localClTableSize ∧ isLengthBased (t k) = true ∧
    ∀ j < localClTableSize, isLengthBased (t j) = true → j ≤ k

/-- `insert_length(g, len)` adds the lines of its groups and nothing else, and leaves a full table
alone. -/
def InsertLengthExact (sh : ℕ) (t : LocalCLTable) (g len : ℕ) : Prop :=
  match insertLength sh t g len with
  | (false, t') => ∀ cl, Covered sh t' cl ↔ Covered sh t cl ∨ GroupLines g len cl
  | (true, t') => t' = t

/-- The range fits onto the table: the last length entry does not start after it, and every line of a
length entry is in the groups from `g` to the larger of the two ends, or in a mask entry too. There is
nothing to check when the table holds no length entry. -/
def LengthFits (sh : ℕ) (t : LocalCLTable) (g len : ℕ) : Prop :=
  ∀ k, LastLength t k → getIndex sh (t k) ≤ g ∧ ∀ cl, CoveredByLength sh t cl →
    (groupSize * g ≤ cl ∧ cl < groupSize * max (g + len) (getIndex sh (t k) + getLength sh (t k))) ∨
    CoveredByMask sh t cl

theorem covered_iff_kinds {t : LocalCLTable} {cl : ℕ} :
    Covered sh t cl ↔ CoveredByMask sh t cl ∨ CoveredByLength sh t cl := by
  constructor
  · rintro ⟨k, hk, hc⟩
    cases hkind : isLengthBased (t k) with
    | false => exact .inl ⟨k, hk, hkind, hc⟩
    | true => exact .inr ⟨k, hk, hkind, hc⟩
  · rintro (⟨k, hk, -, hc⟩ | ⟨k, hk, -, hc⟩)
    · exact ⟨k, hk, hc⟩
    · exact ⟨k, hk, hc⟩

/-- A new range with a group in it is never taken to be apart from a length entry. -/
theorem tryCoalesce_eq {i g n len : ℕ} (hlen : 1 ≤ len) :
    tryCoalesce sh i g n len =
      max i g ||| shl64 (max (i + n) (g + len) - max i g) (groupIndexShift sh) ||| typeMask := by
  have hmax : ∀ a b : ℕ, (if a > b then a else b) = max a b := by
    intro a b
    split
    · omega
    · omega
  simp only [tryCoalesce, hmax]
  exact if_pos (by omega)

theorem tryCoalesce_ne_zero {i g n len : ℕ} (hlen : 1 ≤ len) : tryCoalesce sh i g n len ≠ 0 := by
  intro h0
  have hkind := isLengthBased_or_typeMask
    (max i g ||| shl64 (max (i + n) (g + len) - max i g) (groupIndexShift sh))
  rw [← tryCoalesce_eq hlen, h0, isLengthBased_zero] at hkind
  exact absurd hkind (by simp)

/-- What the coalesced entry covers. -/
theorem covers_tryCoalesce {v g len cl : ℕ} (hlen : 1 ≤ len) (hmax : len ≤ groupLenMax sh)
    (hg : g < 2 ^ groupIndexShift sh) :
    Covers sh (tryCoalesce sh (getIndex sh v) g (getLength sh v) len) cl ↔
      groupSize * max (getIndex sh v) g ≤ cl ∧
        cl < groupSize * max (getIndex sh v + getLength sh v) (g + len) := by
  have hidx : getIndex sh v < 2 ^ groupIndexShift sh := by
    rw [ClGroup.getIndex_eq]
    exact Nat.mod_lt _ (Nat.two_pow_pos _)
  have hn : getLength sh v < 2 ^ (63 - groupIndexShift sh) := by
    have hle := groupIndexShift_le sh
    rw [getLength_eq, Nat.div_lt_iff_lt_mul (Nat.two_pow_pos _), ← pow_add,
      Nat.sub_add_cancel (by omega)]
    exact Nat.mod_lt _ (Nat.two_pow_pos _)
  rw [groupLenMax, Nat.one_shiftLeft] at hmax
  rw [tryCoalesce_eq hlen, covers_lengthEntry (by omega) (by omega), groupSize_eq]
  omega

theorem exists_lastLength {t : LocalCLTable} {k : ℕ} (hk : k < localClTableSize)
    (hkind : isLengthBased (t k) = true) : ∃ k', LastLength t k' := by
  have hle : k ≤ localClTableSize - 1 := by omega
  have hlt : Nat.findGreatest (fun j => isLengthBased (t j) = true) (localClTableSize - 1) <
      localClTableSize := (Nat.findGreatest_le _).trans_lt (by decide)
  exact ⟨_, hlt, Nat.findGreatest_spec (P := fun j => isLengthBased (t j) = true) hle hkind,
    fun j hj hjkind => Nat.le_findGreatest (by omega) hjkind⟩

/-- `insert_length` with at least one group: a full table is left alone, otherwise every length entry
and every mask entry of the range makes way for the entry of the scan. -/
theorem insertLength_cases (t : LocalCLTable) {g len : ℕ} (hlen : 1 ≤ len) :
    (∃ t' sc, insertLength sh t g len = (false, t') ∧ Scanned sh t g len localClTableSize sc ∧
      ∀ cl, Covered sh t' cl ↔ Covers sh sc.entry cl ∨
        ∃ k < localClTableSize, ¬ Dropped sh g len (t k) ∧ Covers sh (t k) cl) ∨
    (insertLength sh t g len = (true, t) ∧
      ∀ k < localClTableSize, t k ≠ 0 ∧ ¬ Dropped sh g len (t k)) := by
  have hscan : Scanned sh t g len localClTableSize (scanSlots sh t g len localClTableSize) :=
    scanSlots_scanned fun _ _ _ => tryCoalesce_ne_zero hlen
  unfold insertLength
  generalize scanSlots sh t g len localClTableSize = sc at hscan
  dsimp only
  split
  · rename_i pos hpos
    obtain ⟨hlt, h0⟩ := hscan.pos pos hpos
    refine .inl ⟨_, sc, rfl, hscan, fun cl => ?_⟩
    rw [covered_update_iff hlt]
    refine or_congr_right ?_
    constructor
    · rintro ⟨k, hk, -, hc⟩
      by_cases hd : Dropped sh g len (t k)
      · rw [hscan.dropped k hk hd] at hc
        exact absurd hc (not_covers_zero sh cl)
      · rw [hscan.kept k (.inr hd)] at hc
        exact ⟨k, hk, hd, hc⟩
    · rintro ⟨k, hk, hd, hc⟩
      rw [← hscan.kept k (.inr hd)] at hc
      refine ⟨k, hk, ?_, hc⟩
      rintro rfl
      rw [h0] at hc
      exact not_covers_zero sh cl hc
  · rename_i hpos
    have hnone := hscan.none hpos
    refine .inr ⟨?_, hnone⟩
    have htable : sc.table = t := by
      funext k
      by_cases hk : k < localClTableSize
      · exact hscan.kept k (.inr (hnone k hk).2)
      · exact hscan.kept k (.inl (by omega))
    rw [htable]

/-- `insert_length` leaves the entries alone that it does not drop. -/
theorem insertLength_kept {t t' : LocalCLTable} {g len k : ℕ} (hlen : 1 ≤ len)
    (hins : insertLength sh t g len = (false, t')) (h0 : t k ≠ 0) (hk : ¬ Dropped sh g len (t k)) :
    t' k = t k := by
  have hscan : Scanned sh t g len localClTableSize (scanSlots sh t g len localClTableSize) :=
    scanSlots_scanned fun _ _ _ => tryCoalesce_ne_zero hlen
  unfold insertLength at hins
  generalize scanSlots sh t g len localClTableSize = sc at hscan hins
  dsimp only at hins
  split at hins
  · rename_i pos hpos
    obtain rfl := (Prod.mk.inj hins).2
    have hsame := hscan.kept k (.inr hk)
    have hne : k ≠ pos := by
      rintro rfl
      exact h0 (hsame.symm.trans (hscan.pos k hpos).2)
    rw [update_of_ne hne, hsame]
  · cases hins

/-- The entries that stay are the mask entries outside the range. -/
theorem kept_iff {t : LocalCLTable} (ht : Padded sh t) {g len cl : ℕ} :
    (∃ k < localClTableSize, ¬ Dropped sh g len (t k) ∧ Covers sh (t k) cl) ↔
      CoveredByMask sh t cl ∧ ¬ GroupLines g len cl := by
  have hgroup : ∀ k, isLengthBased (t k) = false → Covers sh (t k) cl →
      groupSize * getIndex sh (t k) ≤ cl ∧ cl < groupSize * (getIndex sh (t k) + 1) :=
    fun k hkind hc => Covers.group_of_lt (ht k hkind) hc
  simp only [GroupLines, groupSize_eq] at hgroup ⊢
  constructor
  · rintro ⟨k, hk, hd, hc⟩
    have hkind : isLengthBased (t k) = false := by
      simpa using fun h => hd (.inl h)
    have hne : t k ≠ 0 := fun h0 => not_covers_zero sh cl (h0 ▸ hc)
    have hout : ¬ (g ≤ getIndex sh (t k) ∧ getIndex sh (t k) < g + len) :=
      fun h => hd (.inr ⟨hne, h⟩)
    have hin := hgroup k hkind hc
    exact ⟨⟨k, hk, hkind, hc⟩, by omega⟩
  · rintro ⟨⟨k, hk, hkind, hc⟩, hout⟩
    have hin := hgroup k hkind hc
    refine ⟨k, hk, ?_, hc⟩
    rintro (hl | ⟨-, hr⟩)
    · rw [hkind] at hl
      exact absurd hl (by simp)
    · omega

/-- Coalescing with one entry `(i, n)` alone, as sets of lines: `byMask` and `byLength` are covered
before, and `(i, n)` is one of the length entries. -/
private theorem coalesce_exact_iff {i n g len : ℕ} {byMask byLength : ℕ → Prop} (hlen : 1 ≤ len)
    (hlast : ∀ cl, 16 * i ≤ cl ∧ cl < 16 * (i + n) → byLength cl) :
    (∀ cl, (16 * max i g ≤ cl ∧ cl < 16 * max (i + n) (g + len)) ∨
        (byMask cl ∧ ¬ (16 * g ≤ cl ∧ cl < 16 * (g + len))) ↔
      (byMask cl ∨ byLength cl) ∨ (16 * g ≤ cl ∧ cl < 16 * (g + len))) ↔
    i ≤ g ∧ ∀ cl, byLength cl →
      (16 * g ≤ cl ∧ cl < 16 * max (g + len) (i + n)) ∨ byMask cl := by
  constructor
  · intro h
    have hig : i ≤ g := by
      -- the first line of the range is in no mask entry that stays
      have hfirst := (h (16 * g)).mpr (.inr ⟨le_rfl, by omega⟩)
      omega
    refine ⟨hig, fun cl hc => ?_⟩
    rcases (h cl).mpr (.inl (.inr hc)) with hnew | hkept
    · exact .inl ⟨by omega, by omega⟩
    · exact .inr hkept.1
  · rintro ⟨hig, hfits⟩ cl
    have hmask : byMask cl → (16 * max i g ≤ cl ∧ cl < 16 * max (i + n) (g + len)) ∨
        (byMask cl ∧ ¬ (16 * g ≤ cl ∧ cl < 16 * (g + len))) := by
      intro hc
      by_cases hin : 16 * g ≤ cl ∧ cl < 16 * (g + len)
      · exact .inl ⟨by omega, by omega⟩
      · exact .inr ⟨hc, hin⟩
    constructor
    · rintro (hnew | hkept)
      · by_cases hin : cl < 16 * (g + len)
        · exact .inr ⟨by omega, hin⟩
        · exact .inl (.inr (hlast cl ⟨by omega, by omega⟩))
      · exact .inl (.inl hkept.1)
    · rintro ((hc | hc) | hnew)
      · exact hmask hc
      · rcases hfits cl hc with hin | hm
        · exact .inl ⟨by omega, by omega⟩
        · exact hmask hm
      · exact .inl ⟨by omega, by omega⟩

/-- A length insert is exact if and only if the range fits onto the table. -/
theorem insertLength_exact_iff {t : LocalCLTable} (ht : Reachable sh t) {g len : ℕ}
    (hlen : 1 ≤ len) (hmax : len ≤ groupLenMax sh) (hg : g + len ≤ 2 ^ groupIndexShift sh) :
    InsertLengthExact sh t g len ↔ LengthFits sh t g len := by
  have hlt : g < 2 ^ groupIndexShift sh := by omega
  rcases @insertLength_cases sh t g len hlen with ⟨t', sc, hins, hscan, hcov⟩ | ⟨hins, hnone⟩
  · rw [InsertLengthExact, hins]
    simp only [hcov, kept_iff ht.padded]
    by_cases hlength : ∃ k < localClTableSize, isLengthBased (t k) = true
    · obtain ⟨k₀, hk₀, hkind₀⟩ := hlength
      obtain ⟨k, hk, hkind, hlast⟩ := exists_lastLength hk₀ hkind₀
      have hone : ∀ k', LastLength t k' → k' = k := fun k' h =>
        le_antisymm (hlast k' h.1 h.2.1) (h.2.2 k hk hkind)
      have hfits : LengthFits sh t g len ↔ getIndex sh (t k) ≤ g ∧
          ∀ cl, CoveredByLength sh t cl → (groupSize * g ≤ cl ∧
            cl < groupSize * max (g + len) (getIndex sh (t k) + getLength sh (t k))) ∨
            CoveredByMask sh t cl :=
        ⟨fun h => h k ⟨hk, hkind, hlast⟩, fun h k' hk' => hone k' hk' ▸ h⟩
      rw [hfits]
      simp only [hscan.coalesced k hk hkind hlast, covers_tryCoalesce hlen hmax hlt,
        covered_iff_kinds, GroupLines, groupSize_eq]
      refine coalesce_exact_iff hlen fun cl hc => ⟨k, hk, hkind, ?_⟩
      rwa [covers_length sh hkind, groupSize_eq]
    · have hmask : ∀ k < localClTableSize, isLengthBased (t k) = false := by
        intro k hk
        simpa using fun h => hlength ⟨k, hk, h⟩
      refine iff_of_true (fun cl => ?_) fun k hk => absurd ⟨k, hk.1, hk.2.1⟩ hlength
      rw [groupLenMax, Nat.one_shiftLeft] at hmax
      rw [hscan.entry hmask, covers_lengthEntry hlt (by omega), covered_iff_kinds]
      have hno : ¬ CoveredByLength sh t cl := by
        rintro ⟨k, hk, hkind, -⟩
        exact hlength ⟨k, hk, hkind⟩
      simp only [GroupLines]
      tauto
  · rw [InsertLengthExact, hins]
    refine iff_of_true rfl fun k hk => ?_
    exact absurd (.inl hk.2.1) (hnone k hk.1).2

/-- Next to groups 0 to 3 the range of groups 0 to 7 fits. -/
theorem insertLength_exact_iff_fourGroups :
    Reachable 0 fourGroups ∧ 8 ≤ groupLenMax 0 ∧ 0 + 8 ≤ 2 ^ groupIndexShift 0 ∧
      (InsertLengthExact 0 fourGroups 0 8 ↔ LengthFits 0 fourGroups 0 8) :=
  ⟨reachable_fourGroups, by decide, by decide,
    insertLength_exact_iff reachable_fourGroups (by decide) (by decide) (by decide)⟩

/-- The range of groups 8 to 11 makes the table forget groups 0 to 3. -/
theorem insertLength_fourGroups_forgets :
    Reachable 0 fourGroups ∧ 4 ≤ groupLenMax 0 ∧ 8 + 4 ≤ 2 ^ groupIndexShift 0 ∧
      ¬ InsertLengthExact 0 fourGroups 8 4 := by
  refine ⟨reachable_fourGroups, by decide, by decide, fun h => ?_⟩
  have hlast : LastLength fourGroups 0 := by
    refine ⟨by decide, by decide, fun j _ hj => ?_⟩
    by_contra hne
    rw [fourGroups, update_of_ne (by omega), empty, isLengthBased_zero] at hj
    exact absurd hj (by simp)
  rcases @insertLength_cases 0 fourGroups 8 4 (by decide) with ⟨t', sc, hins, hscan, hcov⟩ | ⟨-, hnone⟩
  · rw [InsertLengthExact, hins] at h
    have hcovered : Covered 0 fourGroups 0 := ⟨0, by decide, by decide⟩
    have hentry := hscan.coalesced 0 (by decide) (by decide) hlast.2.2
    rcases (hcov 0).mp ((h 0).mpr (.inl hcovered)) with hc | ⟨k, hk, hd, hc⟩
    · rw [hentry] at hc
      exact absurd hc (by decide)
    · by_cases hk0 : k = 0
      · subst hk0
        exact hd (.inl (by decide))
      · rw [fourGroups, update_of_ne hk0] at hc
        exact not_covers_zero 0 0 hc
  · exact (hnone 0 (by decide)).2 (.inl (by decide))

end LocalCLTable

end RACoherence
