import RACoherence.LocalCLTable.Coalesce

/-!
# Where the masks of a range land

`insert_mask` ORs a mask into the first of the slots it probes that is empty or has the index of the group.
So the slots in which the masks of a range land can be told from the table before the call. A mask that
lands on a length entry makes the entry longer, and a length insert after it drops that entry again. With
these two effects what a range store records is known for any table.
-/

namespace RACoherence

open ClGroup Function

namespace LocalCLTable

variable {sh : ℕ}

/-! ## Landing -/

/-- The slots that `insert_mask` probes for group `g`, in order. -/
def probes (g : ℕ) : List ℕ :=
  (List.range' 0 localClTableSearchIters).map fun i => (g + i) &&& (localClTableSize - 1)

/-- Slot `k` can take a mask of group `g`: it has the group's index, or it is empty and not among those that
other groups have taken. -/
def takes (sh : ℕ) (t : LocalCLTable) (taken : List ℕ) (g k : ℕ) : Bool :=
  if t k = 0 then k ∉ taken else getIndex sh (t k) = g

/-- The slot where a mask of group `g` lands. -/
def landing (sh : ℕ) (t : LocalCLTable) (taken : List ℕ) (g : ℕ) : Option ℕ :=
  (probes g).find? (takes sh t taken g)

/-- The masks and the slots where they land, one after the other, up to the first for which there is no
room. -/
def landings (sh : ℕ) (t : LocalCLTable) (taken : List ℕ) : List GroupMask → List (GroupMask × ℕ)
  | [] => []
  | p :: ps =>
      match landing sh t taken p.group with
      | none => []
      | some k => (p, k) :: landings sh t (k :: taken) ps

/-- There is room for all the masks. -/
def HasRoom (sh : ℕ) (t : LocalCLTable) (ps : List GroupMask) : Prop :=
  (landings sh t [] ps).length = ps.length

instance (t : LocalCLTable) (ps : List GroupMask) : Decidable (HasRoom sh t ps) :=
  inferInstanceAs (Decidable (_ = _))

theorem getIndex_of_lt {g : ℕ} (hg : g < 2 ^ groupIndexShift sh) : getIndex sh g = g := by
  rw [getIndex_eq, Nat.mod_eq_of_lt hg]

private theorem insertMaskFrom_landing {t : LocalCLTable} {g m i n : ℕ} (hg : g < 2 ^ groupIndexShift sh) :
    insertMaskFrom sh t g m i n =
      match ((List.range' i n).map fun j => (g + j) &&& (localClTableSize - 1)).find? (takes sh t [] g) with
      | none => (true, t)
      | some k => (false, update t k (probeValue t k g ||| shl64 m (groupIndexShift sh))) := by
  induction n generalizing i with
  | zero => rfl
  | succ n ih =>
      rw [insertMaskFrom, List.range'_succ, List.map_cons, List.find?_cons]
      generalize (g + i) &&& (localClTableSize - 1) = k
      have htakes : takes sh t [] g k = true ↔ probeValue t k g &&& groupIndexMask sh = g := by
        have hidx : ∀ v, v &&& groupIndexMask sh = getIndex sh v := fun _ => rfl
        rw [takes, hidx]
        by_cases h0 : t k = 0
        · rw [if_pos h0, probeValue, if_neg (not_not.mpr h0), getIndex_of_lt hg]
          simp
        · rw [if_neg h0, probeValue, if_pos h0]
          simp
      by_cases hhit : probeValue t k g &&& groupIndexMask sh = g
      · rw [if_pos hhit, htakes.mpr hhit]
      · rw [if_neg hhit, ih, Bool.eq_false_iff.mpr fun h => hhit (htakes.mp h)]

/-- `insert_mask` by where its mask lands. -/
theorem insertMask_landing (t : LocalCLTable) {g : ℕ} (m : ℕ) (hg : g < 2 ^ groupIndexShift sh) :
    insertMask sh t g m =
      match landing sh t [] g with
      | none => (true, t)
      | some k => (false, update t k (probeValue t k g ||| shl64 m (groupIndexShift sh))) :=
  insertMaskFrom_landing hg

/-! ## One mask -/

/-- What is known of the table once the mask of group `g` has landed in slot `k`. -/
structure Landed (sh : ℕ) (t t' : LocalCLTable) (g m k : ℕ) : Prop where
  slot_lt : k < localClTableSize
  takes : takes sh t [] g k = true
  other : ∀ j, j ≠ k → t' j = t j
  kind : isLengthBased (t' k) = isLengthBased (t k)
  index : getIndex sh (t' k) = g
  ne_zero : t' k ≠ 0
  length : isLengthBased (t k) = true → getLength sh (t' k) = getLength sh (t k) ||| m
  covers : ∀ cl, isLengthBased (t k) = false → (Covers sh (t' k) cl ↔ Covers sh (t k) cl ∨ MaskLines g m cl)

theorem mem_probes_lt {g k : ℕ} (h : k ∈ probes g) : k < localClTableSize := by
  obtain ⟨i, -, rfl⟩ := List.mem_map.mp h
  exact probe_lt (g + i)

theorem takes_cases {t : LocalCLTable} {taken : List ℕ} {g k : ℕ} (h : takes sh t taken g k = true) :
    (t k = 0 ∧ k ∉ taken) ∨ (t k ≠ 0 ∧ getIndex sh (t k) = g) := by
  rw [takes] at h
  by_cases h0 : t k = 0
  · rw [if_pos h0] at h
    exact .inl ⟨h0, by simpa using h⟩
  · rw [if_neg h0] at h
    exact .inr ⟨h0, by simpa using h⟩

theorem landed_insertMask {t : LocalCLTable} {g m k : ℕ} (hm : m < 2 ^ 16) (hm0 : m ≠ 0)
    (hg : g < 2 ^ groupIndexShift sh) (hk : landing sh t [] g = some k) :
    Landed sh t (update t k (probeValue t k g ||| shl64 m (groupIndexShift sh))) g m k := by
  have htakes := List.find?_some hk
  have hlt := mem_probes_lt (List.mem_of_find?_eq_some hk)
  have hgv : g < 2 ^ (groupIndexShift sh + 16) := hg.trans_le (Nat.pow_le_pow_right (by omega) (by omega))
  have hshl : m <<< groupIndexShift sh ≠ 0 := by
    rw [Nat.shiftLeft_eq]
    exact Nat.mul_ne_zero hm0 (Nat.two_pow_pos _).ne'
  have hkind : isLengthBased (probeValue t k g) = isLengthBased (t k) := by
    rcases probeValue_cases t k g with h | ⟨h, h0⟩
    · rw [h]
    · rw [h, h0, isLengthBased_zero, not_isLengthBased_of_lt hgv]
  have hindex : getIndex sh (probeValue t k g) = g := by
    rcases takes_cases htakes with ⟨h0, -⟩ | ⟨h0, hidx⟩
    · rw [probeValue, if_neg (not_not.mpr h0), getIndex_of_lt hg]
    · rw [probeValue, if_pos h0, hidx]
  have hcovers : ∀ cl, Covers sh (probeValue t k g) cl ↔ Covers sh (t k) cl := by
    intro cl
    rcases probeValue_cases t k g with h | ⟨h, h0⟩
    · rw [h]
    · rw [h, h0, ← getIndex_of_lt hg]
      exact iff_of_false not_covers_getIndex (not_covers_zero sh cl)
  rw [shl64_mask hm]
  refine ⟨hlt, htakes, fun j hj => update_of_ne hj _ _, ?_, ?_, ?_, fun hlength => ?_, fun cl hmask => ?_⟩ <;>
    rw [update_self]
  · rw [isLengthBased_or_mask hm, hkind]
  · rw [getIndex_or_mask, hindex]
  · intro h0
    have hle : m <<< groupIndexShift sh ≤ probeValue t k g ||| m <<< groupIndexShift sh := Nat.right_le_or
    exact hshl (Nat.eq_zero_of_le_zero (h0 ▸ hle))
  · have hword : probeValue t k g = t k := by
      refine (probeValue_cases t k g).resolve_right ?_
      rintro ⟨-, h0⟩
      rw [h0, isLengthBased_zero] at hlength
      cases hlength
    rw [getLength_or_mask hm, hword]
  · rw [covers_or_mask_iff hm (hkind.trans hmask), hindex, hcovers]

/-- A mask insert that is not full has landed somewhere. -/
theorem exists_landed {t t' : LocalCLTable} {g m : ℕ} (hm : m < 2 ^ 16) (hm0 : m ≠ 0)
    (hg : g < 2 ^ groupIndexShift sh) (hins : insertMask sh t g m = (false, t')) :
    ∃ k, landing sh t [] g = some k ∧ Landed sh t t' g m k := by
  rw [insertMask_landing t m hg] at hins
  split at hins
  · cases hins
  · obtain rfl := (Prod.mk.inj hins).2
    exact ⟨_, ‹_›, landed_insertMask hm hm0 hg ‹_›⟩

namespace Landed

variable {t t' : LocalCLTable} {g m k : ℕ}

/-- A length entry stays one, and is as long as the mask makes it. -/
theorem covers_of_length (h : Landed sh t t' g m k) (hlength : isLengthBased (t k) = true) {cl : ℕ} :
    Covers sh (t' k) cl ↔ 16 * g ≤ cl ∧ cl < 16 * (g + (getLength sh (t k) ||| m)) := by
  rw [covers_length sh (h.kind.trans hlength), h.index, h.length hlength, groupSize_eq]

/-- A slot that takes masks of another group is not the one where this mask has landed. -/
theorem ne_of_takes (h : Landed sh t t' g m k) {taken : List ℕ} {g' k' : ℕ} (hne : g' ≠ g) (hk : k ∈ taken)
    (h' : LocalCLTable.takes sh t taken g' k' = true) : k' ≠ k := by
  rintro rfl
  rcases takes_cases h' with ⟨-, hnot⟩ | ⟨h0, hidx⟩
  · exact hnot hk
  · rcases takes_cases h.takes with ⟨h0', -⟩ | ⟨-, hidx'⟩
    · exact h0 h0'
    · exact hne (hidx.symm.trans hidx')

/-- For the other groups the slot is taken. -/
theorem takes_eq (h : Landed sh t t' g m k) {taken taken' : List ℕ} {g' : ℕ} (hne : g' ≠ g)
    (htaken : ∀ j, j ∈ taken' ↔ j = k ∨ j ∈ taken) :
    LocalCLTable.takes sh t' taken g' = LocalCLTable.takes sh t taken' g' := by
  funext j
  by_cases hj : j = k
  · subst hj
    have hnot : LocalCLTable.takes sh t taken' g' j = false :=
      Bool.eq_false_iff.mpr fun htrue => h.ne_of_takes hne ((htaken j).mpr (.inl rfl)) htrue rfl
    rw [hnot, LocalCLTable.takes, if_neg h.ne_zero, h.index]
    exact decide_eq_false hne.symm
  · simp only [LocalCLTable.takes, h.other j hj, htaken, hj, false_or]

private theorem landings_congr (h : Landed sh t t' g m k) {taken taken' : List ℕ} {ps : List GroupMask}
    (hne : ∀ p ∈ ps, p.group ≠ g) (htaken : ∀ j, j ∈ taken' ↔ j = k ∨ j ∈ taken) :
    landings sh t' taken ps = landings sh t taken' ps := by
  induction ps generalizing taken taken' with
  | nil => rfl
  | cons p ps ih =>
      have hp : landing sh t' taken p.group = landing sh t taken' p.group := by
        rw [landing, landing, h.takes_eq (hne p (List.mem_cons_self ..)) htaken]
      rw [landings, landings, hp]
      cases landing sh t taken' p.group with
      | none => rfl
      | some j =>
          refine congrArg _ (ih (fun q hq => hne q (List.mem_cons_of_mem p hq)) fun i => ?_)
          rw [List.mem_cons, List.mem_cons, htaken]
          exact or_left_comm

/-- The masks of the other groups land where they would have landed without this one, had the slot been
taken. -/
theorem landings_eq (h : Landed sh t t' g m k) {ps : List GroupMask} (hne : ∀ p ∈ ps, p.group ≠ g) :
    landings sh t' [] ps = landings sh t [k] ps :=
  h.landings_congr hne fun j => by simp

/-- They do not land in this slot. -/
theorem ne_of_landings (h : Landed sh t t' g m k) {taken : List ℕ} {ps : List GroupMask}
    (hne : ∀ p ∈ ps, p.group ≠ g) (hk : k ∈ taken) : ∀ l ∈ landings sh t taken ps, l.2 ≠ k := by
  induction ps generalizing taken with
  | nil => simp [landings]
  | cons p ps ih =>
      intro l hl
      rw [landings] at hl
      cases hp : landing sh t taken p.group with
      | none => simp [hp] at hl
      | some j =>
          simp only [hp] at hl
          rcases List.mem_cons.mp hl with rfl | hl
          · exact h.ne_of_takes (hne p (List.mem_cons_self ..)) hk (List.find?_some hp)
          · exact ih (fun q hq => hne q (List.mem_cons_of_mem p hq)) (List.mem_cons_of_mem j hk) l hl

end Landed

/-! ## What the masks add, and what a length insert keeps -/

/-- A mask lands on a length entry, whose length then reaches the line. -/
def Widened (sh : ℕ) (t : LocalCLTable) (ls : List (GroupMask × ℕ)) (cl : ℕ) : Prop :=
  ∃ l ∈ ls, isLengthBased (t l.2) = true ∧ 16 * l.1.group ≤ cl ∧
    cl < 16 * (l.1.group + (getLength sh (t l.2) ||| l.1.mask))

/-- The line is in a mask that lands on an empty slot or on a mask entry. -/
def InMask (t : LocalCLTable) (ls : List (GroupMask × ℕ)) (cl : ℕ) : Prop :=
  ∃ l ∈ ls, isLengthBased (t l.2) = false ∧ MaskLines l.1.group l.1.mask cl

/-- After the masks have landed, the line is in an entry that `insert_length(g, len)` leaves alone: a mask
entry outside the range. -/
def Stays (sh : ℕ) (t : LocalCLTable) (ls : List (GroupMask × ℕ)) (g len cl : ℕ) : Prop :=
  (∃ k < localClTableSize, ¬ Dropped sh g len (t k) ∧ Covers sh (t k) cl) ∨ InMask t ls cl

/-- The line is in the entry that `insert_length(g, len)` makes after the masks have landed: the range
itself, when there is no length entry; otherwise what is coalesced from the range and the last length entry,
which starts at the larger index and ends at the larger end. -/
def InNewEntry (sh : ℕ) (t : LocalCLTable) (ls : List (GroupMask × ℕ)) (g len cl : ℕ) : Prop :=
  ((∀ k, ¬ LastLength t k) ∧ GroupLines g len cl) ∨
  ∃ k, LastLength t k ∧ 16 * max (getIndex sh (t k)) g ≤ cl ∧
    (cl < 16 * max (getIndex sh (t k) + getLength sh (t k)) (g + len) ∨
      ∃ l ∈ ls, l.2 = k ∧ cl < 16 * (getIndex sh (t k) + (getLength sh (t k) ||| l.1.mask)))

/-- After the masks have landed, `insert_length(g, len)` finds a slot: one that it empties, or an empty one.
-/
def HasSlot (sh : ℕ) (t : LocalCLTable) (ls : List (GroupMask × ℕ)) (g len : ℕ) : Prop :=
  ∃ k < localClTableSize, Dropped sh g len (t k) ∨ (t k = 0 ∧ ∀ l ∈ ls, l.2 ≠ k)

namespace Landed

variable {t t' : LocalCLTable} {g m k : ℕ} {ls : List (GroupMask × ℕ)}

theorem widened_iff (h : Landed sh t t' g m k) (hls : ∀ l ∈ ls, l.2 ≠ k) (cl : ℕ) :
    Widened sh t' ls cl ↔ Widened sh t ls cl := by
  refine exists_congr fun l => and_congr_right fun hl => ?_
  rw [h.other l.2 (hls l hl)]

theorem inMask_iff (h : Landed sh t t' g m k) (hls : ∀ l ∈ ls, l.2 ≠ k) (cl : ℕ) :
    InMask t' ls cl ↔ InMask t ls cl := by
  refine exists_congr fun l => and_congr_right fun hl => ?_
  rw [h.other l.2 (hls l hl)]

/-- What the table covers with the mask in it. -/
theorem covered_iff (h : Landed sh t t' g m k) (hm : m < 2 ^ 16) (cl : ℕ) :
    Covered sh t' cl ↔ Covered sh t cl ∨ Widened sh t [(⟨g, m⟩, k)] cl ∨ MaskLines g m cl := by
  have hothers : (∃ j < localClTableSize, j ≠ k ∧ Covers sh (t' j) cl) ↔
      ∃ j < localClTableSize, j ≠ k ∧ Covers sh (t j) cl := by
    refine exists_congr fun j => and_congr_right fun _ => and_congr_right fun hj => ?_
    rw [h.other j hj]
  rw [covered_iff_slot h.slot_lt, covered_iff_slot (t := t) h.slot_lt, hothers]
  cases hkind : isLengthBased (t k) with
  | false =>
      rw [h.covers cl hkind]
      simp only [Widened, List.mem_singleton, exists_eq_left, hkind, Bool.false_eq_true, false_and, false_or]
      exact or_right_comm
  | true =>
      have hmask : MaskLines g m cl → 16 * g ≤ cl ∧ cl < 16 * (g + (getLength sh (t k) ||| m)) := by
        rintro ⟨p, hp, rfl⟩
        have hpow : 2 ^ p ≤ m := Nat.ge_two_pow_of_testBit hp
        have hlt : p < 16 := (Nat.pow_lt_pow_iff_right (by omega)).mp (hpow.trans_lt hm)
        have hle : m ≤ getLength sh (t k) ||| m := Nat.right_le_or
        have hpos : 0 < 2 ^ p := Nat.two_pow_pos p
        rw [groupSize_eq]
        omega
      have hgrow : Covers sh (t k) cl → 16 * g ≤ cl ∧ cl < 16 * (g + (getLength sh (t k) ||| m)) := by
        intro hc
        have hidx : getIndex sh (t k) = g := by
          refine ((takes_cases h.takes).resolve_left ?_).2
          rintro ⟨h0, -⟩
          rw [h0, isLengthBased_zero] at hkind
          cases hkind
        have hle : getLength sh (t k) ≤ getLength sh (t k) ||| m := Nat.left_le_or
        rw [covers_length sh hkind, hidx, groupSize_eq] at hc
        omega
      rw [h.covers_of_length hkind]
      simp only [Widened, List.mem_singleton, exists_eq_left, hkind, true_and]
      constructor
      · rintro (hw | ho)
        · exact .inr (.inl hw)
        · exact .inl (.inr ho)
      · rintro ((hc | ho) | hw | hline)
        · exact .inl (hgrow hc)
        · exact .inr ho
        · exact .inl hw
        · exact .inl (hmask hline)

/-- A length insert for other groups drops what is in the slot if it is a length entry. -/
theorem dropped_slot (h : Landed sh t t' g m k) {g₀ len : ℕ} (hout : ¬ (g₀ ≤ g ∧ g < g₀ + len)) :
    (Dropped sh g₀ len (t' k) ↔ isLengthBased (t k) = true) ∧
      (Dropped sh g₀ len (t k) ↔ isLengthBased (t k) = true) := by
  have hidx : t k ≠ 0 → getIndex sh (t k) = g := fun h0 =>
    ((takes_cases h.takes).resolve_left fun h0' => h0 h0'.1).2
  rw [Dropped, Dropped, h.kind, InRange, InRange, h.index]
  refine ⟨⟨?_, .inl⟩, ⟨?_, .inl⟩⟩
  · rintro (hl | ⟨-, hin⟩)
    · exact hl
    · exact absurd hin hout
  · rintro (hl | ⟨h0, hin⟩)
    · exact hl
    · rw [hidx h0] at hin
      exact absurd hin hout

theorem dropped_iff (h : Landed sh t t' g m k) {g₀ len : ℕ} (hout : ¬ (g₀ ≤ g ∧ g < g₀ + len)) (j : ℕ) :
    Dropped sh g₀ len (t' j) ↔ Dropped sh g₀ len (t j) := by
  by_cases hj : j = k
  · obtain ⟨h', h''⟩ := h.dropped_slot hout
    rw [hj, h', h'']
  · rw [h.other j hj]

/-- Whether a length insert finds a slot. -/
theorem hasSlot_iff (h : Landed sh t t' g m k) {g₀ len : ℕ} (hout : ¬ (g₀ ≤ g ∧ g < g₀ + len)) :
    HasSlot sh t' ls g₀ len ↔ HasSlot sh t ((⟨g, m⟩, k) :: ls) g₀ len := by
  refine exists_congr fun j => and_congr_right fun _ => ?_
  rw [h.dropped_iff hout]
  refine or_congr_right ?_
  rw [List.forall_mem_cons]
  by_cases hj : j = k
  · subst hj
    exact iff_of_false (fun hzero => h.ne_zero hzero.1) fun hne => hne.2.1 rfl
  · have hkj : k ≠ j := fun heq => hj heq.symm
    rw [h.other j hj]
    exact and_congr_right fun _ => (and_iff_right hkj).symm

/-- A mask outside the range of a length insert changes nothing about which entries the insert keeps. -/
theorem stays_iff (h : Landed sh t t' g m k) (hls : ∀ l ∈ ls, l.2 ≠ k) {g₀ len : ℕ}
    (hout : ¬ (g₀ ≤ g ∧ g < g₀ + len)) (cl : ℕ) :
    Stays sh t' ls g₀ len cl ↔ Stays sh t ((⟨g, m⟩, k) :: ls) g₀ len cl := by
  obtain ⟨hdropped', hdropped⟩ := h.dropped_slot hout
  have hslot : (¬ Dropped sh g₀ len (t' k) ∧ Covers sh (t' k) cl) ↔
      (¬ Dropped sh g₀ len (t k) ∧ Covers sh (t k) cl) ∨ (isLengthBased (t k) = false ∧ MaskLines g m cl) := by
    rw [hdropped', hdropped]
    cases hkind : isLengthBased (t k) with
    | false =>
        rw [h.covers cl hkind]
        simp
    | true => simp
  have hkept : (∃ j < localClTableSize, ¬ Dropped sh g₀ len (t' j) ∧ Covers sh (t' j) cl) ↔
      (∃ j < localClTableSize, ¬ Dropped sh g₀ len (t j) ∧ Covers sh (t j) cl) ∨
        (isLengthBased (t k) = false ∧ MaskLines g m cl) := by
    constructor
    · rintro ⟨j, hj, hc⟩
      by_cases hjk : j = k
      · subst hjk
        exact (hslot.mp hc).imp_left fun hc => ⟨j, hj, hc⟩
      · rw [h.other j hjk] at hc
        exact .inl ⟨j, hj, hc⟩
    · rintro (⟨j, hj, hc⟩ | hc)
      · by_cases hjk : j = k
        · subst hjk
          exact ⟨j, hj, hslot.mpr (.inl hc)⟩
        · exact ⟨j, hj, by rwa [h.other j hjk]⟩
      · exact ⟨k, h.slot_lt, hslot.mpr (.inr hc)⟩
  rw [Stays, Stays, hkept, h.inMask_iff hls, or_assoc]
  simp only [InMask, List.mem_cons, exists_eq_or_imp]

theorem lastLength_iff (h : Landed sh t t' g m k) (j : ℕ) : LastLength t' j ↔ LastLength t j := by
  have hkind : ∀ i, isLengthBased (t' i) = isLengthBased (t i) := by
    intro i
    by_cases hi : i = k
    · rw [hi, h.kind]
    · rw [h.other i hi]
  simp only [LastLength, hkind]

/-- A mask that lands on the last length entry makes it longer before it is coalesced. -/
theorem inNewEntry_iff (h : Landed sh t t' g m k) (hls : ∀ l ∈ ls, l.2 ≠ k) {g₀ len : ℕ} (cl : ℕ) :
    InNewEntry sh t' ls g₀ len cl ↔ InNewEntry sh t ((⟨g, m⟩, k) :: ls) g₀ len cl := by
  simp only [InNewEntry, h.lastLength_iff]
  refine or_congr_right (exists_congr fun j => and_congr_right fun hj => ?_)
  simp only [List.mem_cons, exists_eq_or_imp]
  by_cases hjk : j = k
  · subst hjk
    have hnone (P : GroupMask × ℕ → Prop) : ¬ ∃ l ∈ ls, l.2 = j ∧ P l := by
      rintro ⟨l, hl, hlj, -⟩
      exact hls l hl hlj
    have hidx : getIndex sh (t j) = g := by
      refine ((takes_cases h.takes).resolve_left ?_).2
      rintro ⟨h0, -⟩
      have hkind := hj.2.1
      rw [h0, isLengthBased_zero] at hkind
      cases hkind
    have hle : getLength sh (t j) ≤ getLength sh (t j) ||| m := Nat.left_le_or
    simp only [hnone, or_false, h.index, hidx, h.length hj.2.1, true_and]
    omega
  · have hkj : k ≠ j := fun heq => hjk heq.symm
    simp only [h.other j hjk, hkj, false_and, false_or]

end Landed

/-! ## What a range insert records -/

theorem landings_cons {t t' : LocalCLTable} {p : GroupMask} {ps : List GroupMask} {k : ℕ}
    (h : Landed sh t t' p.group p.mask k) (hk : landing sh t [] p.group = some k)
    (hne : ∀ q ∈ ps, q.group ≠ p.group) : landings sh t [] (p :: ps) = (p, k) :: landings sh t' [] ps := by
  rw [landings, hk, h.landings_eq hne]

theorem hasRoom_cons {t t' : LocalCLTable} {p : GroupMask} {ps : List GroupMask} {k : ℕ}
    (h : Landed sh t t' p.group p.mask k) (hk : landing sh t [] p.group = some k)
    (hne : ∀ q ∈ ps, q.group ≠ p.group) : HasRoom sh t (p :: ps) ↔ HasRoom sh t' ps := by
  rw [HasRoom, HasRoom, landings_cons h hk hne, List.length_cons, List.length_cons, Nat.add_right_cancel_iff]

/-- What a table covers after the masks, when no length entry follows or there is no room for one of them. -/
def MasksRecord (sh : ℕ) (t : LocalCLTable) (ps : List GroupMask) (b e cl : ℕ) : Prop :=
  Covered sh t cl ∨ Widened sh t (landings sh t [] ps) cl ∨ RangeLines b e cl

/-- What a table covers after the masks and the length entry of a range. -/
def LengthRecords (sh : ℕ) (t : LocalCLTable) (ps : List GroupMask) (b e cl : ℕ) : Prop :=
  Stays sh t (landings sh t [] ps) ((b + 15) / 16) (fullGroups b e) cl ∨
    InNewEntry sh t (landings sh t [] ps) ((b + 15) / 16) (fullGroups b e) cl

/-- What one call records, or leaves for the next one, on any table. -/
structure LandingSpec (sh : ℕ) (t : LocalCLTable) (ps : List GroupMask) (b e : ℕ)
    (r : RangeResult) : Prop where
  bounds : r.full = true → r.begin ≤ r.end_ ∧ r.end_ ≤ e ∧ fullGroups r.begin r.end_ ≤ fullGroups b e
  full : HasRoom sh t ps → (groupLenMin ≤ fullGroups b e →
    HasSlot sh t (landings sh t [] ps) ((b + 15) / 16) (fullGroups b e)) → r.full = false
  masks : fullGroups b e < groupLenMin ∨ ¬ HasRoom sh t ps → ∀ cl,
    (Covered sh r.table cl ∨ r.Rest cl ↔ MasksRecord sh t ps b e cl)
  length : groupLenMin ≤ fullGroups b e → HasRoom sh t ps → ∀ cl,
    (Covered sh r.table cl ∨ r.Rest cl ↔ LengthRecords sh t ps b e cl)

private theorem not_inMask_nil {t : LocalCLTable} {cl : ℕ} : ¬ InMask t [] cl := by
  rintro ⟨l, hl, -⟩
  cases hl

private theorem or_or_or_or_comm {p q r p' r' : Prop} : (p ∨ q ∨ r) ∨ p' ∨ r' ↔ p ∨ (q ∨ p') ∨ r ∨ r' := by
  tauto

private theorem widened_cons {t : LocalCLTable} {l : GroupMask × ℕ} {ls : List (GroupMask × ℕ)} {cl : ℕ} :
    Widened sh t (l :: ls) cl ↔ Widened sh t [l] cl ∨ Widened sh t ls cl := by
  simp only [Widened, List.mem_cons, List.not_mem_nil, or_false, exists_eq_left, exists_eq_or_imp]

private theorem not_widened_nil {t : LocalCLTable} {cl : ℕ} : ¬ Widened sh t [] cl := by
  rintro ⟨l, hl, -⟩
  cases hl

/-- The entry that `insert_length` makes. -/
private theorem covers_entry {t : LocalCLTable} {g len cl : ℕ} {sc : Scan} (hmin : 1 ≤ len)
    (hmax : len ≤ groupLenMax sh) (hg : g < 2 ^ groupIndexShift sh)
    (hscan : Scanned sh t g len localClTableSize sc) :
    Covers sh sc.entry cl ↔ InNewEntry sh t [] g len cl := by
  have hnil : ∀ P : GroupMask × ℕ → Prop, ¬ ∃ l ∈ ([] : List (GroupMask × ℕ)), P l := by simp
  simp only [InNewEntry, hnil, or_false]
  by_cases hlength : ∃ k, LastLength t k
  · obtain ⟨k, hk, hkind, hlast⟩ := hlength
    rw [hscan.coalesced k hk hkind hlast, covers_tryCoalesce hmin hmax hg, groupSize_eq]
    constructor
    · exact fun h => .inr ⟨k, ⟨hk, hkind, hlast⟩, h⟩
    · rintro (⟨hnone, -⟩ | ⟨k', hk', h⟩)
      · exact absurd ⟨hk, hkind, hlast⟩ (hnone k)
      · obtain rfl := le_antisymm (hlast k' hk'.1 hk'.2.1) (hk'.2.2 k hk hkind)
        exact h
  · have hmask : ∀ k < localClTableSize, isLengthBased (t k) = false := by
      intro k hk
      simpa using fun hkind => hlength (exists_lastLength hk hkind)
    rw [groupLenMax, Nat.one_shiftLeft] at hmax
    rw [hscan.entry hmask, covers_lengthEntry hg (by omega), GroupLines]
    constructor
    · exact fun h => .inl ⟨fun k hk => hlength ⟨k, hk⟩, h⟩
    · rintro (⟨-, h⟩ | ⟨k, hk, -⟩)
      · exact h
      · exact absurd ⟨k, hk⟩ hlength

private theorem LandingSpec.of_insertLength {t t' : LocalCLTable} {g len : ℕ} {full : Bool}
    (hmin : groupLenMin ≤ len) (hmax : len ≤ groupLenMax sh) (hg : g + len ≤ 2 ^ groupIndexShift sh)
    (hins : insertLength sh t g len = (full, t')) :
    LandingSpec sh t [] (16 * g) (16 * (g + len))
      ⟨full, t', if full then 16 * g else 16 * (g + len), 16 * (g + len)⟩ := by
  have hgroups : fullGroups (16 * g) (16 * (g + len)) = len := by
    simp only [fullGroups]
    omega
  have hceil : (16 * g + 15) / 16 = g := by omega
  have hpos : 1 ≤ len := le_trans (by decide) hmin
  refine ⟨fun hfull => ?_, fun _ hslot => ?_, fun h => ?_, fun _ _ cl => ?_⟩
  · have hfull : full = true := hfull
    rw [hfull, if_pos rfl]
    exact ⟨Nat.mul_le_mul_left 16 (Nat.le_add_right g len), le_rfl, le_rfl⟩
  · rw [hgroups, hceil] at hslot
    obtain ⟨k, hk, hk'⟩ := hslot hmin
    rcases @insertLength_cases sh t g len hpos with ⟨t'', sc, hok, -⟩ | ⟨-, hnone⟩
    · exact (Prod.mk.inj (hins.symm.trans hok)).1
    · rcases hk' with hdropped | ⟨h0, -⟩
      · exact absurd hdropped (hnone k hk).2
      · exact absurd h0 (hnone k hk).1
  · rcases h with hlt | hroom
    · omega
    · exact absurd rfl hroom
  · rw [LengthRecords, hgroups, hceil, landings, Stays]
    simp only [not_inMask_nil, or_false]
    rcases @insertLength_cases sh t g len hpos with ⟨t'', sc, hok, hscan, hcov⟩ | ⟨hfull, hnone⟩
    · obtain ⟨rfl, rfl⟩ := Prod.mk.inj (hok.symm.trans hins)
      rw [← covers_entry hpos hmax (by omega) hscan, hcov]
      simp only [RangeResult.Rest, Bool.false_eq_true, false_and, or_false]
      exact or_comm
    · obtain ⟨rfl, rfl⟩ := Prod.mk.inj (hfull.symm.trans hins)
      -- the table holds no length entry and no mask entry of the range, and keeps all it has
      have hstays : (∃ k < localClTableSize, ¬ Dropped sh g len (t k) ∧ Covers sh (t k) cl) ↔ Covered sh t cl :=
        exists_congr fun k => and_congr_right fun hk => and_iff_right (hnone k hk).2
      have hnolength : ∀ k, ¬ LastLength t k := fun k hk => (hnone k hk.1).2 (.inl hk.2.1)
      have hnew : InNewEntry sh t [] g len cl ↔ RangeLines (16 * g) (16 * (g + len)) cl := by
        simp only [InNewEntry, hnolength, false_and, exists_false, or_false, not_false_eq_true, implies_true,
          true_and, GroupLines, RangeLines, groupSize_eq]
        omega
      rw [hstays, hnew]
      simp only [RangeResult.Rest, if_true, true_and]

/-- The inserts of one call on any table. -/
theorem RangeInserts.landing {t : LocalCLTable} {ps : List GroupMask} {b e : ℕ} {r : RangeResult}
    (h : RangeInserts sh t ps b e r) : LandingSpec sh t ps b e r := by
  induction h with
  | @done t g e =>
      have hgroups : fullGroups (16 * g) (16 * g) = 0 := by
        simp only [fullGroups]
        omega
      refine ⟨by simp, fun _ _ => rfl, fun _ cl => ?_, fun hmin => ?_⟩
      · simp only [MasksRecord, landings, not_widened_nil, RangeResult.Rest, Bool.false_eq_true, false_and,
          or_false, false_or, RangeLines]
        refine (or_iff_left ?_).symm
        omega
      · rw [hgroups] at hmin
        simp [groupLenMin] at hmin
  | @full t p ps b e hbe hg hins =>
      have hnone : LocalCLTable.landing sh t [] p.group = none := by
        rw [insertMask_landing t p.mask hg] at hins
        split at hins
        · assumption
        · cases hins
      have hland : landings sh t [] (p :: ps) = [] := by
        rw [landings, hnone]
      have hroom : ¬ HasRoom sh t (p :: ps) := by
        rw [HasRoom, hland]
        simp
      refine ⟨fun _ => ⟨hbe, le_rfl, le_rfl⟩, fun h => absurd h hroom, fun _ cl => ?_, fun _ h => absurd h hroom⟩
      simp only [MasksRecord, hland, not_widened_nil, false_or, RangeResult.Rest, true_and]
  | @mask t t' p ps b e b' e' r hm hm0 hg hins hlines he _ hgroups hlong hother _ ih =>
      obtain ⟨k, hk, hlanded⟩ := exists_landed hm hm0 hg hins
      have hne := hlanded.ne_of_landings hother (List.mem_singleton_self k)
      rw [← hlanded.landings_eq hother] at hne
      have hcons := landings_cons hlanded hk hother
      have hroom := hasRoom_cons hlanded hk hother
      refine ⟨fun hfull => ?_, fun h hslot => ih.full (hroom.mp h) fun hmin => ?_, fun h cl => ?_,
        fun hmin h cl => ?_⟩
      · obtain ⟨h₁, h₂, h₃⟩ := ih.bounds hfull
        exact ⟨h₁, h₂.trans he, h₃.trans hgroups⟩
      · have hmin' := hmin.trans hgroups
        obtain ⟨hstart, heq, hout⟩ := hlong hmin'
        rw [hstart, heq, hlanded.hasSlot_iff hout, ← hcons]
        exact hslot hmin'
      · rw [ih.masks (h.imp hgroups.trans_lt (mt hroom.mpr)) cl, MasksRecord, MasksRecord,
          hlanded.covered_iff hm, hlanded.widened_iff hne, hlines, hcons,
          @widened_cons sh t (p, k) (landings sh _ [] ps)]
        exact or_or_or_or_comm
      · obtain ⟨hstart, heq, hout⟩ := hlong hmin
        rw [ih.length (heq ▸ hmin) (hroom.mp h) cl, LengthRecords, LengthRecords, hstart, heq,
          hlanded.stays_iff hne hout, hlanded.inNewEntry_iff hne, hcons]
  | length hmin hmax hg hins => exact .of_insertLength hmin hmax hg hins

/-- One call of `range_insert` on any table. -/
theorem rangeInsert_landing (fuel : ℕ) (t : LocalCLTable) {b e : ℕ} (hbe : b ≤ e)
    (he : e / 16 < 2 ^ groupIndexShift sh) (hlen : fullGroups b e ≤ groupLenMax sh) :
    ∃ r, rangeInsert sh (fuel + 2) t b e = some r ∧ LandingSpec sh t (rangeMasks b e) b e r := by
  obtain ⟨r, hr, hinserts⟩ := rangeInsert_inserts fuel t hbe he hlen
  exact ⟨r, hr, hinserts.landing⟩

end LocalCLTable

end RACoherence
