import Mathlib.Data.List.Forall2
import Mathlib.Data.List.Induction
import RACoherence.ThreadOps.RangeStore

/-!
# The inline cache

`log_store` returns early when its line is `recent_cl`. That is harmless when inserting the line again
would not change the table, which holds whenever `recent_cl` was set by `log_store`: the line has just
been inserted. `log_range_store` also sets `recent_cl`, to the end line of its range, whether or not
`range_insert` put that line into the table.
-/

namespace RACoherence

open ClGroup LocalCLTable Function

namespace LocalCLTable

variable {sh : ℕ}

/-! ## Inserting a second time -/

/-- Inserting the mask `m` of group `g` leaves the table as it is. -/
def Settled (sh : ℕ) (t : LocalCLTable) (g m : ℕ) : Prop := insertMask sh t g m = (false, t)

/-- A change of the table that keeps the indices of its entries does not move the slot where a mask lands. -/
private theorem landing_of_kept {t t' : LocalCLTable} {g k : ℕ} (h : landing sh t [] g = some k)
    (hk : takes sh t' [] g k = true)
    (hkeep : ∀ j ∈ probes g, t j ≠ 0 → t' j ≠ 0 ∧ getIndex sh (t' j) = getIndex sh (t j)) :
    landing sh t' [] g = some k := by
  obtain ⟨-, as, bs, hprobes, has⟩ := List.find?_eq_some_iff_append.mp h
  refine List.find?_eq_some_iff_append.mpr ⟨hk, as, bs, hprobes, fun j hj => ?_⟩
  have hnot := has j hj
  rw [takes] at hnot ⊢
  by_cases h0 : t j = 0
  · simp [h0] at hnot
  · obtain ⟨h0', hidx⟩ := hkeep j (hprobes ▸ List.mem_append_left _ hj) h0
    rw [if_neg h0] at hnot
    rwa [if_neg h0', hidx]

/-- A mask is settled if and only if it is in the entry where it lands. -/
theorem settled_iff {t : LocalCLTable} {g m : ℕ} (hm : m < 2 ^ 16) (hm0 : m ≠ 0)
    (hg : g < 2 ^ groupIndexShift sh) :
    Settled sh t g m ↔
      ∃ k, landing sh t [] g = some k ∧ t k ≠ 0 ∧ t k ||| m <<< groupIndexShift sh = t k := by
  rw [Settled, insertMask_landing t m hg]
  cases hk : landing sh t [] g with
  | none => simp
  | some k =>
      have hlanded := landed_insertMask hm hm0 hg hk
      rw [shl64_mask hm] at hlanded ⊢
      simp only [Prod.mk.injEq, true_and, Option.some.injEq, exists_eq_left']
      constructor
      · intro heq
        rw [heq] at hlanded
        have hword := congrFun heq k
        rw [update_self, probeValue, if_pos hlanded.ne_zero] at hword
        exact ⟨hlanded.ne_zero, hword⟩
      · rintro ⟨h0, hword⟩
        rw [probeValue, if_pos h0, hword, update_eq_self]

/-- A change of the table that keeps the bits of its entries keeps a mask settled. -/
private theorem Settled.of_kept {t t' : LocalCLTable} {g m : ℕ} (hm : m < 2 ^ 16) (hm0 : m ≠ 0)
    (hg : g < 2 ^ groupIndexShift sh) (h : Settled sh t g m)
    (hkeep : ∀ j ∈ probes g, t j ≠ 0 → t' j ≠ 0 ∧ getIndex sh (t' j) = getIndex sh (t j) ∧
      (t j ||| m <<< groupIndexShift sh = t j → t' j ||| m <<< groupIndexShift sh = t' j)) :
    Settled sh t' g m := by
  obtain ⟨k, hk, h0, hword⟩ := (settled_iff hm hm0 hg).mp h
  obtain ⟨h0', hidx, hbits⟩ := hkeep k (List.mem_of_find?_eq_some hk) h0
  refine (settled_iff hm hm0 hg).mpr ⟨k, landing_of_kept hk ?_ fun j hj hj0 => ?_, h0', hbits hword⟩
  · have htakes := List.find?_some hk
    rw [takes, if_neg h0] at htakes
    rwa [takes, if_neg h0', hidx]
  · exact ⟨(hkeep j hj hj0).1, (hkeep j hj hj0).2.1⟩

/-- A mask that has just been inserted is settled. -/
theorem settled_insertMask {t t' : LocalCLTable} {g m : ℕ} (hm : m < 2 ^ 16) (hm0 : m ≠ 0)
    (hg : g < 2 ^ groupIndexShift sh) (h : insertMask sh t g m = (false, t')) : Settled sh t' g m := by
  rw [insertMask_landing t m hg] at h
  split at h
  · cases h
  · rename_i k hk
    obtain rfl := (Prod.mk.inj h).2
    have hlanded := landed_insertMask hm hm0 hg hk
    refine (settled_iff hm hm0 hg).mpr ⟨k, landing_of_kept hk ?_ fun j _ h0 => ?_, hlanded.ne_zero, ?_⟩
    · rw [takes, if_neg hlanded.ne_zero, hlanded.index]
      exact decide_eq_true rfl
    · by_cases hjk : j = k
      · subst hjk
        have hidx := ((takes_cases hlanded.takes).resolve_left fun h0' => h0 h0'.1).2
        exact ⟨hlanded.ne_zero, hlanded.index.trans hidx.symm⟩
      · rw [hlanded.other j hjk]
        exact ⟨h0, rfl⟩
    · rw [update_self, shl64_mask hm, Nat.or_assoc, Nat.or_self]

/-- Inserting a mask of another group keeps a mask settled. -/
theorem Settled.insertMask {t t' : LocalCLTable} {g g' m m' : ℕ} (h : Settled sh t g m) (hm : m < 2 ^ 16)
    (hm0 : m ≠ 0) (hg : g < 2 ^ groupIndexShift sh) (hm' : m' < 2 ^ 16) (hm0' : m' ≠ 0)
    (hg' : g' < 2 ^ groupIndexShift sh) (h' : insertMask sh t g' m' = (false, t')) : Settled sh t' g m := by
  rw [insertMask_landing t m' hg'] at h'
  split at h'
  · cases h'
  · rename_i k hk
    obtain rfl := (Prod.mk.inj h').2
    have hlanded := landed_insertMask hm' hm0' hg' hk
    refine h.of_kept hm hm0 hg fun j _ h0 => ?_
    by_cases hjk : j = k
    · subst hjk
      have hidx := ((takes_cases hlanded.takes).resolve_left fun h0' => h0 h0'.1).2
      refine ⟨hlanded.ne_zero, hlanded.index.trans hidx.symm, fun hword => ?_⟩
      rw [update_self, probeValue, if_pos h0, Nat.or_right_comm, hword]
    · rw [hlanded.other j hjk]
      exact ⟨h0, rfl, id⟩

/-- A length insert that drops no entry of the probed slots keeps a mask settled. -/
theorem Settled.insertLength {t t' : LocalCLTable} {g m g' len : ℕ} (h : Settled sh t g m) (hm : m < 2 ^ 16)
    (hm0 : m ≠ 0) (hg : g < 2 ^ groupIndexShift sh) (hlen : 1 ≤ len)
    (hkept : ∀ k ∈ probes g, ¬ Dropped sh g' len (t k)) (hins : insertLength sh t g' len = (false, t')) :
    Settled sh t' g m := by
  refine h.of_kept hm hm0 hg fun j hj h0 => ?_
  rw [insertLength_kept hlen hins h0 (hkept j hj)]
  exact ⟨h0, rfl, id⟩

/-- After a complete call a mask of the range is settled, and so is one that was settled before, unless a
length entry takes the place of what is in the slots that are probed for it. -/
theorem RangeInserts.settled {t : LocalCLTable} {ps : List GroupMask} {b e : ℕ} {r : RangeResult}
    (h : RangeInserts sh t ps b e r) {g m : ℕ} (hm : m < 2 ^ 16) (hm0 : m ≠ 0)
    (hg : g < 2 ^ groupIndexShift sh)
    (hin : Settled sh t g m ∨ ⟨g, m⟩ ∈ ps) (hfull : r.full = false)
    (hkept : groupLenMin ≤ fullGroups b e →
      ∀ k ∈ probes g, ¬ Dropped sh ((b + 15) / 16) (fullGroups b e) (t k)) :
    Settled sh r.table g m := by
  induction h with
  | done => exact hin.resolve_right (by simp)
  | full => cases hfull
  | @mask t t' p ps b e b' e' r hm' hm0' hg' hins _ _ _ hgroups hlong _ _ ih =>
      refine ih ?_ hfull fun hmin => ?_
      · rcases hin with hset | hmem
        · exact .inl (hset.insertMask hm hm0 hg hm' hm0' hg' hins)
        · rcases List.mem_cons.mp hmem with rfl | hmem
          · exact .inl (settled_insertMask hm' hm0' hg' hins)
          · exact .inr hmem
      · obtain ⟨hstart, heq, hout⟩ := hlong (hmin.trans hgroups)
        obtain ⟨k, -, hlanded⟩ := exists_landed hm' hm0' hg' hins
        rw [hstart, heq]
        intro j hj
        rw [hlanded.dropped_iff hout]
        exact hkept (hmin.trans hgroups) j hj
  | @length t t' g' len full hmin _ _ hins =>
      have hgroups : fullGroups (16 * g') (16 * (g' + len)) = len := by
        simp only [fullGroups]
        omega
      have hceil : (16 * g' + 15) / 16 = g' := by omega
      rw [hgroups, hceil] at hkept
      obtain rfl : full = false := hfull
      exact (hin.resolve_right (by simp)).insertLength hm hm0 hg (le_trans (by decide) hmin) (hkept hmin) hins

end LocalCLTable

namespace ThreadOps

/-! ## One thread's calls -/

/-- A call of one thread. -/
inductive Op
  | logStore (addr : ℕ)
  | logRangeStore (begin end_ : ℕ)
  | threadRelease
  deriving DecidableEq, Repr

/-- The addresses of the call are in the region that is not hardware coherent. -/
def Op.Valid : Op → Prop
  | .logStore addr => cxlNhcStart ≤ addr ∧ addr < 2 ^ 48
  | .logRangeStore begin end_ => cxlNhcStart ≤ begin ∧ begin ≤ end_ ∧ end_ < 2 ^ 48
  | .threadRelease => True

/-- One call, in the build with or without `INLINE_CACHING`. -/
def step (inlineCaching : Bool) (fuel : ℕ) (st : ThreadOps) : Op → Option ThreadOps
  | .logStore addr => some (logStore 0 inlineCaching addr st)
  | .logRangeStore begin end_ => logRangeStore 0 fuel begin end_ st
  | .threadRelease => some (threadRelease st).2

/-- A sequence of calls of a new thread. -/
def run (inlineCaching : Bool) (fuel : ℕ) (ops : List Op) : Option ThreadOps :=
  ops.foldlM (step inlineCaching fuel) fresh

/-- Split the published logs after every release: the completed epochs and the open one. -/
def splitEpochs (logs : List PubLog) : List (List PubLog) × List PubLog :=
  logs.foldl (fun s log => if log.isRel then (s.1 ++ [s.2 ++ [log]], []) else (s.1, s.2 ++ [log]))
    ([], [])

/-- The logs published between consecutive successful `thread_release` calls. -/
def epochs (logs : List PubLog) : List (List PubLog) := (splitEpochs logs).1

/-- The logs published since the last successful `thread_release`. -/
def openEpoch (logs : List PubLog) : List PubLog := (splitEpochs logs).2

/-- Epoch by epoch, the logs cover the same lines. -/
def SameEpochs (logs logs' : List PubLog) : Prop :=
  List.Forall₂ (fun a b => ∀ cl, LogsCover 0 a cl ↔ LogsCover 0 b cl) (epochs logs) (epochs logs')

/-- The line is dirty, or in a log published since the last release. -/
def InEpoch (st : ThreadOps) (cl : ℕ) : Prop :=
  Covered 0 st.dirtyCls cl ∨ LogsCover 0 (openEpoch st.published) cl

theorem run_append (inlineCaching : Bool) (fuel : ℕ) (ops : List Op) (op : Op) :
    run inlineCaching fuel (ops ++ [op]) =
      (run inlineCaching fuel ops).bind fun st => step inlineCaching fuel st op := by
  simp [run, List.foldlM_append, bind]

theorem splitEpochs_append (logs : List PubLog) (log : PubLog) :
    splitEpochs (logs ++ [log]) =
      if log.isRel then (epochs logs ++ [openEpoch logs ++ [log]], [])
      else (epochs logs, openEpoch logs ++ [log]) := by
  simp [splitEpochs, epochs, openEpoch, List.foldl_append]

/-- Logs that are not releases extend the open epoch. -/
theorem splitEpochs_append_of_not_rel (logs : List PubLog) {more : List PubLog}
    (h : ∀ log ∈ more, log.isRel = false) :
    splitEpochs (logs ++ more) = (epochs logs, openEpoch logs ++ more) := by
  induction more using List.reverseRecOn with
  | nil => simp [epochs, openEpoch]
  | append_singleton more log ih =>
      have ih' := ih fun l hl => h l (by simp [hl])
      rw [← List.append_assoc, splitEpochs_append, h log (by simp)]
      simp [epochs, openEpoch, ih']

theorem openEpoch_suffix (logs : List PubLog) : openEpoch logs <:+ logs := by
  induction logs using List.reverseRecOn with
  | nil => exact List.suffix_rfl
  | append_singleton logs log ih =>
      rw [openEpoch, splitEpochs_append]
      split
      · exact List.nil_suffix
      · exact List.suffix_append_self_iff.mpr ih

/-! ## What one call records -/

/-- The call that led from `st` to `st'` recorded exactly the lines `L` and ended no epoch. -/
structure Records (st st' : ThreadOps) (L : ℕ → Prop) : Prop where
  maskOnly : MaskOnly 0 st'.dirtyCls
  lines : ∀ cl, InEpoch st' cl ↔ InEpoch st cl ∨ L cl
  epochs : epochs st'.published = epochs st.published

/-- A call that publishes only logs that are not releases records what it adds to `Recorded`. -/
private theorem Records.of_recorded {st st' : ThreadOps} {L : ℕ → Prop} {logs : List PubLog}
    (hmask : MaskOnly 0 st'.dirtyCls) (hpub : st'.published = st.published ++ logs)
    (hrel : ∀ log ∈ logs, log.isRel = false)
    (hrec : ∀ base ≤ st.published.length, ∀ cl,
      Recorded 0 st' base cl ↔ Recorded 0 st base cl ∨ L cl) : Records st st' L := by
  have hsplit := splitEpochs_append_of_not_rel st.published hrel
  obtain ⟨closed, hclosed⟩ := openEpoch_suffix st.published
  have hdrop : st.published.drop closed.length = openEpoch st.published := by
    conv_lhs => rw [← hclosed]
    exact List.drop_left
  have hle : closed.length ≤ st.published.length := by
    rw [← hclosed, List.length_append]
    omega
  refine ⟨hmask, fun cl => ?_, by rw [ThreadOps.epochs, hpub, hsplit]⟩
  have hcl := hrec closed.length hle cl
  rw [Recorded, Recorded, hpub, List.drop_append_of_le_length hle, hdrop] at hcl
  rwa [InEpoch, openEpoch, hpub, hsplit]

/-- Recording one line of the address space. -/
private theorem records_recordLine {st : ThreadOps} {cl : ℕ} (hcl : cl < 2 ^ 42)
    (hmask : MaskOnly 0 st.dirtyCls) : Records st (recordLine 0 cl st) (· = cl) := by
  have hshift : groupIndexShift 0 = 38 := rfl
  have hg : cl >>> groupSizeShift < 2 ^ groupIndexShift 0 := by
    rw [shiftRight_groupSizeShift, hshift]
    omega
  have hm := one_shiftLeft_and_lt cl
  rcases hins : insert 0 st.dirtyCls cl with ⟨full, t⟩
  cases full with
  | false =>
      have heq : recordLine 0 cl st = { st with dirtyCls := t } := by rw [recordLine, hins]
      rw [heq]
      refine .of_recorded (hmask.insertMask hm hg hins) (List.append_nil _).symm (by simp) ?_
      intro base _ x
      have hiff : Covered 0 t x ↔ _ := covered_insertMask_iff hm hmask hg hins
      rw [maskLines_insert] at hiff
      simp only [Recorded, hiff]
      exact or_right_comm
  | true =>
      obtain rfl := insertMask_full hins
      rcases hins' : insert 0 LocalCLTable.empty cl with ⟨full', t'⟩
      obtain rfl : full' = false := by
        have h := insert_empty hg
        rwa [hins'] at h
      have heq : recordLine 0 cl st = { writeToLog false st with dirtyCls := t' } := by
        simp only [recordLine, hins, writeToLog, hins']
      rw [heq]
      refine .of_recorded ((maskOnly_empty 0).insertMask hm hg hins') rfl (by simp) ?_
      intro base hbase x
      have hiff : Covered 0 t' x ↔ _ := covered_insertMask_iff hm (maskOnly_empty 0) hg hins'
      rw [maskLines_insert] at hiff
      have hflush : Recorded 0 (writeToLog false st) base x ↔ _ := recorded_writeToLog st hbase
      simp only [Recorded, hiff, writeToLog, not_covered_empty, false_or] at hflush ⊢
      rw [hflush]
      exact or_comm

/-- A store that the inline cache does not answer. -/
private theorem records_store {cl : ℕ} (st : ThreadOps) (hcl : cl < 2 ^ 42)
    (hmask : MaskOnly 0 st.dirtyCls) :
    Records st (recordLine 0 cl { st with recentCl := cl }) (· = cl) := by
  have h : Records { st with recentCl := cl } _ _ := records_recordLine hcl hmask
  exact ⟨h.maskOnly, h.lines, h.epochs⟩

/-- A short range store returns and records `RangeLines`. -/
private theorem records_logRangeStore {st : ThreadOps} {begin end_ fuel : ℕ} (hle : begin ≤ end_)
    (hend : end_ < 2 ^ 48) (hfuel : 8 ≤ fuel)
    (hmin : fullGroups (begin / 64) (end_ / 64) < groupLenMin) (hmask : MaskOnly 0 st.dirtyCls) :
    ∃ st', logRangeStore 0 fuel begin end_ st = some st' ∧ st'.recentCl = end_ / 64 ∧
      Records st st' (RangeLines (begin / 64) (end_ / 64)) := by
  obtain ⟨fuel, rfl⟩ : ∃ f, fuel = f + 2 := ⟨fuel - 2, by omega⟩
  have hshift : groupIndexShift 0 = 38 := rfl
  have hgroup : end_ / 64 / 16 < 2 ^ groupIndexShift 0 := by
    rw [hshift]
    omega
  have hpending : pending (begin / 64) (end_ / 64) + 1 < fuel + 2 := by
    simp only [groupLenMin] at hmin
    simp only [pending]
    split <;> split <;> omega
  have hlen : fullGroups (begin / 64) (end_ / 64) ≤ groupLenMax 0 := hmin.le.trans (by decide)
  have hspec := fun base (hbase : base ≤ st.published.length) =>
    rangeLoop_spec { st with recentCl := end_ / 64 } fuel hpending (.inl hmin) (by omega) hgroup
      hlen hbase
  obtain ⟨st', hst', -⟩ := hspec 0 (Nat.zero_le _)
  obtain ⟨hrecent, logs, hpub, hrel⟩ := rangeLoop_frame hst'
  refine ⟨st', ?_, hrecent, .of_recorded ?_ hpub hrel ?_⟩
  · simpa only [logRangeStore, shiftRight_virtualClShift_zero] using hst'
  · exact maskOnly_rangeLoop fuel (by omega) hgroup hmin (by exact hmask) hst'
  · intro base hbase cl
    obtain ⟨st'', hst'', hadds, hexact⟩ := hspec base hbase
    obtain rfl := Option.some.inj (hst'.symm.trans hst'')
    exact ⟨hexact hmask cl, hadds cl⟩

/-! ## Two builds of one run -/

/-- The two builds agree: same inline cache, same lines in the open epoch, same epochs. -/
private structure Agree (st₁ st₀ : ThreadOps) : Prop where
  recent : st₁.recentCl = st₀.recentCl
  maskOnly₁ : MaskOnly 0 st₁.dirtyCls
  maskOnly₀ : MaskOnly 0 st₀.dirtyCls
  lines : ∀ cl, InEpoch st₁ cl ↔ InEpoch st₀ cl
  epochs : SameEpochs st₁.published st₀.published

private theorem Agree.records {st₁ st₀ st₁' st₀' : ThreadOps} {L : ℕ → Prop}
    (h : Agree st₁ st₀) (h₁ : Records st₁ st₁' L) (h₀ : Records st₀ st₀' L)
    (hrecent : st₁'.recentCl = st₀'.recentCl) : Agree st₁' st₀' where
  recent := hrecent
  maskOnly₁ := h₁.maskOnly
  maskOnly₀ := h₀.maskOnly
  lines cl := by rw [h₁.lines, h₀.lines, h.lines]
  epochs := by
    rw [SameEpochs, h₁.epochs, h₀.epochs]
    exact h.epochs

/-- Recording a line that the epoch has anyway, in one build only. -/
private theorem Agree.records_right {st₁ st₀ st₀' : ThreadOps} {L : ℕ → Prop}
    (h : Agree st₁ st₀) (h₀ : Records st₀ st₀' L) (hL : ∀ cl, L cl → InEpoch st₁ cl)
    (hrecent : st₁.recentCl = st₀'.recentCl) : Agree st₁ st₀' where
  recent := hrecent
  maskOnly₁ := h.maskOnly₁
  maskOnly₀ := h₀.maskOnly
  lines cl := by
    rw [h₀.lines, ← h.lines]
    exact ⟨.inl, fun hcl => hcl.elim id (hL cl)⟩
  epochs := by
    rw [SameEpochs, h₀.epochs]
    exact h.epochs

private theorem logsCover_release {st : ThreadOps} {cl : ℕ} :
    LogsCover 0 (openEpoch st.published ++ [⟨st.dirtyCls.entries, true⟩]) cl ↔ InEpoch st cl := by
  rw [logsCover_append, logsCover_table, InEpoch, or_comm]

/-- A release closes the epoch in both builds. -/
private theorem Agree.threadRelease {st₁ st₀ : ThreadOps} (h : Agree st₁ st₀) :
    Agree (threadRelease st₁).2 (threadRelease st₀).2 := by
  by_cases h0 : st₁.recentCl = 0
  · rw [ThreadOps.threadRelease, ThreadOps.threadRelease, if_pos h0, if_pos (h.recent ▸ h0)]
    exact h
  · rw [ThreadOps.threadRelease, ThreadOps.threadRelease, if_neg h0, if_neg (h.recent ▸ h0)]
    refine ⟨rfl, maskOnly_empty 0, maskOnly_empty 0, fun cl => ?_, ?_⟩
    · simp [InEpoch, writeToLog, openEpoch, splitEpochs_append]
    · simp only [SameEpochs, ThreadOps.epochs, writeToLog, splitEpochs_append, if_true]
      refine List.rel_append h.epochs (.cons (fun cl => ?_) .nil)
      rw [logsCover_release, logsCover_release, h.lines]

/-! ## Hits after a range store -/

/-- `P` holds of every range store, and of the state before it, whose end line the next call stores
to: the stores that the inline cache answers although `log_store` did not set it. -/
def HitsMeet (fuel : ℕ) (P : ThreadOps → ℕ → ℕ → Prop) (ops : List Op) : Prop :=
  ∀ pre begin end_ addr post st,
    ops = pre ++ .logRangeStore begin end_ :: .logStore addr :: post → addr / 64 = end_ / 64 →
    run true fuel pre = some st → P st begin end_

/-- The epoch has the end line: the range store logs it, or it was logged before. -/
def EndLineLogged (st : ThreadOps) (_begin end_ : ℕ) : Prop :=
  end_ / 64 % 16 ≠ 0 ∨ InEpoch st (end_ / 64)

/-- The end line stays in the table, where inserting it again changes nothing. It is inserted by the range
store, or was settled before. There is room for the masks of the range. And when a length entry is made,
there is a slot for it, and it drops no entry of the slots that are probed for the end line. -/
def EndLineKept (st : ThreadOps) (begin end_ : ℕ) : Prop :=
  let b := begin / 64
  let e := end_ / 64
  let t := st.dirtyCls
  (e % 16 ≠ 0 ∨ Settled 0 t (e / 16) (1 <<< (e % 16))) ∧ HasRoom 0 t (rangeMasks b e) ∧
    (groupLenMin ≤ fullGroups b e →
      HasSlot 0 t (landings 0 t [] (rangeMasks b e)) ((b + 15) / 16) (fullGroups b e) ∧
      ∀ k ∈ probes (e / 16), ¬ Dropped 0 ((b + 15) / 16) (fullGroups b e) (t k))

/-- Every range store spans fewer than `GROUP_LEN_MIN` full groups, so that no length entry is ever
inserted. -/
def ShortRanges (ops : List Op) : Prop :=
  ∀ begin end_, .logRangeStore begin end_ ∈ ops →
    fullGroups (begin / 64) (end_ / 64) < groupLenMin

/-- The last call was a range store that failed `P` and whose end line is now in the inline cache. -/
private def EndsBadly (fuel : ℕ) (P : ThreadOps → ℕ → ℕ → Prop) (ops : List Op) (cl : ℕ) : Prop :=
  ∃ pre begin end_ st, ops = pre ++ [.logRangeStore begin end_] ∧ cl = end_ / 64 ∧
    run true fuel pre = some st ∧ ¬ P st begin end_

private theorem HitsMeet.of_append {fuel : ℕ} {P : ThreadOps → ℕ → ℕ → Prop} {ops : List Op}
    {op : Op} (h : HitsMeet fuel P (ops ++ [op])) : HitsMeet fuel P ops := by
  rintro pre begin end_ addr post st rfl
  exact h pre begin end_ addr (post ++ [op]) st (by simp)

/-- When the condition holds, no store hits a line that such a range store put there. -/
private theorem HitsMeet.not_endsBadly {fuel : ℕ} {P : ThreadOps → ℕ → ℕ → Prop} {ops : List Op}
    {addr : ℕ} (h : HitsMeet fuel P (ops ++ [.logStore addr])) :
    ¬ EndsBadly fuel P ops (addr / 64) := by
  rintro ⟨pre, begin, end_, st, rfl, hcl, hst, hP⟩
  exact hP (h pre begin end_ addr [] st (by simp) hcl hst)

private theorem recentCl_threadRelease (st : ThreadOps) : (threadRelease st).2.recentCl = 0 := by
  by_cases h0 : st.recentCl = 0
  · rw [threadRelease, if_pos h0, h0]
  · rw [threadRelease, if_neg h0]
    rfl

private theorem Op.Valid.line {addr : ℕ} (h : (Op.logStore addr).Valid) :
    addr / 64 ≠ 0 ∧ addr / 64 < 2 ^ 42 := by
  simp only [Op.Valid, cxlNhcStart, virtualAddressBits] at h
  omega

/-- Runs with short ranges: both builds return, and agree, as long as every line that the cache
answers after a range store is in the epoch. -/
private theorem agree_run {fuel : ℕ} (hfuel : 8 ≤ fuel) {ops : List Op}
    (hvalid : ∀ op ∈ ops, op.Valid) (hshort : ShortRanges ops)
    (hhits : HitsMeet fuel EndLineLogged ops) :
    ∃ st₁ st₀, run true fuel ops = some st₁ ∧ run false fuel ops = some st₀ ∧ Agree st₁ st₀ ∧
      (st₁.recentCl ≠ 0 → InEpoch st₁ st₁.recentCl ∨
        EndsBadly fuel EndLineLogged ops st₁.recentCl) := by
  induction ops using List.reverseRecOn with
  | nil =>
      refine ⟨fresh, fresh, rfl, rfl, ?_, fun h => absurd rfl h⟩
      exact ⟨rfl, maskOnly_empty 0, maskOnly_empty 0, fun _ => Iff.rfl, .nil⟩
  | append_singleton ops op ih =>
      obtain ⟨st₁, st₀, hrun₁, hrun₀, hagree, hrecent⟩ := ih (fun o ho => hvalid o (by simp [ho]))
        (fun b e h => hshort b e (by simp [h])) hhits.of_append
      have hop := hvalid op (by simp)
      simp only [run_append, hrun₁, hrun₀, Option.bind_some]
      cases op with
      | logStore addr =>
          obtain ⟨hne, hlt⟩ := hop.line
          have hrec₀ := records_store st₀ hlt hagree.maskOnly₀
          refine ⟨_, _, rfl, rfl, ?_⟩
          simp only [logStore, shiftRight_virtualClShift_zero, true_and, Bool.false_eq_true,
            false_and, if_false]
          by_cases hit : addr / 64 = st₁.recentCl
          · rw [if_pos hit]
            have hin : InEpoch st₁ st₁.recentCl := by
              refine (hrecent (hit ▸ hne)).resolve_right ?_
              rw [← hit]
              exact hhits.not_endsBadly
            refine ⟨hagree.records_right hrec₀ ?_ ?_, fun _ => .inl hin⟩
            · rintro cl rfl
              rwa [hit]
            · rw [recentCl_recordLine, hit]
          · rw [if_neg hit]
            have hrec₁ := records_store st₁ hlt hagree.maskOnly₁
            refine ⟨hagree.records hrec₁ hrec₀ ?_, fun _ => .inl ?_⟩
            · rw [recentCl_recordLine, recentCl_recordLine]
            · rw [recentCl_recordLine]
              exact (hrec₁.lines _).mpr (.inr rfl)
      | logRangeStore begin end_ =>
          obtain ⟨-, hle, hend⟩ := hop
          have hmin := hshort begin end_ (by simp)
          obtain ⟨st₁', h₁, hcl₁, hrec₁⟩ :=
            records_logRangeStore hle hend hfuel hmin hagree.maskOnly₁
          obtain ⟨st₀', h₀, hcl₀, hrec₀⟩ :=
            records_logRangeStore hle hend hfuel hmin hagree.maskOnly₀
          refine ⟨st₁', st₀', h₁, h₀, hagree.records hrec₁ hrec₀ (hcl₁.trans hcl₀.symm), ?_⟩
          intro _
          rw [hcl₁]
          by_cases hlogged : EndLineLogged st₁ begin end_
          · refine .inl ((hrec₁.lines _).mpr (hlogged.symm.imp_right fun h => ?_))
            exact ⟨by omega, .inr ⟨rfl, h⟩⟩
          · exact .inr ⟨ops, begin, end_, st₁, rfl, rfl, hrun₁, hlogged⟩
      | threadRelease =>
          refine ⟨_, _, rfl, rfl, hagree.threadRelease, fun h => absurd ?_ h⟩
          exact recentCl_threadRelease st₁

/-- Recording a line leaves it settled in the table. -/
private theorem insert_recordLine {cl : ℕ} {st : ThreadOps} (hcl : cl < 2 ^ 42) :
    insert 0 (recordLine 0 cl st).dirtyCls cl = (false, (recordLine 0 cl st).dirtyCls) := by
  have hshift : groupIndexShift 0 = 38 := rfl
  have hg : cl >>> groupSizeShift < 2 ^ groupIndexShift 0 := by
    rw [shiftRight_groupSizeShift, hshift]
    omega
  have hm := one_shiftLeft_and_lt cl
  have hm0 := one_shiftLeft_and_ne_zero cl
  rcases hins : insert 0 st.dirtyCls cl with ⟨full, t⟩
  cases full with
  | false =>
      rw [recordLine, hins]
      exact settled_insertMask hm hm0 hg hins
  | true =>
      have hins' : insert 0 LocalCLTable.empty cl = (false, (insert 0 LocalCLTable.empty cl).2) :=
        Prod.ext (insert_empty hg) rfl
      simp only [recordLine, hins, writeToLog]
      exact settled_insertMask hm hm0 hg hins'

/-- A range store that keeps its end line leaves it settled in the table. -/
private theorem insert_logRangeStore {st st' : ThreadOps} {begin end_ fuel : ℕ} (hfuel : 2 ≤ fuel)
    (hle : begin ≤ end_) (hend : end_ < 2 ^ 48) (hkept : EndLineKept st begin end_)
    (h : logRangeStore 0 fuel begin end_ st = some st') :
    insert 0 st'.dirtyCls (end_ / 64) = (false, st'.dirtyCls) := by
  obtain ⟨n, rfl⟩ : ∃ n, fuel = n + 2 := ⟨fuel - 2, by omega⟩
  obtain ⟨hset, hroom, hlength⟩ := hkept
  have hshift : groupIndexShift 0 = 38 := rfl
  have hgroup : end_ / 64 / 16 < 2 ^ groupIndexShift 0 := by
    rw [hshift]
    omega
  have hlen : fullGroups (begin / 64) (end_ / 64) ≤ groupLenMax 0 := by
    by_contra hlong
    rw [logRangeStore, shiftRight_virtualClShift_zero, shiftRight_virtualClShift_zero,
      rangeLoop_overlong _ (by omega)] at h
    cases h
  obtain ⟨r, hr, hinserts⟩ := rangeInsert_inserts n st.dirtyCls (Nat.div_le_div_right hle) hgroup hlen
  have hfull := hinserts.landing.full hroom fun hmin => (hlength hmin).1
  simp only [logRangeStore, shiftRight_virtualClShift_zero, rangeLoop, hr, hfull, Bool.false_eq_true,
    if_false] at h
  obtain rfl := Option.some.inj h
  have hm := one_shiftLeft_and_lt (end_ / 64)
  have hm0 := one_shiftLeft_and_ne_zero (end_ / 64)
  rw [and_groupSizeMask] at hm hm0
  rw [LocalCLTable.insert, shiftRight_groupSizeShift, and_groupSizeMask]
  exact hinserts.settled hm hm0 hgroup (hset.symm.imp_right mem_rangeMasks_tail) hfull
    fun hmin => (hlength hmin).2

/-- Any run: the two builds do the same as long as the lines that the cache answers after a range
store are still in the table. -/
private theorem run_inline_eq {fuel : ℕ} (hfuel : 8 ≤ fuel) {ops : List Op} (hvalid : ∀ op ∈ ops, op.Valid)
    (hhits : HitsMeet fuel EndLineKept ops) :
    run true fuel ops = run false fuel ops ∧ ∀ st, run true fuel ops = some st →
      st.recentCl ≠ 0 → insert 0 st.dirtyCls st.recentCl = (false, st.dirtyCls) ∨
        EndsBadly fuel EndLineKept ops st.recentCl := by
  induction ops using List.reverseRecOn with
  | nil =>
      refine ⟨rfl, fun st hst h => absurd ?_ h⟩
      obtain rfl := Option.some.inj hst
      rfl
  | append_singleton ops op ih =>
      obtain ⟨heq, hrecent⟩ := ih (fun o ho => hvalid o (by simp [ho])) hhits.of_append
      have hop := hvalid op (by simp)
      simp only [run_append, ← heq]
      cases hrun : run true fuel ops with
      | none => simp
      | some st =>
          simp only [Option.bind_some]
          cases op with
          | logStore addr =>
              obtain ⟨hne, hlt⟩ := hop.line
              simp only [step, logStore, shiftRight_virtualClShift_zero, true_and,
                Bool.false_eq_true, false_and, if_false]
              by_cases hit : addr / 64 = st.recentCl
              · rw [if_pos hit]
                have hset : insert 0 st.dirtyCls st.recentCl = (false, st.dirtyCls) := by
                  refine (hrecent st hrun (hit ▸ hne)).resolve_right ?_
                  rw [← hit]
                  exact hhits.not_endsBadly
                refine ⟨?_, ?_⟩
                · simp only [recordLine, hit, hset]
                · rintro _ ⟨⟩ _
                  exact .inl hset
              · rw [if_neg hit]
                refine ⟨rfl, ?_⟩
                rintro _ ⟨⟩ _
                rw [recentCl_recordLine]
                exact .inl (insert_recordLine hlt)
          | logRangeStore begin end_ =>
              refine ⟨rfl, fun st' hst' _ => ?_⟩
              obtain ⟨-, hle, hend⟩ := hop
              have hcl := (rangeLoop_frame hst').1
              simp only [shiftRight_virtualClShift_zero] at hcl
              rw [hcl]
              by_cases hkept : EndLineKept st begin end_
              · refine .inl ?_
                exact insert_logRangeStore (by omega) hle hend hkept hst'
              · exact .inr ⟨ops, begin, end_, st, rfl, rfl, hrun, hkept⟩
          | threadRelease =>
              refine ⟨rfl, fun st' hst' h => absurd ?_ h⟩
              obtain rfl := Option.some.inj hst'
              exact recentCl_threadRelease st

/-- Between any two releases, the builds with and without `INLINE_CACHING` publish logs that cover
the same lines: either both runs return and agree, or neither returns. -/
def InlineTransparent (fuel : ℕ) (ops : List Op) : Prop :=
  Option.Rel (fun st₁ st₀ => SameEpochs st₁.published st₀.published)
    (run true fuel ops) (run false fuel ops)

theorem sameEpochs_refl (logs : List PubLog) : SameEpochs logs logs :=
  List.forall₂_same.mpr fun _ _ _ => Iff.rfl

/-- The inline cache changes nothing in runs of short range stores in which every store it answers
right after a range store has its line in the epoch, and in any run in which such a store finds its
line still in the table. -/
theorem inline_cache_transparent (ops : List Op) (hvalid : ∀ op ∈ ops, op.Valid) (fuel : ℕ)
    (hfuel : 8 ≤ fuel) :
    (ShortRanges ops → HitsMeet fuel EndLineLogged ops →
      (run true fuel ops).isSome ∧ InlineTransparent fuel ops) ∧
    (HitsMeet fuel EndLineKept ops → InlineTransparent fuel ops) := by
  constructor
  · intro hshort hhits
    obtain ⟨st₁, st₀, h₁, h₀, hagree, -⟩ := agree_run hfuel hvalid hshort hhits
    rw [InlineTransparent, h₁, h₀]
    exact ⟨rfl, .some hagree.epochs⟩
  · intro hhits
    rw [InlineTransparent, ← (run_inline_eq hfuel hvalid hhits).1]
    cases run true fuel ops with
    | none => exact .none
    | some st => exact .some (sameEpochs_refl st.published)

/-- A range store, a store to its end line, which is the second of its group, and a release. -/
def hitOps : List Op :=
  [.logRangeStore cxlNhcStart (cxlNhcStart + 64), .logStore (cxlNhcStart + 64), .threadRelease]

private theorem mem_hitOps {pre post : List Op} {b e a : ℕ}
    (h : hitOps = pre ++ .logRangeStore b e :: .logStore a :: post) :
    pre = [] ∧ cxlNhcStart = b ∧ cxlNhcStart + 64 = e := by
  rcases pre with - | ⟨o₁, - | ⟨o₂, - | ⟨o₃, pre⟩⟩⟩ <;> simp [hitOps] at h
  exact ⟨rfl, h.1⟩

theorem inline_cache_transparent_hit :
    (run true 8 hitOps).isSome ∧ InlineTransparent 8 hitOps ∧
      HitsMeet 8 EndLineKept hitOps := by
  have hvalid : ∀ op ∈ hitOps, op.Valid := by
    simp [hitOps, Op.Valid, cxlNhcStart, virtualAddressBits]
  have hkept : HitsMeet 8 EndLineKept hitOps := by
    intro pre b e a post st hops _ hst
    obtain ⟨rfl, rfl, rfl⟩ := mem_hitOps hops
    obtain rfl := Option.some.inj hst
    exact ⟨.inl (by decide), by decide +kernel, fun h => absurd h (by decide)⟩
  have hlogged : HitsMeet 8 EndLineLogged hitOps := by
    intro pre b e a post st hops _ _
    obtain ⟨-, rfl, rfl⟩ := mem_hitOps hops
    exact .inl (by decide)
  have hshort : ShortRanges hitOps := by
    intro b e hmem
    obtain ⟨rfl, rfl⟩ : b = cxlNhcStart ∧ e = cxlNhcStart + 64 := by simpa [hitOps] using hmem
    decide
  have htrans := inline_cache_transparent hitOps hvalid 8 le_rfl
  exact ⟨(htrans.1 hshort hlogged).1, htrans.2 hkept, hkept⟩

/-- A store to the line where a whole-group range store ended: the inline cache answers it, and the
line is in no log. -/
def lostOps : List Op :=
  [.logRangeStore cxlNhcStart (cxlNhcStart + 1024), .logStore (cxlNhcStart + 1024), .threadRelease]

theorem inline_cache_loses_line :
    (∀ op ∈ lostOps, op.Valid) ∧ (run true 8 lostOps).isSome ∧ ¬ InlineTransparent 8 lostOps := by
  refine ⟨by simp [lostOps, Op.Valid, cxlNhcStart, virtualAddressBits], by decide +kernel, ?_⟩
  intro h
  have hline : ∀ inlineCaching : Bool, ((run inlineCaching 8 lostOps).map fun st =>
      (epochs st.published).map fun logs => decide (LogsCover 0 logs (cxlNhcStart / 64 + 16))) =
        some [!inlineCaching] := by
    decide +kernel
  have h₁ := hline true
  have h₀ := hline false
  rw [InlineTransparent] at h
  generalize run true 8 lostOps = r₁ at h h₁
  generalize run false 8 lostOps = r₀ at h h₀
  cases h with
  | none => simp at h₁
  | some hsame =>
      simp only [Option.map_some, Option.some.injEq] at h₁ h₀
      rw [SameEpochs] at hsame
      generalize epochs _ = e₁ at h₁ hsame
      generalize epochs _ = e₀ at h₀ hsame
      cases hsame with
      | nil => simp at h₁
      | cons hiff _ =>
          have hcov := of_decide_eq_true (List.cons.inj h₀).1
          exact of_decide_eq_false (List.cons.inj h₁).1 ((hiff _).mpr hcov)

end ThreadOps

end RACoherence
