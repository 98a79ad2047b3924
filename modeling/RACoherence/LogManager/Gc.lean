import Mathlib.Order.Bounds.Basic
import RACoherence.LogManager.Progress

/-!
# One pass of `perform_gc`

Reference: `include/logManager.hpp`, `perform_gc`, while nobody else uses the ring.

The new bound starts a round after the old one and is lowered to the head of a subscriber, a round on,
when that lies in between as a number. As long as the round after `bound` does not wrap the comparisons
are those of the wrapping indices; when it does, the new bound is below the old one from the start, no
head is ever in between, and a whole round is recycled whatever the subscribers have consumed.
-/

namespace RACoherence

open Function Relation

namespace LogManager

section Pass

variable (cfg : LogConfig) (nid bound : ℕ) (subs : ℕ → SubStatus) (pub : ℕ → PubEntry)

/-- The body of the loop over the nodes, on `new_b` and `subscribed`. -/
def gcVisit (acc : ℕ × Bool) (i : ℕ) : ℕ × Bool :=
  if i ≠ nid ∧ (subs i).isSubbed then
    let h := nextRound cfg (subs i).head
    (if h < acc.1 ∧ bound ≤ h then h else acc.1, true)
  else acc

/-- The loop over the first `k` nodes. -/
def gcScan (k : ℕ) : ℕ × Bool :=
  (List.range k).foldl (gcVisit cfg nid bound subs) (nextRound cfg bound, false)

/-- The loop that recycles the logs up to `newB` when some node is subscribed: the logs it enqueues;
`none` when the fuel does not suffice for it to end. -/
def gcTake (newB : ℕ) : ℕ → ℕ → Option (List ℕ)
  | 0, _ => none
  | fuel + 1, i =>
      if i = newB then some []
      else (gcTake newB fuel (incr i)).map fun logs => (pub (getIdx cfg i)).log :: logs

/-- The same loop when no node is subscribed: it stops, and lowers `new_b`, at the first entry that has not
been published. -/
def gcTakePublished (newB : ℕ) : ℕ → ℕ → Option (ℕ × List ℕ)
  | 0, _ => none
  | fuel + 1, i =>
      if i = newB then some (newB, [])
      else if (pub (getIdx cfg i)).idx = incr (prevRound cfg i) then
        (gcTakePublished newB fuel (incr i)).map fun r => (r.1, (pub (getIdx cfg i)).log :: r.2)
      else some (i, [])

/-- What a pass leaves behind: the new `bound`, the logs it has enqueued, and what `assert(bound <= new_b)`
has evaluated to. -/
structure GcResult where
  bound : ℕ
  enqueued : List ℕ
  asserted : Bool

/-- `perform_gc` -/
def performGc (fuel : ℕ) : Option GcResult :=
  let scan := gcScan cfg nid bound subs cfg.nodeCount
  let taken :=
    if scan.2 then (gcTake cfg pub scan.1 fuel bound).map fun logs => (scan.1, logs)
    else gcTakePublished cfg pub scan.1 fuel bound
  taken.map fun r => ⟨r.1, r.2, decide (bound ≤ scan.1)⟩

/-- The remote nodes that are subscribed. -/
def GcSubscriber (n : ℕ) : Prop := Remote cfg nid n ∧ (subs n).isSubbed = true

/-- How far the head of a node, a round on, is ahead of `bound`, modulo `2 ^ 32`. -/
def advance (head : ℕ) : ℕ := (head + cfg.logCount + (idxRange - bound)) % idxRange

/-- `bound` is a 32-bit value, at least one remote node is subscribed, and the heads of those that are lie,
modulo `2 ^ 32`, between `bound - LOG_COUNT` and `bound`. -/
structure GcReady : Prop where
  bound_lt : bound < idxRange
  subscribed : ∃ n, GcSubscriber cfg nid subs n
  heads : ∀ n, GcSubscriber cfg nid subs n → advance cfg bound (subs n).head ≤ cfg.logCount

/-- The pass ends, its assertion holds, and it moves `bound` on by the smallest of the subscribers' advances
and recycles the logs of that many slots. -/
def GcCorrect : Prop :=
  ∃ fuel r m, performGc cfg nid bound subs pub fuel = some r ∧ r.asserted = true ∧
    IsLeast {d | ∃ n, GcSubscriber cfg nid subs n ∧ d = advance cfg bound (subs n).head} m ∧
    r.bound = (bound + m) % idxRange ∧ r.enqueued = slotLogs cfg pub bound m

end Pass

variable {cfg : LogConfig} {nid bound : ℕ} {subs : ℕ → SubStatus} {pub : ℕ → PubEntry}

theorem gcScan_succ (k : ℕ) :
    gcScan cfg nid bound subs (k + 1) = gcVisit cfg nid bound subs (gcScan cfg nid bound subs k) k := by
  simp [gcScan, List.range_succ]

/-! ## The scan -/

/-- Below the wrap a head, a round on, is its advance above `bound`. -/
theorem nextRound_eq_advance {head : ℕ} (hbound : bound < idxRange)
    (hlt : bound + advance cfg bound head < idxRange) :
    nextRound cfg head = bound + advance cfg bound head := by
  have hsum : bound + (head + cfg.logCount + (idxRange - bound)) = head + cfg.logCount + idxRange := by
    omega
  calc nextRound cfg head
      = (bound + (head + cfg.logCount + (idxRange - bound))) % idxRange := by
        rw [hsum, Nat.add_mod_right, nextRound]
    _ = (bound + advance cfg bound head) % idxRange := by rw [advance, Nat.add_mod_mod]
    _ = bound + advance cfg bound head := Nat.mod_eq_of_lt hlt

/-- What the scan has found after `k` nodes, when the round after `bound` does not wrap. -/
structure GcScanSpec (cfg : LogConfig) (nid bound : ℕ) (subs : ℕ → SubStatus) (k : ℕ)
    (acc : ℕ × Bool) : Prop where
  lower : bound ≤ acc.1
  upper : acc.1 ≤ bound + cfg.logCount
  le : ∀ n < k, GcSubscriber cfg nid subs n → acc.1 ≤ bound + advance cfg bound (subs n).head
  attained : acc.2 = true →
    ∃ n, GcSubscriber cfg nid subs n ∧ acc.1 = bound + advance cfg bound (subs n).head
  none : acc.2 = false → acc.1 = bound + cfg.logCount ∧ ∀ n < k, ¬ GcSubscriber cfg nid subs n

theorem gcScan_spec (h : GcReady cfg nid bound subs) (hwrap : bound + cfg.logCount < idxRange) {k : ℕ}
    (hk : k ≤ cfg.nodeCount) : GcScanSpec cfg nid bound subs k (gcScan cfg nid bound subs k) := by
  induction k with
  | zero =>
      have hstart : gcScan cfg nid bound subs 0 = (bound + cfg.logCount, false) := by
        simp [gcScan, nextRound, Nat.mod_eq_of_lt hwrap]
      rw [hstart]
      exact ⟨Nat.le_add_right _ _, le_rfl, by simp, by simp, by simp⟩
  | succ k ih =>
      have hspec := ih (by omega)
      rw [gcScan_succ]
      generalize gcScan cfg nid bound subs k = acc at hspec
      by_cases hsub : k ≠ nid ∧ (subs k).isSubbed = true
      · have hmem : GcSubscriber cfg nid subs k := ⟨⟨by omega, hsub.1⟩, hsub.2⟩
        have hadv := h.heads k hmem
        have hhead := @nextRound_eq_advance cfg bound (subs k).head h.bound_lt (by omega)
        have hvisit : gcVisit cfg nid bound subs acc k =
            (min acc.1 (bound + advance cfg bound (subs k).head), true) := by
          rw [gcVisit, if_pos hsub]
          simp only [hhead, Nat.le_add_right, and_true, Prod.mk.injEq]
          split
          · omega
          · omega
        have hlower := hspec.lower
        have hupper := hspec.upper
        rw [hvisit]
        refine ⟨by dsimp only; omega, by dsimp only; omega, ?_, fun _ => ?_, by simp⟩
        · intro n hn hmem'
          rcases Nat.lt_succ_iff_lt_or_eq.mp hn with hn | rfl
          · exact (min_le_left _ _).trans (hspec.le n hn hmem')
          · exact min_le_right _ _
        · cases hfound : acc.2 with
          | false =>
              have hacc := (hspec.none hfound).1
              exact ⟨k, hmem, by dsimp only; omega⟩
          | true =>
              obtain ⟨n, hn, heq⟩ := hspec.attained hfound
              rcases min_choice acc.1 (bound + advance cfg bound (subs k).head) with hmin | hmin
              · exact ⟨n, hn, hmin.trans heq⟩
              · exact ⟨k, hmem, hmin⟩
      · rw [gcVisit, if_neg hsub]
        have hnot : ¬ GcSubscriber cfg nid subs k := fun hmem => hsub ⟨hmem.1.2, hmem.2⟩
        refine ⟨hspec.lower, hspec.upper, ?_, hspec.attained, fun hfound => ?_⟩
        · intro n hn hmem
          rcases Nat.lt_succ_iff_lt_or_eq.mp hn with hn | rfl
          · exact hspec.le n hn hmem
          · exact absurd hmem hnot
        · obtain ⟨hacc, hno⟩ := hspec.none hfound
          refine ⟨hacc, fun n hn => ?_⟩
          rcases Nat.lt_succ_iff_lt_or_eq.mp hn with hn | rfl
          · exact hno n hn
          · exact hnot

/-- When the round after `bound` wraps, the new bound stays below `bound`, whatever the heads. -/
theorem gcScan_wraps (hbound : bound < idxRange) (hwrap : idxRange ≤ bound + cfg.logCount) (k : ℕ) :
    (gcScan cfg nid bound subs k).1 < bound := by
  induction k with
  | zero =>
      have hcount := cfg.logCount_lt
      show nextRound cfg bound < bound
      rw [nextRound, Nat.mod_eq_sub_mod hwrap, Nat.mod_eq_of_lt (by omega)]
      omega
  | succ k ih =>
      rw [gcScan_succ, gcVisit]
      split
      · dsimp only
        rw [if_neg fun h => absurd h.2 (by omega)]
        exact ih
      · exact ih

/-! ## The pass -/

/-- The loop ends at `newB` and has taken the logs of the slots up to it. -/
theorem gcTake_eq (m i : ℕ) (hi : i < idxRange) (hlt : i + m < idxRange) :
    gcTake cfg pub (i + m) (m + 1) i = some (slotLogs cfg pub i m) := by
  induction m generalizing i with
  | zero => simp [gcTake, slotLogs]
  | succ m ih =>
      have hincr : incr i = i + 1 := Nat.mod_eq_of_lt (by omega)
      have hnext := ih (i + 1) (by omega) (by omega)
      rw [show i + 1 + m = i + (m + 1) by omega] at hnext
      rw [gcTake, if_neg (by omega), hincr, hnext, slotLogs_succ pub hi, hincr]
      rfl

theorem gcCorrect_of_lt (h : GcReady cfg nid bound subs) (hwrap : bound + cfg.logCount < idxRange) :
    GcCorrect cfg nid bound subs pub := by
  have hspec := gcScan_spec h hwrap le_rfl
  obtain ⟨n₀, hn₀⟩ := h.subscribed
  have hfound : (gcScan cfg nid bound subs cfg.nodeCount).2 = true := by
    by_contra hno
    rw [Bool.not_eq_true] at hno
    exact (hspec.none hno).2 n₀ hn₀.1.1 hn₀
  obtain ⟨n, hn, hnewB⟩ := hspec.attained hfound
  have hupper := hspec.upper
  have hloop := @gcTake_eq cfg pub (advance cfg bound (subs n).head) bound h.bound_lt (by omega)
  have hpass : performGc cfg nid bound subs pub (advance cfg bound (subs n).head + 1) =
      some ⟨bound + advance cfg bound (subs n).head,
        slotLogs cfg pub bound (advance cfg bound (subs n).head), true⟩ := by
    simp [performGc, hfound, hnewB, hloop]
  refine ⟨_, _, advance cfg bound (subs n).head, hpass, rfl, ⟨⟨n, hn, rfl⟩, ?_⟩, ?_, rfl⟩
  · rintro d ⟨n', hn', rfl⟩
    have hle := hspec.le n' hn'.1.1 hn'
    omega
  · have hlt : bound + advance cfg bound (subs n).head < idxRange := by omega
    exact (Nat.mod_eq_of_lt hlt).symm

/-- When the round after `bound` wraps, the assertion fails in every pass that gets past it. -/
theorem not_asserted_of_wraps {fuel : ℕ} {r : GcResult} (hbound : bound < idxRange)
    (hwrap : idxRange ≤ bound + cfg.logCount) (hr : performGc cfg nid bound subs pub fuel = some r) :
    ¬ r.asserted = true := by
  intro hassert
  have hbelow := @gcScan_wraps cfg nid bound subs hbound hwrap cfg.nodeCount
  rw [performGc] at hr
  obtain ⟨taken, -, rfl⟩ := Option.map_eq_some_iff.mp hr
  rw [decide_eq_true_eq] at hassert
  omega

/-- For every configuration, every 32-bit `bound` and all heads within a round of it, a pass of `perform_gc`
is correct if and only if the round after `bound` does not wrap. -/
theorem perform_gc_correct_iff (cfg : LogConfig) (nid bound : ℕ) (subs : ℕ → SubStatus)
    (pub : ℕ → PubEntry) (h : GcReady cfg nid bound subs) :
    GcCorrect cfg nid bound subs pub ↔ bound + cfg.logCount < idxRange := by
  constructor
  · rintro ⟨fuel, r, m, hr, hassert, -⟩
    by_contra hwrap
    exact not_asserted_of_wraps h.bound_lt (by omega) hr hassert
  · exact gcCorrect_of_lt h

/-- The first pass of the shipped configuration, when the slowest of the nodes has consumed two logs. -/
theorem perform_gc_correct_first :
    GcReady .default 0 64 (fun n => ⟨n + 1, true⟩) ∧
      GcCorrect .default 0 64 (fun n => ⟨n + 1, true⟩) fun k => ⟨k, k + 1, false⟩ := by
  have hready : GcReady .default 0 64 (fun n => ⟨n + 1, true⟩) := by
    refine ⟨by decide, ⟨1, by decide, rfl⟩, ?_⟩
    rintro n ⟨⟨hn, -⟩, -⟩
    have hcount : LogConfig.default.nodeCount = 8 := rfl
    have hlogs : LogConfig.default.logCount = 64 := rfl
    rw [advance, hlogs, idxRange]
    dsimp only
    omega
  exact ⟨hready, (perform_gc_correct_iff .default 0 64 _ _ hready).mpr (by decide)⟩

/-- A pass in the last round, when no node has consumed anything of it: the bound moves on by 64 all the same,
from `2 ^ 32 - 64` to 0. -/
theorem perform_gc_wraps :
    GcReady .default 0 (idxRange - 64) (fun _ => ⟨idxRange - 128, true⟩) ∧
      ¬ GcCorrect .default 0 (idxRange - 64) (fun _ => ⟨idxRange - 128, true⟩) fun k => ⟨k, 0, false⟩ := by
  refine ⟨⟨by decide, ⟨1, by decide, rfl⟩, fun n _ => by decide⟩, ?_⟩
  rintro ⟨fuel, r, m, hr, hassert, -⟩
  exact not_asserted_of_wraps (by decide) (by decide) hr hassert

/-! ## The pass in the ring

Run without interruption from the start of its scan, `perform_gc` of the ring computes `performGc`.
-/

section Machine

variable {stops : ℕ → Bool} {s : State} {t fuel : ℕ}

/-- The state in which the pass has moved the bound, and looks for a log once more. -/
def State.collected (s : State) (r : GcResult) : State :=
  { s with freed := s.freed + r.enqueued.length, freelist := s.freelist ++ r.enqueued, bound := r.bound }

theorem gets_gcScan {k : ℕ} (hk : k ≤ cfg.nodeCount) :
    Gets cfg nid stops t (s.setProd t (.gcScan 0 (nextRound cfg s.bound) false))
      (s.setProd t (.gcScan k (gcScan cfg nid s.bound s.subs k).1 (gcScan cfg nid s.bound s.subs k).2)) := by
  induction k with
  | zero => exact .refl
  | succ k ih =>
      apply (ih (by omega)).trans
      rw [gcScan_succ, gcVisit]
      generalize gcScan cfg nid s.bound s.subs k = acc
      by_cases hsub : k ≠ nid ∧ (s.subs k).isSubbed = true
      · rw [if_pos hsub]
        refine .head (b := s.setProd t (.gcHead k acc.1)) (next_setProd rfl (by simp) ?_)
          (.single (next_setProd rfl (by simp) ?_))
        · simp [stepProd, State.setProd, hsub, show k < cfg.nodeCount by omega]
        · simp [stepProd, State.setProd]
          rfl
      · rw [if_neg hsub]
        apply ReflTransGen.single
        apply next_setProd rfl (by simp)
        simp only [stepProd, State.setProd, update_self, update_idem]
        rw [if_pos (by omega), if_neg hsub]

/-- The loop for a subscribed node, from any slot on. -/
theorem gets_gcTake {newB i : ℕ} {logs : List ℕ} (htake : gcTake cfg s.pub newB fuel i = some logs) :
    Gets cfg nid stops t (s.setProd t (.gcLoad i newB true))
      ((s.collected ⟨s.bound, logs, true⟩).setProd t (.gcStore newB)) := by
  induction fuel generalizing i s logs with
  | zero => simp [gcTake] at htake
  | succ fuel ih =>
      rw [gcTake] at htake
      split at htake
      · rename_i heq
        obtain rfl := Option.some.inj htake
        apply ReflTransGen.single
        apply next_setProd rfl (by simp)
        simp [stepProd, State.setProd, State.collected, heq]
      · rename_i hne
        obtain ⟨rest, hrest, rfl⟩ := Option.map_eq_some_iff.mp htake
        apply (gets_recycle hne).trans
        have hrun := @ih (s.recycle cfg i) (incr i) rest hrest
        simpa [State.recycle, State.collected, Nat.add_assoc, Nat.add_comm 1] using hrun

/-- The loop for no subscribed node, from any slot on. -/
theorem gets_gcTakePublished {newB i : ℕ} {r : ℕ × List ℕ}
    (htake : gcTakePublished cfg s.pub newB fuel i = some r) :
    Gets cfg nid stops t (s.setProd t (.gcLoad i newB false))
      ((s.collected ⟨s.bound, r.2, true⟩).setProd t (.gcStore r.1)) := by
  induction fuel generalizing i s r with
  | zero => simp [gcTakePublished] at htake
  | succ fuel ih =>
      rw [gcTakePublished] at htake
      split at htake
      · rename_i heq
        obtain rfl := Option.some.inj htake
        apply ReflTransGen.single
        apply next_setProd rfl (by simp)
        simp [stepProd, State.setProd, State.collected, heq]
      rename_i hne
      refine .head (b := s.setProd t (.gcCheck i newB (s.pub (getIdx cfg i)).log))
        (next_setProd rfl (by simp) (by simp [stepProd, State.setProd, hne])) ?_
      split at htake
      · rename_i hpub
        obtain ⟨rest, hrest, rfl⟩ := Option.map_eq_some_iff.mp htake
        refine .head (b := s.take.setProd t (.gcEnqueue i newB false (s.pub (getIdx cfg i)).log))
          (next_setProd rfl (by simp) ?_) (.head
            (b := (s.recycle cfg i).setProd t (.gcLoad (incr i) newB false))
            (next_setProd rfl (by simp) ?_) ?_)
        · simp [stepProd, State.setProd, hpub, State.take]
        · simp [stepProd, State.setProd, State.take, State.recycle]
        · have hrun := @ih (s.recycle cfg i) (incr i) rest hrest
          simpa [State.recycle, State.collected, Nat.add_assoc, Nat.add_comm 1] using hrun
      · rename_i hpub
        obtain rfl := Option.some.inj htake
        apply ReflTransGen.single
        apply next_setProd rfl (by simp)
        simp [stepProd, State.setProd, State.collected, hpub]

/-- The thread that runs `perform_gc` ends its pass with the bound and the logs of `performGc`. -/
theorem gets_performGc {r : GcResult} (hr : performGc cfg nid s.bound s.subs s.pub fuel = some r) :
    Gets cfg nid stops t (s.setProd t (.gcScan 0 (nextRound cfg s.bound) false))
      ((s.collected r).setProd t .lastDequeue) := by
  have hstore : ∀ {s' : State} {newB : ℕ}, Gets cfg nid stops t (s'.setProd t (.gcStore newB))
      ({ s' with bound := newB }.setProd t .lastDequeue) := fun {s' newB} =>
    .single (next_setProd rfl (by simp) (by simp [stepProd, State.setProd]))
  apply (gets_gcScan le_rfl).trans
  rw [performGc] at hr
  generalize gcScan cfg nid s.bound s.subs cfg.nodeCount = scan at hr
  refine .head (b := s.setProd t (.gcLoad s.bound scan.1 scan.2)) (next_setProd rfl (by simp) ?_) ?_
  · simp [stepProd, State.setProd]
  obtain ⟨taken, htaken, rfl⟩ := Option.map_eq_some_iff.mp hr
  cases hfound : scan.2 with
  | true =>
      rw [hfound, if_pos rfl] at htaken
      obtain ⟨logs, hlogs, rfl⟩ := Option.map_eq_some_iff.mp htaken
      exact (gets_gcTake hlogs).trans hstore
  | false =>
      rw [hfound, if_neg (by simp)] at htaken
      exact (gets_gcTakePublished htaken).trans hstore

/-- Below the wrap an uninterrupted pass in the ring moves the bound on by the smallest of the subscribers'
advances and recycles the logs of that many slots. -/
theorem gets_least_advance (h : GcReady cfg nid s.bound s.subs) (hwrap : s.bound + cfg.logCount < idxRange) :
    ∃ m, IsLeast {d | ∃ n, GcSubscriber cfg nid s.subs n ∧ d = advance cfg s.bound (s.subs n).head} m ∧
      Gets cfg nid stops t (s.setProd t (.gcScan 0 (nextRound cfg s.bound) false))
        ((s.collected ⟨(s.bound + m) % idxRange, slotLogs cfg s.pub s.bound m, true⟩).setProd t
          .lastDequeue) := by
  obtain ⟨fuel, ⟨newB, logs, asserted⟩, m, hr, hassert, hleast, hbound, hlogs⟩ :=
    @gcCorrect_of_lt cfg nid s.bound s.subs s.pub h hwrap
  refine ⟨m, hleast, ?_⟩
  have hrun := @gets_performGc cfg nid stops s t fuel _ hr
  dsimp only at hbound hlogs
  rw [← hbound, ← hlogs]
  exact hrun

end Machine

end LogManager

end RACoherence
