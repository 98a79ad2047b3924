import Mathlib.Order.Interval.Finset.Nat
import RACoherence.Lib.Ownership
import RACoherence.LogManager.Step

/-!
# Who owns the logs of the ring

`produce_tail` makes no check for a full ring. What keeps it safe is that every log is in exactly one
place: queued in the freelist, in the hands of a thread in `perform_gc`, held by a producer, or
published (or about to be) under an index that is not recycled yet. There are `LOG_COUNT` logs, so
there are never more than `LOG_COUNT` such indices.
-/

namespace RACoherence

open Function

namespace LogManager

/-! ## Views of the program counters -/

namespace ProdPc

/-- The log that the thread has dequeued and not published yet. -/
def holds : ProdPc → Option ℕ
  | .unlockGc log => log
  | .reset log | .hold log => some log
  | _ => none

/-- The log that `perform_gc` has loaded and not enqueued yet. -/
def inHand : ProdPc → Option ℕ
  | .gcEnqueue _ _ _ log => some log
  | _ => none

/-- The index that the thread has reserved and not published yet. -/
def reserved : ProdPc → Option ℕ
  | .storeRel _ _ j | .storeLog _ _ j | .storeIdx _ _ j => some j
  | _ => none

/-- The thread is between `gc_mtx.lock()` and `gc_mtx.unlock()`. -/
def inGc : ProdPc → Bool
  | .retryDequeue | .gcScan .. | .gcHead .. | .gcLoad .. | .gcCheck .. | .gcEnqueue .. | .gcStore _
  | .lastDequeue | .unlockGc _ => true
  | _ => false

/-- The thread is in `perform_gc`. -/
def inPass : ProdPc → Bool
  | .gcScan .. | .gcHead .. | .gcLoad .. | .gcCheck .. | .gcEnqueue .. | .gcStore _ => true
  | _ => false

/-- The thread is in a loop of `perform_gc` that recycles logs, so that `bound` is behind. -/
def recycling : ProdPc → Bool
  | .gcLoad .. | .gcCheck .. | .gcEnqueue .. | .gcStore _ => true
  | _ => false

theorem inGc_of_inPass {pc : ProdPc} (h : pc.inPass = true) : pc.inGc = true := by
  cases pc <;> simp_all [inPass, inGc]

theorem inPass_of_recycling {pc : ProdPc} (h : pc.recycling = true) : pc.inPass = true := by
  cases pc <;> simp_all [inPass, recycling]

end ProdPc

variable (cfg : LogConfig) (nid : ℕ)

/-! ## Who owns a log -/

/-- The possible owners of a log: the freelist, a thread in `perform_gc`, a producer, or an index
under which it is published or about to be. -/
inductive Owner
  | queued
  | gc (t : ℕ)
  | producer (t : ℕ)
  | index (j : ℕ)
  deriving DecidableEq, Repr

/-- Log `log` is owned by `o`. -/
def OwnedBy (s : State) : Owner → ℕ → Prop
  | .queued, log => log ∈ s.freelist
  | .gc t, log => (s.prod t).inHand = some log
  | .producer t, log => (s.prod t).holds = some log
  | .index j, log => s.freed ≤ j ∧ j < s.tail ∧ (s.hist j).log = log

/-- Every log has exactly one owner, and is queued at most once. -/
structure Owned (s : State) : Prop where
  exclusive : Exclusive (OwnedBy s) (Finset.range cfg.logCount)
  nodup : s.freelist.Nodup

variable {cfg nid} {stops : ℕ → Bool} {s s' : State} {a : Action}

namespace Owned

/-- Nothing changes hands. -/
theorem frame (h : Owned cfg s) (hq : s'.freelist = s.freelist) (hf : s'.freed = s.freed)
    (ht : s'.tail = s.tail) (hh : s'.hist = s.hist)
    (hpc : ∀ t, (s'.prod t).holds = (s.prod t).holds ∧ (s'.prod t).inHand = (s.prod t).inHand) :
    Owned cfg s' where
  exclusive := h.exclusive.congr fun o log => by cases o <;> simp [OwnedBy, hq, hf, ht, hh, hpc]
  nodup := hq ▸ h.nodup

/-- A thread dequeues a log. -/
theorem dequeue (h : Owned cfg s) {t log : ℕ} {rest : List ℕ} {pc : ProdPc}
    (hq : s.freelist = log :: rest) (hnone : (s.prod t).holds = none ∧ (s.prod t).inHand = none)
    (hpc : pc.holds = some log ∧ pc.inHand = none) :
    Owned cfg ({ s with freelist := rest }.setProd t pc) := by
  have hnd : log ∉ rest ∧ rest.Nodup := List.nodup_cons.mp (hq ▸ h.nodup)
  have hown : OwnedBy s .queued log := by simp [OwnedBy, hq]
  have heq : ∀ p, OwnedBy s p log → p = .queued := fun p hp => h.exclusive.eq hp hown
  refine ⟨h.exclusive.move (.producer t) hown (fun p => ?_) fun p y hy => ?_, hnd.2⟩
  · have hp := heq p
    cases p <;> simp only [OwnedBy, State.setProd, update_apply] at hp ⊢ <;> grind
  · cases p <;> simp only [OwnedBy, State.setProd, update_apply] <;> grind

/-- `perform_gc` enqueues the log it has in hand. -/
theorem enqueue (h : Owned cfg s) {t log : ℕ} {pc : ProdPc}
    (hhand : (s.prod t).holds = none ∧ (s.prod t).inHand = some log)
    (hpc : pc.holds = none ∧ pc.inHand = none) :
    Owned cfg ({ s with freelist := s.freelist ++ [log] }.setProd t pc) := by
  have hown : OwnedBy s (.gc t) log := hhand.2
  have heq : ∀ p, OwnedBy s p log → p = .gc t := fun p hp => h.exclusive.eq hp hown
  have hnot : log ∉ s.freelist := fun hmem => by simpa using heq .queued hmem
  refine ⟨h.exclusive.move .queued hown (fun p => ?_) fun p y hy => ?_, ?_⟩
  · have hp := heq p
    cases p <;> simp only [OwnedBy, State.setProd, update_apply] at hp ⊢ <;> grind
  · cases p <;> simp only [OwnedBy, State.setProd, update_apply] <;> grind
  · simpa [State.setProd, List.nodup_append] using ⟨h.nodup, fun a ha heq => hnot (heq ▸ ha)⟩

/-- `perform_gc` takes the log of the oldest index. -/
theorem take (h : Owned cfg s) {t : ℕ} {pc : ProdPc} (hlt : s.freed < s.tail)
    (hnone : (s.prod t).holds = none ∧ (s.prod t).inHand = none)
    (hpc : pc.holds = none ∧ pc.inHand = some (s.hist s.freed).log) :
    Owned cfg (s.take.setProd t pc) := by
  have hown : OwnedBy s (.index s.freed) (s.hist s.freed).log := ⟨le_rfl, hlt, rfl⟩
  have heq : ∀ p, OwnedBy s p (s.hist s.freed).log → p = .index s.freed :=
    fun p hp => h.exclusive.eq hp hown
  refine ⟨h.exclusive.move (.gc t) hown (fun p => ?_) fun p y hy => ?_, h.nodup⟩
  · have hp := heq p
    cases p <;> simp only [OwnedBy, State.setProd, State.take, update_apply] at hp ⊢ <;> grind
  · cases p <;> simp only [OwnedBy, State.setProd, State.take, update_apply] <;> grind

/-- A producer reserves the next index for its log. -/
theorem produce (h : Owned cfg s) {t log : ℕ} {r : Bool} (hlog : s.prod t = .hold log)
    (hle : s.freed ≤ s.tail) (hwrap : s.tail + 1 < idxRange) :
    Owned cfg ({ s with
      tail := incr s.tail
      hist := update s.hist s.tail ⟨log, r, s.buf log⟩ }.setProd t (.storeRel log r s.tail)) := by
  have hincr : incr s.tail = s.tail + 1 := Nat.mod_eq_of_lt hwrap
  have hown : OwnedBy s (.producer t) log := by simp [OwnedBy, hlog, ProdPc.holds]
  have heq : ∀ p, OwnedBy s p log → p = .producer t := fun p hp => h.exclusive.eq hp hown
  refine ⟨h.exclusive.move (.index s.tail) hown (fun p => ?_) fun p y hy => ?_, h.nodup⟩
  · have hp := heq p
    cases p <;> simp only [OwnedBy, State.setProd, update_apply, hincr] at hp ⊢ <;>
      grind [ProdPc.holds, ProdPc.inHand]
  · cases p <;> simp only [OwnedBy, State.setProd, update_apply, hincr] <;>
      grind [ProdPc.holds, ProdPc.inHand]

/-- The reserved indices are no more than the logs. -/
theorem tail_le (h : Owned cfg s) : s.tail ≤ s.freed + cfg.logCount := by
  have hcard := h.exclusive.card_le (T := (Finset.Ico s.freed s.tail).map ⟨Owner.index, fun _ _ => by simp⟩)
    (by
      intro o ho
      obtain ⟨j, hj, rfl⟩ := Finset.mem_map.mp ho
      exact ⟨(s.hist j).log, (Finset.mem_Ico.mp hj).1, (Finset.mem_Ico.mp hj).2, rfl⟩)
  simp only [Finset.card_map, Nat.card_Ico, Finset.card_range] at hcard
  omega

end Owned

end LogManager

end RACoherence
