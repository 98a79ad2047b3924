import RACoherence.MCSLock.Queue

/-!
# Exclusion and memory safety of the MCS locks

A writer of an `MCSSharedLock` waits for `active_readers` to become zero with its own node first in the
queue, where no reader can add itself. Every node that a step touches is the thread's own, that of the
thread before it, which cannot leave before it knows the next one, or that of the thread behind it, which
waits.
-/

namespace RACoherence

open Function

namespace MCSLock

variable {shared : Bool} {s s' : State} {a : Action}

/-- The thread works on a node for `lock_shared`, or reads. -/
def Pc.isShared : Pc → Bool
  | .allocate k | .setNext k _ | .setLocked k _ | .swap k _ | .link k _ _ | .spin k _ | .setOwner k _
  | .loadNext k _ | .casTail k _ | .spinNext k _ | .handOff k _ _ | .deallocate k _ => k == .lockShared
  | .addReader _ | .reading | .subReader => true
  | .idle | .tryLoad | .waitReaders _ | .holding _ | .loadOwner _ => false

theorem Pc.isShared_of_counted {pc : Pc} (h : pc.counted = true) : pc.isShared = true := by
  cases pc <;> first | exact h | rfl | cases h

theorem Pc.first_of_writes {pc : Pc} (h : pc.writes = true) : pc.first = true := by
  cases pc <;> first | rfl | cases h

/-- `active_readers` counts the readers, of which there are none for an `MCSLock` and while a thread
writes. -/
structure Readers (shared : Bool) (s : State) : Prop where
  count : s.activeReaders = s.readers.card
  mem : ∀ t, t ∈ s.readers ↔ (s.pc t).counted = true
  kind : shared = false → ∀ t, (s.pc t).isShared = false
  writes : ∀ t, (s.pc t).writes = true → s.readers = ∅

theorem readers_initial : Readers shared initial :=
  ⟨rfl, by simp [initial, Pc.counted], by simp [initial, Pc.isShared], by simp [initial]⟩

namespace Readers

theorem count_step (h : Readers shared s) (hs : Step shared s a s') :
    s'.activeReaders = s'.readers.card := by
  have hcount := h.count
  cases hs with
  | @addReader t n hpc =>
      have hnot : t ∉ s.readers := by rw [h.mem, hpc]; simp [Pc.counted]
      simp [State.setPc, hcount, Finset.card_insert_of_notMem hnot]
  | @subReader t hpc =>
      have hmem : t ∈ s.readers := by rw [h.mem, hpc]; rfl
      have hpos := Finset.card_pos.mpr ⟨t, hmem⟩
      simp only [State.setPc, hcount, Finset.card_erase_of_mem hmem]
      omega
  | _ => exact hcount

theorem mem_step (h : Readers shared s) (hs : Step shared s a s') (t : ℕ) :
    t ∈ s'.readers ↔ (s'.pc t).counted = true := by
  have hmem := h.mem t
  cases hs with
  | spinLocked _ _ => exact hmem
  | waitReaders _ _ => exact hmem
  | spinNull _ _ => exact hmem
  | _ =>
      simp only [State.setPc, State.storeNext, State.storeLocked, State.enqueue, State.dequeue,
        entered, left, update_apply, Finset.mem_insert, Finset.mem_erase]
      grind [Pc.counted]

theorem kind_step (h : Readers shared s) (hs : Step shared s a s') (hshared : shared = false) (t : ℕ) :
    (s'.pc t).isShared = false := by
  have hkind := h.kind hshared t
  subst hshared
  cases hs with
  | spinLocked _ _ => exact hkind
  | waitReaders _ _ => exact hkind
  | spinNull _ _ => exact hkind
  | _ =>
      simp only [State.setPc, State.storeNext, State.storeLocked, State.enqueue, State.dequeue,
        entered, left, update_apply]
      grind [Pc.isShared]

theorem eq_empty_of_mcsLock (h : Readers false s) : s.readers = ∅ := by
  ext t
  have hkind := h.kind rfl t
  have hmem := h.mem t
  have hcounted := @Pc.isShared_of_counted (s.pc t)
  simp only [Finset.notMem_empty, iff_false]
  grind

/-- A thread begins to write where it finds no reader, and no thread becomes a reader while another one is
first in the queue. -/
theorem writes_step (h : Readers shared s) (hq : Queue s) (hs : Step shared s a s') (t : ℕ)
    (ht : (s'.pc t).writes = true) : s'.readers = ∅ := by
  have hold := h.writes t
  cases hs with
  | spinLocked _ _ => exact hold ht
  | waitReaders _ _ => exact hold ht
  | spinNull _ _ => exact hold ht
  | @noReaders u n hpc hzero =>
      have hcard : s.readers.card = 0 := by
        have hcount := h.count
        omega
      exact Finset.card_eq_zero.mp hcard
  | @setOwner u n k hpc =>
      cases shared with
      | false => exact h.eq_empty_of_mcsLock
      | true =>
          simp only [State.setPc, entered, update_apply] at ht ⊢
          grind [Pc.writes]
  | @addReader u n hpc =>
      simp only [State.setPc, update_apply] at ht
      split at ht
      · cases ht
      · have hne := hq.first_unique (Pc.first_of_writes ht) (u := u) (by rw [hpc]; rfl)
        contradiction
  | @subReader u hpc =>
      simp only [State.setPc, update_apply] at ht
      split at ht
      · cases ht
      · simp [State.setPc, hold ht]
  | _ =>
      simp only [State.setPc, State.storeNext, State.storeLocked, State.enqueue, State.dequeue,
        left, update_apply] at ht ⊢
      grind [Pc.writes]

theorem step (h : Readers shared s) (hq : Queue s) (hs : Step shared s a s') : Readers shared s' :=
  ⟨h.count_step hs, h.mem_step hs, h.kind_step hs, h.writes_step hq hs⟩

end Readers

theorem queue_readers_of_run (hs : (machine shared).Reachable s) : Queue s ∧ Readers shared s := by
  refine hs.invariant (I := fun s => Queue s ∧ Readers shared s) ?_ ?_
  · rintro s rfl
    exact ⟨queue_initial, readers_initial⟩
  · rintro s a s' - ⟨hq, hr⟩ - hstep
    have hs := step_cases hstep
    exact ⟨hq.step hs, hr.step hq hs⟩

/-- Every node that the next step of a thread touches is allocated. -/
theorem Queue.allocated_of_accesses (h : Queue s) {t n : ℕ} (hn : n ∈ (s.pc t).accesses) :
    s.allocated n = true := by
  cases hpc : s.pc t with
  | link k m p =>
      rw [hpc] at hn
      obtain rfl := List.mem_singleton.mp hn
      exact h.nodes.allocated _ _ (h.links.predecessor t k m n hpc)
  | handOff k m p =>
      rw [hpc] at hn
      obtain rfl := List.mem_singleton.mp hn
      obtain ⟨k', hspin⟩ := linked_eq_some (h.links.handOff t k m n hpc).2
      exact h.nodes.allocated _ _ (by rw [hspin]; rfl)
  | _ =>
      rw [hpc] at hn
      first
        | cases hn; done
        | obtain rfl := List.mem_singleton.mp hn
          exact h.nodes.allocated t _ (by rw [hpc]; rfl)

/-- A step neither depends on a node outside `accesses` nor changes it. -/
theorem stepThread_congr {t : ℕ} {node : ℕ → Node} (hs : stepThread shared s t = some s')
    (hnode : ∀ n ∈ (s.pc t).accesses, node n = s.node n) :
    ∃ node' : ℕ → Node, stepThread shared { s with node := node } t = some { s' with node := node' } ∧
      ∀ n, node' n = if n ∈ (s.pc t).accesses then s'.node n else node n := by
  refine ⟨fun n => if n ∈ (s.pc t).accesses then s'.node n else node n, ?_, fun _ => rfl⟩
  -- nodes that are only read
  have hread : (fun n => if n ∈ (s.pc t).accesses then s.node n else node n) = node := by
    funext n
    split
    · exact (hnode n ‹_›).symm
    · rfl
  -- the node that is written
  have hwrite : ∀ (m : ℕ) (x : Node), (s.pc t).accesses = [m] →
      (fun n => if n ∈ (s.pc t).accesses then update s.node m x n else node n) = update node m x := by
    intro m x hm
    funext n
    simp only [hm, List.mem_singleton, update_apply]
    split <;> rfl
  cases hpc : s.pc t with
  | setNext k n =>
      have hw := hwrite n ⟨none, (s.node n).locked⟩ (by rw [hpc]; rfl)
      have hn := hnode n (by rw [hpc]; exact List.mem_singleton_self n)
      simp only [stepThread, hpc, Option.some.injEq, State.storeNext, State.setPc] at hs hw ⊢
      subst hs
      simp only [hw, hn]
  | setLocked k n =>
      have hw := hwrite n ⟨(s.node n).next, true⟩ (by rw [hpc]; rfl)
      have hn := hnode n (by rw [hpc]; exact List.mem_singleton_self n)
      simp only [stepThread, hpc, Option.some.injEq, State.storeLocked, State.setPc] at hs hw ⊢
      subst hs
      simp only [hw, hn]
  | link k n p =>
      have hw := hwrite p ⟨some n, (s.node p).locked⟩ (by rw [hpc]; rfl)
      have hn := hnode p (by rw [hpc]; exact List.mem_singleton_self p)
      simp only [stepThread, hpc, Option.some.injEq, State.storeNext, State.setPc] at hs hw ⊢
      subst hs
      simp only [hw, hn]
  | handOff k n m =>
      have hw := hwrite m ⟨(s.node m).next, false⟩ (by rw [hpc]; rfl)
      have hn := hnode m (by rw [hpc]; exact List.mem_singleton_self m)
      simp only [stepThread, hpc, Option.some.injEq, State.storeLocked, State.dequeue,
        State.setPc] at hs hw ⊢
      subst hs
      simp only [hw, hn]
  | spin k n =>
      have hn := hnode n (by rw [hpc]; exact List.mem_singleton_self n)
      simp only [stepThread, hpc, hn] at hs hread ⊢
      cases hs
      simp only [State.setPc, hread]
  | loadNext k n | spinNext k n =>
      have hn := hnode n (by rw [hpc]; exact List.mem_singleton_self n)
      simp only [stepThread, hpc, hn] at hs hread ⊢
      split at hs <;> cases hs <;> simp only [*, State.setPc]
  | loadOwner n =>
      simp only [stepThread, hpc] at hs hread ⊢
      obtain ⟨m, hm, rfl⟩ := Option.map_eq_some_iff.mp hs
      simp only [hm, Option.map_some, State.setPc, hread]
  | swap k n =>
      simp only [stepThread, hpc] at hs hread ⊢
      split at hs
      · cases hs
        simp only [*, State.setPc, State.enqueue]
      · split at hs
        · rename_i hk
          subst hk
          cases hs
          simp [*, State.setPc]
        · cases hs
          simp [*, State.setPc, State.enqueue]
  | casTail k n =>
      simp only [stepThread, hpc] at hs hread ⊢
      split at hs <;> cases hs <;> simp [*, State.setPc, State.dequeue]
  | _ =>
      simp only [stepThread, hpc] at hs hread ⊢
      cases hs <;> simp only [State.setPc, hread]

/-- A step leaves the nodes outside `accesses` alone. -/
theorem stepThread_node {t n : ℕ} (hs : stepThread shared s t = some s')
    (hn : n ∉ (s.pc t).accesses) : s'.node n = s.node n := by
  obtain ⟨node', hsame, hnode'⟩ := stepThread_congr hs fun m _ => (rfl : s.node m = s.node m)
  have heq : s'.node = node' := congrArg State.node (Option.some.inj (hs.symm.trans hsame))
  rw [heq, hnode', if_neg hn]

/-- In every state of every run of clients that unlock what they have locked: one thread at most holds the
lock, and `owner` is the node it has locked with; while it does, no thread is a reader; and every node that
a step reads, writes or frees is allocated, so that the step would be the same whatever the freed nodes
held, and leaves them alone. -/
theorem mcs_lock_exclusive (shared : Bool) (s : State) (hs : (machine shared).Reachable s) :
    (∀ t u n m, s.pc t = .holding n → s.pc u = .holding m → t = u) ∧
    (∀ t n, s.pc t = .holding n → s.owner = some n) ∧
    (∀ t n u, s.pc t = .holding n → s.pc u ≠ .reading ∧ s.pc u ≠ .subReader) ∧
    (∀ t n, n ∈ (s.pc t).accesses → s.allocated n = true) ∧
    (∀ t k n, s.pc t = .deallocate k n → s.allocated n = true) ∧
    (∀ t s' node, stepThread shared s t = some s' →
      (∀ n, s.allocated n = true → node n = s.node n) →
      ∃ node' : ℕ → Node,
        stepThread shared { s with node := node } t = some { s' with node := node' } ∧
        (∀ n, s.allocated n = true → node' n = s'.node n) ∧
        ∀ n, s.allocated n = false → node' n = node n) := by
  obtain ⟨hq, hr⟩ := queue_readers_of_run hs
  refine ⟨?_, ?_, ?_, ?_, ?_, ?_⟩
  · intro t u n m ht hu
    exact hq.first_unique (by rw [ht]; rfl) (by rw [hu]; rfl)
  · intro t n ht
    exact hq.owner t n (.inr (.inl ht))
  · intro t n u ht
    have hempty := hr.writes t (by rw [ht]; rfl)
    have hu := hr.mem u
    rw [hempty] at hu
    constructor <;> intro hpc <;> simp [hpc, Pc.counted] at hu
  · intro t n hn
    exact hq.allocated_of_accesses hn
  · intro t k n hpc
    exact hq.nodes.allocated t n (by rw [hpc]; rfl)
  · intro t s' node hstep hnode
    obtain ⟨node', hstep', hnode'⟩ :=
      stepThread_congr hstep fun n hn => hnode n (hq.allocated_of_accesses hn)
    refine ⟨node', hstep', fun n hn => ?_, fun n hn => ?_⟩ <;> rw [hnode']
    · split
      · rfl
      · rw [hnode n hn, stepThread_node hstep ‹_›]
    · rw [if_neg]
      intro hmem
      rw [hq.allocated_of_accesses hmem] at hn
      cases hn

/-- `lock` of an `MCSLock` or `MCSSharedLock` by thread `t` with node `n`, up to the exchange of `tail`. -/
def lockUp (t n : ℕ) : List Action := [.lock t, .allocate t n, .thread t, .thread t, .thread t]

/-- A thread locks, a second one queues behind it and is known to it, and the first is about to hand the
lock over: it writes to the second one's node. -/
theorem mcs_lock_exclusive_hand_off :
    ∃ s : State, (machine true).Reachable s ∧ (∃ k n, s.pc 0 = .handOff k n 9) ∧
      ∀ t n, n ∈ (s.pc t).accesses → s.allocated n = true := by
  obtain ⟨s, hs, hpc⟩ : ∃ s, (machine true).exec (fun _ _ => true) initial
      (lockUp 0 7 ++ [.thread 0, .thread 0] ++ lockUp 1 9 ++ [.thread 1] ++
        [.unlock 0, .thread 0, .thread 0]) = some s ∧ s.pc 0 = .handOff .lock 7 9 :=
    ⟨_, rfl, rfl⟩
  have hrun : (machine true).Reachable s := Machine.Run.exec (.init rfl) (fun _ _ _ => trivial) hs
  exact ⟨s, hrun, ⟨_, _, hpc⟩, (mcs_lock_exclusive true s hrun).2.2.2.1⟩

end MCSLock

end RACoherence
