import RACoherence.CLHLock.Queue

/-!
# Exclusion and memory safety of the CLH locks

A writer of a `CLHSharedLock` waits for `active_readers` to become zero while it has the queue lock, without
which no reader can add itself. A thread waits at the node in front of its own, frees it when the lock is its
own, and leaves its own node to the thread behind it. Every node that it reads, writes or frees on the way is
allocated; only the check of `try_lock`, which is not in the queue, may read a node that has been freed.
-/

namespace RACoherence

open Function

namespace CLHLock

variable {shared : Bool} {s s' : State} {a : Action}

/-- The thread is counted in `active_readers`. -/
def Pc.counted : Pc → Bool
  | .loadMine k _ | .release k _ _ => k == .lockShared
  | .reading | .subReader => true
  | .idle | .tryTail | .tryLoad _ | .allocate _ | .construct _ _ | .swap _ _ | .spin _ _ _
  | .deallocate _ _ _ | .setMine _ _ | .waitReaders _ | .addReader _ | .holding _ => false

/-- The thread has the lock for itself. -/
def Pc.writes : Pc → Bool
  | .holding _ => true
  | .loadMine k _ | .release k _ _ => k != .lockShared
  | .idle | .tryTail | .tryLoad _ | .allocate _ | .construct _ _ | .swap _ _ | .spin _ _ _
  | .deallocate _ _ _ | .setMine _ _ | .waitReaders _ | .addReader _ | .reading | .subReader => false

/-- The thread works on a node for `lock_shared`, or reads. -/
def Pc.isShared : Pc → Bool
  | .allocate k | .construct k _ | .swap k _ | .spin k _ _ | .deallocate k _ _ | .setMine k _ | .loadMine k _
  | .release k _ _ => k == .lockShared
  | .addReader _ | .reading | .subReader => true
  | .idle | .tryTail | .tryLoad _ | .waitReaders _ | .holding _ => false

theorem Pc.isShared_of_counted {pc : Pc} (h : pc.counted = true) : pc.isShared = true := by
  cases pc <;> first | exact h | rfl | cases h

theorem Pc.first_of_writes {pc : Pc} (h : pc.writes = true) : pc.first = true := by
  cases pc <;> first | rfl | cases h

/-- `active_readers` counts the readers, of which there are none for a `CLHLock` and while a thread
writes. -/
structure Readers (shared : Bool) (s : State) : Prop where
  count : s.activeReaders = s.readers.card
  mem : ∀ t, t ∈ s.readers ↔ (s.pc t).counted = true
  kind : shared = false → ∀ t, (s.pc t).isShared = false
  writes : ∀ t, (s.pc t).writes = true → s.readers = ∅

theorem readers_initial (n₀ : ℕ) : Readers shared (initial n₀) :=
  ⟨rfl, by simp [initial, Pc.counted], by simp [initial, Pc.isShared], by simp [initial]⟩

namespace Readers

theorem count_step (h : Readers shared s) (hs : Step shared s a s') : s'.activeReaders = s'.readers.card := by
  have hcount := h.count
  cases hs with
  | @addReader t n hpc =>
      have hnot : t ∉ s.readers := by rw [h.mem, hpc]; simp [Pc.counted]
      simp [State.setPc, hcount, Finset.card_insert_of_notMem hnot]
  | @subReader t hpc =>
      have hmem : t ∈ s.readers := by rw [h.mem, hpc]; rfl
      have hpos := Finset.card_pos.mpr ⟨t, hmem⟩
      simp only [State.setPc, hcount, Finset.card_erase_of_mem hmem]
      omega
  | _ => exact hcount

theorem mem_step (h : Readers shared s) (hs : Step shared s a s') (t : ℕ) :
    t ∈ s'.readers ↔ (s'.pc t).counted = true := by
  have hmem := h.mem t
  cases hs with
  | spinLocked _ _ => exact hmem
  | waitReaders _ _ => exact hmem
  | _ =>
      simp only [State.setPc, State.setAllocated, State.store, State.enqueue, State.dequeue, entered, left,
        update_apply, Finset.mem_insert, Finset.mem_erase]
      grind [Pc.counted]

theorem kind_step (h : Readers shared s) (hs : Step shared s a s') (hshared : shared = false) (t : ℕ) :
    (s'.pc t).isShared = false := by
  have hkind := h.kind hshared t
  subst hshared
  cases hs with
  | spinLocked _ _ => exact hkind
  | waitReaders _ _ => exact hkind
  | _ =>
      simp only [State.setPc, State.setAllocated, State.store, State.enqueue, State.dequeue, entered, left,
        update_apply]
      grind [Pc.isShared]

theorem eq_empty_of_clhLock (h : Readers false s) : s.readers = ∅ := by
  apply Finset.eq_empty_of_forall_notMem
  intro t ht
  have hshared := Pc.isShared_of_counted ((h.mem t).mp ht)
  rw [h.kind rfl t] at hshared
  cases hshared

/-- A thread begins to write where it finds no reader, and no thread becomes a reader while another one has
the queue lock. -/
theorem writes_step (h : Readers shared s) (hq : Queue s) (hs : Step shared s a s') (t : ℕ)
    (ht : (s'.pc t).writes = true) : s'.readers = ∅ := by
  have hold := h.writes t
  cases hs with
  | spinLocked _ _ => exact hold ht
  | waitReaders _ _ => exact hold ht
  | @noReaders u n hpc hzero =>
      have hcard : s.readers.card = 0 := by
        have hcount := h.count
        omega
      exact Finset.card_eq_zero.mp hcard
  | @setMine u n k hpc =>
      cases shared with
      | false => exact h.eq_empty_of_clhLock
      | true =>
          simp only [State.setPc, entered, update_apply] at ht ⊢
          grind [Pc.writes]
  | @addReader u n hpc =>
      simp only [State.setPc, update_apply] at ht
      split at ht
      · cases ht
      · have hne := hq.first_unique (Pc.first_of_writes ht) (u := u) (by rw [hpc]; rfl)
        contradiction
  | @subReader u hpc =>
      simp only [State.setPc, update_apply] at ht
      split at ht
      · cases ht
      · simp [State.setPc, hold ht]
  | _ =>
      simp only [State.setPc, State.setAllocated, State.store, State.enqueue, State.dequeue, left,
        update_apply] at ht ⊢
      grind [Pc.writes]

theorem step (h : Readers shared s) (hq : Queue s) (hs : Step shared s a s') : Readers shared s' :=
  ⟨h.count_step hs, h.mem_step hs, h.kind_step hs, h.writes_step hq hs⟩

end Readers

theorem readers_of_run (hs : (machine shared).Reachable s) : Readers shared s := by
  apply hs.invariant (I := Readers shared)
  · rintro _ ⟨n₀, rfl⟩
    exact readers_initial n₀
  · intro s a s' hrun hr _ hstep
    exact hr.step (queue_reachable hrun) (step_cases hstep)

namespace Queue

/-- What a thread reads, writes or frees next is what it prepares, its own node in the queue or the one in
front of it. -/
theorem holds_of_accesses (h : Queue s) {t n : ℕ} (hn : (s.pc t).accesses = some n) :
    Holds s (.thread t) n ∨
      s.deq < s.ticket t ∧ s.turn (s.ticket t) = t ∧
        (Holds s (.place (s.ticket t)) n ∨ Holds s (.place (s.ticket t - 1)) n) := by
  cases hpc : s.pc t with
  | construct k m =>
      rw [hpc] at hn
      cases hn
      exact .inl (by simp only [Holds, hpc, Pc.prepares])
  | spin k m p | deallocate k m p =>
      rw [hpc] at hn
      cases hn
      obtain ⟨hlo, hhi, hturn, -⟩ := h.window.ticket t m (by rw [hpc]; rfl)
      have hp := h.window.before t n (by rw [hpc]; rfl)
      refine .inr ⟨hlo, hturn, .inr ⟨?_, by omega, hp.symm⟩⟩
      -- the first thread has not freed the node in front of it yet
      by_cases hfirst : s.ticket t = s.deq + 1
      · exact .inr ⟨by omega, (h.holds_before (t := t) (p := n) (by rw [hpc]; rfl) hfirst).2⟩
      · exact .inl (by omega)
  | release k m i =>
      rw [hpc] at hn
      cases hn
      obtain rfl := h.release t k m n hpc
      obtain ⟨hlo, hhi, hturn, hnode⟩ := h.window.ticket t n (by rw [hpc]; rfl)
      exact .inr ⟨hlo, hturn, .inl ⟨.inl hlo, hhi, hnode⟩⟩
  | _ =>
      rw [hpc] at hn
      cases hn

theorem allocated_of_accesses (h : Queue s) {t n : ℕ} (hn : (s.pc t).accesses = some n) :
    s.allocated n = true := by
  rcases h.holds_of_accesses hn with ho | ⟨-, -, ho | ho⟩ <;> exact h.nodes.allocated _ n ho

/-- The node that the first thread frees is the one of the place in front of all threads. -/
theorem holds_of_deallocate (h : Queue s) {t n p : ℕ} {k : Kind} (hpc : s.pc t = .deallocate k n p) :
    Holds s (.place s.deq) p := by
  have hticket := h.window.first t (by rw [hpc]; rfl)
  obtain ⟨hp, hbase⟩ := h.holds_before (t := t) (p := p) (by rw [hpc]; rfl) hticket
  exact ⟨.inr ⟨rfl, hbase⟩, h.window.le, hp.symm⟩

/-- Nobody else needs it. -/
theorem accesses_ne (h : Queue s) {t n p u : ℕ} {k : Kind} (hpc : s.pc t = .deallocate k n p) (hut : u ≠ t) :
    (s.pc u).accesses ≠ some p := by
  intro hu
  have hp := h.holds_of_deallocate hpc
  rcases h.holds_of_accesses hu with ho | ⟨hlo, hturn, ho | ho⟩
  · cases h.nodes.inj _ _ p ho hp
  · have := Holder.place.inj (h.nodes.inj _ _ p ho hp)
    omega
  · have hsucc := Holder.place.inj (h.nodes.inj _ _ p ho hp)
    have hticket : s.ticket u = s.ticket t := by
      rw [h.window.first t (by rw [hpc]; rfl)]
      omega
    apply hut
    rw [← hturn, hticket]
    exact (h.window.ticket t n (by rw [hpc]; rfl)).2.2.1

/-- The node that is left when nobody works on the queue. -/
theorem allocated_iff_of_idle (h : Queue s) (hidle : ∀ t, s.pc t = .idle ∨ s.pc t = .reading) {n : ℕ} :
    s.allocated n = true ↔ n = s.tail := by
  have hempty : s.deq = s.enq := by
    by_contra hne
    have hle := h.window.le
    have hown := (h.window.turn s.enq (by omega) le_rfl).1
    rcases hidle (s.turn s.enq) with hpc | hpc <;> rw [hpc] at hown <;> cases hown
  have hbase : BaseHeld s := by
    intro t ht
    rcases hidle t with hpc | hpc <;> rw [hpc] at ht <;> cases ht
  constructor
  · intro hn
    obtain ⟨t | i, ho⟩ := h.nodes.held n hn
    · rcases hidle t with hpc | hpc <;> simp only [Holds, hpc] at ho <;> cases ho
    · obtain ⟨hi, hhi, hnode⟩ := ho
      have hlast : i = s.enq := by omega
      rw [h.window.tail, ← hnode, hlast]
  · rintro rfl
    exact h.nodes.allocated (.place s.enq) _ ⟨.inr ⟨hempty.symm, hbase⟩, le_rfl, h.window.tail.symm⟩

end Queue

/-- In every state of every run of clients that unlock what they have locked: one thread at most holds the
lock, and `mynode` is the node it has locked with, for which the next thread waits; while it does, no thread
is a reader; every node that a thread in the queue reads, writes or frees next is allocated; the node that a
thread is about to free is neither at the end of the queue nor needed by another thread in `lock`,
`lock_shared` or `unlock` (a `try_lock` that has loaded `tail` may still read it); and when no thread is in
the queue or on its way there, the allocated node is the one that the destructor frees. -/
theorem clh_lock_exclusive (shared : Bool) (s : State) (hs : (machine shared).Reachable s) :
    (∀ t u n m, s.pc t = .holding n → s.pc u = .holding m → t = u) ∧
    (∀ t n, s.pc t = .holding n → s.mynode = n ∧ s.succMustWait n = true) ∧
    (∀ t n u, s.pc t = .holding n → s.pc u ≠ .reading ∧ s.pc u ≠ .subReader) ∧
    (∀ t n, (s.pc t).accesses = some n → s.allocated n = true) ∧
    (∀ t k n p, s.pc t = .deallocate k n p → s.tail ≠ p ∧
      ∀ u, u ≠ t → (s.pc u).accesses ≠ some p ∧ (s.pc u).own ≠ some p ∧ (s.pc u).prepares ≠ some p) ∧
    ((∀ t, s.pc t = .idle ∨ s.pc t = .reading) → ∀ n, s.allocated n = true ↔ n = s.tail) := by
  have hq := queue_reachable hs
  have hr := readers_of_run hs
  refine ⟨fun t u n m ht hu => ?_, fun t n ht => ⟨?_, ?_⟩, fun t n u ht => ?_, fun t n hn => ?_,
    fun t k n p ht => ?_, fun hidle n => hq.allocated_iff_of_idle hidle⟩
  · exact hq.first_unique (by rw [ht]; rfl) (by rw [hu]; rfl)
  · exact hq.window.mine t n (by rw [ht]; rfl)
  · obtain ⟨hlo, hhi, -, hnode⟩ := hq.window.ticket t n (by rw [ht]; rfl)
    rw [← hnode]
    exact hq.flags.wait _ hlo hhi
  · have hempty := hr.writes t (by rw [ht]; rfl)
    have hu := hr.mem u
    rw [hempty] at hu
    constructor <;> intro hpc <;> simp [hpc, Pc.counted] at hu
  · exact hq.allocated_of_accesses hn
  · have hp := hq.holds_of_deallocate ht
    obtain ⟨hlo, hhi, -, -⟩ := hq.window.ticket t n (by rw [ht]; rfl)
    refine ⟨fun htail => ?_, fun u hut => ⟨hq.accesses_ne ht hut, fun hu => ?_, fun hu => ?_⟩⟩
    · have hlast : Holds s (.place s.enq) p := ⟨.inl (by omega), le_rfl, by rw [← hq.window.tail, htail]⟩
      have := Holder.place.inj (hq.nodes.inj _ _ p hlast hp)
      omega
    · obtain ⟨hlo', hhi', -, hnode⟩ := hq.window.ticket u p hu
      have := Holder.place.inj (hq.nodes.inj (.place (s.ticket u)) _ p ⟨.inl hlo', hhi', hnode⟩ hp)
      omega
    · cases hq.nodes.inj (.thread u) _ p hu hp

/-- `lock` by thread `t` with node `n`, up to the exchange of `tail`. -/
def lockUp (t n : ℕ) : List Action := [.lock t, .allocate t n, .thread t, .thread t]

/-- A thread has the lock of a `CLHSharedLock` and a second one waits. The first one releases it, and the
second is about to free the first one's node. -/
theorem clh_lock_exclusive_hand_over :
    ∃ s : State, (machine true).Reachable s ∧ s.pc 1 = .deallocate .lockShared 8 7 ∧ s.tail ≠ 7 := by
  obtain ⟨s, hs, hpc⟩ : ∃ s, (machine true).exec (fun _ _ => true) (initial 3)
      (lockUp 0 7 ++ [.thread 0, .thread 0, .thread 0, .thread 0, .lockShared 1, .allocate 1 8,
        .thread 1, .thread 1, .unlock 0, .thread 0, .thread 0, .thread 1]) = some s ∧
      s.pc 1 = .deallocate .lockShared 8 7 :=
    ⟨_, rfl, rfl⟩
  have hrun : (machine true).Reachable s := Machine.Run.exec (.init ⟨3, rfl⟩) (fun _ _ _ => trivial) hs
  exact ⟨s, hrun, hpc, ((clh_lock_exclusive true s hrun).2.2.2.2.1 1 _ 8 7 hpc).1⟩

-- `try_lock` has read `tail`, another thread has locked since, and the node that `try_lock` looks at is freed
example : ((machine false).exec (fun _ _ => true) (initial 3)
    ([.tryLock 0, .thread 0] ++ lockUp 1 7 ++ [.thread 1, .thread 1])).map (fun s => (s.pc 0, s.allocated 3)) =
      some (.tryLoad 3, false) := rfl

end CLHLock

end RACoherence
