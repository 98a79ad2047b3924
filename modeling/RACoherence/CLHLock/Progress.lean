import Mathlib.Algebra.Order.BigOperators.Group.Finset
import Mathlib.Data.Prod.Lex
import RACoherence.CLHLock.Fifo

/-!
# Every thread can get a CLH lock

A thread whose node is in the queue, or on the way there, gets the lock when those in front of it leave and
the readers that a writer waits for are done. None of them can be stuck: whoever is first finds the node in
front of its own released, so the thread has it by the steps of threads that are in calls already, and the
calls of `unlock` and `unlock_shared` by those that have the lock.
-/

namespace RACoherence

open Function

namespace CLHLock

variable {shared : Bool} {s s' : State} {a : Action} {t : ℕ}

/-- The thread has a node for `lock`, `try_lock` or `lock_shared`, and not the lock. -/
def Pc.entering : Pc → Bool
  | .construct _ _ | .swap _ _ | .spin _ _ _ | .deallocate _ _ _ | .setMine _ _ | .waitReaders _
  | .addReader _ => true
  | .loadMine k _ | .release k _ _ => k == .lockShared
  | .idle | .tryTail | .tryLoad _ | .allocate _ | .holding _ | .reading | .subReader => false

/-- The thread has the lock, alone or with other readers. -/
def Pc.has : Pc → Bool
  | .holding _ | .reading => true
  | .idle | .tryTail | .tryLoad _ | .allocate _ | .construct _ _ | .swap _ _ | .spin _ _ _ | .deallocate _ _ _
  | .setMine _ _ | .waitReaders _ | .addReader _ | .loadMine _ _ | .release _ _ _ | .subReader => false

/-- The action begins no call that waits for the lock. -/
def Action.goesOn : Action → Bool
  | .thread _ | .unlock _ | .unlockShared _ => true
  | .lock _ | .tryLock _ | .lockShared _ | .allocate _ _ => false

/-! ## How far a thread is from the lock -/

/-- How far it is from the queue. -/
def Pc.toQueue : Pc → ℕ
  | .construct _ _ => 2
  | .swap _ _ => 1
  | _ => 0

/-- How far the first thread is from leaving the queue. -/
def Pc.toLeave : Pc → ℕ
  | .spin _ _ _ => 7
  | .deallocate _ _ _ => 6
  | .setMine _ _ => 5
  | .waitReaders _ | .addReader _ => 4
  | .holding _ => 3
  | .loadMine _ _ => 2
  | .release _ _ _ => 1
  | _ => 0

/-- How far a reader is from having left. -/
def Pc.toIdle : Pc → ℕ
  | .reading => 2
  | .subReader => 1
  | _ => 0

/-- How far thread `t` is from the lock: from the queue, from its head, from the first thread's leaving, and
from the readers' leaving. -/
def rank (t : ℕ) (s : State) : ℕ ×ₗ (ℕ ×ₗ (ℕ ×ₗ ℕ)) :=
  toLex ((s.pc t).toQueue, toLex (s.ticket t - s.deq,
    toLex ((s.pc (s.turn (s.deq + 1))).toLeave, ∑ u ∈ s.readers, (s.pc u).toIdle)))

theorem rank_of_toQueue (hlt : (s'.pc t).toQueue < (s.pc t).toQueue) : rank t s' < rank t s :=
  Prod.Lex.toLex_lt_toLex.mpr (.inl hlt)

theorem rank_of_deq (hqueue : (s'.pc t).toQueue = (s.pc t).toQueue)
    (hlt : s'.ticket t - s'.deq < s.ticket t - s.deq) : rank t s' < rank t s :=
  Prod.Lex.toLex_lt_toLex.mpr (.inr ⟨hqueue, Prod.Lex.toLex_lt_toLex.mpr (.inl hlt)⟩)

/-- The queue is as before. -/
def SameQueue (s s' : State) : Prop := s'.deq = s.deq ∧ s'.turn = s.turn ∧ s'.ticket = s.ticket

theorem rank_of_toLeave (hqueue : (s'.pc t).toQueue = (s.pc t).toQueue) (hsame : SameQueue s s')
    (hlt : (s'.pc (s.turn (s.deq + 1))).toLeave < (s.pc (s.turn (s.deq + 1))).toLeave) :
    rank t s' < rank t s := by
  obtain ⟨hdeq, hturn, hticket⟩ := hsame
  refine Prod.Lex.toLex_lt_toLex.mpr (.inr ⟨hqueue, Prod.Lex.toLex_lt_toLex.mpr (.inr ⟨?_, ?_⟩)⟩)
  · simp only [hdeq, hticket]
  · refine Prod.Lex.toLex_lt_toLex.mpr (.inl ?_)
    rwa [hdeq, hturn]

theorem rank_of_readers (hqueue : (s'.pc t).toQueue = (s.pc t).toQueue) (hsame : SameQueue s s')
    (hfirst : s'.pc (s.turn (s.deq + 1)) = s.pc (s.turn (s.deq + 1)))
    (hlt : ∑ u ∈ s'.readers, (s'.pc u).toIdle < ∑ u ∈ s.readers, (s.pc u).toIdle) :
    rank t s' < rank t s := by
  obtain ⟨hdeq, hturn, hticket⟩ := hsame
  refine Prod.Lex.toLex_lt_toLex.mpr (.inr ⟨hqueue, Prod.Lex.toLex_lt_toLex.mpr (.inr ⟨?_, ?_⟩)⟩)
  · simp only [hdeq, hticket]
  · refine Prod.Lex.toLex_lt_toLex.mpr (.inr ⟨?_, hlt⟩)
    rw [hdeq, hturn, hfirst]

/-! ## Nobody is stuck -/

/-- Some thread goes on, and then `t` has the lock, or is closer to it. -/
def Closer (shared : Bool) (t : ℕ) (s : State) : Prop :=
  ∃ s', (machine shared).Next (fun _ a => a.goesOn) s s' ∧
    ((s'.pc t).has = true ∨ (s'.pc t).entering = true ∧ rank t s' < rank t s)

/-- A thread that is not in the queue yet goes on by itself. -/
theorem closer_of_toQueue (hqueue : (s.pc t).toQueue ≠ 0) :
    Closer shared t s := by
  have hstep : ∃ s', stepThread shared s t = some s' ∧ (s'.pc t).entering = true ∧
      (s'.pc t).toQueue < (s.pc t).toQueue := by
    cases hpc : s.pc t with
    | construct k n =>
        exact ⟨_, by simp only [stepThread, hpc]; rfl, by simp [State.setPc, Pc.entering, Pc.toQueue]⟩
    | swap k n =>
        exact ⟨_, by simp only [stepThread, hpc]; rfl, by simp [State.setPc, Pc.entering, Pc.toQueue]⟩
    | _ => simp [hpc, Pc.toQueue] at hqueue
  obtain ⟨s', hstep, hentering, hlt⟩ := hstep
  exact ⟨s', ⟨.thread t, rfl, hstep⟩, .inr ⟨hentering, rank_of_toQueue hlt⟩⟩

/-- The first thread goes on, and stays in the queue. -/
theorem closer_of_first {f : ℕ} {pc : Pc} (hf : s.turn (s.deq + 1) = f) (ht : (s.pc t).entering = true)
    (hqueue : (s.pc t).toQueue = 0) (hnext : (machine shared).Next (fun _ a => a.goesOn) s s')
    (hpc : s'.pc = update s.pc f pc) (hsame : SameQueue s s') (hlt : pc.toLeave < (s.pc f).toLeave)
    (hpcQueue : pc.toQueue = 0) (hself : t = f → pc.has = true ∨ pc.entering = true) : Closer shared t s := by
  have hlower (h : (s'.pc t).toQueue = (s.pc t).toQueue) : rank t s' < rank t s := by
    refine rank_of_toLeave h hsame ?_
    rwa [hf, hpc, update_self]
  refine ⟨s', hnext, ?_⟩
  rcases eq_or_ne t f with rfl | hne
  · rw [hpc, update_self] at hlower ⊢
    exact (hself rfl).imp id fun h => ⟨h, hlower (hpcQueue.trans hqueue.symm)⟩
  · rw [hpc, update_of_ne hne] at hlower ⊢
    exact .inr ⟨ht, hlower rfl⟩

/-- A reader that has not left goes on, and the first thread waits. -/
theorem closer_of_reader {u n : ℕ} (hr : Readers shared s) (hq : Queue s)
    (hf : s.pc (s.turn (s.deq + 1)) = .waitReaders n) (ht : (s.pc t).entering = true) (hu : u ∈ s.readers) :
    Closer shared t s := by
  -- whoever waits for the readers is the only one at the head of the queue
  have hnot : (s.pc u).first = true → s.pc u = .waitReaders n := fun hfirst => by
    rw [hq.first_unique hfirst (u := s.turn (s.deq + 1)) (by rw [hf]; rfl), hf]
  have hcounted := (hr.mem u).mp hu
  have hmove (pc : Pc) (hpc : s.pc u = .reading ∨ s.pc u = .subReader) :
      update s.pc u pc t = s.pc t ∧ update s.pc u pc (s.turn (s.deq + 1)) = s.pc (s.turn (s.deq + 1)) := by
    refine ⟨update_of_ne ?_ _ _, update_of_ne ?_ _ _⟩
    · rintro rfl
      rcases hpc with hpc | hpc <;> simp [hpc, Pc.entering] at ht
    · rintro heq
      rw [heq] at hf
      rcases hpc with hpc | hpc <;> simp [hpc] at hf
  cases hpc : s.pc u with
  | loadMine k m =>
      have heq := hnot (by rw [hpc]; rfl)
      rw [hpc] at heq
      cases heq
  | release k m mine =>
      have heq := hnot (by rw [hpc]; rfl)
      rw [hpc] at heq
      cases heq
  | reading =>
      obtain ⟨hkeep, hhead⟩ := hmove .subReader (.inl hpc)
      refine ⟨s.setPc u .subReader, ⟨.unlockShared u, rfl, if_pos hpc⟩, .inr ⟨?_, ?_⟩⟩
      · simpa only [State.setPc, hkeep] using ht
      · refine rank_of_readers (by simp only [State.setPc, hkeep]) ⟨rfl, rfl, rfl⟩ hhead ?_
        refine Finset.sum_lt_sum (fun v _ => ?_) ⟨u, hu, by simp [State.setPc, hpc, Pc.toIdle]⟩
        rcases eq_or_ne v u with rfl | hv
        · simp [State.setPc, hpc, Pc.toIdle]
        · simp [State.setPc, update_of_ne hv]
  | subReader =>
      obtain ⟨hkeep, hhead⟩ := hmove .idle (.inr hpc)
      refine ⟨_, ⟨.thread u, rfl, by simp only [machine, step, stepThread, hpc]; rfl⟩, .inr ⟨?_, ?_⟩⟩
      · simpa only [State.setPc, hkeep] using ht
      · refine rank_of_readers (by simp only [State.setPc, hkeep]) ⟨rfl, rfl, rfl⟩ hhead ?_
        have hothers : ∑ v ∈ s.readers.erase u, (update s.pc u .idle v).toIdle =
            ∑ v ∈ s.readers.erase u, (s.pc v).toIdle :=
          Finset.sum_congr rfl fun v hv => by rw [update_of_ne (Finset.ne_of_mem_erase hv)]
        simp only [State.setPc, hothers]
        exact Finset.sum_erase_lt_of_pos hu (by simp [hpc, Pc.toIdle])
  | _ => simp [hpc, Pc.counted] at hcounted

theorem own_of_entering {pc : Pc} (h : pc.entering = true) (hqueue : pc.toQueue = 0) :
    ∃ n, pc.own = some n := by
  cases pc <;> simp_all [Pc.entering, Pc.toQueue, Pc.own]

/-- Whoever is first in the queue can go on, or a reader that it waits for can. -/
theorem closer (hq : Queue s) (hr : Readers shared s) (ht : (s.pc t).entering = true) :
    Closer shared t s := by
  by_cases hqueue : (s.pc t).toQueue = 0
  swap
  · exact closer_of_toQueue hqueue
  obtain ⟨n₀, hn₀⟩ := own_of_entering ht hqueue
  obtain ⟨hlo, hhi, -, -⟩ := hq.window.ticket t n₀ hn₀
  obtain ⟨hown, hticket⟩ := hq.window.turn (s.deq + 1) (by omega) (by omega)
  obtain ⟨f, hf⟩ : ∃ f, s.turn (s.deq + 1) = f := ⟨_, rfl⟩
  rw [hf] at hown hticket
  have hthread (s' : State) (hs : stepThread shared s f = some s') :
      (machine shared).Next (fun _ a => a.goesOn) s s' := ⟨.thread f, rfl, hs⟩
  -- what `t` is about if it is the first thread itself
  have hself (h : t = f) : (s.pc f).entering = true := h ▸ ht
  cases hpc : s.pc f with
  | spin k n p =>
      obtain ⟨hp, hbase⟩ := hq.holds_before (t := f) (p := p) (by rw [hpc]; rfl) hticket
      have hfree : s.succMustWait p = false := hp ▸ hq.flags.free hbase
      have hnext := hthread (s.setPc f (.deallocate k n p)) (by simp [stepThread, hpc, hfree])
      exact closer_of_first hf ht hqueue hnext rfl ⟨rfl, rfl, rfl⟩
        (by simp [hpc, Pc.toLeave]) rfl fun _ => .inr rfl
  | deallocate k n p =>
      have hnext := hthread _ (by simp only [stepThread, hpc]; rfl)
      exact closer_of_first hf ht hqueue hnext rfl ⟨rfl, rfl, rfl⟩
        (by simp [hpc, Pc.toLeave]) rfl fun _ => .inr rfl
  | setMine k n =>
      have hnext := hthread _ (by simp only [stepThread, hpc]; rfl)
      refine closer_of_first hf ht hqueue hnext rfl ⟨rfl, rfl, rfl⟩ ?_ ?_ fun _ => ?_ <;>
        cases k <;> cases shared <;> simp [hpc, entered, Pc.toLeave, Pc.toQueue, Pc.has, Pc.entering]
  | waitReaders n =>
      by_cases hreaders : 0 < s.activeReaders
      · obtain ⟨u, hu⟩ := Finset.card_pos.mp (by rw [hr.count] at hreaders; exact_mod_cast hreaders)
        exact closer_of_reader hr hq (hf ▸ hpc) ht hu
      · have hnext := hthread (s.setPc f (.holding n)) (by simp [stepThread, hpc, hreaders])
        exact closer_of_first hf ht hqueue hnext rfl ⟨rfl, rfl, rfl⟩
          (by simp [hpc, Pc.toLeave]) rfl fun _ => .inl rfl
  | addReader n =>
      have hnext := hthread _ (by simp only [stepThread, hpc]; rfl)
      exact closer_of_first hf ht hqueue hnext rfl ⟨rfl, rfl, rfl⟩
        (by simp [hpc, Pc.toLeave]) rfl fun _ => .inr rfl
  | holding n =>
      have hunlock : step shared s (.unlock f) = some (s.setPc f (.loadMine .lock n)) := by
        simp only [step, hpc]
      refine closer_of_first hf ht hqueue ⟨.unlock f, rfl, hunlock⟩ rfl ⟨rfl, rfl, rfl⟩
        (by simp [hpc, Pc.toLeave]) rfl fun h => ?_
      have hentering := hself h
      simp [hpc, Pc.entering] at hentering
  | loadMine k n =>
      have hnext := hthread _ (by simp only [stepThread, hpc]; rfl)
      refine closer_of_first hf ht hqueue hnext rfl ⟨rfl, rfl, rfl⟩
        (by simp [hpc, Pc.toLeave]) rfl fun h => .inr ?_
      have hentering := hself h
      rwa [hpc] at hentering
  | release k n m =>
      refine ⟨_, hthread _ (by simp only [stepThread, hpc]; rfl), ?_⟩
      rcases eq_or_ne t f with rfl | hne
      · rw [hpc] at ht
        obtain rfl : k = .lockShared := by simpa [Pc.entering] using ht
        exact .inl (by simp [State.setPc, left, Pc.has])
      · have hkeep : ((((s.store m false).dequeue).setPc f (left k)).pc t) = s.pc t := update_of_ne hne _ _
        refine .inr ⟨by rw [hkeep, ht], rank_of_deq (by rw [hkeep]) ?_⟩
        simp only [State.setPc, State.dequeue, State.store]
        omega
  | _ => simp [hpc, Pc.own] at hown

/-- Every thread that has a node for the lock can get it: threads that are in calls go on, and those that
have the lock call `unlock` or `unlock_shared`; nobody has to begin a call. -/
theorem clh_lock_can_enter (shared : Bool) (s : State) (t : ℕ) (hs : (machine shared).Reachable s)
    (ht : (s.pc t).entering = true) :
    ∃ s', Relation.ReflTransGen ((machine shared).Next fun _ a => a.goesOn) s s' ∧ (s'.pc t).has = true := by
  refine Machine.reaches_of_rank (I := fun s => (machine shared).Reachable s ∧ (s.pc t).entering = true)
    (rank t) ?_ ⟨hs, ht⟩
  rintro s ⟨hs, ht⟩
  obtain ⟨s', hnext, hcloser⟩ := closer (queue_reachable hs) (readers_of_run hs) ht
  refine ⟨s', hnext, hcloser.imp id fun h => ⟨⟨?_, h.1⟩, h.2⟩⟩
  obtain ⟨a, -, hstep⟩ := hnext
  exact hs.step trivial hstep

/-- A writer has the lock, and a thread in `lock_shared` waits behind it. -/
theorem clh_lock_can_enter_waiting :
    ∃ s s' : State, (s.pc 0 = .holding 1 ∧ s.pc 1 = .spin .lockShared 2 1) ∧
      Relation.ReflTransGen ((machine true).Next fun _ a => a.goesOn) s s' ∧ (s'.pc 1).has = true := by
  obtain ⟨s, hs, hholding, hspin⟩ : ∃ s, (machine true).exec (fun _ _ => true) (initial 0)
      ([.lock 0, .allocate 0 1] ++ List.replicate 6 (.thread 0) ++
        [.lockShared 1, .allocate 1 2, .thread 1, .thread 1]) = some s ∧
      s.pc 0 = .holding 1 ∧ s.pc 1 = .spin .lockShared 2 1 :=
    ⟨_, rfl, rfl, rfl⟩
  have hrun : (machine true).Reachable s := Machine.Run.exec (.init ⟨0, rfl⟩) (fun _ _ _ => trivial) hs
  obtain ⟨s', hgoes, hhas⟩ := clh_lock_can_enter true s 1 hrun (by rw [hspin]; rfl)
  exact ⟨s, s', ⟨hholding, hspin⟩, hgoes, hhas⟩

end CLHLock

end RACoherence
