import RACoherence.CLHLock.Exclusion
import RACoherence.Lib.FifoLock

/-!
# The CLH lock is given in the order of the exchanges

A thread arrives when it exchanges `tail`, enters when it finds the node in front of its own free, and
leaves when it frees its own for the next one. Through this view a CLH lock is a `FifoLock`; the next thread
in order is never blocked when nobody has the lock.
-/

namespace RACoherence

open Function

namespace CLHLock

variable {shared : Bool} {s s' : State} {a : Action}

/-- The thread whose action it is. -/
def Action.party : Action → ℕ
  | .lock t | .tryLock t | .lockShared t | .unlock t | .unlockShared t | .allocate t _ | .thread t => t

/-- The queue lock without nodes. -/
def fifo (s : State) : FifoLock ℕ :=
  .ofPlaces (fun i => s.turn (i + 1)) (fun t => (s.pc t).first) s.enq s.deq

/-- The place of a thread that has found the queue lock free. -/
theorem turn_of_first (h : Queue s) {t : ℕ} (ht : (s.pc t).first = true) :
    s.deq < s.enq ∧ s.turn (s.deq + 1) = t := by
  obtain ⟨n, hn⟩ := own_of_first ht
  obtain ⟨hlo, hhi, hturn, -⟩ := h.window.ticket t n hn
  rw [h.window.first t ht] at hhi hturn
  exact ⟨hhi, hturn⟩

theorem first_setPc {t : ℕ} {pc pc' : Pc} (hpc : s.pc t = pc) (hfirst : pc'.first = pc.first) :
    (fun u => (update s.pc t pc' u).first) = fun u => (s.pc u).first := by
  funext u
  rcases eq_or_ne u t with rfl | hut
  · rw [update_self, hpc, hfirst]
  · rw [update_of_ne hut]

/-- A step that neither changes the queue nor who has found it free. -/
theorem fifo_frame {t : ℕ} {pc pc' : Pc} (hpc : s.pc t = pc) (hpc' : s'.pc = update s.pc t pc')
    (hfirst : pc'.first = pc.first) (hqueue : s'.turn = s.turn ∧ s'.enq = s.enq ∧ s'.deq = s.deq) :
    fifo s' = fifo s := by
  obtain ⟨hturn, henq, hdeq⟩ := hqueue
  rw [fifo, fifo, hpc', first_setPc hpc hfirst, hturn, henq, hdeq]

/-- Every step is one of the lock without nodes by the same thread, or none. -/
theorem fifo_step (hq : Queue s) (hs : Step shared s a s') :
    fifo s' = fifo s ∨ ∃ b, b.party = a.party ∧ (FifoLock.machine ℕ).step (fifo s) b = some (fifo s') := by
  cases hs with
  | @swap t n k hpc =>
      refine .inr ⟨.arrive t, rfl, ?_⟩
      have hold : ∀ i < s.enq, update s.turn (s.enq + 1) t (i + 1) = s.turn (i + 1) :=
        fun i hi => update_of_ne (by omega) t s.turn
      have harrive := @FifoLock.arrive_ofPlaces _ _ _ (fun u => (s.pc u).first) _ _ _ hq.window.le hold (by
        rw [update_self, hpc]
        rfl)
      rw [update_self] at harrive
      have hfirst := @first_setPc s t _ (.spin k n s.tail) hpc rfl
      rw [fifo, harrive, ← hfirst]
      rfl
  | @spinFree t n p k hpc hfree =>
      refine .inr ⟨.enter t, rfl, ?_⟩
      obtain ⟨-, hhi, hturn, -⟩ := hq.window.ticket t n (by rw [hpc]; rfl)
      rw [hq.ticket_of_free hpc hfree] at hhi hturn
      subst hturn
      exact FifoLock.enter_ofPlaces (Nat.lt_of_succ_le hhi) (by rw [hpc]; rfl)
        (by simp [State.setPc, Pc.first])
  | @release t n m k hpc =>
      refine .inr ⟨.leave t, rfl, ?_⟩
      have hfirst : (s.pc t).first = true := by rw [hpc]; rfl
      have hnobody : ∀ u, ((((s.store m false).dequeue).setPc t (left k)).pc u).first = false := by
        intro u
        simp only [State.setPc, State.dequeue, State.store, update_apply]
        split
        · cases k <;> rfl
        · by_contra hu
          exact absurd (hq.first_unique (by simpa using hu) hfirst) ‹_›
      obtain ⟨hlt, rfl⟩ := turn_of_first hq hfirst
      exact FifoLock.leave_ofPlaces hlt hfirst hnobody
  | spinLocked _ _ => exact .inl rfl
  | waitReaders _ _ => exact .inl rfl
  | @setMine t n k hpc =>
      refine .inl (fifo_frame hpc rfl ?_ ⟨rfl, rfl, rfl⟩)
      cases k <;> cases shared <;> rfl
  | lock hpc | tryLock _ hpc | lockShared _ hpc | unlock hpc | unlockShared hpc | allocate hpc _
  | tryTail hpc | tryTaken hpc _ | tryFree hpc _ | construct hpc | deallocate hpc | noReaders hpc _
  | addReader hpc | loadMine hpc | subReader hpc => exact .inl (fifo_frame hpc rfl rfl ⟨rfl, rfl, rfl⟩)

/-- In the queue and not past the wait. -/
theorem spin_of_own {pc : Pc} {n : ℕ} (hown : pc.own = some n) (hfirst : pc.first = false) :
    ∃ k n p, pc = .spin k n p := by
  cases pc <;> first | exact ⟨_, _, _, rfl⟩ | (cases hfirst; done) | cases hown

/-- The thread whose turn it is, when nobody has the lock, waits at a node that is released. -/
theorem spin_of_next (h : Queue s) {t : ℕ} (hnone : (fifo s).holder = none) (hnext : (fifo s).next = some t) :
    ∃ k n p, s.pc t = .spin k n p ∧ s.succMustWait p = false := by
  obtain ⟨hlt, rfl, hfirst⟩ := FifoLock.waiting_ofPlaces hnone hnext
  obtain ⟨hown, hticket⟩ := h.window.turn (s.deq + 1) (by omega) hlt
  obtain ⟨k, n, p, hpc⟩ := spin_of_own hown hfirst
  obtain ⟨hp, hbase⟩ := h.holds_before (p := p) (by rw [hpc]; rfl) hticket
  refine ⟨k, n, p, hpc, ?_⟩
  rw [hp]
  exact h.flags.free hbase

/-- Every run of a CLH lock is one of a lock that is given in the order of arrival, where a thread arrives
with the exchange of `tail`: each step of a thread is one step of that lock by the same thread, or none.
Whoever holds the lock, or has taken it as a reader and not passed it on, is the one inside; and when nobody
is inside and a thread is in the queue, the next one in order finds the node that it waits for released. -/
theorem clh_lock_fifo (shared : Bool) (s : State) (hs : (machine shared).Reachable s) :
    (FifoLock.machine ℕ).Reachable (fifo s) ∧
    (∀ a s', (machine shared).step s a = some s' → fifo s' = fifo s ∨
      ∃ b, b.party = a.party ∧ (FifoLock.machine ℕ).step (fifo s) b = some (fifo s')) ∧
    (∀ t n, s.pc t = .holding n ∨ s.pc t = .addReader n → (fifo s).holder = some t) ∧
    (∀ t, (fifo s).holder = none → (fifo s).next = some t →
      ∃ k n p, s.pc t = .spin k n p ∧ s.succMustWait p = false) := by
  have hq := queue_reachable hs
  refine ⟨?_, fun a s' hstep => fifo_step hq (step_cases hstep), fun t n ht => ?_, fun t => spin_of_next hq⟩
  · refine hs.project fifo ?_ fun s a s' hrun _ _ hstep => ?_
    · rintro _ ⟨n₀, rfl⟩
      rfl
    · rcases fifo_step (queue_reachable hrun) (step_cases hstep) with heq | ⟨b, -, hb⟩
      · exact .inl heq
      · exact .inr ⟨b, trivial, hb⟩
  · have hfirst : (s.pc t).first = true := by rcases ht with ht | ht <;> rw [ht] <;> rfl
    obtain ⟨hlt, rfl⟩ := turn_of_first hq hfirst
    exact FifoLock.holder_ofPlaces hlt hfirst

/-- A writer holds the lock of a `CLHSharedLock`, and a reader waits behind it. -/
theorem clh_lock_fifo_waiting :
    ∃ s : State, (machine true).Reachable s ∧ (fifo s).holder = some 0 ∧
      ∃ p, s.pc 1 = .spin .lockShared 8 p := by
  obtain ⟨s, hs, hholding, hspin⟩ : ∃ s, (machine true).exec (fun _ _ => true) (initial 3)
      (lockUp 0 7 ++ [.thread 0, .thread 0, .thread 0, .thread 0, .lockShared 1, .allocate 1 8, .thread 1,
        .thread 1]) = some s ∧ s.pc 0 = .holding 7 ∧ s.pc 1 = .spin .lockShared 8 7 :=
    ⟨_, rfl, rfl, rfl⟩
  have hrun : (machine true).Reachable s := Machine.Run.exec (.init ⟨3, rfl⟩) (fun _ _ _ => trivial) hs
  exact ⟨s, hrun, (clh_lock_fifo true s hrun).2.2.1 0 7 (.inl hholding), 7, hspin⟩

end CLHLock

end RACoherence
