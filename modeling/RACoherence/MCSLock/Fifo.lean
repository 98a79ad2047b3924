import RACoherence.MCSLock.Exclusion
import RACoherence.Lib.FifoLock

/-!
# The MCS lock is given in the order of the exchanges

A thread arrives when it exchanges `tail`, or sets it in `try_lock`; it enters when it finds its own node
unlocked, or at once when the queue is empty; and it leaves when it takes its node out of the queue or unlocks
that of the next thread. Through this view an MCS lock is a `FifoLock`, and a hand-over is never lost.
-/

namespace RACoherence

open Function

namespace MCSLock

variable {shared : Bool} {s s' : State} {a : Action}

/-- The thread whose action it is. -/
def Action.party : Action → ℕ
  | .lock t | .tryLock t | .lockShared t | .unlock t | .unlockShared t | .allocate t _ | .thread t => t

/-- The queue without nodes. -/
def fifo (s : State) : FifoLock ℕ := .ofPlaces s.turn (fun t => (s.pc t).first) s.enq s.deq

/-- The place of the first thread. -/
theorem turn_of_first (h : Queue s) {t : ℕ} (ht : (s.pc t).first = true) :
    s.deq < s.enq ∧ s.turn s.deq = t := by
  obtain ⟨-, hhi, hturn⟩ := h.window.ticket t (by simp [Pc.queued, ht])
  rw [h.window.first t ht] at hhi hturn
  exact ⟨hhi, hturn⟩

theorem first_setPc {t : ℕ} {pc pc' : Pc} (hpc : s.pc t = pc) (hfirst : pc'.first = pc.first) :
    (fun u => (update s.pc t pc' u).first) = fun u => (s.pc u).first := by
  funext u
  rcases eq_or_ne u t with rfl | hut
  · rw [update_self, hpc, hfirst]
  · rw [update_of_ne hut]

/-- A step that changes neither the queue nor who is first. -/
theorem fifo_frame {t : ℕ} {pc pc' : Pc} (hpc : s.pc t = pc) (hpc' : s'.pc = update s.pc t pc')
    (hfirst : pc'.first = pc.first) (hqueue : s'.turn = s.turn ∧ s'.enq = s.enq ∧ s'.deq = s.deq) :
    fifo s' = fifo s := by
  obtain ⟨hturn, henq, hdeq⟩ := hqueue
  rw [fifo, fifo, hpc', first_setPc hpc hfirst, hturn, henq, hdeq]

/-- A thread that puts its node into the queue arrives. -/
theorem fifo_arrive (hq : Queue s) {t n : ℕ} {k : Kind} (hpc : s.pc t = .swap k n) :
    (FifoLock.machine ℕ).step (fifo s) (.arrive t) = some (fifo (s.enqueue t n)) := by
  have hold : ∀ i < s.enq, update s.turn s.enq t i = s.turn i := fun i hi => update_of_ne hi.ne t s.turn
  have harrive := @FifoLock.arrive_ofPlaces _ _ _ (fun u => (s.pc u).first) _ _ _ hq.window.le hold (by
    rw [update_self, hpc]
    rfl)
  rwa [update_self] at harrive

/-- The first thread in the queue leaves it. -/
theorem fifo_leave (hq : Queue s) {t : ℕ} {pc : Pc} (hfirst : (s.pc t).first = true)
    (hpc' : s'.pc = update s.pc t pc) (hleft : pc.first = false)
    (hqueue : s'.turn = s.turn ∧ s'.enq = s.enq ∧ s'.deq = s.deq + 1) :
    (FifoLock.machine ℕ).step (fifo s) (.leave t) = some (fifo s') := by
  have hnobody : ∀ u, (s'.pc u).first = false := by
    intro u
    rw [hpc', update_apply]
    split
    · exact hleft
    · by_contra hu
      exact absurd (hq.first_unique (by simpa using hu) hfirst) ‹_›
  obtain ⟨hlt, rfl⟩ := turn_of_first hq hfirst
  rw [fifo, fifo, hqueue.1, hqueue.2.1, hqueue.2.2]
  exact FifoLock.leave_ofPlaces hlt hfirst hnobody

/-- The first thread in the queue, which waits, goes on. -/
theorem fifo_enter {t : ℕ} {pc pc' : Pc} (hlt : s.deq < s.enq) (hturn : s.turn s.deq = t) (hpc : s.pc t = pc)
    (hwaits : pc.first = false) (hfirst : pc'.first = true) :
    (FifoLock.machine ℕ).step (fifo s) (.enter t) = some (fifo (s.setPc t pc')) := by
  subst hturn
  exact FifoLock.enter_ofPlaces hlt (by rw [hpc, hwaits]) (by simpa [State.setPc] using hfirst)

/-- Every step is one or two of the lock without nodes by the same thread, or none. -/
theorem fifo_step (hq : Queue s) (hs : Step shared s a s') :
    Relation.ReflTransGen ((FifoLock.machine ℕ).Next fun _ b => b.party = a.party) (fifo s) (fifo s') := by
  have hnone : ∀ {q}, q = fifo s → Relation.ReflTransGen
      ((FifoLock.machine ℕ).Next fun _ b => b.party = a.party) (fifo s) q := by
    rintro _ rfl
    exact .refl
  cases hs with
  | @swapFree t n k hpc htail =>
      -- nobody is in the queue, so the thread is the next one as soon as it has arrived
      have hempty := hq.tail_eq_none.mp htail
      have hlt : (s.enqueue t n).deq < (s.enqueue t n).enq := Nat.lt_succ_of_le hempty.le
      have hturn : (s.enqueue t n).turn (s.enqueue t n).deq = t := by
        simp only [State.enqueue, hempty, update_self]
      have henter := @fifo_enter _ t (.swap k n) (.setOwner k n) hlt hturn hpc rfl rfl
      exact .tail (.single ⟨_, rfl, fifo_arrive hq hpc⟩) ⟨_, rfl, henter⟩
  | @swapTaken t n p k hpc htail hk =>
      have hframe : fifo ((s.enqueue t n).setPc t (.link k n p)) = fifo (s.enqueue t n) :=
        @fifo_frame (s.enqueue t n) _ t (.swap k n) _ hpc rfl rfl ⟨rfl, rfl, rfl⟩
      rw [hframe]
      exact .single ⟨_, rfl, fifo_arrive hq hpc⟩
  | @spinFree t n k hpc hfree =>
      obtain ⟨-, hhi, hturn⟩ := hq.window.ticket t (by rw [hpc]; rfl)
      rw [hq.ticket_of_free hpc hfree] at hhi hturn
      exact .single ⟨_, rfl, fifo_enter hhi hturn hpc rfl rfl⟩
  | @casTail t n k hpc _ =>
      exact .single ⟨.leave t, rfl, fifo_leave hq (by rw [hpc]; rfl) rfl rfl ⟨rfl, rfl, rfl⟩⟩
  | @handOff t n m k hpc =>
      exact .single ⟨.leave t, rfl, fifo_leave hq (by rw [hpc]; rfl) rfl rfl ⟨rfl, rfl, rfl⟩⟩
  | spinLocked _ _ => exact .refl
  | waitReaders _ _ => exact .refl
  | spinNull _ _ => exact .refl
  | @setOwner t n k hpc =>
      refine hnone (fifo_frame hpc rfl ?_ ⟨rfl, rfl, rfl⟩)
      cases k <;> cases shared <;> rfl
  | @deallocate t n k hpc =>
      refine hnone (fifo_frame hpc rfl ?_ ⟨rfl, rfl, rfl⟩)
      cases k <;> rfl
  | lock hpc | tryLock _ hpc | lockShared _ hpc | unlock hpc | unlockShared hpc | allocate hpc _
  | tryFree hpc _ | tryTaken hpc _ | setNext hpc | setLocked hpc | swapFail hpc _ | link hpc | noReaders hpc _ | addReader hpc
  | loadOwner hpc _ | nextNull hpc _ | nextKnown hpc _ | casFail hpc _ | spinKnown hpc _ | subReader hpc =>
      exact hnone (fifo_frame hpc rfl rfl ⟨rfl, rfl, rfl⟩)

/-- The thread whose turn it is, when nobody has the lock, waits at its own node, which is unlocked. -/
theorem spin_of_next (h : Queue s) {t : ℕ} (hnone : (fifo s).holder = none) (hnext : (fifo s).next = some t) :
    ∃ k n, s.pc t = .spin k n ∧ (s.node n).locked = false := by
  obtain ⟨hlt, rfl, hfirst⟩ := FifoLock.waiting_ofPlaces hnone hnext
  obtain ⟨hqueued, hticket⟩ := h.window.turn s.deq le_rfl hlt
  rw [Pc.queued, hfirst, Bool.or_false] at hqueued
  exact h.links.first _ hqueued hticket

/-- Every run of an MCS lock is one of a lock that is given in the order of arrival, where a thread arrives
when it puts its node into `tail`: each step of a thread is, in order, steps of that lock by the same
thread. Whoever holds the lock, or has taken it as a reader and not passed it on, is the one inside; and
when nobody is inside and a thread is in the queue, the next one in order has its own node unlocked. -/
theorem mcs_lock_fifo (shared : Bool) (s : State) (hs : (machine shared).Reachable s) :
    (FifoLock.machine ℕ).Reachable (fifo s) ∧
    (∀ a s', (machine shared).step s a = some s' → Relation.ReflTransGen
      ((FifoLock.machine ℕ).Next fun _ b => b.party = a.party) (fifo s) (fifo s')) ∧
    (∀ t n, s.pc t = .holding n ∨ s.pc t = .addReader n → (fifo s).holder = some t) ∧
    (∀ t, (fifo s).holder = none → (fifo s).next = some t →
      ∃ k n, s.pc t = .spin k n ∧ (s.node n).locked = false) := by
  obtain ⟨hq, -⟩ := queue_readers_of_run hs
  refine ⟨?_, fun a s' hstep => fifo_step hq (step_cases hstep), fun t n ht => ?_, fun t => spin_of_next hq⟩
  · refine hs.simulate fifo ?_ fun s a s' hrun _ hstep => ?_
    · rintro _ rfl
      rfl
    · exact Machine.reflTransGen_imp (fun _ _ _ => trivial)
        (fifo_step (queue_readers_of_run hrun).1 (step_cases hstep))
  · have hfirst : (s.pc t).first = true := by rcases ht with ht | ht <;> rw [ht] <;> rfl
    obtain ⟨hlt, rfl⟩ := turn_of_first hq hfirst
    exact FifoLock.holder_ofPlaces hlt hfirst

/-- A writer holds the lock of an `MCSSharedLock`, and a reader has put its node behind the writer's. -/
theorem mcs_lock_fifo_waiting :
    ∃ s : State, (machine true).Reachable s ∧ (fifo s).holder = some 0 ∧ s.pc 1 = .link .lockShared 8 7 := by
  obtain ⟨s, hs, hholding, hlink⟩ : ∃ s, (machine true).exec (fun _ _ => true) initial
      (lockUp 0 7 ++ [.thread 0, .thread 0, .lockShared 1, .allocate 1 8, .thread 1, .thread 1,
        .thread 1]) = some s ∧ s.pc 0 = .holding 7 ∧ s.pc 1 = .link .lockShared 8 7 :=
    ⟨_, rfl, rfl, rfl⟩
  have hrun : (machine true).Reachable s := Machine.Run.exec (.init rfl) (fun _ _ _ => trivial) hs
  exact ⟨s, hrun, (mcs_lock_fifo true s hrun).2.2.1 0 7 (.inl hholding), hlink⟩

end MCSLock

end RACoherence
