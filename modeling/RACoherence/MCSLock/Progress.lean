import Mathlib.Algebra.Order.BigOperators.Group.Finset
import Mathlib.Data.Prod.Lex
import RACoherence.MCSLock.Fifo

/-!
# Every thread can get an MCS lock

A thread whose node is in the queue, or on the way there, gets the lock when those in front of it leave and
the readers that a writer waits for are done. A thread that leaves may have to wait until the next one is
linked, and that one can always link itself. So the thread has the lock by the steps of threads that are in
calls already, and the calls of `unlock` and `unlock_shared` by those that have the lock.
-/

namespace RACoherence

open Function

namespace MCSLock

variable {shared : Bool} {s s' : State} {a : Action} {t : ℕ}

/-- The thread has a node for `lock` or `lock_shared`, or a place in the queue, and not the lock. -/
def Pc.entering : Pc → Bool
  | .setNext k _ | .setLocked k _ | .swap k _ => k != .tryLock
  | .link _ _ _ | .spin _ _ | .setOwner _ _ | .waitReaders _ | .addReader _ => true
  | .loadNext k _ | .casTail k _ | .spinNext k _ | .handOff k _ _ | .deallocate k _ => k == .lockShared
  | .idle | .tryLoad | .allocate _ | .holding _ | .loadOwner _ | .reading | .subReader => false

/-- The thread has the lock, alone or with other readers. -/
def Pc.has : Pc → Bool
  | .holding _ | .reading => true
  | .idle | .tryLoad | .allocate _ | .setNext _ _ | .setLocked _ _ | .swap _ _ | .link _ _ _ | .spin _ _
  | .setOwner _ _ | .waitReaders _ | .addReader _ | .loadOwner _ | .loadNext _ _ | .casTail _ _
  | .spinNext _ _ | .handOff _ _ _ | .deallocate _ _ | .subReader => false

/-- The action begins no call that waits for the lock. -/
def Action.goesOn : Action → Bool
  | .thread _ | .unlock _ | .unlockShared _ => true
  | .lock _ | .tryLock _ | .lockShared _ | .allocate _ _ => false

/-! ## How far a thread is from the lock -/

/-- How far it is from having been in the queue. -/
def Pc.phase : Pc → ℕ
  | .setNext _ _ => 4
  | .setLocked _ _ => 3
  | .swap _ _ => 2
  | .deallocate _ _ => 0
  | _ => 1

/-- How far the first thread is from leaving the queue. -/
def Pc.toLeave : Pc → ℕ
  | .spin _ _ => 9
  | .setOwner _ _ => 8
  | .waitReaders _ | .addReader _ => 7
  | .holding _ => 6
  | .loadOwner _ => 5
  | .loadNext _ _ => 4
  | .casTail _ _ => 3
  | .spinNext _ _ => 2
  | .handOff _ _ _ => 1
  | _ => 0

/-- Whether the thread has to link its node. -/
def Pc.toLink : Pc → ℕ
  | .link _ _ _ => 1
  | _ => 0

/-- How far a reader is from having left. -/
def Pc.toIdle : Pc → ℕ
  | .deallocate _ _ => 3
  | .reading => 2
  | .subReader => 1
  | _ => 0

/-- How far thread `t` is from the lock: from having been in the queue, from its head, from the first thread's
leaving, and from what the first thread waits for. -/
def rank (t : ℕ) (s : State) : ℕ ×ₗ (ℕ ×ₗ (ℕ ×ₗ ℕ)) :=
  toLex ((s.pc t).phase, toLex (s.ticket t - s.deq, toLex ((s.pc (s.turn s.deq)).toLeave,
    (s.pc (s.turn (s.deq + 1))).toLink + ∑ u ∈ s.readers, (s.pc u).toIdle)))

theorem rank_of_phase (hlt : (s'.pc t).phase < (s.pc t).phase) : rank t s' < rank t s :=
  Prod.Lex.toLex_lt_toLex.mpr (.inl hlt)

theorem rank_of_deq (hphase : (s'.pc t).phase = (s.pc t).phase)
    (hlt : s'.ticket t - s'.deq < s.ticket t - s.deq) : rank t s' < rank t s :=
  Prod.Lex.toLex_lt_toLex.mpr (.inr ⟨hphase, Prod.Lex.toLex_lt_toLex.mpr (.inl hlt)⟩)

/-- The queue is as before. -/
def SameQueue (s s' : State) : Prop := s'.deq = s.deq ∧ s'.turn = s.turn ∧ s'.ticket = s.ticket

theorem rank_of_toLeave (hphase : (s'.pc t).phase = (s.pc t).phase) (hsame : SameQueue s s')
    (hlt : (s'.pc (s.turn s.deq)).toLeave < (s.pc (s.turn s.deq)).toLeave) : rank t s' < rank t s := by
  obtain ⟨hdeq, hturn, hticket⟩ := hsame
  refine Prod.Lex.toLex_lt_toLex.mpr (.inr ⟨hphase, Prod.Lex.toLex_lt_toLex.mpr (.inr ⟨?_, ?_⟩)⟩)
  · simp only [hdeq, hticket]
  · refine Prod.Lex.toLex_lt_toLex.mpr (.inl ?_)
    rwa [hdeq, hturn]

theorem rank_of_other (hphase : (s'.pc t).phase = (s.pc t).phase) (hsame : SameQueue s s')
    (hfirst : s'.pc (s.turn s.deq) = s.pc (s.turn s.deq))
    (hlt : (s'.pc (s.turn (s.deq + 1))).toLink + ∑ v ∈ s'.readers, (s'.pc v).toIdle <
      (s.pc (s.turn (s.deq + 1))).toLink + ∑ v ∈ s.readers, (s.pc v).toIdle) : rank t s' < rank t s := by
  obtain ⟨hdeq, hturn, hticket⟩ := hsame
  refine Prod.Lex.toLex_lt_toLex.mpr (.inr ⟨hphase, Prod.Lex.toLex_lt_toLex.mpr (.inr ⟨?_, ?_⟩)⟩)
  · simp only [hdeq, hticket]
  · refine Prod.Lex.toLex_lt_toLex.mpr (.inr ⟨?_, ?_⟩)
    · simp only [hdeq, hturn, hfirst]
    · simpa only [hdeq, hturn] using hlt

/-! ## Nobody is stuck -/

/-- Some thread goes on, and then `t` has the lock, or is closer to it. -/
def Closer (shared : Bool) (t : ℕ) (s : State) : Prop :=
  ∃ s', (machine shared).Next (fun _ a => a.goesOn) s s' ∧
    ((s'.pc t).has = true ∨ (s'.pc t).entering = true ∧ rank t s' < rank t s)

/-- A thread that is not in the queue goes on by itself. -/
theorem closer_of_phase (ht : (s.pc t).entering = true) (hphase : (s.pc t).phase ≠ 1) :
    Closer shared t s := by
  have hstep : ∃ s', stepThread shared s t = some s' ∧ ((s'.pc t).has = true ∨
      (s'.pc t).entering = true ∧ (s'.pc t).phase < (s.pc t).phase) := by
    cases hpc : s.pc t with
    | setNext k n =>
        rw [hpc] at ht
        exact ⟨_, by simp only [stepThread, hpc]; rfl,
          .inr (by simpa [State.setPc, Pc.phase, Pc.entering] using ht)⟩
    | setLocked k n =>
        rw [hpc] at ht
        exact ⟨_, by simp only [stepThread, hpc]; rfl,
          .inr (by simpa [State.setPc, Pc.phase, Pc.entering] using ht)⟩
    | swap k n =>
        have hk : k ≠ .tryLock := by simpa [hpc, Pc.entering] using ht
        cases htail : s.tail with
        | none =>
            exact ⟨_, by simp only [stepThread, hpc, htail]; rfl,
              .inr (by simp [State.setPc, Pc.entering, Pc.phase])⟩
        | some p =>
            exact ⟨_, by simp only [stepThread, hpc, htail, if_neg hk]; rfl,
              .inr (by simp [State.setPc, Pc.entering, Pc.phase])⟩
    | deallocate k n =>
        obtain rfl : k = .lockShared := by simpa [hpc, Pc.entering] using ht
        exact ⟨_, by simp only [stepThread, hpc]; rfl, .inl (by simp [State.setPc, left, Pc.has])⟩
    | _ => simp [hpc, Pc.phase] at hphase
  obtain ⟨s', hstep, hcases⟩ := hstep
  exact ⟨s', ⟨.thread t, rfl, hstep⟩, hcases.imp id fun h => ⟨h.1, rank_of_phase h.2⟩⟩

/-- The first thread goes on, and stays in the queue. -/
theorem closer_of_first {f : ℕ} {pc : Pc} (hf : s.turn s.deq = f) (ht : (s.pc t).entering = true)
    (hphase : (s.pc t).phase = 1) (hnext : (machine shared).Next (fun _ a => a.goesOn) s s')
    (hpc : s'.pc = update s.pc f pc) (hsame : SameQueue s s') (hlt : pc.toLeave < (s.pc f).toLeave)
    (hpcPhase : pc.phase = 1) (hself : t = f → pc.has = true ∨ pc.entering = true) : Closer shared t s := by
  have hlower (h : (s'.pc t).phase = (s.pc t).phase) : rank t s' < rank t s := by
    refine rank_of_toLeave h hsame ?_
    rwa [hf, hpc, update_self]
  refine ⟨s', hnext, ?_⟩
  rcases eq_or_ne t f with rfl | hne
  · rw [hpc, update_self] at hlower ⊢
    exact (hself rfl).imp id fun h => ⟨h, hlower (hpcPhase.trans hphase.symm)⟩
  · rw [hpc, update_of_ne hne] at hlower ⊢
    exact .inr ⟨ht, hlower rfl⟩

/-- A thread that the first one waits for goes on. -/
theorem closer_of_other {u : ℕ} {pc : Pc} (ht : (s.pc t).entering = true)
    (hnext : (machine shared).Next (fun _ a => a.goesOn) s s') (hpc : s'.pc = update s.pc u pc)
    (hsame : SameQueue s s') (htu : t ≠ u ∨ pc.entering = true ∧ pc.phase = (s.pc t).phase)
    (hfu : s.turn s.deq ≠ u)
    (hlt : (s'.pc (s.turn (s.deq + 1))).toLink + ∑ v ∈ s'.readers, (s'.pc v).toIdle <
      (s.pc (s.turn (s.deq + 1))).toLink + ∑ v ∈ s.readers, (s.pc v).toIdle) : Closer shared t s := by
  have hkept : (s'.pc t).entering = true ∧ (s'.pc t).phase = (s.pc t).phase := by
    rw [hpc, update_apply]
    split
    · exact htu.resolve_left fun hne => hne ‹_›
    · exact ⟨ht, rfl⟩
  exact ⟨s', hnext, .inr ⟨hkept.1, rank_of_other hkept.2 hsame (by rw [hpc, update_of_ne hfu]) hlt⟩⟩

/-- A reader that has not left goes on, and the first thread waits. -/
theorem closer_of_reader {u n : ℕ} (hr : Readers shared s) (hq : Queue s)
    (hf : s.pc (s.turn s.deq) = .waitReaders n) (ht : (s.pc t).entering = true) (hphase : (s.pc t).phase = 1)
    (hu : u ∈ s.readers) : Closer shared t s := by
  have hcounted := (hr.mem u).mp hu
  -- whoever waits for the readers is the only one at the head of the queue
  have hleaves : (∃ k m, s.pc u = .deallocate k m) ∨ s.pc u = .reading ∨ s.pc u = .subReader := by
    have hnot : (s.pc u).first = true → s.pc u = .waitReaders n := fun hfirst => by
      rw [hq.first_unique hfirst (u := s.turn s.deq) (by rw [hf]; rfl), hf]
    cases hpc : s.pc u <;> simp_all [Pc.counted, Pc.first]
  have htu : t ≠ u := by
    rintro rfl
    rcases hleaves with ⟨k, m, hpc⟩ | hpc | hpc <;> simp [hpc, Pc.entering, Pc.phase] at ht hphase
  have hfu : s.turn s.deq ≠ u := by
    rintro rfl
    simp [hf] at hleaves
  have hlink {pc : Pc} (hpc : pc.toLink = 0) :
      (update s.pc u pc (s.turn (s.deq + 1))).toLink ≤ (s.pc (s.turn (s.deq + 1))).toLink := by
    rw [update_apply]
    split
    · rw [hpc]
      exact Nat.zero_le _
    · exact le_rfl
  have hstays {pc : Pc} (hlt : pc.toIdle < (s.pc u).toIdle) :
      ∑ v ∈ s.readers, (update s.pc u pc v).toIdle < ∑ v ∈ s.readers, (s.pc v).toIdle := by
    refine Finset.sum_lt_sum (fun v _ => ?_) ⟨u, hu, by rwa [update_self]⟩
    rcases eq_or_ne v u with rfl | hv
    · rw [update_self]
      exact hlt.le
    · rw [update_of_ne hv]
  rcases hleaves with ⟨k, m, hpc⟩ | hpc | hpc
  · obtain rfl : k = .lockShared := by simpa [hpc, Pc.counted] using hcounted
    have hnext : (machine shared).Next (fun _ a => a.goesOn) s
        ({ s with allocated := update s.allocated m false }.setPc u (left .lockShared)) :=
      ⟨.thread u, rfl, by simp only [machine, step, stepThread, hpc]⟩
    refine closer_of_other ht hnext rfl ⟨rfl, rfl, rfl⟩ (.inl htu) hfu
      (add_lt_add_of_le_of_lt (hlink rfl) (hstays ?_))
    simp [hpc, left, Pc.toIdle]
  · have hnext : (machine shared).Next (fun _ a => a.goesOn) s (s.setPc u .subReader) :=
      ⟨.unlockShared u, rfl, if_pos hpc⟩
    refine closer_of_other ht hnext rfl ⟨rfl, rfl, rfl⟩ (.inl htu) hfu
      (add_lt_add_of_le_of_lt (hlink rfl) (hstays ?_))
    simp [hpc, Pc.toIdle]
  · have hnext : (machine shared).Next (fun _ a => a.goesOn) s
        ({ s with activeReaders := s.activeReaders - 1, readers := s.readers.erase u }.setPc u .idle) :=
      ⟨.thread u, rfl, by simp only [machine, step, stepThread, hpc]⟩
    refine closer_of_other ht hnext rfl ⟨rfl, rfl, rfl⟩ (.inl htu) hfu (add_lt_add_of_le_of_lt (hlink rfl) ?_)
    have hothers : ∑ v ∈ s.readers.erase u, (update s.pc u .idle v).toIdle =
        ∑ v ∈ s.readers.erase u, (s.pc v).toIdle :=
      Finset.sum_congr rfl fun v hv => by rw [update_of_ne (Finset.ne_of_mem_erase hv)]
    simp only [State.setPc, hothers]
    exact Finset.sum_erase_lt_of_pos hu (by simp [hpc, Pc.toIdle])

/-- The first thread waits for the next one to be linked, and that one links itself. -/
theorem closer_of_link {f n : ℕ} {k : Kind} (hq : Queue s) (hf : s.turn s.deq = f)
    (hpc : s.pc f = .spinNext k n) (hnull : (s.node n).next = none) (ht : (s.pc t).entering = true)
    (hphase : (s.pc t).phase = 1) : Closer shared t s := by
  have hqueued : (s.pc f).queued = true := by rw [hpc]; rfl
  have hticket := hq.window.first f (by rw [hpc]; rfl)
  have hlt := hq.links.spinNext f k n hpc
  have hlink := hq.links.next f n hqueued (by rw [hpc]; rfl)
  rw [if_pos hlt, hnull, hticket] at hlink
  rw [hticket] at hlt
  obtain ⟨hnext, hplace⟩ := hq.window.turn (s.deq + 1) (by omega) hlt
  obtain ⟨u, hu⟩ : ∃ u, s.turn (s.deq + 1) = u := ⟨_, rfl⟩
  rw [hu] at hlink hnext hplace
  have hfu : s.turn s.deq ≠ u := by
    rw [hf]
    rintro rfl
    omega
  -- the next thread is not first, and not known to its predecessor
  have hwaits : ∃ k m p, s.pc u = .link k m p := by
    have hfirst : (s.pc u).first = false := by
      by_contra h
      have := hq.window.first u (by simpa using h)
      omega
    rw [Pc.queued, hfirst, Bool.or_false] at hnext
    cases hpc : s.pc u with
    | link k m p => exact ⟨k, m, p, rfl⟩
    | spin k m =>
        rw [hpc] at hlink
        cases hlink
    | _ => simp [hpc, Pc.waits] at hnext
  obtain ⟨k', m, p, hlinking⟩ := hwaits
  have hstep : (machine shared).Next (fun _ a => a.goesOn) s
      ((s.storeNext p (some m)).setPc u (.spin k' m)) :=
    ⟨.thread u, rfl, by simp only [machine, step, stepThread, hlinking]⟩
  refine closer_of_other ht hstep rfl ⟨rfl, rfl, rfl⟩ ?_ hfu (add_lt_add_of_lt_of_le ?_ ?_)
  · by_cases htu : t = u
    · exact .inr ⟨rfl, hphase.symm⟩
    · exact .inl htu
  · simp [hu, hlinking, State.setPc, Pc.toLink]
  · refine Finset.sum_le_sum fun v _ => ?_
    simp only [State.setPc, State.storeNext, update_apply]
    split
    · exact Nat.zero_le _
    · exact le_rfl

/-- The first thread leaves the queue. -/
theorem closer_of_leave {f n : ℕ} {k : Kind} (hf : s.turn s.deq = f) (ht : (s.pc t).entering = true)
    (hphase : (s.pc t).phase = 1) (hbetween : t ≠ f → s.deq < s.ticket t)
    (hnext : (machine shared).Next (fun _ a => a.goesOn) s s') (hpc : s'.pc = update s.pc f (.deallocate k n))
    (hdeq : s'.deq = s.deq + 1) (hticket : s'.ticket = s.ticket)
    (hkind : (s.pc f).entering = true → k = .lockShared) : Closer shared t s := by
  refine ⟨s', hnext, .inr ?_⟩
  rcases eq_or_ne t f with rfl | hne
  · obtain rfl := hkind ht
    refine ⟨by rw [hpc, update_self]; rfl, rank_of_phase ?_⟩
    rw [hpc, update_self, hphase]
    exact Nat.zero_lt_one
  · have hkeep : s'.pc t = s.pc t := by rw [hpc, update_of_ne hne]
    have hlt := hbetween hne
    refine ⟨by rw [hkeep, ht], rank_of_deq (by rw [hkeep]) ?_⟩
    rw [hdeq, hticket]
    omega

/-- A thread for which `phase` says that it is in the queue is there. -/
theorem queued_of_phase {pc : Pc} (h : pc.entering = true) (hphase : pc.phase = 1) : pc.queued = true := by
  cases pc <;> first | rfl | cases h | cases hphase

/-- Whoever is first in the queue can go on, or a thread that it waits for can. -/
theorem closer (hq : Queue s) (hr : Readers shared s) (ht : (s.pc t).entering = true) :
    Closer shared t s := by
  by_cases hphase : (s.pc t).phase = 1
  swap
  · exact closer_of_phase ht hphase
  obtain ⟨hlo, hhi, hturn⟩ := hq.window.ticket t (queued_of_phase ht hphase)
  obtain ⟨hqueued, hticket⟩ := hq.window.turn s.deq le_rfl (by omega)
  obtain ⟨f, hf⟩ : ∃ f, s.turn s.deq = f := ⟨_, rfl⟩
  rw [hf] at hqueued hticket
  have hthread (s' : State) (hs : stepThread shared s f = some s') :
      (machine shared).Next (fun _ a => a.goesOn) s s' := ⟨.thread f, rfl, hs⟩
  have hbetween (hne : t ≠ f) : s.deq < s.ticket t := by
    refine lt_of_le_of_ne hlo fun heq => hne ?_
    rw [← hturn, ← heq, hf]
  -- what `t` is about if it is the first thread itself
  have hself (h : t = f) : (s.pc f).entering = true := h ▸ ht
  cases hpc : s.pc f with
  | link k n p =>
      obtain ⟨k', n', hspin, -⟩ := hq.links.first f (by rw [hpc]; rfl) hticket
      rw [hpc] at hspin
      cases hspin
  | spin k n =>
      obtain ⟨k', n', hspin, hfree⟩ := hq.links.first f (by rw [hpc]; rfl) hticket
      rw [hpc] at hspin
      cases hspin
      have hnext := hthread (s.setPc f (.setOwner k n)) (by simp [stepThread, hpc, hfree])
      exact closer_of_first hf ht hphase hnext rfl ⟨rfl, rfl, rfl⟩
        (by simp [hpc, Pc.toLeave]) rfl fun _ => .inr rfl
  | setOwner k n =>
      have hnext := hthread _ (by simp only [stepThread, hpc]; rfl)
      refine closer_of_first hf ht hphase hnext rfl ⟨rfl, rfl, rfl⟩ ?_ ?_ fun _ => ?_ <;>
        cases k <;> cases shared <;> simp [hpc, entered, Pc.toLeave, Pc.phase, Pc.has, Pc.entering]
  | waitReaders n =>
      by_cases hreaders : 0 < s.activeReaders
      · obtain ⟨u, hu⟩ := Finset.card_pos.mp (by rw [hr.count] at hreaders; exact_mod_cast hreaders)
        exact closer_of_reader hr hq (hf ▸ hpc) ht hphase hu
      · have hnext := hthread (s.setPc f (.holding n)) (by simp [stepThread, hpc, hreaders])
        exact closer_of_first hf ht hphase hnext rfl ⟨rfl, rfl, rfl⟩
          (by simp [hpc, Pc.toLeave]) rfl fun _ => .inl rfl
  | addReader n =>
      have hnext := hthread _ (by simp only [stepThread, hpc]; rfl)
      exact closer_of_first hf ht hphase hnext rfl ⟨rfl, rfl, rfl⟩
        (by simp [hpc, Pc.toLeave]) rfl fun _ => .inr rfl
  | holding n =>
      have hunlock : step shared s (.unlock f) = some (s.setPc f (.loadOwner n)) := by simp only [step, hpc]
      refine closer_of_first hf ht hphase ⟨.unlock f, rfl, hunlock⟩ rfl ⟨rfl, rfl, rfl⟩
        (by simp [hpc, Pc.toLeave]) rfl fun h => ?_
      have hentering := hself h
      simp [hpc, Pc.entering] at hentering
  | loadOwner n =>
      have howner := hq.owner f n (.inr (.inr hpc))
      have hnext := hthread (s.setPc f (.loadNext .lock n)) (by simp [stepThread, hpc, howner])
      refine closer_of_first hf ht hphase hnext rfl ⟨rfl, rfl, rfl⟩
        (by simp [hpc, Pc.toLeave]) rfl fun h => ?_
      have hentering := hself h
      simp [hpc, Pc.entering] at hentering
  | loadNext k n =>
      have hkind (pc : Pc) (hpc' : pc.entering = (k == .lockShared)) (h : t = f) : pc.entering = true := by
        have hentering := hself h
        rwa [hpc, Pc.entering, ← hpc'] at hentering
      cases hnode : (s.node n).next with
      | none =>
          have hnext := hthread (s.setPc f (.casTail k n)) (by simp only [stepThread, hpc, hnode])
          exact closer_of_first hf ht hphase hnext rfl ⟨rfl, rfl, rfl⟩ (by simp [hpc, Pc.toLeave]) rfl
            fun h => .inr (hkind _ rfl h)
      | some m =>
          have hnext := hthread (s.setPc f (.handOff k n m)) (by simp only [stepThread, hpc, hnode])
          exact closer_of_first hf ht hphase hnext rfl ⟨rfl, rfl, rfl⟩ (by simp [hpc, Pc.toLeave]) rfl
            fun h => .inr (hkind _ rfl h)
  | casTail k n =>
      by_cases htail : s.tail = some n
      · have hnext := hthread ({ s with tail := none }.dequeue.setPc f (.deallocate k n))
          (by simp only [stepThread, hpc, if_pos htail])
        exact closer_of_leave hf ht hphase hbetween hnext rfl rfl rfl (by simp [hpc, Pc.entering])
      · have hnext := hthread (s.setPc f (.spinNext k n)) (by simp only [stepThread, hpc, if_neg htail])
        refine closer_of_first hf ht hphase hnext rfl ⟨rfl, rfl, rfl⟩
          (by simp [hpc, Pc.toLeave]) rfl fun h => .inr ?_
        have hentering := hself h
        rwa [hpc] at hentering
  | spinNext k n =>
      cases hnode : (s.node n).next with
      | none => exact closer_of_link hq hf hpc hnode ht hphase
      | some m =>
          have hnext := hthread (s.setPc f (.handOff k n m)) (by simp only [stepThread, hpc, hnode])
          refine closer_of_first hf ht hphase hnext rfl ⟨rfl, rfl, rfl⟩ (by simp [hpc, Pc.toLeave]) rfl
            fun h => .inr ?_
          have hentering := hself h
          rwa [hpc] at hentering
  | handOff k n m =>
      have hnext := hthread (((s.storeLocked m false).dequeue).setPc f (.deallocate k n))
        (by simp only [stepThread, hpc])
      exact closer_of_leave hf ht hphase hbetween hnext rfl rfl rfl (by simp [hpc, Pc.entering])
  | _ => simp [hpc, Pc.queued, Pc.waits, Pc.first] at hqueued

/-- Every thread that has a node for the lock can get it: threads that are in calls go on, and those that
have the lock call `unlock` or `unlock_shared`; nobody has to begin a call. -/
theorem mcs_lock_can_enter (shared : Bool) (s : State) (t : ℕ) (hs : (machine shared).Reachable s)
    (ht : (s.pc t).entering = true) :
    ∃ s', Relation.ReflTransGen ((machine shared).Next fun _ a => a.goesOn) s s' ∧ (s'.pc t).has = true := by
  refine Machine.reaches_of_rank (I := fun s => (machine shared).Reachable s ∧ (s.pc t).entering = true)
    (rank t) ?_ ⟨hs, ht⟩
  rintro s ⟨hs, ht⟩
  obtain ⟨hq, hr⟩ := queue_readers_of_run hs
  obtain ⟨s', hnext, hcloser⟩ := closer hq hr ht
  refine ⟨s', hnext, hcloser.imp id fun h => ⟨⟨?_, h.1⟩, h.2⟩⟩
  obtain ⟨a, -, hstep⟩ := hnext
  exact hs.step trivial hstep

/-- A writer holds the lock of an `MCSSharedLock`, and a thread in `lock_shared` has put its node behind the
writer's without having linked it. -/
theorem mcs_lock_can_enter_waiting :
    ∃ s s' : State, (s.pc 0 = .holding 7 ∧ s.pc 1 = .link .lockShared 8 7) ∧
      Relation.ReflTransGen ((machine true).Next fun _ a => a.goesOn) s s' ∧ (s'.pc 1).has = true := by
  obtain ⟨s, hs, hholding, hlink⟩ : ∃ s, (machine true).exec (fun _ _ => true) initial
      (lockUp 0 7 ++ [.thread 0, .thread 0, .lockShared 1, .allocate 1 8, .thread 1, .thread 1,
        .thread 1]) = some s ∧ s.pc 0 = .holding 7 ∧ s.pc 1 = .link .lockShared 8 7 :=
    ⟨_, rfl, rfl, rfl⟩
  have hrun : (machine true).Reachable s := Machine.Run.exec (.init rfl) (fun _ _ _ => trivial) hs
  obtain ⟨s', hgoes, hhas⟩ := mcs_lock_can_enter true s 1 hrun (by rw [hlink]; rfl)
  exact ⟨s, s', ⟨hholding, hlink⟩, hgoes, hhas⟩

end MCSLock

end RACoherence
