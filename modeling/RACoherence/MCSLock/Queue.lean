import RACoherence.MCSLock

/-!
# The queue of an MCS lock

The queue is the window from `deq` to `enq` of the threads that have put their nodes into it, in order.
The first one has the lock or is about to notice it; the others wait, each with `locked` set in its own
node. A node knows the next one from the moment when the thread of that one has stored itself there.
-/

namespace RACoherence

open Function

namespace MCSLock

variable {shared : Bool} {s s' : State} {a : Action}

/-- Nodes are allocated, and no two threads have the same one. -/
structure Nodes (s : State) : Prop where
  allocated : ∀ t n, (s.pc t).own = some n → s.allocated n = true
  inj : ∀ t u n, (s.pc t).own = some n → (s.pc u).own = some n → t = u

/-- The owner of the lock, from the moment when a thread has set it until it has read it back. -/
def Owner (s : State) : Prop :=
  ∀ t n, s.pc t = .waitReaders n ∨ s.pc t = .holding n ∨ s.pc t = .loadOwner n → s.owner = some n

/-- Threads and their places in the queue. -/
structure Window (s : State) : Prop where
  le : s.deq ≤ s.enq
  ticket : ∀ t, (s.pc t).queued = true → s.deq ≤ s.ticket t ∧ s.ticket t < s.enq ∧ s.turn (s.ticket t) = t
  turn : ∀ i, s.deq ≤ i → i < s.enq → (s.pc (s.turn i)).queued = true ∧ s.ticket (s.turn i) = i
  first : ∀ t, (s.pc t).first = true → s.ticket t = s.deq
  tail : s.tail = if s.deq < s.enq then (s.pc (s.turn (s.enq - 1))).own else none

/-- What nodes hold: while waiting, `locked`; in the queue, the next node as soon as that one is linked; and
what has been stored to a new node before it is put into the queue. -/
structure Links (s : State) : Prop where
  first : ∀ t, (s.pc t).waits = true → s.ticket t = s.deq →
    ∃ k n, s.pc t = .spin k n ∧ (s.node n).locked = false
  locked : ∀ t n, (s.pc t).waits = true → s.deq < s.ticket t → (s.pc t).own = some n →
    (s.node n).locked = true
  next : ∀ t n, (s.pc t).queued = true → (s.pc t).own = some n → (s.node n).next =
    if s.ticket t + 1 < s.enq then (s.pc (s.turn (s.ticket t + 1))).linked else none
  predecessor : ∀ t k n p, s.pc t = .link k n p → (s.pc (s.turn (s.ticket t - 1))).own = some p
  setLocked : ∀ t k n, s.pc t = .setLocked k n → (s.node n).next = none
  swap : ∀ t k n, s.pc t = .swap k n → (s.node n).next = none ∧ (s.node n).locked = true
  spinNext : ∀ t k n, s.pc t = .spinNext k n → s.ticket t + 1 < s.enq
  handOff : ∀ t k n m, s.pc t = .handOff k n m → s.ticket t + 1 < s.enq ∧
    (s.pc (s.turn (s.ticket t + 1))).linked = some m

structure Queue (s : State) : Prop where
  nodes : Nodes s
  owner : Owner s
  window : Window s
  links : Links s

theorem queue_initial : Queue initial where
  nodes := ⟨by simp [initial, Pc.own], by simp [initial, Pc.own]⟩
  owner t n h := by rcases h with h | h | h <;> cases h
  window := ⟨le_rfl, by simp [initial, Pc.queued, Pc.waits, Pc.first], by simp [initial],
    by simp [initial, Pc.first], by simp [initial]⟩
  links := by
    constructor <;> simp [initial, Pc.waits, Pc.queued, Pc.first]

/-- A thread that goes on with the node it has, or without one. -/
theorem Nodes.move (h : Nodes s) {t : ℕ} {pc : Pc} (hpc : s'.pc = update s.pc t pc)
    (halloc : s'.allocated = s.allocated) (hown : ∀ n, pc.own = some n → (s.pc t).own = some n) :
    Nodes s' := by
  have hkeep : ∀ u n, (s'.pc u).own = some n → (s.pc u).own = some n := by
    intro u n hu
    rw [hpc, update_apply] at hu
    split at hu
    · rename_i hut
      rw [hut]
      exact hown n hu
    · exact hu
  refine ⟨fun u n hu => ?_, fun u v n hu hv => h.inj u v n (hkeep u n hu) (hkeep v n hv)⟩
  rw [halloc]
  exact h.allocated u n (hkeep u n hu)

/-- A thread gets a node that nobody has. -/
theorem Nodes.allocate (h : Nodes s) {t n : ℕ} {pc : Pc} (hfree : s.allocated n = false)
    (hpc : pc.own = some n) : Nodes ({ s with allocated := update s.allocated n true }.setPc t pc) := by
  have hne : ∀ u m, (s.pc u).own = some m → m ≠ n := by
    rintro u m hu rfl
    rw [h.allocated u m hu] at hfree
    cases hfree
  refine ⟨fun u m => ?_, fun u v m => ?_⟩ <;> simp only [State.setPc, update_apply]
  · split
    · intro hu
      rw [hpc, Option.some.injEq] at hu
      rw [if_pos hu.symm]
    · intro hu
      rw [if_neg (hne u m hu)]
      exact h.allocated u m hu
  · intro hu hv
    split at hu <;> split at hv
    · rename_i hut hvt
      rw [hut, hvt]
    · rw [hpc, Option.some.injEq] at hu
      exact absurd hu.symm (hne v m hv)
    · rw [hpc, Option.some.injEq] at hv
      exact absurd hv.symm (hne u m hu)
    · exact h.inj u v m hu hv

/-- A thread frees its node. -/
theorem Nodes.deallocate (h : Nodes s) {t n : ℕ} {pc : Pc} (hown : (s.pc t).own = some n)
    (hpc : pc.own = none) : Nodes ({ s with allocated := update s.allocated n false }.setPc t pc) := by
  refine ⟨fun u m => ?_, fun u v m => ?_⟩ <;> simp only [State.setPc, update_apply]
  · split
    · rw [hpc]
      exact fun hu => absurd hu (by simp)
    · rename_i hut
      intro hu
      have hne : m ≠ n := by
        rintro rfl
        exact hut (h.inj u t m hu hown)
      rw [if_neg hne]
      exact h.allocated u m hu
  · intro hu hv
    split at hu <;> split at hv
    · rename_i hut hvt
      rw [hut, hvt]
    · rw [hpc] at hu
      cases hu
    · rw [hpc] at hv
      cases hv
    · exact h.inj u v m hu hv

theorem own_entered (k : Kind) (n : ℕ) : (entered shared k n).own = some n := by
  cases k <;> cases shared <;> rfl

theorem own_left (k : Kind) : (left k).own = none := by
  cases k <;> rfl

/-- A thread that goes on without setting the owner. -/
theorem Owner.move (h : Owner s) {t : ℕ} {pc : Pc} (hpc : s'.pc = update s.pc t pc)
    (howner : s'.owner = s.owner)
    (hset : ∀ n, pc = .waitReaders n ∨ pc = .holding n ∨ pc = .loadOwner n →
      s.pc t = .waitReaders n ∨ s.pc t = .holding n ∨ s.pc t = .loadOwner n) : Owner s' := by
  intro u n hu
  rw [howner]
  apply h u n
  rw [hpc, update_apply] at hu
  split at hu
  · rename_i hut
    rw [hut]
    exact hset n hu
  · exact hu

namespace Queue

theorem nodes_step (h : Queue s) (hs : Step shared s a s') : Nodes s' := by
  cases hs with
  | spinLocked _ _ => exact h.nodes
  | waitReaders _ _ => exact h.nodes
  | spinNull _ _ => exact h.nodes
  | allocate _ hfree => exact h.nodes.allocate hfree rfl
  | @deallocate t n k hpc => exact h.nodes.deallocate (by rw [hpc]; rfl) (own_left k)
  | @setOwner t n k hpc =>
      refine h.nodes.move rfl rfl fun m hm => ?_
      rw [own_entered] at hm
      rw [hpc]
      exact hm
  | @loadOwner t n m hpc howner =>
      have hn := h.owner t n (.inr (.inr hpc))
      rw [howner, Option.some.injEq] at hn
      refine h.nodes.move rfl rfl fun o ho => ?_
      rw [hpc, ← hn]
      exact ho
  | _ => exact h.nodes.move rfl rfl (by simp [*, Pc.own])

/-- Two threads are not first in the queue at once. -/
theorem first_unique (h : Queue s) {t u : ℕ} (ht : (s.pc t).first = true) (hu : (s.pc u).first = true) :
    t = u := by
  have htick := h.window.first t ht
  have hutick := h.window.first u hu
  have htq := h.window.ticket t (by simp [Pc.queued, ht])
  have huq := h.window.ticket u (by simp [Pc.queued, hu])
  rw [← htq.2.2, ← huq.2.2, htick, hutick]

theorem owner_step (h : Queue s) (hs : Step shared s a s') : Owner s' := by
  cases hs with
  | spinLocked _ _ => exact h.owner
  | waitReaders _ _ => exact h.owner
  | spinNull _ _ => exact h.owner
  | @setOwner t n k hpc =>
      intro u m hu
      simp only [State.setPc, update_apply] at hu ⊢
      split at hu
      · have hown := @own_entered shared k n
        rcases hu with hu | hu | hu <;> rw [hu] at hown <;> exact hown.symm
      · -- another thread that has set the owner would be first, too
        rename_i hut
        have hfirst : (s.pc u).first = true := by rcases hu with hu | hu | hu <;> rw [hu] <;> rfl
        exact absurd (h.first_unique hfirst (by rw [hpc]; rfl)) hut
  | @deallocate _ _ k _ => cases k <;> exact h.owner.move rfl rfl (by simp [left])
  | _ => exact h.owner.move rfl rfl (by simp [*])

/-- A thread in the queue has a node. -/
theorem own_of_queued {pc : Pc} (h : pc.queued = true) : ∃ n, pc.own = some n := by
  cases pc <;> first | exact ⟨_, rfl⟩ | cases h

theorem tail_eq_none (h : Queue s) : s.tail = none ↔ s.deq = s.enq := by
  rw [h.window.tail]
  have hle := h.window.le
  split
  · obtain ⟨n, hn⟩ := own_of_queued (h.window.turn (s.enq - 1) (by omega) (by omega)).1
    rw [hn]
    constructor
    · intro hnone
      cases hnone
    · omega
  · exact iff_of_true rfl (by omega)

/-- A thread that stops spinning is first. -/
theorem ticket_of_free (h : Queue s) {t n : ℕ} {k : Kind} (hpc : s.pc t = .spin k n)
    (hfree : (s.node n).locked = false) : s.ticket t = s.deq := by
  have hle := (h.window.ticket t (by rw [hpc]; rfl)).1
  by_contra hne
  have hlocked := h.links.locked t n (by rw [hpc]; rfl) (by omega) (by rw [hpc]; rfl)
  rw [hfree] at hlocked
  cases hlocked

/-- A thread whose node is the tail has the last place in the queue. -/
theorem ticket_of_tail (h : Queue s) {t n : ℕ} (hq : (s.pc t).queued = true)
    (hown : (s.pc t).own = some n) (htail : s.tail = some n) : s.ticket t + 1 = s.enq := by
  obtain ⟨hge, hlt, -⟩ := h.window.ticket t hq
  have htl := h.window.tail
  rw [if_pos (by omega), htail] at htl
  obtain ⟨-, htick⟩ := h.window.turn (s.enq - 1) (by omega) (by omega)
  rw [← h.nodes.inj t _ n hown htl.symm] at htick
  omega

/-- A step that leaves the queue as it is keeps the places in it. -/
theorem window_move (h : Queue s) {t : ℕ} {pc : Pc} (hpc : s'.pc = update s.pc t pc)
    (henq : s'.enq = s.enq) (hdeq : s'.deq = s.deq) (hturn : s'.turn = s.turn)
    (hticket : s'.ticket = s.ticket) (htail : s'.tail = s.tail)
    (hqueued : pc.queued = (s.pc t).queued) (hfirst : pc.first = true → s.ticket t = s.deq)
    (hown : (s.pc t).queued = true → pc.own = (s.pc t).own) : Window s' := by
  have hq : ∀ u, (s'.pc u).queued = (s.pc u).queued := by
    intro u
    rw [hpc, update_apply]
    split_ifs with hut
    · rw [hut, hqueued]
    · rfl
  refine ⟨?le, fun u => ?ticket, fun i => ?turn, fun u hu => ?first, ?tail⟩
  case le =>
    rw [hdeq, henq]
    exact h.window.le
  case ticket =>
    rw [hq, hdeq, henq, hturn, hticket]
    exact h.window.ticket u
  case turn =>
    rw [hq, hdeq, henq, hturn, hticket]
    exact h.window.turn i
  case first =>
    rw [hticket, hdeq]
    rw [hpc, update_apply] at hu
    split_ifs at hu with hut
    · rw [hut]
      exact hfirst hu
    · exact h.window.first u hu
  case tail =>
    rw [htail, hdeq, henq, hturn, h.window.tail]
    split_ifs with hlt
    · have hlast := (h.window.turn (s.enq - 1) (by omega) (by omega)).1
      rw [hpc, update_apply]
      split_ifs with hut
      · rw [hut, hown (hut ▸ hlast)]
      · rfl
    · rfl

/-- A thread that puts its node into the queue has the last place in it. -/
theorem window_enqueue (h : Queue s) {t n : ℕ} {pc : Pc} (hnq : (s.pc t).queued = false)
    (hqueued : pc.queued = true) (hown : pc.own = some n)
    (hfirst : pc.first = true → s.deq = s.enq) : Window ((s.enqueue t n).setPc t pc) := by
  have hle := h.window.le
  -- the threads in the queue are other ones
  have hne : ∀ u, (s.pc u).queued = true → u ≠ t := by
    rintro u hu rfl
    rw [hnq] at hu
    cases hu
  have hturn : ∀ i, s.deq ≤ i → i < s.enq → s.turn i ≠ t := fun i h₁ h₂ =>
    hne _ (h.window.turn i h₁ h₂).1
  refine ⟨?le, fun u => ?ticket, fun i => ?turn, fun u => ?first, ?tail⟩ <;>
    simp only [State.setPc, State.enqueue]
  case le =>
    omega
  case ticket =>
    intro hu
    by_cases hut : u = t
    · rw [hut, update_self, update_self]
      exact ⟨hle, by omega, rfl⟩
    · rw [update_of_ne hut] at hu ⊢
      obtain ⟨h₁, h₂, h₃⟩ := h.window.ticket u hu
      rw [update_of_ne (by omega)]
      exact ⟨h₁, by omega, h₃⟩
  case turn =>
    intro h₁ h₂
    by_cases hi : i = s.enq
    · rw [hi, update_self, update_self, update_self]
      exact ⟨hqueued, rfl⟩
    · have hlt : i < s.enq := by omega
      rw [update_of_ne hi, update_of_ne (hturn i h₁ hlt), update_of_ne (hturn i h₁ hlt)]
      exact h.window.turn i h₁ hlt
  case first =>
    intro hu
    by_cases hut : u = t
    · rw [hut, update_self] at hu
      rw [hut, update_self]
      exact (hfirst hu).symm
    · rw [update_of_ne hut] at hu ⊢
      exact h.window.first u hu
  case tail =>
    show some n = if s.deq < s.enq + 1 then _ else none
    rw [if_pos (by omega), Nat.add_sub_cancel, update_self, update_self, hown]

/-- The first thread leaves the queue, and the places behind it stay. -/
theorem window_leave (h : Queue s) {t : ℕ} {pc : Pc} (hpc : s'.pc = update s.pc t pc)
    (henq : s'.enq = s.enq) (hdeq : s'.deq = s.deq + 1) (hturn : s'.turn = s.turn)
    (hticket : s'.ticket = s.ticket)
    (htail : s'.tail = if s.deq + 1 < s.enq then s.tail else none)
    (hfirst : (s.pc t).first = true) (hqueued : pc.queued = false) : Window s' := by
  have htq : (s.pc t).queued = true := by
    rw [Pc.queued, hfirst, Bool.or_true]
  have ht := h.window.first t hfirst
  obtain ⟨-, hlt, htt⟩ := h.window.ticket t htq
  -- the places behind are other threads'
  have hne : ∀ i, s.deq + 1 ≤ i → i < s.enq → s.turn i ≠ t := by
    intro i h₁ h₂ hit
    have hi := (h.window.turn i (by omega) h₂).2
    rw [hit] at hi
    omega
  have hpcu : ∀ u, (s'.pc u).queued = true → u ≠ t ∧ s'.pc u = s.pc u := by
    intro u hu
    rw [hpc, update_apply] at hu ⊢
    split_ifs at hu ⊢ with hut
    · rw [hqueued] at hu
      cases hu
    · exact ⟨hut, rfl⟩
  refine ⟨?le, fun u hu => ?ticket, fun i h₁ h₂ => ?turn, fun u hu => ?first, ?tail⟩
  case le =>
    rw [hdeq, henq]
    omega
  case ticket =>
    obtain ⟨hut, heq⟩ := hpcu u hu
    rw [heq] at hu
    obtain ⟨h₁, h₂, h₃⟩ := h.window.ticket u hu
    rw [hdeq, henq, hturn, hticket]
    refine ⟨?_, h₂, h₃⟩
    by_contra hlast
    rw [show s.ticket u = s.ticket t by omega, htt] at h₃
    exact hut h₃.symm
  case turn =>
    rw [hdeq] at h₁
    rw [henq] at h₂
    rw [hturn, hticket, hpc, update_of_ne (hne i h₁ h₂)]
    exact h.window.turn i (by omega) h₂
  case first =>
    obtain ⟨hut, heq⟩ := hpcu u (by rw [Pc.queued, hu, Bool.or_true])
    rw [heq] at hu
    exact absurd (h.first_unique hu hfirst) hut
  case tail =>
    rw [htail, hdeq, henq, hturn]
    split_ifs with hmore
    · rw [h.window.tail, if_pos (by omega), hpc, update_of_ne (hne _ (by omega) (by omega))]
    · rfl

theorem window_step (h : Queue s) (hs : Step shared s a s') : Window s' := by
  cases hs with
  | spinLocked _ _ => exact h.window
  | waitReaders _ _ => exact h.window
  | spinNull _ _ => exact h.window
  | spinFree hpc hfree =>
      have hdeq := h.ticket_of_free hpc hfree
      refine h.window_move rfl rfl rfl rfl rfl rfl ?_ (fun _ => hdeq) ?_ <;>
        simp [hpc, Pc.queued, Pc.first, Pc.waits, Pc.own]
  | casTail hpc htail =>
      have hlast := h.ticket_of_tail (by rw [hpc]; rfl) (by rw [hpc]; rfl) htail
      have hdeq := h.window.first _ (by rw [hpc]; rfl)
      exact h.window_leave rfl rfl rfl rfl rfl (if_neg (by omega)).symm (by rw [hpc]; rfl) rfl
  | handOff hpc =>
      have hmore := (h.links.handOff _ _ _ _ hpc).1
      have hdeq := h.window.first _ (by rw [hpc]; rfl)
      exact h.window_leave rfl rfl rfl rfl rfl (if_pos (by omega)).symm (by rw [hpc]; rfl) rfl
  | swapFree hpc htail =>
      exact h.window_enqueue (by rw [hpc]; rfl) rfl rfl (fun _ => h.tail_eq_none.1 htail)
  | swapTaken hpc htail _ =>
      exact h.window_enqueue (by rw [hpc]; rfl) rfl rfl (by simp [Pc.first])
  | @setOwner t n k hpc =>
      have hdeq := h.window.first t (by rw [hpc]; rfl)
      cases k <;> cases shared <;>
        refine h.window_move rfl rfl rfl rfl rfl rfl ?_ (fun _ => hdeq) ?_ <;>
        simp [hpc, entered, Pc.queued, Pc.first, Pc.waits, Pc.own]
  | @loadOwner t n m hpc howner =>
      have hdeq := h.window.first t (by rw [hpc]; rfl)
      obtain rfl : n = m := by simpa [howner] using (h.owner t n (.inr (.inr hpc))).symm
      refine h.window_move rfl rfl rfl rfl rfl rfl ?_ (fun _ => hdeq) ?_ <;>
        simp [hpc, Pc.queued, Pc.first, Pc.waits, Pc.own]
  | @deallocate t n k hpc =>
      cases k <;>
        refine h.window_move rfl rfl rfl rfl rfl rfl ?_ ?_ ?_ <;>
        simp [hpc, left, Pc.queued, Pc.first, Pc.waits]
  | _ hpc =>
      refine h.window_move rfl rfl rfl rfl rfl rfl ?_ (fun hf => h.window.first _ ?_) ?_ <;>
        simp_all [Pc.queued, Pc.first, Pc.waits, Pc.own]

theorem linked_eq_some {pc : Pc} {n : ℕ} (h : pc.linked = some n) : ∃ k, pc = .spin k n := by
  cases pc <;> cases h
  exact ⟨_, rfl⟩

/-- A thread that is about to link itself is behind another one. -/
theorem deq_lt_of_link (h : Queue s) {t n p : ℕ} {k : Kind} (hpc : s.pc t = .link k n p) :
    s.deq < s.ticket t := by
  have hle := (h.window.ticket t (by rw [hpc]; rfl)).1
  by_contra hne
  obtain ⟨k', n', hspin, -⟩ := h.links.first t (by rw [hpc]; rfl) (by omega)
  rw [hpc] at hspin
  cases hspin

/-- A step that leaves the queue as it is, and in it every node as it is, keeps the links. -/
theorem links_move (h : Queue s) {t : ℕ} {pc : Pc} (hpc : s'.pc = update s.pc t pc)
    (henq : s'.enq = s.enq) (hdeq : s'.deq = s.deq) (hturn : s'.turn = s.turn)
    (hticket : s'.ticket = s.ticket)
    (hnode : ∀ u n, u ≠ t ∨ (s.pc u).queued = true → (s.pc u).own = some n → s'.node n = s.node n)
    (hqueued : pc.queued = (s.pc t).queued) (hwaits : pc.waits = (s.pc t).waits)
    (hlinked : pc.linked = (s.pc t).linked)
    (hown : (s.pc t).queued = true → pc.own = (s.pc t).own)
    (hlink : ∀ k n p, pc ≠ .link k n p)
    (hsetLocked : ∀ k n, pc = .setLocked k n → (s'.node n).next = none)
    (hswap : ∀ k n, pc = .swap k n → (s'.node n).next = none ∧ (s'.node n).locked = true)
    (hspinNext : ∀ k n, pc = .spinNext k n → s.ticket t + 1 < s.enq)
    (hhandOff : ∀ k n m, pc = .handOff k n m → s.ticket t + 1 < s.enq ∧
      (s.pc (s.turn (s.ticket t + 1))).linked = some m) : Links s' := by
  have hpcu : ∀ u, s'.pc u = if u = t then pc else s.pc u := fun u => by rw [hpc, update_apply]
  have hq : ∀ u, (s'.pc u).queued = (s.pc u).queued := by grind
  have hw : ∀ u, (s'.pc u).waits = (s.pc u).waits := by grind
  have hl : ∀ u, (s'.pc u).linked = (s.pc u).linked := by grind
  have ho : ∀ u, (s.pc u).queued = true → (s'.pc u).own = (s.pc u).own := by grind
  have hwq : ∀ u, (s.pc u).waits = true → (s.pc u).queued = true := by grind [Pc.queued]
  refine ⟨fun u => ?first, fun u n => ?locked, fun u n => ?next, fun u k n p => ?predecessor,
    fun u k n => ?setLocked, fun u k n => ?swap, fun u k n => ?spinNext, fun u k n m => ?handOff⟩
  case first =>
    rw [hw, hticket, hdeq]
    intro hwu htick
    obtain ⟨k, n, hspin, hfree⟩ := h.links.first u hwu htick
    obtain ⟨k', hk'⟩ := linked_eq_some ((hl u).trans (by rw [hspin]; rfl))
    exact ⟨k', n, hk', by rw [hnode u n (.inr (hwq u hwu)) (by rw [hspin]; rfl)]; exact hfree⟩
  case locked =>
    rw [hw, hticket, hdeq]
    intro hwu hlt hou
    rw [ho u (hwq u hwu)] at hou
    rw [hnode u n (.inr (hwq u hwu)) hou]
    exact h.links.locked u n hwu hlt hou
  case next =>
    rw [hq, hticket, henq, hturn, hl]
    intro hqu hou
    rw [ho u hqu] at hou
    rw [hnode u n (.inr hqu) hou]
    exact h.links.next u n hqu hou
  case predecessor =>
    intro hlk
    have hne : u ≠ t := by
      rintro rfl
      rw [hpc, update_self] at hlk
      exact hlink _ _ _ hlk
    rw [hpc, update_of_ne hne] at hlk
    -- the place before is in the queue, so its thread keeps its node
    have hlt := h.deq_lt_of_link hlk
    have hle := (h.window.ticket u (by rw [hlk]; rfl)).2.1
    rw [hticket, hturn, ho _ (h.window.turn _ (by omega) (by omega)).1]
    exact h.links.predecessor u k n p hlk
  case setLocked =>
    intro hu
    have := h.links.setLocked u k n
    have := hnode u n
    grind [Pc.own]
  case swap =>
    intro hu
    have := h.links.swap u k n
    have := hnode u n
    grind [Pc.own]
  case spinNext =>
    intro hu
    have := h.links.spinNext u k n
    grind
  case handOff =>
    rw [hl]
    intro hu
    have := h.links.handOff u k n m
    grind

/-- A thread that puts its node into the queue keeps the links. -/
theorem links_enqueue (h : Queue s) {t n : ℕ} {k : Kind} {pc : Pc} (hpc : s.pc t = .swap k n)
    (hqueued : pc.queued = true) (hown : pc.own = some n) (hlinked : pc.linked = none)
    (hwaits : pc.waits = true → s.deq < s.enq)
    (hlink : ∀ k n p, pc = .link k n p → s.tail = some p)
    (hspinNext : ∀ k n, pc ≠ .spinNext k n) (hhandOff : ∀ k n m, pc ≠ .handOff k n m) :
    Links ((s.enqueue t n).setPc t pc) := by
  have hle := h.window.le
  have hnq : (s.pc t).queued = false := by rw [hpc]; rfl
  obtain ⟨hnn, hnl⟩ := h.links.swap t k n hpc
  -- the threads in the queue are other ones, with the places they had
  have hne : ∀ u, (s.pc u).queued = true → u ≠ t := by grind
  have hturn : ∀ i, s.deq ≤ i → i < s.enq → s.turn i ≠ t := fun i h₁ h₂ =>
    hne _ (h.window.turn i h₁ h₂).1
  have hwq : ∀ u, (s.pc u).waits = true → (s.pc u).queued = true := by grind [Pc.queued]
  have hticket := h.window.ticket
  refine ⟨fun u => ?first, fun u m => ?locked, fun u m => ?next, fun u k m p => ?predecessor,
    fun u k m => ?setLocked, fun u k m => ?swap, fun u k m => ?spinNext, fun u k m o => ?handOff⟩ <;>
    simp only [State.setPc, State.enqueue, update_apply]
  case first =>
    have := h.links.first u
    grind
  case locked =>
    have := h.links.locked u m
    grind
  case next =>
    have := h.links.next u m
    grind
  case predecessor =>
    have := h.links.predecessor u k m p
    have hlt : s.pc u = .link k m p → s.deq < s.ticket u := h.deq_lt_of_link
    have htail := h.window.tail
    grind [Pc.queued, Pc.waits]
  case setLocked =>
    have := h.links.setLocked u k m
    grind [Pc.queued, Pc.waits, Pc.first]
  case swap =>
    have := h.links.swap u k m
    grind [Pc.queued, Pc.waits, Pc.first]
  case spinNext =>
    have := h.links.spinNext u k m
    grind [Pc.queued, Pc.first]
  case handOff =>
    have := h.links.handOff u k m o
    grind [Pc.queued, Pc.first]

/-- The thread whose turn has come keeps the links when it leaves its loop. -/
theorem links_spinFree (h : Queue s) {t n : ℕ} {k : Kind} (hpc : s.pc t = .spin k n)
    (hfree : (s.node n).locked = false) : Links (s.setPc t (.setOwner k n)) := by
  have hdeq := h.ticket_of_free hpc hfree
  have hticket := h.window.ticket
  have hturn := h.window.turn
  refine ⟨fun u => ?first, fun u m => ?locked, fun u m => ?next, fun u k m p => ?predecessor,
    fun u k m => ?setLocked, fun u k m => ?swap, fun u k m => ?spinNext, fun u k m o => ?handOff⟩ <;>
    simp only [State.setPc, update_apply]
  case first =>
    have := h.links.first u
    grind [Pc.waits]
  case locked =>
    have := h.links.locked u m
    grind [Pc.waits, Pc.own]
  case next =>
    have := h.links.next u m
    grind [Pc.queued, Pc.waits, Pc.first, Pc.own, Pc.linked]
  case predecessor =>
    have := h.links.predecessor u k m p
    grind [Pc.own]
  case setLocked =>
    have := h.links.setLocked u k m
    grind
  case swap =>
    have := h.links.swap u k m
    grind
  case spinNext =>
    have := h.links.spinNext u k m
    grind
  case handOff =>
    have := h.links.handOff u k m o
    grind [Pc.queued, Pc.waits, Pc.first, Pc.own, Pc.linked]

/-- The last thread in the queue leaves it empty. -/
theorem links_casTail (h : Queue s) {t n : ℕ} {k : Kind} (hpc : s.pc t = .casTail k n)
    (htail : s.tail = some n) :
    Links ({ s with tail := none }.dequeue.setPc t (.deallocate k n)) := by
  have hlast := h.ticket_of_tail (by rw [hpc]; rfl) (by rw [hpc]; rfl) htail
  have hdeq := h.window.first t (by rw [hpc]; rfl)
  -- nobody else is in the queue
  have hnq : ∀ u, u ≠ t → (s.pc u).queued = false := by
    intro u hne
    by_contra hq
    have hu := h.window.ticket u (by simpa using hq)
    have ht := h.window.ticket t (by rw [hpc]; rfl)
    have heq : s.ticket u = s.ticket t := by omega
    exact hne (by rw [← hu.2.2, ← ht.2.2, heq])
  refine ⟨fun u => ?first, fun u m => ?locked, fun u m => ?next, fun u k m p => ?predecessor,
    fun u k m => ?setLocked, fun u k m => ?swap, fun u k m => ?spinNext, fun u k m o => ?handOff⟩ <;>
    simp only [State.setPc, State.dequeue, update_apply] <;> have hu := hnq u
  case first =>
    grind [Pc.waits, Pc.queued]
  case locked =>
    grind [Pc.waits, Pc.queued]
  case next =>
    grind [Pc.waits, Pc.queued, Pc.first]
  case predecessor =>
    grind [Pc.waits, Pc.queued]
  case setLocked =>
    have := h.links.setLocked u k m
    grind
  case swap =>
    have := h.links.swap u k m
    grind
  case spinNext =>
    grind [Pc.first, Pc.queued]
  case handOff =>
    grind [Pc.first, Pc.queued]

/-- The first thread leaves the queue, and unlocks the node behind it. -/
theorem links_handOff (h : Queue s) {t n m : ℕ} {k : Kind} (hpc : s.pc t = .handOff k n m) :
    Links ((s.storeLocked m false).dequeue.setPc t (.deallocate k n)) := by
  obtain ⟨hmore, hlinked⟩ := h.links.handOff t k n m hpc
  have hdeq := h.window.first t (by rw [hpc]; rfl)
  obtain ⟨k', hspin⟩ := linked_eq_some hlinked
  obtain ⟨-, hbehind⟩ := h.window.turn (s.ticket t + 1) (by omega) hmore
  -- the unlocked node is that of the thread behind
  have hnode : ∀ u o, (s.pc u).own = some o → s.pc u ≠ .spin k' m → o ≠ m := by
    rintro u o hown hne rfl
    obtain rfl := h.nodes.inj u _ o hown (by rw [hspin]; rfl)
    exact hne hspin
  refine ⟨fun u => ?first, fun u o => ?locked, fun u o => ?next, fun u k o q => ?predecessor,
    fun u k o => ?setLocked, fun u k o => ?swap, fun u k o => ?spinNext, fun u k o q => ?handOff⟩ <;>
    simp only [State.setPc, State.storeLocked, State.dequeue, update_apply]
  case first =>
    by_cases hut : u = t <;> simp only [hut, if_true, if_false]
    · exact fun hw => absurd hw (by simp [Pc.waits])
    · intro hw htick
      have hu := (h.window.ticket u (by rw [Pc.queued, hw]; rfl)).2.2
      rw [htick, ← hdeq] at hu
      rw [← hu, hspin]
      exact ⟨k', m, rfl, by simp⟩
  case locked =>
    by_cases hut : u = t <;> simp only [hut, if_true, if_false]
    · exact fun hw => absurd hw (by simp [Pc.waits])
    · intro hw hlt hown
      have hne : s.pc u ≠ .spin k' m := by
        intro heq
        have hsame := h.nodes.inj u _ m (by rw [heq]; rfl) (by rw [hspin]; rfl)
        rw [← hsame] at hbehind
        omega
      rw [if_neg (hnode u o hown hne)]
      exact h.links.locked u o hw (by omega) hown
  case next =>
    by_cases hut : u = t <;> simp only [hut, if_true, if_false]
    · exact fun hq => absurd hq (by simp [Pc.queued, Pc.waits, Pc.first])
    · intro hq hown
      have hnext : (if o = m then { s.node m with locked := false } else s.node o).next =
          (s.node o).next := by
        split
        · rename_i heq
          rw [heq]
        · rfl
      rw [hnext, h.links.next u o hq hown]
      split
      · rw [if_neg]
        rintro hturn
        have hafter := (h.window.turn (s.ticket u + 1) (by have := h.window.ticket u hq; omega) ‹_›).2
        have hge := (h.window.ticket u hq).1
        rw [hturn] at hafter
        omega
      · rfl
  case predecessor =>
    by_cases hut : u = t <;> simp only [hut, if_true, if_false]
    · exact fun hlk => absurd hlk (by simp)
    · intro hlk
      have hpred := h.links.predecessor u k o q hlk
      split
      · rename_i hturn
        rw [hturn, hpc] at hpred
        exact hpred
      · exact hpred
  case setLocked =>
    by_cases hut : u = t <;> simp only [hut, if_true, if_false]
    · exact fun hst => absurd hst (by simp)
    · intro hst
      rw [if_neg (hnode u o (by rw [hst]; rfl) (by simp [hst]))]
      exact h.links.setLocked u k o hst
  case swap =>
    by_cases hut : u = t <;> simp only [hut, if_true, if_false]
    · exact fun hst => absurd hst (by simp)
    · intro hst
      rw [if_neg (hnode u o (by rw [hst]; rfl) (by simp [hst]))]
      exact h.links.swap u k o hst
  case spinNext =>
    by_cases hut : u = t <;> simp only [hut, if_true, if_false]
    · exact fun hst => absurd hst (by simp)
    · exact h.links.spinNext u k o
  case handOff =>
    by_cases hut : u = t <;> simp only [hut, if_true, if_false]
    · exact fun hst => absurd hst (by simp)
    · exact fun hst => absurd (h.first_unique (by rw [hst]; rfl) (by rw [hpc]; rfl)) hut

/-- A thread stores its node in that of the thread before it. -/
theorem links_link (h : Queue s) {t n p : ℕ} {k : Kind} (hpc : s.pc t = .link k n p) :
    Links ((s.storeNext p (some n)).setPc t (.spin k n)) := by
  have hlt := h.deq_lt_of_link hpc
  have hpred := h.links.predecessor t k n p hpc
  obtain ⟨-, hend, hplace⟩ := h.window.ticket t (by rw [hpc]; rfl)
  obtain ⟨hpq, hbefore⟩ := h.window.turn (s.ticket t - 1) (by omega) (by omega)
  -- the node that is stored to is that of the thread before
  have hnode : ∀ u o, (s.pc u).own = some o → u ≠ s.turn (s.ticket t - 1) → o ≠ p := by
    rintro u o hown hne rfl
    exact hne (h.nodes.inj u _ o hown hpred)
  have hlocked : ∀ o, (if o = p then { s.node p with next := some n } else s.node o).locked =
      (s.node o).locked := by
    intro o
    split
    · rename_i heq
      rw [heq]
    · rfl
  -- only the place before is followed by that of the thread
  have hafter : ∀ u, (s.pc u).queued = true → s.ticket u + 1 < s.enq → s.turn (s.ticket u + 1) = t →
      u = s.turn (s.ticket t - 1) := by
    intro u hq hmore hturn
    obtain ⟨hge, -, hu⟩ := h.window.ticket u hq
    have htick := (h.window.turn (s.ticket u + 1) (by omega) hmore).2
    rw [hturn] at htick
    rw [htick, Nat.add_sub_cancel, hu]
  refine ⟨fun u => ?first, fun u o => ?locked, fun u o => ?next, fun u k o q => ?predecessor,
    fun u k o => ?setLocked, fun u k o => ?swap, fun u k o => ?spinNext, fun u k o q => ?handOff⟩ <;>
    simp only [State.setPc, State.storeNext, update_apply, hlocked]
  case first =>
    by_cases hut : u = t <;> simp only [hut, if_true, if_false]
    · intro _ htick
      omega
    · intro hw htick
      exact h.links.first u hw htick
  case locked =>
    by_cases hut : u = t <;> simp only [hut, if_true, if_false]
    · intro _ _ hown
      exact h.links.locked t o (by rw [hpc]; rfl) hlt (by rw [hpc]; exact hown)
    · exact h.links.locked u o
  case next =>
    by_cases hut : u = t <;> simp only [hut, if_true, if_false]
    · intro _ hown
      have hown' : (s.pc t).own = some o := by rw [hpc]; exact hown
      have hne : t ≠ s.turn (s.ticket t - 1) := by
        intro heq
        rw [← heq] at hbefore
        omega
      rw [if_neg (hnode t o hown' hne), h.links.next t o (by rw [hpc]; rfl) hown']
      split
      · rename_i hmore
        rw [if_neg fun hturn => hne (hafter t (by rw [hpc]; rfl) hmore hturn)]
      · rfl
    · intro hq hown
      by_cases hu : u = s.turn (s.ticket t - 1)
      · have htick : s.ticket u + 1 = s.ticket t := by
          rw [hu, hbefore]
          omega
        have hop : o = p := by
          rw [hu, hpred, Option.some.injEq] at hown
          exact hown.symm
        rw [if_pos hop, if_pos (by omega), htick, hplace, if_pos rfl]
        rfl
      · rw [if_neg (hnode u o hown hu), h.links.next u o hq hown]
        split
        · rename_i hmore
          rw [if_neg fun hturn => hu (hafter u hq hmore hturn)]
        · rfl
  case predecessor =>
    by_cases hut : u = t <;> simp only [hut, if_true, if_false]
    · exact fun hlk => absurd hlk (by simp)
    · intro hlk
      have hpred := h.links.predecessor u k o q hlk
      split
      · rename_i hturn
        rw [hturn, hpc] at hpred
        exact hpred
      · exact hpred
  case setLocked =>
    by_cases hut : u = t <;> simp only [hut, if_true, if_false]
    · exact fun hst => absurd hst (by simp)
    · intro hst
      have hne : u ≠ s.turn (s.ticket t - 1) := by
        rintro rfl
        rw [hst] at hpq
        cases hpq
      rw [if_neg (hnode u o (by rw [hst]; rfl) hne)]
      exact h.links.setLocked u k o hst
  case swap =>
    by_cases hut : u = t <;> simp only [hut, if_true, if_false]
    · exact fun hst => absurd hst (by simp)
    · intro hst
      have hne : u ≠ s.turn (s.ticket t - 1) := by
        rintro rfl
        rw [hst] at hpq
        cases hpq
      rw [if_neg (hnode u o (by rw [hst]; rfl) hne)]
      exact h.links.swap u k o hst
  case spinNext =>
    by_cases hut : u = t <;> simp only [hut, if_true, if_false]
    · exact fun hst => absurd hst (by simp)
    · exact h.links.spinNext u k o
  case handOff =>
    by_cases hut : u = t <;> simp only [hut, if_true, if_false]
    · exact fun hst => absurd hst (by simp)
    · intro hst
      obtain ⟨hmore, hlinked⟩ := h.links.handOff u k o q hst
      refine ⟨hmore, ?_⟩
      rw [if_neg]
      · exact hlinked
      · rintro hturn
        rw [hturn, hpc] at hlinked
        cases hlinked

/-- The node of a thread outside the queue is not in the queue, and not another thread's. -/
theorem ne_of_own (h : Queue s) {t n : ℕ} (hown : (s.pc t).own = some n)
    (hnq : (s.pc t).queued = false) (u m : ℕ) (hu : u ≠ t ∨ (s.pc u).queued = true)
    (hm : (s.pc u).own = some m) : m ≠ n := by
  rintro rfl
  obtain rfl := h.nodes.inj t u m hown hm
  rcases hu with hne | hq
  · exact hne rfl
  · rw [hnq] at hq
    cases hq

/-- A thread whose node is not the tail is followed by another one. -/
theorem ticket_succ_lt (h : Queue s) {t n : ℕ} (hq : (s.pc t).queued = true)
    (hown : (s.pc t).own = some n) (htail : s.tail ≠ some n) : s.ticket t + 1 < s.enq := by
  obtain ⟨hge, hlt, hturn⟩ := h.window.ticket t hq
  by_contra hlast
  refine htail ?_
  rw [h.window.tail, if_pos (by omega), show s.enq - 1 = s.ticket t by omega, hturn, hown]

/-- The next node that a thread in the queue knows is that of the thread behind it. -/
theorem linked_of_next (h : Queue s) {t n m : ℕ} (hq : (s.pc t).queued = true)
    (hown : (s.pc t).own = some n) (hnext : (s.node n).next = some m) :
    s.ticket t + 1 < s.enq ∧ (s.pc (s.turn (s.ticket t + 1))).linked = some m := by
  have hn := h.links.next t n hq hown
  rw [hnext] at hn
  split at hn
  · exact ⟨‹_›, hn.symm⟩
  · cases hn

theorem links_step (h : Queue s) (hs : Step shared s a s') : Links s' := by
  cases hs with
  | spinLocked _ _ => exact h.links
  | waitReaders _ _ => exact h.links
  | spinNull _ _ => exact h.links
  | spinFree hpc hfree => exact h.links_spinFree hpc hfree
  | casTail hpc htail => exact h.links_casTail hpc htail
  | handOff hpc => exact h.links_handOff hpc
  | link hpc => exact h.links_link hpc
  | @setNext t n k hpc =>
      have hnode : ∀ u m, u ≠ t ∨ (s.pc u).queued = true → (s.pc u).own = some m → m ≠ n :=
        h.ne_of_own (by rw [hpc]; rfl) (by rw [hpc]; rfl)
      refine h.links_move rfl rfl rfl rfl rfl (fun u m hu hown => update_of_ne (hnode u m hu hown) _ _)
        ?_ ?_ ?_ ?_ ?_ ?_ ?_ ?_ ?_ <;>
        simp [hpc, State.setPc, State.storeNext, Pc.queued, Pc.first, Pc.waits, Pc.linked]
  | @setLocked t n k hpc =>
      have hnode : ∀ u m, u ≠ t ∨ (s.pc u).queued = true → (s.pc u).own = some m → m ≠ n :=
        h.ne_of_own (by rw [hpc]; rfl) (by rw [hpc]; rfl)
      have hnull := h.links.setLocked t k n hpc
      refine h.links_move rfl rfl rfl rfl rfl (fun u m hu hown => update_of_ne (hnode u m hu hown) _ _)
        ?_ ?_ ?_ ?_ ?_ ?_ ?_ ?_ ?_ <;>
        simp [hpc, hnull, State.setPc, State.storeLocked, Pc.queued, Pc.first, Pc.waits, Pc.linked]
  | swapFree hpc _ =>
      exact h.links_enqueue hpc rfl rfl rfl (by simp [Pc.waits]) (by simp) (by simp) (by simp)
  | @swapTaken t n p k hpc htail _ =>
      refine h.links_enqueue hpc rfl rfl rfl (fun _ => ?_) ?_ (by simp) (by simp)
      · have hne : s.deq ≠ s.enq := by
          rw [Ne, ← h.tail_eq_none, htail]
          simp
        have hle := h.window.le
        omega
      · rintro k n q ⟨⟩
        exact htail
  | casFail hpc htail =>
      have hmore := h.ticket_succ_lt (by rw [hpc]; rfl) (by rw [hpc]; rfl) htail
      refine h.links_move rfl rfl rfl rfl rfl (fun _ _ _ _ => rfl) ?_ ?_ ?_ ?_ ?_ ?_ ?_ ?_ ?_ <;>
        simp [hpc, hmore, Pc.queued, Pc.first, Pc.waits, Pc.own, Pc.linked]
  | nextKnown hpc hnext =>
      have hmore := h.linked_of_next (by rw [hpc]; rfl) (by rw [hpc]; rfl) hnext
      refine h.links_move rfl rfl rfl rfl rfl (fun _ _ _ _ => rfl) ?_ ?_ ?_ ?_ ?_ ?_ ?_ ?_
        (by rintro _ _ _ ⟨⟩; exact hmore) <;>
        simp [hpc, Pc.queued, Pc.first, Pc.waits, Pc.own, Pc.linked]
  | spinKnown hpc hnext =>
      have hmore := h.linked_of_next (by rw [hpc]; rfl) (by rw [hpc]; rfl) hnext
      refine h.links_move rfl rfl rfl rfl rfl (fun _ _ _ _ => rfl) ?_ ?_ ?_ ?_ ?_ ?_ ?_ ?_
        (by rintro _ _ _ ⟨⟩; exact hmore) <;>
        simp [hpc, Pc.queued, Pc.first, Pc.waits, Pc.own, Pc.linked]
  | @setOwner t n k hpc =>
      cases k <;> cases shared <;>
        refine h.links_move rfl rfl rfl rfl rfl (fun _ _ _ _ => rfl) ?_ ?_ ?_ ?_ ?_ ?_ ?_ ?_ ?_ <;>
        simp [hpc, entered, Pc.queued, Pc.first, Pc.waits, Pc.own, Pc.linked]
  | @loadOwner t n m hpc howner =>
      obtain rfl : n = m := by simpa [howner] using (h.owner t n (.inr (.inr hpc))).symm
      refine h.links_move rfl rfl rfl rfl rfl (fun _ _ _ _ => rfl) ?_ ?_ ?_ ?_ ?_ ?_ ?_ ?_ ?_ <;>
        simp [hpc, Pc.queued, Pc.first, Pc.waits, Pc.own, Pc.linked]
  | @deallocate t n k hpc =>
      cases k <;>
        refine h.links_move rfl rfl rfl rfl rfl (fun _ _ _ _ => rfl) ?_ ?_ ?_ ?_ ?_ ?_ ?_ ?_ ?_ <;>
        simp [hpc, left, Pc.queued, Pc.first, Pc.waits, Pc.linked]
  | _ hpc =>
      refine h.links_move rfl rfl rfl rfl rfl (fun _ _ _ _ => rfl) ?_ ?_ ?_ ?_ ?_ ?_ ?_ ?_ ?_ <;>
        simp [*, Pc.queued, Pc.first, Pc.waits, Pc.own, Pc.linked]

theorem step (h : Queue s) (hs : Step shared s a s') : Queue s' :=
  ⟨h.nodes_step hs, h.owner_step hs, h.window_step hs, h.links_step hs⟩

end Queue

end MCSLock

end RACoherence
