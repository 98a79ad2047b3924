import RACoherence.CLHLock

/-!
# The queue of a CLH lock

The queue is the window of the places after `deq` up to `enq`, each with a thread and its node, in the order
of the exchanges of `tail`. Every node in it says that the next thread has to wait; the node of place `deq`,
whose thread has left, does not, and is freed by the thread behind it.
-/

namespace RACoherence

open Function

namespace CLHLock

variable {shared : Bool} {s s' : State} {a : Action}

/-- The node of place `deq` is not freed yet. -/
def BaseHeld (s : State) : Prop := ∀ t, (s.pc t).first = true → (s.pc t).before ≠ none

/-- Who has a node: the thread that prepares it, or a place in the queue. -/
inductive Holder
  | thread (t : ℕ)
  | place (i : ℕ)
  deriving DecidableEq

def Holds (s : State) : Holder → ℕ → Prop
  | .thread t, n => (s.pc t).prepares = some n
  | .place i, n => (s.deq < i ∨ i = s.deq ∧ BaseHeld s) ∧ i ≤ s.enq ∧ s.nodeOf i = n

/-- Threads and their places in the queue. -/
structure Window (s : State) : Prop where
  le : s.deq ≤ s.enq
  ticket : ∀ t n, (s.pc t).own = some n →
    s.deq < s.ticket t ∧ s.ticket t ≤ s.enq ∧ s.turn (s.ticket t) = t ∧ s.nodeOf (s.ticket t) = n
  turn : ∀ i, s.deq < i → i ≤ s.enq → (s.pc (s.turn i)).own = some (s.nodeOf i) ∧ s.ticket (s.turn i) = i
  first : ∀ t, (s.pc t).first = true → s.ticket t = s.deq + 1
  before : ∀ t p, (s.pc t).before = some p → p = s.nodeOf (s.ticket t - 1)
  tail : s.tail = s.nodeOf s.enq
  mine : ∀ t n, (s.pc t).mine = some n → s.mynode = n

/-- The allocated nodes are those that somebody has, and nobody else has them. -/
structure Nodes (s : State) : Prop where
  allocated : ∀ o n, Holds s o n → s.allocated n = true
  held : ∀ n, s.allocated n = true → ∃ o, Holds s o n
  inj : ∀ o o' n, Holds s o n → Holds s o' n → o = o'

/-- What `succ_must_wait` is in the nodes. -/
structure Flags (s : State) : Prop where
  wait : ∀ i, s.deq < i → i ≤ s.enq → s.succMustWait (s.nodeOf i) = true
  free : BaseHeld s → s.succMustWait (s.nodeOf s.deq) = false
  swap : ∀ t k n, s.pc t = .swap k n → s.succMustWait n = true

structure Queue (s : State) : Prop where
  window : Window s
  nodes : Nodes s
  flags : Flags s
  release : ∀ t k n m, s.pc t = .release k n m → m = n

theorem queue_initial (n₀ : ℕ) : Queue (initial n₀) where
  window := ⟨le_rfl, by simp [initial, Pc.own], by simp only [initial]; omega, by simp [initial, Pc.first],
    by simp [initial, Pc.before], rfl, by simp [initial, Pc.mine]⟩
  nodes := by
    refine ⟨?_, fun n hn => ?_, ?_⟩
    · rintro (t | i) n h
      · simp [Holds, initial, Pc.prepares] at h
      · obtain ⟨-, -, rfl⟩ := h
        simp [initial]
    · have hn₀ : n = n₀ := by simpa [initial, update_apply] using hn
      exact ⟨.place 0, .inr ⟨rfl, nofun⟩, le_rfl, hn₀.symm⟩
    · rintro (t | i) (u | j) n h h'
      · simp [Holds, initial, Pc.prepares] at h
      · simp [Holds, initial, Pc.prepares] at h
      · simp [Holds, initial, Pc.prepares] at h'
      · have hi := h.2.1
        have hj := h'.2.1
        simp only [initial] at hi hj
        congr 1
        omega
  flags := ⟨by simp only [initial]; omega, fun _ => rfl, fun _ _ _ h => by cases h⟩
  release _ _ _ _ h := by cases h

theorem own_of_first {pc : Pc} (h : pc.first = true) : ∃ n, pc.own = some n := by
  cases pc <;> first | exact ⟨_, rfl⟩ | cases h

theorem own_of_before {pc : Pc} {p : ℕ} (h : pc.before = some p) : ∃ n, pc.own = some n := by
  cases pc <;> first | exact ⟨_, rfl⟩ | cases h

theorem first_of_mine {pc : Pc} {n : ℕ} (h : pc.mine = some n) :
    pc.first = true ∧ pc.own = some n ∧ pc.before = none := by
  cases pc <;> first | exact ⟨rfl, h, rfl⟩ | cases h

namespace Queue

/-- Two threads have not found the queue lock free at once. -/
theorem first_unique (h : Queue s) {t u : ℕ} (ht : (s.pc t).first = true) (hu : (s.pc u).first = true) :
    t = u := by
  obtain ⟨n, hn⟩ := own_of_first ht
  obtain ⟨m, hm⟩ := own_of_first hu
  rw [← (h.window.ticket t n hn).2.2.1, ← (h.window.ticket u m hm).2.2.1, h.window.first t ht,
    h.window.first u hu]

/-- The node in front of a thread that has not freed it yet belongs to the place in front. -/
theorem holds_before (h : Queue s) {t p : ℕ} (hp : (s.pc t).before = some p)
    (hfirst : s.ticket t = s.deq + 1) :
    p = s.nodeOf s.deq ∧ BaseHeld s := by
  obtain ⟨n, hn⟩ := own_of_before hp
  refine ⟨by rw [h.window.before t p hp, hfirst, Nat.add_sub_cancel], fun u hu => ?_⟩
  -- whoever has found the lock free is this thread
  obtain ⟨m, hm⟩ := own_of_first hu
  have hut : u = t := by
    rw [← (h.window.ticket u m hm).2.2.1, ← (h.window.ticket t n hn).2.2.1, h.window.first u hu, hfirst]
  rw [hut, hp]
  simp

/-- A step that changes only the position of a thread, and for the queue at most that it has found the lock
free. -/
theorem move (h : Queue s) {t : ℕ} {pc : Pc} (hpc : s'.pc = update s.pc t pc)
    (hview : pc.prepares = (s.pc t).prepares ∧ pc.own = (s.pc t).own ∧ pc.before = (s.pc t).before ∧
      pc.mine = (s.pc t).mine)
    (hfirst : pc.first = (s.pc t).first ∨ pc.before ≠ none ∧ s.ticket t = s.deq + 1)
    (hqueue : s'.enq = s.enq ∧ s'.deq = s.deq ∧ s'.turn = s.turn ∧ s'.ticket = s.ticket ∧
      s'.nodeOf = s.nodeOf)
    (hmem : s'.tail = s.tail ∧ s'.mynode = s.mynode ∧ s'.succMustWait = s.succMustWait ∧
      s'.allocated = s.allocated)
    (hswap : ∀ k n, pc ≠ .swap k n) (hrel : ∀ k n m, pc = .release k n m → m = n) : Queue s' := by
  obtain ⟨henq, hdeq, hturn, hticket, hnode⟩ := hqueue
  obtain ⟨htail, hmine, hflag, halloc⟩ := hmem
  have hsame : ∀ u, (s'.pc u).prepares = (s.pc u).prepares ∧ (s'.pc u).own = (s.pc u).own ∧
      (s'.pc u).before = (s.pc u).before ∧ (s'.pc u).mine = (s.pc u).mine := by
    intro u
    rw [hpc, update_apply]
    split
    · rename_i hut
      rw [hut]
      exact hview
    · exact ⟨rfl, rfl, rfl, rfl⟩
  have hprep u := (hsame u).1
  have hown u := (hsame u).2.1
  have hbefore u := (hsame u).2.2.1
  have hminev u := (hsame u).2.2.2
  have hfirst' : ∀ u, (s'.pc u).first = (s.pc u).first ∨
      (s.pc u).before ≠ none ∧ s.ticket u = s.deq + 1 := by
    intro u
    rw [hpc, update_apply]
    split
    · rename_i hut
      rw [hut, ← hview.2.2.1]
      exact hfirst
    · exact .inl rfl
  have hbase : BaseHeld s' ↔ BaseHeld s := by
    refine forall_congr' fun u => ?_
    rw [hbefore]
    rcases hfirst' u with hu | ⟨hu, -⟩
    · rw [hu]
    · simp [hu]
  have hholds : ∀ o n, Holds s' o n ↔ Holds s o n := by
    rintro (u | i) n
    · simp only [Holds, hprep]
    · simp only [Holds, hdeq, henq, hnode, hbase]
  refine ⟨⟨?_, ?_, ?_, fun u hu => ?_, ?_, ?_, ?_⟩, ⟨?_, ?_, ?_⟩, ⟨?_, ?_, fun u k n hu => ?_⟩,
    fun u k n m hu => ?_⟩
  · simpa only [hdeq, henq] using h.window.le
  · simpa only [hown, hdeq, henq, hticket, hturn, hnode] using h.window.ticket
  · simpa only [hown, hdeq, henq, hticket, hturn, hnode] using h.window.turn
  · rw [hticket, hdeq]
    rcases hfirst' u with hold | ⟨-, hnew⟩
    · exact h.window.first u (hold ▸ hu)
    · exact hnew
  · simpa only [hbefore, hticket, hnode] using h.window.before
  · simpa only [htail, hnode, henq] using h.window.tail
  · simpa only [hminev, hmine] using h.window.mine
  · simpa only [hholds, halloc] using h.nodes.allocated
  · simpa only [hholds, halloc] using h.nodes.held
  · simpa only [hholds] using h.nodes.inj
  · simpa only [hdeq, henq, hflag, hnode] using h.flags.wait
  · simpa only [hbase, hflag, hnode, hdeq] using h.flags.free
  · rw [hpc, update_apply] at hu
    split at hu
    · exact absurd hu (hswap k n)
    · rw [hflag]
      exact h.flags.swap u k n hu
  · rw [hpc, update_apply] at hu
    split at hu
    · exact hrel k n m hu
    · exact h.release u k n m hu

/-- For a step that leaves the queue as it is, and each thread its place in it. -/
theorem window_frame (h : Window s)
    (hpc : ∀ u, (s'.pc u).own = (s.pc u).own ∧ (s'.pc u).first = (s.pc u).first ∧
      (s'.pc u).before = (s.pc u).before ∧ (s'.pc u).mine = (s.pc u).mine)
    (hqueue : s'.enq = s.enq ∧ s'.deq = s.deq ∧ s'.turn = s.turn ∧ s'.ticket = s.ticket ∧
      s'.nodeOf = s.nodeOf)
    (hmem : s'.tail = s.tail ∧ s'.mynode = s.mynode) : Window s' := by
  obtain ⟨henq, hdeq, hturn, hticket, hnode⟩ := hqueue
  obtain ⟨htail, hmine⟩ := hmem
  have hown u := (hpc u).1
  have hfirst u := (hpc u).2.1
  have hbefore u := (hpc u).2.2.1
  have hminev u := (hpc u).2.2.2
  refine ⟨?_, ?_, ?_, ?_, ?_, ?_, ?_⟩
  · simpa only [hdeq, henq] using h.le
  · simpa only [hown, hdeq, henq, hticket, hturn, hnode] using h.ticket
  · simpa only [hown, hdeq, henq, hticket, hturn, hnode] using h.turn
  · simpa only [hfirst, hticket, hdeq] using h.first
  · simpa only [hbefore, hticket, hnode] using h.before
  · simpa only [htail, hnode, henq] using h.tail
  · simpa only [hminev, hmine] using h.mine

theorem view_update {t : ℕ} {pc : Pc} (h : pc.own = (s.pc t).own ∧ pc.first = (s.pc t).first ∧
      pc.before = (s.pc t).before ∧ pc.mine = (s.pc t).mine) (u : ℕ) :
    (update s.pc t pc u).own = (s.pc u).own ∧ (update s.pc t pc u).first = (s.pc u).first ∧
      (update s.pc t pc u).before = (s.pc u).before ∧ (update s.pc t pc u).mine = (s.pc u).mine := by
  rcases eq_or_ne u t with rfl | hut
  · simpa only [update_self] using h
  · simp only [update_of_ne hut, and_self]

/-- A thread gets a node that nobody has. -/
theorem allocate (h : Queue s) {t n : ℕ} {k : Kind} (hpc : s.pc t = .allocate k)
    (hfree : s.allocated n = false) :
    Queue ((s.setAllocated n true).setPc t (.construct k n)) := by
  have hnobody : ∀ o, ¬ Holds s o n := fun o ho => by
    rw [h.nodes.allocated o n ho] at hfree
    cases hfree
  have hview := @view_update s t (.construct k n) (by rw [hpc]; exact ⟨rfl, rfl, rfl, rfl⟩)
  have hbase : BaseHeld ((s.setAllocated n true).setPc t (.construct k n)) ↔ BaseHeld s := by
    refine forall_congr' fun u => ?_
    rw [State.setPc, State.setAllocated, (hview u).2.1, (hview u).2.2.1]
  have hholds : ∀ o m, Holds ((s.setAllocated n true).setPc t (.construct k n)) o m ↔
      Holds s o m ∨ o = .thread t ∧ m = n := by
    rintro (u | i) m
    · rcases eq_or_ne u t with rfl | hut
      · simp [Holds, State.setPc, State.setAllocated, Pc.prepares, hpc, eq_comm]
      · simp [Holds, State.setPc, State.setAllocated, hut]
    · simp only [Holds, hbase]
      simp [State.setPc, State.setAllocated]
  refine ⟨window_frame h.window hview ⟨rfl, rfl, rfl, rfl, rfl⟩ ⟨rfl, rfl⟩,
    ⟨fun o m ho => ?_, fun m hm => ?_, fun o o' m ho ho' => ?_⟩,
    ⟨h.flags.wait, fun hb => h.flags.free (hbase.mp hb), fun u j m hu => ?_⟩, fun u j m i hu => ?_⟩
  · rcases (hholds o m).mp ho with hold | ⟨-, rfl⟩
    · have hmn : m ≠ n := fun heq => hnobody o (heq ▸ hold)
      simpa [State.setPc, State.setAllocated, update_of_ne hmn] using h.nodes.allocated o m hold
    · simp [State.setPc, State.setAllocated]
  · rcases eq_or_ne m n with rfl | hmn
    · exact ⟨.thread t, (hholds _ m).mpr (.inr ⟨rfl, rfl⟩)⟩
    · obtain ⟨o, ho⟩ := h.nodes.held m (by
        simpa only [State.setPc, State.setAllocated, update_of_ne hmn] using hm)
      exact ⟨o, (hholds o m).mpr (.inl ho)⟩
  · rcases (hholds o m).mp ho with hold | ⟨rfl, rfl⟩ <;>
      rcases (hholds o' m).mp ho' with hold' | ⟨rfl, heq⟩
    · exact h.nodes.inj o o' m hold hold'
    · exact absurd (heq ▸ hold) (hnobody o)
    · exact absurd hold' (hnobody o')
    · rfl
  · simp only [State.setPc, State.setAllocated, update_apply] at hu
    split at hu
    · cases hu
    · exact h.flags.swap u j m hu
  · simp only [State.setPc, State.setAllocated, update_apply] at hu
    split at hu
    · cases hu
    · exact h.release u j m i hu

/-- The node is prepared: nobody else looks at it. -/
theorem construct (h : Queue s) {t n : ℕ} {k : Kind} (hpc : s.pc t = .construct k n) :
    Queue ((s.store n true).setPc t (.swap k n)) := by
  have hown : Holds s (.thread t) n := by simp only [Holds, hpc, Pc.prepares]
  have hview := @view_update s t (.swap k n) (by rw [hpc]; exact ⟨rfl, rfl, rfl, rfl⟩)
  have hbase : BaseHeld ((s.store n true).setPc t (.swap k n)) ↔ BaseHeld s := by
    refine forall_congr' fun u => ?_
    rw [State.setPc, State.store, (hview u).2.1, (hview u).2.2.1]
  have hholds : ∀ o m, Holds ((s.store n true).setPc t (.swap k n)) o m ↔ Holds s o m := by
    rintro (u | i) m
    · rcases eq_or_ne u t with rfl | hut
      · simp only [Holds, State.setPc, update_self, hpc, Pc.prepares]
      · simp only [Holds, State.setPc, State.store, update_of_ne hut]
    · simp only [Holds, hbase]
      rfl
  refine ⟨window_frame h.window hview ⟨rfl, rfl, rfl, rfl, rfl⟩ ⟨rfl, rfl⟩, ⟨?_, ?_, ?_⟩,
    ⟨fun i hlo hhi => ?_, fun hb => ?_, fun u j m hu => ?_⟩, fun u j m i hu => ?_⟩
  · simp only [hholds]
    exact h.nodes.allocated
  · simp only [hholds]
    exact h.nodes.held
  · simpa only [hholds] using h.nodes.inj
  · simp only [State.setPc, State.store, update_apply]
    split
    · rfl
    · exact h.flags.wait i hlo hhi
  · have hbase' := hbase.mp hb
    have hne : s.nodeOf s.deq ≠ n := by
      intro heq
      cases h.nodes.inj (.place s.deq) (.thread t) n ⟨.inr ⟨rfl, hbase'⟩, h.window.le, heq⟩ hown
    simpa only [State.setPc, State.store, update_of_ne hne] using h.flags.free hbase'
  · simp only [State.setPc, State.store, update_apply] at hu ⊢
    split at hu
    · cases hu
      rw [if_pos rfl]
    · split
      · rfl
      · exact h.flags.swap u j m hu
  · simp only [State.setPc, State.store, update_apply] at hu
    split at hu
    · cases hu
    · exact h.release u j m i hu

/-- The exchange of `tail`. -/
theorem swap (h : Queue s) {t n : ℕ} {k : Kind} (hpc : s.pc t = .swap k n) :
    Queue ((s.enqueue t n).setPc t (.spin k n s.tail)) := by
  have hown : Holds s (.thread t) n := by simp only [Holds, hpc, Pc.prepares]
  -- the threads in the queue keep their places, and the places their threads
  have hplace : ∀ u m, (s.pc u).own = some m → u ≠ t ∧ s.ticket u ≠ s.enq + 1 := by
    intro u m hu
    refine ⟨?_, fun heq => ?_⟩
    · rintro rfl
      rw [hpc] at hu
      cases hu
    · have := (h.window.ticket u m hu).2.1
      omega
  have hbase : BaseHeld ((s.enqueue t n).setPc t (.spin k n s.tail)) ↔ BaseHeld s := by
    refine forall_congr' fun u => ?_
    rcases eq_or_ne u t with rfl | hut
    · simp [State.setPc, hpc, Pc.first]
    · simp only [State.setPc, State.enqueue, update_of_ne hut]
  have hle := h.window.le
  have hholds : ∀ o m, Holds ((s.enqueue t n).setPc t (.spin k n s.tail)) o m ↔
      o ≠ .thread t ∧ Holds s o m ∨ o = .place (s.enq + 1) ∧ m = n := by
    rintro (u | i) m
    · rcases eq_or_ne u t with rfl | hut
      · simp [Holds, State.setPc, Pc.prepares]
      · simp [Holds, State.setPc, State.enqueue, hut]
    · rcases eq_or_ne i (s.enq + 1) with rfl | hi
      · simp [Holds, State.setPc, State.enqueue, eq_comm]
        omega
      · have hbound : i ≤ s.enq + 1 ↔ i ≤ s.enq := by omega
        simp only [Holds, hbase]
        simp [State.setPc, State.enqueue, hi, hbound]
  refine ⟨⟨?_, fun u m hu => ?_, fun i hlo hhi => ?_, fun u hu => ?_, fun u p hu => ?_, ?_, fun u m hu => ?_⟩,
    ⟨fun o m ho => ?_, fun m hm => ?_, fun o o' m ho ho' => ?_⟩, ⟨fun i hlo hhi => ?_, fun hb => ?_, fun u j m hu => ?_⟩,
    fun u j m i hu => ?_⟩
  · exact Nat.le_succ_of_le hle
  · rcases eq_or_ne u t with rfl | hut
    · simp only [State.setPc, State.enqueue, update_self, Pc.own, Option.some.injEq] at hu ⊢
      exact ⟨by omega, le_rfl, trivial, hu⟩
    · simp only [State.setPc, State.enqueue, update_of_ne hut] at hu ⊢
      obtain ⟨hlo, hhi, hturn, hnode⟩ := h.window.ticket u m hu
      rw [update_of_ne (hplace u m hu).2, update_of_ne (hplace u m hu).2]
      exact ⟨hlo, Nat.le_succ_of_le hhi, hturn, hnode⟩
  · simp only [State.setPc, State.enqueue] at hlo hhi ⊢
    rcases eq_or_ne i (s.enq + 1) with rfl | hi
    · simp only [update_self, Pc.own, and_self]
    · obtain ⟨hturn, hticket⟩ := h.window.turn i hlo (by omega)
      have hne := (hplace _ _ hturn).1
      rw [update_of_ne hi, update_of_ne hi, update_of_ne hne, update_of_ne hne]
      exact ⟨hturn, hticket⟩
  · have hut : u ≠ t := by
      rintro rfl
      simp [State.setPc, Pc.first] at hu
    simp only [State.setPc, State.enqueue, update_of_ne hut] at hu ⊢
    exact h.window.first u hu
  · rcases eq_or_ne u t with rfl | hut
    · simp only [State.setPc, State.enqueue, update_self, Pc.before, Option.some.injEq] at hu ⊢
      rw [Nat.add_sub_cancel, update_of_ne (by omega), ← hu]
      exact h.window.tail
    · simp only [State.setPc, State.enqueue, update_of_ne hut] at hu ⊢
      obtain ⟨m, hm⟩ := own_of_before hu
      have := (h.window.ticket u m hm).2.1
      rw [update_of_ne (by omega)]
      exact h.window.before u p hu
  · simp only [State.setPc, State.enqueue, update_self]
  · have hut : u ≠ t := by
      rintro rfl
      simp [State.setPc, Pc.mine] at hu
    simp only [State.setPc, State.enqueue, update_of_ne hut] at hu ⊢
    exact h.window.mine u m hu
  · rcases (hholds o m).mp ho with ⟨-, hold⟩ | ⟨-, rfl⟩
    · exact h.nodes.allocated o m hold
    · exact h.nodes.allocated _ m hown
  · obtain ⟨o, ho⟩ := h.nodes.held m hm
    rcases eq_or_ne o (.thread t) with rfl | hne
    · simp only [Holds, hpc, Pc.prepares, Option.some.injEq] at ho
      exact ⟨.place (s.enq + 1), (hholds _ m).mpr (.inr ⟨rfl, ho.symm⟩)⟩
    · exact ⟨o, (hholds o m).mpr (.inl ⟨hne, ho⟩)⟩
  · rcases (hholds o m).mp ho with ⟨hne, hold⟩ | ⟨rfl, rfl⟩ <;>
      rcases (hholds o' m).mp ho' with ⟨hne', hold'⟩ | ⟨rfl, heq⟩
    · exact h.nodes.inj o o' m hold hold'
    · exact absurd (h.nodes.inj o _ m hold (heq ▸ hown)) hne
    · exact absurd (h.nodes.inj o' _ m hold' hown) hne'
    · rfl
  · simp only [State.setPc, State.enqueue] at hlo hhi ⊢
    rcases eq_or_ne i (s.enq + 1) with rfl | hi
    · rw [update_self]
      exact h.flags.swap t k n hpc
    · rw [update_of_ne hi]
      exact h.flags.wait i hlo (by omega)
  · simp only [State.setPc, State.enqueue]
    rw [update_of_ne (by omega)]
    exact h.flags.free (hbase.mp hb)
  · simp only [State.setPc, State.enqueue, update_apply] at hu ⊢
    split at hu
    · cases hu
    · exact h.flags.swap u j m hu
  · simp only [State.setPc, State.enqueue, update_apply] at hu
    split at hu
    · cases hu
    · exact h.release u j m i hu

/-- The thread in front has released its node, so this one is the first. -/
theorem ticket_of_free (h : Queue s) {t n p : ℕ} {k : Kind} (hpc : s.pc t = .spin k n p)
    (hfree : s.succMustWait p = false) : s.ticket t = s.deq + 1 := by
  obtain ⟨hlo, hhi, -, -⟩ := h.window.ticket t n (by rw [hpc]; rfl)
  have hp := h.window.before t p (by rw [hpc]; rfl)
  by_contra hne
  have hwait := h.flags.wait (s.ticket t - 1) (by omega) (by omega)
  rw [← hp, hfree] at hwait
  cases hwait

/-- The first thread frees the node in front, which nobody else has. -/
theorem deallocate (h : Queue s) {t n p : ℕ} {k : Kind} (hpc : s.pc t = .deallocate k n p) :
    Queue ((s.setAllocated p false).setPc t (.setMine k n)) := by
  have hfirst : (s.pc t).first = true := by rw [hpc]; rfl
  have hticket := h.window.first t hfirst
  obtain ⟨hp, hbase⟩ := h.holds_before (t := t) (p := p) (by rw [hpc]; rfl) hticket
  have hplace : Holds s (.place s.deq) p := ⟨.inr ⟨rfl, hbase⟩, h.window.le, hp.symm⟩
  have hbase' : ¬ BaseHeld ((s.setAllocated p false).setPc t (.setMine k n)) := by
    intro hb
    refine hb t ?_ ?_ <;> simp [State.setPc, State.setAllocated, Pc.first, Pc.before]
  have hholds : ∀ o m, Holds ((s.setAllocated p false).setPc t (.setMine k n)) o m ↔
      o ≠ .place s.deq ∧ Holds s o m := by
    rintro (u | i) m
    · rcases eq_or_ne u t with rfl | hut
      · simp [Holds, State.setPc, Pc.prepares, hpc]
      · simp [Holds, State.setPc, State.setAllocated, hut]
    · simp only [Holds, hbase', hbase, and_false, or_false, and_true, ne_eq, Holder.place.injEq]
      simp only [State.setPc, State.setAllocated]
      constructor
      · rintro ⟨hi, hhi, hnode⟩
        exact ⟨hi.ne', .inl hi, hhi, hnode⟩
      · rintro ⟨hne, hi | hi, hhi, hnode⟩
        · exact ⟨hi, hhi, hnode⟩
        · exact absurd hi hne
  refine ⟨⟨h.window.le, fun u m hu => ?_, fun i hlo hhi => ?_, fun u hu => ?_, fun u q hu => ?_,
      h.window.tail, fun u m hu => ?_⟩, ⟨fun o m ho => ?_, fun m hm => ?_, fun o o' m ho ho' => ?_⟩,
    ⟨h.flags.wait, fun hb => absurd hb hbase', fun u j m hu => ?_⟩, fun u j m i hu => ?_⟩
  · rcases eq_or_ne u t with rfl | hut
    · simp only [State.setPc, State.setAllocated, update_self] at hu ⊢
      exact h.window.ticket u m (by rw [hpc]; exact hu)
    · simp only [State.setPc, State.setAllocated, update_of_ne hut] at hu ⊢
      exact h.window.ticket u m hu
  · obtain ⟨hturn, hticket'⟩ := h.window.turn i hlo hhi
    refine ⟨?_, hticket'⟩
    simp only [State.setPc, State.setAllocated, update_apply]
    split
    · rename_i heq
      rw [heq, hpc] at hturn
      exact hturn
    · exact hturn
  · rcases eq_or_ne u t with rfl | hut
    · exact hticket
    · simp only [State.setPc, State.setAllocated, update_of_ne hut] at hu
      exact h.window.first u hu
  · rcases eq_or_ne u t with rfl | hut
    · simp [State.setPc, State.setAllocated, Pc.before] at hu
    · simp only [State.setPc, State.setAllocated, update_of_ne hut] at hu
      exact h.window.before u q hu
  · rcases eq_or_ne u t with rfl | hut
    · simp [State.setPc, State.setAllocated, Pc.mine] at hu
    · simp only [State.setPc, State.setAllocated, update_of_ne hut] at hu
      exact h.window.mine u m hu
  · obtain ⟨hne, hold⟩ := (hholds o m).mp ho
    have hmp : m ≠ p := by
      rintro rfl
      exact hne (h.nodes.inj o _ m hold hplace)
    simpa only [State.setPc, State.setAllocated, update_of_ne hmp] using h.nodes.allocated o m hold
  · have hmp : m ≠ p := by
      rintro rfl
      simp [State.setPc, State.setAllocated] at hm
    obtain ⟨o, ho⟩ := h.nodes.held m (by
      simpa only [State.setPc, State.setAllocated, update_of_ne hmp] using hm)
    refine ⟨o, (hholds o m).mpr ⟨?_, ho⟩⟩
    rintro rfl
    exact hmp (ho.2.2.symm.trans hp.symm)
  · exact h.nodes.inj o o' m ((hholds o m).mp ho).2 ((hholds o' m).mp ho').2
  · simp only [State.setPc, State.setAllocated, update_apply] at hu
    split at hu
    · cases hu
    · exact h.flags.swap u j m hu
  · simp only [State.setPc, State.setAllocated, update_apply] at hu
    split at hu
    · cases hu
    · exact h.release u j m i hu

/-- The thread with the queue lock sets `mynode` to its node. -/
theorem setMine (h : Queue s) {t n : ℕ} {k : Kind} (hpc : s.pc t = .setMine k n) :
    Queue ({ s with mynode := n }.setPc t (entered shared k n)) := by
  have hfirst : (s.pc t).first = true := by rw [hpc]; rfl
  have hbefore₀ : (s.pc t).before = none := by rw [hpc]; rfl
  have hprep₀ : (s.pc t).prepares = none := by rw [hpc]; rfl
  have hentered : (entered shared k n).own = some n ∧ (entered shared k n).first = true ∧
      (entered shared k n).before = none ∧ (entered shared k n).mine = some n ∧
      (entered shared k n).prepares = none := by
    cases k <;> cases shared <;> exact ⟨rfl, rfl, rfl, rfl, rfl⟩
  obtain ⟨hown, hfirst', hbefore, hmine, hprep⟩ := hentered
  have hbase : BaseHeld (({ s with mynode := n } : State).setPc t (entered shared k n)) ↔ BaseHeld s := by
    refine forall_congr' fun u => ?_
    rcases eq_or_ne u t with rfl | hut
    · simp only [State.setPc, update_self, hfirst, hfirst', hbefore, hbefore₀]
    · simp only [State.setPc, update_of_ne hut]
  have hholds : ∀ o m, Holds (({ s with mynode := n } : State).setPc t (entered shared k n)) o m ↔
      Holds s o m := by
    rintro (u | i) m
    · rcases eq_or_ne u t with rfl | hut
      · simp only [Holds, State.setPc, update_self, hprep, hprep₀]
      · simp only [Holds, State.setPc, update_of_ne hut]
    · simp only [Holds, hbase]
      rfl
  refine ⟨⟨h.window.le, fun u m hu => ?_, fun i hlo hhi => ?_, fun u hu => ?_, fun u q hu => ?_,
      h.window.tail, fun u m hu => ?_⟩, ⟨?_, ?_, ?_⟩,
    ⟨h.flags.wait, fun hb => h.flags.free (hbase.mp hb), fun u j m hu => ?_⟩, fun u j m i hu => ?_⟩
  · rcases eq_or_ne u t with rfl | hut
    · simp only [State.setPc, update_self] at hu ⊢
      exact h.window.ticket u m (by rw [hpc, ← hu, hown]; rfl)
    · simp only [State.setPc, update_of_ne hut] at hu ⊢
      exact h.window.ticket u m hu
  · obtain ⟨hturn, hticket⟩ := h.window.turn i hlo hhi
    refine ⟨?_, hticket⟩
    simp only [State.setPc, update_apply]
    split
    · rename_i heq
      rw [heq, hpc] at hturn
      rw [hown]
      exact hturn
    · exact hturn
  · rcases eq_or_ne u t with rfl | hut
    · exact h.window.first u hfirst
    · simp only [State.setPc, update_of_ne hut] at hu
      exact h.window.first u hu
  · rcases eq_or_ne u t with rfl | hut
    · simp [State.setPc, hbefore] at hu
    · simp only [State.setPc, update_of_ne hut] at hu
      exact h.window.before u q hu
  · rcases eq_or_ne u t with rfl | hut
    · simp only [State.setPc, update_self, hmine, Option.some.injEq] at hu ⊢
      exact hu
    · -- nobody else is past this point
      simp only [State.setPc, update_of_ne hut] at hu
      exact absurd (h.first_unique (first_of_mine hu).1 hfirst) hut
  · simp only [hholds]
    exact h.nodes.allocated
  · simp only [hholds]
    exact h.nodes.held
  · simpa only [hholds] using h.nodes.inj
  · simp only [State.setPc, update_apply] at hu
    split at hu
    · rw [hu] at hown
      cases hown
    · exact h.flags.swap u j m hu
  · simp only [State.setPc, update_apply] at hu
    split at hu
    · cases k <;> cases shared <;> cases hu
    · exact h.release u j m i hu

/-- The thread with the queue lock releases its node and leaves the queue. -/
theorem dequeue (h : Queue s) {t n m : ℕ} {k : Kind} (hpc : s.pc t = .release k n m) :
    Queue (((s.store m false).dequeue).setPc t (left k)) := by
  have hfirst : (s.pc t).first = true := by rw [hpc]; rfl
  have hticket := h.window.first t hfirst
  obtain ⟨hlo, hhi, hturn, hnode⟩ := h.window.ticket t n (by rw [hpc]; rfl)
  rw [hticket] at hlo hhi hturn hnode
  obtain rfl := h.release t k n m hpc
  have hplace : Holds s (.place (s.deq + 1)) m := ⟨.inl hlo, hhi, hnode⟩
  have hleft : (left k).own = none ∧ (left k).first = false ∧ (left k).before = none ∧ (left k).mine = none ∧
      (left k).prepares = none := by
    cases k <;> exact ⟨rfl, rfl, rfl, rfl, rfl⟩
  obtain ⟨hown, hfirst', hbefore, hmine, hprep⟩ := hleft
  -- nobody is first now
  have hnone : ∀ u, ((((s.store m false).dequeue).setPc t (left k)).pc u).first = false := by
    intro u
    rcases eq_or_ne u t with rfl | hut
    · simpa only [State.setPc, update_self] using hfirst'
    · simp only [State.setPc, State.dequeue, State.store, update_of_ne hut]
      by_contra hu
      exact hut (h.first_unique (by simpa using hu) hfirst)
  have hfreed : ¬ BaseHeld s := fun hb => hb t hfirst (by rw [hpc]; rfl)
  have hbase : BaseHeld (((s.store m false).dequeue).setPc t (left k)) := fun u hu => by
    rw [hnone u] at hu
    cases hu
  have hholds : ∀ o i, Holds (((s.store m false).dequeue).setPc t (left k)) o i ↔ Holds s o i := by
    rintro (u | j) i
    · rcases eq_or_ne u t with rfl | hut
      · have hprep₀ : (s.pc u).prepares = none := by rw [hpc]; rfl
        simp only [Holds, State.setPc, update_self, hprep, hprep₀]
      · simp [Holds, State.setPc, State.dequeue, State.store, hut]
    · have hwindow : s.deq + 1 < j ∨ j = s.deq + 1 ↔ s.deq < j := by omega
      simp only [Holds, hbase, hfreed, and_true, and_false, or_false]
      simp only [State.setPc, State.dequeue, State.store, hwindow]
  have hflag : ∀ o i, Holds s o i → o ≠ .place (s.deq + 1) → s.succMustWait i = true →
      update s.succMustWait m false i = true := by
    intro o i ho hne hwait
    have him : i ≠ m := by
      rintro rfl
      exact hne (h.nodes.inj o _ i ho hplace)
    rwa [update_of_ne him]
  refine ⟨⟨hhi, fun u i hu => ?_, fun i hlo' hhi' => ?_, fun u hu => ?_, fun u q hu => ?_, h.window.tail,
      fun u i hu => ?_⟩, ⟨?_, ?_, ?_⟩,
    ⟨fun i hlo' hhi' => ?_, fun _ => ?_, fun u j i hu => ?_⟩, fun u j i l hu => ?_⟩
  · rcases eq_or_ne u t with rfl | hut
    · simp only [State.setPc, update_self, hown] at hu
      cases hu
    · simp only [State.setPc, State.dequeue, State.store, update_of_ne hut] at hu ⊢
      obtain ⟨hlo', hhi', hturn', hnode'⟩ := h.window.ticket u i hu
      have hne : s.ticket u ≠ s.deq + 1 := fun heq => hut (by rw [← hturn', heq, hturn])
      exact ⟨by omega, hhi', hturn', hnode'⟩
  · simp only [State.setPc, State.dequeue, State.store] at hlo' hhi' ⊢
    obtain ⟨hturn', hticket'⟩ := h.window.turn i (by omega) hhi'
    have hne : s.turn i ≠ t := by
      intro heq
      rw [heq, hticket] at hticket'
      omega
    rw [update_of_ne hne]
    exact ⟨hturn', hticket'⟩
  · rw [hnone u] at hu
    cases hu
  · rcases eq_or_ne u t with rfl | hut
    · simp only [State.setPc, update_self, hbefore] at hu
      cases hu
    · simp only [State.setPc, State.dequeue, State.store, update_of_ne hut] at hu
      exact h.window.before u q hu
  · have hu' := (first_of_mine hu).1
    rw [hnone u] at hu'
    cases hu'
  · simp only [hholds]
    exact h.nodes.allocated
  · simp only [hholds]
    exact h.nodes.held
  · simpa only [hholds] using h.nodes.inj
  · simp only [State.setPc, State.dequeue, State.store] at hlo' hhi' ⊢
    refine hflag (.place i) _ ⟨.inl (by omega), hhi', rfl⟩ ?_ (h.flags.wait i (by omega) hhi')
    simp only [ne_eq, Holder.place.injEq]
    omega
  · simp only [State.setPc, State.dequeue, State.store, hnode, update_self]
  · simp only [State.setPc, State.dequeue, State.store, update_apply] at hu
    split at hu
    · rw [hu] at hprep
      cases hprep
    · exact hflag (.thread u) i (by simp only [Holds, hu, Pc.prepares]) (by simp) (h.flags.swap u j i hu)
  · simp only [State.setPc, State.dequeue, State.store, update_apply] at hu
    split at hu
    · cases k <;> cases hu
    · exact h.release u j i l hu

/-- A step that changes nothing but the position of a thread, and that not for the queue. -/
theorem moved (h : Queue s) {t : ℕ} {pc pc' : Pc} (hpc : s.pc t = pc)
    (hview : pc'.prepares = pc.prepares ∧ pc'.own = pc.own ∧ pc'.before = pc.before ∧ pc'.mine = pc.mine ∧
      pc'.first = pc.first)
    (hswap : ∀ k n, pc' ≠ .swap k n) (hrel : ∀ k n m, pc' = .release k n m → m = n) :
    Queue (s.setPc t pc') := by
  subst hpc
  obtain ⟨hprep, hown, hbefore, hmine, hfirst⟩ := hview
  exact h.move rfl ⟨hprep, hown, hbefore, hmine⟩ (.inl hfirst) ⟨rfl, rfl, rfl, rfl, rfl⟩
    ⟨rfl, rfl, rfl, rfl⟩ hswap hrel

theorem step (h : Queue s) (hs : Step shared s a s') : Queue s' := by
  cases hs with
  | lock hpc => exact h.moved hpc ⟨rfl, rfl, rfl, rfl, rfl⟩ nofun nofun
  | tryLock _ hpc => exact h.moved hpc ⟨rfl, rfl, rfl, rfl, rfl⟩ nofun nofun
  | lockShared _ hpc => exact h.moved hpc ⟨rfl, rfl, rfl, rfl, rfl⟩ nofun nofun
  | unlock hpc => exact h.moved hpc ⟨rfl, rfl, rfl, rfl, rfl⟩ nofun nofun
  | unlockShared hpc => exact h.moved hpc ⟨rfl, rfl, rfl, rfl, rfl⟩ nofun nofun
  | allocate hpc hfree => exact h.allocate hpc hfree
  | tryTail hpc => exact h.moved hpc ⟨rfl, rfl, rfl, rfl, rfl⟩ nofun nofun
  | tryTaken hpc _ => exact h.moved hpc ⟨rfl, rfl, rfl, rfl, rfl⟩ nofun nofun
  | tryFree hpc _ => exact h.moved hpc ⟨rfl, rfl, rfl, rfl, rfl⟩ nofun nofun
  | construct hpc => exact h.construct hpc
  | swap hpc => exact h.swap hpc
  | spinLocked => exact h
  | @spinFree t n p k hpc hfree =>
      exact h.move (t := t) rfl (by rw [hpc]; exact ⟨rfl, rfl, rfl, rfl⟩)
        (.inr ⟨by simp [Pc.before], h.ticket_of_free hpc hfree⟩) ⟨rfl, rfl, rfl, rfl, rfl⟩
        ⟨rfl, rfl, rfl, rfl⟩ nofun nofun
  | deallocate hpc => exact h.deallocate hpc
  | setMine hpc => exact h.setMine hpc
  | waitReaders => exact h
  | noReaders hpc _ => exact h.moved hpc ⟨rfl, rfl, rfl, rfl, rfl⟩ nofun nofun
  | @addReader t n hpc =>
      exact h.move (t := t) rfl (by rw [hpc]; exact ⟨rfl, rfl, rfl, rfl⟩) (.inl (by rw [hpc]; rfl))
        ⟨rfl, rfl, rfl, rfl, rfl⟩ ⟨rfl, rfl, rfl, rfl⟩ nofun nofun
  | @loadMine t n k hpc =>
      have hmine := h.window.mine t n (by rw [hpc]; rfl)
      exact h.moved hpc ⟨rfl, rfl, rfl, rfl, rfl⟩ nofun fun j i m hrel => by cases hrel; exact hmine
  | release hpc => exact h.dequeue hpc
  | @subReader t hpc =>
      exact h.move (t := t) rfl (by rw [hpc]; exact ⟨rfl, rfl, rfl, rfl⟩) (.inl (by rw [hpc]; rfl))
        ⟨rfl, rfl, rfl, rfl, rfl⟩ ⟨rfl, rfl, rfl, rfl⟩ nofun nofun

end Queue

theorem queue_reachable (h : (machine shared).Reachable s) : Queue s := by
  apply h.invariant (I := Queue)
  · rintro _ ⟨n₀, rfl⟩
    exact queue_initial n₀
  · intro s a s' _ hq _ hstep
    exact hq.step (step_cases hstep)

end CLHLock

end RACoherence
