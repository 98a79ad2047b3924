import Mathlib.Data.Int.ModEq
import Mathlib.Data.List.Nodup
import Mathlib.Data.Nat.ModEq
import RACoherence.Lib.BoundedFifo
import RACoherence.SpmcQueue

/-!
# The queue is a bounded FIFO

A position is reserved when `enqueue_pos_` moves past it, published when its sequence number says so,
claimed when `dequeue_pos_` moves past it and released when its dequeuer has made the cell free again.
The sequence number of a cell tells which of these its latest position has reached: it is the position
itself while it is free or being written, one more while it is published, and the capacity more once it
has been released. Since a position is reserved only when the one a capacity earlier has been released,
all positions that are not released lie in one window of the size of the ring, and no two of them share
a cell.
-/

namespace RACoherence

open Function

namespace SpmcBoundedQueue

variable {α : Type*} (c : Capacity)

/-! ## The transitions -/

/-- The transitions of the queue. -/
inductive Step (s : State α) : Action α → State α → Prop
  | enqueue {v : α} : s.enq = .idle → Step s (.enqueue v) { s with enq := .loadPos v }
  | loadEnq {v : α} : s.enq = .loadPos v → Step s .enq { s with enq := .loadSeq v s.enqueuePos }
  | room {v : α} {pos : ℕ} : s.enq = .loadSeq v pos → dif (s.cell c pos).sequence pos = 0 →
      Step s .enq { s with enq := .storePos v pos }
  | full {v : α} {pos : ℕ} : s.enq = .loadSeq v pos → dif (s.cell c pos).sequence pos < 0 →
      Step s .enq { s with enq := .idle }
  | staleEnq {v : α} {pos : ℕ} : s.enq = .loadSeq v pos → 0 < dif (s.cell c pos).sequence pos →
      Step s .enq { s with enq := .loadPos v }
  | reserve {v : α} {pos : ℕ} : s.enq = .storePos v pos →
      Step s .enq { s with
        enqueuePos := addWord pos 1
        enqueued := s.enqueued ++ [v]
        enq := .writeData v pos }
  | writeData {v : α} {pos : ℕ} : s.enq = .writeData v pos →
      Step s .enq { s.writeData c pos v with enq := .storeSeq pos }
  | publish {pos : ℕ} : s.enq = .storeSeq pos →
      Step s .enq { s.storeSeq c pos (addWord pos 1) with enq := .idle }
  | dequeue {t : ℕ} : s.deq t = .idle → Step s (.dequeue t) (s.setDeq t .loadPos)
  | loadDeq {t : ℕ} : s.deq t = .loadPos → Step s (.deq t) (s.setDeq t (.loadSeq s.dequeuePos))
  | ready {t pos : ℕ} : s.deq t = .loadSeq pos →
      dif (s.cell c pos).sequence (addWord pos 1) = 0 → Step s (.deq t) (s.setDeq t (.cas pos))
  | empty {t pos : ℕ} : s.deq t = .loadSeq pos →
      dif (s.cell c pos).sequence (addWord pos 1) < 0 → Step s (.deq t) (s.setDeq t .idle)
  | staleDeq {t pos : ℕ} : s.deq t = .loadSeq pos →
      0 < dif (s.cell c pos).sequence (addWord pos 1) → Step s (.deq t) (s.setDeq t .loadPos)
  | claim {t : ℕ} : s.deq t = .cas s.dequeuePos →
      Step s (.deq t)
        ({ s with dequeuePos := addWord s.dequeuePos 1 }.setDeq t (.readData s.dequeuePos))
  | lost {t pos : ℕ} : s.deq t = .cas pos → s.dequeuePos ≠ pos →
      Step s (.deq t) (s.setDeq t (.loadSeq s.dequeuePos))
  | casFails {t pos : ℕ} : s.deq t = .cas pos →
      Step s (.casFails t) (s.setDeq t (.loadSeq s.dequeuePos))
  | readData {t pos : ℕ} : s.deq t = .readData pos →
      Step s (.deq t) (s.setDeq t (.storeSeq pos (s.cell c pos).data))
  | release {t pos : ℕ} {v : α} : s.deq t = .storeSeq pos v →
      Step s (.deq t) ({ s.storeSeq c pos (addWord (pos + bufferMask c) 1) with
        returned := s.returned ++ [(pos, v)] }.setDeq t .idle)

variable {c} {s s' : State α}

private theorem stepEnq_cases (h : stepEnq c s = some s') : Step c s .enq s' := by
  unfold stepEnq at h
  split at h
  · exact absurd h (by simp)
  · rename_i hpc
    obtain rfl := Option.some.inj h
    exact .loadEnq hpc
  · rename_i hpc
    dsimp only at h
    split at h
    · obtain rfl := Option.some.inj h
      exact .room hpc ‹_›
    · split at h <;> obtain rfl := Option.some.inj h
      · exact .full hpc ‹_›
      · exact .staleEnq hpc (by omega)
  · rename_i hpc
    obtain rfl := Option.some.inj h
    exact .reserve hpc
  · rename_i hpc
    obtain rfl := Option.some.inj h
    exact .writeData hpc
  · rename_i hpc
    obtain rfl := Option.some.inj h
    exact .publish hpc

private theorem stepDeq_cases {t : ℕ} (h : stepDeq c s t = some s') : Step c s (.deq t) s' := by
  unfold stepDeq at h
  split at h
  · exact absurd h (by simp)
  · rename_i hpc
    obtain rfl := Option.some.inj h
    exact .loadDeq hpc
  · rename_i hpc
    dsimp only at h
    split at h
    · obtain rfl := Option.some.inj h
      exact .ready hpc ‹_›
    · split at h <;> obtain rfl := Option.some.inj h
      · exact .empty hpc ‹_›
      · exact .staleDeq hpc (by omega)
  · rename_i hpc
    split at h
    · rename_i heq
      subst heq
      obtain rfl := Option.some.inj h
      exact .claim hpc
    · obtain rfl := Option.some.inj h
      exact .lost hpc ‹_›
  · rename_i hpc
    obtain rfl := Option.some.inj h
    exact .readData hpc
  · rename_i hpc
    obtain rfl := Option.some.inj h
    exact .release hpc

/-- The step function takes only the listed transitions. -/
theorem step_cases {a : Action α} (h : step c s a = some s') : Step c s a s' := by
  cases a with
  | enqueue v =>
      simp only [step] at h
      split at h
      · obtain rfl := Option.some.inj h
        exact .enqueue ‹_›
      · exact absurd h (by simp)
  | enq => exact stepEnq_cases h
  | dequeue t =>
      simp only [step] at h
      split at h
      · obtain rfl := Option.some.inj h
        exact .dequeue ‹_›
      · exact absurd h (by simp)
  | deq t => exact stepDeq_cases h
  | casFails t =>
      simp only [step] at h
      split at h
      · obtain rfl := Option.some.inj h
        exact .casFails ‹_›
      · exact absurd h (by simp)

/-! ## Positions and cells -/

theorem two_le_size (c : Capacity) : 2 ≤ c.size :=
  Nat.pow_le_pow_right Nat.two_pos c.shift_pos

theorem size_dvd_wordRange (c : Capacity) : c.size ∣ wordRange := Nat.pow_dvd_pow 2 c.shift_lt.le

theorem cellOf_eq (p : ℕ) : cellOf c p = p % c.size := Nat.and_two_pow_sub_one_eq_mod p c.shift

/-- Different positions in a window of the size of the ring have different cells. -/
theorem cellOf_ne {p q : ℕ} (hne : p ≠ q) (hpq : p < q + c.size) (hqp : q < p + c.size) :
    cellOf c p ≠ cellOf c q := by
  rw [cellOf_eq, cellOf_eq]
  intro heq
  apply hne
  rcases le_total p q with hle | hle
  · have hdvd := (Nat.modEq_iff_dvd' hle).mp heq
    have hzero := Nat.eq_zero_of_dvd_of_lt hdvd (by omega)
    omega
  · have hdvd := (Nat.modEq_iff_dvd' hle).mp heq.symm
    have hzero := Nat.eq_zero_of_dvd_of_lt hdvd (by omega)
    omega

theorem cellOf_add_size (p : ℕ) : cellOf c (p + c.size) = cellOf c p := by
  rw [cellOf_eq, cellOf_eq, Nat.add_mod_right]

theorem dif_self (x : ℕ) : dif x x = 0 := by
  rw [dif, sub_self]
  rfl

/-- A difference of zero is equality of words. -/
theorem modEq_of_dif {x y : ℕ} (h : dif x y = 0) : x ≡ y [MOD wordRange] :=
  (Nat.modEq_iff_dvd.mpr (Int.dvd_of_bmod_eq_zero h)).symm

/-- Equal words are in one cell. -/
theorem cellOf_congr {p q : ℕ} (h : p ≡ q [MOD wordRange]) : cellOf c p = cellOf c q := by
  rw [cellOf_eq, cellOf_eq]
  exact h.of_dvd (size_dvd_wordRange c)

theorem cellOf_succ_ne (p : ℕ) : cellOf c (p + 1) ≠ cellOf c p :=
  cellOf_ne (by omega) (by have := two_le_size c; omega) (by omega)

namespace State

theorem cell_congr {p q : ℕ} (h : cellOf c p = cellOf c q) : s.cell c p = s.cell c q := by
  rw [cell, h, cell]

theorem cell_storeSeq_self (s : State α) (p seq : ℕ) :
    (s.storeSeq c p seq).cell c p = { s.cell c p with sequence := seq } := update_self _ _ _

theorem cell_storeSeq_of_ne {p q : ℕ} (seq : ℕ) (h : cellOf c q ≠ cellOf c p) :
    (s.storeSeq c p seq).cell c q = s.cell c q := update_of_ne h _ _

theorem cell_writeData_self (s : State α) (p : ℕ) (v : α) :
    (s.writeData c p v).cell c p = { s.cell c p with data := v } := update_self _ _ _

theorem cell_writeData_of_ne {p q : ℕ} (v : α) (h : cellOf c q ≠ cellOf c p) :
    (s.writeData c p v).cell c q = s.cell c q := update_of_ne h _ _

theorem sequence_writeData (s : State α) (p q : ℕ) (v : α) :
    ((s.writeData c p v).cell c q).sequence = (s.cell c q).sequence := by
  by_cases h : cellOf c q = cellOf c p
  · rw [cell_congr h, cell_writeData_self, cell_congr h]
  · rw [cell_writeData_of_ne v h]

end State

/-- Every cell has a position among the next `S`. -/
theorem exists_next (c : Capacity) (n p : ℕ) :
    ∃ q, n ≤ q ∧ q < n + c.size ∧ cellOf c q = cellOf c p := by
  have hpos : 0 < c.size := Nat.two_pow_pos _
  refine ⟨n + (p + (c.size - n % c.size)) % c.size, by omega, ?_, ?_⟩
  · have hlt := Nat.mod_lt (p + (c.size - n % c.size)) hpos
    omega
  · have hlt := Nat.mod_lt n hpos
    have hsplit := Nat.div_add_mod n c.size
    have hsum : n + (p + (c.size - n % c.size)) = p + c.size + c.size * (n / c.size) := by omega
    rw [cellOf_eq, cellOf_eq, Nat.add_mod_mod, hsum, Nat.add_mul_mod_self_left, Nat.add_mod_right]

/-! ## The invariant -/

/-- The position that a dequeuer has claimed and not yet released. -/
def DeqPc.held : DeqPc α → Option ℕ
  | .readData pos | .storeSeq pos _ => some pos
  | _ => none

/-- The position that the enqueuer has reserved and not yet published. -/
def EnqPc.busy : EnqPc α → Option ℕ
  | .writeData _ pos | .storeSeq pos => some pos
  | _ => none

namespace State

/-- The dequeuer of the position has made its cell free again. -/
def Released (s : State α) (p : ℕ) : Prop := ∃ v, (p, v) ∈ s.returned

/-- The position holds a value that can be dequeued, or could until it was. -/
def Published (s : State α) (p : ℕ) : Prop := p < s.enqueued.length ∧ s.enq.busy ≠ some p

end State

/-- What the enqueuer relies on. -/
def EnqOk (c : Capacity) (s : State α) : Prop :=
  match s.enq with
  | .idle | .loadPos _ => True
  | .loadSeq _ pos => pos = s.enqueued.length
  | .storePos _ pos => pos = s.enqueued.length ∧ (pos < c.size ∨ s.Released (pos - c.size))
  | .writeData v pos =>
      pos + 1 = s.enqueued.length ∧ (s.cell c pos).sequence = pos ∧ s.enqueued[pos]? = some v
  | .storeSeq pos =>
      pos + 1 = s.enqueued.length ∧ (s.cell c pos).sequence = pos ∧
        s.enqueued[pos]? = some (s.cell c pos).data

/-- What a dequeuer relies on. -/
def DeqOk (s : State α) : DeqPc α → Prop
  | .idle | .loadPos | .readData _ => True
  | .loadSeq pos => pos ≤ s.dequeuePos
  | .cas pos => s.Published pos
  | .storeSeq pos v => s.enqueued[pos]? = some v

structure Inv (c : Capacity) (s : State α) : Prop where
  length_lt : s.enqueued.length < wordRange
  enqueuePos : s.enqueuePos = s.enqueued.length
  published : ∀ p < s.dequeuePos, s.Published p
  returned : ∀ p v, (p, v) ∈ s.returned → p < s.dequeuePos ∧ s.enqueued[p]? = some v
  nodup : (s.returned.map Prod.fst).Nodup
  held : ∀ t p, (s.deq t).held = some p → p < s.dequeuePos ∧ ¬ s.Released p
  unique : ∀ t u p, (s.deq t).held = some p → (s.deq u).held = some p → t = u
  claimed : ∀ p < s.dequeuePos, s.Released p ∨ ∃ t, (s.deq t).held = some p
  window : ∀ p, p + c.size < s.enqueued.length → s.Released p
  free : ∀ p, s.enqueued.length ≤ p → p < s.enqueued.length + c.size →
    p < c.size ∨ s.Released (p - c.size) → (s.cell c p).sequence = p % wordRange
  ready : ∀ p, s.Published p → ¬ s.Released p →
    (s.cell c p).sequence = p + 1 ∧ s.enqueued[p]? = some (s.cell c p).data
  enq : EnqOk c s
  deq : ∀ t, DeqOk s (s.deq t)

/-- What a dequeuer relies on stays. -/
theorem DeqOk.mono {pc : DeqPc α} (h : DeqOk s pc) (hle : s.dequeuePos ≤ s'.dequeuePos)
    (hpub : ∀ p, s.Published p → s'.Published p)
    (henq : ∀ (p : ℕ) (v : α), s.enqueued[p]? = some v → s'.enqueued[p]? = some v) : DeqOk s' pc := by
  cases pc with
  | idle | loadPos | readData _ => trivial
  | loadSeq pos => exact le_trans h hle
  | cas pos => exact hpub pos h
  | storeSeq pos v => exact henq pos v h

/-- What the enqueuer relies on stays, as long as nobody writes to the cell it is writing. -/
theorem EnqOk.mono (h : EnqOk c s) (hpc : s'.enq = s.enq) (henq : s'.enqueued = s.enqueued)
    (hrel : ∀ p, s.Released p → s'.Released p)
    (hcell : ∀ p, s.enq.busy = some p → s'.cell c p = s.cell c p) : EnqOk c s' := by
  unfold EnqOk at h ⊢
  rw [hpc, henq]
  cases heq : s.enq with
  | idle | loadPos _ => trivial
  | loadSeq _ pos =>
      rw [heq] at h
      exact h
  | storePos _ pos =>
      rw [heq] at h
      exact ⟨h.1, h.2.imp_right (hrel _)⟩
  | writeData _ pos | storeSeq pos =>
      rw [heq] at h
      dsimp only
      rw [hcell pos (by rw [heq]; rfl)]
      exact h

theorem inv_initial (data : ℕ → α) : Inv c (initial data) where
  length_lt := by
    show 0 < wordRange
    decide
  enqueuePos := rfl
  published p h := absurd h (Nat.not_lt_zero p)
  returned p v h := by cases h
  nodup := List.nodup_nil
  held t p h := by cases h
  unique t u p h := by cases h
  claimed p h := absurd h (Nat.not_lt_zero p)
  window p h := absurd h (Nat.not_lt_zero _)
  free p _ hlt _ := by
    have hsize : p < c.size := by simpa [initial] using hlt
    have hword : p < wordRange :=
      hsize.trans_le (Nat.le_of_dvd (Nat.two_pow_pos 64) (size_dvd_wordRange c))
    show cellOf c p = p % wordRange
    rw [cellOf_eq, Nat.mod_eq_of_lt hsize, Nat.mod_eq_of_lt hword]
  ready p h := absurd h.1 (Nat.not_lt_zero p)
  enq := trivial
  deq t := trivial

namespace Inv

theorem dequeuePos_le (h : Inv c s) : s.dequeuePos ≤ s.enqueued.length := by
  by_contra hlt
  have hpub := (h.published s.enqueued.length (by omega)).1
  omega

/-- A position that has not been released is one of the last `S` reserved ones. -/
theorem le_of_not_released (h : Inv c s) {p : ℕ} (hp : ¬ s.Released p) :
    s.enqueued.length ≤ p + c.size := by
  by_contra hlt
  exact hp (h.window p (by omega))

/-- Two of the positions that are reserved and not released have different cells. -/
theorem cellOf_ne (h : Inv c s) {p q : ℕ} (hp : ¬ s.Released p) (hq : ¬ s.Released q)
    (hp' : p < s.enqueued.length) (hq' : q < s.enqueued.length) (hne : p ≠ q) :
    cellOf c p ≠ cellOf c q := by
  have hple := h.le_of_not_released hp
  have hqle := h.le_of_not_released hq
  exact SpmcBoundedQueue.cellOf_ne hne (by omega) (by omega)

/-- A position that is not published yet is not released. -/
theorem not_released_of_busy (h : Inv c s) {p : ℕ} (hp : s.enq.busy = some p) : ¬ s.Released p := by
  rintro ⟨v, hv⟩
  exact (h.published p (h.returned p v hv).1).2 hp

/-- The last position has this sequence number while it is being written. -/
theorem of_busy (h : Inv c s) {p : ℕ} (hp : s.enq.busy = some p) :
    p + 1 = s.enqueued.length ∧ (s.cell c p).sequence = p := by
  have henq := h.enq
  unfold EnqOk at henq
  cases hpc : s.enq with
  | idle | loadPos _ | loadSeq _ _ | storePos _ _ =>
      rw [hpc] at hp
      cases hp
  | writeData v pos =>
      rw [hpc] at hp henq
      obtain rfl := Option.some.inj hp
      exact ⟨henq.1, henq.2.1⟩
  | storeSeq pos =>
      rw [hpc] at hp henq
      obtain rfl := Option.some.inj hp
      exact ⟨henq.1, henq.2.1⟩

/-- The sequence number tells that a position is published. -/
theorem published_of_dif (h : Inv c s) {p : ℕ} (hp : p ≤ s.enqueued.length)
    (hdif : dif (s.cell c p).sequence (addWord p 1) = 0) : s.Published p := by
  have hmod : (s.cell c p).sequence ≡ p + 1 [MOD wordRange] :=
    (modEq_of_dif hdif).trans (Nat.mod_modEq _ _)
  obtain ⟨q, hnq, hqn, hcell⟩ := exists_next c s.enqueued.length p
  -- a sequence number in the class of the position itself is not one more
  have hno : ∀ x, (s.cell c p).sequence = x % wordRange → cellOf c x ≠ cellOf c p := by
    intro x hx heq
    have hcong : x ≡ p + 1 [MOD wordRange] := by
      rw [hx] at hmod
      exact (Nat.mod_modEq x wordRange).symm.trans hmod
    exact cellOf_succ_ne p ((cellOf_congr hcong).symm.trans heq)
  rw [State.cell_congr hcell.symm] at hno hmod
  by_cases hfree : q < c.size ∨ s.Released (q - c.size)
  · exact absurd hcell (hno q (h.free q hnq hqn hfree))
  · rw [not_or, not_lt] at hfree
    obtain ⟨hsize, hrel⟩ := hfree
    have hprev : cellOf c (q - c.size) = cellOf c q := by
      rw [← cellOf_add_size (q - c.size), Nat.sub_add_cancel hsize]
    rw [State.cell_congr hprev.symm] at hno hmod
    have hlt := h.length_lt
    by_cases hbusy : s.enq.busy = some (q - c.size)
    · apply absurd (hprev.trans hcell) (hno _ ?_)
      rw [(h.of_busy hbusy).2, Nat.mod_eq_of_lt (by omega)]
    · have hpub : s.Published (q - c.size) := ⟨by omega, hbusy⟩
      rw [(h.ready _ hpub hrel).1] at hmod
      have heq : q - c.size = p :=
        (Nat.ModEq.add_right_cancel' 1 hmod).eq_of_lt_of_lt (by omega) (by omega)
      rwa [← heq]

/-- When there is room at the next position, the one a capacity earlier has been released. -/
theorem room_of_dif (h : Inv c s) (hbusy : s.enq.busy = none)
    (hdif : dif (s.cell c s.enqueued.length).sequence s.enqueued.length = 0) :
    s.enqueued.length < c.size ∨ s.Released (s.enqueued.length - c.size) := by
  by_contra hnot
  rw [not_or, not_lt] at hnot
  obtain ⟨hsize, hrel⟩ := hnot
  have hpos := two_le_size c
  have hpub : s.Published (s.enqueued.length - c.size) := ⟨by omega, by simp [hbusy]⟩
  have hprev : cellOf c (s.enqueued.length - c.size) = cellOf c s.enqueued.length := by
    rw [← cellOf_add_size (s.enqueued.length - c.size), Nat.sub_add_cancel hsize]
  have hmod := modEq_of_dif hdif
  rw [State.cell_congr hprev.symm, (h.ready _ hpub hrel).1] at hmod
  apply cellOf_succ_ne (c := c) (s.enqueued.length - c.size)
  rw [cellOf_congr hmod, hprev]

/-- When there is no room, it has not. -/
theorem not_room_of_dif (h : Inv c s)
    (hdif : dif (s.cell c s.enqueued.length).sequence s.enqueued.length < 0) :
    c.size ≤ s.enqueued.length ∧ ¬ s.Released (s.enqueued.length - c.size) := by
  by_contra hnot
  have hfree : s.enqueued.length < c.size ∨ s.Released (s.enqueued.length - c.size) := by
    by_contra hno
    rw [not_or, not_lt] at hno
    exact hnot hno
  have hpos := two_le_size c
  rw [h.free _ le_rfl (by omega) hfree, Nat.mod_eq_of_lt h.length_lt, dif_self] at hdif
  exact lt_irrefl 0 hdif

/-! ## The steps -/

/-- The enqueuer moves without touching the ring. -/
theorem moveEnq (h : Inv c s) {pc : EnqPc α} (hbusy : s.enq.busy = none) (hbusy' : pc.busy = none)
    (hok : EnqOk c { s with enq := pc }) : Inv c { s with enq := pc } := by
  have hpub : ∀ p, State.Published { s with enq := pc } p ↔ s.Published p := fun p => by
    simp [State.Published, hbusy, hbusy']
  exact { h with
    published := fun p hp => (hpub p).mpr (h.published p hp)
    ready := fun p hp => h.ready p ((hpub p).mp hp)
    enq := hok
    deq := fun t => (h.deq t).mono le_rfl (fun p => (hpub p).mpr) (fun _ _ => id) }

/-- A dequeuer moves without touching the ring. -/
theorem moveDeq (h : Inv c s) {t : ℕ} {pc : DeqPc α} (hheld : pc.held = (s.deq t).held)
    (hok : DeqOk s pc) : Inv c (s.setDeq t pc) := by
  have hsame : ∀ u, ((s.setDeq t pc).deq u).held = (s.deq u).held := by
    intro u
    simp only [State.setDeq, update_apply]
    split
    · rename_i hut
      rw [hut, hheld]
    · rfl
  exact { h with
    held := fun u p hu => h.held u p (by rwa [← hsame])
    unique := fun u u' p hu hu' => h.unique u u' p (by rwa [← hsame]) (by rwa [← hsame])
    claimed := fun p hp => (h.claimed p hp).imp_right fun ⟨u, hu⟩ => ⟨u, by rwa [hsame]⟩
    deq := fun u => by
      simp only [State.setDeq, update_apply]
      split
      · exact hok
      · exact h.deq u }

/-- The next position is reserved. -/
theorem reserve (h : Inv c s) {v : α} {pos : ℕ} (hpc : s.enq = .storePos v pos)
    (hwrap : pos + 1 < wordRange) :
    Inv c { s with
      enqueuePos := addWord pos 1
      enqueued := s.enqueued ++ [v]
      enq := .writeData v pos } := by
  have henq := h.enq
  simp only [EnqOk, hpc] at henq
  obtain ⟨rfl, hfree⟩ := henq
  have hpos := two_le_size c
  have hle := h.dequeuePos_le
  have hbusy : s.enq.busy = none := by
    rw [hpc]
    rfl
  have happend : ∀ (p : ℕ) (w : α), s.enqueued[p]? = some w → (s.enqueued ++ [v])[p]? = some w := by
    intro p w hw
    rw [List.getElem?_append_left (List.getElem?_eq_some_iff.mp hw).1, hw]
  have hnot : ¬ s.Released s.enqueued.length := by
    rintro ⟨w, hw⟩
    have hlt := (h.returned _ w hw).1
    omega
  have hpub : ∀ p, s.Published p → p < (s.enqueued ++ [v]).length ∧
      EnqPc.busy (.writeData v s.enqueued.length) ≠ some p := by
    intro p hp
    have hlt := hp.1
    refine ⟨by simp only [List.length_append, List.length_singleton]; omega, ?_⟩
    simp only [EnqPc.busy, ne_eq, Option.some.injEq]
    omega
  exact {
    length_lt := by simpa using hwrap
    enqueuePos := by
      show addWord s.enqueued.length 1 = (s.enqueued ++ [v]).length
      rw [addWord, Nat.mod_eq_of_lt hwrap, List.length_append, List.length_singleton]
    published := fun p hp => hpub p (h.published p hp)
    returned := fun p w hw => ⟨(h.returned p w hw).1, happend p w (h.returned p w hw).2⟩
    nodup := h.nodup
    held := h.held
    unique := h.unique
    claimed := h.claimed
    window := by
      intro p hp
      simp only [List.length_append, List.length_singleton] at hp
      by_cases hlast : p + c.size = s.enqueued.length
      · have hrel := hfree.resolve_left (by omega)
        rwa [← hlast, Nat.add_sub_cancel] at hrel
      · exact h.window p (by omega)
    free := by
      intro p hp hp' hfree'
      simp only [List.length_append, List.length_singleton] at hp hp'
      by_cases hlast : p = s.enqueued.length + c.size
      · rw [hlast, Nat.add_sub_cancel] at hfree'
        exact absurd (hfree'.resolve_left (by omega)) hnot
      · exact h.free p (by omega) (by omega) hfree'
    ready := by
      intro p hp hrel
      have hlt := hp.1
      have hne := hp.2
      simp only [List.length_append, List.length_singleton] at hlt
      simp only [EnqPc.busy, ne_eq, Option.some.injEq] at hne
      obtain ⟨hseq, hdata⟩ := h.ready p ⟨by omega, by simp [hbusy]⟩ hrel
      exact ⟨hseq, happend p _ hdata⟩
    enq := by
      refine ⟨by simp, ?_, by simp⟩
      exact (h.free _ le_rfl (by omega) hfree).trans (Nat.mod_eq_of_lt h.length_lt)
    deq := fun t => (h.deq t).mono le_rfl hpub happend }

/-- The value of the reserved position is written. No dequeuer can be reading that cell. -/
theorem writeData (h : Inv c s) {v : α} {pos : ℕ} (hpc : s.enq = .writeData v pos) :
    Inv c { s.writeData c pos v with enq := .storeSeq pos } := by
  have henq := h.enq
  simp only [EnqOk, hpc] at henq
  obtain ⟨hlast, hseq, hval⟩ := henq
  have hbusy : s.enq.busy = some pos := by
    rw [hpc]
    rfl
  have hpub : ∀ p, State.Published { s.writeData c pos v with enq := .storeSeq pos } p ↔
      s.Published p := fun p => by rw [State.Published, State.Published, hbusy]; rfl
  exact { h with
    published := fun p hp => (hpub p).mpr (h.published p hp)
    free := fun p hp hp' hfree => (State.sequence_writeData s pos p v).trans (h.free p hp hp' hfree)
    ready := by
      intro p hp hrel
      rw [hpub] at hp
      obtain ⟨hseq', hdata⟩ := h.ready p hp hrel
      have hne : p ≠ pos := by
        rintro rfl
        exact hp.2 hbusy
      have hcell := h.cellOf_ne hrel (h.not_released_of_busy hbusy) hp.1 (by omega) hne
      have hsame : (s.writeData c pos v).cell c p = s.cell c p := State.cell_writeData_of_ne v hcell
      exact ⟨(congrArg Cell.sequence hsame).trans hseq',
        hdata.trans (congrArg (fun x => some x.data) hsame.symm)⟩
    enq := by
      refine ⟨hlast, (State.sequence_writeData s pos pos v).trans hseq, ?_⟩
      show s.enqueued[pos]? = some ((s.writeData c pos v).cell c pos).data
      rw [hval, State.cell_writeData_self]
    deq := fun t => (h.deq t).mono le_rfl (fun p => (hpub p).mpr) (fun _ _ => id) }

/-- A later position in the cell of `pos` is a whole ring away. -/
theorem cellOf_ne_of_next {p pos : ℕ} (hlt : pos < p) (hlt' : p < pos + 2 * c.size)
    (hne : p ≠ pos + c.size) : cellOf c p ≠ cellOf c pos := by
  rw [← cellOf_add_size pos]
  exact SpmcBoundedQueue.cellOf_ne hne (by omega) (by omega)

/-- The reserved position is published. -/
theorem publish (h : Inv c s) {pos : ℕ} (hpc : s.enq = .storeSeq pos) :
    Inv c { s.storeSeq c pos (addWord pos 1) with enq := .idle } := by
  have henq := h.enq
  simp only [EnqOk, hpc] at henq
  obtain ⟨hlast, hseq, hval⟩ := henq
  have hlt := h.length_lt
  have hpos := two_le_size c
  have hbusy : s.enq.busy = some pos := by
    rw [hpc]
    rfl
  have hnot := h.not_released_of_busy hbusy
  have hpub : ∀ p, s.Published p →
      State.Published { s.storeSeq c pos (addWord pos 1) with enq := .idle } p :=
    fun p hp => ⟨hp.1, by simp [EnqPc.busy]⟩
  exact { h with
    published := fun p hp => hpub p (h.published p hp)
    free := by
      intro p hp hp' hfree
      have hp : s.enqueued.length ≤ p := hp
      have hp' : p < s.enqueued.length + c.size := hp'
      have hne : p ≠ pos + c.size := by
        rintro rfl
        rw [Nat.add_sub_cancel] at hfree
        exact hnot (hfree.resolve_left (by omega))
      have hcell : cellOf c p ≠ cellOf c pos := cellOf_ne_of_next (by omega) (by omega) hne
      exact (congrArg Cell.sequence (State.cell_storeSeq_of_ne _ hcell)).trans
        (h.free p hp hp' hfree)
    ready := by
      intro p hp hrel
      have hp : p < s.enqueued.length := hp.1
      show ((s.storeSeq c pos _).cell c p).sequence = p + 1 ∧
        s.enqueued[p]? = some ((s.storeSeq c pos _).cell c p).data
      by_cases heq : p = pos
      · rw [heq, State.cell_storeSeq_self]
        exact ⟨Nat.mod_eq_of_lt (by omega), hval⟩
      · have hcell := h.cellOf_ne hrel hnot hp (by omega) heq
        rw [State.cell_storeSeq_of_ne _ hcell]
        apply h.ready p ⟨hp, ?_⟩ hrel
        rw [hbusy, ne_eq, Option.some.injEq]
        exact Ne.symm heq
    enq := trivial
    deq := fun t => (h.deq t).mono le_rfl hpub (fun _ _ => id) }

/-- A published position is claimed. -/
theorem claim (h : Inv c s) {t : ℕ} (hpc : s.deq t = .cas s.dequeuePos) :
    Inv c ({ s with dequeuePos := addWord s.dequeuePos 1 }.setDeq t (.readData s.dequeuePos)) := by
  have hpub : s.Published s.dequeuePos := by
    have hdeq := h.deq t
    rwa [hpc] at hdeq
  have hlt := h.length_lt
  have hnext : addWord s.dequeuePos 1 = s.dequeuePos + 1 :=
    Nat.mod_eq_of_lt (by have := hpub.1; omega)
  rw [hnext]
  have hheld : ∀ u p, (update s.deq t (.readData s.dequeuePos) u).held = some p →
      (u = t ∧ p = s.dequeuePos) ∨ (u ≠ t ∧ (s.deq u).held = some p) := by
    intro u p hu
    by_cases hut : u = t
    · rw [hut, update_self] at hu
      exact .inl ⟨hut, (Option.some.inj hu).symm⟩
    · rw [update_of_ne hut] at hu
      exact .inr ⟨hut, hu⟩
  exact { h with
    published := by
      intro p hp
      rcases Nat.lt_succ_iff_lt_or_eq.mp hp with hp | rfl
      · exact h.published p hp
      · exact hpub
    returned := fun p v hv => ⟨Nat.lt_succ_of_lt (h.returned p v hv).1, (h.returned p v hv).2⟩
    held := by
      intro u p hu
      rcases hheld u p hu with ⟨-, rfl⟩ | ⟨-, hu⟩
      · refine ⟨Nat.lt_succ_self _, ?_⟩
        rintro ⟨v, hv⟩
        exact lt_irrefl _ (h.returned _ v hv).1
      · exact ⟨Nat.lt_succ_of_lt (h.held u p hu).1, (h.held u p hu).2⟩
    unique := by
      intro u u' p hu hu'
      rcases hheld u p hu with ⟨hu, hp⟩ | ⟨hu, hp⟩ <;>
        rcases hheld u' p hu' with ⟨hu', hp'⟩ | ⟨hu', hp'⟩
      · rw [hu, hu']
      · have hlt := (h.held u' p hp').1
        omega
      · have hlt := (h.held u p hp).1
        omega
      · exact h.unique u u' p hp hp'
    claimed := by
      intro p hp
      rcases Nat.lt_succ_iff_lt_or_eq.mp hp with hp | rfl
      · refine (h.claimed p hp).imp_right fun ⟨u, hu⟩ => ⟨u, ?_⟩
        have hut : u ≠ t := by
          rintro rfl
          rw [hpc] at hu
          cases hu
        show (update s.deq t _ u).held = some p
        rw [update_of_ne hut, hu]
      · refine .inr ⟨t, ?_⟩
        show (update s.deq t _ t).held = _
        rw [update_self]
        rfl
    deq := by
      intro u
      show DeqOk _ (update s.deq t _ u)
      by_cases hut : u = t
      · rw [hut, update_self]
        trivial
      · rw [update_of_ne hut]
        exact (h.deq u).mono (Nat.le_succ _) (fun _ => id) (fun _ _ => id) }

/-- The value that a dequeuer reads is the one enqueued at its position. -/
theorem readData (h : Inv c s) {t pos : ℕ} (hpc : s.deq t = .readData pos) :
    s.enqueued[pos]? = some (s.cell c pos).data := by
  obtain ⟨hlt, hrel⟩ := h.held t pos (by rw [hpc]; rfl)
  exact (h.ready pos (h.published pos hlt) hrel).2

/-- A claimed position is released, and its cell is free again. -/
theorem release (h : Inv c s) {t pos : ℕ} {v : α} (hpc : s.deq t = .storeSeq pos v) :
    Inv c ({ s.storeSeq c pos (addWord (pos + bufferMask c) 1) with
      returned := s.returned ++ [(pos, v)] }.setDeq t .idle) := by
  have hheld : (s.deq t).held = some pos := by
    rw [hpc]
    rfl
  obtain ⟨hclaimed, hnot⟩ := h.held t pos hheld
  have hpub := h.published pos hclaimed
  have hlast := hpub.1
  have hwindow := h.le_of_not_released hnot
  have hpos := two_le_size c
  have hval : s.enqueued[pos]? = some v := by
    have hdeq := h.deq t
    rwa [hpc] at hdeq
  have hseq : addWord (pos + bufferMask c) 1 = (pos + c.size) % wordRange := by
    rw [addWord, bufferMask]
    congr 1
    omega
  rw [hseq]
  have hrel : ∀ p, (∃ w, (p, w) ∈ s.returned ++ [(pos, v)]) ↔ s.Released p ∨ p = pos := by
    intro p
    simp only [List.mem_append, List.mem_singleton, Prod.mk.injEq, exists_or]
    exact or_congr_right ⟨fun ⟨_, hp, _⟩ => hp, fun hp => ⟨v, hp, rfl⟩⟩
  have hother : ∀ u p, (update s.deq t .idle u).held = some p →
      (s.deq u).held = some p ∧ p ≠ pos := by
    intro u p hu
    by_cases hut : u = t
    · rw [hut, update_self] at hu
      cases hu
    · rw [update_of_ne hut] at hu
      refine ⟨hu, ?_⟩
      rintro rfl
      exact hut (h.unique u t p hu hheld)
  exact { h with
    returned := by
      intro p w hw
      rcases List.mem_append.mp hw with hw | hw
      · exact h.returned p w hw
      · obtain ⟨rfl, rfl⟩ := Prod.mk.inj (List.mem_singleton.mp hw)
        exact ⟨hclaimed, hval⟩
    nodup := by
      show ((s.returned ++ [(pos, v)]).map Prod.fst).Nodup
      rw [List.map_append, List.nodup_append]
      refine ⟨h.nodup, by simp, ?_⟩
      intro p hp q hq heq
      obtain ⟨⟨p', w⟩, hmem, rfl⟩ := List.mem_map.mp hp
      obtain rfl : p' = pos := heq.trans (List.mem_singleton.mp hq)
      exact hnot ⟨w, hmem⟩
    held := by
      intro u p hu
      obtain ⟨hu, hne⟩ := hother u p hu
      refine ⟨(h.held u p hu).1, fun hp => ?_⟩
      exact ((hrel p).mp hp).elim (h.held u p hu).2 hne
    unique := fun u u' p hu hu' => h.unique u u' p (hother u p hu).1 (hother u' p hu').1
    claimed := by
      intro p hp
      by_cases heq : p = pos
      · exact .inl ((hrel p).mpr (.inr heq))
      · rcases h.claimed p hp with hp | ⟨u, hu⟩
        · exact .inl ((hrel p).mpr (.inl hp))
        · refine .inr ⟨u, ?_⟩
          have hut : u ≠ t := by
            rintro rfl
            rw [hheld] at hu
            exact heq (Option.some.inj hu).symm
          show (update s.deq t _ u).held = some p
          rw [update_of_ne hut, hu]
    window := fun p hp => (hrel p).mpr (.inl (h.window p hp))
    free := by
      intro p hp hp' hfree
      have hp : s.enqueued.length ≤ p := hp
      have hp' : p < s.enqueued.length + c.size := hp'
      show ((s.storeSeq c pos _).cell c p).sequence = p % wordRange
      by_cases heq : p = pos + c.size
      · have hcell : cellOf c p = cellOf c pos := by rw [heq, cellOf_add_size]
        rw [State.cell_congr hcell, State.cell_storeSeq_self, heq]
      · rw [State.cell_storeSeq_of_ne _ (cellOf_ne_of_next (by omega) (by omega) heq)]
        apply h.free p hp hp'
        by_cases hsize : p < c.size
        · exact .inl hsize
        · have hold := (hrel (p - c.size)).mp (hfree.resolve_left hsize)
          exact .inr (hold.resolve_right (by omega))
    ready := by
      intro p hp hrel'
      have hsplit : ¬ s.Released p ∧ p ≠ pos := not_or.mp fun hp' => hrel' ((hrel p).mpr hp')
      have hcell := h.cellOf_ne hsplit.1 hnot hp.1 hlast hsplit.2
      show ((s.storeSeq c pos _).cell c p).sequence = p + 1 ∧
        s.enqueued[p]? = some ((s.storeSeq c pos _).cell c p).data
      rw [State.cell_storeSeq_of_ne _ hcell]
      exact h.ready p hp hsplit.1
    enq := by
      refine h.enq.mono rfl rfl (fun p hp => (hrel p).mpr (.inl hp)) ?_
      -- the cell that is being written is not the one that is released
      intro p hp
      apply State.cell_storeSeq_of_ne
      have hlt := (h.of_busy hp).1
      apply h.cellOf_ne (h.not_released_of_busy hp) hnot (by omega) hlast
      rintro rfl
      exact hpub.2 hp
    deq := by
      intro u
      show DeqOk _ (update s.deq t _ u)
      by_cases hut : u = t
      · rw [hut, update_self]
        trivial
      · rw [update_of_ne hut]
        exact (h.deq u).mono le_rfl (fun _ => id) (fun _ _ => id) }

theorem step (h : Inv c s) {a : Action α} (hok : NoWrap s a) (hs : Step c s a s') : Inv c s' := by
  cases hs with
  | enqueue hpc => exact h.moveEnq (by rw [hpc]; rfl) rfl trivial
  | loadEnq hpc => exact h.moveEnq (by rw [hpc]; rfl) rfl h.enqueuePos
  | @room v pos hpc hdif =>
      have hbusy : s.enq.busy = none := by
        rw [hpc]
        rfl
      have hpos : pos = s.enqueued.length := by
        have henq := h.enq
        rwa [EnqOk, hpc] at henq
      rw [hpos] at hdif ⊢
      exact h.moveEnq hbusy rfl ⟨rfl, h.room_of_dif hbusy hdif⟩
  | full hpc _ => exact h.moveEnq (by rw [hpc]; rfl) rfl trivial
  | staleEnq hpc _ => exact h.moveEnq (by rw [hpc]; rfl) rfl trivial
  | reserve hpc =>
      simp only [NoWrap, hpc] at hok
      exact h.reserve hpc hok
  | writeData hpc => exact h.writeData hpc
  | publish hpc => exact h.publish hpc
  | dequeue hpc => exact h.moveDeq (by rw [hpc]; rfl) trivial
  | loadDeq hpc =>
      apply h.moveDeq (by rw [hpc]; rfl)
      exact le_refl s.dequeuePos
  | @ready t pos hpc hdif =>
      apply h.moveDeq (by rw [hpc]; rfl)
      have hpos : pos ≤ s.dequeuePos := by
        have hdeq := h.deq t
        rwa [hpc] at hdeq
      exact h.published_of_dif (hpos.trans h.dequeuePos_le) hdif
  | empty hpc _ => exact h.moveDeq (by rw [hpc]; rfl) trivial
  | staleDeq hpc _ => exact h.moveDeq (by rw [hpc]; rfl) trivial
  | claim hpc => exact h.claim hpc
  | lost hpc _ =>
      apply h.moveDeq (by rw [hpc]; rfl)
      exact le_refl s.dequeuePos
  | casFails hpc =>
      apply h.moveDeq (by rw [hpc]; rfl)
      exact le_refl s.dequeuePos
  | readData hpc => exact h.moveDeq (by rw [hpc]; rfl) (h.readData hpc)
  | release hpc => exact h.release hpc

end Inv

theorem inv_of_run (h : (machine α c).Run NoWrap s) : Inv c s := by
  apply h.invariant
  · rintro s ⟨data, rfl⟩
    exact inv_initial data
  · intro s a s' _ hinv hok hs
    exact hinv.step hok (step_cases hs)

/-! ## The abstract queue -/

/-- The values reserved so far and the number of claimed ones. -/
def State.fifo (s : State α) : BoundedFifo α := ⟨s.enqueued, s.dequeuePos⟩

/-- The queue refines the bounded FIFO: a value is put when its position is reserved, and taken when
its position is claimed. -/
theorem refines_boundedFifo (h : (machine α c).Run NoWrap s) :
    (BoundedFifo.machine α c.size).Reachable s.fifo := by
  refine h.project State.fifo ?_ ?_
  · rintro s ⟨data, rfl⟩
    rfl
  · intro s a s' hr _ hok hs
    have hinv := inv_of_run hr
    cases step_cases hs with
    | @reserve v pos hpc =>
        have henq := hinv.enq
        simp only [EnqOk, hpc] at henq
        obtain ⟨rfl, hfree⟩ := henq
        refine .inr ⟨.put v, trivial, if_pos ?_⟩
        show s.enqueued.length < s.dequeuePos + c.size
        rcases hfree with hfree | ⟨w, hw⟩
        · omega
        · have hlt := (hinv.returned _ w hw).1
          omega
    | @claim t hpc =>
        have hpub : s.Published s.dequeuePos := by
          have hdeq := hinv.deq t
          rwa [hpc] at hdeq
        have hnext : addWord s.dequeuePos 1 = s.dequeuePos + 1 :=
          Nat.mod_eq_of_lt (by have := hpub.1; have := hinv.length_lt; omega)
        refine .inr ⟨.take, trivial, ?_⟩
        rw [hnext]
        exact if_pos hpub.1
    | _ => exact .inl rfl

/-! ## The result -/

/-- The dequeue that has claimed position `p` has returned `v` or is about to: it has read `v`, or
would read it now. -/
def State.Yields (c : Capacity) (s : State α) (p : ℕ) (v : α) : Prop :=
  (p, v) ∈ s.returned ∨
    ∃ t, s.deq t = .storeSeq p v ∨ (s.deq t = .readData p ∧ (s.cell c p).data = v)

/-- What the queue promises. In the order of their positions the successful dequeues yield the values
that were enqueued first, and these are what has been returned as soon as no dequeue is in between; every
position is the business of one dequeue; nobody writes to a cell between the compare-and-exchange that
claims it and the read of its value; there are at most `S` values that are enqueued and not claimed; and
`enqueue` is about to return `false` only while the value `S` positions earlier has not been fully
dequeued. -/
structure IsFifo (c : Capacity) (s : State α) : Prop where
  order : ∃ l : List (ℕ × α), (∀ p v, (p, v) ∈ l ↔ s.Yields c p v) ∧
    l.map Prod.fst = List.range s.dequeuePos ∧ l.map Prod.snd <+: s.enqueued ∧
    ((∀ t, (s.deq t).held = none) → s.returned.Perm l)
  once : (s.returned.map Prod.fst).Nodup ∧
    (∀ t p, (s.deq t).held = some p → ¬ s.Released p) ∧
    ∀ t u p, (s.deq t).held = some p → (s.deq u).held = some p → t = u
  undisturbed : ∀ t p v q, s.deq t = .readData p → s.enq = .writeData v q → cellOf c q ≠ cellOf c p
  bounded : s.dequeuePos ≤ s.enqueued.length ∧ s.enqueued.length ≤ s.dequeuePos + c.size
  full : ∀ v pos, s.enq = .loadSeq v pos → dif (s.cell c pos).sequence pos < 0 →
    pos = s.enqueued.length ∧ c.size ≤ pos ∧ ¬ s.Released (pos - c.size)

theorem Inv.yields_iff (h : Inv c s) {p : ℕ} {v : α} :
    s.Yields c p v ↔ p < s.dequeuePos ∧ s.enqueued[p]? = some v := by
  constructor
  · rintro (hmem | ⟨t, hpc | ⟨hpc, hv⟩⟩)
    · exact h.returned p v hmem
    · have hdeq := h.deq t
      rw [hpc] at hdeq
      exact ⟨(h.held t p (by rw [hpc]; rfl)).1, hdeq⟩
    · rw [← hv]
      exact ⟨(h.held t p (by rw [hpc]; rfl)).1, h.readData hpc⟩
  · rintro ⟨hlt, hval⟩
    rcases h.claimed p hlt with ⟨w, hw⟩ | ⟨t, ht⟩
    · have hsame := (h.returned p w hw).2
      rw [hval, Option.some.injEq] at hsame
      rw [hsame]
      exact .inl hw
    · refine .inr ⟨t, ?_⟩
      cases hpc : s.deq t with
      | idle | loadPos | loadSeq _ | cas _ =>
          rw [hpc] at ht
          cases ht
      | readData q =>
          rw [hpc] at ht
          obtain rfl := Option.some.inj ht
          have hread := h.readData hpc
          rw [hval, Option.some.injEq] at hread
          exact .inr ⟨rfl, hread.symm⟩
      | storeSeq q w =>
          rw [hpc] at ht
          obtain rfl := Option.some.inj ht
          have hdeq := h.deq t
          rw [hpc] at hdeq
          obtain rfl := Option.some.inj (hval.symm.trans hdeq)
          exact .inl rfl

private theorem mem_zip_range {n p : ℕ} {l : List α} {v : α} :
    (p, v) ∈ (List.range n).zip (l.take n) ↔ p < n ∧ l[p]? = some v := by
  rw [List.mem_iff_getElem?]
  simp only [List.getElem?_zip_eq_some]
  constructor
  · rintro ⟨i, hi, hv⟩
    obtain ⟨hlt, rfl⟩ := List.getElem?_eq_some_iff.mp hi
    rw [List.length_range] at hlt
    rw [List.getElem?_take_of_lt hlt] at hv
    rw [List.getElem_range]
    exact ⟨hlt, hv⟩
  · rintro ⟨hp, hv⟩
    exact ⟨p, List.getElem?_range hp, by rwa [List.getElem?_take_of_lt hp]⟩

namespace Inv

theorem order (h : Inv c s) : ∃ l : List (ℕ × α), (∀ p v, (p, v) ∈ l ↔ s.Yields c p v) ∧
    l.map Prod.fst = List.range s.dequeuePos ∧ l.map Prod.snd <+: s.enqueued ∧
    ((∀ t, (s.deq t).held = none) → s.returned.Perm l) := by
  have hle := h.dequeuePos_le
  have hlen : (List.range s.dequeuePos).length = (s.enqueued.take s.dequeuePos).length := by
    rw [List.length_range, List.length_take, Nat.min_eq_left hle]
  have hfst := List.map_fst_zip hlen.le
  refine ⟨(List.range s.dequeuePos).zip (s.enqueued.take s.dequeuePos), ?_, hfst, ?_, ?_⟩
  · intro p v
    rw [mem_zip_range, h.yields_iff]
  · rw [List.map_snd_zip hlen.ge]
    exact List.take_prefix _ _
  · intro hidle
    have hnodup : ((List.range s.dequeuePos).zip (s.enqueued.take s.dequeuePos)).Nodup := by
      apply List.Nodup.of_map Prod.fst
      rw [hfst]
      exact List.nodup_range
    refine (List.perm_ext_iff_of_nodup h.nodup.of_map hnodup).mpr ?_
    rintro ⟨p, v⟩
    rw [mem_zip_range, ← h.yields_iff]
    refine ⟨.inl, fun hy => hy.resolve_right ?_⟩
    rintro ⟨t, ht⟩
    have hnone := hidle t
    rcases ht with ht | ⟨ht, -⟩ <;> rw [ht] at hnone <;> cases hnone

/-- The cell that is being written is not one that is being read. -/
theorem undisturbed (h : Inv c s) {t p q : ℕ} {v : α} (hdeq : s.deq t = .readData p)
    (henq : s.enq = .writeData v q) : cellOf c q ≠ cellOf c p := by
  have hbusy : s.enq.busy = some q := by
    rw [henq]
    rfl
  obtain ⟨hclaimed, hrel⟩ := h.held t p (by rw [hdeq]; rfl)
  have hpub := h.published p hclaimed
  have hlast := (h.of_busy hbusy).1
  apply h.cellOf_ne (h.not_released_of_busy hbusy) hrel (by omega) hpub.1
  rintro rfl
  exact hpub.2 hbusy

end Inv

/-- For every capacity, in every state of every run in which positions do not wrap, the queue is a
bounded FIFO. -/
theorem queue_isFifo (c : Capacity) (s : State α) (h : (machine α c).Run NoWrap s) : IsFifo c s := by
  have hinv := inv_of_run h
  refine ⟨hinv.order, ⟨hinv.nodup, fun t p hp => (hinv.held t p hp).2, hinv.unique⟩, ?_,
    BoundedFifo.bounds (refines_boundedFifo h), ?_⟩
  · intro t p v q hdeq henq
    exact hinv.undisturbed hdeq henq
  · intro v pos hpc hdif
    have hpos : pos = s.enqueued.length := by
      have henq := hinv.enq
      rwa [EnqOk, hpc] at henq
    rw [hpos] at hdif ⊢
    exact ⟨rfl, hinv.not_room_of_dif hdif⟩

/-- A guard for short runs. -/
def shortRun (s : State ℕ) : Action ℕ → Bool
  | .enq =>
      match s.enq with
      | .storePos _ pos => pos < 100
      | _ => true
  | _ => true

theorem noWrap_of_shortRun {s : State ℕ} {a : Action ℕ} (h : shortRun s a = true) : NoWrap s a := by
  unfold NoWrap
  unfold shortRun at h
  split
  · split
    · rename_i hpc
      simp only [hpc, decide_eq_true_eq] at h
      have hword : wordRange = 2 ^ 64 := rfl
      omega
    · trivial
  · trivial

/-- Two cells: two values are enqueued, one dequeuer claims the first one and is paused, another one
returns the second, and a third `enqueue` is about to fail. -/
theorem queue_isFifo_paused : ∃ s : State ℕ, s.returned = [(1, 8)] ∧ s.deq 0 = .readData 0 ∧
    s.enq = .loadSeq 9 2 ∧ IsFifo ⟨1, by decide, by decide⟩ s := by
  have heval : ((machine ℕ ⟨1, by decide, by decide⟩).exec shortRun (initial fun _ => 0)
      ([.enqueue 7] ++ List.replicate 5 .enq ++ [.enqueue 8] ++ List.replicate 5 .enq ++
        [.dequeue 0, .dequeue 1, .deq 0, .deq 0, .casFails 0, .deq 0, .deq 0] ++
        List.replicate 5 (.deq 1) ++ [.enqueue 9, .enq])).map
        (fun s => (s.returned, s.deq 0, s.enq)) =
      some ([(1, 8)], .readData 0, .loadSeq 9 2) := by
    decide +kernel
  obtain ⟨s, hs, hval⟩ := Option.map_eq_some_iff.mp heval
  simp only [Prod.mk.injEq] at hval
  obtain ⟨hret, hdeq, henq⟩ := hval
  have hrun : (machine ℕ ⟨1, by decide, by decide⟩).Run NoWrap s :=
    Machine.Run.exec (.init ⟨_, rfl⟩) (fun _ _ => noWrap_of_shortRun) hs
  exact ⟨s, hret, hdeq, henq, queue_isFifo _ s hrun⟩

end SpmcBoundedQueue

end RACoherence
