import Mathlib.Data.Nat.Bitwise
import Mathlib.Logic.Function.Basic
import RACoherence.Lib.Machine

/-!
# The queue behind the freelist

Reference: `include/spmcQueue.hpp`, `spmc_bounded_queue`.

One thread at a time enqueues, any number of threads dequeue. Every access to `enqueue_pos_`, to
`dequeue_pos_`, and to the `sequence_` and `data_` of a cell is one step; a compare-and-exchange may fail
for no reason. Positions are 64-bit words, and a sequence number is compared with a position through
their difference as a signed word.

The last two fields of the state are not in the program: the values for which `enqueue_pos_` has been
moved on, in order, and for every `dequeue` that has returned a value the position it had claimed.
-/

namespace RACoherence

open Function

namespace SpmcBoundedQueue

/-- The capacity `S`: a power of two, at least two, that fits `size_t`. -/
structure Capacity where
  shift : ℕ
  shift_pos : 1 ≤ shift
  shift_lt : shift < 64

/-- `S` -/
def Capacity.size (c : Capacity) : ℕ := 2 ^ c.shift

/-- `size_t` arithmetic is modulo `wordRange`. -/
def wordRange : ℕ := 2 ^ 64

/-- `cell_t` -/
structure Cell (α : Type*) where
  sequence : ℕ
  data : α

/-- Where the enqueuer is; `v` is the value it enqueues. -/
inductive EnqPc (α : Type*)
  | idle
  | loadPos (v : α)
  | loadSeq (v : α) (pos : ℕ)
  | storePos (v : α) (pos : ℕ)
  | writeData (v : α) (pos : ℕ)
  | storeSeq (pos : ℕ)
  deriving DecidableEq

/-- Where a dequeuer is. -/
inductive DeqPc (α : Type*)
  | idle
  | loadPos
  | loadSeq (pos : ℕ)
  | cas (pos : ℕ)
  | readData (pos : ℕ)
  | storeSeq (pos : ℕ) (data : α)
  deriving DecidableEq

structure State (α : Type*) where
  buffer : ℕ → Cell α
  enqueuePos : ℕ
  dequeuePos : ℕ
  enq : EnqPc α
  deq : ℕ → DeqPc α
  enqueued : List α
  returned : List (ℕ × α)

inductive Action (α : Type*)
  | enqueue (v : α)
  | enq
  | dequeue (t : ℕ)
  | deq (t : ℕ)
  | casFails (t : ℕ)
  deriving DecidableEq

variable {α : Type*} (c : Capacity)

/-- `buffer_mask_` -/
def bufferMask : ℕ := c.size - 1

/-- The cell of a position. -/
def cellOf (pos : ℕ) : ℕ := pos &&& bufferMask c

/-- `(intptr_t)x - (intptr_t)y` -/
def dif (x y : ℕ) : ℤ := ((x : ℤ) - y).bmod wordRange

/-- `x + n` on `size_t`. -/
def addWord (x n : ℕ) : ℕ := (x + n) % wordRange

/-- The state after the constructor, which leaves `data_` as it finds it. -/
def initial (data : ℕ → α) : State α where
  buffer i := ⟨i, data i⟩
  enqueuePos := 0
  dequeuePos := 0
  enq := .idle
  deq _ := .idle
  enqueued := []
  returned := []

namespace State

/-- Move the dequeuer `t` to `pc`. -/
def setDeq (s : State α) (t : ℕ) (pc : DeqPc α) : State α := { s with deq := update s.deq t pc }

/-- The cell of a position. -/
def cell (s : State α) (pos : ℕ) : Cell α := s.buffer (cellOf c pos)

/-- `cell->sequence_.store(seq)` -/
def storeSeq (s : State α) (pos seq : ℕ) : State α :=
  { s with buffer := update s.buffer (cellOf c pos) { s.cell c pos with sequence := seq } }

/-- `cell->data_ = data` -/
def writeData (s : State α) (pos : ℕ) (data : α) : State α :=
  { s with buffer := update s.buffer (cellOf c pos) { s.cell c pos with data := data } }

end State

/-- The next step of the enqueuer in `enqueue`. -/
def stepEnq (s : State α) : Option (State α) :=
  match s.enq with
  | .idle => none
  | .loadPos v => some { s with enq := .loadSeq v s.enqueuePos }
  | .loadSeq v pos =>
      let d := dif (s.cell c pos).sequence pos
      if d = 0 then some { s with enq := .storePos v pos }
      else if d < 0 then some { s with enq := .idle } -- returns false
      else some { s with enq := .loadPos v }
  | .storePos v pos =>
      some { s with
        enqueuePos := addWord pos 1
        enqueued := s.enqueued ++ [v]
        enq := .writeData v pos }
  | .writeData v pos => some { s.writeData c pos v with enq := .storeSeq pos }
  | .storeSeq pos => some { s.storeSeq c pos (addWord pos 1) with enq := .idle }

/-- The next step of dequeuer `t` in `dequeue`. -/
def stepDeq (s : State α) (t : ℕ) : Option (State α) :=
  match s.deq t with
  | .idle => none
  | .loadPos => some (s.setDeq t (.loadSeq s.dequeuePos))
  | .loadSeq pos =>
      let d := dif (s.cell c pos).sequence (addWord pos 1)
      if d = 0 then some (s.setDeq t (.cas pos))
      else if d < 0 then some (s.setDeq t .idle) -- returns false
      else some (s.setDeq t .loadPos)
  | .cas pos =>
      if s.dequeuePos = pos then
        some ({ s with dequeuePos := addWord pos 1 }.setDeq t (.readData pos))
      else some (s.setDeq t (.loadSeq s.dequeuePos))
  | .readData pos => some (s.setDeq t (.storeSeq pos (s.cell c pos).data))
  | .storeSeq pos v =>
      some ({ s.storeSeq c pos (addWord (pos + bufferMask c) 1) with
        returned := s.returned ++ [(pos, v)] }.setDeq t .idle)

/-- One step; `none` when the action is not enabled. -/
def step (s : State α) : Action α → Option (State α)
  | .enqueue v =>
      match s.enq with
      | .idle => some { s with enq := .loadPos v }
      | _ => none
  | .enq => stepEnq c s
  | .dequeue t =>
      match s.deq t with
      | .idle => some (s.setDeq t .loadPos)
      | _ => none
  | .deq t => stepDeq c s t
  | .casFails t =>
      match s.deq t with
      | .cas _ => some (s.setDeq t (.loadSeq s.dequeuePos))
      | _ => none

/-- The queue as a transition system. -/
def machine (α : Type*) (c : Capacity) : Machine (State α) (Action α) where
  init s := ∃ data, s = initial data
  step := step c

/-- Positions do not wrap: `enqueue` moves `enqueue_pos_` on to a position below `2 ^ 64`. -/
def NoWrap (s : State α) : Action α → Prop
  | .enq =>
      match s.enq with
      | .storePos _ pos => pos + 1 < wordRange
      | _ => True
  | _ => True

end SpmcBoundedQueue

end RACoherence
