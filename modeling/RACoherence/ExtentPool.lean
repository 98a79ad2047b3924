import Mathlib.Logic.Function.Basic
import RACoherence.Config
import RACoherence.Lib.Bits
import RACoherence.Lib.Machine

/-!
# The bump allocator

Reference: `include/extentPool.hpp`, `ExtentPool::allocate`.

Any number of threads allocate from one pool. The load of `offset_` and every compare-and-exchange is a
step, and a compare-and-exchange may fail for no reason. Addresses, sizes and offsets are 64-bit words and
all sums are modulo `2 ^ 64`; a null pointer is the address 0.

The check for space adds the size to the aligned offset before it compares, so that a huge size wraps the
sum and passes: `offset_` then moves back, and blocks that have been handed out are handed out again. In
runs in which no check is passed like that, and no block is put at the address 0, the pool is safe.

Not in the program are the calls that have returned, and whether the call of a thread has changed
`offset_`.
-/

namespace RACoherence

open Function

/-- `base_` and `size_` -/
structure ExtentPool where
  base : ℕ
  size : ℕ
  fits : base + size < 2 ^ 64

namespace ExtentPool

/-- `size_t` and `uintptr_t` arithmetic is modulo `wordRange`. -/
def wordRange : ℕ := 2 ^ 64

/-- The arguments of `allocate`; the alignment is a power of two. -/
structure Request where
  size : ℕ
  alignShift : ℕ
  deriving DecidableEq, Repr

/-- `alignment` -/
def Request.alignment (r : Request) : ℕ := 1 <<< r.alignShift

/-- The arguments are 64-bit words. -/
def Request.Valid (r : Request) : Prop := r.size < wordRange ∧ r.alignShift < 64

instance (r : Request) : Decidable r.Valid := inferInstanceAs (Decidable (_ ∧ _))

/-- Where a thread is in `allocate`. -/
inductive Pc
  | idle
  | load (r : Request)
  | check (r : Request) (cur : ℕ)
  | cas (r : Request) (cur : ℕ)
  deriving DecidableEq, Repr

/-- A call that has returned: its result, and whether it has changed `offset_`. -/
structure Call where
  request : Request
  result : ℕ
  moved : Bool
  deriving DecidableEq, Repr

structure State where
  offset : ℕ
  pc : ℕ → Pc
  moved : ℕ → Bool
  calls : List Call

inductive Action
  | allocate (t : ℕ) (r : Request)
  | thread (t : ℕ)
  | casFails (t : ℕ)
  deriving DecidableEq, Repr

def initial : State where
  offset := 0
  pc _ := .idle
  moved _ := false
  calls := []

variable (pool : ExtentPool)

/-- `aligned_addr` -/
def alignedAddr (r : Request) (cur : ℕ) : ℕ :=
  let startAddr := (pool.base + cur) % wordRange
  if r.alignment > 1 then
    ((startAddr + (r.alignment - 1)) % wordRange) &&& (wordRange - 1 - (r.alignment - 1))
  else startAddr

/-- `aligned_offset` -/
def alignedOffset (r : Request) (cur : ℕ) : ℕ :=
  (pool.alignedAddr r cur + (wordRange - pool.base)) % wordRange

/-- `aligned_offset + size`, which is also `next`. -/
def next (r : Request) (cur : ℕ) : ℕ := (pool.alignedOffset r cur + r.size) % wordRange

namespace State

/-- Move thread `t` to `pc`. -/
def setPc (s : State) (t : ℕ) (pc : Pc) : State := { s with pc := update s.pc t pc }

/-- The call of thread `t` returns. -/
def ret (s : State) (t : ℕ) (r : Request) (result : ℕ) : State :=
  { s.setPc t .idle with calls := s.calls ++ [⟨r, result, s.moved t⟩] }

/-- `offset_` becomes `next` in a step of thread `t`. -/
def store (s : State) (t next : ℕ) : State :=
  { s with
    offset := next
    moved := update s.moved t (s.moved t || decide (next ≠ s.offset)) }

end State

/-- The next step of thread `t` in `allocate`. -/
def stepThread (s : State) (t : ℕ) : Option State :=
  match s.pc t with
  | .idle => none
  | .load r => some (s.setPc t (.check r s.offset))
  | .check r cur =>
      if pool.next r cur > pool.size then some (s.ret t r 0)
      else some (s.setPc t (.cas r cur))
  | .cas r cur =>
      if s.offset = cur then
        some ((s.store t (pool.next r cur)).ret t r (pool.alignedAddr r cur))
      else some (s.setPc t (.check r s.offset))

/-- One step; `none` when the action is not enabled. -/
def step (s : State) : Action → Option State
  | .allocate t r =>
      if s.pc t = .idle ∧ r.Valid then
        some ({ s with moved := update s.moved t false }.setPc t (.load r))
      else none
  | .thread t => stepThread pool s t
  | .casFails t =>
      match s.pc t with
      | .cas r _ => some (s.setPc t (.check r s.offset))
      | _ => none

/-- The pool as a transition system. -/
def machine : Machine State Action where
  init s := s = initial
  step := step pool

/-- A check for space that is passed is passed without the sum wrapping, and the block is not put at the
address 0 (where only a block that takes no space does no harm). -/
def PassesChecked (s : State) : Action → Prop
  | .thread t =>
      match s.pc t with
      | .check r cur => pool.next r cur ≤ pool.size →
          pool.alignedOffset r cur + r.size < wordRange ∧
            (pool.alignedAddr r cur = 0 → pool.next r cur = cur)
      | _ => True
  | _ => True

/-- What a pool promises: every block is aligned and lies in the buffer, the blocks of two calls are
disjoint, `offset_` stays within the buffer, and a call that returns a null pointer has not changed it. -/
structure Safe (s : State) : Prop where
  block : ∀ c ∈ s.calls, c.result ≠ 0 → c.result % c.request.alignment = 0 ∧
    pool.base ≤ c.result ∧ c.result + c.request.size ≤ pool.base + pool.size
  disjoint : s.calls.Pairwise fun c d => c.result ≠ 0 → d.result ≠ 0 →
    c.result + c.request.size ≤ d.result ∨ d.result + d.request.size ≤ c.result
  offset_le : s.offset ≤ pool.size
  null : ∀ c ∈ s.calls, c.result = 0 → c.moved = false

/-- `offset_` never decreases in what follows. -/
def NeverDecreases (ok : State → Action → Prop) (s : State) : Prop :=
  ∀ s', Relation.ReflTransGen ((machine pool).Next ok) s s' → s.offset ≤ s'.offset

/-! ## Rounding up -/

variable {pool} {s s' : State}

theorem alignedAddr_eq {r : Request} (hr : r.alignShift < 64) (cur : ℕ) :
    pool.alignedAddr r cur = ((pool.base + cur) % wordRange + (2 ^ r.alignShift - 1)) % wordRange /
      2 ^ r.alignShift * 2 ^ r.alignShift := by
  have hlt := Nat.mod_lt (pool.base + cur) (show 0 < wordRange by decide)
  rw [alignedAddr, Request.alignment, Nat.one_shiftLeft]
  split
  · exact Bits.and_not_two_pow_sub_one hr.le (Nat.mod_lt _ (by decide))
  · rename_i hone
    have hpow : 2 ^ r.alignShift = 1 := by
      have hpos := Nat.two_pow_pos r.alignShift
      omega
    rw [hpow, Nat.sub_self, Nat.add_zero, Nat.mod_mod, Nat.div_one, Nat.mul_one]

theorem alignedAddr_mod {r : Request} (hr : r.alignShift < 64) (cur : ℕ) :
    pool.alignedAddr r cur % r.alignment = 0 := by
  rw [alignedAddr_eq hr, Request.alignment, Nat.one_shiftLeft, Nat.mul_mod_left]

/-- Rounding up either wraps to 0 or does not go below the start. -/
theorem le_alignedAddr {r : Request} (hr : r.alignShift < 64) {cur : ℕ}
    (hcur : pool.base + cur < wordRange) (h0 : pool.alignedAddr r cur ≠ 0) :
    pool.base + cur ≤ pool.alignedAddr r cur := by
  rw [alignedAddr_eq hr, Nat.mod_eq_of_lt hcur] at h0 ⊢
  have hpos := Nat.two_pow_pos r.alignShift
  have hpow : 2 ^ r.alignShift ≤ wordRange := Nat.pow_le_pow_right (by omega) hr.le
  generalize 2 ^ r.alignShift = a at h0 hpos hpow ⊢
  by_cases hwrap : pool.base + cur + (a - 1) < wordRange
  · rw [Nat.mod_eq_of_lt hwrap]
    have hdiv := Nat.div_add_mod' (pool.base + cur + (a - 1)) a
    have hmod := Nat.mod_lt (pool.base + cur + (a - 1)) hpos
    omega
  · -- what is left after the wrap is less than the alignment
    have hrest : (pool.base + cur + (a - 1)) % wordRange < a := by
      rw [Nat.mod_eq_sub_mod (by omega), Nat.mod_eq_of_lt (by omega)]
      omega
    rw [Nat.div_eq_of_lt hrest, Nat.zero_mul] at h0
    exact absurd rfl h0

theorem alignedAddr_lt {r : Request} (hr : r.alignShift < 64) (cur : ℕ) :
    pool.alignedAddr r cur < wordRange := by
  rw [alignedAddr_eq hr]
  exact (Nat.div_mul_le_self _ _).trans_lt (Nat.mod_lt _ (by decide))

/-- The block of a check that was passed without wrapping. -/
theorem block_of_fits {r : Request} (hr : r.alignShift < 64) {cur : ℕ}
    (hcur : cur ≤ pool.size) (hsum : pool.alignedOffset r cur + r.size < wordRange)
    (h0 : pool.alignedAddr r cur ≠ 0) :
    pool.base + cur ≤ pool.alignedAddr r cur ∧
      pool.alignedAddr r cur + r.size = pool.base + pool.next r cur := by
  have hfits : pool.base + pool.size < wordRange := pool.fits
  have hle : pool.base + cur ≤ pool.alignedAddr r cur := le_alignedAddr hr (by omega) h0
  have hlt := @alignedAddr_lt pool r hr cur
  have hoff : pool.alignedOffset r cur = pool.alignedAddr r cur - pool.base := by
    rw [alignedOffset, Nat.mod_eq_sub_mod (by omega), Nat.mod_eq_of_lt (by omega)]
    omega
  rw [next, Nat.mod_eq_of_lt hsum]
  exact ⟨hle, by omega⟩

/-! ## The transitions -/

/-- The transitions of the pool. -/
inductive Step (pool : ExtentPool) (s : State) : Action → State → Prop
  | allocate {t : ℕ} {r : Request} : s.pc t = .idle → r.Valid →
      Step pool s (.allocate t r) ({ s with moved := update s.moved t false }.setPc t (.load r))
  | load {t : ℕ} {r : Request} : s.pc t = .load r →
      Step pool s (.thread t) (s.setPc t (.check r s.offset))
  | outOfMemory {t cur : ℕ} {r : Request} : s.pc t = .check r cur → pool.size < pool.next r cur →
      Step pool s (.thread t) (s.ret t r 0)
  | passCheck {t cur : ℕ} {r : Request} : s.pc t = .check r cur → pool.next r cur ≤ pool.size →
      Step pool s (.thread t) (s.setPc t (.cas r cur))
  | bump {t : ℕ} {r : Request} : s.pc t = .cas r s.offset →
      Step pool s (.thread t)
        ((s.store t (pool.next r s.offset)).ret t r (pool.alignedAddr r s.offset))
  | lost {t cur : ℕ} {r : Request} : s.pc t = .cas r cur → s.offset ≠ cur →
      Step pool s (.thread t) (s.setPc t (.check r s.offset))
  | casFails {t cur : ℕ} {r : Request} : s.pc t = .cas r cur →
      Step pool s (.casFails t) (s.setPc t (.check r s.offset))

theorem step_cases {a : Action} (h : step pool s a = some s') : Step pool s a s' := by
  cases a with
  | allocate t r =>
      simp only [step, Option.ite_none_right_eq_some, Option.some.injEq] at h
      obtain ⟨⟨hpc, hr⟩, rfl⟩ := h
      exact .allocate hpc hr
  | thread t =>
      simp only [step, stepThread] at h
      split at h
      · exact absurd h (by simp)
      · rename_i hpc
        obtain rfl := Option.some.inj h
        exact .load hpc
      · rename_i hpc
        split at h <;> obtain rfl := Option.some.inj h
        · exact .outOfMemory hpc ‹_›
        · exact .passCheck hpc (by omega)
      · rename_i hpc
        split at h
        · rename_i heq
          obtain rfl := Option.some.inj h
          subst heq
          exact .bump hpc
        · obtain rfl := Option.some.inj h
          exact .lost hpc ‹_›
  | casFails t =>
      simp only [step] at h
      split at h
      · obtain rfl := Option.some.inj h
        exact .casFails ‹_›
      · exact absurd h (by simp)

/-! ## The invariant -/

/-- What a thread relies on in `allocate`: its arguments, and once it is at the compare-and-exchange the
check that it has passed. -/
def PcOk (pool : ExtentPool) : Pc → Prop
  | .idle => True
  | .load r => r.Valid
  | .check r _ => r.Valid
  | .cas r cur => r.Valid ∧ pool.next r cur ≤ pool.size ∧
      pool.alignedOffset r cur + r.size < wordRange ∧
        (pool.alignedAddr r cur = 0 → pool.next r cur = cur)

/-- All blocks so far lie below `offset_`, one after the other. -/
structure Inv (pool : ExtentPool) (s : State) : Prop where
  offset_le : s.offset ≤ pool.size
  block : ∀ c ∈ s.calls, c.result ≠ 0 → c.result % c.request.alignment = 0 ∧
    pool.base ≤ c.result ∧ c.result + c.request.size ≤ pool.base + s.offset
  inOrder : s.calls.Pairwise fun c d => c.result ≠ 0 → d.result ≠ 0 →
    c.result + c.request.size ≤ d.result
  null : ∀ c ∈ s.calls, c.result = 0 → c.moved = false
  pc : ∀ t, PcOk pool (s.pc t)
  moved : ∀ t, s.pc t ≠ .idle → s.moved t = false

theorem inv_initial : Inv pool initial where
  offset_le := Nat.zero_le _
  block c h := by cases h
  inOrder := .nil
  null c h := by cases h
  pc t := trivial
  moved t h := absurd rfl h

namespace Inv

/-- A thread that is in a call moves and the pool stays as it is. -/
theorem setPc (h : Inv pool s) {t : ℕ} {pc : Pc} (hidle : s.pc t ≠ .idle) (hpc : PcOk pool pc) :
    Inv pool (s.setPc t pc) :=
  { h with
    pc := by
      intro u
      simp only [State.setPc, update_apply]
      split
      · exact hpc
      · exact h.pc u
    moved := by
      intro u hu
      simp only [State.setPc, update_apply] at hu
      split at hu
      · rename_i hut
        rw [hut]
        exact h.moved t hidle
      · exact h.moved u hu }

/-- A call begins. -/
theorem allocate (h : Inv pool s) {t : ℕ} {r : Request} (hr : r.Valid) :
    Inv pool ({ s with moved := update s.moved t false }.setPc t (.load r)) :=
  { h with
    pc := by
      intro u
      simp only [State.setPc, update_apply]
      split
      · exact hr
      · exact h.pc u
    moved := by
      intro u hu
      simp only [State.setPc, update_apply] at hu ⊢
      split
      · rfl
      · rename_i hut
        rw [if_neg hut] at hu
        exact h.moved u hu }

/-- A call returns with `offset_` moved on to `offset`, which no block so far passes and where its own
block ends. -/
theorem ret (h : Inv pool s) {t offset result : ℕ} {r : Request} {moved : ℕ → Bool}
    (hle : s.offset ≤ offset) (hsize : offset ≤ pool.size)
    (hother : ∀ u ≠ t, moved u = s.moved u)
    (hblock : result ≠ 0 → result % r.alignment = 0 ∧ pool.base + s.offset ≤ result ∧
      result + r.size ≤ pool.base + offset)
    (hnull : result = 0 → moved t = false) :
    Inv pool (State.ret { s with offset := offset, moved := moved } t r result) where
  offset_le := hsize
  block c hc hne := by
    rcases List.mem_append.mp hc with hc | hc
    · obtain ⟨hmod, hbase, hend⟩ := h.block c hc hne
      refine ⟨hmod, hbase, ?_⟩
      show c.result + c.request.size ≤ pool.base + offset
      omega
    · obtain rfl := List.mem_singleton.mp hc
      obtain ⟨hmod, hbase, hend⟩ := hblock hne
      exact ⟨hmod, by dsimp only; omega, hend⟩
  inOrder := by
    refine List.pairwise_append.mpr ⟨h.inOrder, List.pairwise_singleton _ _, ?_⟩
    intro c hc d hd hc0 hd0
    obtain rfl := List.mem_singleton.mp hd
    have hend := (h.block c hc hc0).2.2
    have hstart := (hblock hd0).2.1
    dsimp only
    omega
  null c hc h0 := by
    rcases List.mem_append.mp hc with hc | hc
    · exact h.null c hc h0
    · obtain rfl := List.mem_singleton.mp hc
      exact hnull h0
  pc u := by
    simp only [State.ret, State.setPc, update_apply]
    split
    · trivial
    · exact h.pc u
  moved u hu := by
    simp only [State.ret, State.setPc, update_apply] at hu ⊢
    split at hu
    · exact absurd rfl hu
    · rename_i hut
      rw [hother u hut]
      exact h.moved u hu

/-- A successful compare-and-exchange. -/
theorem bump (h : Inv pool s) {t : ℕ} {r : Request} (hpc : s.pc t = .cas r s.offset) :
    s.offset ≤ pool.next r s.offset ∧
      Inv pool ((s.store t (pool.next r s.offset)).ret t r (pool.alignedAddr r s.offset)) := by
  have hok := h.pc t
  rw [hpc] at hok
  obtain ⟨hr, hsize, hsum, hzero⟩ := hok
  have hfalse : s.moved t = false := h.moved t (by simp [hpc])
  have hfresh := block_of_fits hr.2 h.offset_le hsum
  have hle : s.offset ≤ pool.next r s.offset := by
    by_cases h0 : pool.alignedAddr r s.offset = 0
    · rw [hzero h0]
    · have hplace := hfresh h0
      omega
  refine ⟨hle, h.ret hle hsize (fun u hut => update_of_ne hut _ _) ?_ ?_⟩
  · intro h0
    have hplace := hfresh h0
    exact ⟨alignedAddr_mod hr.2 _, hplace.1, by omega⟩
  · intro h0
    rw [hzero h0, hfalse]
    simp

theorem step (h : Inv pool s) {a : Action} (hok : PassesChecked pool s a) (hs : Step pool s a s') :
    s.offset ≤ s'.offset ∧ Inv pool s' := by
  cases hs with
  | allocate hpc hr => exact ⟨le_rfl, h.allocate hr⟩
  | @load t r hpc =>
      have hr := h.pc t
      rw [hpc] at hr
      exact ⟨le_rfl, h.setPc (by simp [hpc]) hr⟩
  | @outOfMemory t cur r hpc _ =>
      refine ⟨le_rfl, h.ret le_rfl h.offset_le (fun _ _ => rfl) (fun h0 => absurd rfl h0) fun _ => ?_⟩
      exact h.moved t (by simp [hpc])
  | @passCheck t cur r hpc hfit =>
      have hr := h.pc t
      rw [hpc] at hr
      simp only [PassesChecked, hpc] at hok
      exact ⟨le_rfl, h.setPc (by simp [hpc]) ⟨hr, hfit, hok hfit⟩⟩
  | bump hpc => exact h.bump hpc
  | @lost t cur r hpc _ =>
      have hr := h.pc t
      rw [hpc] at hr
      exact ⟨le_rfl, h.setPc (by simp [hpc]) hr.1⟩
  | @casFails t cur r hpc =>
      have hr := h.pc t
      rw [hpc] at hr
      exact ⟨le_rfl, h.setPc (by simp [hpc]) hr.1⟩

theorem safe (h : Inv pool s) : Safe pool s where
  block c hc h0 := by
    have hle := h.offset_le
    obtain ⟨hmod, hbase, hend⟩ := h.block c hc h0
    exact ⟨hmod, hbase, by omega⟩
  disjoint := h.inOrder.imp fun hcd hc hd => .inl (hcd hc hd)
  offset_le := h.offset_le
  null := h.null

end Inv

theorem inv_of_run (h : (machine pool).Run (PassesChecked pool) s) : Inv pool s := by
  apply h.invariant
  · rintro s rfl
    exact inv_initial
  · intro s a s' _ hinv hok hs
    exact (hinv.step hok (step_cases hs)).2

/-- In every run in which every check for space that is passed is passed without wrapping, and no block is
put at the address 0, the pool is safe and `offset_` never decreases. -/
theorem allocate_safe (pool : ExtentPool) (s : State) (h : (machine pool).Run (PassesChecked pool) s) :
    Safe pool s ∧ NeverDecreases pool (PassesChecked pool) s := by
  refine ⟨(inv_of_run h).safe, fun s' hs => ?_⟩
  refine Machine.ReflTransGen.lift (R := fun s s' => s.offset ≤ s'.offset) (fun _ => le_rfl)
    (fun _ _ _ => le_trans) ?_ h hs
  rintro s₁ s₂ hr ⟨a, hok, hstep⟩
  exact ((inv_of_run hr).step hok (step_cases hstep)).1

/-- A page at the start of the region that is not hardware coherent. -/
def onePage : ExtentPool := ⟨cxlNhcStart, 4096, by decide⟩

/-- The guard of `allocate_safe`, evaluated. -/
def passesChecked (pool : ExtentPool) (s : State) : Action → Bool
  | .thread t =>
      match s.pc t with
      | .check r cur => pool.size < pool.next r cur ||
          (pool.alignedOffset r cur + r.size < wordRange && pool.alignedAddr r cur != 0)
      | _ => true
  | _ => true

theorem passesChecked_sound {a : Action} (h : passesChecked pool s a = true) :
    PassesChecked pool s a := by
  unfold PassesChecked
  unfold passesChecked at h
  cases a with
  | thread t =>
      dsimp only at h ⊢
      split
      · rename_i r cur hpc
        simp only [hpc, Bool.or_eq_true, Bool.and_eq_true, decide_eq_true_eq, bne_iff_ne] at h
        intro hle
        have hfit := h.resolve_left (by omega)
        exact ⟨hfit.1, fun h0 => absurd h0 hfit.2⟩
      · trivial
  | _ => trivial

/-- Two threads race for the first block, the loser gets the next one, and a third call finds no room. -/
theorem allocate_safe_race : ∃ s, s.calls = [⟨⟨100, 4⟩, cxlNhcStart, true⟩,
      ⟨⟨20, 6⟩, cxlNhcStart + 128, true⟩, ⟨⟨4000, 3⟩, 0, false⟩] ∧ s.offset = 148 ∧
    Safe onePage s := by
  have heval : ((machine onePage).exec (passesChecked onePage) initial
      ([.allocate 0 ⟨20, 6⟩, .allocate 1 ⟨100, 4⟩] ++ [.thread 0, .thread 1, .thread 0, .thread 1] ++
        [.thread 1, .thread 0, .thread 0, .casFails 0, .thread 0, .thread 0] ++
        [.allocate 1 ⟨4000, 3⟩, .thread 1, .thread 1])).map (fun s => (s.calls, s.offset)) =
      some ([⟨⟨100, 4⟩, cxlNhcStart, true⟩, ⟨⟨20, 6⟩, cxlNhcStart + 128, true⟩,
        ⟨⟨4000, 3⟩, 0, false⟩], 148) := by
    decide +kernel
  obtain ⟨s, hs, hval⟩ := Option.map_eq_some_iff.mp heval
  obtain ⟨hcalls, hoffset⟩ := Prod.mk.inj hval
  have hrun : (machine onePage).Run (PassesChecked onePage) s :=
    Machine.Run.exec (.init rfl) (fun _ _ => passesChecked_sound) hs
  exact ⟨s, hcalls, hoffset, (allocate_safe onePage s hrun).1⟩

/-- After a block of 64 bytes, `allocate(2 ^ 64 - 64, 64)` passes the check and moves `offset_` back to
0, and the next call gets the first block again. -/
theorem allocate_overlaps : ¬ ∀ (pool : ExtentPool) (s : State), (machine pool).Reachable s →
    Safe pool s ∧ NeverDecreases pool (fun _ _ => True) s := by
  intro h
  have heval : ((machine onePage).exec (fun _ _ => true) initial
      ([.allocate 0 ⟨64, 6⟩, .thread 0, .thread 0, .thread 0] ++
        [.allocate 0 ⟨2 ^ 64 - 64, 6⟩, .thread 0, .thread 0, .thread 0] ++
        [.allocate 0 ⟨64, 6⟩, .thread 0, .thread 0, .thread 0])).map (fun s => s.calls) =
      some [⟨⟨64, 6⟩, cxlNhcStart, true⟩, ⟨⟨2 ^ 64 - 64, 6⟩, cxlNhcStart + 64, true⟩,
        ⟨⟨64, 6⟩, cxlNhcStart, true⟩] := by
    decide +kernel
  obtain ⟨s, hs, hcalls⟩ := Option.map_eq_some_iff.mp heval
  have hsafe := (h onePage s (Machine.Run.exec (.init rfl) (fun _ _ _ => trivial) hs)).1
  have hdisjoint := hsafe.disjoint
  rw [hcalls] at hdisjoint
  revert hdisjoint
  decide

end ExtentPool

end RACoherence
