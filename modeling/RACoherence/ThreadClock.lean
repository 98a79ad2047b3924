import RACoherence.LogManager
import RACoherence.VectorClock

/-!
# Thread clocks and log tails

Reference: `include/threadOps.hpp`, `thread_release`, `thread_acquire` and `log_store`, as far as they
concern the clocks of the threads.

A log that a thread publishes takes the next index of its node from `tail`, and `thread_release` assigns
that index plus one to the component of the node, without a comparison with what is there. It never
lowers it: a component is at most the number of logs that were produced, whichever threads of the node
the value has passed through.
-/

namespace RACoherence

open Function

namespace ThreadClock

/-- Where a thread is in `thread_release`: not in it, before `produce_tail`, or before `assign`. -/
inductive Release
  | none
  | produce
  | assign (clk : ℕ)
  deriving DecidableEq, Repr

structure Thread where
  clock : VectorClock
  recentCl : ℕ
  release : Release

/-- `tail` is the one of the log manager of every node. -/
structure State where
  tail : ℕ → ℕ
  threads : ℕ → Thread

variable (home : ℕ → ℕ)

/-- All clocks are 0 and nothing is produced. -/
def initial : State := ⟨fun _ => 0, fun _ => ⟨fun _ => 0, 0, .none⟩⟩

namespace State

/-- Replace the data of thread `t`. -/
def setThread (s : State) (t : ℕ) (th : Thread) : State := { s with threads := update s.threads t th }

/-- `produce_tail` on the log manager of node `n`. -/
def produceTail (s : State) (n : ℕ) : State :=
  { s with tail := update s.tail n (LogManager.incr (s.tail n)) }

end State

/-- `log_store`; if the table is full, `write_to_log(false)` publishes a log. -/
def logStore (s : State) (t cl : ℕ) (full : Bool) : State :=
  (if full then s.produceTail (home t) else s).setThread t { s.threads t with recentCl := cl }

/-- The test of `recent_cl` in `thread_release`. -/
def beginRelease (s : State) (t : ℕ) : State :=
  if (s.threads t).recentCl = 0 then s
  else s.setThread t { s.threads t with recentCl := 0, release := .produce }

/-- The next step of `thread_release`. -/
def stepRelease (s : State) (t : ℕ) : Option State :=
  let th := s.threads t
  match th.release with
  | .none => none
  | .produce =>
      some ((s.produceTail (home t)).setThread t
        { th with release := .assign (LogManager.incr (s.tail (home t))) })
  | .assign clk =>
      some (s.setThread t { th with clock := th.clock.assign (home t) clk, release := .none })

/-- `thread_acquire` -/
def acquire (s : State) (t : ℕ) (c : VectorClock) : State :=
  s.setThread t { s.threads t with clock := (s.threads t).clock.merge c }

/-- The index that `produce_tail` of node `n` takes does not wrap. -/
def Fits (s : State) (n : ℕ) : Prop := s.tail n + 1 < idxRange

/-- Clocks are bounded by the tails, and a thread is about to assign what is new to its clock. -/
structure Ok (s : State) : Prop where
  le_tail : ∀ t, (s.threads t).clock ≤ s.tail
  fresh : ∀ t clk, (s.threads t).release = .assign clk →
    (s.threads t).clock (home t) ≤ clk ∧ clk ≤ s.tail (home t)

/-- Tails and clocks only grow. -/
structure Grows (s s' : State) : Prop where
  tail : s.tail ≤ s'.tail
  clock : ∀ t, (s.threads t).clock ≤ (s'.threads t).clock

theorem Grows.refl (s : State) : Grows s s := ⟨le_rfl, fun _ => le_rfl⟩

variable {home} {s s' : State} {t n : ℕ}

theorem ok_initial : Ok home initial where
  le_tail _ _ := le_rfl
  fresh _ _ h := by cases h

namespace Ok

theorem produceTail (h : Ok home s) (hfits : Fits s n) :
    Ok home (s.produceTail n) ∧ Grows s (s.produceTail n) := by
  have hincr : LogManager.incr (s.tail n) = s.tail n + 1 := Nat.mod_eq_of_lt hfits
  have htail : s.tail ≤ (s.produceTail n).tail := by
    intro i
    simp only [State.produceTail, hincr, update_apply]
    split
    · rename_i hi
      rw [hi]
      exact Nat.le_succ _
    · exact le_rfl
  refine ⟨⟨fun u => (h.le_tail u).trans htail, fun u clk hu => ?_⟩, htail, fun _ => le_rfl⟩
  obtain ⟨hlow, hhigh⟩ := h.fresh u clk hu
  exact ⟨hlow, hhigh.trans (htail _)⟩

/-- A thread may change what is not its clock or its place in `thread_release`. -/
theorem setThread (h : Ok home s) {th : Thread} (hclock : th.clock = (s.threads t).clock)
    (hrel : ∀ clk, th.release = .assign clk → th.clock (home t) ≤ clk ∧ clk ≤ s.tail (home t)) :
    Ok home (s.setThread t th) ∧ Grows s (s.setThread t th) := by
  refine ⟨⟨fun u => ?_, fun u clk hu => ?_⟩, le_rfl, fun u => ?_⟩
  · have := h.le_tail u
    simp only [State.setThread, update_apply]
    split
    · rename_i hut
      rw [hclock, ← hut]
      exact this
    · exact this
  · have := h.fresh u clk
    simp only [State.setThread, update_apply] at hu ⊢
    split
    · rename_i hut
      subst hut
      rw [if_pos rfl] at hu
      exact hrel clk hu
    · rename_i hut
      rw [if_neg hut] at hu
      exact this hu
  · simp only [State.setThread, update_apply]
    split
    · rename_i hut
      rw [hut, hclock]
    · exact le_rfl

theorem logStore (h : Ok home s) {cl : ℕ} {full : Bool} (hfits : full = true → Fits s (home t)) :
    Ok home (logStore home s t cl full) ∧ Grows s (logStore home s t cl full) := by
  cases full with
  | false => exact h.setThread rfl (h.fresh t)
  | true =>
      obtain ⟨hok, hg⟩ := h.produceTail (hfits rfl)
      have hset : Ok home (ThreadClock.logStore home s t cl true) ∧
          Grows (s.produceTail (home t)) (ThreadClock.logStore home s t cl true) :=
        hok.setThread rfl (hok.fresh t)
      exact ⟨hset.1, hg.tail.trans hset.2.tail, fun u => (hg.clock u).trans (hset.2.clock u)⟩

theorem beginRelease (h : Ok home s) :
    Ok home (beginRelease s t) ∧ Grows s (beginRelease s t) := by
  unfold ThreadClock.beginRelease
  split
  · exact ⟨h, Grows.refl s⟩
  · exact h.setThread rfl fun clk hclk => by cases hclk

theorem stepRelease (h : Ok home s)
    (hfits : (s.threads t).release = .produce → Fits s (home t))
    (hs : stepRelease home s t = some s') : Ok home s' ∧ Grows s s' := by
  unfold ThreadClock.stepRelease at hs
  dsimp only at hs
  split at hs
  · cases hs
  · rename_i hpc
    cases hs
    have hincr : LogManager.incr (s.tail (home t)) = s.tail (home t) + 1 :=
      Nat.mod_eq_of_lt (hfits hpc)
    obtain ⟨hok, hg⟩ := h.produceTail (hfits hpc)
    refine ⟨And.left (hok.setThread ?_ ?_), hg.tail, fun u => ?_⟩
    · rfl
    · intro clk hclk
      obtain rfl := Release.assign.inj hclk
      refine ⟨(h.le_tail t _).trans ?_, ?_⟩
      · rw [hincr]
        exact Nat.le_succ _
      · simp [State.produceTail]
    · simp only [State.setThread, update_apply]
      split
      · rename_i hut
        rw [hut]
      · exact le_rfl
  · rename_i clk hpc
    cases hs
    obtain ⟨hlow, hhigh⟩ := h.fresh t clk hpc
    have hle : (s.threads t).clock ≤ (s.threads t).clock.assign (home t) clk := by
      intro i
      simp only [VectorClock.assign, update_apply]
      split
      · rename_i hi
        rw [hi]
        exact hlow
      · exact le_rfl
    have hbound : (s.threads t).clock.assign (home t) clk ≤ s.tail := by
      intro i
      simp only [VectorClock.assign, update_apply]
      split
      · rename_i hi
        rw [hi]
        exact hhigh
      · exact h.le_tail t i
    refine ⟨⟨fun u => ?_, fun u c hu => ?_⟩, le_rfl, fun u => ?_⟩
    · have := h.le_tail u
      simp only [State.setThread, update_apply]
      split
      · exact hbound
      · exact this
    · have := h.fresh u c
      simp only [State.setThread, update_apply] at hu ⊢
      split
      · rename_i hut
        rw [if_pos hut] at hu
        cases hu
      · rename_i hut
        rw [if_neg hut] at hu
        exact this hu
    · simp only [State.setThread, update_apply]
      split
      · rename_i hut
        rw [hut]
        exact hle
      · exact le_rfl

/-- A thread that is not in `thread_release` may acquire a bounded clock. -/
theorem acquire (h : Ok home s) {c : VectorClock} (hidle : (s.threads t).release = .none)
    (hc : c ≤ s.tail) : Ok home (acquire s t c) ∧ Grows s (acquire s t c) := by
  refine ⟨⟨fun u => ?_, fun u clk hu => ?_⟩, le_rfl, fun u => ?_⟩
  · have := h.le_tail u
    simp only [ThreadClock.acquire, State.setThread, update_apply]
    split
    · exact fun i => max_le (h.le_tail t i) (hc i)
    · exact this
  · have := h.fresh u clk
    simp only [ThreadClock.acquire, State.setThread, update_apply] at hu ⊢
    split
    · rename_i hut
      rw [if_pos hut, hidle] at hu
      cases hu
    · rename_i hut
      rw [if_neg hut] at hu
      exact this hu
  · simp only [ThreadClock.acquire, State.setThread, update_apply]
    split
    · rename_i hut
      rw [hut]
      exact VectorClock.le_merge_left
    · exact le_rfl

end Ok

end ThreadClock

end RACoherence
