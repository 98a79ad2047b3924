import RACoherence.CXLAtomic

/-!
# What an access changes

One equation for every member and every local variable that an access of an operation may write.
-/

namespace RACoherence

open Function

namespace CXLAtomic

variable {w : ℕ} {home : ℕ → ℕ} {s s' : State w} {t clk : ℕ} {i : Instr w} {rest : List (Instr w)}

/-- The value of the atomic after an access. -/
def Instr.dataAfter (v : BitVec w) : Instr w → BitVec w
  | .store desired => desired
  | .fetchAdd arg _ => v + arg
  | _ => v

/-- The result of the operation after an access. -/
def Instr.retAfter (v ret : BitVec w) : Instr w → BitVec w
  | .load viaChar | .fetchAdd _ viaChar => retVal viaChar v
  | _ => ret

/-- The clock of the atomic after an access. -/
def Instr.clockAfter (threadClock c : VectorClock) : Instr w → VectorClock
  | .setClock => threadClock
  | .mergeClock => c.merge threadClock
  | _ => c

/-- An access leaves the other threads and atomics alone and stays within its operation. -/
theorem exec_frame (hs : exec home s t clk rest i = some s') :
    (∀ u, u ≠ t → s'.threads u = s.threads u) ∧
      (∀ l, l ≠ (s.threads t).loc → s'.atomics l = s.atomics l) ∧
      (s'.threads t).code = rest ∧ (s'.threads t).loc = (s.threads t).loc ∧
      (s'.threads t).op = (s.threads t).op ∧ (s'.threads t).order = (s.threads t).order := by
  cases i with
  | lock =>
      simp only [exec] at hs
      split at hs <;> cases hs
      simp +contextual [State.setThread, State.setAtomic]
  | release =>
      cases hs
      simp +contextual only [State.setThread, Thread.release, ne_eq, not_false_eq_true, update_of_ne,
        update_self, implies_true, true_and]
      split <;> simp
  | _ =>
      cases hs
      simp +contextual [State.setThread, State.setAtomic]

theorem exec_data (hs : exec home s t clk rest i = some s') (l : ℕ) :
    (s'.atomics l).data =
      if l = (s.threads t).loc then i.dataAfter (s.atomics l).data else (s.atomics l).data := by
  cases i with
  | lock =>
      simp only [exec] at hs
      split at hs <;> cases hs
      simp only [State.setThread, State.setAtomic, update_apply, Instr.dataAfter]
      grind
  | _ =>
      cases hs
      simp only [State.setThread, State.setAtomic, update_apply, Instr.dataAfter]
      grind

theorem exec_ret (hs : exec home s t clk rest i = some s') :
    (s'.threads t).ret = i.retAfter (s.atomics (s.threads t).loc).data (s.threads t).ret := by
  cases i with
  | lock =>
      simp only [exec] at hs
      split at hs <;> cases hs
      simp [State.setThread, Instr.retAfter]
  | release =>
      cases hs
      simp only [State.setThread, update_self, Instr.retAfter, Thread.release]
      split <;> rfl
  | _ =>
      cases hs
      simp [State.setThread, Instr.retAfter]

theorem exec_clock (hs : exec home s t clk rest i = some s') (l : ℕ) :
    (s'.atomics l).clock =
      if l = (s.threads t).loc then i.clockAfter (s.threads t).threadClock (s.atomics l).clock
      else (s.atomics l).clock := by
  cases i with
  | lock =>
      simp only [exec] at hs
      split at hs <;> cases hs
      simp only [State.setThread, State.setAtomic, update_apply, Instr.clockAfter]
      grind
  | _ =>
      cases hs
      simp only [State.setThread, State.setAtomic, update_apply, Instr.clockAfter]
      grind

/-- Only `thread_release` and `thread_acquire` change the thread clock, and the first does so only if
there is a recent line. -/
theorem exec_threadClock (hs : exec home s t clk rest i = some s') (hi : i ≠ .release) :
    (s'.threads t).threadClock =
        (if i = .acquire then (s.threads t).threadClock.merge (s.threads t).clock
          else (s.threads t).threadClock) ∧
      (s'.threads t).recentCl = (s.threads t).recentCl ∧ (s'.threads t).relClk = (s.threads t).relClk := by
  cases i with
  | lock =>
      simp only [exec] at hs
      split at hs <;> cases hs
      simp [State.setThread]
  | release => exact absurd rfl hi
  | _ =>
      cases hs
      simp [State.setThread]

theorem exec_localClock (hs : exec home s t clk rest i = some s') :
    (s'.threads t).clock =
      if i = .readClock then (s.atomics (s.threads t).loc).clock else (s.threads t).clock := by
  cases i with
  | lock =>
      simp only [exec] at hs
      split at hs <;> cases hs
      simp [State.setThread]
  | release =>
      cases hs
      simp only [State.setThread, update_self, Thread.release, reduceCtorEq, if_false]
      split <;> rfl
  | _ =>
      cases hs
      simp [State.setThread]

/-- After `thread_release` there is no recent line, and without one it does nothing. -/
theorem exec_release (hs : exec home s t clk rest .release = some s') :
    (s'.threads t).recentCl = 0 ∧ (s'.threads t).relClk = (s'.threads t).threadClock ∧
      ((s.threads t).recentCl = 0 → (s'.threads t).threadClock = (s.threads t).threadClock) := by
  cases hs
  simp only [State.setThread, update_self, Thread.release]
  split <;> simp_all

/-- The rest of an operation, run without interruption. -/
theorem exec_rest {g : State w → Action w → Bool} {cs : List ℕ}
    (hlen : (s.threads t).code.length = cs.length)
    (hs : (machine home).exec g s (cs.map (.thread t)) = some s') :
    (s'.threads t).code = [] ∧ (∀ u, u ≠ t → s'.threads u = s.threads u) ∧
      ∀ l, (s'.atomics l).data =
        if l = (s.threads t).loc then
          (s.threads t).code.foldl (fun v i => i.dataAfter v) (s.atomics l).data
        else (s.atomics l).data := by
  induction cs generalizing s with
  | nil =>
      have hnil := List.eq_nil_of_length_eq_zero hlen
      obtain rfl := Option.some.inj hs
      exact ⟨hnil, fun _ _ => rfl, fun l => by simp [hnil]⟩
  | cons c cs ih =>
      obtain ⟨i, rest, hcode⟩ := List.exists_cons_of_length_eq_add_one hlen
      simp only [List.map_cons, Machine.exec, machine, step, hcode] at hs
      split at hs
      · obtain ⟨s₁, h₁, h₂⟩ := Option.bind_eq_some_iff.mp hs
        obtain ⟨hother, -, hrest, hloc, -, -⟩ := exec_frame h₁
        have hlen₁ : (s₁.threads t).code.length = cs.length := by
          rw [hrest]
          simpa [hcode] using hlen
        obtain ⟨hdone, hother', hdata⟩ := ih hlen₁ h₂
        refine ⟨hdone, fun u hu => (hother' u hu).trans (hother u hu), fun l => ?_⟩
        rw [hdata, hloc, hrest, exec_data h₁, hcode, List.foldl_cons]
        split <;> rfl
      · cases hs

/-- A whole operation, run without interruption. -/
theorem exec_call {g : State w → Action w → Bool} {l : ℕ} {op : Op w} {order : MemoryOrder}
    {cs : List ℕ} (hlen : (code op order).length = cs.length)
    (hs : (machine home).exec g s (.call t l op order :: cs.map (.thread t)) = some s') :
    (s'.threads t).code = [] ∧ (∀ u, u ≠ t → s'.threads u = s.threads u) ∧
      ∀ k, (s'.atomics k).data =
        if k = l then (code op order).foldl (fun v i => i.dataAfter v) (s.atomics k).data
        else (s.atomics k).data := by
  simp only [Machine.exec, machine, step] at hs
  split at hs
  · obtain ⟨s₁, h₁, h₂⟩ := Option.bind_eq_some_iff.mp hs
    split at h₁ <;> cases h₁
    obtain ⟨hdone, hother, hdata⟩ := exec_rest (by simpa [State.setThread, Thread.call] using hlen) h₂
    refine ⟨hdone, fun u hu => ?_, fun k => ?_⟩
    · rw [hother u hu]
      simp [State.setThread, hu]
    · rw [hdata]
      simp [State.setThread, Thread.call]
  · cases hs

end CXLAtomic

end RACoherence
