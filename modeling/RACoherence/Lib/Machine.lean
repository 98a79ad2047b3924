import Mathlib.Logic.Relation
import Mathlib.Order.RelClasses

/-!
# Guarded transition systems

A `Machine` is a set of initial states and a partial step function on actions. `Machine.Run ok` is
the set of states reached by steps that all meet the guard `ok`; the guard is how a result about
"every run in which …" is stated. Invariants are proved once per step and carried along a run by
`Run.invariant`, and a run of one machine is read as a run of another by `Run.project` and `Run.simulate`.
-/

/-- A transition system: initial states and a partial step function. -/
structure Machine (σ α : Type*) where
  init : σ → Prop
  step : σ → α → Option σ

namespace Machine

variable {σ τ α β : Type*} (M : Machine σ α)

/-- The states reached from an initial state by steps that all meet `ok`. -/
inductive Run (ok : σ → α → Prop) : σ → Prop
  | init {s : σ} : M.init s → Run ok s
  | step {s s' : σ} {a : α} : Run ok s → ok s a → M.step s a = some s' → Run ok s'

/-- The states reached by any steps at all. -/
abbrev Reachable : σ → Prop := M.Run fun _ _ => True

/-- One guarded step, with the action forgotten. -/
def Next (ok : σ → α → Prop) (s s' : σ) : Prop :=
  ∃ a, ok s a ∧ M.step s a = some s'

/-- Run a list of actions; `none` as soon as one of them is not enabled or does not meet the guard. -/
def exec (ok : σ → α → Bool) (s : σ) : List α → Option σ
  | [] => some s
  | a :: as => if ok s a then (M.step s a).bind fun s' => exec ok s' as else none

variable {M} {ok ok' : σ → α → Prop}

theorem exec_append (g : σ → α → Bool) (s : σ) (as bs : List α) :
    M.exec g s (as ++ bs) = (M.exec g s as).bind fun s' => M.exec g s' bs := by
  induction as generalizing s with
  | nil => rfl
  | cons a as ih =>
      simp only [List.cons_append, exec]
      split
      · cases M.step s a <;> simp [ih]
      · rfl

/-- What holds initially and is kept by every guarded step holds along every guarded run. The step
may assume that its source state is itself reached. -/
theorem Run.invariant {I : σ → Prop} (hinit : ∀ s, M.init s → I s)
    (hstep : ∀ s a s', M.Run ok s → I s → ok s a → M.step s a = some s' → I s') {s : σ}
    (h : M.Run ok s) : I s := by
  induction h with
  | init h => exact hinit _ h
  | step hr hok hs ih => exact hstep _ _ _ hr ih hok hs

/-- A run under one guard is a run under any guard that its steps also meet. -/
theorem Run.imp {s : σ} (h : M.Run ok s)
    (himp : ∀ s a s', M.Run ok s → ok s a → M.step s a = some s' → ok' s a) : M.Run ok' s := by
  induction h with
  | init h => exact .init h
  | step hr hok hs ih => exact .step ih (himp _ _ _ hr hok hs) hs

theorem Run.reachable {s : σ} (h : M.Run ok s) : M.Reachable s :=
  h.imp fun _ _ _ _ _ _ => trivial

/-- A run extends along any sequence of guarded steps. -/
theorem Run.trans {s s' : σ} (h : M.Run ok s) (hs : Relation.ReflTransGen (M.Next ok) s s') :
    M.Run ok s' := by
  induction hs with
  | refl => exact h
  | tail _ hnext ih =>
      obtain ⟨a, hok, hstep⟩ := hnext
      exact .step ih hok hstep

/-- A sequence of guarded steps is one under any weaker guard. -/
theorem reflTransGen_imp {s s' : σ} (himp : ∀ s a, ok s a → ok' s a)
    (hs : Relation.ReflTransGen (M.Next ok) s s') : Relation.ReflTransGen (M.Next ok') s s' :=
  hs.lift id fun s₁ _ ⟨a, ha, hstep⟩ => ⟨a, himp s₁ a ha, hstep⟩

/-- A sequence of enabled actions that a decidable guard admits is a sequence of guarded steps. -/
theorem reflTransGen_of_exec {g : σ → α → Bool} {s s' : σ} (hg : ∀ s a, g s a = true → ok s a)
    {as : List α} (hs : M.exec g s as = some s') : Relation.ReflTransGen (M.Next ok) s s' := by
  induction as generalizing s with
  | nil =>
      obtain rfl := Option.some.inj hs
      exact .refl
  | cons a as ih =>
      rw [Machine.exec] at hs
      split at hs
      · rename_i ha
        obtain ⟨s₁, h₁, h₂⟩ := Option.bind_eq_some_iff.mp hs
        exact .head ⟨a, hg _ _ ha, h₁⟩ (ih h₂)
      · exact absurd hs (by simp)

theorem Run.exec {g : σ → α → Bool} {s s' : σ} (h : M.Run ok s) (hg : ∀ s a, g s a = true → ok s a)
    {as : List α} (hs : M.exec g s as = some s') : M.Run ok s' :=
  h.trans (reflTransGen_of_exec hg hs)

/-- A relation that every guarded step respects is respected by a whole guarded run. -/
theorem ReflTransGen.lift {R : σ → σ → Prop} (hrefl : ∀ s, R s s)
    (htrans : ∀ s₁ s₂ s₃, R s₁ s₂ → R s₂ s₃ → R s₁ s₃)
    (hnext : ∀ s s', M.Run ok s → M.Next ok s s' → R s s') {s s' : σ} (h : M.Run ok s)
    (hs : Relation.ReflTransGen (M.Next ok) s s') : R s s' := by
  induction hs with
  | refl => exact hrefl s
  | tail hpre hlast ih => exact htrans _ _ _ ih (hnext _ _ (h.trans hpre) hlast)

/-- Projection: if every guarded step of `M` is, through `f`, either nothing or a guarded step of
`N`, then every guarded run of `M` is, through `f`, a guarded run of `N`. -/
theorem Run.project {N : Machine τ β} {okN : τ → β → Prop} (f : σ → τ)
    (hinit : ∀ s, M.init s → N.init (f s))
    (hstep : ∀ s a s', M.Run ok s → N.Run okN (f s) → ok s a → M.step s a = some s' →
      f s' = f s ∨ ∃ b, okN (f s) b ∧ N.step (f s) b = some (f s'))
    {s : σ} (h : M.Run ok s) : N.Run okN (f s) := by
  induction h with
  | init h => exact .init (hinit _ h)
  | step hr hok hs ih =>
      rcases hstep _ _ _ hr ih hok hs with heq | ⟨b, hb, hN⟩
      · rw [heq]
        exact ih
      · exact .step ih hb hN

/-- Simulation: the same when a step of `M` is several guarded steps of `N`, or none. -/
theorem Run.simulate {N : Machine τ β} {okN : τ → β → Prop} (f : σ → τ)
    (hinit : ∀ s, M.init s → N.init (f s))
    (hstep : ∀ s a s', M.Run ok s → ok s a → M.step s a = some s' →
      Relation.ReflTransGen (N.Next okN) (f s) (f s'))
    {s : σ} (h : M.Run ok s) : N.Run okN (f s) := by
  induction h with
  | init h => exact .init (hinit _ h)
  | step hr hok hs ih => exact ih.trans (hstep _ _ _ hr hok hs)

/-- A goal can be reached if wherever `I` holds, some guarded step reaches it, or keeps `I` and lowers a
rank. -/
theorem reaches_of_rank {ρ : Type*} [LT ρ] [WellFoundedLT ρ] {I goal : σ → Prop} (rank : σ → ρ)
    (hnext : ∀ s, I s → ∃ s', M.Next ok s s' ∧ (goal s' ∨ I s' ∧ rank s' < rank s)) {s : σ} (h : I s) :
    ∃ s', Relation.ReflTransGen (M.Next ok) s s' ∧ goal s' := by
  induction hr : rank s using WellFoundedLT.induction generalizing s with
  | _ r ih =>
      obtain ⟨s₁, hs, hgoal | ⟨hi, hlt⟩⟩ := hnext s h
      · exact ⟨s₁, .single hs, hgoal⟩
      · obtain ⟨s', hrun, hgoal⟩ := ih _ (hr ▸ hlt) hi rfl
        exact ⟨s', .head hs hrun, hgoal⟩

end Machine
