import RACoherence.Cluster.Agreement

/-!
# Thread creation

Reference: `src/runtime.cpp`, `rac_thread_create` and `rac_thread_func_wrapper`. A new thread acquires the
clock of its parent through a pointer, so what it reads in `help_consume` and again in `merge` may be from
different moments. Clocks of threads only grow, and all threads of a node are behind its cache clock.
-/

namespace RACoherence

open Function LocalCLTable

namespace Cluster

variable {cfg : Config} {s s' : State} {a : Action}

/-- The clock of a thread never decreases. -/
theorem thread_clock_mono (hrel : Releases cfg s) (hs : Step cfg s a s') (t i : ℕ) :
    (s.threads t).clock i ≤ (s'.threads t).clock i := by
  cases clockEffect hs t with
  | same heq => rw [heq]
  | release hpc heq =>
      rw [heq, VectorClock.assign, update_apply]
      split
      · rename_i hi
        subst hi
        exact (hrel.isRelease_finish hpc).2
      · exact le_rfl
  | merge hpc hst hi heq =>
      rw [heq, VectorClock.assign, update_apply]
      split
      · rename_i hi
        subst hi
        exact le_max_left _ _
      · exact le_rfl

/-- The thread `c` acquires the clock of `p`, which has been at least `c₀` since it began; what it has merged
is at least `c₀`, too. -/
structure Inherits (p c : ℕ) (c₀ : VectorClock) (s : State) (h : Help) : Prop where
  pc : (s.threads c).pc = .help h
  target : h.target = .parent p
  parent : ∀ i, c₀ i ≤ (s.threads p).clock i
  merged : h.stage = .merge → ∀ i < h.i, c₀ i ≤ (s.threads c).clock i

namespace Inherits

variable {p c : ℕ} {c₀ : VectorClock} {h : Help}

/-- A step of the thread itself keeps this until the thread returns, and then everything is merged. -/
theorem help_step (hi : Inherits p c c₀ s h) (hrel : Releases cfg s) (hs : HelpStep cfg s c h s') :
    (∃ h', Inherits p c c₀ s' h') ∨
      (s'.threads c).pc = .idle ∧ ∀ i < cfg.nodeCount, c₀ i ≤ (s'.threads c).clock i := by
  have hparent : ∀ i, c₀ i ≤ (s'.threads p).clock i := fun i =>
    (hi.parent i).trans (thread_clock_mono hrel (.help hi.pc hs) p i)
  -- before `merge` there is nothing to say about the thread's own clock
  have hbefore : ∀ h', (s'.threads c).pc = .help h' → h'.target = h.target → h'.stage ≠ .merge →
      ∃ h', Inherits p c c₀ s' h' := fun h' hpc htarget hst =>
    ⟨h', hpc, htarget.trans hi.target, hparent, fun hm => absurd hm hst⟩
  cases hs with
  | return_ hst hle =>
      refine .inr ⟨by simp [State.setPc, State.setThread], fun i hlt => ?_⟩
      have hmerged := hi.merged hst i (by omega)
      simpa [State.setPc, State.setThread] using hmerged
  | merge hst hlt =>
      refine .inl ⟨{ h with i := h.i + 1 }, by simp [State.setThread], hi.target, hparent,
        fun _ i hilt => ?_⟩
      simp only [State.setThread, update_self, VectorClock.assign, update_apply]
      split
      · rename_i heq
        subst heq
        refine (hi.parent h.i).trans ((le_of_eq ?_).trans (le_max_right _ _))
        rw [hi.target]
        rfl
      · rename_i hne
        change i < h.i + 1 at hilt
        exact hi.merged hst i (by omega)
  | reachedAll hst h0 hdone =>
      refine .inl ⟨{ h with stage := .merge }, by simp [State.setPc, State.setThread], hi.target, hparent,
        fun _ i hilt => ?_⟩
      change i < h.i at hilt
      omega
  | cons hst hr hout => exact .inl (hbefore h hi.pc rfl (by simp [hst]))
  | _ hst =>
      refine .inl (hbefore _ (by
        simp only [State.setPc, State.setThread, State.setRing, State.setMtx, State.setClock, State.emit,
          update_self]
        rfl) ?_ ?_)
      · rfl
      · simp [hst]

theorem step (hi : Inherits p c c₀ s h) (hrel : Releases cfg s) (hs : Step cfg s a s') :
    (∃ h', Inherits p c c₀ s' h') ∨
      (s'.threads c).pc = .idle ∧ ∀ i < cfg.nodeCount, c₀ i ≤ (s'.threads c).clock i := by
  by_cases ha : a = .thread c
  · subst ha
    cases hs with
    | thread hs => exact absurd hi.pc (hs.not_help h)
    | help hpc hs =>
        obtain rfl := ThreadPc.help.inj (hi.pc.symm.trans hpc)
        exact hi.help_step hrel hs
  · rcases thread_of_ne hs ha with heq | ⟨hidle, -⟩
    · refine .inl ⟨h, by rw [heq, hi.pc], hi.target, fun i => ?_, by rw [heq]; exact hi.merged⟩
      exact (hi.parent i).trans (thread_clock_mono hrel hs p i)
    · rw [hi.pc] at hidle
      cases hidle

end Inherits

/-- The steps of a run up to the return of the `thread_acquire` that thread `c` is in. -/
def Acquiring (cfg : Config) (c : ℕ) (s : State) (a : Action) : Prop :=
  NoWrap cfg s a ∧ ∃ h, (s.threads c).pc = .help h

/-- Along the call the thread is still in it, or has just returned. -/
theorem inherits_of_call {p c : ℕ} {c₀ : VectorClock} {s₁ s₂ : State}
    (hrun : (machine cfg).Run (NoWrap cfg) s₁) (hstart : ∃ h, Inherits p c c₀ s₁ h)
    (hcall : Relation.ReflTransGen ((machine cfg).Next (Acquiring cfg c)) s₁ s₂) :
    (machine cfg).Run (NoWrap cfg) s₂ ∧
      ((∃ h, Inherits p c c₀ s₂ h) ∨ (s₂.threads c).pc = .idle) := by
  induction hcall with
  | refl => exact ⟨hrun, .inl hstart⟩
  | tail _ hnext ih =>
      obtain ⟨a, ⟨hok, h, hpc⟩, hstep⟩ := hnext
      obtain ⟨hrun', hi⟩ := ih
      refine ⟨hrun'.step hok hstep, ?_⟩
      rcases hi with ⟨h', hi⟩ | hidle
      · exact (hi.step (inv_of_run hrun').releases (step_cases hstep)).imp id And.left
      · rw [hpc] at hidle
        cases hidle

/-- When the first `thread_acquire` of a thread that was created on its parent's node returns, its clock is at
least that of the parent at the creation, and no remote component is ahead of the cache clock. -/
theorem create_transfers_view (cfg : Config) (p c : ℕ) (s s₁ s₂ s₃ : State)
    (hrun : (machine cfg).Run (NoWrap cfg) s) (hcreate : (machine cfg).step s (.create p c) = some s₁)
    (hcall : Relation.ReflTransGen ((machine cfg).Next (Acquiring cfg c)) s₁ s₂)
    (hwrap : NoWrap cfg s₂ (.thread c)) (hlast : (machine cfg).step s₂ (.thread c) = some s₃)
    (hret : (s₃.threads c).pc = .idle) :
    (∀ i < cfg.nodeCount, (s.threads p).clock i ≤ (s₃.threads c).clock i) ∧
      ∀ i, i ≠ cfg.home c → (s₃.threads c).clock i ≤ s₃.clock (cfg.home c) i := by
  have hrun₁ : (machine cfg).Run (NoWrap cfg) s₁ := by
    refine .step hrun (fun _ _ ha => ?_) hcreate
    cases ha
  have hstart : ∃ h, Inherits p c (s.threads p).clock s₁ h := by
    have hs : Step cfg s (.create p c) s₁ := step_cases hcreate
    cases hs with
    | create hp hc hne hhome =>
        refine ⟨⟨.parent p, false, fun _ => false, 0, .loop⟩, by simp [State.setPc, State.setThread], rfl,
          fun i => ?_, by simp⟩
        simp [State.setPc, State.setThread, Ne.symm hne]
  obtain ⟨hrun₂, hcases⟩ := inherits_of_call hrun₁ hstart hcall
  have hs : Step cfg s₂ (.thread c) s₃ := step_cases hlast
  refine ⟨?_, (inv_of_run (hrun₂.step hwrap hlast)).acquires.bound c⟩
  rcases hcases with ⟨h, hi⟩ | hidle
  · rcases hi.step (inv_of_run hrun₂).releases hs with ⟨h', hi'⟩ | ⟨-, hle⟩
    · rw [hi'.pc] at hret
      cases hret
    · exact hle
  · simp [machine, Cluster.step, stepThread, hidle] at hlast

def ThreadPc.acquiring : ThreadPc → Bool
  | .help _ => true
  | _ => false

/-- A guard for a short run of the call that thread `c` is in. -/
def shortCall (c : ℕ) (s : State) (a : Action) : Bool := shortRun s a && (s.threads c).pc.acquiring

theorem acquiring_of_shortCall {c : ℕ} (h : shortCall c s a = true) : Acquiring .default c s a := by
  obtain ⟨hshort, hpc⟩ := Bool.and_eq_true_iff.mp h
  refine ⟨noWrap_of_shortRun hshort, ?_⟩
  cases hcall : (s.threads c).pc with
  | help k => exact ⟨k, rfl⟩
  | _ => simp [hcall, ThreadPc.acquiring] at hpc

/-- Thread 0 stores and releases, and creates thread 8 on its node. It stores and releases once more before
the new thread reads its clock. -/
theorem create_transfers_view_late :
    ∃ s s₁ s₂ s₃ : State, (machine .default).Run (NoWrap .default) s ∧
      (machine .default).step s (.create 0 8) = some s₁ ∧
      (machine .default).step s₂ (.thread 8) = some s₃ ∧ (s.threads 0).clock 0 = 1 ∧
      (s₂.threads 0).clock 0 = 2 ∧
      ∀ i < 8, (s.threads 0).clock i ≤ (s₃.threads 8).clock i := by
  let release : List Action := [.logStore 0 640, .thread 0, .release 0] ++ List.replicate 10 (.thread 0)
  obtain ⟨s, hs, s₁, hs₁, s₂, hs₂, s₃, hs₃, hshort, hret, hone, htwo⟩ :
      ∃ s, (machine .default).exec shortRun (initial .default) release = some s ∧
      ∃ s₁, (machine .default).step s (.create 0 8) = some s₁ ∧
      ∃ s₂, (machine .default).exec (shortCall 8) s₁ (release ++ List.replicate 32 (.thread 8)) = some s₂ ∧
      ∃ s₃, (machine .default).step s₂ (.thread 8) = some s₃ ∧ shortRun s₂ (.thread 8) = true ∧
        (s₃.threads 8).pc = .idle ∧ (s.threads 0).clock 0 = 1 ∧ (s₂.threads 0).clock 0 = 2 := by
    exact ⟨_, rfl, _, rfl, _, rfl, _, rfl, rfl, rfl, by decide +kernel, by decide +kernel⟩
  have hrun : (machine .default).Run (NoWrap .default) s :=
    Machine.Run.exec (.init rfl) (fun _ _ => noWrap_of_shortRun) hs
  refine ⟨s, s₁, s₂, s₃, hrun, hs₁, hs₃, hone, htwo, ?_⟩
  refine (create_transfers_view .default 0 8 s s₁ s₂ s₃ hrun hs₁ ?_ (noWrap_of_shortRun hshort) hs₃ hret).1
  exact Machine.reflTransGen_of_exec (fun _ _ => acquiring_of_shortCall) hs₂

end Cluster

end RACoherence
