import RACoherence.CXLBarrier.Rounds

/-!
# Who opens the barrier

The comparison with `target` succeeds for the thread with the last ticket, and for nobody else, if and
only if the number of participants fits a `char` and one more.
-/

namespace RACoherence

open Function CXLAtomic CountingBarrier

namespace CXLBarrier

variable {home : ℕ → ℕ} {N : ℕ} {s s' : State} {t m : ℕ}

/-! ## At most 128 participants -/

/-- The thread that takes the branch is the one with the last ticket. -/
theorem Sim.existsUnique_decided {b : CountingBarrier.State} (h : Sim N s b) (hN : 1 ≤ N)
    (hchar : N ≤ 128) {k : ℕ} (hall : ∀ t < N, (s.decided t k).isSome) :
    ∃! t, t < N ∧ s.decided t k = some true := by
  have hticket : ∀ t < N, ∃ x d, b.ticket t k = some x ∧ s.decided t k = some d ∧
      (d = true ↔ x + 1 = N) := by
    intro t ht
    obtain ⟨d, hd⟩ := Option.isSome_iff_exists.mp (hall t ht)
    obtain ⟨x, hx, hxd⟩ := h.decided t k d hd
    exact ⟨x, d, hx, hd, by simpa [hchar] using hxd⟩
  have hiff : ∀ t < N, s.decided t k = some true ↔ b.ticket t k = some (N - 1) := by
    intro t ht
    obtain ⟨x, d, hx, hd, hxd⟩ := hticket t ht
    rw [hx, hd, Option.some.injEq, Option.some.injEq, hxd]
    omega
  have hsome : ∀ t < N, (b.ticket t k).isSome := fun t ht => by
    obtain ⟨x, -, hx, -⟩ := hticket t ht
    simp [hx]
  obtain ⟨t, ⟨ht, hlast⟩, huniq⟩ := h.ok.existsUnique_last hN hsome
  refine ⟨t, ⟨ht, (hiff t ht).mpr hlast⟩, fun u hu => huniq u ⟨hu.1, (hiff u hu.1).mp hu.2⟩⟩

/-! ## More participants -/

/-- Nobody else in the section, the next access of `t` is enabled. -/
theorem exists_exec (home : ℕ → ℕ) {s : CXLAtomic.State 32} (h : CXLAtomic.Inv s) {i : Instr 32}
    {rest : List (Instr 32)} (hcode : (s.threads t).code = i :: rest)
    (hout : ∀ u, u ≠ t → ¬ InSection (s.threads u).code) : ∃ s', exec home s t 0 rest i = some s' := by
  cases i with
  | lock =>
      cases hmtx : (s.atomics (s.threads t).loc).mtx with
      | none => exact Option.isSome_iff_exists.mp (by simp [exec, hmtx])
      | some u =>
          obtain ⟨-, hsec⟩ := (h.owner _ u).mp hmtx
          by_cases hu : u = t
          · subst hu
            exact absurd hsec (by simp [hcode, InSection])
          · exact absurd hsec (hout u hu)
  | _ => exact ⟨_, rfl⟩

/-- Then `t` can also finish its operation. -/
theorem exists_finish (hN : N < 2 ^ 31) (h : (machine home N).Reachable s)
    (hout : ∀ u, u ≠ t → ¬ InSection (s.sync.threads u).code) :
    ∃ s', (machine home N).Reachable s' ∧ (s'.sync.threads t).code = [] ∧
      (∀ u, u ≠ t → (s'.sync.threads u).code = (s.sync.threads u).code) ∧ s'.pc = s.pc ∧
      s'.round = s.round ∧ s'.decided = s.decided := by
  induction hlen : (s.sync.threads t).code.length generalizing s with
  | zero => exact ⟨s, h, List.eq_nil_of_length_eq_zero hlen, fun _ _ => rfl, rfl, rfl, rfl⟩
  | succ n ih =>
      obtain ⟨i, rest, hcode⟩ := List.exists_cons_of_length_eq_add_one hlen
      obtain ⟨b, hsim⟩ := sim_of_reachable hN h
      obtain ⟨sync, hexec⟩ := exists_exec home hsim.sync hcode hout
      have hstep : (machine home N).step s (.thread t 0) =
          some { if isArrival (s.pc t) i then s.arriveAt t else s with sync := sync } := by
        simp only [machine, step, hcode, hexec, Option.map_some]
      obtain ⟨hother, -, hrest, -⟩ := exec_frame hexec
      have hout' : ∀ u, u ≠ t → ¬ InSection (sync.threads u).code := fun u hu => by
        rw [hother u hu]
        exact hout u hu
      obtain ⟨s', hrun, hdone, hsame, hpc, hround, hdec⟩ := ih (.step h trivial hstep) hout' (by
        simpa [hrest, hcode] using hlen)
      refine ⟨s', hrun, hdone, fun u hu => ?_, ?_, ?_, ?_⟩
      · rw [hsame u hu]
        simp only [hother u hu]
      · rw [hpc]
        simp only
        split <;> rfl
      · rw [hround]
        simp only
        split <;> rfl
      · rw [hdec]
        simp only
        split <;> rfl

/-- In the first round, the threads below `m` have arrived in vain and the others have not called
`wait`. -/
structure Vain (m : ℕ) (s : State) : Prop where
  out : ∀ u, ¬ InSection (s.sync.threads u).code
  idle : ∀ u, m ≤ u → s.pc u = .idle
  round : ∀ u, s.round u = 0
  decided : ∀ u, u < m → s.decided u 0 = some false

/-- A call of an operation keeps everybody out of the section. -/
theorem out_call {pc : Pc} {l : ℕ} {op : Op 32} {order : MemoryOrder}
    (hout : ∀ u, u ≠ t → ¬ InSection (s.sync.threads u).code) (u : ℕ) :
    ¬ InSection ((s.call t pc l op order).sync.threads u).code := by
  simp only [State.call, CXLAtomic.State.setThread, update_apply]
  split
  · exact not_inSection_code op order
  · exact hout u ‹_›

/-- A step that starts an operation of `t` can be followed by the whole operation. -/
theorem exists_operation (hN : N < 2 ^ 31) (h : (machine home N).Reachable s)
    (hout : ∀ u, u ≠ t → ¬ InSection (s.sync.threads u).code) {a : Action} {pc : Pc} {l : ℕ} {op : Op 32}
    {order : MemoryOrder} (hstep : (machine home N).step s a = some (s.call t pc l op order)) :
    ∃ s', (machine home N).Reachable s' ∧ (s'.sync.threads t).code = [] ∧ s'.pc = update s.pc t pc ∧
      (∀ u, u ≠ t → ¬ InSection (s'.sync.threads u).code) ∧ s'.round = s.round ∧
      s'.decided = s.decided := by
  obtain ⟨s', hrun, hdone, hsame, hpc, hround, hdec⟩ :=
    exists_finish hN (.step h trivial hstep) fun u _ => out_call hout u
  refine ⟨s', hrun, hdone, hpc, fun u hu => ?_, hround, hdec⟩
  rw [hsame u hu]
  exact out_call hout u

/-- One more thread arrives in vain. -/
theorem Vain.next (hN : N < 2 ^ 31) (hchar : 128 < N) (hm : m < N) (h : (machine home N).Reachable s)
    (hv : Vain m s) : ∃ s', (machine home N).Reachable s' ∧ Vain (m + 1) s' := by
  -- the first load of the phase
  have h₁ : (machine home N).step s (.wait m) = some (s.call m .loadPhase phase .load .acquire) := by
    simp [machine, step, hm, hv.idle m le_rfl]
  obtain ⟨s₁, hr₁, hc₁, hp₁, hout₁, hround₁, hd₁⟩ :=
    exists_operation hN h (fun u _ => hv.out u) h₁
  -- the arrival
  have h₂ : (machine home N).step s₁ (.thread m 0) =
      some (s₁.call m (.arrive (s₁.sync.threads m).ret) arrived (.fetchAdd 1) .acqRel) := by
    simp [machine, step, hc₁, control, hp₁]
  obtain ⟨s₂, hr₂, hc₂, hp₂, hout₂, hround₂, hd₂⟩ := exists_operation hN hr₁ hout₁ h₂
  -- the load of the target
  have h₃ : (machine home N).step s₂ (.thread m 0) = some (s₂.call m
      (.loadTarget (s₁.sync.threads m).ret ((s₂.sync.threads m).ret + 1)) target .load .relaxed) := by
    simp [machine, step, hc₂, control, hp₂]
  obtain ⟨s₃, hr₃, hc₃, hp₃, hout₃, hround₃, hd₃⟩ := exists_operation hN hr₂ hout₂ h₃
  have hpc₃ : s₃.pc m = .loadTarget (s₁.sync.threads m).ret ((s₂.sync.threads m).ret + 1) := by
    simp [hp₃]
  -- the comparison fails whatever the ticket is
  have hne : (s₂.sync.threads m).ret + 1 ≠ (s₃.sync.threads m).ret := by
    obtain ⟨b, hsim⟩ := sim_of_reachable hN hr₃
    obtain ⟨-, -, ⟨x, hx, hla⟩, hret⟩ : _ ∧ _ ∧ _ ∧ _ := by simpa only [hpc₃, PcOk] using hsim.pc m
    rw [hla, hret hc₃, Ne, eq_target_iff hN (hsim.ok.lt m hm _ x hx)]
    omega
  have h₄ : (machine home N).step s₃ (.thread m 0) = some ((s₃.decide m false).call m
      (.spin (s₁.sync.threads m).ret) phase .load .acquire) := by
    simp only [machine, step, hc₃, control, hpc₃, if_neg hne]
  have hrounds : s₃.round = s.round := hround₃.trans (hround₂.trans hround₁)
  have hdecs : s₃.decided = s.decided := hd₃.trans (hd₂.trans hd₁)
  refine ⟨_, .step hr₃ trivial h₄, out_call hout₃, fun u hu => ?_, fun u => ?_, fun u hu => ?_⟩
  · have hne : u ≠ m := by omega
    simp only [State.call, State.decide, hp₃, hp₂, hp₁, update_of_ne hne]
    exact hv.idle u (by omega)
  · show s₃.round u = 0
    rw [hrounds, hv.round]
  · simp only [State.call, State.decide, hrounds, hdecs, hv.round, update_apply]
    split
    · rfl
    · exact hv.decided u (by omega)

theorem exists_initial (home : ℕ → ℕ) (N : ℕ) : ∃ s, Initial home N s := by
  refine ⟨⟨_, fun _ => .idle, fun _ => 0, fun _ _ => none, fun _ _ => none⟩,
    ⟨zero, 0, 0, 0, ⟨fun _ => rfl, fun _ => rfl, fun _ => rfl⟩, rfl⟩, fun _ => rfl, fun _ => rfl,
    fun _ _ => rfl, fun _ _ => rfl⟩

/-- All of more than 128 threads can arrive in vain. -/
theorem exists_vain (home : ℕ → ℕ) (hN : N < 2 ^ 31) (hchar : 128 < N) (hm : m ≤ N) :
    ∃ s, (machine home N).Reachable s ∧ Vain m s := by
  induction m with
  | zero =>
      obtain ⟨s, hs⟩ := exists_initial home N
      obtain ⟨s₀, t, c₁, c₂, h₀, hexec⟩ := hs.init
      have hcode := (init_spec h₀ hexec).1
      exact ⟨s, .init hs, fun u => by simp [hcode u, InSection], fun u _ => hs.pc u, hs.round,
        fun u hu => absurd hu (Nat.not_lt_zero u)⟩
  | succ m ih =>
      obtain ⟨s, hs, hv⟩ := ih (by omega)
      exact hv.next hN hchar (by omega) hs

/-! ## The result -/

/-- Whenever all threads have evaluated the comparison with `target` in a round, exactly one of them
has taken the branch that opens the barrier. -/
def OneOpens (home : ℕ → ℕ) (N : ℕ) : Prop :=
  ∀ s, (machine home N).Reachable s → ∀ k, (∀ t < N, (s.decided t k).isSome) →
    ∃! t, t < N ∧ s.decided t k = some true

theorem oneOpens_of_le (home : ℕ → ℕ) (hN : 1 ≤ N) (hchar : N ≤ 128) : OneOpens home N := by
  intro s hs k hall
  obtain ⟨b, hsim⟩ := sim_of_reachable (by omega) hs
  exact hsim.existsUnique_decided hN hchar hall

theorem not_oneOpens_of_lt (home : ℕ → ℕ) (hN : N < 2 ^ 31) (hchar : 128 < N) : ¬ OneOpens home N := by
  intro hone
  obtain ⟨s, hs, hv⟩ := exists_vain home hN hchar le_rfl
  obtain ⟨t, ⟨ht, htrue⟩, -⟩ := hone s hs 0 fun t ht => by simp [hv.decided t ht]
  rw [hv.decided t ht] at htrue
  cases htrue

/-- For every positive `int` `N`, the barrier of `N` threads opens in every round if and only if `N` is
at most 128. -/
theorem barrier_opens_iff (home : ℕ → ℕ) (N : ℕ) (hN : 1 ≤ N) (hint : N < 2 ^ 31) :
    OneOpens home N ↔ N ≤ 128 := by
  constructor
  · intro hone
    by_contra hchar
    exact not_oneOpens_of_lt home hint (by omega) hone
  · exact oneOpens_of_le home hN

theorem barrier_opens_two : OneOpens id 2 :=
  (barrier_opens_iff id 2 (by decide) (by decide)).mpr (by decide)

/-- With 129 threads nobody opens it. -/
theorem barrier_stuck : ¬ ∀ N : ℕ, 1 ≤ N → N < 2 ^ 31 → OneOpens id N := fun h =>
  not_oneOpens_of_lt id (by decide) (by decide) (h 129 (by decide) (by decide))

end CXLBarrier

end RACoherence
