import RACoherence.CXLAtomic.Exec

/-!
# Release sequences

While `inner->mtx` is free, the clock of an atomic bounds the clocks of all release writes whose
release sequence the newest write belongs to. An operation that holds the mutex breaks this only
between the two accesses that change the clock and the value: a `store` writes the clock first, a
`fetch_add` the value. Relaxed operations do not take the mutex and may fall in between; they can end
a release sequence or prolong it, but never start one.
-/

namespace RACoherence

open Function

namespace CXLAtomic

variable {w : ℕ}

/-! ## Positions in an operation -/

/-- The operation is between `lock` and `unlock`. -/
def InSection (is : List (Instr w)) : Prop := .unlock ∈ is ∧ .lock ∉ is

/-- What can follow an access in an operation. -/
def Follows (op : Op w) (order : MemoryOrder) (rest : List (Instr w)) : Instr w → Prop
  | .release => .release ∉ rest ∧ ∃ is, rest = .lock :: is
  | .lock => InSection rest ∧ .release ∉ rest ∧
      ((∃ v, rest = [.setClock, .store v, .unlock]) ∨ (∃ is, rest = .load true :: is) ∨
        ∃ v is, rest = .fetchAdd v true :: is)
  | .setClock => ∃ v, rest = [.store v, .unlock]
  | .store _ => (rest = [] ∧ ¬ op.Releases order) ∨ rest = [.unlock]
  | .load _ => rest = [] ∨ rest = [.readClock, .unlock, .acquire]
  | .fetchAdd _ _ => (rest = [] ∧ ¬ op.Releases order) ∨
      (rest = [.readClock, .unlock, .acquire] ∧ ¬ op.Releases order) ∨
      rest = [.mergeClock, .unlock] ∨ rest = [.mergeClock, .readClock, .unlock, .acquire]
  | .mergeClock => rest = [.unlock] ∨ rest = [.readClock, .unlock, .acquire]
  | .readClock => rest = [.unlock, .acquire]
  | .unlock => rest = [] ∨ rest = [.acquire]
  | .acquire => rest = []

theorem follows_of_suffix {op : Op w} {order : MemoryOrder} {i : Instr w} {rest : List (Instr w)}
    (h : i :: rest <:+ code op order) : Follows op order rest i := by
  unfold code at h
  split at h <;> repeat' (split at h)
  all_goals
    simp only [List.suffix_cons_iff, List.suffix_nil, List.cons.injEq, reduceCtorEq, or_false] at h
    rcases h with ⟨rfl, rfl⟩ | ⟨rfl, rfl⟩ | ⟨rfl, rfl⟩ | ⟨rfl, rfl⟩ | ⟨rfl, rfl⟩ |
        ⟨rfl, rfl⟩ | ⟨rfl, rfl⟩ <;>
      simp_all [Follows, InSection, Op.Releases]

/-! ## The invariant -/

/-- The clock bounds the release writes that the newest write carries on. -/
def Good (a : Atomic w) : Prop := ∀ c, ReleasedBy c a.writes → c ≤ a.clock

/-- What holds of an atomic while an operation of `th` has its mutex. -/
def Held (th : Thread w) (a : Atomic w) : Prop :=
  match th.code with
  | .store _ :: _ => a.clock = th.threadClock
  | .mergeClock :: _ => ∀ c, ReleasedBy c a.writes → c ≤ a.clock ∨ c ≤ th.threadClock
  | _ => Good a

/-- What holds of a thread whose operation is on the atomic `a`. -/
structure ThreadOk (th : Thread w) (a : Atomic w) : Prop where
  suffix : th.code <:+ code th.op th.order
  released : .release ∉ th.code → th.code ≠ [] → th.relClk = th.threadClock
  held : InSection th.code → Held th a
  read : ∀ is, th.code = .readClock :: is ∨ th.code = .mergeClock :: .readClock :: is →
    ∀ c, ReleasedBy c th.readFrom → c ≤ a.clock
  seen : th.code = [.unlock, .acquire] ∨ th.code = [.acquire] →
    ∀ c, ReleasedBy c th.readFrom → c ≤ th.clock

structure Inv (s : State w) : Prop where
  thread : ∀ t, ThreadOk (s.threads t) (s.atomics (s.threads t).loc)
  owner : ∀ l t, (s.atomics l).mtx = some t ↔ (s.threads t).loc = l ∧ InSection (s.threads t).code
  free : ∀ l, (s.atomics l).mtx = none → Good (s.atomics l)

variable {s s' : State w} {t : ℕ} {th : Thread w} {a a' : Atomic w}

/-- Nothing is asked of a thread that has finished its operation. -/
theorem ThreadOk.done (h : th.code = []) : ThreadOk th a := by
  constructor <;> simp [h, InSection]

/-- Under the mutex the clock is good, except before the accesses that complete a write. -/
theorem ThreadOk.good {i : Instr w} {rest : List (Instr w)} (h : ThreadOk th a)
    (hcode : th.code = i :: rest) (hsec : InSection th.code) (hstore : ∀ v, i ≠ .store v)
    (hmerge : i ≠ .mergeClock) : Good a := by
  have hheld := h.held hsec
  unfold Held at hheld
  split at hheld
  · rename_i v is his
    exact absurd (List.cons.inj (hcode.symm.trans his)).1 (hstore v)
  · rename_i is his
    exact absurd (List.cons.inj (hcode.symm.trans his)).1 hmerge
  · exact hheld

/-- A thread outside the section does not care about the atomic, and one inside keeps what it knows
while nobody writes the clock or starts a release sequence. -/
theorem ThreadOk.frame (h : ThreadOk th a)
    (hin : InSection th.code → a'.clock = a.clock ∧
      ∀ c, ReleasedBy c a'.writes → ReleasedBy c a.writes) : ThreadOk th a' where
  suffix := h.suffix
  released := h.released
  held hsec := by
    obtain ⟨hclock, hwrites⟩ := hin hsec
    have hheld := h.held hsec
    unfold Held at hheld ⊢
    split at hheld
    · rw [hclock]
      exact hheld
    · intro c hc
      rw [hclock]
      exact hheld c (hwrites c hc)
    · intro c hc
      rw [hclock]
      exact hheld c (hwrites c hc)
  read is his c hc := by
    have hsec : InSection th.code := by
      have hsuf := h.suffix
      -- both forms of the rest of the operation are past `lock` and before `unlock`
      rcases his with his | his <;> rw [his] at hsuf ⊢ <;> have hf := follows_of_suffix hsuf
      · obtain rfl : is = _ := hf
        simp [InSection]
      · rcases hf with hf | hf <;> simp only [List.cons.injEq, reduceCtorEq, false_and, true_and] at hf
        subst hf
        simp [InSection]
    rw [(hin hsec).1]
    exact h.read is his c hc
  seen := h.seen

/-- One access of thread `t` keeps the invariant if it leaves its own thread and its atomic as they
have to be, and writes the clock or starts a release sequence only under the mutex. -/
theorem Inv.update (h : Inv s) {l : ℕ} (hl : (s.threads t).loc = l) (hloc : th.loc = l)
    (hok : ThreadOk th a)
    (hquiet : InSection (s.threads t).code ∨ (a.clock = (s.atomics l).clock ∧
      ∀ c, ReleasedBy c a.writes → ReleasedBy c (s.atomics l).writes))
    (howner : ∀ u, a.mtx = some u ↔ if u = t then InSection th.code else (s.atomics l).mtx = some u)
    (hfree : a.mtx = none → Good a) : Inv ((s.setAtomic l a).setThread t th) where
  thread u := by
    simp only [State.setThread, State.setAtomic, update_apply]
    by_cases hu : u = t
    · simp only [if_pos hu, if_pos hloc]
      exact hok
    · simp only [if_neg hu]
      split
      · rename_i hul
        refine (h.thread u).frame fun hsec => ?_
        rw [hul]
        refine hquiet.resolve_left fun hsect => hu ?_
        -- two threads in the section would both own the mutex
        have hmu := (h.owner l u).mpr ⟨hul, hsec⟩
        have hmt := (h.owner l t).mpr ⟨hl, hsect⟩
        exact Option.some.inj (hmu.symm.trans hmt)
      · exact h.thread u
  owner k u := by
    simp only [State.setThread, State.setAtomic, update_apply]
    by_cases hk : k = l
    · subst hk
      rw [if_pos rfl, howner u]
      by_cases hu : u = t
      · simp [hu, hloc]
      · simpa [hu] using h.owner k u
    · rw [if_neg hk, h.owner k u]
      by_cases hu : u = t
      · subst hu
        simp only [if_true, hl, hloc, Ne.symm hk, false_and]
      · rw [if_neg hu]
  free k hk := by
    simp only [State.setThread, State.setAtomic, update_apply] at hk ⊢
    split
    · rename_i hkl
      rw [if_pos hkl] at hk
      exact hfree hk
    · rename_i hkl
      rw [if_neg hkl] at hk
      exact h.free k hk

/-- A write of an operation that is no release starts no release sequence. -/
theorem releasedBy_of_not_releases (hrel : ¬ th.op.Releases th.order) {rmw : Bool} {c : VectorClock}
    {ws : List Write} (h : ReleasedBy c (th.write rmw :: ws)) : ReleasedBy c ws := by
  rcases h with ⟨h, -⟩ | ⟨-, h⟩
  · simp [Thread.write, hrel] at h
  · exact h

theorem Inv.mtx_of_inSection (h : Inv s) (hsec : InSection (s.threads t).code) :
    (s.atomics (s.threads t).loc).mtx = some t :=
  (h.owner _ t).mpr ⟨rfl, hsec⟩

/-- The owner of the mutex does not change when `t` stays where it is with respect to it. -/
theorem Inv.owner_same (h : Inv s) {is : List (Instr w)}
    (his : InSection is ↔ InSection (s.threads t).code) (u : ℕ) :
    (s.atomics (s.threads t).loc).mtx = some u ↔
      if u = t then InSection is else (s.atomics (s.threads t).loc).mtx = some u := by
  split
  · rename_i hu
    rw [hu, his, h.owner]
    simp
  · rfl

/-- The case of an access that leaves the atomic as it is. -/
theorem Inv.updateThread (h : Inv s) (hloc : th.loc = (s.threads t).loc)
    (hok : ThreadOk th (s.atomics (s.threads t).loc))
    (hsec : InSection th.code ↔ InSection (s.threads t).code) : Inv (s.setThread t th) := by
  have := h.update rfl hloc hok (.inr ⟨rfl, fun _ => id⟩) (h.owner_same hsec) (h.free _)
  simpa [State.setAtomic] using this

variable {home : ℕ → ℕ} {clk : ℕ} {i : Instr w} {rest : List (Instr w)}

/-- Every access keeps the invariant. -/
theorem Inv.exec (h : Inv s) (hcode : (s.threads t).code = i :: rest)
    (hs : exec home s t clk rest i = some s') : Inv s' := by
  have hok := h.thread t
  have hf := follows_of_suffix (hcode ▸ hok.suffix)
  have hsuf : rest <:+ code (s.threads t).op (s.threads t).order :=
    (List.suffix_cons i rest).trans (hcode ▸ hok.suffix)
  have hrelClk : i ≠ .release → .release ∉ rest → (s.threads t).relClk = (s.threads t).threadClock := by
    intro hi hrest
    refine hok.released ?_ (by simp [hcode])
    rw [hcode]
    exact fun hmem => (List.mem_cons.mp hmem).elim (fun heq => hi heq.symm) hrest
  cases i with
  | release =>
      obtain ⟨-, is, rfl⟩ := hf
      cases hs
      have hfields : ((s.threads t).release (home t) clk).loc = (s.threads t).loc ∧
          ((s.threads t).release (home t) clk).op = (s.threads t).op ∧
          ((s.threads t).release (home t) clk).order = (s.threads t).order := by
        unfold Thread.release
        split <;> simp
      refine h.updateThread hfields.1 ⟨?_, ?_, ?_, ?_, ?_⟩ ?_
      · simpa only [hfields] using hsuf
      · simp
      · simp [InSection]
      · simp
      · simp
      · simp [InSection, hcode]
  | lock =>
      obtain ⟨hsec, -, hhead⟩ := hf
      simp only [CXLAtomic.exec] at hs
      split at hs <;> cases hs
      rename_i hmtx
      have hgood := h.free _ hmtx
      refine h.update rfl rfl ⟨hsuf, ?_, ?_, ?_, ?_⟩ (.inr ⟨rfl, fun _ => id⟩) (fun u => ?_) (by simp)
      · exact fun hno _ => hrelClk (by simp) hno
      · intro _
        rcases hhead with ⟨v, rfl⟩ | ⟨is, rfl⟩ | ⟨v, is, rfl⟩ <;> exact hgood
      · rcases hhead with ⟨v, rfl⟩ | ⟨is, rfl⟩ | ⟨v, is, rfl⟩ <;> simp
      · rcases hhead with ⟨v, rfl⟩ | ⟨is, rfl⟩ | ⟨v, is, rfl⟩ <;> simp
      · simp only [hmtx, hsec]
        grind
  | setClock =>
      obtain ⟨v, rfl⟩ := hf
      cases hs
      have hsec : InSection (s.threads t).code := by simp [hcode, InSection]
      refine h.update rfl rfl ⟨hsuf, ?_, ?_, ?_, ?_⟩ (.inl hsec) (h.owner_same ?_) ?_
      · exact fun hno _ => hrelClk (by simp) hno
      · exact fun _ => rfl
      · simp
      · simp
      · simp [InSection, hcode]
      · simp [h.mtx_of_inSection hsec]
  | store v =>
      cases hs
      rcases hf with ⟨rfl, hrel⟩ | rfl
      · refine h.update rfl rfl (.done rfl)
          (.inr ⟨rfl, fun _ => releasedBy_of_not_releases hrel⟩) (h.owner_same ?_) ?_
        · simp [InSection, hcode]
        · exact fun hm c hc => h.free _ hm c (releasedBy_of_not_releases hrel hc)
      · have hsec : InSection (s.threads t).code := by simp [hcode, InSection]
        have hclock : (s.atomics (s.threads t).loc).clock = (s.threads t).threadClock := by
          have := hok.held hsec
          rwa [Held, hcode] at this
        refine h.update rfl rfl ⟨hsuf, ?_, ?_, ?_, ?_⟩ (.inl hsec) (h.owner_same ?_) ?_
        · exact fun hno _ => hrelClk (by simp) hno
        · rintro - c (⟨-, rfl⟩ | ⟨hrmw, -⟩)
          · exact (hrelClk (by simp) (by simp)).trans_le hclock.ge
          · simp [Thread.write] at hrmw
        · simp
        · simp
        · simp [InSection, hcode]
        · simp [h.mtx_of_inSection hsec]
  | load b =>
      cases hs
      rcases hf with rfl | rfl
      · refine h.updateThread rfl (.done rfl) ?_
        simp [InSection, hcode]
      · have hsec : InSection (s.threads t).code := by simp [hcode, InSection]
        have hgood := hok.good hcode hsec (by simp) (by simp)
        refine h.updateThread rfl ⟨hsuf, ?_, ?_, ?_, ?_⟩ ?_
        · exact fun hno _ => hrelClk (by simp) hno
        · exact fun _ => hgood
        · exact fun _ _ => hgood
        · simp
        · simp [InSection, hcode]
  | fetchAdd v b =>
      cases hs
      have hrelClk := hrelClk (by simp) (by rcases hf with ⟨rfl, -⟩ | ⟨rfl, -⟩ | rfl | rfl <;> simp)
      by_cases hnil : rest = []
      · have hrel : ¬ (s.threads t).op.Releases (s.threads t).order := by
          rcases hf with ⟨-, hrel⟩ | ⟨-, hrel⟩ | rfl | rfl <;> simp_all
        subst hnil
        refine h.update rfl rfl (.done rfl)
          (.inr ⟨rfl, fun _ => releasedBy_of_not_releases hrel⟩) (h.owner_same ?_) ?_
        · simp [InSection, hcode]
        · exact fun hm c hc => h.free _ hm c (releasedBy_of_not_releases hrel hc)
      · have hsec : InSection (s.threads t).code := by
          rcases hf with ⟨rfl, -⟩ | ⟨rfl, -⟩ | rfl | rfl <;> simp_all [InSection]
        have hgood := hok.good hcode hsec (by simp) (by simp)
        refine h.update rfl rfl ⟨hsuf, ?_, ?_, ?_, ?_⟩ (.inl hsec) (h.owner_same ?_) ?_
        · exact fun _ _ => hrelClk
        · intro _
          -- without a merge to come, the write is no release
          have hmerge : ∀ c, ReleasedBy c
              ((s.threads t).write true :: (s.atomics (s.threads t).loc).writes) →
              c ≤ (s.atomics (s.threads t).loc).clock ∨ c ≤ (s.threads t).threadClock := by
            rintro c (⟨-, rfl⟩ | ⟨-, hc⟩)
            · exact .inr hrelClk.le
            · exact .inl (hgood c hc)
          rcases hf with ⟨rfl, -⟩ | ⟨rfl, hrel⟩ | rfl | rfl
          · exact absurd rfl hnil
          · exact fun c hc => hgood c (releasedBy_of_not_releases hrel hc)
          · exact hmerge
          · exact hmerge
        · exact fun _ _ => hgood
        · rcases hf with ⟨rfl, -⟩ | ⟨rfl, -⟩ | rfl | rfl <;> simp_all
        · rcases hf with ⟨rfl, -⟩ | ⟨rfl, -⟩ | rfl | rfl <;> simp_all [InSection]
        · simp [h.mtx_of_inSection hsec]
  | mergeClock =>
      cases hs
      have hsec : InSection (s.threads t).code := by
        rcases hf with rfl | rfl <;> simp [hcode, InSection]
      have hheld : ∀ c, ReleasedBy c (s.atomics (s.threads t).loc).writes →
          c ≤ (s.atomics (s.threads t).loc).clock ∨ c ≤ (s.threads t).threadClock := by
        have := hok.held hsec
        rwa [Held, hcode] at this
      have hgood : ∀ c, ReleasedBy c (s.atomics (s.threads t).loc).writes →
          c ≤ (s.atomics (s.threads t).loc).clock.merge (s.threads t).threadClock := fun c hc =>
        (hheld c hc).elim (·.trans VectorClock.le_merge_left) (·.trans VectorClock.le_merge_right)
      refine h.update rfl rfl ⟨hsuf, ?_, ?_, ?_, ?_⟩ (.inl hsec) (h.owner_same ?_) ?_
      · exact fun hno _ => hrelClk (by simp) hno
      · intro _
        rcases hf with rfl | rfl <;> exact hgood
      · rintro is his c hc
        refine (hok.read is ?_ c hc).trans VectorClock.le_merge_left
        rcases hf with rfl | rfl <;> simp_all
      · rcases hf with rfl | rfl <;> simp
      · rcases hf with rfl | rfl <;> simp [InSection, hcode]
      · simp [h.mtx_of_inSection hsec]
  | readClock =>
      obtain rfl : rest = _ := hf
      cases hs
      have hsec : InSection (s.threads t).code := by simp [hcode, InSection]
      have hgood := hok.good hcode hsec (by simp) (by simp)
      refine h.updateThread rfl ⟨hsuf, ?_, ?_, ?_, ?_⟩ ?_
      · exact fun hno _ => hrelClk (by simp) hno
      · exact fun _ => hgood
      · simp
      · exact fun _ => hok.read _ (.inl hcode)
      · simp [InSection, hcode]
  | unlock =>
      cases hs
      have hsec : InSection (s.threads t).code := by
        rcases hf with rfl | rfl <;> simp [hcode, InSection]
      have hout : ¬ InSection rest := by rcases hf with rfl | rfl <;> simp [InSection]
      have hgood := hok.good hcode hsec (by simp) (by simp)
      refine h.update rfl rfl ⟨hsuf, ?_, ?_, ?_, ?_⟩ (.inl hsec) (fun u => ?_) (fun _ => hgood)
      · exact fun hno _ => hrelClk (by simp) hno
      · exact fun hin => absurd hin hout
      · rcases hf with rfl | rfl <;> simp
      · intro his
        refine hok.seen ?_
        rcases hf with rfl | rfl <;> simp_all
      · have hmtx := h.mtx_of_inSection hsec
        grind
  | acquire =>
      obtain rfl : rest = _ := hf
      cases hs
      refine h.updateThread rfl (.done rfl) ?_
      simp [InSection, hcode]

theorem not_inSection_code (op : Op w) (order : MemoryOrder) : ¬ InSection (code op order) := by
  unfold code
  split <;> repeat' split
  all_goals simp [InSection]

/-- A thread between two operations may change its own data and start the next one. -/
theorem Inv.begin (h : Inv s) (hidle : (s.threads t).code = []) (hok : ∀ a, ThreadOk th a)
    (hout : ¬ InSection th.code) : Inv (s.setThread t th) where
  thread u := by
    simp only [State.setThread, update_apply]
    split
    · exact hok _
    · exact h.thread u
  owner l u := by
    simp only [State.setThread, update_apply]
    rw [h.owner l u]
    split
    · rename_i hu
      have hnil : ¬ InSection ([] : List (Instr w)) := by simp [InSection]
      simp only [hu, hidle, hout, hnil, and_false]
    · rfl
  free := h.free

theorem Inv.step (h : Inv s) {a : Action w} (hs : step home s a = some s') : Inv s' := by
  cases a with
  | logStore t cl =>
      simp only [CXLAtomic.step] at hs
      split at hs <;> cases hs
      rename_i hidle
      refine h.begin hidle (fun a => ⟨?_, ?_, ?_, ?_, ?_⟩) ?_ <;>
        simp [hidle, InSection, List.nil_suffix]
  | call t l op order =>
      simp only [CXLAtomic.step] at hs
      split at hs <;> cases hs
      rename_i hidle
      refine h.begin hidle (fun a => ⟨List.suffix_rfl, fun _ _ => rfl, ?_, ?_, ?_⟩)
        (not_inSection_code op order)
      · exact fun hsec => absurd hsec (not_inSection_code op order)
      · exact fun _ _ c hc => absurd hc id
      · exact fun _ c hc => absurd hc id
  | thread t clk =>
      simp only [CXLAtomic.step] at hs
      split at hs
      · cases hs
      · exact h.exec ‹_› hs

theorem inv_of_initial (h : Initial s) : Inv s where
  thread t := by
    refine ⟨?_, ?_, ?_, ?_, ?_⟩ <;> simp [h.code t, InSection, List.nil_suffix]
  owner l t := by simp [h.mtx l, h.code t, InSection]
  free l _ c hc := by
    rw [h.writes l] at hc
    exact absurd hc id

theorem inv_of_reachable (h : (machine home).Reachable s) : Inv s :=
  h.invariant (fun _ => inv_of_initial) fun _ _ _ _ hinv _ hs => hinv.step hs

/-- The last access of an acquire read is its `thread_acquire`. -/
theorem last_of_acquires {op : Op w} {order : MemoryOrder} (hacq : op.Acquires order)
    (h : [i] <:+ code op order) : i = .acquire := by
  unfold code at h
  split at h <;> repeat' (split at h)
  all_goals simp_all [Op.Acquires, List.suffix_cons_iff]

/-- When an acquire read returns that has read from a write in the release sequence of a release write,
the clock of its thread is at least the one that the releasing thread had right after the
`thread_release` of that write. -/
theorem carries_release_sequences (home : ℕ → ℕ) (s s' : State w) (t clk : ℕ) (c : VectorClock)
    (h : (machine home).Reachable s) (hacq : (s.threads t).op.Acquires (s.threads t).order)
    (hstep : (machine home).step s (.thread t clk) = some s') (hret : (s'.threads t).code = [])
    (hc : ReleasedBy c (s'.threads t).readFrom) : c ≤ (s'.threads t).threadClock := by
  have hok := (inv_of_reachable h).thread t
  simp only [machine, step] at hstep
  split at hstep
  · cases hstep
  · rename_i i rest hcode
    obtain rfl : rest = [] := (exec_frame hstep).2.2.1.symm.trans hret
    obtain rfl : i = .acquire := last_of_acquires hacq (hcode ▸ hok.suffix)
    cases hstep
    simp only [State.setThread, update_self] at hc ⊢
    exact (hok.seen (.inr hcode) c hc).trans VectorClock.le_merge_right

/-- Thread 0 stores a line and then releases through atomic 0. -/
def storeRelease : List (Action 32) :=
  [.logStore 0 5, .call 0 0 (.store 7) .release, .thread 0 1, .thread 0 0, .thread 0 0, .thread 0 0,
    .thread 0 0]

/-- Thread 1 adds to it with relaxed order and thread 2 loads it with acquire order, up to its
`thread_acquire`. -/
def addThenLoad : List (Action 32) :=
  [.call 1 0 (.fetchAdd 1) .relaxed, .thread 1 0, .call 2 0 .load .acquire, .thread 2 0, .thread 2 0,
    .thread 2 0, .thread 2 0]

/-- All clocks are 0 and all atomics hold 0. -/
def zero : State 32 where
  atomics _ := ⟨0, fun _ => 0, none, []⟩
  threads _ := ⟨fun _ => 0, 0, 0, .load, .relaxed, [], 0, fun _ => 0, fun _ => 0, []⟩

/-- The load sees the release store through the relaxed `fetch_add`. -/
theorem carries_release_sequences_relaxed_add :
    ∃ (s : State 32) (c : VectorClock), (s.threads 2).code = [] ∧ (s.threads 2).ret = 8 ∧ c 0 = 1 ∧
      ReleasedBy c (s.threads 2).readFrom ∧ c ≤ (s.threads 2).threadClock := by
  let M : Machine (State 32) (Action 32) := machine id
  obtain ⟨s, hs, hval⟩ : ∃ s, M.exec (fun _ _ => true) zero (storeRelease ++ addThenLoad) = some s ∧
      ((s.threads 2).op = .load ∧ (s.threads 2).order = .acquire ∧ (M.step s (.thread 2 0)).map
        (fun s' => ((s'.threads 2).code, (s'.threads 2).ret, (s'.threads 2).readFrom.map
          fun x => (x.releases, x.clk 0, x.rmw))) =
        some ([], 8, [(false, 0, true), (true, 1, false)])) := by
    refine ⟨_, rfl, ?_⟩
    decide +kernel
  obtain ⟨hop, horder, heval⟩ := hval
  obtain ⟨s', hs', hval⟩ := Option.map_eq_some_iff.mp heval
  simp only [Prod.mk.injEq] at hval
  obtain ⟨hcode, hret, hfrom⟩ := hval
  obtain ⟨x, ws, hfrom', hx, hws⟩ := List.map_eq_cons_iff.mp hfrom
  obtain ⟨y, ws', rfl, hy, -⟩ := List.map_eq_cons_iff.mp hws
  simp only [Prod.mk.injEq] at hx hy
  have hc : ReleasedBy y.clk (s'.threads 2).readFrom := by
    rw [hfrom']
    exact .inr ⟨hx.2.2, .inl ⟨hy.1, rfl⟩⟩
  have hrun : M.Reachable s := by
    refine Machine.Run.exec (.init ?_) (fun _ _ _ => trivial) hs
    exact ⟨fun _ => rfl, fun _ => rfl, fun _ => rfl⟩
  refine ⟨s', y.clk, hcode, hret, hy.2.1, hc, ?_⟩
  refine carries_release_sequences id s s' 2 0 y.clk hrun ?_ hs' hcode hc
  rw [hop, horder]
  exact .inl rfl

end CXLAtomic

end RACoherence
