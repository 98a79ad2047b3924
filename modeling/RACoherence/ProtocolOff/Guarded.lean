import RACoherence.ProtocolOff

/-!
# Lines that mutexes guard, without the protocol

Reference: `include/cxlSync.hpp` (`CXLMutex`, `CXLSharedMutex`, `CXLRelaxedMutex`), with `PROTOCOL_OFF=1`.

If the stores to a line are made under the mutex of the line, by its one holder, then whoever has that
mutex, alone or shared, loads what one memory for all nodes would hold. Nothing else has to be said about
what happens before what: between two holders, the mutex has been given what has been stored to its lines. For
that the mutex of a line must not be released by `unlock_relaxed`, which does not wait for the write-backs.
-/

namespace RACoherence

open Function FlushProgram
open Cluster (LineData)

namespace ProtocolOff

variable {w : ℕ}

/-- The thread that has the mutex alone. -/
def Obj.holder : Obj w → Option ℕ
  | .mutex holder => holder
  | .sharedMutex writer _ => writer
  | .atomic _ => none

/-- The threads that share it. -/
def Obj.sharers : Obj w → List ℕ
  | .sharedMutex _ readers => readers
  | .mutex _ | .atomic _ => []

/-- The object that a call uses for something else than its `lock`, `unlock`, `lock_shared` and
`unlock_shared`. -/
def Call.other : Call w → Option ℕ
  | .atomicStore o _ _ | .atomicLoad o _ | .atomicFetchAdd o _ _ | .unlockRelaxed o => some o
  | .load _ | .store _ | .lock _ | .unlock _ | .lockShared _ | .unlockShared _
  | .relaxedSection _ _ _ _ => none

/-- Threads store to a line only while they hold its mutex, and use that only as a mutex: no
`unlock_relaxed`, and no operation of an atomic. -/
def Disciplined (lockOf : ℕ → ℕ) (s : State ℕ ℕ ℕ ℕ (Obj w) LineData) : Action ℕ ℕ ℕ (Call w) → Prop
  | .call _ k => k.Ok ∧ ∀ l, k.other ≠ some (lockOf l)
  | .thread t => ∀ l f c, (s.threads t).code = .store l f :: c → (s.objs (lockOf l)).holder = some t
  | _ => True

/-! ## Operations on mutexes -/

namespace Obj

variable {v v' : Obj w} {t : ℕ}

theorem lock_spec (h : v.lock t = some v') :
    v.holder = none ∧ v.sharers = [] ∧ v'.holder = some t ∧ v'.sharers = [] := by
  unfold lock at h
  split at h <;> cases h <;> exact ⟨rfl, rfl, rfl, rfl⟩

theorem unlock_spec (h : v.unlock t = some v') :
    v.holder = some t ∧ v'.holder = none ∧ v'.sharers = v.sharers := by
  unfold unlock at h
  split at h
  · split at h <;> cases h
    exact ⟨‹_›, rfl, rfl⟩
  · split at h <;> cases h
    exact ⟨‹_›, rfl, rfl⟩
  · cases h

theorem lockShared_spec (h : v.lockShared t = some v') :
    v.holder = none ∧ v'.holder = none ∧ v'.sharers = t :: v.sharers := by
  unfold lockShared at h
  split at h <;> cases h
  exact ⟨rfl, rfl, rfl⟩

theorem unlockShared_spec (h : v.unlockShared t = some v') :
    t ∈ v.sharers ∧ v'.holder = v.holder ∧ v'.sharers = v.sharers.erase t := by
  unfold unlockShared at h
  split at h
  · split at h <;> cases h
    exact ⟨‹_›, rfl, rfl⟩
  · cases h

end Obj

/-- What threads do to mutexes. -/
inductive MutexOp (t : ℕ) : (Obj w → Option (Obj w)) → Bool → Giving → Prop
  | lock : MutexOp t (Obj.lock t) true .keep
  | unlock : MutexOp t (Obj.unlock t) false .replace
  | lockShared : MutexOp t (Obj.lockShared t) true .keep
  | unlockShared : MutexOp t (Obj.unlockShared t) false .merge

/-- The instruction does nothing else to the mutexes of lines. -/
def MutexOnly (lockOf : ℕ → ℕ) (t : ℕ) (i : Instr ℕ ℕ (Obj w) LineData) : Prop :=
  ∀ l f acquires gives, i = .sync (lockOf l) f acquires gives → MutexOp t f acquires gives

variable {lockOf : ℕ → ℕ} {t o : ℕ}

theorem mutexOnly_of_op {f : Obj w → Option (Obj w)} {acquires : Bool} {gives : Giving}
    (h : MutexOp t f acquires gives) : MutexOnly lockOf t (.sync o f acquires gives) := by
  rintro l f' acquires' gives' heq
  obtain ⟨-, rfl, rfl, rfl⟩ := Instr.sync.inj heq
  exact h

theorem mutexOnly_of_ne {f : Obj w → Option (Obj w)} {acquires : Bool} {gives : Giving}
    (h : ∀ l, o ≠ lockOf l) : MutexOnly lockOf t (.sync o f acquires gives) := by
  rintro l f' acquires' gives' heq
  exact absurd (Instr.sync.inj heq).1 (h l)

theorem mutexOnly_of_line {i : Instr ℕ ℕ (Obj w) LineData}
    (h : ∀ o f acquires gives, i ≠ .sync o f acquires gives) : MutexOnly lockOf t i :=
  fun _ _ _ _ heq => absurd heq (h _ _ _ _)

theorem mutexOnly_rangeCode {call : ℕ → ℕ → ℤ → Option (List FlushUtils.Flush)} {data n : ℕ}
    {i : Instr ℕ ℕ (Obj w) LineData} (h : i ∈ rangeCode call data n) : MutexOnly lockOf t i := by
  obtain ⟨f, -, rfl⟩ := List.mem_map.mp h
  cases f <;> exact mutexOnly_of_line (by simp [flushInstr])

theorem mutexOnly_fence : MutexOnly lockOf t (.writebackFence : Instr ℕ ℕ (Obj w) LineData) :=
  mutexOnly_of_line (by simp)

theorem mutexOnly_lock : ∀ i ∈ (lock t o : Code w), MutexOnly lockOf t i := by
  simpa [lock] using mutexOnly_of_op .lock

theorem mutexOnly_unlock : ∀ i ∈ (unlock t o : Code w), MutexOnly lockOf t i := by
  simpa [unlock] using And.intro mutexOnly_fence (mutexOnly_of_op .unlock)

/-- A section under a relaxed mutex locks and unlocks it. -/
theorem mutexOnly_relaxedSection {data n : ℕ} {body : List Access} :
    ∀ i ∈ (relaxedSection t o data n body : Code w), MutexOnly lockOf t i := by
  intro i hi
  simp only [relaxedSection, relaxedLock, relaxedUnlock, List.mem_append] at hi
  rcases hi with (((hi | hi) | hi) | hi) | hi | hi
  · exact mutexOnly_lock i hi
  · exact mutexOnly_rangeCode hi
  · rw [List.mem_singleton] at hi
    exact mutexOnly_of_line (by simp [hi])
  · obtain ⟨a, -, rfl⟩ := List.mem_map.mp hi
    cases a <;> exact mutexOnly_of_line (by simp [Access.instr, storeInstr])
  · exact mutexOnly_rangeCode hi
  · exact mutexOnly_unlock i hi

/-- Calls that use mutexes as such do nothing else to them. -/
theorem mutexOnly_code {k : Call w} (hother : ∀ l, k.other ≠ some (lockOf l)) :
    ∀ i ∈ k.code t, MutexOnly lockOf t i := by
  cases k with
  | load addr =>
      simp only [Call.code, racLoad]
      split
      · simp [mutexOnly_of_line]
      · simp
  | store p =>
      simp only [Call.code, racStore]
      split
      · simp [mutexOnly_of_line, storeInstr]
      · simp
  | atomicStore o desired order =>
      have hne (l : ℕ) : o ≠ lockOf l := fun heq => hother l (congrArg some heq)
      simp only [Call.code, atomicStore]
      split <;> simp [mutexOnly_fence, mutexOnly_of_ne hne]
  | atomicLoad o order =>
      have hne (l : ℕ) : o ≠ lockOf l := fun heq => hother l (congrArg some heq)
      simp [Call.code, atomicLoad, mutexOnly_of_ne hne]
  | atomicFetchAdd o arg order =>
      have hne (l : ℕ) : o ≠ lockOf l := fun heq => hother l (congrArg some heq)
      simp only [Call.code, atomicFetchAdd]
      split <;> simp [mutexOnly_fence, mutexOnly_of_ne hne]
  | unlockRelaxed o =>
      have hne (l : ℕ) : o ≠ lockOf l := fun heq => hother l (congrArg some heq)
      simp [Call.code, unlockRelaxed, mutexOnly_of_ne hne]
  | lock o => exact mutexOnly_lock
  | unlock o => exact mutexOnly_unlock
  | lockShared o => simpa [Call.code, lockShared] using mutexOnly_of_op .lockShared
  | unlockShared o =>
      simpa [Call.code, unlockShared] using And.intro mutexOnly_fence (mutexOnly_of_op .unlockShared)
  | relaxedSection o data n body => exact mutexOnly_relaxedSection

/-! ## Where the stores to a line are known -/

/-- What the holder of an object has in its past, or what the object has been given. -/
def place (s : State ℕ ℕ ℕ ℕ (Obj w) LineData) (o : ℕ) : List (ℕ × ℕ) :=
  match (s.objs o).holder with
  | some t => (s.threads t).known
  | none => s.given o

/-- Nobody has a mutex that somebody has alone, and the stores to its lines are in its place and in the past
of everybody who shares it. -/
structure Inv (lockOf : ℕ → ℕ) (s : State ℕ ℕ ℕ ℕ (Obj w) LineData) : Prop where
  code : ∀ t, ∀ i ∈ (s.threads t).code, MutexOnly lockOf t i
  alone : ∀ l t, (s.objs (lockOf l)).holder = some t → (s.objs (lockOf l)).sharers = []
  place : ∀ l p m, (s.events l)[p]? = some (.store m) → (l, p) ∈ place s (lockOf l)
  shared : ∀ l, ∀ t ∈ (s.objs (lockOf l)).sharers, ∀ p m, (s.events l)[p]? = some (.store m) →
    (l, p) ∈ (s.threads t).known

variable {s s' : State ℕ ℕ ℕ ℕ (Obj w) LineData} {l : ℕ} {home : ℕ → ℕ} {a : Action ℕ ℕ ℕ (Call w)}
  {objs : ℕ → Obj w} {mem : ℕ → LineData} {th : Thread ℕ ℕ (Obj w) LineData} {c : Code w}

namespace Inv

theorem initial (hobjs : ∀ l, (objs (lockOf l)).sharers = []) :
    Inv lockOf (FlushProgram.initial objs mem) where
  code _ _ hi := by cases hi
  alone l _ _ := hobjs l
  place _ _ _ h := by simp [FlushProgram.initial] at h
  shared _ _ _ _ _ h := by simp [FlushProgram.initial] at h

/-- Nothing is done to the objects, and whoever stores is the holder of the mutex. -/
theorem frame (hi : Inv lockOf s) (hobjs : s'.objs = s.objs) (hgiven : s'.given = s.given)
    (hcode : ∀ u, ∀ i ∈ (s'.threads u).code, MutexOnly lockOf u i)
    (hknown : ∀ u, (s.threads u).known ⊆ (s'.threads u).known)
    (hstore : ∀ l p m, (s'.events l)[p]? = some (.store m) → (s.events l)[p]? = some (.store m) ∨
      ∃ t, (s.objs (lockOf l)).holder = some t ∧ (l, p) ∈ (s'.threads t).known) : Inv lockOf s' where
  code := hcode
  alone := hobjs ▸ hi.alone
  place l p m hp := by
    rcases hstore l p m hp with hold | ⟨t, hholder, hnew⟩
    · have hplace := hi.place l p m hold
      simp only [ProtocolOff.place, hobjs, hgiven] at hplace ⊢
      split at hplace
      · exact hknown _ hplace
      · exact hplace
    · simpa only [ProtocolOff.place, hobjs, hholder] using hnew
  shared l t ht p m hp := by
    rw [hobjs] at ht
    rcases hstore l p m hp with hold | ⟨u, hholder, -⟩
    · exact hknown t (hi.shared l t ht p m hold)
    · rw [hi.alone l u hholder] at ht
      cases ht

theorem setThread (hi : Inv lockOf s) (hcode : ∀ i ∈ th.code, MutexOnly lockOf t i)
    (hknown : (s.threads t).known ⊆ th.known) : Inv lockOf (s.setThread t th) := by
  refine hi.frame rfl rfl (fun u => ?_) (fun u => ?_) fun l p m hp => .inl hp
  · rcases eq_or_ne u t with rfl | hu
    · simpa only [State.setThread, update_self] using hcode
    · simpa only [State.setThread, update_of_ne hu] using hi.code u
  · rcases eq_or_ne u t with rfl | hu
    · simpa only [State.setThread, update_self] using hknown
    · simp only [State.setThread, update_of_ne hu]
      exact List.Subset.refl _

/-- Nothing is stored. -/
theorem onLine (hi : Inv lockOf s) (l : ℕ) (op : NoncoherentCache.Op ℕ LineData)
    (hop : ∀ m, .store m ∉ op.event.toList) : Inv lockOf (s.onLine l op) := by
  refine hi.frame rfl rfl hi.code (fun u => List.Subset.refl _) fun l' p m hp => .inl ?_
  rcases eq_or_ne l' l with rfl | hl
  · simp only [State.onLine, update_self] at hp
    rcases lt_or_ge p (s.events l').length with hlt | hge
    · rwa [List.getElem?_append_left hlt] at hp
    · rw [List.getElem?_append_right hge] at hp
      exact absurd (List.mem_of_getElem? hp) (hop m)
  · simpa only [State.onLine, update_of_ne hl] using hp

/-- The holder of the mutex of the line stores. -/
theorem store (hi : Inv lockOf s) (hholder : (s.objs (lockOf l)).holder = some t) (f : LineData → LineData)
    (hcode : ∀ i ∈ c, MutexOnly lockOf t i) :
    Inv lockOf ((s.onLine l (.store (home t) f)).setThread t
      { s.threads t with code := c, known := (l, (s.events l).length) :: (s.threads t).known }) := by
  refine hi.frame rfl rfl (fun u => ?_) (fun u => ?_) fun l' p m hp => ?_
  · rcases eq_or_ne u t with rfl | hu
    · simpa only [State.setThread, update_self] using hcode
    · simpa only [State.setThread, State.onLine, update_of_ne hu] using hi.code u
  · rcases eq_or_ne u t with rfl | hu
    · simp only [State.setThread, update_self]
      exact List.subset_cons_self _ _
    · simp only [State.setThread, update_of_ne hu]
      exact List.Subset.refl _
  · rcases eq_or_ne l' l with rfl | hl
    · simp only [State.setThread, State.onLine, update_self, NoncoherentCache.Op.event,
        Option.toList_some] at hp
      rcases lt_or_ge p (s.events l').length with hlt | hge
      · rw [List.getElem?_append_left hlt] at hp
        exact .inl hp
      · refine .inr ⟨t, hholder, ?_⟩
        have hlast : p = (s.events l').length := by
          have hlt := (List.getElem?_eq_some_iff.mp hp).1
          rw [List.length_append, List.length_singleton] at hlt
          omega
        simp [State.setThread, hlast]
    · exact .inl (by simpa only [State.setThread, State.onLine, update_of_ne hl] using hp)

section Sync

variable {f : Obj w → Option (Obj w)} {acquires : Bool} {gives : Giving} {v : Obj w}

/-- Nobody comes to have a mutex that somebody has alone. -/
theorem alone_sync (hi : Inv lockOf s) (hop : o = lockOf l → MutexOp t f acquires gives)
    (hv : f (s.objs o) = some v) {u : ℕ} (hu : (update s.objs o v (lockOf l)).holder = some u) :
    (update s.objs o v (lockOf l)).sharers = [] := by
  rcases eq_or_ne (lockOf l) o with rfl | hne
  · rw [update_self] at hu ⊢
    cases hop rfl with
    | lock => exact (Obj.lock_spec hv).2.2.2
    | unlock => simp [(Obj.unlock_spec hv).2.1] at hu
    | lockShared => simp [(Obj.lockShared_spec hv).2.1] at hu
    | unlockShared =>
        obtain ⟨hmem, hholder, -⟩ := Obj.unlockShared_spec hv
        rw [hi.alone l u (hholder ▸ hu)] at hmem
        cases hmem
  · rw [update_of_ne hne] at hu ⊢
    exact hi.alone l u hu

/-- What is in the place of a mutex stays there: `lock` takes it along, and `unlock` leaves it. -/
theorem place_sync (hi : Inv lockOf s) (hop : o = lockOf l → MutexOp t f acquires gives)
    (hv : f (s.objs o) = some v) (hknown : (s.threads t).known ⊆ th.known)
    (hgiven : acquires = true → s.given o ⊆ th.known) :
    ProtocolOff.place s (lockOf l) ⊆ ProtocolOff.place
      { s with
        threads := update s.threads t th
        objs := update s.objs o v
        given := update s.given o (gives.give (s.threads t).known (s.given o)) } (lockOf l) := by
  intro x hplace
  simp only [ProtocolOff.place] at hplace ⊢
  rcases eq_or_ne (lockOf l) o with rfl | hne
  · simp only [update_self]
    cases hop rfl with
    | lock =>
        obtain ⟨hnone, -, hself, -⟩ := Obj.lock_spec hv
        rw [hnone] at hplace
        simpa only [hself, update_self] using hgiven rfl hplace
    | unlock =>
        obtain ⟨hself, hnone, -⟩ := Obj.unlock_spec hv
        rw [hself] at hplace
        simpa only [hnone, Giving.give] using hplace
    | lockShared =>
        obtain ⟨hnone, hnone', -⟩ := Obj.lockShared_spec hv
        rw [hnone] at hplace
        simpa only [hnone', Giving.give] using hplace
    | unlockShared =>
        obtain ⟨hmem, hholder, -⟩ := Obj.unlockShared_spec hv
        cases hold : (s.objs (lockOf l)).holder with
        | some u =>
            rw [hi.alone l u hold] at hmem
            cases hmem
        | none =>
            rw [hold] at hplace
            simpa only [hholder, hold, Giving.give] using List.mem_append_left _ hplace
  · simp only [update_of_ne hne]
    split at hplace
    · rename_i u _
      rcases eq_or_ne u t with rfl | hu
      · rw [update_self]
        exact hknown hplace
      · rwa [update_of_ne hu]
    · exact hplace

/-- Whoever comes to share a mutex has acquired what is in its place. -/
theorem shared_sync (hi : Inv lockOf s) (hop : o = lockOf l → MutexOp t f acquires gives)
    (hv : f (s.objs o) = some v) (hknown : (s.threads t).known ⊆ th.known)
    (hgiven : acquires = true → s.given o ⊆ th.known) {u p m : ℕ}
    (hu : u ∈ (update s.objs o v (lockOf l)).sharers) (hp : (s.events l)[p]? = some (.store m)) :
    (l, p) ∈ (update s.threads t th u).known := by
  have hkept (hold : u ∈ (s.objs (lockOf l)).sharers) : (l, p) ∈ (update s.threads t th u).known := by
    rcases eq_or_ne u t with rfl | hut
    · rw [update_self]
      exact hknown (hi.shared l u hold p m hp)
    · rw [update_of_ne hut]
      exact hi.shared l u hold p m hp
  rcases eq_or_ne (lockOf l) o with rfl | hne
  · rw [update_self] at hu
    cases hop rfl with
    | lock => simp [(Obj.lock_spec hv).2.2.2] at hu
    | unlock => exact hkept ((Obj.unlock_spec hv).2.2 ▸ hu)
    | lockShared =>
        obtain ⟨hnone, -, hsharers⟩ := Obj.lockShared_spec hv
        rw [hsharers] at hu
        rcases List.mem_cons.mp hu with rfl | hu
        · have hplace := hi.place l p m hp
          simp only [ProtocolOff.place, hnone] at hplace
          simpa only [update_self] using hgiven rfl hplace
        · exact hkept hu
    | unlockShared =>
        rw [(Obj.unlockShared_spec hv).2.2] at hu
        exact hkept (List.mem_of_mem_erase hu)
  · rw [update_of_ne hne] at hu
    exact hkept hu

/-- A mutex passes on what is known of its lines. -/
theorem sync (hi : Inv lockOf s) (hop : MutexOnly lockOf t (.sync o f acquires gives))
    (hv : f (s.objs o) = some v) (hcode : ∀ i ∈ th.code, MutexOnly lockOf t i)
    (hknown : (s.threads t).known ⊆ th.known) (hgiven : acquires = true → s.given o ⊆ th.known) :
    Inv lockOf
      { s with
        threads := update s.threads t th
        objs := update s.objs o v
        given := update s.given o (gives.give (s.threads t).known (s.given o)) } := by
  have hop (l : ℕ) (ho : o = lockOf l) : MutexOp t f acquires gives := hop l f acquires gives (by rw [ho])
  refine ⟨(hi.setThread hcode hknown).code, fun l u hu => hi.alone_sync (hop l) hv hu, fun l p m hp => ?_,
    fun l u hu p m hp => hi.shared_sync (hop l) hv hknown hgiven hu hp⟩
  exact hi.place_sync (hop l) hv hknown hgiven (hi.place l p m hp)

end Sync

theorem stepThread (hi : Inv lockOf s)
    (hok : ∀ l f c, (s.threads t).code = .store l f :: c → (s.objs (lockOf l)).holder = some t)
    (hs : stepThread home s t = some s') : Inv lockOf s' := by
  have hcode : ∀ i c, (s.threads t).code = i :: c → MutexOnly lockOf t i ∧ ∀ j ∈ c, MutexOnly lockOf t j := by
    intro i c heq
    have hall := hi.code t
    rw [heq] at hall
    exact List.forall_mem_cons.mp hall
  simp only [FlushProgram.stepThread] at hs
  split at hs
  · cases hs
  · obtain rfl := Option.some.inj hs
    exact hi.setThread (hcode _ _ ‹_›).2 (List.Subset.refl _)
  · split at hs <;> cases hs
    exact hi.setThread (hcode _ _ ‹_›).2 (List.Subset.refl _)
  · obtain rfl := Option.some.inj hs
    exact hi.setThread (hcode _ _ ‹_›).2 (List.Subset.refl _)
  · split at hs <;> cases hs
    exact hi.setThread (hcode _ _ ‹_›).2 (List.Subset.refl _)
  · obtain rfl := Option.some.inj hs
    exact hi.setThread (hcode _ _ ‹_›).2 (List.Subset.refl _)
  · rename_i l f c heq
    obtain rfl := Option.some.inj hs
    exact hi.store (hok l f c heq) f (hcode _ _ heq).2
  · rename_i o f acquires gives c heq
    obtain ⟨v, hv, rfl⟩ := Option.map_eq_some_iff.mp hs
    refine hi.sync (hcode _ _ heq).1 hv (hcode _ _ heq).2 ?_ ?_
    · show (s.threads t).known ⊆ if acquires then (s.threads t).known ++ s.given o else (s.threads t).known
      split
      · exact List.subset_append_left _ _
      · exact List.Subset.refl _
    · rintro rfl
      exact List.subset_append_right _ _

theorem step (hi : Inv lockOf s) (hok : Disciplined lockOf s a) (hs : step home Call.code s a = some s') :
    Inv lockOf s' := by
  cases a with
  | call t k =>
      simp only [FlushProgram.step] at hs
      split at hs <;> cases hs
      exact hi.setThread (mutexOnly_code hok.2) (List.Subset.refl _)
  | thread t => exact hi.stepThread hok hs
  | invalidate t l =>
      simp only [FlushProgram.step] at hs
      split at hs <;> cases hs
      have hline := hi.onLine l (.invalidate (home t)) (by simp [NoncoherentCache.Op.event])
      exact hline.setThread (hi.code t) (List.Subset.refl _)
  | writeback t l =>
      simp only [FlushProgram.step] at hs
      split at hs <;> cases hs
      have hline := hi.onLine l (.writeback (home t)) (by simp [NoncoherentCache.Op.event])
      exact hline.setThread (hi.code t) (List.Subset.refl _)
  | fill n l =>
      obtain rfl := Option.some.inj hs
      exact hi.onLine l _ (by simp [NoncoherentCache.Op.event])
  | evict n l =>
      obtain rfl := Option.some.inj hs
      exact hi.onLine l _ (by simp [NoncoherentCache.Op.event])

/-- Whoever has the mutex of a line knows what has been stored to it. -/
theorem ordered (hi : Inv lockOf s)
    (hlock : (s.objs (lockOf l)).holder = some t ∨ t ∈ (s.objs (lockOf l)).sharers) : Ordered home s t l := by
  intro p m hp _
  rcases hlock with hholder | hshared
  · have hplace := hi.place l p m hp
    simpa only [ProtocolOff.place, hholder] using hplace
  · exact hi.shared l t hshared p m hp

end Inv

/-! ## Runs -/

theorem inv_of_run (hobjs : ∀ l, (objs (lockOf l)).sharers = [])
    (h : (machine home objs mem).Run (Disciplined lockOf) s) : Inv lockOf s := by
  refine h.invariant (I := Inv lockOf) ?_ ?_
  · rintro s rfl
    exact .initial hobjs
  · rintro s a s' - hi hok hstep
    exact hi.step hok hstep

end ProtocolOff

end RACoherence
