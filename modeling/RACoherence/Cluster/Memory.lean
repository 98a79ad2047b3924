import RACoherence.Cluster.HappensBefore
import RACoherence.Lib.NoncoherentCache

/-!
# What programs read

Reference: `include/runtime.hpp`, `rac_storeN` and `rac_loadN`.

Over the cluster, the memory that is not hardware coherent: the lines in memory and in the caches of the
nodes, which do with them what the trace records, and beside it one memory for all nodes, in which every
store has its effect at once. If whatever was stored to a line by another node happens before a store to it,
and before a load from it, then the load finds what is in the one memory, however the hardware loads and
drops lines in between.

Flush instructions take effect when they are issued. In the code the fence for those of a log is in the
unlock of the log-head mutex, and `update_clock` comes before it: another thread of the node, which reads
the clock without the mutex, may go on while the lines are still in the cache. That is left out.
-/

namespace RACoherence

open Function LocalCLTable

namespace Cluster

theorem mod_cacheLineSize_lt (x : ℕ) : x % cacheLineSize < cacheLineSize := Nat.mod_lt x (by decide)

/-- The bytes of a line. -/
abbrev LineData := Fin cacheLineSize → UInt8

/-- A store that a thread is in: its address, and the bytes. -/
structure Pending where
  addr : ℕ
  bytes : List UInt8
  deriving DecidableEq, Repr

namespace Pending

/-- What byte `x` is after the store. -/
def write (p : Pending) (x : ℕ) (old : UInt8) : UInt8 :=
  if p.addr ≤ x ∧ x < p.addr + p.bytes.length then p.bytes.getD (x - p.addr) 0 else old

/-- The effect on line `l`. -/
def storeLine (p : Pending) (l : ℕ) (d : LineData) : LineData := fun k => p.write (l * cacheLineSize + k) (d k)

/-- The effect on one memory for all nodes. -/
def storeFlat (p : Pending) (mem : ℕ → UInt8) : ℕ → UInt8 := fun x => p.write x (mem x)

/-- The store does not cross the end of its line. -/
def Fits (p : Pending) : Prop := p.addr % cacheLineSize + p.bytes.length ≤ cacheLineSize

instance (p : Pending) : Decidable p.Fits := inferInstanceAs (Decidable (_ ≤ _))

end Pending

/-- The cluster, what happens before the next access of every thread, the lines, one memory for all nodes, and
the stores that the threads are in. -/
structure Memory where
  base : State
  knowledge : Knowledge
  lines : ℕ → NoncoherentCache.Line ℕ LineData
  flat : ℕ → UInt8
  pending : ℕ → Pending

/-- `rac_storeN` of a thread, any other step of the cluster, or the hardware loading or dropping a line. -/
inductive MemoryAction
  | store (t : ℕ) (p : Pending)
  | cluster (a : Action)
  | fill (n l : ℕ)
  | evict (n l : ℕ)

/-- The step of the cluster that belongs to an action. -/
def MemoryAction.base : MemoryAction → Option Action
  | .store t p => some (.logStore t p.addr)
  | .cluster a => some a
  | .fill _ _ | .evict _ _ => none

namespace Memory

variable (cfg : Config)

def initial : Memory where
  base := Cluster.initial cfg
  knowledge := .initial
  lines _ := ⟨fun _ => 0, fun _ => none⟩
  flat _ := 0
  pending _ := ⟨0, []⟩

/-- What an event does to line `l`. -/
def lineOp (m : Memory) (l : ℕ) : Event → Option (NoncoherentCache.Op ℕ LineData)
  | .store t cl => if cl = l then some (.store (cfg.home t) ((m.pending t).storeLine l)) else none
  | .writeback t cl => if cl = l then some (.writeback (cfg.home t)) else none
  | .invalidate n cl => if cl = l then some (.invalidate n) else none
  | .wbinvd n => some (.invalidate n)
  | .publish _ _ | .release _ _ | .process _ _ _ => none

/-- What an event does to the one memory. -/
def flatOp (m : Memory) (mem : ℕ → UInt8) : Event → ℕ → UInt8
  | .store t _ => (m.pending t).storeFlat mem
  | _ => mem

/-- The memory after a step of the cluster to `s`. -/
def follow (m : Memory) (a : Action) (s : State) : Memory :=
  let es := s.trace.drop m.base.trace.length
  { m with
    base := s
    knowledge := m.knowledge.step cfg m.base a
    lines := fun l => (m.lines l).run (es.filterMap (m.lineOp cfg l))
    flat := es.foldl m.flatOp m.flat }

/-- The hardware does something with line `l`. -/
def hardware (m : Memory) (l : ℕ) (op : NoncoherentCache.Op ℕ LineData) : Memory :=
  { m with lines := update m.lines l ((m.lines l).step op) }

/-- A step. Stores that cross the end of a line are left out, as the source has them left to do. -/
def step (m : Memory) : MemoryAction → Option Memory
  | .store t p =>
      if p.Fits then
        (Cluster.step cfg m.base (.logStore t p.addr)).map fun s =>
          { m.follow cfg (.logStore t p.addr) s with pending := update m.pending t p }
      else none
  | .cluster (.logStore _ _) => none
  | .cluster a => (Cluster.step cfg m.base a).map (m.follow cfg a)
  | .fill n l => some (m.hardware l (.fill n))
  | .evict n l => some (m.hardware l (.evict n))

/-- What node `n` finds at address `x`. -/
def load (m : Memory) (n x : ℕ) : UInt8 :=
  (m.lines (x / cacheLineSize)).read n ⟨x % cacheLineSize, mod_cacheLineSize_lt x⟩

/-- The memory as a transition system. -/
def machine : Machine Memory MemoryAction where
  init m := m = initial cfg
  step := step cfg

end Memory

/-- A thread that stores has in its past whatever another node has stored to the line. -/
def RaceFree (cfg : Config) (m : Memory) : MemoryAction → Prop
  | .cluster (.thread t) => ∀ cl, (m.base.threads t).pc = .store cl → Ordered cfg m.base m.knowledge t cl
  | _ => True

/-- Stores are race free and to memory that is not hardware coherent, fewer than `2 ^ 32 - LOG_COUNT` logs are
produced in every ring, and no pass of `perform_gc` starts with `bound` in the last round. -/
def Proper (cfg : Config) (m : Memory) (a : MemoryAction) : Prop :=
  RaceFree cfg m a ∧
    ∀ b, a.base = some b → NhcStore b ∧ FewLogs cfg m.base b ∧ GcBelowWrap cfg m.base b

variable {cfg : Config} {m m' : Memory} {a : MemoryAction} {t l : ℕ}

/-! ## Lines and addresses -/

/-- The bytes of line `l` in a memory. -/
def lineOf (mem : ℕ → UInt8) (l : ℕ) : LineData := fun k => mem (l * cacheLineSize + k)

theorem lineOf_storeFlat (p : Pending) (mem : ℕ → UInt8) (l : ℕ) :
    lineOf (p.storeFlat mem) l = p.storeLine l (lineOf mem l) := rfl

/-- A store that does not cross the end of its line leaves all other lines alone. -/
theorem storeLine_of_ne {p : Pending} (hfits : p.Fits) (hne : p.addr >>> cacheLineShift ≠ l) (d : LineData) :
    p.storeLine l d = d := by
  funext k
  refine if_neg fun ⟨hge, hlt⟩ => hne ?_
  have hk := k.isLt
  simp only [Pending.Fits, cacheLineSize] at hfits hge hlt hk
  rw [Nat.shiftRight_eq_div_pow]
  simp only [cacheLineShift]
  omega

/-- Only stores change the one memory. -/
theorem flatOp_of_ne {e : Event} (m : Memory) (mem : ℕ → UInt8) (he : ∀ t cl, e ≠ .store t cl) :
    m.flatOp mem e = mem := by
  cases e with
  | store t cl => exact absurd rfl (he t cl)
  | _ => rfl

/-! ## What a line has seen -/

/-- What an event is to line `l`. -/
def lineEvent (cfg : Config) (l : ℕ) : Event → Option (NoncoherentCache.Event ℕ)
  | .store t cl => if cl = l then some (.store (cfg.home t)) else none
  | .writeback t cl => if cl = l then some (.writeback (cfg.home t)) else none
  | .invalidate n cl => if cl = l then some (.invalidate n) else none
  | .wbinvd n => some (.invalidate n)
  | .publish _ _ | .release _ _ | .process _ _ _ => none

/-- The events of line `l`. -/
def lineEvents (cfg : Config) (l : ℕ) (tr : List Event) : List (NoncoherentCache.Event ℕ) :=
  tr.filterMap (lineEvent cfg l)

theorem event_lineOp (m : Memory) (l : ℕ) (e : Event) :
    (m.lineOp cfg l e).bind NoncoherentCache.Op.event = lineEvent cfg l e := by
  cases e with
  | store t cl => simp only [Memory.lineOp, lineEvent]; split <;> rfl
  | writeback t cl => simp only [Memory.lineOp, lineEvent]; split <;> rfl
  | invalidate n cl => simp only [Memory.lineOp, lineEvent]; split <;> rfl
  | _ => rfl

theorem filterMap_lineOp (m : Memory) (l : ℕ) (es : List Event) :
    (es.filterMap (m.lineOp cfg l)).filterMap NoncoherentCache.Op.event = lineEvents cfg l es := by
  rw [List.filterMap_filterMap]
  exact List.filterMap_congr fun e _ => event_lineOp m l e

theorem store_of_lineEvent {e : Event} {n : ℕ} (h : lineEvent cfg l e = some (.store n)) :
    ∃ u, e = .store u l ∧ cfg.home u = n := by
  cases e with
  | store u cl =>
      simp only [lineEvent] at h
      split at h <;> cases h
      rename_i hcl
      exact ⟨u, hcl ▸ rfl, rfl⟩
  | wbinvd n => simp [lineEvent] at h
  | writeback u cl =>
      simp only [lineEvent] at h
      split at h <;> cases h
  | invalidate n cl =>
      simp only [lineEvent] at h
      split at h <;> cases h
  | _ => cases h

/-- A store among the events of a line. -/
theorem exists_store {tr : List Event} {n : ℕ} {earlier later : List (NoncoherentCache.Event ℕ)}
    (h : lineEvents cfg l tr = earlier ++ .store n :: later) :
    ∃ u pre post, tr = pre ++ .store u l :: post ∧ cfg.home u = n ∧ lineEvents cfg l post = later := by
  obtain ⟨pre, rest, rfl, -, hrest⟩ := List.filterMap_eq_append_iff.mp h
  obtain ⟨skipped, e, post, rfl, -, he, hpost⟩ := List.filterMap_eq_cons_iff.mp hrest
  obtain ⟨u, rfl, hu⟩ := store_of_lineEvent he
  exact ⟨u, pre ++ skipped, post, by simp, hu, hpost⟩

theorem mem_lineEvents {tr : List Event} {e : Event} {e' : NoncoherentCache.Event ℕ} (he : e ∈ tr)
    (h : lineEvent cfg l e = some e') : e' ∈ lineEvents cfg l tr :=
  List.mem_filterMap.mpr ⟨e, he, h⟩

/-- A writeback that is followed by an invalidation, to the line. -/
theorem lineEvents_writeback {q₁ q₂ : List Event} {u : ℕ} :
    lineEvents cfg l (q₁ ++ .writeback u l :: q₂) =
      lineEvents cfg l q₁ ++ .writeback (cfg.home u) :: lineEvents cfg l q₂ := by
  simp [lineEvents, lineEvent]

/-! ## The invariant -/

/-- The lines are in step with the one memory, and the pending store of a thread is to the line of its inline
cache. -/
structure MemoryOk (cfg : Config) (m : Memory) : Prop where
  table : ∀ t, TableOk (m.base.threads t)
  fits : ∀ t, (m.pending t).Fits
  pending : ∀ t, (m.base.threads t).recentCl ≠ 0 →
    (m.base.threads t).recentCl = (m.pending t).addr >>> cacheLineShift
  line : ∀ l, NoncoherentCache.Inv (lineEvents cfg l m.base.trace) (lineOf m.flat l) (m.lines l)

theorem MemoryOk.initial : MemoryOk cfg (.initial cfg) where
  table _ := .initial
  fits _ := Nat.zero_le _
  pending _ h := absurd rfl h
  line _ := .initial _

/-- What the cluster keeps in its runs, if there is more than one node. -/
structure Orderly (cfg : Config) (m : Memory) : Prop where
  inv : Inv cfg m.base
  lines : Lines cfg m.base
  knowledge : KnowledgeOk cfg m.base m.knowledge

/-- A thread that has the stores of other nodes in its past is on a fresh node. -/
theorem fresh_of_ordered (h : 1 < cfg.nodeCount → Orderly cfg m) (ho : Ordered cfg m.base m.knowledge t l) :
    NoncoherentCache.Fresh (lineEvents cfg l m.base.trace) (cfg.home t) := by
  intro n earlier later hne htr
  obtain ⟨u, pre, post, htrace, rfl, rfl⟩ := exists_store htr
  have hnodes : 1 < cfg.nodeCount := by
    have hu := cfg.home_lt u
    have ht := cfg.home_lt t
    omega
  obtain ⟨hinv, hlines, hk⟩ := h hnodes
  obtain ⟨q₁, q₂, rfl, hdrop⟩ := hk.invalidated hinv hlines ho hne htrace
  refine ⟨_, _, lineEvents_writeback, ?_⟩
  rcases hdrop with hdrop | hdrop
  · exact mem_lineEvents hdrop (by simp [lineEvent])
  · exact mem_lineEvents hdrop rfl

/-- Only `log_store` gives the inline cache another line. -/
theorem recentCl_step {s s' : State} {a : Action} (hs : Step cfg s a s') (hne : ∀ addr, a ≠ .logStore t addr) :
    (s'.threads t).recentCl = (s.threads t).recentCl ∨ (s'.threads t).recentCl = 0 := by
  by_cases ha : a = .thread t
  · subst ha
    refine .inl ?_
    cases hs with
    | thread hs => cases hs <;> simp [State.setPc, State.setThread, State.setRing, State.emit]
    | help hpc hs =>
        cases hs <;>
          simp [State.setPc, State.setThread, State.setRing, State.setMtx, State.setClock, State.emit]
  · rcases call_of_ne hs ha with heq | ⟨-, hcall⟩
    · exact .inl (by rw [heq])
    · generalize s'.threads t = th at hcall
      cases hcall with
      | hit => exact absurd rfl (hne _)
      | insert => exact absurd rfl (hne _)
      | full => exact absurd rfl (hne _)
      | release => exact .inr rfl
      | acquire => exact .inl rfl
      | create => exact .inl rfl

/-- `log_store` gives it the line of its address. -/
theorem recentCl_logStore {s s' : State} {addr : ℕ} (hs : Step cfg s (.logStore t addr) s') (u : ℕ) :
    (s'.threads u).recentCl = if u = t then addr >>> cacheLineShift else (s.threads u).recentCl := by
  have hline : addr >>> virtualClShift 0 = addr >>> cacheLineShift := rfl
  cases hs with
  | storeHit hpc hcl heq =>
      simp only [State.setPc, State.setThread, update_apply]
      split
      · rename_i hu
        subst hu
        exact heq.symm.trans (hcl.trans hline)
      · rfl
  | storeInsert hpc hcl _ _ =>
      simp only [State.setThread, update_apply]
      split
      · exact hcl.trans hline
      · rfl
  | storeFull hpc hcl _ _ =>
      simp only [State.setThread, update_apply]
      split
      · exact hcl.trans hline
      · rfl

namespace MemoryOk

/-- The hardware loads or drops a line. -/
theorem hardware (h : MemoryOk cfg m) (l : ℕ) (op : NoncoherentCache.Op ℕ LineData) (hop : ∀ n f, op ≠ .store n f)
    (hno : op.event = none) : MemoryOk cfg (m.hardware l op) where
  table := h.table
  fits := h.fits
  pending := h.pending
  line k := by
    show NoncoherentCache.Inv _ _ (update m.lines l ((m.lines l).step op) k)
    rw [update_apply]
    split
    · rename_i hk
      subst hk
      have hstep := (h.line k).step op fun n f heq => absurd heq (hop n f)
      have hflat : op.apply (lineOf m.flat k) = lineOf m.flat k := by
        cases op with
        | store n f => exact absurd rfl (hop n f)
        | _ => rfl
      rwa [hflat, hno, Option.toList_none, List.append_nil] at hstep
    · exact h.line k

/-- The lines follow what a step of the cluster records. -/
theorem follow_line (h : MemoryOk cfg m) (hord : 1 < cfg.nodeCount → Orderly cfg m) {b : Action} {s : State}
    (hrace : ∀ t cl, b = .thread t → (m.base.threads t).pc = .store cl → Ordered cfg m.base m.knowledge t cl)
    (hs : Step cfg m.base b s) (l : ℕ) :
    NoncoherentCache.Inv (lineEvents cfg l s.trace) (lineOf (m.follow cfg b s).flat l)
      ((m.follow cfg b s).lines l) := by
  have hes : s.trace.drop m.base.trace.length = emitted cfg m.base b := by
    rw [trace_step hs, List.drop_left]
  simp only [Memory.follow, hes]
  rw [trace_step hs, lineEvents, List.filterMap_append]
  by_cases hstore : ∃ t cl, .store t cl ∈ emitted cfg m.base b
  · obtain ⟨t, cl, hmem⟩ := hstore
    obtain ⟨rfl, hpc, hone⟩ := pc_of_store hmem
    obtain ⟨hcl, hne⟩ := (h.table t).store cl hpc
    have hline : cl = (m.pending t).addr >>> cacheLineShift := hcl.trans (h.pending t (hcl ▸ hne))
    rw [hone]
    simp only [List.foldl_cons, List.foldl_nil, Memory.flatOp, lineOf_storeFlat, List.filterMap_cons,
      List.filterMap_nil, Memory.lineOp, lineEvent]
    by_cases hl : cl = l
    · subst hl
      rw [if_pos rfl, if_pos rfl]
      exact (h.line cl).store (fresh_of_ordered hord (hrace t cl rfl hpc)) _
    · rw [if_neg hl, if_neg hl, storeLine_of_ne (h.fits t) (hline ▸ hl), List.append_nil]
      exact h.line l
  · have hnone : ∀ e ∈ emitted cfg m.base b, ∀ t cl, e ≠ .store t cl := fun e he t cl heq =>
      hstore ⟨t, cl, heq ▸ he⟩
    have hflat : (emitted cfg m.base b).foldl m.flatOp m.flat = m.flat :=
      (List.foldl_ext _ (fun mem _ => mem) _ fun mem e he => flatOp_of_ne m mem (hnone e he)).trans
        (List.foldl_fixed _)
    rw [hflat]
    have hrun := (h.line l).run ((emitted cfg m.base b).filterMap (m.lineOp cfg l)) fun n f hop => by
      obtain ⟨e, he, hop⟩ := List.mem_filterMap.mp hop
      have hev : lineEvent cfg l e = some (.store n) := by
        rw [← event_lineOp m, hop]
        rfl
      obtain ⟨u, rfl, -⟩ := store_of_lineEvent hev
      exact hnone _ he u l rfl
    rwa [filterMap_lineOp] at hrun

theorem step (h : MemoryOk cfg m) (hord : 1 < cfg.nodeCount → Orderly cfg m) (hok : Proper cfg m a)
    (hs : Memory.step cfg m a = some m') : MemoryOk cfg m' := by
  obtain ⟨hrace, hbase⟩ := hok
  cases a with
  | fill n k =>
      obtain rfl := Option.some.inj hs
      exact h.hardware k _ (by simp) rfl
  | evict n k =>
      obtain rfl := Option.some.inj hs
      exact h.hardware k _ (by simp) rfl
  | store t p =>
      simp only [Memory.step] at hs
      split at hs
      · rename_i hfits
        obtain ⟨s, hstep, rfl⟩ := Option.map_eq_some_iff.mp hs
        have hs := step_cases hstep
        refine ⟨fun u => (h.table u).step (hbase _ rfl).1 hs, fun u => ?fits, fun u hne => ?pending,
          h.follow_line hord (fun u cl heq => by cases heq) hs⟩
        case fits =>
          show Pending.Fits (update m.pending t p u)
          rw [update_apply]
          split
          · exact hfits
          · exact h.fits u
        case pending =>
          have hrecent := recentCl_logStore hs u
          change (s.threads u).recentCl ≠ 0 at hne
          show (s.threads u).recentCl = (update m.pending t p u).addr >>> cacheLineShift
          rw [update_apply]
          split at hrecent
          · rwa [if_pos ‹_›]
          · rw [hrecent] at hne ⊢
            rw [if_neg ‹_›]
            exact h.pending u hne
      · cases hs
  | cluster b =>
      have hmem : (∀ t addr, b ≠ .logStore t addr) ∧
          ∃ s, Cluster.step cfg m.base b = some s ∧ m' = m.follow cfg b s := by
        cases b with
        | logStore t addr => cases hs
        | _ =>
            obtain ⟨s, hstep, rfl⟩ := Option.map_eq_some_iff.mp hs
            exact ⟨by simp, s, hstep, rfl⟩
      obtain ⟨hno, s, hstep, rfl⟩ := hmem
      have hs := step_cases hstep
      refine ⟨fun u => (h.table u).step (hbase _ rfl).1 hs, h.fits, fun u hne => ?pending,
        h.follow_line hord (fun u cl heq hpc => ?race) hs⟩
      case pending =>
        change (s.threads u).recentCl ≠ 0 at hne
        have hrecent : (s.threads u).recentCl = (m.base.threads u).recentCl :=
          (recentCl_step hs (hno u)).resolve_right hne
        show (s.threads u).recentCl = (m.pending u).addr >>> cacheLineShift
        rw [hrecent] at hne ⊢
        exact h.pending u hne
      case race =>
        subst heq
        exact hrace cl hpc

end MemoryOk

/-! ## Runs -/

/-- What a step of the memory is to the cluster, and to what happens before accesses. -/
theorem base_step (hs : Memory.step cfg m a = some m') :
    m'.base = m.base ∧ m'.knowledge = m.knowledge ∧ a.base = none ∨
      ∃ b, a.base = some b ∧ Cluster.step cfg m.base b = some m'.base ∧
        m'.knowledge = m.knowledge.step cfg m.base b := by
  cases a with
  | fill n l =>
      obtain rfl := Option.some.inj hs
      exact .inl ⟨rfl, rfl, rfl⟩
  | evict n l =>
      obtain rfl := Option.some.inj hs
      exact .inl ⟨rfl, rfl, rfl⟩
  | store t p =>
      simp only [Memory.step] at hs
      split at hs
      · obtain ⟨s, hstep, rfl⟩ := Option.map_eq_some_iff.mp hs
        exact .inr ⟨_, rfl, hstep, rfl⟩
      · cases hs
  | cluster b =>
      cases b with
      | logStore t addr => cases hs
      | _ =>
          obtain ⟨s, hstep, rfl⟩ := Option.map_eq_some_iff.mp hs
          exact .inr ⟨_, rfl, hstep, rfl⟩

/-- The event is a release of thread `u`. -/
def Event.isReleaseOf (u : ℕ) : Event → Bool
  | .release t _ => decide (t = u)
  | _ => false

/-- Every store to line `l` has been released by its thread. -/
def AllReleased (tr : List Event) (l : ℕ) : Prop :=
  ∀ p u, tr[p]? = some (.store u l) → (tr.drop (p + 1)).any (Event.isReleaseOf u) = true

/-- `AllReleased`, for the position `p`. -/
def releasedAt (tr : List Event) (l p : ℕ) : Bool :=
  match tr[p]? with
  | some (.store u k) => decide (k = l → (tr.drop (p + 1)).any (Event.isReleaseOf u) = true)
  | _ => true

theorem allReleased_iff {tr : List Event} : AllReleased tr l ↔ ∀ p < tr.length, releasedAt tr l p = true := by
  constructor
  · intro h p _
    unfold releasedAt
    split
    · rename_i u k hstore
      exact decide_eq_true fun hk => h p u (hk ▸ hstore)
    · rfl
  · intro h p u hstore
    have hp := h p (List.getElem?_eq_some_iff.mp hstore).1
    rw [releasedAt, hstore] at hp
    exact of_decide_eq_true hp rfl

instance {tr : List Event} : Decidable (AllReleased tr l) := decidable_of_iff' _ allReleased_iff

end Cluster

end RACoherence
