import Mathlib.Data.Nat.Notation
import RACoherence.Lib.Machine
import RACoherence.Lib.NoncoherentCache

/-!
# Programs that flush by instructions

Threads run on the nodes of a memory whose caches are not coherent, and order their accesses by
synchronisation objects. An instruction that writes a line back or invalidates it has its effect at some time
up to the next fence of its kind.

Code is well flushed if every line is invalidated, with a fence behind it, between the last acquire and an
access, and every store is written back, with a fence behind it, before the next release. A linear scan of the
code decides that. Programs of well-flushed code whose stores are race free find what one memory for all nodes
would hold.
-/

open Function NoncoherentCache

namespace FlushProgram

/-- What a synchronisation gives its object: nothing, what happens before it, in addition to what the object
has or instead of it, or that it has nothing. -/
inductive Giving
  | keep
  | merge
  | replace
  | clear
  deriving DecidableEq, Repr

/-- Whether somebody may rely on it. -/
def Giving.releases : Giving → Bool
  | .merge | .replace => true
  | .keep | .clear => false

/-- What the object has then. -/
def Giving.give {α : Type*} (known old : List α) : Giving → List α
  | .keep => old
  | .merge => old ++ known
  | .replace => known
  | .clear => []

/-- Instructions of code; a store changes a part of its line, and `sync` is an atomic operation on an object,
which blocks where `f` has no value. -/
inductive Instr (L O S D : Type*)
  | invalidate (l : L)
  | invalidateFence
  | writeback (l : L)
  | writebackFence
  | load (l : L)
  | store (l : L) (f : D → D)
  | sync (o : O) (f : S → Option S) (acquires : Bool) (gives : Giving)

/-- The rest of the code of a thread, the lines whose invalidation or writeback is under way, and the stores
that happen before what it does next: a line, and the position among the events of the line. -/
structure Thread (L O S D : Type*) where
  code : List (Instr L O S D)
  invalidates : List L
  writebacks : List L
  known : List (L × ℕ)

/-- The threads; the lines, what one memory for all nodes would hold, and what has been done to each line; the
objects, and the stores that happen before an acquire of each. -/
structure State (θ ι L O S D : Type*) where
  threads : θ → Thread L O S D
  lines : L → Line ι D
  flat : L → D
  events : L → List (Event ι)
  objs : O → S
  given : O → List (L × ℕ)

/-- A thread begins with some code or executes an instruction, an instruction that is under way has its
effect, or the hardware loads or drops a line. -/
inductive Action (θ ι L K : Type*)
  | call (t : θ) (k : K)
  | thread (t : θ)
  | invalidate (t : θ) (l : L)
  | writeback (t : θ) (l : L)
  | fill (n : ι) (l : L)
  | evict (n : ι) (l : L)

section Step

variable {θ ι L O S D K : Type*} [DecidableEq θ] [DecidableEq ι] [DecidableEq L] [DecidableEq O]

namespace State

def setThread (s : State θ ι L O S D) (t : θ) (th : Thread L O S D) : State θ ι L O S D :=
  { s with threads := update s.threads t th }

/-- Something is done to line `l`. -/
def onLine (s : State θ ι L O S D) (l : L) (op : Op ι D) : State θ ι L O S D :=
  { s with
    lines := update s.lines l ((s.lines l).step op)
    flat := update s.flat l (op.apply (s.flat l))
    events := update s.events l (s.events l ++ op.event.toList) }

end State

variable (home : θ → ι) (code : θ → K → List (Instr L O S D)) (objs : O → S) (mem : L → D)

def initial : State θ ι L O S D where
  threads _ := ⟨[], [], [], []⟩
  lines l := ⟨mem l, fun _ => none⟩
  flat := mem
  events _ := []
  objs := objs
  given _ := []

/-- Thread `t` executes its next instruction. -/
def stepThread (s : State θ ι L O S D) (t : θ) : Option (State θ ι L O S D) :=
  let th := s.threads t
  match th.code with
  | [] => none
  | .invalidate l :: c => some (s.setThread t { th with code := c, invalidates := l :: th.invalidates })
  | .invalidateFence :: c => if th.invalidates = [] then some (s.setThread t { th with code := c }) else none
  | .writeback l :: c => some (s.setThread t { th with code := c, writebacks := l :: th.writebacks })
  | .writebackFence :: c => if th.writebacks = [] then some (s.setThread t { th with code := c }) else none
  | .load _ :: c => some (s.setThread t { th with code := c })
  | .store l f :: c =>
      some ((s.onLine l (.store (home t) f)).setThread t
        { th with code := c, known := (l, (s.events l).length) :: th.known })
  | .sync o f acquires gives :: c =>
      (f (s.objs o)).map fun v =>
        { s with
          threads := update s.threads t
            { th with code := c, known := if acquires then th.known ++ s.given o else th.known }
          objs := update s.objs o v
          given := update s.given o (gives.give th.known (s.given o)) }

/-- One step; `none` when the action is not enabled. -/
def step (s : State θ ι L O S D) : Action θ ι L K → Option (State θ ι L O S D)
  | .call t k =>
      if (s.threads t).code = [] then some (s.setThread t { s.threads t with code := code t k }) else none
  | .thread t => stepThread home s t
  | .invalidate t l =>
      if l ∈ (s.threads t).invalidates then
        some ((s.onLine l (.invalidate (home t))).setThread t
          { s.threads t with invalidates := (s.threads t).invalidates.erase l })
      else none
  | .writeback t l =>
      if l ∈ (s.threads t).writebacks then
        some ((s.onLine l (.writeback (home t))).setThread t
          { s.threads t with writebacks := (s.threads t).writebacks.erase l })
      else none
  | .fill n l => some (s.onLine l (.fill n))
  | .evict n l => some (s.onLine l (.evict n))

/-- The program as a transition system. -/
def machine : Machine (State θ ι L O S D) (Action θ ι L K) where
  init s := s = initial objs mem
  step := step home code

end Step

/-! ## Well-flushed code -/

section Flushing

variable {L O S D : Type*}

/-- The instruction loads from the line or stores to it. -/
def Instr.Accesses (i : Instr L O S D) (l : L) : Prop :=
  i = .load l ∨ ∃ f, i = .store l f

/-- What a scan knows: the lines that were invalidated before a fence, and since then; those with a store that
is not being written back; and whether all stores are in memory. -/
structure Flushing (L : Type*) where
  ready : List L
  invalidated : List L
  dirty : List L
  clean : Bool
  deriving DecidableEq, Repr

variable [DecidableEq L]

namespace Flushing

def start : Flushing L := ⟨[], [], [], false⟩

/-- Scan an instruction; `none` if something was forgotten. -/
def next (k : Flushing L) : Instr L O S D → Option (Flushing L)
  | .invalidate l => some { k with invalidated := l :: k.invalidated }
  | .invalidateFence => some { k with ready := k.invalidated ++ k.ready, invalidated := [] }
  | .writeback l => some { k with dirty := k.dirty.filter (· ≠ l) }
  | .writebackFence => some { k with clean := k.dirty.isEmpty }
  | .load l => if l ∈ k.ready then some k else none
  | .store l _ => if l ∈ k.ready then some { k with dirty := l :: k.dirty, clean := false } else none
  | .sync _ _ acquires gives =>
      if gives.releases → k.clean then
        some (if acquires then { k with ready := [], invalidated := [] } else k)
      else none

/-- Scan code. -/
def run (k : Flushing L) (c : List (Instr L O S D)) : Option (Flushing L) := c.foldlM next k

theorem run_cons {k k' : Flushing L} {i : Instr L O S D} {c : List (Instr L O S D)}
    (h : k.run (i :: c) = some k') : ∃ k₁, k.next i = some k₁ ∧ k₁.run c = some k' := by
  rwa [run, List.foldlM_cons, Option.bind_eq_bind, Option.bind_eq_some_iff] at h

theorem run_append (k : Flushing L) (c c' : List (Instr L O S D)) :
    k.run (c ++ c') = (k.run c).bind fun k' => k'.run c' :=
  List.foldlM_append

end Flushing

/-- Nothing is forgotten in the code. -/
def WellFlushed (c : List (Instr L O S D)) : Prop :=
  ∃ k, Flushing.start.run c = some k ∧ k.dirty = []

end Flushing

/-! ## Stores that are written back -/

section Events

variable {ι : Type*} {es : List (Event ι)} {n : ι} {p : ℕ}

/-- The store at position `p` has been written back. -/
def Flushed (es : List (Event ι)) (p : ℕ) : Prop :=
  ∃ m, es[p]? = some (.store m) ∧ .writeback m ∈ es.drop (p + 1)

/-- The store at position `p` is of node `n`, or has been written back and, after that, invalidated there. -/
def Dropped (es : List (Event ι)) (n : ι) (p : ℕ) : Prop :=
  ∃ m, es[p]? = some (.store m) ∧
    (m ≠ n → ∃ q₁ q₂, es.drop (p + 1) = q₁ ++ .writeback m :: q₂ ∧ .invalidate n ∈ q₂)

theorem drop_append_of_getElem? {e : Event ι} (h : es[p]? = some e) (es' : List (Event ι)) :
    (es ++ es').drop (p + 1) = es.drop (p + 1) ++ es' :=
  List.drop_append_of_le_length (List.getElem?_eq_some_iff.mp h).1

theorem getElem?_append_of_eq_some {e : Event ι} (h : es[p]? = some e) (es' : List (Event ι)) :
    (es ++ es')[p]? = some e := by
  rw [List.getElem?_append_left (List.getElem?_eq_some_iff.mp h).1, h]

theorem Flushed.append (h : Flushed es p) (es' : List (Event ι)) : Flushed (es ++ es') p := by
  obtain ⟨m, hstore, hmem⟩ := h
  refine ⟨m, getElem?_append_of_eq_some hstore es', ?_⟩
  rw [drop_append_of_getElem? hstore]
  exact List.mem_append_left _ hmem

theorem Dropped.append (h : Dropped es n p) (es' : List (Event ι)) : Dropped (es ++ es') n p := by
  obtain ⟨m, hstore, hdrop⟩ := h
  refine ⟨m, getElem?_append_of_eq_some hstore es', fun hne => ?_⟩
  obtain ⟨q₁, q₂, heq, hinv⟩ := hdrop hne
  exact ⟨q₁, q₂ ++ es', by simp [drop_append_of_getElem? hstore, heq], List.mem_append_left _ hinv⟩

/-- The next writeback of its node writes a store back. -/
theorem flushed_writeback (h : es[p]? = some (.store n)) : Flushed (es ++ [.writeback n]) p := by
  refine ⟨n, getElem?_append_of_eq_some h _, ?_⟩
  rw [drop_append_of_getElem? h]
  exact List.mem_append_right _ (List.mem_singleton.mpr rfl)

/-- An invalidation drops what has been written back. -/
theorem Flushed.dropped (h : Flushed es p) (n : ι) : Dropped (es ++ [.invalidate n]) n p := by
  obtain ⟨m, hstore, hmem⟩ := h
  refine ⟨m, getElem?_append_of_eq_some hstore _, fun _ => ?_⟩
  obtain ⟨q₁, q₂, heq⟩ := List.append_of_mem hmem
  exact ⟨q₁, q₂ ++ [.invalidate n], by simp [drop_append_of_getElem? hstore, heq], by simp⟩

theorem dropped_own (h : es[p]? = some (.store n)) : Dropped es n p := ⟨n, h, fun hne => absurd rfl hne⟩

end Events

/-! ## The invariant -/

section Invariant

variable {θ ι L O S D K : Type*}

/-- A thread on node `n`, and what the scan has found before the rest of its code. -/
structure ThreadOk [DecidableEq L] (n : ι) (events : L → List (Event ι)) (th : Thread L O S D)
    (k : Flushing L) : Prop where
  code : ∃ k', k.run th.code = some k' ∧ k'.dirty = []
  ready : ∀ l ∈ k.ready, ∀ p, (l, p) ∈ th.known → Dropped (events l) n p
  invalidated : ∀ l ∈ k.invalidated,
    l ∈ th.invalidates ∨ ∀ p, (l, p) ∈ th.known → Dropped (events l) n p
  known : ∀ l p, (l, p) ∈ th.known →
    Flushed (events l) p ∨ (events l)[p]? = some (.store n) ∧ (l ∈ th.writebacks ∨ l ∈ k.dirty)
  clean : k.clean = true → ∀ l p, (l, p) ∈ th.known → Flushed (events l) p

/-- The threads follow their code, what an object has been given is in memory, and the lines are in step with
the one memory. -/
structure Inv [DecidableEq L] (home : θ → ι) (s : State θ ι L O S D) : Prop where
  threads : ∀ t, ∃ k, ThreadOk (home t) s.events (s.threads t) k
  given : ∀ o l p, (l, p) ∈ s.given o → Flushed (s.events l) p
  line : ∀ l, NoncoherentCache.Inv (s.events l) (s.flat l) (s.lines l)

/-- Whatever another node has stored to the line happens before what the thread does next. -/
def Ordered (home : θ → ι) (s : State θ ι L O S D) (t : θ) (l : L) : Prop :=
  ∀ p m, (s.events l)[p]? = some (.store m) → m ≠ home t → (l, p) ∈ (s.threads t).known

/-- `Ordered`, for the position `p`. -/
def orderedAt [DecidableEq ι] [DecidableEq L] (home : θ → ι) (s : State θ ι L O S D) (t : θ) (l : L) (p : ℕ) :
    Bool :=
  match (s.events l)[p]? with
  | some (.store m) => decide (m ≠ home t → (l, p) ∈ (s.threads t).known)
  | _ => true

theorem ordered_iff [DecidableEq ι] [DecidableEq L] {home : θ → ι} {s : State θ ι L O S D} {t : θ} {l : L} :
    Ordered home s t l ↔ ∀ p < (s.events l).length, orderedAt home s t l p = true := by
  constructor
  · intro h p _
    unfold orderedAt
    split
    · rename_i m hstore
      exact decide_eq_true (h p m hstore)
    · rfl
  · intro h p m hstore
    have hp := h p (List.getElem?_eq_some_iff.mp hstore).1
    rw [orderedAt, hstore] at hp
    exact of_decide_eq_true hp

instance [DecidableEq ι] [DecidableEq L] (home : θ → ι) (s : State θ ι L O S D) (t : θ) (l : L) :
    Decidable (Ordered home s t l) := decidable_of_iff' _ ordered_iff

/-- Code is well flushed, and stores are race free. -/
def Proper [DecidableEq L] (home : θ → ι) (code : θ → K → List (Instr L O S D)) (s : State θ ι L O S D) :
    Action θ ι L K → Prop
  | .call t k => WellFlushed (code t k)
  | .thread t => ∀ l f c, (s.threads t).code = .store l f :: c → Ordered home s t l
  | _ => True

variable {home : θ → ι} {s s' : State θ ι L O S D} {t : θ} {l : L} {n : ι}
  {events events' : L → List (Event ι)} {th : Thread L O S D} {k : Flushing L}

/-- More has been done to the lines. -/
def Grows (events events' : L → List (Event ι)) : Prop := ∀ l, ∃ es, events' l = events l ++ es

variable [DecidableEq L]

theorem grows_update (events : L → List (Event ι)) (l : L) (es : List (Event ι)) :
    Grows events (update events l (events l ++ es)) := by
  intro k
  rcases eq_or_ne k l with rfl | hk
  · exact ⟨es, update_self _ _ _⟩
  · exact ⟨[], by rw [update_of_ne hk, List.append_nil]⟩

namespace ThreadOk

/-- What is done to the lines does no harm. -/
theorem grow (h : ThreadOk n events th k) (hg : Grows events events') : ThreadOk n events' th k where
  code := h.code
  ready l hl p hp := by
    obtain ⟨es, heq⟩ := hg l
    rw [heq]
    exact (h.ready l hl p hp).append es
  invalidated l hl := by
    obtain ⟨es, heq⟩ := hg l
    rw [heq]
    exact (h.invalidated l hl).imp id fun hdrop p hp => (hdrop p hp).append es
  known l p hp := by
    obtain ⟨es, heq⟩ := hg l
    rw [heq]
    exact (h.known l p hp).imp (fun hf => hf.append es)
      (And.imp_left fun hs => getElem?_append_of_eq_some hs es)
  clean hc l p hp := by
    obtain ⟨es, heq⟩ := hg l
    rw [heq]
    exact (h.clean hc l p hp).append es

/-- A thread whose scan has the line ready, and that knows what others have stored to it, is on a fresh
node. -/
theorem fresh (h : ThreadOk (home t) s.events (s.threads t) k) (hl : l ∈ k.ready) (ho : Ordered home s t l) :
    Fresh (s.events l) (home t) := by
  intro m earlier later hne htr
  have hstore : (s.events l)[earlier.length]? = some (.store m) := by
    rw [htr, List.getElem?_append_right (Nat.le_refl _), Nat.sub_self, List.getElem?_cons_zero]
  obtain ⟨m', hstore', hdrop⟩ := h.ready l hl _ (ho _ m hstore hne)
  obtain rfl : m = m' := Event.store.inj (Option.some.inj (hstore.symm.trans hstore'))
  obtain ⟨q₁, q₂, heq, hinv⟩ := hdrop hne
  refine ⟨q₁, q₂, ?_, hinv⟩
  rwa [htr, List.drop_length_add_append, List.drop_succ_cons, List.drop_zero] at heq

/-- A thread begins with other code. -/
theorem call (h : ThreadOk n events th k) (hidle : th.code = []) {c : List (Instr L O S D)}
    (hc : WellFlushed c) : ThreadOk n events { th with code := c } .start := by
  obtain ⟨k', hrun, hdirty⟩ := h.code
  obtain rfl : k = k' := by
    rw [hidle] at hrun
    exact Option.some.inj hrun
  refine ⟨hc, by simp [Flushing.start], by simp [Flushing.start], fun l p hp => ?_, by simp [Flushing.start]⟩
  simpa [hdirty, Flushing.start] using h.known l p hp

/-- An invalidation that was under way has its effect. -/
theorem performInvalidate (h : ThreadOk n events th k) (l : L) :
    ThreadOk n (update events l (events l ++ [.invalidate n]))
      { th with invalidates := th.invalidates.erase l } k := by
  have h' := h.grow (grows_update events l [.invalidate n])
  refine ⟨h'.code, h'.ready, fun l' hl' => ?_, h'.known, h'.clean⟩
  rcases eq_or_ne l' l with rfl | hne
  · refine .inr fun p hp => ?_
    rw [update_self]
    rcases h.known l' p hp with hflushed | ⟨hown, -⟩
    · exact hflushed.dropped n
    · exact (dropped_own hown).append _
  · exact (h'.invalidated l' hl').imp_left (List.mem_erase_of_ne hne).mpr

/-- A writeback that was under way has its effect. -/
theorem performWriteback (h : ThreadOk n events th k) (l : L) :
    ThreadOk n (update events l (events l ++ [.writeback n]))
      { th with writebacks := th.writebacks.erase l } k := by
  have h' := h.grow (grows_update events l [.writeback n])
  refine ⟨h'.code, h'.ready, h'.invalidated, fun l' p hp => ?_, h'.clean⟩
  rcases eq_or_ne l' l with rfl | hne
  · rw [update_self]
    rcases h.known l' p hp with hflushed | ⟨hown, -⟩
    · exact .inl (hflushed.append _)
    · exact .inl (flushed_writeback hown)
  · exact (h'.known l' p hp).imp_right (And.imp_right (Or.imp_left (List.mem_erase_of_ne hne).mpr))

/-- The code goes on as the scan has found. -/
theorem next (h : ThreadOk n events th k) {i : Instr L O S D} {c : List (Instr L O S D)}
    (hcode : th.code = i :: c) :
    ∃ k₁, k.next i = some k₁ ∧ ∃ k', k₁.run c = some k' ∧ k'.dirty = [] := by
  obtain ⟨k', hrun, hdirty⟩ := h.code
  rw [hcode] at hrun
  obtain ⟨k₁, hnext, hrun⟩ := Flushing.run_cons hrun
  exact ⟨k₁, hnext, k', hrun, hdirty⟩

variable {c : List (Instr L O S D)}

theorem invalidate (h : ThreadOk n events th k) (hcode : th.code = .invalidate l :: c) :
    ∃ k₁, ThreadOk n events { th with code := c, invalidates := l :: th.invalidates } k₁ := by
  obtain ⟨k₁, hnext, hc⟩ := h.next hcode
  obtain rfl := Option.some.inj hnext
  refine ⟨_, hc, h.ready, fun l' hl' => ?_, h.known, h.clean⟩
  rcases List.mem_cons.mp hl' with rfl | hl'
  · exact .inl List.mem_cons_self
  · exact (h.invalidated l' hl').imp_left (List.mem_cons_of_mem l)

theorem invalidateFence (h : ThreadOk n events th k) (hcode : th.code = .invalidateFence :: c)
    (hnone : th.invalidates = []) : ∃ k₁, ThreadOk n events { th with code := c } k₁ := by
  obtain ⟨k₁, hnext, hc⟩ := h.next hcode
  obtain rfl := Option.some.inj hnext
  refine ⟨_, hc, fun l hl => ?_, by simp, h.known, h.clean⟩
  rcases List.mem_append.mp hl with hl | hl
  · exact (h.invalidated l hl).resolve_left (by simp [hnone])
  · exact h.ready l hl

theorem writeback (h : ThreadOk n events th k) (hcode : th.code = .writeback l :: c) :
    ∃ k₁, ThreadOk n events { th with code := c, writebacks := l :: th.writebacks } k₁ := by
  obtain ⟨k₁, hnext, hc⟩ := h.next hcode
  obtain rfl := Option.some.inj hnext
  refine ⟨_, hc, h.ready, h.invalidated, fun l' p hp => ?_, h.clean⟩
  refine (h.known l' p hp).imp_right (And.imp_right fun howed => ?_)
  rcases eq_or_ne l' l with rfl | hne
  · exact .inl List.mem_cons_self
  · exact howed.imp (List.mem_cons_of_mem l) fun hdirty => List.mem_filter.mpr ⟨hdirty, decide_eq_true hne⟩

theorem writebackFence (h : ThreadOk n events th k) (hcode : th.code = .writebackFence :: c)
    (hnone : th.writebacks = []) : ∃ k₁, ThreadOk n events { th with code := c } k₁ := by
  obtain ⟨k₁, hnext, hc⟩ := h.next hcode
  obtain rfl := Option.some.inj hnext
  refine ⟨_, hc, h.ready, h.invalidated, h.known, fun hclean l p hp => ?_⟩
  refine (h.known l p hp).resolve_right ?_
  simp [hnone, List.isEmpty_iff.mp hclean]

theorem load (h : ThreadOk n events th k) (hcode : th.code = .load l :: c) :
    l ∈ k.ready ∧ ThreadOk n events { th with code := c } k := by
  obtain ⟨k₁, hnext, hc⟩ := h.next hcode
  simp only [Flushing.next] at hnext
  split at hnext
  · obtain rfl := Option.some.inj hnext
    exact ⟨‹_›, hc, h.ready, h.invalidated, h.known, h.clean⟩
  · cases hnext

theorem store (h : ThreadOk n events th k) {f : D → D} (hcode : th.code = .store l f :: c) :
    l ∈ k.ready ∧ ∃ k₁, ThreadOk n (update events l (events l ++ [.store n]))
      { th with code := c, known := (l, (events l).length) :: th.known } k₁ := by
  obtain ⟨k₁, hnext, hc⟩ := h.next hcode
  simp only [Flushing.next] at hnext
  split at hnext
  · obtain rfl := Option.some.inj hnext
    have h' := h.grow (grows_update events l [.store n])
    have hown : (update events l (events l ++ [.store n]) l)[(events l).length]? = some (.store n) := by
      rw [update_self]
      exact List.getElem?_concat_length
    refine ⟨‹_›, _, hc, fun l' hl' p hp => ?_, fun l' hl' => ?_, fun l' p hp => ?_, by simp⟩
    · rcases List.mem_cons.mp hp with heq | hp
      · obtain ⟨rfl, rfl⟩ := Prod.mk.inj heq
        exact dropped_own hown
      · exact h'.ready l' hl' p hp
    · refine (h'.invalidated l' hl').imp_right fun hdrop p hp => ?_
      rcases List.mem_cons.mp hp with heq | hp
      · obtain ⟨rfl, rfl⟩ := Prod.mk.inj heq
        exact dropped_own hown
      · exact hdrop p hp
    · rcases List.mem_cons.mp hp with heq | hp
      · obtain ⟨rfl, rfl⟩ := Prod.mk.inj heq
        exact .inr ⟨hown, .inr List.mem_cons_self⟩
      · exact (h'.known l' p hp).imp_right (And.imp_right (Or.imp_right (List.mem_cons_of_mem l)))
  · cases hnext

/-- A synchronisation gives only what is in memory, and what was invalidated before an acquire does not
count. -/
theorem sync (h : ThreadOk n events th k) {o : O} {f : S → Option S} {acquires : Bool} {gives : Giving}
    (hcode : th.code = .sync o f acquires gives :: c) {given : List (L × ℕ)}
    (hgiven : ∀ l p, (l, p) ∈ given → Flushed (events l) p) :
    (∀ l p, (l, p) ∈ gives.give th.known given → Flushed (events l) p) ∧
      ∃ k₁, ThreadOk n events
        { th with code := c, known := if acquires then th.known ++ given else th.known } k₁ := by
  obtain ⟨k₁, hnext, hc⟩ := h.next hcode
  simp only [Flushing.next] at hnext
  split at hnext
  · rename_i hclean
    obtain rfl := Option.some.inj hnext
    constructor
    · intro l p hp
      cases gives with
      | keep => exact hgiven l p hp
      | merge =>
          rcases List.mem_append.mp hp with hp | hp
          · exact hgiven l p hp
          · exact h.clean (hclean rfl) l p hp
      | replace => exact h.clean (hclean rfl) l p hp
      | clear => cases hp
    · cases acquires with
      | false => exact ⟨_, hc, h.ready, h.invalidated, h.known, h.clean⟩
      | true =>
          refine ⟨_, hc, by simp, by simp, fun l p hp => ?_, fun hk l p hp => ?_⟩
          · rcases List.mem_append.mp hp with hp | hp
            · exact h.known l p hp
            · exact .inl (hgiven l p hp)
          · rcases List.mem_append.mp hp with hp | hp
            · exact h.clean hk l p hp
            · exact hgiven l p hp
  · cases hnext

end ThreadOk

/-! ## Every step keeps it -/

theorem Inv.initial {objs : O → S} {mem : L → D} :
    Inv home (FlushProgram.initial objs mem : State θ ι L O S D) where
  threads _ := ⟨.start, ⟨_, rfl, rfl⟩, by simp [Flushing.start], by simp [Flushing.start],
    by simp [FlushProgram.initial], by simp [Flushing.start]⟩
  given _ _ _ h := by cases h
  line _ := .initial _

/-- Before its next load a thread that knows what others have stored to the line is on a fresh node. -/
theorem Inv.read (h : Inv home s) {c : List (Instr L O S D)} (hcode : (s.threads t).code = .load l :: c)
    (ho : Ordered home s t l) : (s.lines l).read (home t) = s.flat l := by
  obtain ⟨k, hk⟩ := h.threads t
  exact (h.line l).read (hk.fresh (hk.load hcode).1 ho)

namespace Inv

theorem setThread [DecidableEq θ] (h : Inv home s) (hth : ∃ k, ThreadOk (home t) s.events th k) :
    Inv home (s.setThread t th) where
  threads u := by
    rcases eq_or_ne u t with rfl | hu
    · simpa only [State.setThread, update_self] using hth
    · simpa only [State.setThread, update_of_ne hu] using h.threads u
  given := h.given
  line := h.line

/-- Something is done to a line, by a fresh node if it is a store. -/
theorem onLine [DecidableEq ι] (h : Inv home s) (l : L) (op : Op ι D)
    (hop : ∀ n f, op = .store n f → Fresh (s.events l) n) : Inv home (s.onLine l op) where
  threads u := by
    obtain ⟨k, hk⟩ := h.threads u
    exact ⟨k, hk.grow (grows_update s.events l op.event.toList)⟩
  given o l' p hp := by
    obtain ⟨es, heq⟩ := grows_update s.events l op.event.toList l'
    show Flushed (update s.events l (s.events l ++ op.event.toList) l') p
    rw [heq]
    exact (h.given o l' p hp).append es
  line l' := by
    rcases eq_or_ne l' l with rfl | hl
    · simp only [State.onLine, update_self]
      exact (h.line l').step op hop
    · simp only [State.onLine, update_of_ne hl]
      exact h.line l'

variable [DecidableEq θ] [DecidableEq ι] [DecidableEq O] {code : θ → K → List (Instr L O S D)}
  {a : Action θ ι L K}

theorem stepThread (h : Inv home s)
    (hrace : ∀ l f c, (s.threads t).code = .store l f :: c → Ordered home s t l)
    (hs : stepThread home s t = some s') : Inv home s' := by
  obtain ⟨k, hk⟩ := h.threads t
  simp only [FlushProgram.stepThread] at hs
  split at hs
  · cases hs
  · obtain rfl := Option.some.inj hs
    exact h.setThread (hk.invalidate ‹_›)
  · split at hs <;> cases hs
    exact h.setThread (hk.invalidateFence ‹_› ‹_›)
  · obtain rfl := Option.some.inj hs
    exact h.setThread (hk.writeback ‹_›)
  · split at hs <;> cases hs
    exact h.setThread (hk.writebackFence ‹_› ‹_›)
  · obtain rfl := Option.some.inj hs
    exact h.setThread ⟨k, (hk.load ‹_›).2⟩
  · rename_i l f c hcode
    obtain rfl := Option.some.inj hs
    obtain ⟨hready, hth⟩ := hk.store hcode
    refine (h.onLine l _ fun n g hop => ?_).setThread hth
    obtain ⟨rfl, -⟩ := Op.store.inj hop
    exact hk.fresh hready (hrace l f c hcode)
  · rename_i o f acquires gives c hcode
    obtain ⟨v, -, rfl⟩ := Option.map_eq_some_iff.mp hs
    obtain ⟨hgives, hth⟩ := hk.sync hcode (h.given o)
    have hset := h.setThread hth
    refine ⟨hset.threads, fun o' l p hp => ?_, hset.line⟩
    simp only [update_apply] at hp
    split at hp
    · exact hgives l p hp
    · exact h.given o' l p hp

theorem step (h : Inv home s) (hok : Proper home code s a) (hs : step home code s a = some s') :
    Inv home s' := by
  cases a with
  | call t c =>
      simp only [FlushProgram.step] at hs
      split at hs <;> cases hs
      obtain ⟨k, hk⟩ := h.threads t
      exact h.setThread ⟨_, hk.call ‹_› hok⟩
  | thread t => exact h.stepThread hok hs
  | invalidate t l =>
      simp only [FlushProgram.step] at hs
      split at hs <;> cases hs
      obtain ⟨k, hk⟩ := h.threads t
      exact (h.onLine l (.invalidate (home t)) (by simp)).setThread ⟨k, hk.performInvalidate l⟩
  | writeback t l =>
      simp only [FlushProgram.step] at hs
      split at hs <;> cases hs
      obtain ⟨k, hk⟩ := h.threads t
      exact (h.onLine l (.writeback (home t)) (by simp)).setThread ⟨k, hk.performWriteback l⟩
  | fill n l =>
      obtain rfl := Option.some.inj hs
      exact h.onLine l _ (by simp)
  | evict n l =>
      obtain rfl := Option.some.inj hs
      exact h.onLine l _ (by simp)

end Inv

variable [DecidableEq θ] [DecidableEq ι] [DecidableEq O] {code : θ → K → List (Instr L O S D)} {objs : O → S}
  {mem : L → D}

theorem inv_of_run (h : (machine home code objs mem).Run (Proper home code) s) : Inv home s := by
  refine h.invariant (I := Inv home) ?_ ?_
  · rintro s rfl
    exact .initial
  · rintro s a s' - hinv hok hstep
    exact hinv.step hok hstep

end Invariant

end FlushProgram
