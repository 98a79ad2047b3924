import Mathlib.Logic.Function.Basic

/-!
# A line of memory in caches that are not coherent

Every node may have a copy of the line, and hardware loads and drops copies when it likes; a copy that was
stored to is written to memory when it is dropped, with whatever else it holds. What keeps such a memory
usable is a discipline of its users: before a node accesses the line, every store of another node has been
written back there and, after that, the line been invalidated here. Under it, every access finds what one
memory for all nodes would hold.
-/

open Function

namespace NoncoherentCache

variable {ι D : Type*}

/-- The line in a cache. -/
structure Copy (D : Type*) where
  data : D
  dirty : Bool
  deriving DecidableEq, Repr

/-- The line in memory, and the copies of the nodes. -/
structure Line (ι D : Type*) where
  mem : D
  copy : ι → Option (Copy D)

/-- What is done to the line. A store changes a part of it. `fill` and `evict` are up to the hardware. -/
inductive Op (ι D : Type*)
  | store (n : ι) (f : D → D)
  | writeback (n : ι)
  | invalidate (n : ι)
  | fill (n : ι)
  | evict (n : ι)

/-- What programs do to the line. -/
inductive Event (ι : Type*)
  | store (n : ι)
  | writeback (n : ι)
  | invalidate (n : ι)
  deriving DecidableEq, Repr

def Op.event : Op ι D → Option (Event ι)
  | .store n _ => some (.store n)
  | .writeback n => some (.writeback n)
  | .invalidate n => some (.invalidate n)
  | .fill _ | .evict _ => none

/-- The effect on one memory for all nodes. -/
def Op.apply (flat : D) : Op ι D → D
  | .store _ f => f flat
  | _ => flat

namespace Line

/-- What node `n` finds in the line. -/
def read (s : Line ι D) (n : ι) : D :=
  match s.copy n with
  | some c => c.data
  | none => s.mem

variable [DecidableEq ι]

/-- Write a dirty copy to memory, and keep it. -/
def writeback (s : Line ι D) (n : ι) : Line ι D :=
  match s.copy n with
  | some ⟨d, true⟩ => ⟨d, update s.copy n (some ⟨d, false⟩)⟩
  | _ => s

/-- Write a dirty copy to memory, and drop it. -/
def drop (s : Line ι D) (n : ι) : Line ι D :=
  { s.writeback n with copy := update s.copy n none }

def step (s : Line ι D) : Op ι D → Line ι D
  | .store n f => { s with copy := update s.copy n (some ⟨f (s.read n), true⟩) }
  | .writeback n => s.writeback n
  | .invalidate n | .evict n => s.drop n
  | .fill n => { s with copy := update s.copy n (some ((s.copy n).getD ⟨s.mem, false⟩)) }

def run (s : Line ι D) (ops : List (Op ι D)) : Line ι D := ops.foldl step s

end Line

/-! ## The discipline -/

/-- Every store of another node has been written back and, after that, the copy of node `n` dropped. -/
def Fresh (tr : List (Event ι)) (n : ι) : Prop :=
  ∀ m earlier later, m ≠ n → tr = earlier ++ .store m :: later →
    ∃ q₁ q₂, later = q₁ ++ .writeback m :: q₂ ∧ .invalidate n ∈ q₂

/-- Node `n` has not written back since some store. -/
def Unflushed (tr : List (Event ι)) (n : ι) : Prop :=
  ∃ earlier later, tr = earlier ++ .store n :: later ∧ .writeback n ∉ later

variable {tr : List (Event ι)} {e : Event ι} {m n : ι}

theorem Fresh.not_unflushed (h : Fresh tr n) (hne : m ≠ n) : ¬ Unflushed tr m := by
  rintro ⟨earlier, later, htr, hno⟩
  obtain ⟨q₁, q₂, rfl, -⟩ := h m earlier later hne htr
  exact hno (by simp)

/-- Only by dropping its copy a node becomes fresh. -/
theorem Fresh.of_snoc (h : Fresh (tr ++ [e]) n) : e = .invalidate n ∨ Fresh tr n := by
  refine or_iff_not_imp_left.mpr fun he m earlier later hne htr => ?_
  obtain ⟨q₁, q₂, hlater, hinv⟩ := h m earlier (later ++ [e]) hne (by simp [htr])
  rcases List.eq_nil_or_concat q₂ with rfl | ⟨q₂, x, rfl⟩
  · cases hinv
  · rw [List.concat_eq_append] at hlater hinv
    obtain ⟨hlast, hx⟩ : later = q₁ ++ .writeback m :: q₂ ∧ [e] = [x] :=
      List.append_inj' (by simpa using hlater) rfl
    obtain rfl := List.singleton_inj.mp hx
    refine ⟨q₁, q₂, hlast, ?_⟩
    rcases List.mem_append.mp hinv with hinv | hinv
    · exact hinv
    · exact absurd (List.mem_singleton.mp hinv).symm he

theorem not_fresh_store (hne : m ≠ n) : ¬ Fresh (tr ++ [.store m]) n := by
  intro h
  obtain ⟨q₁, q₂, hnil, -⟩ := h m tr [] hne rfl
  simp at hnil

theorem unflushed_store (tr : List (Event ι)) (n : ι) : Unflushed (tr ++ [.store n]) n :=
  ⟨tr, [], rfl, List.not_mem_nil⟩

theorem Unflushed.snoc (h : Unflushed tr n) (he : e ≠ .writeback n) : Unflushed (tr ++ [e]) n := by
  obtain ⟨earlier, later, rfl, hno⟩ := h
  refine ⟨earlier, later ++ [e], by simp, fun hmem => ?_⟩
  rcases List.mem_append.mp hmem with hmem | hmem
  · exact hno hmem
  · exact he (List.mem_singleton.mp hmem).symm

/-! ## One memory for all nodes -/

/-- The line after the events `tr` and what one memory for all nodes would hold: it is in every dirty copy,
in memory if there is none, and in the copy of every node that is fresh. Only a node that has not written
back has a dirty copy. -/
structure Inv (tr : List (Event ι)) (flat : D) (s : Line ι D) : Prop where
  mem : (∀ n c, s.copy n = some c → c.dirty = false) → s.mem = flat
  dirty : ∀ n c, s.copy n = some c → c.dirty = true → c.data = flat ∧ Unflushed tr n
  fresh : ∀ n c, Fresh tr n → s.copy n = some c → c.data = flat

namespace Inv

variable {flat : D} {s : Line ι D}

theorem initial (d : D) : Inv [] d (⟨d, fun _ => none⟩ : Line ι D) :=
  ⟨fun _ => rfl, by simp, by simp⟩

/-- A fresh node without a copy finds the line in memory. -/
theorem mem_of_fresh (h : Inv tr flat s) (hf : Fresh tr n) (hn : ∀ c, s.copy n = some c → c.dirty = false) :
    s.mem = flat := by
  refine h.mem fun m c hc => ?_
  by_cases hm : m = n
  · exact hn c (hm ▸ hc)
  · cases hd : c.dirty with
    | false => rfl
    | true => exact absurd (h.dirty m c hc hd).2 (hf.not_unflushed hm)

/-- What a fresh node finds is what one memory for all nodes holds. -/
theorem read (h : Inv tr flat s) (hf : Fresh tr n) : s.read n = flat := by
  unfold Line.read
  split
  · exact h.fresh n _ hf ‹_›
  · rename_i hc
    exact h.mem_of_fresh hf (by simp [hc])

variable [DecidableEq ι]

theorem store (h : Inv tr flat s) (hf : Fresh tr n) (f : D → D) :
    Inv (tr ++ [.store n]) (f flat) (s.step (.store n f)) := by
  have hread := h.read hf
  refine ⟨fun hno => ?mem, fun m c hc hd => ?dirty, fun m c hm hc => ?fresh⟩ <;>
    simp only [Line.step, update_apply, hread] at *
  case mem => exact absurd (hno n ⟨f flat, true⟩ (if_pos rfl)) (by simp)
  case dirty =>
    split at hc
    · rename_i hmn
      subst hmn
      cases hc
      exact ⟨rfl, unflushed_store tr m⟩
    · rename_i hmn
      exact absurd (h.dirty m c hc hd).2 (hf.not_unflushed hmn)
  case fresh =>
    by_cases hmn : m = n
    · rw [if_pos hmn] at hc
      cases hc
      rfl
    · exact absurd hm (not_fresh_store (Ne.symm hmn))

/-- Writing back leaves memory right, and no dirty copy at `n`. -/
theorem writeback_spec (h : Inv tr flat s) (n : ι) :
    (∀ c, s.copy n = some c → c.dirty = true → (s.writeback n).mem = flat) ∧
      ((∀ c, s.copy n = some c → c.dirty = false) → s.writeback n = s) := by
  unfold Line.writeback
  split
  · rename_i d hd
    exact ⟨fun _ _ _ => (h.dirty n _ hd rfl).1, fun hno => absurd (hno _ hd) (by simp)⟩
  · rename_i hno
    refine ⟨fun c hc hd => absurd hc ?_, fun _ => rfl⟩
    have : c = ⟨c.data, true⟩ := by rw [← hd]
    rw [this]
    exact hno c.data

/-- A copy that memory agrees with may be written back or dropped. -/
theorem clean (h : Inv tr flat s) (n : ι) {tr' : List (Event ι)} {s' : Line ι D}
    (hmem : s'.mem = (s.writeback n).mem) (hother : ∀ m ≠ n, s'.copy m = s.copy m)
    (hself : ∀ c, s'.copy n = some c → c.dirty = false ∧ ∃ d, s.copy n = some ⟨c.data, d⟩)
    (hfresh : ∀ m, Fresh tr' m → (m = n → s'.copy n ≠ none) → Fresh tr m)
    (hunflushed : ∀ m ≠ n, Unflushed tr m → Unflushed tr' m) : Inv tr' flat s' where
  mem hno := by
    rw [hmem]
    by_cases hd : ∃ c, s.copy n = some c ∧ c.dirty = true
    · obtain ⟨c, hc, hd⟩ := hd
      exact (h.writeback_spec n).1 c hc hd
    · have hclean : ∀ c, s.copy n = some c → c.dirty = false := fun c hc => by
        cases hcd : c.dirty with
        | false => rfl
        | true => exact absurd ⟨c, hc, hcd⟩ hd
      rw [(h.writeback_spec n).2 hclean]
      refine h.mem fun m c hc => ?_
      by_cases hm : m = n
      · exact hclean c (hm ▸ hc)
      · exact hno m c ((hother m hm).trans hc)
  dirty m c hc hd := by
    by_cases hm : m = n
    · subst hm
      rw [(hself c hc).1] at hd
      cases hd
    · rw [hother m hm] at hc
      exact (h.dirty m c hc hd).imp id (hunflushed m hm)
  fresh m c hf hc := by
    have hf := hfresh m hf fun hm hnone => by
      subst hm
      rw [hnone] at hc
      cases hc
    by_cases hm : m = n
    · subst hm
      obtain ⟨d, hold⟩ := (hself c hc).2
      exact h.fresh m ⟨c.data, d⟩ hf hold
    · rw [hother m hm] at hc
      exact h.fresh m c hf hc

theorem writeback (h : Inv tr flat s) (n : ι) : Inv (tr ++ [.writeback n]) flat (s.step (.writeback n)) := by
  refine h.clean n rfl (fun m hm => ?_) (fun c hc => ?_) (fun m hf _ => ?_) fun m hm hu => ?_
  · simp only [Line.step, Line.writeback]
    split
    · exact update_of_ne hm _ _
    · rfl
  · simp only [Line.step, Line.writeback] at hc
    split at hc
    · rename_i d hd
      obtain rfl : ⟨d, false⟩ = c := by simpa using hc
      exact ⟨rfl, true, hd⟩
    · rename_i hno
      obtain ⟨d, dirty⟩ := c
      cases dirty with
      | false => exact ⟨rfl, false, hc⟩
      | true => exact absurd hc (hno d)
  · rcases hf.of_snoc with he | hf
    · cases he
    · exact hf
  · exact hu.snoc fun he => hm (Event.writeback.inj he).symm

/-- The copy of `n` is dropped, by an instruction or by the hardware. -/
theorem drop (h : Inv tr flat s) (n : ι) {es : List (Event ι)} (hes : es = [] ∨ es = [.invalidate n]) :
    Inv (tr ++ es) flat (s.drop n) := by
  have hnone : (s.drop n).copy n = none := update_self _ _ _
  refine h.clean n rfl (fun m hm => update_of_ne hm _ _) (fun c hc => ?_) (fun m hf hm => ?_)
    fun m hm hu => ?_
  · rw [hnone] at hc
    cases hc
  · rcases hes with rfl | rfl
    · rwa [List.append_nil] at hf
    · rcases hf.of_snoc with he | hf
      · obtain rfl := Event.invalidate.inj he
        exact absurd hnone (hm rfl)
      · exact hf
  · rcases hes with rfl | rfl
    · rwa [List.append_nil]
    · exact hu.snoc (by simp)

theorem fill (h : Inv tr flat s) (n : ι) : Inv tr flat (s.step (.fill n)) := by
  cases hn : s.copy n with
  | some c =>
      have hcopy : (s.step (.fill n)).copy = s.copy := by
        simp only [Line.step, hn, Option.getD_some]
        rw [← hn, update_eq_self]
      exact ⟨hcopy ▸ h.mem, hcopy ▸ h.dirty, hcopy ▸ h.fresh⟩
  | none =>
      have hself : (s.step (.fill n)).copy n = some ⟨s.mem, false⟩ := by
        simp [Line.step, hn]
      have hother : ∀ m ≠ n, (s.step (.fill n)).copy m = s.copy m := fun m hm => update_of_ne hm _ _
      refine ⟨fun hno => h.mem fun m c hc => ?mem, fun m c hc hd => ?dirty, fun m c hf hc => ?fresh⟩
      case mem =>
        have hm : m ≠ n := by
          rintro rfl
          rw [hn] at hc
          cases hc
        exact hno m c ((hother m hm).trans hc)
      case dirty =>
        by_cases hm : m = n
        · subst hm
          rw [hself] at hc
          cases hc
          cases hd
        · exact h.dirty m c (hother m hm ▸ hc) hd
      case fresh =>
        by_cases hm : m = n
        · subst hm
          rw [hself] at hc
          cases hc
          exact h.mem_of_fresh hf (by simp [hn])
        · exact h.fresh m c hf (hother m hm ▸ hc)

/-- Every operation keeps the invariant, if only fresh nodes store. -/
theorem step (h : Inv tr flat s) (op : Op ι D) (hop : ∀ n f, op = .store n f → Fresh tr n) :
    Inv (tr ++ op.event.toList) (op.apply flat) (s.step op) := by
  cases op with
  | store n f => exact h.store (hop n f rfl) f
  | writeback n => exact h.writeback n
  | invalidate n => exact h.drop n (.inr rfl)
  | evict n => exact h.drop n (.inl rfl)
  | fill n =>
      show Inv (tr ++ []) flat _
      rw [List.append_nil]
      exact h.fill n

/-- Operations other than stores keep the invariant anyway. -/
theorem run (h : Inv tr flat s) (ops : List (Op ι D)) (hops : ∀ n f, .store n f ∉ ops) :
    Inv (tr ++ ops.filterMap Op.event) flat (s.run ops) := by
  induction ops generalizing tr s with
  | nil => simpa [Line.run] using h
  | cons op ops ih =>
      have hop : ∀ n f, op ≠ .store n f := fun n f heq => hops n f (heq ▸ List.mem_cons_self)
      have hflat : op.apply flat = flat := by
        cases op with
        | store n f => exact absurd rfl (hop n f)
        | _ => rfl
      have hstep := h.step op fun n f heq => absurd heq (hop n f)
      rw [hflat] at hstep
      have hrun := ih hstep fun n f hmem => hops n f (List.mem_cons_of_mem _ hmem)
      have hevents : (op :: ops).filterMap Op.event = op.event.toList ++ ops.filterMap Op.event := by
        cases op <;> rfl
      rw [hevents, ← List.append_assoc]
      exact hrun

end Inv

end NoncoherentCache
