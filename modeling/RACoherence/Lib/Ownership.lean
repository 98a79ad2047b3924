import Mathlib.Data.Finset.Card

/-!
# Exclusive ownership

A relation between owners and objects in which every object has exactly one owner. Handing an object
over keeps it exclusive, and there are never more owners than objects.
-/

variable {ω ι : Type*}

/-- Every object of `S` has exactly one owner, and only objects of `S` are owned. -/
structure Exclusive (own : ω → ι → Prop) (S : Finset ι) : Prop where
  unique : ∀ x ∈ S, ∃! o, own o x
  mem : ∀ o x, own o x → x ∈ S

namespace Exclusive

variable {own own' : ω → ι → Prop} {S : Finset ι}

/-- Two owners of one object are the same. -/
theorem eq (h : Exclusive own S) {o o' : ω} {x : ι} (ho : own o x) (ho' : own o' x) : o = o' :=
  (h.unique x (h.mem o x ho)).unique ho ho'

/-- Nothing changes hands. -/
theorem congr (h : Exclusive own S) (hiff : ∀ o x, own' o x ↔ own o x) : Exclusive own' S where
  unique x hx := by
    simp only [hiff]
    exact h.unique x hx
  mem o x hox := h.mem o x ((hiff o x).mp hox)

/-- The object `x` changes hands from `o` to `o'` and everything else stays where it is. -/
theorem move (h : Exclusive own S) {x : ι} {o : ω} (o' : ω) (hox : own o x)
    (hnew : ∀ p, own' p x ↔ p = o') (hrest : ∀ p y, y ≠ x → (own' p y ↔ own p y)) :
    Exclusive own' S where
  unique y hy := by
    by_cases hyx : y = x
    · subst hyx
      exact ⟨o', (hnew o').mpr rfl, fun p hp => (hnew p).mp hp⟩
    · simp only [hrest _ y hyx]
      exact h.unique y hy
  mem p y hpy := by
    by_cases hyx : y = x
    · subst hyx
      exact h.mem o y hox
    · exact h.mem p y ((hrest p y hyx).mp hpy)

/-- Owners that all own something are no more than there are objects. -/
theorem card_le (h : Exclusive own S) {T : Finset ω} (hT : ∀ o ∈ T, ∃ x, own o x) :
    T.card ≤ S.card := by
  rcases T.eq_empty_or_nonempty with rfl | ⟨o₀, ho₀⟩
  · simp
  have : Nonempty ι := ⟨(hT o₀ ho₀).choose⟩
  choose! f hf using hT
  refine Finset.card_le_card_of_injOn f (fun o ho => h.mem o _ (hf o ho)) ?_
  intro o ho o' ho' heq
  have hown := hf o' ho'
  rw [← heq] at hown
  exact h.eq (hf o ho) hown

end Exclusive
