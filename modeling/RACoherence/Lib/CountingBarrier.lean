import Mathlib.Data.Finset.Card
import Mathlib.Data.Finset.Range
import Mathlib.Logic.Function.Basic

/-!
# A barrier that counts arrivals

`N` threads pass through rounds. A thread that arrives takes the count as its ticket and adds one; the
thread with the last ticket of the round may close it: it clears the count and then opens the barrier,
which lets everybody leave who has arrived in the round. Every round hands out the tickets
`0, …, N - 1`, and nobody leaves a round in which not all have arrived.
-/

namespace CountingBarrier

open Function

/-- Where a thread is in its current round. -/
inductive Stage
  | out
  | arrived
  | closing
  | cleared
  | opened
  deriving DecidableEq

/-- `opened` counts the rounds that were opened, `round t` those that thread `t` has left. -/
structure State where
  count : ℕ
  opened : ℕ
  round : ℕ → ℕ
  stage : ℕ → Stage
  ticket : ℕ → ℕ → Option ℕ

namespace State

/-- Move thread `t` to stage `st`. -/
def move (s : State) (t : ℕ) (st : Stage) : State := { s with stage := update s.stage t st }

/-- Thread `t` takes the next ticket. -/
def takeTicket (s : State) (t : ℕ) : State :=
  { s with
    count := s.count + 1
    ticket := update s.ticket t (update (s.ticket t) (s.round t) (some s.count)) }

end State

variable (N : ℕ)

inductive Step (s : State) : State → Prop
  | arrive {t : ℕ} : t < N → s.stage t = .out → Step s ((s.takeTicket t).move t .arrived)
  | close {t : ℕ} : t < N → s.stage t = .arrived → s.ticket t (s.round t) = some (N - 1) →
      Step s (s.move t .closing)
  | clear {t : ℕ} : t < N → s.stage t = .closing → Step s ({ s with count := 0 }.move t .cleared)
  | open_ {t : ℕ} : t < N → s.stage t = .cleared →
      Step s ({ s with opened := s.opened + 1 }.move t .opened)
  | leave {t : ℕ} : t < N →
      (s.stage t = .opened ∨ (s.stage t = .arrived ∧ s.round t < s.opened)) →
      Step s ({ s with round := update s.round t (s.round t + 1) }.move t .out)

/-- The threads that have arrived in the round that is open next. -/
def current (s : State) : Finset ℕ :=
  (Finset.range N).filter fun t => (s.ticket t s.opened).isSome

structure Ok (s : State) : Prop where
  out : ∀ t < N, s.stage t = .out → s.round t = s.opened
  bounds : ∀ t < N, s.round t ≤ s.opened ∧ s.opened ≤ s.round t + 1
  has : ∀ t < N, ∀ k, (s.ticket t k).isSome ↔ k < s.round t ∨ (k = s.round t ∧ s.stage t ≠ .out)
  inj : ∀ t < N, ∀ u < N, ∀ k x, s.ticket t k = some x → s.ticket u k = some x → t = u
  lt : ∀ t < N, ∀ k x, s.ticket t k = some x → x < N
  counted : (∀ t < N, s.stage t ≠ .cleared) → s.count = (current N s).card ∧
    ∀ t < N, ∀ x, s.ticket t s.opened = some x → x < s.count
  cleared : ∀ t < N, s.stage t = .cleared → s.count = 0
  closing : ∀ t < N, s.stage t = .closing ∨ s.stage t = .cleared →
    s.round t = s.opened ∧ s.ticket t s.opened = some (N - 1) ∧
      ∀ u < N, (s.ticket u s.opened).isSome
  past : ∀ k < s.opened, ∃ u < N, s.ticket u k = some (N - 1) ∧
    (k < s.round u ∨ (k = s.round u ∧ s.stage u = .opened))
  opened : ∀ t < N, s.stage t = .opened → s.round t + 1 = s.opened

variable {N} {s s' : State} {t u k : ℕ}

theorem mem_current : t ∈ current N s ↔ t < N ∧ (s.ticket t s.opened).isSome := by
  simp [current]

namespace Ok

/-- Nobody takes a ticket of a round that is not open next. -/
theorem le_opened (h : Ok N s) (ht : t < N) (hk : (s.ticket t k).isSome) : k ≤ s.opened := by
  have := (h.has t ht k).mp hk
  have := h.bounds t ht
  omega

/-- Whoever has the last ticket of a round knows that all have arrived. -/
theorem all_of_last (h : Ok N s) (ht : t < N) (hk : s.ticket t k = some (N - 1)) (hu : u < N) :
    (s.ticket u k).isSome := by
  have hsome : (s.ticket t k).isSome := by simp [hk]
  rcases (h.le_opened ht hsome).lt_or_eq with hlt | rfl
  · have hb := h.bounds u hu
    rw [h.has u hu]
    rcases Nat.lt_or_ge k (s.round u) with hr | hr
    · exact .inl hr
    · refine .inr ⟨by omega, fun hout => ?_⟩
      have := h.out u hu hout
      omega
  · by_cases hc : ∃ v < N, s.stage v = .cleared
    · obtain ⟨v, hv, hst⟩ := hc
      exact (h.closing v hv (.inr hst)).2.2 u hu
    · push Not at hc
      obtain ⟨hcard, hlt⟩ := h.counted hc
      have hN := hlt t ht _ hk
      have hfull : current N s = Finset.range N :=
        Finset.eq_of_subset_of_card_le (Finset.filter_subset _ _) (by rw [Finset.card_range]; omega)
      exact (mem_current.mp (hfull ▸ Finset.mem_range.mpr hu)).2

/-- All tickets of a round are handed out when all have arrived, so exactly one is the last. -/
theorem existsUnique_last (h : Ok N s) (hN : 0 < N) (hall : ∀ u < N, (s.ticket u k).isSome) :
    ∃! t, t < N ∧ s.ticket t k = some (N - 1) := by
  have hget : ∀ u < N, s.ticket u k = some ((s.ticket u k).getD 0) := fun u hu => by
    obtain ⟨x, hx⟩ := Option.isSome_iff_exists.mp (hall u hu)
    simp [hx]
  have himage : (Finset.range N).image (fun u => (s.ticket u k).getD 0) = Finset.range N := by
    refine Finset.eq_of_subset_of_card_le (fun x hx => ?_) ?_
    · obtain ⟨u, hu, rfl⟩ := Finset.mem_image.mp hx
      have hu := Finset.mem_range.mp hu
      exact Finset.mem_range.mpr (h.lt u hu k _ (hget u hu))
    · rw [Finset.card_image_of_injOn]
      intro u hu v hv huv
      have hu := Finset.mem_range.mp hu
      have hv := Finset.mem_range.mp hv
      refine h.inj u hu v hv k _ (hget u hu) ?_
      rw [hget v hv]
      exact congrArg some huv.symm
  have hlast : N - 1 ∈ (Finset.range N).image (fun u => (s.ticket u k).getD 0) := by
    rw [himage]
    exact Finset.mem_range.mpr (by omega)
  obtain ⟨t, ht, hk⟩ := Finset.mem_image.mp hlast
  have ht := Finset.mem_range.mp ht
  refine ⟨t, ⟨ht, by rw [hget t ht, hk]⟩, fun u hu => ?_⟩
  exact h.inj u hu.1 t ht k _ hu.2 (by rw [hget t ht, hk])

/-- As long as somebody is out, nobody closes. -/
theorem not_closing_of_out (h : Ok N s) (ht : t < N) (hout : s.stage t = .out) (hu : u < N) :
    s.stage u ≠ .closing ∧ s.stage u ≠ .cleared := by
  have hround := h.out t ht hout
  have hnone : ¬ (s.ticket t s.opened).isSome := by
    rw [h.has t ht]
    simp [hround, hout]
  constructor
  · exact fun hst => hnone ((h.closing u hu (.inl hst)).2.2 t ht)
  · exact fun hst => hnone ((h.closing u hu (.inr hst)).2.2 t ht)

theorem arrive (h : Ok N s) (ht : t < N) (hst : s.stage t = .out) :
    Ok N ((s.takeTicket t).move t .arrived) := by
  have hround := h.out t ht hst
  have hnone : s.ticket t s.opened = none := by
    have := (h.has t ht s.opened).not.mpr (by simp [hround, hst])
    simpa using this
  have hquiet : ∀ u < N, s.stage u ≠ .closing ∧ s.stage u ≠ .cleared := fun u hu =>
    h.not_closing_of_out ht hst hu
  obtain ⟨hcard, hlt⟩ := h.counted fun u hu => (hquiet u hu).2
  have hmem : t ∉ current N s := by simp [mem_current, hnone]
  have hsub : current N s ⊂ Finset.range N :=
    (Finset.filter_subset _ _).ssubset_of_ne fun heq => hmem (heq.ge (Finset.mem_range.mpr ht))
  have hN : s.count < N := by
    have := Finset.card_lt_card hsub
    rw [Finset.card_range] at this
    omega
  refine ⟨?out, h.bounds, ?has, ?inj, ?lt, ?counted, ?cleared, ?closing, ?past, ?opened⟩
  case out =>
    have := h.out
    simp only [State.move, State.takeTicket, update_apply]
    grind
  case has =>
    intro u hu k
    have := h.has u hu k
    simp only [State.move, State.takeTicket, update_apply]
    grind
  case inj =>
    intro u hu v hv k x
    have := h.inj u hu v hv k x
    have hlu := hlt u hu x
    have hlv := hlt v hv x
    simp only [State.move, State.takeTicket, update_apply]
    grind
  case lt =>
    intro u hu k x
    have := h.lt u hu k x
    simp only [State.move, State.takeTicket, update_apply]
    grind
  case counted =>
    intro _
    have hins : current N ((s.takeTicket t).move t .arrived) = insert t (current N s) := by
      ext u
      rw [Finset.mem_insert, mem_current, mem_current]
      simp only [State.move, State.takeTicket, update_apply]
      grind
    refine ⟨?_, fun u hu x => ?_⟩
    · rw [hins, Finset.card_insert_of_notMem hmem, ← hcard]
      rfl
    · have := hlt u hu x
      simp only [State.move, State.takeTicket, update_apply]
      grind
  case cleared =>
    intro u hu
    have := hquiet u hu
    simp only [State.move, State.takeTicket, update_apply]
    grind
  case closing =>
    intro u hu
    have := hquiet u hu
    simp only [State.move, State.takeTicket, update_apply]
    grind
  case past =>
    intro k hk
    obtain ⟨u, hu, hlast, hpos⟩ := h.past k hk
    refine ⟨u, hu, ?_, ?_⟩
    · simp only [State.move, State.takeTicket, update_apply]
      grind
    · simp only [State.move, State.takeTicket, update_apply] at hk ⊢
      grind
  case opened =>
    intro u hu
    have := h.opened u hu
    simp only [State.move, State.takeTicket, update_apply]
    grind

/-- The last ticket of a round that somebody else has opened is not in the hand of `t`. -/
theorem round_of_last (h : Ok N s) (ht : t < N) (hst : s.stage t = .arrived)
    (hk : s.ticket t (s.round t) = some (N - 1)) : s.round t = s.opened := by
  rcases (h.bounds t ht).1.lt_or_eq with hlt | heq
  · obtain ⟨u, hu, hlast, hpos⟩ := h.past _ hlt
    obtain rfl := h.inj u hu t ht _ _ hlast hk
    simp [hst] at hpos
  · exact heq

theorem close (h : Ok N s) (ht : t < N) (hst : s.stage t = .arrived)
    (hk : s.ticket t (s.round t) = some (N - 1)) : Ok N (s.move t .closing) := by
  have hround := h.round_of_last ht hst hk
  have hk' : s.ticket t s.opened = some (N - 1) := hround ▸ hk
  refine ⟨?out, h.bounds, ?has, h.inj, h.lt, ?counted, ?cleared, ?closing, ?past, ?opened⟩
  case out =>
    have := h.out
    simp only [State.move, update_apply]
    grind
  case has =>
    intro u hu k
    have := h.has u hu k
    simp only [State.move, update_apply]
    grind
  case counted =>
    intro hc
    refine h.counted fun u hu => ?_
    have := hc u hu
    simp only [State.move, update_apply] at this
    grind
  case cleared =>
    intro u hu
    have := h.cleared u hu
    simp only [State.move, update_apply]
    grind
  case closing =>
    intro u hu hu'
    by_cases hut : u = t
    · subst hut
      exact ⟨hround, hk', fun v hv => h.all_of_last ht hk' hv⟩
    · refine h.closing u hu ?_
      simpa [State.move, hut] using hu'
  case past =>
    intro k hk
    obtain ⟨u, hu, hlast, hpos⟩ := h.past k hk
    refine ⟨u, hu, hlast, ?_⟩
    simp only [State.move, update_apply]
    grind
  case opened =>
    intro u hu
    have := h.opened u hu
    simp only [State.move, update_apply]
    grind

theorem clear (h : Ok N s) (ht : t < N) (hst : s.stage t = .closing) :
    Ok N ({ s with count := 0 }.move t .cleared) := by
  refine ⟨?out, h.bounds, ?has, h.inj, h.lt, ?counted, fun _ _ _ => rfl, ?closing, ?past, ?opened⟩
  case out =>
    have := h.out
    simp only [State.move, update_apply]
    grind
  case has =>
    intro u hu k
    have := h.has u hu k
    simp only [State.move, update_apply]
    grind
  case counted =>
    intro hc
    exact absurd (by simp [State.move]) (hc t ht)
  case closing =>
    intro u hu hu'
    refine h.closing u hu ?_
    simp only [State.move, update_apply] at hu'
    grind
  case past =>
    intro k hk
    obtain ⟨u, hu, hlast, hpos⟩ := h.past k hk
    refine ⟨u, hu, hlast, ?_⟩
    simp only [State.move, update_apply]
    grind
  case opened =>
    intro u hu
    have := h.opened u hu
    simp only [State.move, update_apply]
    grind

theorem open_ (h : Ok N s) (ht : t < N) (hst : s.stage t = .cleared) :
    Ok N ({ s with opened := s.opened + 1 }.move t .opened) := by
  obtain ⟨hround, hlast, hall⟩ := h.closing t ht (.inr hst)
  have hzero := h.cleared t ht hst
  -- all are in the round that opens, and nobody else closes it
  have hin : ∀ u < N, s.round u = s.opened ∧ s.stage u ≠ .out := by
    intro u hu
    have hpos := (h.has u hu _).mp (hall u hu)
    have := h.bounds u hu
    rcases hpos with hpos | hpos
    · omega
    · exact ⟨hpos.1.symm, hpos.2⟩
  have hone : ∀ u < N, u ≠ t → s.stage u ≠ .closing ∧ s.stage u ≠ .cleared := by
    intro u hu hne
    constructor
    · exact fun hu' => hne (h.inj u hu t ht _ _ (h.closing u hu (.inl hu')).2.1 hlast)
    · exact fun hu' => hne (h.inj u hu t ht _ _ (h.closing u hu (.inr hu')).2.1 hlast)
  have hfresh : ∀ u < N, s.ticket u (s.opened + 1) = none := by
    intro u hu
    have := (h.has u hu (s.opened + 1)).not.mpr (by have := hin u hu; omega)
    simpa using this
  refine ⟨?out, ?bounds, ?has, h.inj, h.lt, ?counted, fun _ _ _ => hzero, ?closing, ?past, ?opened⟩
  case out =>
    intro u hu hu'
    have := hin u hu
    simp only [State.move, update_apply] at hu'
    grind
  case bounds =>
    intro u hu
    have := hin u hu
    simp only [State.move]
    omega
  case has =>
    intro u hu k
    have := h.has u hu k
    simp only [State.move, update_apply]
    grind
  case counted =>
    intro _
    have hempty : current N ({ s with opened := s.opened + 1 }.move t .opened) = ∅ := by
      refine Finset.filter_eq_empty_iff.mpr fun u hu => ?_
      simp [State.move, hfresh u (Finset.mem_range.mp hu)]
    refine ⟨?_, fun u hu x hx => ?_⟩
    · rw [hempty, Finset.card_empty]
      exact hzero
    · simp only [State.move, hfresh u hu] at hx
      cases hx
  case closing =>
    intro u hu hu'
    have := hone u hu
    simp only [State.move, update_apply] at hu'
    grind
  case past =>
    intro k hk
    simp only [State.move] at hk
    rcases Nat.lt_succ_iff_lt_or_eq.mp hk with hk | rfl
    · obtain ⟨u, hu, hlast, hpos⟩ := h.past k hk
      refine ⟨u, hu, hlast, ?_⟩
      simp only [State.move, update_apply]
      grind
    · exact ⟨t, ht, hlast, .inr ⟨hround.symm, by simp [State.move]⟩⟩
  case opened =>
    intro u hu hu'
    have := hin u hu
    simp only [State.move] at hu' ⊢
    omega

theorem leave (h : Ok N s) (ht : t < N)
    (hst : s.stage t = .opened ∨ (s.stage t = .arrived ∧ s.round t < s.opened)) :
    Ok N ({ s with round := update s.round t (s.round t + 1) }.move t .out) := by
  have hround : s.round t + 1 = s.opened := by
    rcases hst with hst | ⟨-, hlt⟩
    · exact h.opened t ht hst
    · have := h.bounds t ht
      omega
  refine ⟨?out, ?bounds, ?has, h.inj, h.lt, ?counted, ?cleared, ?closing, ?past, ?opened⟩
  case out =>
    intro u hu
    have := h.out u hu
    simp only [State.move, update_apply]
    grind
  case bounds =>
    intro u hu
    have := h.bounds u hu
    simp only [State.move, update_apply]
    grind
  case has =>
    intro u hu k
    have := h.has u hu k
    simp only [State.move, update_apply]
    grind
  case counted =>
    intro hc
    refine h.counted fun u hu => ?_
    have := hc u hu
    simp only [State.move, update_apply] at this
    grind
  case cleared =>
    intro u hu
    have := h.cleared u hu
    simp only [State.move, update_apply]
    grind
  case closing =>
    intro u hu
    have := h.closing u hu
    simp only [State.move, update_apply]
    grind
  case past =>
    intro k hk
    obtain ⟨u, hu, hlast, hpos⟩ := h.past k hk
    refine ⟨u, hu, hlast, ?_⟩
    simp only [State.move, update_apply]
    grind
  case opened =>
    intro u hu
    have := h.opened u hu
    simp only [State.move, update_apply]
    grind

theorem step (h : Ok N s) (hs : Step N s s') : Ok N s' := by
  cases hs with
  | arrive ht hst => exact h.arrive ht hst
  | close ht hst hk => exact h.close ht hst hk
  | clear ht hst => exact h.clear ht hst
  | open_ ht hst => exact h.open_ ht hst
  | leave ht hst => exact h.leave ht hst

end Ok

end CountingBarrier
