import RACoherence.FlushUtils
import RACoherence.InstrumentLib
import RACoherence.Runtime

/-!
# Memory functions with the protocol off

Reference: `src/instrumentLib.cpp` (`memcpy`, `memmove`, `memset`, `bzero`, `read`) and `include/runtime.hpp`
(`invalidate_boundaries`), with `PROTOCOL_OFF=1`.

Without the protocol the flushes around a function of the C library are all there is: before it the lines of
the source are invalidated, and those that the destination covers only in part; after it the lines of the
destination are written back. That is enough only if the length fits an `int`. And the line in which the
destination ends is left out of the invalidation if it ends where it begins within a line, because
`invalidate_boundaries` takes equal offsets for the same line. Which instructions are issued is all that is
said here: the functions issue no fence between the invalidations and the copy.
-/

namespace RACoherence

open CacheLineTracker FlushUtils

namespace InstrumentLib

/-- `invalidate_boundaries` with the protocol off. -/
def invalidateBoundaries (begin end_ : ℕ) : List Flush :=
  (if begin &&& (cacheLineSize - 1) ≠ 0 then [.invalidate begin] else []) ++
    if end_ &&& (cacheLineSize - 1) ≠ 0 ∧
        begin &&& (cacheLineSize - 1) ≠ end_ &&& (cacheLineSize - 1) then
      [.invalidate end_]
    else []

/-- The flushes before and after the function of the C library. -/
structure Around where
  before : List Flush
  after : List Flush
  deriving DecidableEq, Repr

/-- What is done about the source, if there is one, before it is read. -/
def invalidateSource (fuel n : ℕ) : Option ℕ → Option (List Flush)
  | some src => if inCxlNhcMem src then doRangeInvalidate fuel src (intArg n) else some []
  | none => some []

/-- The five functions, for a length of `n`. -/
def flushAround (fuel : ℕ) (src : Option ℕ) (dst n : ℕ) : Option Around := do
  let invalidates ← invalidateSource fuel n src
  let boundaries := if inCxlNhcMem dst then invalidateBoundaries dst (dst + n) else []
  let writebacks ← if inCxlNhcMem dst then doRangeWriteback fuel dst (intArg n) else some []
  some ⟨invalidates ++ boundaries, writebacks⟩

/-- `memcpy` -/
def memcpy (fuel dst src n : ℕ) : Option Around := flushAround fuel (some src) dst n

/-- `memmove` -/
def memmove (fuel dst src n : ℕ) : Option Around := flushAround fuel (some src) dst n

/-- `memset` -/
def memset (fuel dst n : ℕ) : Option Around := flushAround fuel none dst n

/-- `bzero` -/
def bzero (fuel dst n : ℕ) : Option Around := flushAround fuel none dst n

/-- `read`, however many bytes it returns. -/
def read (fuel buf count : ℕ) : Option Around := flushAround fuel none buf count

/-- No stale line is read or written in part, and every line that is written to is written back. -/
structure Coherent (src : Option ℕ) (dst n : ℕ) (c : Around) : Prop where
  source : ∀ s, src = some s → inCxlNhcMem s = true → ∀ line, Touches s (s + n) line →
    FlushesLine .invalidate c.before line
  boundaries : ∀ line, PartlyCovers dst (dst + n) line → FlushesLine .invalidate c.before line
  written : ∀ line, Touches dst (dst + n) line → FlushesLine .writeback c.after line

variable {src : Option ℕ} {dst n fuel line : ℕ}

theorem le_of_nhc {addr : ℕ} (h : inCxlNhcMem addr = true) : 2 ^ 31 ≤ addr :=
  (show 2 ^ 31 ≤ cxlNhcStart by decide).trans (of_decide_eq_true h)

theorem flushesLine_append {inst : ℕ → Flush} {as bs : List Flush} :
    FlushesLine inst (as ++ bs) line ↔ FlushesLine inst as line ∨ FlushesLine inst bs line := by
  simp only [FlushesLine, List.mem_append, or_and_right, exists_or]

/-- The lines that `invalidate_boundaries` invalidates. -/
theorem flushesLine_invalidateBoundaries {begin end_ : ℕ} :
    FlushesLine .invalidate (invalidateBoundaries begin end_) line ↔
      (begin % 64 ≠ 0 ∧ line = begin / 64) ∨
        (end_ % 64 ≠ 0 ∧ begin % 64 ≠ end_ % 64 ∧ line = end_ / 64) := by
  have hone : ∀ (c : Prop) [Decidable c] (a : ℕ),
      FlushesLine .invalidate (if c then [.invalidate a] else []) line ↔ c ∧ line = a / 64 := by
    intro c _ a
    rw [FlushesLine, cacheLineSize]
    split <;> simp [*, eq_comm]
  rw [invalidateBoundaries, flushesLine_append, hone, hone, and_lineMask, and_lineMask, and_assoc]

theorem flushAround_eq_some (hnhc : inCxlNhcMem dst = true) {c : Around} :
    flushAround fuel src dst n = some c ↔ ∃ invalidates, invalidateSource fuel n src = some invalidates ∧
      doRangeWriteback fuel dst (intArg n) = some c.after ∧
      c.before = invalidates ++ invalidateBoundaries dst (dst + n) := by
  simp only [flushAround, if_pos hnhc, Option.bind_eq_bind, Option.bind_eq_some_iff, Option.some.injEq]
  constructor
  · rintro ⟨invalidates, hinv, writebacks, hwb, rfl⟩
    exact ⟨invalidates, hinv, hwb, rfl⟩
  · rintro ⟨invalidates, hinv, hwb, hbefore⟩
    exact ⟨invalidates, hinv, c.after, hwb, by rw [← hbefore]⟩

theorem flushesLine_invalidateSource (hsrc : ∀ s, src = some s → s + n ≤ 2 ^ 48)
    {invalidates : List Flush} (h : invalidateSource fuel n src = some invalidates) :
    FlushesLine .invalidate invalidates line ↔ ∃ s, src = some s ∧ inCxlNhcMem s = true ∧
      s / 64 ≤ line ∧ 64 * line < rangeEnd s (intArg n) := by
  cases src with
  | none =>
      obtain rfl := Option.some.inj h
      simp [FlushesLine]
  | some s =>
      have hs : s < addrRange := by
        have := hsrc s rfl
        rw [addrRange]
        omega
      rw [invalidateSource] at h
      split at h
      · rename_i hnhc
        rw [flushesLine_doRange (fun _ _ => Flush.invalidate.inj) hs h]
        simp [hnhc]
      · rename_i hnhc
        obtain rfl := Option.some.inj h
        simp [FlushesLine, hnhc]

/-- For memory that is not hardware coherent, and a source away from the line in which the destination ends:
the flushes suffice if and only if the length fits an `int`, and is not a multiple of the line size at an
address that is not aligned to a line. -/
theorem raw_coherent_iff (src : Option ℕ) (dst n : ℕ) (hn : 1 ≤ n) (hdst : dst + n ≤ 2 ^ 48)
    (hnhc : inCxlNhcMem dst = true) (hsrc : ∀ s, src = some s → s + n ≤ 2 ^ 48)
    (hsep : ∀ s, src = some s → ¬ Touches s (s + n) ((dst + n) / cacheLineSize)) :
    (∃ fuel c, flushAround fuel src dst n = some c ∧ Coherent src dst n c) ↔
      n < 2 ^ 31 ∧ (n % cacheLineSize ≠ 0 ∨ dst % cacheLineSize = 0) := by
  have hdata : dst < addrRange := by
    rw [addrRange]
    omega
  constructor
  · rintro ⟨fuel, c, hcall, hcoh⟩
    obtain ⟨invalidates, hinv, hwb, hbefore⟩ := (flushAround_eq_some hnhc).mp hcall
    have hlt : n < 2 ^ 31 := by
      -- of a longer range, the last line is not written back
      by_contra hlong
      have hlast := hcoh.written ((dst + n - 1) / 64) ((touches_iff (by omega)).mpr ⟨by omega, by omega⟩)
      rw [flushesLine_doRange (fun _ _ => Flush.writeback.inj) hdata hwb] at hlast
      have hne := rangeEnd_ne (by omega) hdst
      have heq := rangeEnd_eq (le_of_nhc hnhc) hdst
      have hle := (intArg_le n).2
      omega
    refine ⟨hlt, ?_⟩
    by_contra hno
    obtain ⟨hmul, hoff⟩ := not_or.mp hno
    rw [cacheLineSize] at hmul hoff hsep
    have hpart : PartlyCovers dst (dst + n) ((dst + n) / 64) :=
      (partlyCovers_iff (by omega)).mpr (.inr ⟨rfl, by omega⟩)
    have htail := hcoh.boundaries _ hpart
    rw [hbefore, flushesLine_append, flushesLine_invalidateSource hsrc hinv,
      flushesLine_invalidateBoundaries] at htail
    rcases htail with ⟨s, hs, -, hline⟩ | htail
    · have hend := hsrc s hs
      rw [rangeEnd_intArg hlt (by rw [addrRange]; omega)] at hline
      exact hsep s hs ((touches_iff (by omega)).mpr hline)
    · omega
  · rintro ⟨hlt, hbound⟩
    have hfuel : n / cacheLineSize + 3 ≤ 2 ^ 48 := by
      rw [cacheLineSize]
      omega
    obtain ⟨writebacks, hwb⟩ := @doRange_returns _ _ .writeback (le_of_nhc hnhc) hdst (2 ^ 48) hfuel
    obtain ⟨invalidates, hinv⟩ : ∃ invalidates, invalidateSource (2 ^ 48) n src = some invalidates := by
      cases src with
      | none => exact ⟨[], rfl⟩
      | some s =>
          rw [invalidateSource]
          split
          · exact doRange_returns .invalidate (le_of_nhc ‹_›) (hsrc s rfl) hfuel
          · exact ⟨[], rfl⟩
    refine ⟨2 ^ 48, ⟨invalidates ++ invalidateBoundaries dst (dst + n), writebacks⟩,
      (flushAround_eq_some hnhc).mpr ⟨invalidates, hinv, hwb, rfl⟩, ?source, ?boundaries, ?written⟩
    case source =>
      intro s hs hs' line hline
      have hend := hsrc s hs
      refine flushesLine_append.mpr (.inl ((flushesLine_invalidateSource hsrc hinv).mpr ⟨s, hs, hs', ?_⟩))
      rw [rangeEnd_intArg hlt (by rw [addrRange]; omega)]
      exact (touches_iff (by omega)).mp hline
    case boundaries =>
      intro line hline
      rw [partlyCovers_iff (by omega)] at hline
      refine flushesLine_append.mpr (.inr (flushesLine_invalidateBoundaries.mpr ?_))
      rw [cacheLineSize] at hbound
      omega
    case written =>
      intro line hline
      rw [flushesLine_doRange (fun _ _ => Flush.writeback.inj) hdata hwb,
        rangeEnd_intArg hlt (by rw [addrRange]; omega)]
      exact (touches_iff (by omega)).mp hline

/-- A copy of two lines to the address of a line. -/
theorem raw_coherent_aligned :
    ∃ fuel c, memcpy fuel cxlNhcStart (cxlNhcStart + 4096) 128 = some c ∧
      Coherent (some (cxlNhcStart + 4096)) cxlNhcStart 128 c := by
  refine (raw_coherent_iff (some (cxlNhcStart + 4096)) cxlNhcStart 128 (by decide) (by decide) (by decide)
    ?_ ?_).mpr ⟨by decide, .inr (by decide)⟩
  · rintro s hs
    obtain rfl := Option.some.inj hs
    decide
  · rintro s hs hline
    obtain rfl := Option.some.inj hs
    exact absurd ((touches_iff (by omega)).mp hline).1 (by decide)

/-- The line in which the range ends is not invalidated, although half of it keeps its old bytes. -/
example : memset 4 (cxlNhcStart + 32) 64 = some ⟨[.invalidate (cxlNhcStart + 32)],
    [.writeback cxlNhcStart, .writeback (cxlNhcStart + 64)]⟩ := by
  decide +kernel

end InstrumentLib

end RACoherence
