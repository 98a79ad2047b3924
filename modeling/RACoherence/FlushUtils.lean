import RACoherence.CacheLine
import RACoherence.Lib.Bits

/-!
# Flushing the lines of a range

Reference: `include/flushUtils.hpp`, `do_range_writeback` and `do_range_invalidate`, with `NO_FLUSH=0`.

The loop starts at the line of `data` and goes on as long as it is below `data+len`, so it needs no rounding
at the end. But `len` is an `int`, and the callers pass a `size_t` or a difference of pointers: of a length
from 2 GiB on only the lower 32 bits arrive, as a signed number.

Pointers are 64-bit words, and their sums are modulo `2 ^ 64`. The loop that waits for the latency of a
write is left out.
-/

namespace RACoherence

namespace FlushUtils

/-- Pointers are below `addrRange`. -/
def addrRange : ℕ := 2 ^ 64

/-- A flush instruction, with its address. -/
inductive Flush
  | writeback (ptr : ℕ)
  | invalidate (ptr : ℕ)
  deriving DecidableEq, Repr

/-- The line that it is issued on. -/
def Flush.line : Flush → ℕ
  | .writeback ptr | .invalidate ptr => ptr / cacheLineSize

/-- The value of an `int` parameter for a wider argument. -/
def intArg (n : ℤ) : ℤ := n.bmod (2 ^ 32)

/-- `data+len` -/
def rangeEnd (data : ℕ) (len : ℤ) : ℕ := ((data + len) % addrRange).toNat

/-- `(char *)((unsigned long)data & ~CACHE_LINE_MASK)` -/
def rangeStart (data : ℕ) : ℕ := data &&& (addrRange - 1 - (cacheLineSize - 1))

/-- The loop, from `ptr` on; `none` when the fuel does not suffice for it to end. -/
def rangeLoop (inst : ℕ → Flush) (end_ : ℕ) : ℕ → ℕ → Option (List Flush)
  | 0, _ => none
  | fuel + 1, ptr =>
      if ptr < end_ then
        (rangeLoop inst end_ fuel ((ptr + cacheLineSize) % addrRange)).map (inst ptr :: ·)
      else some []

/-- Both functions, which differ in the instruction. -/
def doRange (inst : ℕ → Flush) (fuel data : ℕ) (len : ℤ) : Option (List Flush) :=
  rangeLoop inst (rangeEnd data len) fuel (rangeStart data)

/-- `do_range_writeback` -/
def doRangeWriteback : ℕ → ℕ → ℤ → Option (List Flush) := doRange .writeback

/-- `do_range_invalidate` -/
def doRangeInvalidate : ℕ → ℕ → ℤ → Option (List Flush) := doRange .invalidate

/-- The instruction is issued on the line. -/
def FlushesLine (inst : ℕ → Flush) (flushes : List Flush) (line : ℕ) : Prop :=
  ∃ ptr, inst ptr ∈ flushes ∧ ptr / cacheLineSize = line

/-- A call of the function `call` for the `n` bytes from `data` on ends, and issues its instruction, and
no other one, on exactly the lines of these bytes. -/
def FlushesRange (inst : ℕ → Flush) (call : ℕ → ℕ → ℤ → Option (List Flush)) (data n : ℕ) : Prop :=
  ∃ fuel flushes, call fuel data (intArg n) = some flushes ∧ (∀ f ∈ flushes, ∃ ptr, f = inst ptr) ∧
    ∀ line, FlushesLine inst flushes line ↔ Touches data (data + n) line

variable {inst : ℕ → Flush} {data n end_ : ℕ} {len : ℤ}

theorem rangeStart_eq (h : data < addrRange) : rangeStart data = 64 * (data / 64) := by
  have hround : rangeStart data = data / 2 ^ 6 * 2 ^ 6 :=
    Bits.and_not_two_pow_sub_one (show 6 ≤ 64 by decide) h
  exact hround.trans (Nat.mul_comm _ _)

/-! ## The loop -/

/-- The flushes of the lines from `line` up to `end_`. -/
def lineFlushes (inst : ℕ → Flush) (line end_ : ℕ) : List Flush :=
  (linesBelow line end_).map fun k => inst (64 * k)

/-- Where no address wraps, the loop takes an iteration for each line. -/
theorem rangeLoop_eq (hend : end_ ≤ addrRange - 64) (fuel line : ℕ) :
    rangeLoop inst end_ fuel (64 * line) =
      if (end_ + 63) / 64 - line < fuel then some (lineFlushes inst line end_) else none := by
  induction fuel generalizing line with
  | zero => rfl
  | succ fuel ih =>
      rw [rangeLoop]
      by_cases hlt : 64 * line < end_
      · have hnext : (64 * line + cacheLineSize) % addrRange = 64 * (line + 1) := by
          rw [Nat.mod_eq_of_lt (by rw [cacheLineSize]; omega)]
          rfl
        rw [if_pos hlt, hnext, ih]
        by_cases hfuel : (end_ + 63) / 64 - (line + 1) < fuel
        · rw [if_pos hfuel, if_pos (by omega), lineFlushes, lineFlushes, linesBelow_of_lt hlt]
          rfl
        · rw [if_neg hfuel, if_neg (by omega)]
          rfl
      · rw [if_neg hlt, lineFlushes, linesBelow_of_le (by omega), if_pos (by omega)]
        rfl

/-- In the last line of the address space the pointer wraps, and the loop does not end. -/
theorem rangeLoop_diverges (hend : addrRange - 64 < end_) (fuel : ℕ) {line : ℕ}
    (hline : 64 * line < addrRange) : rangeLoop inst end_ fuel (64 * line) = none := by
  induction fuel generalizing line with
  | zero => rfl
  | succ fuel ih =>
      have hnext : (64 * line + cacheLineSize) % addrRange = 64 * ((line + 1) % 2 ^ 58) := by
        rw [cacheLineSize, addrRange]
        omega
      have hline' : 64 * ((line + 1) % 2 ^ 58) < addrRange := by
        rw [addrRange]
        omega
      rw [rangeLoop, if_pos (by rw [addrRange] at *; omega), hnext, ih hline']
      rfl

theorem flushesLine_lineFlushes (hinst : inst.Injective) {first line : ℕ} :
    FlushesLine inst (lineFlushes inst first end_) line ↔ first ≤ line ∧ 64 * line < end_ := by
  rw [FlushesLine, cacheLineSize]
  simp only [lineFlushes, List.mem_map, mem_linesBelow]
  constructor
  · rintro ⟨ptr, ⟨k, hk, heq⟩, rfl⟩
    obtain rfl := hinst heq
    omega
  · intro h
    exact ⟨64 * line, ⟨line, by omega, rfl⟩, by omega⟩

/-- A call that returns has flushed the lines from that of `data` up to `data+len`. -/
theorem doRange_eq_some (hdata : data < addrRange) {fuel : ℕ} {flushes : List Flush} :
    doRange inst fuel data len = some flushes ↔ rangeEnd data len ≤ addrRange - 64 ∧
      (rangeEnd data len + 63) / 64 - data / 64 < fuel ∧
      flushes = lineFlushes inst (data / 64) (rangeEnd data len) := by
  rw [doRange, rangeStart_eq hdata]
  by_cases hend : rangeEnd data len ≤ addrRange - 64
  · rw [rangeLoop_eq hend]
    split
    · rename_i hfuel
      rw [Option.some.injEq, eq_comm]
      exact ⟨fun h => ⟨hend, hfuel, h⟩, fun h => h.2.2⟩
    · rename_i hfuel
      exact ⟨fun h => (Option.some_ne_none _ h.symm).elim, fun h => absurd h.2.1 hfuel⟩
  · rw [rangeLoop_diverges (by omega) fuel (by omega)]
    exact ⟨fun h => (Option.some_ne_none _ h.symm).elim, fun h => absurd h.1 hend⟩

theorem flushesLine_doRange (hinst : inst.Injective) (hdata : data < addrRange) {fuel line : ℕ}
    {flushes : List Flush} (h : doRange inst fuel data len = some flushes) :
    FlushesLine inst flushes line ↔ data / 64 ≤ line ∧ 64 * line < rangeEnd data len := by
  obtain ⟨-, -, rfl⟩ := (doRange_eq_some hdata).mp h
  exact flushesLine_lineFlushes hinst

/-! ## When the whole range is flushed -/

theorem intArg_le (n : ℕ) : -2 ^ 31 ≤ intArg n ∧ intArg n ≤ n := by
  rw [intArg, Int.bmod_def]
  split <;> omega

/-- Above the first 2 GiB of the address space, nothing wraps. -/
theorem rangeEnd_eq (hdata : 2 ^ 31 ≤ data) (hend : data + n ≤ 2 ^ 48) :
    (rangeEnd data (intArg n) : ℤ) = data + intArg n := by
  have hle := intArg_le n
  rw [rangeEnd, addrRange]
  omega

theorem rangeEnd_le (hdata : 2 ^ 31 ≤ data) (hend : data + n ≤ 2 ^ 48) :
    rangeEnd data (intArg n) ≤ addrRange - 64 := by
  have heq := rangeEnd_eq hdata hend
  have hle := intArg_le n
  rw [addrRange]
  omega

/-- There the loop ends, for any length. -/
theorem doRange_returns (inst : ℕ → Flush) (hdata : 2 ^ 31 ≤ data) (hend : data + n ≤ 2 ^ 48) {fuel : ℕ}
    (hfuel : n / cacheLineSize + 3 ≤ fuel) : ∃ flushes, doRange inst fuel data (intArg n) = some flushes := by
  have hword : data < addrRange := by
    rw [addrRange]
    omega
  have heq := rangeEnd_eq hdata hend
  have hle := (intArg_le n).2
  rw [cacheLineSize] at hfuel
  exact ⟨_, (doRange_eq_some hword).mpr ⟨rangeEnd_le hdata hend, by omega, rfl⟩⟩

theorem rangeEnd_intArg (hn : n < 2 ^ 31) (hend : data + n < addrRange) :
    rangeEnd data (intArg n) = data + n := by
  have hlen : intArg n = n := by
    rw [intArg, Int.bmod_def]
    split <;> omega
  rw [rangeEnd, hlen, addrRange] at *
  omega

/-- A longer range ends at least 4 GiB too early, or wraps. -/
theorem rangeEnd_ne (hn : 2 ^ 31 ≤ n) (hend : data + n ≤ 2 ^ 48) :
    rangeEnd data (intArg n) + 2 ^ 32 ≤ data + n ∨ data + n + 2 ^ 32 ≤ rangeEnd data (intArg n) := by
  have hmod : ∃ k : ℕ, 1 ≤ k ∧ k ≤ 2 ^ 16 ∧ intArg n = n - 2 ^ 32 * k := by
    refine ⟨(n + 2 ^ 31) / 2 ^ 32, by omega, by omega, ?_⟩
    rw [intArg, Int.bmod_def]
    split <;> omega
  obtain ⟨k, hk, hle, hlen⟩ := hmod
  rw [rangeEnd, hlen, addrRange]
  omega

theorem flushesRange_iff (hinst : inst.Injective) (hn : 1 ≤ n) (hend : data + n ≤ 2 ^ 48) :
    FlushesRange inst (doRange inst) data n ↔ n < 2 ^ 31 := by
  have hpos : data < data + n := by omega
  have hdata : data < addrRange := by
    rw [addrRange]
    omega
  constructor
  · rintro ⟨fuel, flushes, hcall, -, hlines⟩
    simp only [flushesLine_doRange hinst hdata hcall, touches_iff hpos] at hlines
    by_contra hlong
    rcases rangeEnd_ne (by omega) hend with hshort | hwrap
    · -- the last line of the range is not reached
      have hlast := (hlines ((data + n - 1) / 64)).mpr ⟨by omega, by omega⟩
      omega
    · -- the line after the range is reached
      have hnext := (hlines ((data + n + 63) / 64)).mp ⟨by omega, by omega⟩
      omega
  · intro hlt
    have hlen := rangeEnd_intArg hlt (show data + n < addrRange by rw [addrRange]; omega)
    refine ⟨_, _, (doRange_eq_some hdata).mpr ⟨?_, Nat.lt_succ_self _, rfl⟩, ?_, fun line => ?_⟩
    · rw [hlen, addrRange]
      omega
    · intro f hf
      obtain ⟨k, -, rfl⟩ := List.mem_map.mp hf
      exact ⟨64 * k, rfl⟩
    · rw [flushesLine_lineFlushes hinst, touches_iff hpos, hlen]

/-- Both functions flush exactly the lines of a range if and only if its length fits the `int`. -/
theorem range_flush_covers_iff (data n : ℕ) (hn : 1 ≤ n) (hend : data + n ≤ 2 ^ 48) :
    (FlushesRange .writeback doRangeWriteback data n ↔ n < 2 ^ 31) ∧
      (FlushesRange .invalidate doRangeInvalidate data n ↔ n < 2 ^ 31) := by
  constructor
  · exact flushesRange_iff (fun _ _ => Flush.writeback.inj) hn hend
  · exact flushesRange_iff (fun _ _ => Flush.invalidate.inj) hn hend

/-- Two bytes of two lines, and the longest range that is flushed. -/
theorem range_flush_covers_two_lines :
    FlushesRange .writeback doRangeWriteback (cxlNhcStart + 63) 2 ∧
      FlushesRange .invalidate doRangeInvalidate cxlNhcStart (2 ^ 31 - 1) :=
  ⟨(range_flush_covers_iff _ _ (by decide) (by decide)).1.mpr (by decide),
    (range_flush_covers_iff _ _ (by decide) (by decide)).2.mpr (by decide)⟩

/-- Of 2 GiB nothing is flushed: the length arrives as a negative number. -/
theorem range_flush_misses_two_gib :
    ¬ FlushesRange .writeback doRangeWriteback cxlNhcStart (2 ^ 31) ∧
      ¬ FlushesRange .invalidate doRangeInvalidate cxlNhcStart (2 ^ 31) := by
  have hmiss : ∀ inst : ℕ → Flush, ¬ FlushesRange inst (doRange inst) cxlNhcStart (2 ^ 31) := by
    rintro inst ⟨fuel, flushes, hcall, -, hlines⟩
    -- the loop ends before its first iteration
    have hnil : flushes = [] := by
      cases fuel with
      | zero => cases hcall
      | succ fuel =>
          rw [doRange, rangeLoop, if_neg (by decide)] at hcall
          exact (Option.some.inj hcall).symm
    obtain ⟨ptr, hptr, -⟩ := (hlines (cxlNhcStart / cacheLineSize)).mpr
      ⟨cxlNhcStart, le_rfl, by decide, rfl⟩
    rw [hnil] at hptr
    cases hptr
  exact ⟨hmiss _, hmiss _⟩

end FlushUtils

end RACoherence
