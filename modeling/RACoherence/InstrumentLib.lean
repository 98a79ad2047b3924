import RACoherence.CLTracker.Flush

/-!
# The instrumented `strcpy`

Reference: `src/instrumentLib.cpp`, `strcpy`, the scan for the terminator.

Where the source has to be invalidated first, or the real `strcpy` is not known, the length is found by
hand: the outer loop invalidates the line of `src[n]`, and the inner loop reads bytes while `src[n]` is not
at the start of a line. At the start of a line the inner loop reads nothing and the outer one goes round
with the same `n`, so the scan gets no further than the line that `src` is in, and not even into that when
`src` is aligned.
-/

namespace RACoherence

open CacheLineTracker

namespace InstrumentLib

/-- `PROTOCOL_OFF` and `EAGER_INVALIDATE` -/
structure Build where
  protocolOff : Bool
  eagerInvalidate : Bool
  deriving DecidableEq, Repr

/-- `in_cxl_nhc_mem` -/
def inCxlNhcMem (addr : ℕ) : Bool := decide (addr ≥ cxlNhcStart)

/-- What the scan does that can be seen from outside. -/
inductive Event
  | invalidate (addr : ℕ)
  | read (addr : ℕ)
  deriving DecidableEq, Repr

/-- Where the scan is: at the top of `while (true)`, at the condition of the inner loop, or behind both
loops. -/
inductive Pc
  | outer
  | inner
  | done
  deriving DecidableEq, Repr

/-- `n`, the tracker, and the events so far. -/
structure Scan where
  pc : Pc
  n : ℕ
  tracker : CacheLineTracker
  trace : List Event

/-- The start of the scan. -/
def Scan.start (tracker : CacheLineTracker) : Scan := ⟨.outer, 0, tracker, []⟩

/-- What is invalidated for `src[n]` at the top of the outer loop, and the tracker. -/
def invalidateSrc (build : Build) (src : ℕ) (s : Scan) : Outcome :=
  if inCxlNhcMem src then
    if build.protocolOff then ⟨true, [src + s.n], s.tracker⟩
    else if !build.eagerInvalidate then invalidateIfDirty 0 (src + s.n) s.tracker
    else .start s.tracker
  else .start s.tracker

/-- One step of the two loops over the bytes `mem`. -/
def scanStep (build : Build) (mem : ℕ → ℕ) (src : ℕ) (s : Scan) : Scan :=
  match s.pc with
  | .outer =>
      let o := invalidateSrc build src s
      { s with pc := .inner, tracker := o.tracker, trace := s.trace ++ o.invalidated.map .invalidate }
  | .inner =>
      if (src + s.n) &&& (cacheLineSize - 1) ≠ 0 then
        { s with
          pc := if mem (src + s.n) = 0 then .done else .inner
          n := s.n + 1
          trace := s.trace ++ [.read (src + s.n)] }
      else { s with pc := .outer }
  | .done => s

/-- The scan after `k` steps. -/
def scanAfter (build : Build) (mem : ℕ → ℕ) (src : ℕ) (tracker : CacheLineTracker) : ℕ → Scan
  | 0 => .start tracker
  | k + 1 => scanStep build mem src (scanAfter build mem src tracker k)

/-- A string of length `len` at `src`. -/
structure IsString (mem : ℕ → ℕ) (src len : ℕ) : Prop where
  nul : mem (src + len) = 0
  chars : ∀ i < len, mem (src + i) ≠ 0

/-- The cache line has been invalidated before any byte of it is read. -/
def InvalidatedFirst (trace : List Event) (line : ℕ) : Prop :=
  ∃ pre addr post, trace = pre ++ .invalidate addr :: post ∧ addr / cacheLineSize = line ∧
    ∀ a, .read a ∈ pre → a / cacheLineSize ≠ line

/-- The scan ends with `n = len + 1`, and with the protocol off it has invalidated each line of the source
in time. -/
def ScanCorrect (build : Build) (mem : ℕ → ℕ) (src len : ℕ) (tracker : CacheLineTracker) : Prop :=
  ∃ k, (scanAfter build mem src tracker k).pc = .done ∧
    (scanAfter build mem src tracker k).n = len + 1 ∧
    (build.protocolOff = true → inCxlNhcMem src = true → ∀ i < (scanAfter build mem src tracker k).n,
      InvalidatedFirst (scanAfter build mem src tracker k).trace ((src + i) / cacheLineSize))

variable {build : Build} {mem : ℕ → ℕ} {src len : ℕ} {tracker : CacheLineTracker}

theorem and_lineMask (x : ℕ) : x &&& (cacheLineSize - 1) = x % 64 :=
  Nat.and_two_pow_sub_one_eq_mod x 6

/-- A read that does not find the terminator. -/
theorem scanStep_char {s : Scan} (hpc : s.pc = .inner) (hline : (src + s.n) % 64 ≠ 0)
    (hmem : mem (src + s.n) ≠ 0) :
    scanStep build mem src s =
      { s with pc := .inner, n := s.n + 1, trace := s.trace ++ [.read (src + s.n)] } := by
  unfold scanStep
  rw [hpc]
  dsimp only
  rw [and_lineMask, if_pos hline, if_neg hmem]

/-- The read that finds it. -/
theorem scanStep_nul {s : Scan} (hpc : s.pc = .inner) (hline : (src + s.n) % 64 ≠ 0)
    (hmem : mem (src + s.n) = 0) :
    scanStep build mem src s =
      { s with pc := .done, n := s.n + 1, trace := s.trace ++ [.read (src + s.n)] } := by
  unfold scanStep
  rw [hpc]
  dsimp only
  rw [and_lineMask, if_pos hline, if_pos hmem]

/-- The inner loop stops at the start of a line. -/
theorem scanStep_boundary {s : Scan} (hpc : s.pc = .inner) (hline : (src + s.n) % 64 = 0) :
    scanStep build mem src s = { s with pc := .outer } := by
  unfold scanStep
  rw [hpc]
  dsimp only
  rw [and_lineMask, if_neg (not_not.mpr hline)]

/-! ## Inside the line of `src` -/

/-- The scan after `k + 1` steps, while it has not come to the terminator or to the end of the line. -/
theorem scanAfter_line (hstr : IsString mem src len) (hsrc : src % 64 + len < 64) (hne : src % 64 ≠ 0)
    {k : ℕ} (hk : k ≤ len) :
    (scanAfter build mem src tracker (k + 1)).pc = .inner ∧
      (scanAfter build mem src tracker (k + 1)).n = k ∧
      ∃ reads, (scanAfter build mem src tracker (k + 1)).trace =
        (invalidateSrc build src (.start tracker)).invalidated.map .invalidate ++ reads := by
  induction k with
  | zero => exact ⟨rfl, rfl, [], by rw [List.append_nil]; rfl⟩
  | succ k ih =>
      obtain ⟨hpc, hn, reads, htrace⟩ := ih (by omega)
      have hchar := @scanStep_char build mem src (scanAfter build mem src tracker (k + 1)) hpc
        (by rw [hn]; omega) (by rw [hn]; exact hstr.chars k (by omega))
      rw [scanAfter, hchar]
      refine ⟨rfl, by rw [hn], reads ++ [.read (src + k)], ?_⟩
      rw [htrace, hn, List.append_assoc]

theorem scanCorrect_of_line (hstr : IsString mem src len) (hne : src % 64 ≠ 0)
    (hsrc : src % 64 + len < 64) : ScanCorrect build mem src len tracker := by
  obtain ⟨hpc, hn, reads, htrace⟩ :=
    @scanAfter_line build mem src len tracker hstr hsrc hne len le_rfl
  have hnul := @scanStep_nul build mem src (scanAfter build mem src tracker (len + 1)) hpc
    (by rw [hn]; omega) (by rw [hn]; exact hstr.nul)
  refine ⟨len + 2, ?_⟩
  rw [scanAfter, hnul]
  refine ⟨rfl, by rw [hn], fun hoff hnhc i hi => ?_⟩
  have hfirst : invalidateSrc build src (.start tracker) = ⟨true, [src], tracker⟩ := by
    rw [invalidateSrc, if_pos hnhc, if_pos hoff]
    rfl
  -- the line of `src` is the only one, and it is invalidated before anything is read
  refine ⟨[], src, reads ++ [.read (src + len)], ?_, ?_, by simp⟩
  · rw [htrace, hfirst, hn]
    simp
  · have hi' : i < len + 1 := by
      rw [hn] at hi
      exact hi
    rw [cacheLineSize]
    omega

/-! ## Beyond it -/

/-- Bytes from `src` to the next start of a line. -/
def toBoundary (src : ℕ) : ℕ := (64 - src % 64) % 64

/-- When the terminator is not in front of the next start of a line, the scan never gets past that. -/
theorem scanAfter_stuck (hstr : IsString mem src len) (hlen : toBoundary src ≤ len) (k : ℕ) :
    (scanAfter build mem src tracker k).pc ≠ .done ∧
      (scanAfter build mem src tracker k).n ≤ toBoundary src := by
  induction k with
  | zero => exact ⟨by simp [scanAfter, Scan.start], Nat.zero_le _⟩
  | succ k ih =>
      obtain ⟨hpc, hn⟩ := ih
      rw [scanAfter]
      generalize scanAfter build mem src tracker k = s at hpc hn
      cases hs : s.pc with
      | outer => simpa [scanStep, hs] using hn
      | inner =>
          by_cases hline : (src + s.n) % 64 = 0
          · rw [scanStep_boundary hs hline]
            exact ⟨by simp, hn⟩
          · have hlt : s.n < toBoundary src := by
              rw [toBoundary] at hn ⊢
              omega
            rw [scanStep_char hs hline (hstr.chars s.n (by omega))]
            exact ⟨by simp, hlt⟩
      | done => exact absurd hs hpc

/-- In every build, the scan by hand is correct if and only if the source is not aligned to a line and the
string with its terminator ends in the line it begins in. -/
theorem strcpy_scan_iff (build : Build) (mem : ℕ → ℕ) (src len : ℕ) (tracker : CacheLineTracker)
    (hstr : IsString mem src len) :
    ScanCorrect build mem src len tracker ↔
      src % cacheLineSize ≠ 0 ∧ src % cacheLineSize + len < cacheLineSize := by
  rw [cacheLineSize]
  constructor
  · rintro ⟨k, hpc, -⟩
    by_contra hno
    have hlen : toBoundary src ≤ len := by
      rw [toBoundary]
      omega
    exact (scanAfter_stuck hstr hlen k).1 hpc
  · rintro ⟨hne, hsrc⟩
    exact scanCorrect_of_line hstr hne hsrc

/-- The text `ab` eight bytes into a line. -/
def shortText (addr : ℕ) : ℕ := if addr = cxlNhcStart + 8 ∨ addr = cxlNhcStart + 9 then 97 else 0

theorem strcpy_scan_short :
    ScanCorrect ⟨true, false⟩ shortText (cxlNhcStart + 8) 2 empty :=
  (strcpy_scan_iff ⟨true, false⟩ shortText (cxlNhcStart + 8) 2 empty
    ⟨by decide, by decide⟩).mpr ⟨by decide, by decide⟩

/-- The empty string at the start of a line is never found to end. -/
theorem strcpy_scan_aligned :
    IsString (fun _ => 0) cxlNhcStart 0 ∧ ¬ ScanCorrect ⟨true, false⟩ (fun _ => 0) cxlNhcStart 0 empty := by
  have hstr : IsString (fun _ => 0) cxlNhcStart 0 := ⟨rfl, fun i hi => absurd hi (Nat.not_lt_zero i)⟩
  refine ⟨hstr, ?_⟩
  rintro ⟨k, hpc, -⟩
  exact (scanAfter_stuck hstr (by decide) k).1 hpc

end InstrumentLib

end RACoherence
