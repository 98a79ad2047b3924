import Mathlib.Algebra.Group.Nat.Defs

/-!
# Build configuration

The constants of `include/config.hpp`. Those that every build of the runtime shares are plain
numbers; `CL_EXPAND_SHIFT`, which later definitions depend on, is an explicit argument `sh`, and the
sizes that only the log ring depends on are fields of `LogConfig`.
-/

namespace RACoherence

/-- `CACHE_LINE_SIZE` -/
def cacheLineSize : ℕ := 64

/-- `CACHE_LINE_SHIFT` -/
def cacheLineShift : ℕ := 6

/-- `VIRTUAL_ADDRESS_BITS` -/
def virtualAddressBits : ℕ := 48

/-- `CL_EXPAND_FACTOR`: hardware lines in one virtual line. -/
def clExpandFactor (sh : ℕ) : ℕ := 1 <<< sh

/-- `VIRTUAL_CL_SHIFT` -/
def virtualClShift (sh : ℕ) : ℕ := cacheLineShift + sh

/-- `CXL_NHC_START`: the first address that is not hardware coherent. -/
def cxlNhcStart : ℕ := 0b11 <<< (virtualAddressBits - 2)

/-- `LOCAL_CL_TABLE_SIZE` -/
def localClTableSize : ℕ := 64

/-- `LOCAL_CL_TABLE_SEARCH_ITERS` -/
def localClTableSearchIters : ℕ := 5

/-- `LOG_MAX_BATCH` of the cache agent. -/
def logMaxBatch : ℕ := 100

/-- `WBINVD_THRESHOLD`, in cache line groups. -/
def wbinvdThreshold : ℕ := 2 <<< 18

/-- `idx_t` and `vc_clock_t` are 32-bit unsigned: their arithmetic is modulo `idxRange`. -/
def idxRange : ℕ := 2 ^ 32

/-- The sizes of the log ring: `NODE_COUNT`, and `LOG_COUNT` as the power of two it must be. The
queue behind the freelist asserts at least two cells, and a log index must fit `idx_t`. -/
structure LogConfig where
  nodeCount : ℕ
  logCountShift : ℕ
  shift_pos : 1 ≤ logCountShift
  shift_lt : logCountShift < 32

/-- `LOG_COUNT` -/
def LogConfig.logCount (cfg : LogConfig) : ℕ := 2 ^ cfg.logCountShift

/-- The shipped configuration: eight nodes and `4096 / 64` logs. -/
def LogConfig.default : LogConfig := ⟨8, 6, by decide, by decide⟩

theorem LogConfig.logCount_pos (cfg : LogConfig) : 0 < cfg.logCount := Nat.two_pow_pos _

theorem LogConfig.logCount_lt (cfg : LogConfig) : cfg.logCount < idxRange :=
  Nat.pow_lt_pow_right (by omega) cfg.shift_lt

end RACoherence
