import Mathlib.Algebra.Group.Nat.Defs
import Mathlib.Logic.Function.Basic

/-!
# Logs

Reference: `include/logManager.hpp`, `Log`.

The array of entries is a function here, and `size` says how many of its values count; what lies beyond
is left over from earlier uses of the log. Line addresses are words.
-/

namespace RACoherence

open Function

/-- `Log` -/
structure Log where
  entries : ℕ → ℕ
  size : ℕ

namespace Log

/-- A log that nothing has been written to. -/
def empty : Log := ⟨fun _ => 0, 0⟩

/-- `is_full`, where `logSize` is `LOG_SIZE`. -/
def isFull (logSize : ℕ) (log : Log) : Bool := log.size == logSize

/-- `write` -/
def write (log : Log) (e : ℕ) : Log := ⟨update log.entries log.size e, log.size + 1⟩

/-- `size = 0` of `get_new_log`. -/
def reset (log : Log) : Log := { log with size := 0 }

/-- The entries from `begin()` to `end()`. -/
def toList (log : Log) : List ℕ := (List.range log.size).map log.entries

variable {log : Log}

@[simp] theorem toList_empty : empty.toList = [] := rfl

@[simp] theorem size_write (e : ℕ) : (log.write e).size = log.size + 1 := rfl

@[simp] theorem toList_write (e : ℕ) : (log.write e).toList = log.toList ++ [e] := by
  have hold : (List.range log.size).map (update log.entries log.size e) = log.toList := by
    refine List.map_congr_left fun k hk => ?_
    rw [update_of_ne (Nat.ne_of_lt (List.mem_range.mp hk))]
  have hnew : [log.size].map (update log.entries log.size e) = [e] := by
    rw [List.map_singleton, update_self]
  exact (congrArg _ List.range_succ).trans (List.map_append.trans (congrArg₂ _ hold hnew))

end Log

end RACoherence
