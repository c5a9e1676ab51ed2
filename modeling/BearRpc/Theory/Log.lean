/-
# Logs with keys

A log records values under keys, in the order of time.  `valuesOf k l` is what
the log `l` holds under `k`.
-/

import Mathlib.Data.List.Basic

namespace BearRpc
namespace Theory

variable {κ α : Type*} [DecidableEq κ]

/-- The values recorded under `k`, oldest first. -/
def valuesOf (k : κ) (l : List (κ × α)) : List α := (l.filter fun e => e.1 = k).map Prod.snd

variable {k j : κ} {l : List (κ × α)}

/-- An empty log has nothing under any key. -/
@[simp] theorem valuesOf_nil : valuesOf k ([] : List (κ × α)) = [] := rfl

/-- The values under a key, in a log continued, are those of the first part followed by
those of the second. -/
@[simp] theorem valuesOf_append (l l' : List (κ × α)) :
    valuesOf k (l ++ l') = valuesOf k l ++ valuesOf k l' := by
  rw [valuesOf, List.filter_append, List.map_append]
  rfl

/-- A log that was written under one key only holds just these values. -/
@[simp] theorem valuesOf_map_self (as : List α) : valuesOf k (as.map fun a => (k, a)) = as := by
  simp [valuesOf, List.filter_map, Function.comp_def]

/-- It holds nothing under any other key. -/
theorem valuesOf_map_of_ne (h : j ≠ k) (as : List α) :
    valuesOf k (as.map fun a => (j, a)) = [] := by
  simp [valuesOf, List.filter_map, Function.comp_def, h]

/-- A key that was never used has no values. -/
theorem valuesOf_eq_nil (h : ∀ e ∈ l, e.1 ≠ k) : valuesOf k l = [] := by
  rw [valuesOf, List.map_eq_nil_iff, List.filter_eq_nil_iff]
  exact fun e he => by simpa using h e he

end Theory
end BearRpc
