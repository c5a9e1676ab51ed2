/-
# Condition variables

A condition variable is the finite set of the threads that wait on it.  A thread
that is notified, or wakes up for no reason, leaves the set; it goes on when it
gets the lock again, and tests its predicate.
-/

import Mathlib.Data.Finset.Basic

namespace BearRpc
namespace Theory
namespace Condition

variable {ι : Type*} [DecidableEq ι] {c c' : Finset ι}

/-- `notify_one`: one of the waiting threads is woken, if there is one. -/
def NotifyOne (c c' : Finset ι) : Prop := c = ∅ ∧ c' = ∅ ∨ ∃ i ∈ c, c' = c.erase i

theorem exists_notifyOne (c : Finset ι) : ∃ c', NotifyOne c c' := by
  rcases c.eq_empty_or_nonempty with hc | ⟨i, hi⟩
  · exact ⟨∅, .inl ⟨hc, rfl⟩⟩
  · exact ⟨c.erase i, .inr ⟨i, hi, rfl⟩⟩

/-- Nobody begins to wait. -/
theorem NotifyOne.subset (h : NotifyOne c c') : c' ⊆ c := by
  rcases h with ⟨-, rfl⟩ | ⟨i, -, rfl⟩
  · exact Finset.empty_subset c
  · exact Finset.erase_subset i c

/-- If somebody waits, somebody is woken. -/
theorem NotifyOne.exists_woken (h : NotifyOne c c') (hc : c.Nonempty) : ∃ i ∈ c, i ∉ c' := by
  rcases h with ⟨rfl, -⟩ | ⟨i, hi, rfl⟩
  · exact absurd hc Finset.not_nonempty_empty
  · exact ⟨i, hi, Finset.notMem_erase i c⟩

/-- Somebody does not wait any more. -/
theorem NotifyOne.exists_notMem [Nonempty ι] (h : NotifyOne c c') : ∃ i, i ∉ c' := by
  rcases h with ⟨-, rfl⟩ | ⟨i, -, rfl⟩
  · exact ⟨Classical.arbitrary ι, Finset.notMem_empty _⟩
  · exact ⟨i, Finset.notMem_erase i c⟩

end Condition
end Theory
end BearRpc
