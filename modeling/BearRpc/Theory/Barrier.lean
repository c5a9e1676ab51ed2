/-
# Threads that work in rounds and meet at a barrier

The clock of a thread is `2r` while it works in round `r`, and `2r + 1` when it waits at
the end of it.  It passes a barrier when all the others have come as far, and with that
no thread works in a round before every other one has finished the round before
(`Abreast`).
-/

import Mathlib.Data.Nat.Notation
import Mathlib.Logic.Function.Basic
import Mathlib.Order.WellFounded

namespace BearRpc
namespace Theory

open Function

variable {τ : Type*} {clock : τ → ℕ} {t : τ}

/-- No thread is more than a barrier ahead. -/
def Abreast (clock : τ → ℕ) : Prop :=
  ∀ t u, 2 * (clock t / 2) ≤ clock u + 1

theorem Abreast.start (r : ℕ) : Abreast fun _ : τ => 2 * r := by
  intro t u
  dsimp only
  omega

/-- The others of a thread at work. -/
theorem Abreast.near (h : Abreast clock) {r : ℕ} (ht : clock t = 2 * r) (u : τ) :
    2 * r ≤ clock u + 1 ∧ clock u ≤ 2 * r + 1 := by
  have h₁ := h t u
  have h₂ := h u t
  omega

/-- A thread that no other one is behind; it can pass its barrier. -/
theorem exists_last [Nonempty τ] (clock : τ → ℕ) : ∃ t, ∀ u, clock t ≤ clock u := by
  obtain ⟨t, -, hmin⟩ := (InvImage.wf clock Nat.lt_wfRel.wf).has_min Set.univ Set.univ_nonempty
  exact ⟨t, fun u => Nat.le_of_not_lt (hmin u trivial)⟩

variable [DecidableEq τ]

/-- A clock that has moved on by one. -/
theorem Abreast.tick (h : Abreast clock)
    (ht : ∀ u, u ≠ t → 2 * ((clock t + 1) / 2) ≤ clock u + 1) :
    Abreast (update clock t (clock t + 1)) := by
  intro u w
  have huw := h u w
  rcases eq_or_ne u t with rfl | hu
  · rw [update_self]
    rcases eq_or_ne w u with rfl | hw
    · rw [update_self]
      omega
    · rw [update_of_ne hw]
      exact ht w hw
  · rw [update_of_ne hu]
    rcases eq_or_ne w t with rfl | hw
    · rw [update_self]
      omega
    · rwa [update_of_ne hw]

/-- A thread comes to the end of its round. -/
theorem Abreast.arrive (h : Abreast clock) (ht : clock t % 2 = 0) :
    Abreast (update clock t (clock t + 1)) :=
  h.tick fun u _ => by
    have := h t u
    omega

/-- **A thread passes the barrier** that it stands at: all the others have come to it, so
that it is still no more than one barrier ahead of any of them. -/
theorem Abreast.pass (h : Abreast clock) (hall : ∀ u, clock t ≤ clock u) :
    Abreast (update clock t (clock t + 1)) :=
  h.tick fun u _ => by
    have := hall u
    omega

end Theory
end BearRpc
