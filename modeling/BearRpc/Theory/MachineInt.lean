/-
# Counters that are machine integers

A conversion to `int` keeps the lowest 32 bits, so sums of conversions are conversions of
sums (`toInt_add`).  `++` on an `int` has no result above the largest one: a loop that counts
with a test in every turn ends well if and only if its last counter fits
(`Checked.foldlM_eq`), because the ones before are no larger.
-/

import Mathlib.Algebra.Ring.Int.Defs
import Mathlib.Algebra.Ring.Nat
import Mathlib.Data.Int.Notation
import Mathlib.Data.List.Basic

namespace BearRpc
namespace Theory

/-! ### Conversions -/

/-- A number as an `int` of 32 bits, two's complement. -/
def toInt (n : ℤ) : ℤ := n.bmod (2 ^ 32)

theorem toInt_def (n : ℤ) :
    toInt n = if n % 2 ^ 32 < 2 ^ 31 then n % 2 ^ 32 else n % 2 ^ 32 - 2 ^ 32 := Int.bmod_def ..

/-- Every `int` is its own conversion. -/
theorem toInt_eq_self {n : ℤ} (h : -2 ^ 31 ≤ n) (h' : n < 2 ^ 31) : toInt n = n := by
  rw [toInt_def]
  omega

/-- **Only the last conversion counts** in a sum: one on the way changes the sum by full
turns, which the last one takes away. -/
theorem toInt_add (m n : ℤ) : toInt (toInt m + n) = toInt (m + n) := Int.bmod_add_bmod

/-- **A number is what its conversion says** if it is an `int`, up to full turns, which the
conversion does not tell apart. -/
theorem toInt_eq_iff {m n : ℤ} :
    toInt m = n ↔ -2 ^ 31 ≤ n ∧ n < 2 ^ 31 ∧ (2 ^ 32 : ℤ) ∣ m - n := by
  rw [toInt_def]
  omega

/-! ### Counting with a test -/

variable {σ α ε : Type} {fits : σ → Prop} [DecidablePred fits] {e : ε} {step : σ → α → σ}
  {checked : σ → α → Except ε σ}

/-- **A step with a test**: it fails if its result does not fit, and what does not fit never
fits again. -/
structure Checked (fits : σ → Prop) [DecidablePred fits] (e : ε) (step : σ → α → σ)
    (checked : σ → α → Except ε σ) : Prop where
  eq_ite : ∀ s x, fits s → checked s x = if fits (step s x) then .ok (step s x) else .error e
  fits_of_step : ∀ s x, fits (step s x) → fits s

namespace Checked

theorem fits_of_foldl (h : Checked fits e step checked) {l : List α} {s : σ}
    (hl : fits (l.foldl step s)) : fits s := by
  induction l generalizing s with
  | nil => exact hl
  | cons x l ih => exact h.fits_of_step s x (ih hl)

/-- **The loop fails if and only if its result does not fit**: the values only grow, so that
one that does not fit on the way is followed by none that does. -/
theorem foldlM_eq (h : Checked fits e step checked) {l : List α} {s : σ} (hs : fits s) :
    l.foldlM checked s =
      if fits (l.foldl step s) then .ok (l.foldl step s) else .error e := by
  induction l generalizing s with
  | nil => exact (if_pos hs).symm
  | cons x l ih =>
    rw [List.foldlM_cons, h.eq_ite s x hs, List.foldl_cons]
    by_cases hx : fits (step s x)
    · rw [if_pos hx]
      exact ih hx
    · rw [if_neg hx, if_neg fun hl => hx (h.fits_of_foldl hl)]
      rfl

end Checked
end Theory
end BearRpc
