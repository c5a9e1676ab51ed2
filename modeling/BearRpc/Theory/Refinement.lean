/-
# Refinement of a data type

A data type has operations: `step x a` is the outcome of the operation `a` in
the state `x`, an error, or a value returned and a new state.  Its purpose is
given by a second data type without errors, `spec`, and the abstraction function
`abs` from the states of the first to those of the second.

If every operation that is called under its precondition refines the abstract
one (`Refines`), so does every sequence of operations, each called under its own
precondition (`Refines.sequence`).
-/

import Mathlib.Tactic.TypeStar

namespace BearRpc
namespace Theory

variable {σ τ α β ε : Type*}

/-- The outcome of a sequence of operations, with the values they return. -/
def sequence (step : σ → α → Except ε (β × σ)) : σ → List α → Except ε (List β × σ)
  | x, [] => .ok ([], x)
  | x, a :: as =>
    match step x a with
    | .error e => .error e
    | .ok (b, y) =>
      match sequence step y as with
      | .error e => .error e
      | .ok (bs, z) => .ok (b :: bs, z)

/-- A sequence of abstract operations. -/
def specSequence (spec : τ → α → β × τ) : τ → List α → List β × τ
  | t, [] => ([], t)
  | t, a :: as =>
    let next := specSequence spec (spec t a).2 as
    ((spec t a).1 :: next.1, next.2)

/-- Each operation of the sequence is called under its precondition. -/
def Legal (step : σ → α → Except ε (β × σ)) (pre : σ → α → Prop) : σ → List α → Prop
  | _, [] => True
  | x, a :: as => pre x a ∧ ∀ b y, step x a = .ok (b, y) → Legal step pre y as

/-- In a state with the invariant `inv`, an operation under its precondition does
what the abstract one does, or it fails with an `allowed` error. -/
def Refines (step : σ → α → Except ε (β × σ)) (spec : τ → α → β × τ) (abs : σ → τ)
    (inv : σ → Prop) (pre : σ → α → Prop) (allowed : ε → Prop) : Prop :=
  ∀ x a, inv x → pre x a → (∃ e, allowed e ∧ step x a = .error e) ∨
    ∃ y, step x a = .ok ((spec (abs x) a).1, y) ∧ inv y ∧ abs y = (spec (abs x) a).2

variable {step : σ → α → Except ε (β × σ)} {spec : τ → α → β × τ} {abs : σ → τ} {inv : σ → Prop}
  {pre : σ → α → Prop} {allowed : ε → Prop}

/-- **A refinement refines every sequence of operations** that is legal: it ends with an
error that is allowed, or it returns what the specification returns, and the states
correspond. -/
theorem Refines.sequence (h : Refines step spec abs inv pre allowed) {x : σ} {as : List α}
    (hx : inv x) (legal : Legal step pre x as) :
    (∃ e, allowed e ∧ sequence step x as = .error e) ∨
      ∃ y, Theory.sequence step x as = .ok ((specSequence spec (abs x) as).1, y) ∧ inv y ∧
        abs y = (specSequence spec (abs x) as).2 := by
  induction as generalizing x with
  | nil => exact .inr ⟨x, rfl, hx, rfl⟩
  | cons a as ih =>
    obtain ⟨hpre, hlegal⟩ := legal
    rcases h x a hx hpre with ⟨e, he, hstep⟩ | ⟨y, hstep, hy, habs⟩
    · exact .inl ⟨e, he, by simp only [Theory.sequence, hstep]⟩
    rcases ih hy (hlegal _ _ hstep) with ⟨e, he, hseq⟩ | ⟨z, hseq, hz, hzabs⟩
    · exact .inl ⟨e, he, by simp only [Theory.sequence, hstep, hseq]⟩
    · rw [habs] at hseq hzabs
      exact .inr ⟨z, by simp only [Theory.sequence, hstep, hseq, specSequence], hz, hzabs⟩

end Theory
end BearRpc
