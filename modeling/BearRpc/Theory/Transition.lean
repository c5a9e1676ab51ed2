/-
# Runs of labelled transition systems

A system is a relation `step x l y`: from state `x` it can do `l` and be in
state `y`.  `Run step x₀ ls x` is a run from `x₀` to `x` with the labels `ls`, in
the order of time.  What every step preserves, of the labels so far and the
state, holds of every run (`Run.invariant`).
-/

import Mathlib.Data.List.Basic

namespace BearRpc
namespace Theory

variable {σ ℓ : Type*}

/-- The runs from `x₀`. -/
inductive Run (step : σ → ℓ → σ → Prop) (x₀ : σ) : List ℓ → σ → Prop
  | nil : Run step x₀ [] x₀
  | snoc {ls x l y} : Run step x₀ ls x → step x l y → Run step x₀ (ls ++ [l]) y

variable {step : σ → ℓ → σ → Prop} {x₀ x y : σ} {l : ℓ} {ls ls' : List ℓ}

/-- **The invariant rule**: what holds of the first state with nothing done, and is
preserved by every step together with the history, holds of every run. -/
theorem Run.invariant {Inv : List ℓ → σ → Prop} (h : Run step x₀ ls x) (init : Inv [] x₀)
    (preserved : ∀ ls x l y, Inv ls x → step x l y → Inv (ls ++ [l]) y) : Inv ls x := by
  induction h with
  | nil => exact init
  | snoc _ hstep ih => exact preserved _ _ _ _ ih hstep

/-- The invariant rule for a property of states. -/
theorem Run.preserves {P : σ → Prop} (h : Run step x₀ ls x) (init : P x₀)
    (preserved : ∀ x l y, P x → step x l y → P y) : P x := by
  have hinv : (fun _ => P) ls x := h.invariant init fun _ => preserved
  exact hinv

/-- A run of a system is one of a system with more steps. -/
theorem Run.mono {step' : σ → ℓ → σ → Prop} (h : Run step x₀ ls x)
    (hle : ∀ x l y, step x l y → step' x l y) : Run step' x₀ ls x := by
  induction h with
  | nil => exact .nil
  | snoc _ hstep ih => exact .snoc ih (hle _ _ _ hstep)

/-- A run whose labels have a property is one of the steps with that property. -/
theorem Run.restrict {P : ℓ → Prop} (h : Run step x₀ ls x) (hls : ∀ l ∈ ls, P l) :
    Run (fun x l y => step x l y ∧ P l) x₀ ls x := by
  induction h with
  | nil => exact .nil
  | snoc _ hstep ih =>
    refine .snoc (ih fun l hl => hls l (List.mem_append_left _ hl)) ⟨hstep, ?_⟩
    exact hls _ (List.mem_append_right _ (List.mem_singleton_self _))

theorem Run.single (h : step x l y) : Run step x [l] y :=
  .snoc .nil h

/-- One run after the other. -/
theorem Run.trans (h : Run step x₀ ls x) (h' : Run step x ls' y) :
    Run step x₀ (ls ++ ls') y := by
  induction h' with
  | nil => rwa [List.append_nil]
  | snoc _ hstep ih =>
    rw [← List.append_assoc]
    exact .snoc ih hstep

theorem Run.eq_of_nil (h : Run step x₀ [] x) : x = x₀ := by
  generalize hls : ([] : List ℓ) = ls at h
  cases h with
  | nil => rfl
  | snoc => exact absurd hls.symm (List.append_ne_nil_of_right_ne_nil _ (List.cons_ne_nil _ _))

/-- A run can be cut anywhere. -/
theorem Run.of_append (h : Run step x₀ (ls ++ ls') x) :
    ∃ y, Run step x₀ ls y ∧ Run step y ls' x := by
  generalize hl : ls ++ ls' = ms at h
  induction h generalizing ls' with
  | nil =>
    obtain ⟨rfl, rfl⟩ := List.append_eq_nil_iff.1 hl
    exact ⟨x₀, .nil, .nil⟩
  | @snoc ms y l x hrun hstep ih =>
    rcases List.eq_nil_or_concat ls' with rfl | ⟨ns, l', rfl⟩
    · rw [List.append_nil] at hl
      exact ⟨x, hl ▸ .snoc hrun hstep, .nil⟩
    · rw [List.concat_eq_append, ← List.append_assoc] at hl
      obtain ⟨hms, hll⟩ := List.append_inj' hl rfl
      obtain rfl := (List.cons.inj hll).1
      obtain ⟨z, hz, hzy⟩ := ih hms
      exact ⟨z, hz, List.concat_eq_append .. ▸ .snoc hzy hstep⟩

/-- The first step of a run. -/
theorem Run.of_cons (h : Run step x₀ (l :: ls) x) : ∃ y, step x₀ l y ∧ Run step y ls x := by
  obtain ⟨y, hy, hyx⟩ := Run.of_append (show Run step x₀ ([l] ++ ls) x from h)
  generalize hl : [l] = ms at hy
  cases hy with
  | nil => cases hl
  | @snoc ms z l' _ hz hstep =>
    obtain ⟨hms, hl⟩ := List.append_inj' (show [] ++ [l] = ms ++ [l'] from hl) rfl
    obtain rfl := (List.cons.inj hl).1
    rw [← hms] at hz
    exact ⟨y, hz.eq_of_nil ▸ hstep, hyx⟩

/-- The step with a given label. -/
theorem Run.split (h : Run step x₀ (ls ++ l :: ls') x) :
    ∃ y z, Run step x₀ ls y ∧ step y l z ∧ Run step z ls' x := by
  obtain ⟨y, hy, hyx⟩ := h.of_append
  obtain ⟨z, hstep, hzx⟩ := hyx.of_cons
  exact ⟨y, z, hy, hstep, hzx⟩

end Theory
end BearRpc
