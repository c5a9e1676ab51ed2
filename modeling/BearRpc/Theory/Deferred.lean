/-
# Deferred operations

Operations are put into a queue now and executed later, and each needs something to
hold when its turn comes.  `Enabled pre act a os`: from the account `a`, the operations
`os` can be executed one after the other.

An operation behind the others needs its precondition at the account they leave
(`enabled_concat`).  Two accounts in a relation that the operations respect enable the
same operations and stay in that relation (`Enabled.simulate`).
-/

import Mathlib.Data.List.Basic

namespace BearRpc
namespace Theory

variable {α ω : Type*} {pre : α → ω → Prop} {act : α → ω → α} {a b : α} {o : ω} {os : List ω}

/-- The precondition of each operation holds when its turn comes. -/
def Enabled (pre : α → ω → Prop) (act : α → ω → α) : α → List ω → Prop
  | _, [] => True
  | a, o :: os => pre a o ∧ Enabled pre act (act a o) os

theorem enabled_append {os' : List ω} : Enabled pre act a (os ++ os') ↔
    Enabled pre act a os ∧ Enabled pre act (os.foldl act a) os' := by
  induction os generalizing a with
  | nil => simp only [List.nil_append, Enabled, List.foldl_nil, true_and]
  | cons o os ih => rw [List.cons_append, Enabled, Enabled, ih, List.foldl_cons, and_assoc]

/-- **An operation is put behind the others**: they stay enabled, and it is itself if its
own precondition will hold when they are done. -/
theorem enabled_concat : Enabled pre act a (os ++ [o]) ↔
    Enabled pre act a os ∧ pre (os.foldl act a) o := by
  rw [enabled_append]
  exact and_congr_right' (and_iff_left trivial)

/-- **Accounts that the operations cannot tell apart** enable the same operations, and are
such accounts again behind them. -/
theorem Enabled.simulate {R : α → α → Prop} (h : Enabled pre act a os) (hR : R a b)
    (hpre : ∀ a b, ∀ o ∈ os, R a b → pre a o → pre b o)
    (hact : ∀ a b, ∀ o ∈ os, R a b → pre a o → R (act a o) (act b o)) :
    Enabled pre act b os ∧ R (os.foldl act a) (os.foldl act b) := by
  induction os generalizing a b with
  | nil => exact ⟨trivial, hR⟩
  | cons o os ih =>
    have hmem : o ∈ o :: os := List.mem_cons_self
    have hnext := hact a b o hmem hR h.1
    obtain ⟨henabled, hlast⟩ := ih h.2 hnext
      (fun a b o ho => hpre a b o (List.mem_cons_of_mem _ ho))
      (fun a b o ho => hact a b o (List.mem_cons_of_mem _ ho))
    exact ⟨⟨hpre a b o hmem hR h.1, henabled⟩, hlast⟩

/-- What each enabled operation preserves holds of the account they leave. -/
theorem Enabled.preserves {P : α → Prop} (h : Enabled pre act a os) (hP : P a)
    (hact : ∀ a, ∀ o ∈ os, P a → pre a o → P (act a o)) : P (os.foldl act a) := by
  induction os generalizing a with
  | nil => exact hP
  | cons o os ih =>
    exact ih h.2 (hact a o List.mem_cons_self hP h.1)
      fun a o ho => hact a o (List.mem_cons_of_mem _ ho)

end Theory
end BearRpc
