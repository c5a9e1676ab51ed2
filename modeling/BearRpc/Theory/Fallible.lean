/-
# Loops that can fail

What is known of a loop over a list that has returned: every turn has returned
(`mapM_ok_iff`), and what every turn preserves holds at the end (`foldlM_invariant`).
-/

import Mathlib.Data.List.Forall2

namespace BearRpc
namespace Theory

variable {ε α β σ : Type}

/-- A sequence that returns: its first part returns, and its second part on the result. -/
theorem bind_ok_iff {x : Except ε α} {f : α → Except ε β} {b : β} :
    x >>= f = .ok b ↔ ∃ a, x = .ok a ∧ f a = .ok b := by
  cases x with
  | error e =>
    constructor
    · intro h
      cases h
    · rintro ⟨a, h, -⟩
      cases h
  | ok a =>
    constructor
    · intro h
      exact ⟨a, rfl, h⟩
    · rintro ⟨a, h, hf⟩
      cases h
      exact hf

/-- **A loop returns if every turn does**, with the results of the turns in their order. -/
theorem mapM_ok_iff {f : α → Except ε β} {xs : List α} {ys : List β} :
    xs.mapM f = .ok ys ↔ List.Forall₂ (fun x y => f x = .ok y) xs ys := by
  induction xs generalizing ys with
  | nil =>
    rw [List.mapM_nil, List.forall₂_nil_left_iff]
    constructor
    · intro h
      cases h
      rfl
    · rintro rfl
      rfl
  | cons x xs ih =>
    rw [List.mapM_cons, bind_ok_iff]
    constructor
    · rintro ⟨y, hy, h⟩
      obtain ⟨ys, hys, h⟩ := bind_ok_iff.1 h
      cases h
      exact .cons hy (ih.1 hys)
    · intro h
      cases h with
      | cons hy hys => exact ⟨_, hy, bind_ok_iff.2 ⟨_, ih.2 hys, rfl⟩⟩

/-- The turn of an element. -/
theorem exists_of_mapM {f : α → Except ε β} {xs : List α} {ys : List β} {k : ℕ} {x : α}
    (h : xs.mapM f = .ok ys) (hx : xs[k]? = some x) : ∃ y, ys[k]? = some y ∧ f x = .ok y := by
  have hall := mapM_ok_iff.1 h
  obtain ⟨hlt, rfl⟩ := List.getElem?_eq_some_iff.1 hx
  have hlt' : k < ys.length := hall.length_eq ▸ hlt
  exact ⟨ys[k], List.getElem?_eq_getElem hlt', hall.get hlt hlt'⟩

/-- A result among those of a `mapM` that returned is the result of one of the arguments. -/
theorem exists_of_mem_mapM {f : α → Except ε β} {xs : List α} {ys : List β} {y : β}
    (h : xs.mapM f = .ok ys) (hy : y ∈ ys) : ∃ x ∈ xs, f x = .ok y := by
  have hall := mapM_ok_iff.1 h
  obtain ⟨k, hlt, rfl⟩ := List.getElem_of_mem hy
  have hlt' : k < xs.length := hall.length_eq ▸ hlt
  exact ⟨xs[k], List.getElem_mem hlt', hall.get hlt' hlt⟩

/-- There are as many results as arguments. -/
theorem length_mapM {f : α → Except ε β} {xs : List α} {ys : List β}
    (h : xs.mapM f = .ok ys) : ys.length = xs.length :=
  (mapM_ok_iff.1 h).length_eq.symm

/-- A `mapM` returns if the function returns on every argument. -/
theorem exists_mapM {f : α → Except ε β} {xs : List α} (h : ∀ x ∈ xs, ∃ y, f x = .ok y) :
    ∃ ys, xs.mapM f = .ok ys := by
  induction xs with
  | nil => exact ⟨[], rfl⟩
  | cons x xs ih =>
    obtain ⟨⟨y, hy⟩, hxs⟩ := List.forall_mem_cons.1 h
    obtain ⟨ys, hys⟩ := ih hxs
    refine ⟨y :: ys, ?_⟩
    rw [List.mapM_cons]
    exact bind_ok_iff.2 ⟨y, hy, bind_ok_iff.2 ⟨ys, hys, rfl⟩⟩

/-- A loop without a result. -/
theorem forM_ok_iff {f : α → Except ε Unit} {xs : List α} :
    xs.forM f = .ok () ↔ ∀ x ∈ xs, f x = .ok () := by
  induction xs with
  | nil => exact ⟨fun _ _ hx => absurd hx List.not_mem_nil, fun _ => rfl⟩
  | cons x xs ih =>
    rw [List.forall_mem_cons, ← ih]
    refine bind_ok_iff.trans ⟨?_, fun h => ⟨(), h⟩⟩
    rintro ⟨u, h⟩
    exact h

/-- A `foldlM` returns if every step returns, from whatever state. -/
theorem exists_foldlM {f : σ → α → Except ε σ} {xs : List α}
    (h : ∀ x ∈ xs, ∀ s, ∃ s', f s x = .ok s') (s : σ) : ∃ t, xs.foldlM f s = .ok t := by
  induction xs generalizing s with
  | nil => exact ⟨s, rfl⟩
  | cons x xs ih =>
    obtain ⟨hx, hxs⟩ := List.forall_mem_cons.1 h
    obtain ⟨s', hs'⟩ := hx s
    obtain ⟨t, ht⟩ := ih hxs s'
    refine ⟨t, ?_⟩
    rw [List.foldlM_cons]
    exact bind_ok_iff.2 ⟨s', hs', ht⟩

/-- **The invariant rule** for a loop with an accumulator, over the part that is done: it
holds of nothing at the beginning, and each turn that returns keeps it. -/
theorem foldlM_invariant (Inv : List α → σ → Prop) {f : σ → α → Except ε σ} {xs : List α}
    {s t : σ} (h : xs.foldlM f s = .ok t) (init : Inv [] s)
    (preserved : ∀ done x rest s s', xs = done ++ x :: rest → Inv done s → f s x = .ok s' →
      Inv (done ++ [x]) s') : Inv xs t := by
  suffices hgen : ∀ done rest s, xs = done ++ rest → Inv done s → rest.foldlM f s = .ok t →
      Inv xs t from hgen [] xs s rfl init h
  intro done rest
  induction rest generalizing done with
  | nil =>
    intro s hxs hinv h
    cases h
    rw [hxs, List.append_nil]
    exact hinv
  | cons x rest ih =>
    intro s hxs hinv h
    rw [List.foldlM_cons] at h
    obtain ⟨s', hs', h⟩ := bind_ok_iff.1 h
    refine ih (done ++ [x]) s' ?_ (preserved done x rest s s' hxs hinv hs') h
    rw [List.append_assoc, hxs]
    rfl

end Theory
end BearRpc
