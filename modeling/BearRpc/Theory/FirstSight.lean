/-
# Counting what is seen for the first time

A loop goes through a list, learns its elements, and counts those that it has not known.
It has learnt the elements of the list then, and counted the ones that were not known at
the start, each once (`FirstSight.count_foldl`).  The order of the list does not matter
(`FirstSight.count_perm`).
-/

import Mathlib.Data.Finset.Card

namespace BearRpc
namespace Theory

variable {σ α : Type*} {knows : σ → α → Prop} {count : σ → ℕ} {see : σ → α → σ}

/-- To see an element is to know it, and to count it unless it was known. -/
structure FirstSight (knows : σ → α → Prop) (count : σ → ℕ) (see : σ → α → σ) : Prop where
  knows_see : ∀ s x y, knows (see s x) y ↔ knows s y ∨ y = x
  count_known : ∀ s x, knows s x → count (see s x) = count s
  count_new : ∀ s x, ¬ knows s x → count (see s x) = count s + 1

namespace FirstSight

variable {s : σ} {l l' : List α} {y : α}

/-- **The elements of the list are known** behind the loop, and besides them those that were
known before. -/
theorem knows_foldl (h : FirstSight knows count see) :
    knows (l.foldl see s) y ↔ knows s y ∨ y ∈ l := by
  induction l generalizing s with
  | nil => exact (or_iff_left List.not_mem_nil).symm
  | cons x l ih => rw [List.foldl_cons, ih, h.knows_see, List.mem_cons, or_assoc]

variable [DecidableEq α] [∀ s, DecidablePred (knows s)]

/-- **The elements that were not known are counted**, each once, however often they come up
in the list. -/
theorem count_foldl (h : FirstSight knows count see) :
    count (l.foldl see s) = count s + (l.toFinset.filter fun x => ¬ knows s x).card := by
  induction l generalizing s with
  | nil => rfl
  | cons x l ih =>
    rw [List.foldl_cons, ih, List.toFinset_cons]
    have hfilter : (l.toFinset.filter fun y => ¬ knows (see s x) y) =
        (l.toFinset.filter fun y => ¬ knows s y).erase x := by
      ext y
      rw [Finset.mem_erase, Finset.mem_filter, Finset.mem_filter, h.knows_see, not_or]
      tauto
    by_cases hx : knows s x
    · have hnot : x ∉ l.toFinset.filter fun y => ¬ knows s y := fun hmem =>
        (Finset.mem_filter.1 hmem).2 hx
      rw [h.count_known s x hx, hfilter, Finset.erase_eq_of_notMem hnot,
        Finset.filter_insert, if_neg (not_not.2 hx)]
    · rw [h.count_new s x hx, hfilter, Finset.filter_insert, if_pos hx,
        ← Finset.card_erase_add_one (Finset.mem_insert_self x _), Finset.erase_insert_eq_erase,
        Nat.add_assoc, Nat.add_comm 1]

/-- **The order does not matter**: a list and a permutation of it are counted alike. -/
theorem count_perm (h : FirstSight knows count see) (hl : l.Perm l') :
    count (l.foldl see s) = count (l'.foldl see s) := by
  rw [h.count_foldl, h.count_foldl, List.toFinset_eq_of_perm l l' hl]

end FirstSight
end Theory
end BearRpc
