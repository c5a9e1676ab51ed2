/-
# Ownership of heap objects

Objects are created and deleted, and every live object has one owner: someone
holds a pointer and has to delete the object in the end.  A `Ledger` keeps the
accounts: what was created is what was deleted and what is owned, nothing was
created twice, and the live objects are the owned ones.

So no object is deleted twice, and when nobody owns anything any more, every
object has been deleted (`Ledger.deleted_once`, `Ledger.all_deleted`).
-/

import Mathlib.Algebra.Order.Group.Multiset

namespace BearRpc
namespace Theory

variable {κ : Type*}

/-- The accounts of a heap. -/
structure Ledger (live : κ → Prop) (created deleted owned : Multiset κ) : Prop where
  conserved : created = deleted + owned
  fresh : created.Nodup
  live_iff : ∀ p, live p ↔ p ∈ owned

variable {live live' : κ → Prop} {created deleted owned owned' : Multiset κ} {p : κ}

theorem Ledger.empty (h : ∀ p, ¬ live p) : Ledger live 0 0 0 :=
  ⟨rfl, Multiset.nodup_zero, fun p => iff_of_false (h p) (Multiset.notMem_zero p)⟩

/-- Nothing owned has been deleted. -/
theorem Ledger.not_deleted (h : Ledger live created deleted owned) (hp : p ∈ owned) :
    p ∉ deleted := by
  have hnd := h.fresh
  rw [h.conserved, Multiset.nodup_add] at hnd
  exact fun hd => (Multiset.disjoint_left.1 hnd.2.2) hd hp

theorem Ledger.owned_nodup (h : Ledger live created deleted owned) : owned.Nodup := by
  have hnd := h.fresh
  rw [h.conserved, Multiset.nodup_add] at hnd
  exact hnd.2.1

/-- **Nothing is deleted twice**: everything that was created is deleted or owned, and is so
once. -/
theorem Ledger.deleted_once (h : Ledger live created deleted owned) : deleted.Nodup := by
  have hnd := h.fresh
  rw [h.conserved, Multiset.nodup_add] at hnd
  exact hnd.1

/-- **When nothing is owned, everything has been deleted**, so that nothing leaks. -/
theorem Ledger.all_deleted (h : Ledger live created deleted 0) : deleted = created := by
  rw [h.conserved, add_zero]

/-- The owners change among themselves. -/
theorem Ledger.transfer (h : Ledger live created deleted owned) (heq : owned' = owned)
    (hlive : ∀ p, live' p ↔ live p) : Ledger live' created deleted owned' :=
  heq ▸ ⟨h.conserved, h.fresh, fun p => (hlive p).trans (h.live_iff p)⟩

/-- An object is created, and owned. -/
theorem Ledger.create (h : Ledger live created deleted owned) (hp : p ∉ created)
    (heq : owned' = p ::ₘ owned) (hlive : ∀ q, live' q ↔ q = p ∨ live q) :
    Ledger live' (created + {p}) deleted owned' := by
  subst heq
  refine ⟨?_, ?_, fun q => ?_⟩
  · rw [h.conserved, ← Multiset.singleton_add]
    exact add_right_comm deleted owned {p} ▸ (add_assoc deleted {p} owned)
  · rw [add_comm, Multiset.singleton_add, Multiset.nodup_cons]
    exact ⟨hp, h.fresh⟩
  · rw [hlive q, Multiset.mem_cons, h.live_iff q]

/-- An owned object is deleted, and nobody owns it any more. -/
theorem Ledger.delete (h : Ledger live created deleted owned) (heq : owned = p ::ₘ owned')
    (hlive : ∀ q, live' q ↔ q ≠ p ∧ live q) : Ledger live' created (deleted + {p}) owned' := by
  subst heq
  have hnd := Multiset.nodup_cons.1 h.owned_nodup
  refine ⟨?_, h.fresh, fun q => ?_⟩
  · rw [h.conserved, add_assoc, Multiset.singleton_add]
  · rw [hlive q, h.live_iff q, Multiset.mem_cons]
    constructor
    · rintro ⟨hne, heq | hq⟩
      · exact absurd heq hne
      · exact hq
    · intro hq
      exact ⟨fun heq => hnd.1 (heq ▸ hq), .inr hq⟩

/-- All owned objects are deleted. -/
theorem Ledger.deleteAll (h : Ledger live created deleted owned) (hlive : ∀ q, ¬ live' q) :
    Ledger live' created (deleted + owned) 0 :=
  ⟨by rw [h.conserved, add_zero], h.fresh,
    fun q => iff_of_false (hlive q) (Multiset.notMem_zero q)⟩

end Theory
end BearRpc
