/-
# Grammars read from the front of a stream

A byte stream is read item by item from its front.  A `PrefixGrammar` says what
the front of a stream amounts to: an item of known length, an error, or too
little to tell (`Front`).  The three laws it carries say that more input never
changes a decision already taken, and that an item is decided by its own
symbols alone.

`Parses g s is r` reads `s` as the items `is` followed by `r`.  Reading stops
where no item stands at the front (`Settled`), and a stream has one reading up
to such a point (`Parses.unique`), which every other reading is a part of
(`Parses.continues`).
-/

import Mathlib.Data.List.Basic

namespace BearRpc
namespace Theory

variable {α ι ξ : Type*}

/-- What the front of a stream amounts to: an item of length `len`, an error
that discards `skip` symbols, or too little input to tell. -/
inductive Front (ι ξ : Type*) where
  | more
  | item (len : ℕ) (i : ι)
  | bad (skip : ℕ) (e : ξ)

/-- A grammar read from the front of a stream. -/
structure PrefixGrammar (α ι ξ : Type*) where
  /-- The item, the error or the want of input at the front. -/
  front : List α → Front ι ξ
  item_pos : ∀ {s n i}, front s = .item n i → 0 < n
  item_le : ∀ {s n i}, front s = .item n i → n ≤ s.length
  item_append : ∀ {s n i} (t : List α), front s = .item n i → front (s ++ t) = .item n i
  item_take : ∀ {s n i}, front s = .item n i → front (s.take n) = .item n i
  bad_append : ∀ {s n e} (t : List α), front s = .bad n e → front (s ++ t) = .bad n e

namespace PrefixGrammar

variable (g : PrefixGrammar α ι ξ)

/-- No item stands at the front. -/
def Settled (s : List α) : Prop := ∀ n i, g.front s ≠ .item n i

/-- `s` consists of the items `is` followed by `r`. -/
inductive Parses : List α → List ι → List α → Prop
  | nil (s : List α) : Parses s [] s
  | cons {s n i is r} : g.front s = .item n i → Parses (s.drop n) is r → Parses s (i :: is) r

variable {g} {s t r r' : List α} {is js : List ι} {i : ι} {n : ℕ} {e : ξ}

theorem settled_nil : g.Settled [] := fun n i h => by
  have h₁ := g.item_pos h
  have h₂ := g.item_le h
  simp only [List.length_nil] at h₂
  omega

theorem settled_of_more (h : g.front s = .more) : g.Settled s := fun n i hi => by
  rw [h] at hi; cases hi

theorem settled_of_bad (h : g.front s = .bad n e) : g.Settled s := fun _ _ hi => by
  rw [h] at hi; cases hi

/-- **An item is decided by its own symbols.**  Two streams with the same first
`n` symbols have the same item of length `n` at the front. -/
theorem front_eq_of_take_eq (h : g.front s = .item n i) (ht : t.take n = s.take n) :
    g.front t = .item n i := by
  have h' := g.item_append (t.drop n) (g.item_take h)
  rwa [← ht, List.take_append_drop] at h'

/-- An item that fits into `s` was already there before `t` arrived. -/
theorem front_of_append (h : g.front (s ++ t) = .item n i) (hn : n ≤ s.length) :
    g.front s = .item n i :=
  front_eq_of_take_eq h (by rw [List.take_append_of_le_length hn])

/-- One symbol after a settled stream completes at most one item, which is then
the whole of it. -/
theorem length_of_front_concat {a : α} (hs : g.Settled s) (h : g.front (s ++ [a]) = .item n i) :
    n = (s ++ [a]).length := by
  have hle := g.item_le h
  by_contra hne
  simp only [List.length_append, List.length_singleton] at hle hne
  exact hs n i (front_of_append h (by omega))

namespace Parses

theorem single (h : g.front s = .item n i) : Parses g s [i] (s.drop n) :=
  .cons h (.nil _)

/-- More input leaves the items read so far as they are. -/
theorem append (h : Parses g s is r) (t : List α) : Parses g (s ++ t) is (r ++ t) := by
  induction h with
  | nil s => exact .nil _
  | @cons s n i is r hi _ ih =>
    refine .cons (g.item_append t hi) ?_
    rwa [List.drop_append_of_le_length (g.item_le hi)]

theorem trans (h : Parses g s is r) (h' : Parses g r js r') : Parses g s (is ++ js) r' := by
  induction h with
  | nil s => exact h'
  | cons hi _ ih => exact .cons hi (ih h')

/-- A stream that is read to its end is read from its front. -/
theorem of_front (h : Parses g s is []) (hi : g.front s = .item n i) :
    ∃ js, is = i :: js ∧ Parses g (s.drop n) js [] := by
  generalize hr : ([] : List α) = r at h
  cases h with
  | nil =>
    subst hr
    have h₁ := g.item_pos hi
    have h₂ := g.item_le hi
    rw [List.length_nil] at h₂
    omega
  | @cons _ m j js _ hj h =>
    rw [hi] at hj
    cases hj
    exact ⟨js, rfl, hr ▸ h⟩

/-- A stream that is read to its end, and waits for more, is at its end. -/
theorem of_more (h : Parses g s is []) (hm : g.front s = .more) : is = [] ∧ s = [] := by
  generalize hr : ([] : List α) = r at h
  cases h with
  | nil => exact ⟨rfl, rfl⟩
  | cons hi _ =>
    rw [hm] at hi
    cases hi

/-- Splitting a reading after any of its items. -/
theorem of_append (h : Parses g s (is ++ js) r) : ∃ m, Parses g s is m ∧ Parses g m js r := by
  induction is generalizing s with
  | nil => exact ⟨s, .nil s, h⟩
  | cons i is ih =>
    cases h with
    | cons hi h =>
      obtain ⟨m, h₁, h₂⟩ := ih h
      exact ⟨m, .cons hi h₁, h₂⟩

/-- The items read leave a shorter stream. -/
theorem length_le (h : Parses g s is r) : r.length + is.length ≤ s.length := by
  induction h with
  | nil s => simp
  | cons hi _ ih =>
    have h₁ := g.item_pos hi
    have h₂ := g.item_le hi
    simp only [List.length_drop, List.length_cons] at ih ⊢
    omega

/-- What is left is the end of the stream. -/
theorem suffix (h : Parses g s is r) : r <:+ s := by
  induction h with
  | nil s => exact List.suffix_rfl
  | cons _ _ ih => exact ih.trans (List.drop_suffix _ _)

/-- **The reading that goes on longest extends every other.**  From a stream
read to a settled rest `r'`, any reading `is` is continued by the rest of the
settled one. -/
theorem continues (h : Parses g s is r) (h' : Parses g s js r') (hr : g.Settled r') :
    ∃ ks, js = is ++ ks ∧ Parses g r ks r' := by
  induction h generalizing js with
  | nil s => exact ⟨js, rfl, h'⟩
  | cons hi _ ih =>
    cases h' with
    | nil => exact absurd hi (hr _ _)
    | cons hj h' =>
      rw [hi] at hj
      cases hj
      obtain ⟨ks, rfl, hks⟩ := ih h'
      exact ⟨ks, rfl, hks⟩

/-- **A stream has one reading up to a settled rest**: at each place the front of what is
left says which item comes next, if any. -/
theorem unique (h : Parses g s is r) (h' : Parses g s js r') (hr : g.Settled r)
    (hr' : g.Settled r') : is = js ∧ r = r' := by
  obtain ⟨ks, rfl, hk⟩ := h.continues h' hr'
  cases hk with
  | nil => exact ⟨(List.append_nil is).symm, rfl⟩
  | cons hi _ => exact absurd hi (hr _ _)

/-- Of two readings of a stream, one begins with the other. -/
theorem comparable (h : Parses g s is r) (h' : Parses g s js r') : is <+: js ∨ js <+: is := by
  induction h generalizing js with
  | nil s => exact .inl (List.nil_prefix)
  | @cons s n i is r hi _ ih =>
    cases h' with
    | nil => exact .inr (List.nil_prefix)
    | cons hj h' =>
      rw [hi] at hj
      cases hj
      rcases ih h' with h | h
      · exact .inl (List.cons_prefix_cons.2 ⟨rfl, h⟩)
      · exact .inr (List.cons_prefix_cons.2 ⟨rfl, h⟩)

end Parses

/-- **Every stream is read to a settled rest**: each item takes something away, so that no
reading goes on for ever. -/
theorem exists_parses (g : PrefixGrammar α ι ξ) (s : List α) :
    ∃ is r, Parses g s is r ∧ g.Settled r := by
  induction hn : s.length using Nat.strongRecOn generalizing s with
  | _ n ih =>
    by_cases hs : g.Settled s
    · exact ⟨[], s, .nil s, hs⟩
    · simp only [Settled, not_forall, not_not] at hs
      obtain ⟨k, i, hi⟩ := hs
      have h₁ := g.item_pos hi
      have h₂ := g.item_le hi
      obtain ⟨is, r, h, hr⟩ := ih (s.drop k).length
        (by simp only [List.length_drop]; omega) (s.drop k) rfl
      exact ⟨i :: is, r, .cons hi h, hr⟩

end PrefixGrammar
end Theory
end BearRpc
