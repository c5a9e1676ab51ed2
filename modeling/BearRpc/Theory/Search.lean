/-
# First occurrence of a pattern

`search pat s` is the position of the first occurrence of `pat` in `s`, as
`std::search` computes it.  An occurrence found is found in every extension of
`s` (`search_append`) and in every part of `s` that contains it
(`search_take`).
-/

import Mathlib.Data.List.Basic

namespace BearRpc
namespace Theory

variable {α : Type*} [DecidableEq α]

/-- Position of the first occurrence of the non-empty pattern `pat`. -/
def search (pat : List α) : List α → Option ℕ
  | [] => none
  | a :: s => if pat <+: a :: s then some 0 else (search pat s).map (· + 1)

/-- The position found is an occurrence. -/
theorem search_occurs {pat s : List α} {k : ℕ} (h : search pat s = some k) :
    pat <+: s.drop k := by
  induction s generalizing k with
  | nil => simp [search] at h
  | cons a s ih =>
    rw [search] at h
    split_ifs at h with hp
    · obtain rfl := Option.some.inj h
      exact hp
    · obtain ⟨j, hj, rfl⟩ := Option.map_eq_some_iff.1 h
      exact ih hj

theorem search_le {pat s : List α} {k : ℕ} (hpat : pat ≠ []) (h : search pat s = some k) :
    k + pat.length ≤ s.length := by
  have hle := (search_occurs h).length_le
  have hpos := List.length_pos_iff.2 hpat
  rw [List.length_drop] at hle
  omega

/-- **An occurrence stays the first one** when the list is extended, because it and
everything before it are in the part that was there. -/
theorem search_append {pat s : List α} {k : ℕ} (hpat : pat ≠ []) (h : search pat s = some k)
    (t : List α) : search pat (s ++ t) = some k := by
  induction s generalizing k with
  | nil => simp [search] at h
  | cons a s ih =>
    rw [search] at h
    rw [List.cons_append, search]
    split_ifs at h with hp
    · obtain rfl := Option.some.inj h
      have hpt : pat <+: a :: (s ++ t) := hp.trans (List.prefix_append (a :: s) t)
      rw [if_pos hpt]
    · obtain ⟨j, hj, rfl⟩ := Option.map_eq_some_iff.1 h
      have hlen := search_le hpat hj
      have hn : ¬ pat <+: a :: (s ++ t) := fun hc =>
        hp (List.prefix_of_prefix_length_le hc (List.prefix_append (a :: s) t)
          (by rw [List.length_cons]; omega))
      rw [if_neg hn, ih hj, Option.map_some]

/-- An occurrence is found in every part of the list that contains it. -/
theorem search_take {pat s : List α} {k n : ℕ} (hpat : pat ≠ []) (h : search pat s = some k)
    (hn : k + pat.length ≤ n) : search pat (s.take n) = some k := by
  induction s generalizing k n with
  | nil => simp [search] at h
  | cons a s ih =>
    have hpos := List.length_pos_iff.2 hpat
    obtain ⟨m, rfl⟩ : ∃ m, n = m + 1 := ⟨n - 1, by omega⟩
    rw [search] at h
    rw [List.take_succ_cons, search]
    split_ifs at h with hp
    · obtain rfl := Option.some.inj h
      have hm : pat <+: (a :: s).take (m + 1) := List.prefix_take_iff.2 ⟨hp, by omega⟩
      rw [List.take_succ_cons] at hm
      rw [if_pos hm]
    · obtain ⟨j, hj, rfl⟩ := Option.map_eq_some_iff.1 h
      have hn' : ¬ pat <+: a :: s.take m := fun hc =>
        hp (hc.trans (List.cons_prefix_cons.2 ⟨rfl, List.take_prefix m s⟩))
      rw [if_neg hn', ih hj (by omega), Option.map_some]

/-- A pattern whose first symbol does not occur before it is found there. -/
theorem search_of_not_mem {c : α} {pat pre : List α} (h : c ∉ pre) (post : List α) :
    search (c :: pat) (pre ++ (c :: pat) ++ post) = some pre.length := by
  induction pre with
  | nil =>
    rw [List.nil_append, List.cons_append, search, if_pos]
    · rfl
    · exact List.prefix_append (c :: pat) post
  | cons a pre ih =>
    rw [List.mem_cons, not_or] at h
    have hn : ¬ c :: pat <+: a :: (pre ++ (c :: pat) ++ post) := fun hp =>
      h.1 (List.cons_prefix_cons.1 hp).1
    rw [List.cons_append, List.cons_append, search, if_neg hn, ih h.2]
    rfl

omit [DecidableEq α] in
/-- A list with an element of some kind splits at the first of them. -/
theorem exists_first {p : α → Prop} {l : List α} (h : ∃ a ∈ l, p a) :
    ∃ pre a post, l = pre ++ a :: post ∧ p a ∧ ∀ b ∈ pre, ¬ p b := by
  classical
  obtain ⟨a, ha, hpa⟩ := h
  obtain ⟨b, hb⟩ := Option.isSome_iff_exists.1
    (List.find?_isSome.2 ⟨a, ha, decide_eq_true hpa⟩ : (l.find? fun a => decide (p a)).isSome)
  obtain ⟨hpb, pre, post, rfl, hpre⟩ := List.find?_eq_some_iff_append.1 hb
  exact ⟨pre, b, post, rfl, of_decide_eq_true hpb, fun c hc => by simpa using hpre c hc⟩

end Theory
end BearRpc
