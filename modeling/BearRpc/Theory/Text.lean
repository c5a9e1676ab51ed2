/-
# Texts as lists: replacing a pattern, splitting into words

`replace old new s` has `new` for every occurrence of `old` in `s`, taken from the left and
without overlaps, as Python's `str.replace` for a pattern that is not empty.  It goes on behind
the first occurrence that `search` finds (`replace_of_search`).  So `s` is made of pieces
without `old`, joined by `old`, and the result of the same pieces, joined by `new`
(`exists_pieces`); with one occurrence there is one replacement (`replace_once`).

`words space s` are the longest runs without white space, as in Python's `str.split()`:
`Spaced` says what a text with given words looks like (`words_eq_iff`).
-/

import BearRpc.Theory.Search
import Mathlib.Data.List.Infix
import Mathlib.Data.List.TakeWhile

namespace BearRpc
namespace Theory

section Replace

variable {α : Type*} [DecidableEq α]

/-- `replace`, with that many symbols of an occurrence still to pass over. -/
def replaceFrom (old new : List α) : ℕ → List α → List α
  | _, [] => []
  | 0, a :: s =>
    if old <+: a :: s then new ++ replaceFrom old new (old.length - 1) s
    else a :: replaceFrom old new 0 s
  | k + 1, _ :: s => replaceFrom old new k s

/-- `s.replace(old, new)`. -/
def replace (old new s : List α) : List α := replaceFrom old new 0 s

example : replace [1, 1] [2] [1, 1, 1, 3, 1, 1] = [2, 1, 3, 2] := by decide

/-- The scan from a position is the replacement in what is left behind it. -/
theorem replaceFrom_eq (old new : List α) (k : ℕ) (s : List α) :
    replaceFrom old new k s = replace old new (s.drop k) := by
  induction s generalizing k with
  | nil => cases k <;> simp [replace, replaceFrom]
  | cons a s ih =>
    cases k with
    | zero => rfl
    | succ k => rw [replaceFrom, List.drop_succ_cons, ih]

/-- **Where the old text stands at the front**, the new one takes its place, and the scan
goes on behind it: what is put in is not looked at again. -/
theorem replace_cons_of_match {old new s : List α} {a : α} (hold : old ≠ [])
    (h : old <+: a :: s) :
    replace old new (a :: s) = new ++ replace old new ((a :: s).drop old.length) := by
  obtain ⟨n, hn⟩ : ∃ n, old.length = n + 1 :=
    ⟨old.length - 1, by have := List.length_pos_iff.2 hold; omega⟩
  rw [replace, replaceFrom, if_pos h, replaceFrom_eq, hn, List.drop_succ_cons,
    Nat.add_sub_cancel]

/-- Where it does not, the first letter is kept. -/
theorem replace_cons_of_mismatch {old new s : List α} {a : α} (h : ¬ old <+: a :: s) :
    replace old new (a :: s) = a :: replace old new s := by
  rw [replace, replaceFrom, if_neg h, replace]

/-- Nothing is found where the pattern does not occur. -/
theorem search_eq_none_iff {old : List α} (hold : old ≠ []) (s : List α) :
    search old s = none ↔ ¬ old <:+: s := by
  induction s with
  | nil => simp [search, hold]
  | cons a s ih =>
    rw [search, List.infix_cons_iff]
    split_ifs with h
    · simp [h]
    · simp [h, ih]

/-- A text without the old one is left as it is. -/
theorem replace_of_absent {old : List α} (new : List α) {s : List α} (h : ¬ old <:+: s) :
    replace old new s = s := by
  induction s with
  | nil => rfl
  | cons a s ih =>
    rw [List.infix_cons_iff, not_or] at h
    rw [replace_cons_of_mismatch h.1, ih h.2]

/-- **The replacement goes on behind the first occurrence**: what was put in is not searched
again. -/
theorem replace_of_search {old : List α} (hold : old ≠ []) (new : List α) {s : List α} {k : ℕ}
    (h : search old s = some k) :
    replace old new s = s.take k ++ (new ++ replace old new (s.drop (k + old.length))) := by
  induction s generalizing k with
  | nil => cases h
  | cons a s ih =>
    rw [search] at h
    split_ifs at h with hp
    · obtain rfl := Option.some.inj h
      rw [replace_cons_of_match hold hp, List.take_zero, List.nil_append, Nat.zero_add]
    · obtain ⟨j, hj, rfl⟩ := Option.map_eq_some_iff.1 h
      rw [replace_cons_of_mismatch hp, ih hj, List.take_succ_cons, List.cons_append,
        Nat.add_right_comm, List.drop_succ_cons]

/-- Before the first occurrence there is none. -/
theorem not_infix_take_of_search {old : List α} (hold : old ≠ []) {s : List α} {k : ℕ}
    (h : search old s = some k) : ¬ old <:+: s.take k := by
  induction s generalizing k with
  | nil => cases h
  | cons a s ih =>
    rw [search] at h
    split_ifs at h with hp
    · obtain rfl := Option.some.inj h
      simpa using hold
    · obtain ⟨j, hj, rfl⟩ := Option.map_eq_some_iff.1 h
      rw [List.take_succ_cons, List.infix_cons_iff, not_or]
      exact ⟨fun hc => hp (hc.trans (List.cons_prefix_cons.2 ⟨rfl, List.take_prefix j s⟩)), ih hj⟩

/-- A search that finds the old text splits the text at it. -/
theorem eq_take_append_of_search {old s : List α} {k : ℕ} (h : search old s = some k) :
    s = s.take k ++ (old ++ s.drop (k + old.length)) := by
  obtain ⟨t, ht⟩ := search_occurs h
  have hdrop : s.drop (k + old.length) = t := by
    rw [← List.drop_drop, ← ht, List.drop_left]
  rw [hdrop, ht, List.take_append_drop]

/-- **The pieces.**  A list is made of pieces without the pattern, joined by the pattern, and
every replacement in it joins the same pieces; there are two or more when the pattern occurs. -/
theorem exists_pieces {old : List α} (hold : old ≠ []) (s : List α) :
    ∃ pieces : List (List α), old.intercalate pieces = s ∧
      (∀ new, replace old new s = new.intercalate pieces) ∧
      (∀ piece ∈ pieces, ¬ old <:+: piece) ∧ (old <:+: s → 2 ≤ pieces.length) ∧ pieces ≠ [] := by
  cases hs : search old s with
  | none =>
    have hno := (search_eq_none_iff hold s).1 hs
    exact ⟨[s], by simp, fun new => by simp [replace_of_absent new hno], by simpa using hno,
      fun h => absurd h hno, by simp⟩
  | some k =>
    -- the pieces of what stands behind the first occurrence
    have hlen := search_le hold hs
    have hpos := List.length_pos_iff.2 hold
    have hrec : (s.drop (k + old.length)).length < s.length := by
      rw [List.length_drop]
      omega
    obtain ⟨pieces, hjoin, hreplace, hfree, -, hne⟩ := exists_pieces hold (s.drop (k + old.length))
    obtain ⟨p, ps, rfl⟩ := List.exists_cons_of_ne_nil hne
    refine ⟨s.take k :: p :: ps, ?_, fun new => ?_, ?_, fun _ => by simp, by simp⟩
    · rw [List.intercalate_cons_cons, hjoin, List.append_assoc, ← eq_take_append_of_search hs]
    · rw [List.intercalate_cons_cons, replace_of_search hold new hs, hreplace, List.append_assoc]
    · rintro piece (_ | ⟨_, hmem⟩)
      · exact not_infix_take_of_search hold hs
      · exact hfree piece hmem
termination_by s.length

/-- **One occurrence, one replacement**: with the old text in one place only, the new one
stands in its place and nothing else has changed. -/
theorem replace_once {old pre post : List α} (hold : old ≠ []) (new : List α)
    (hone : ∀ a b, pre ++ (old ++ post) = a ++ (old ++ b) → a = pre) :
    replace old new (pre ++ (old ++ post)) = pre ++ (new ++ post) := by
  obtain ⟨k, hk⟩ : ∃ k, search old (pre ++ (old ++ post)) = some k := by
    refine Option.ne_none_iff_exists'.1 fun h => ?_
    exact (search_eq_none_iff hold _).1 h ⟨pre, post, by rw [List.append_assoc]⟩
  have htake := hone _ _ (eq_take_append_of_search hk)
  have hdrop : (pre ++ (old ++ post)).drop (k + old.length) = post := by
    have h := eq_take_append_of_search hk
    rw [htake] at h
    exact (List.append_cancel_left (List.append_cancel_left h)).symm
  have hpost : ¬ old <:+: post := by
    rintro ⟨a, b, hab⟩
    have h := hone (pre ++ (old ++ a)) b (by rw [← hab]; simp)
    have hnil : old ++ a = [] := by simpa using h
    exact hold (List.append_eq_nil_iff.1 hnil).1
  rw [replace_of_search hold new hk, htake, hdrop, replace_of_absent new hpost]

end Replace

section Words

variable {α : Type*} {space : α → Bool}

/-- `s.split()`. -/
def words (space : α → Bool) (s : List α) : List (List α) :=
  (s.splitOnP space).filter fun w => !w.isEmpty

/-- A word: not empty, and no white space. -/
structure IsWord (space : α → Bool) (w : List α) : Prop where
  ne_nil : w ≠ []
  solid : ∀ c ∈ w, space c = false

/-- The texts with these words: white space between any two of them, before and behind. -/
inductive Spaced (space : α → Bool) : List (List α) → List α → Prop
  | nil {gap : List α} : (∀ c ∈ gap, space c = true) → Spaced space [] gap
  | last {gap w : List α} : (∀ c ∈ gap, space c = true) → IsWord space w →
      Spaced space [w] (gap ++ w)
  | cons {gap w s : List α} {c : α} {ws : List (List α)} : (∀ c ∈ gap, space c = true) →
      IsWord space w → space c = true → Spaced space ws s →
      Spaced space (w :: ws) (gap ++ (w ++ c :: s))

/-- **A separator splits the words**: those before it come first, then those behind it,
whatever the two parts are. -/
theorem words_append_space {c : α} (hc : space c = true) (s t : List α) :
    words space (s ++ c :: t) = words space s ++ words space t := by
  rw [words, List.splitOnP_append_cons s t hc, List.filter_append, words, words]

/-- Separators at the front make no words. -/
theorem words_gap_append {gap : List α} (h : ∀ c ∈ gap, space c = true) (s : List α) :
    words space (gap ++ s) = words space s := by
  induction gap with
  | nil => rfl
  | cons c gap ih =>
    rw [List.forall_mem_cons] at h
    have hnil : words space ([] : List α) = [] := by simp [words]
    have hcons := words_append_space h.1 [] (gap ++ s)
    rw [List.nil_append, hnil, List.nil_append] at hcons
    rw [List.cons_append, hcons, ih h.2]

/-- A word, taken for a text, has itself for its only word. -/
theorem IsWord.words {w : List α} (h : IsWord space w) : words space w = [w] := by
  rw [Theory.words, List.splitOnP_eq_singleton h.solid]
  simp [h.ne_nil]

/-- Words with separators between them, and none inside, are read back as they were. -/
theorem Spaced.words {ws : List (List α)} {s : List α} (h : Spaced space ws s) :
    words space s = ws := by
  induction h with
  | nil hgap => simpa [Theory.words] using words_gap_append hgap []
  | last hgap hw => rw [words_gap_append hgap, hw.words]
  | cons hgap hw hc _ ih =>
    rw [words_gap_append hgap, words_append_space hc, hw.words, ih, List.singleton_append]

/-- Every text is spaced somehow. -/
theorem exists_spaced (space : α → Bool) (s : List α) : ∃ ws, Spaced space ws s := by
  have hsplit := List.takeWhile_append_dropWhile (p := space) (l := s)
  have hgap : ∀ c ∈ s.takeWhile space, space c = true := fun c hc => List.mem_takeWhile_imp hc
  cases hrest : s.dropWhile space with
  | nil =>
    rw [hrest, List.append_nil] at hsplit
    exact ⟨[], hsplit ▸ .nil hgap⟩
  | cons a rest =>
    -- the word that begins with `a`
    have ha : space a = false := by
      have h := List.head_dropWhile_not space (by rw [hrest]; exact List.cons_ne_nil a rest)
      simpa [hrest] using h
    have hword : IsWord space ((a :: rest).takeWhile fun c => !space c) := by
      refine ⟨by simp [List.takeWhile, ha], fun c hc => ?_⟩
      simpa using List.mem_takeWhile_imp hc
    have hparts := List.takeWhile_append_dropWhile (p := fun c => !space c) (l := a :: rest)
    cases hlast : (a :: rest).dropWhile fun c => !space c with
    | nil =>
      rw [hlast, List.append_nil] at hparts
      rw [hparts] at hword
      exact ⟨[a :: rest], by rw [← hsplit, hrest]; exact .last hgap hword⟩
    | cons c t =>
      have hc : space c = true := by
        have h := List.head_dropWhile_not (fun c => !space c)
          (by rw [hlast]; exact List.cons_ne_nil c t)
        simpa [hlast] using h
      have hlen : t.length < s.length := by
        have h₁ := congrArg List.length hsplit
        have h₂ := congrArg List.length hparts
        rw [List.length_append, hrest] at h₁
        rw [List.length_append, hlast, List.length_cons] at h₂
        omega
      obtain ⟨ws, hws⟩ := exists_spaced space t
      have hs : s = s.takeWhile space ++ ((a :: rest).takeWhile (fun c => !space c) ++ c :: t) := by
        rw [← hlast, hparts, ← hrest, hsplit]
      have hcons := Spaced.cons hgap hword hc hws
      rw [← hs] at hcons
      exact ⟨_, hcons⟩
termination_by s.length

/-- **The words of a text**, as the grammar has them: `words` is the one way of taking the
text for words with space between them. -/
theorem words_eq_iff {s : List α} {ws : List (List α)} :
    words space s = ws ↔ Spaced space ws s := by
  refine ⟨fun h => ?_, Spaced.words⟩
  obtain ⟨vs, hvs⟩ := exists_spaced space s
  exact (hvs.words.symm.trans h) ▸ hvs

end Words

end Theory
end BearRpc
