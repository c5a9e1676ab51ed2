/-
# Tables with entries on demand

A key without an entry is looked up as `default`, and gets an entry when it is written.
The tables are association lists without a second entry for a key (`AList`); nothing
here depends on the order of the entries.
-/

import Mathlib.Data.Finset.Card
import Mathlib.Data.List.AList

namespace BearRpc
namespace Theory

/-- The entries of a table; there is one for a key at most. -/
abbrev Table (κ ν : Type) := AList fun _ : κ => ν

namespace Table

variable {κ ν : Type}

/-- The number of entries. -/
def size (m : Table κ ν) : ℕ := m.keys.length

variable [DecidableEq κ] [Inhabited ν]

/-- The value under a key, `default` if there is no entry. -/
def get (m : Table κ ν) (k : κ) : ν := (m.lookup k).getD default

/-- The value under the key `k` becomes `f` of what it was. -/
def modify (m : Table κ ν) (k : κ) (f : ν → ν) : Table κ ν := m.insert k (f (m.get k))

/-- To look up a key is to make an entry for it. -/
def touch (m : Table κ ν) (k : κ) : Table κ ν := m.modify k fun x => x

variable {m : Table κ ν} {k j : κ} {f : ν → ν} {x : ν}

/-- In a new table everything has the default value, as an element of an `unordered_map`
that `operator[]` makes has. -/
@[simp] theorem get_empty : get (∅ : Table κ ν) k = default := rfl

/-- Where there is an entry, `get` gives its value. -/
theorem get_of_lookup (h : m.lookup k = some x) : m.get k = x := by
  rw [get, h]
  rfl

/-- Where there is none, `get` gives the default, without making an entry. -/
theorem get_of_not_mem (h : k ∉ m) : m.get k = default := by
  rw [get, AList.lookup_eq_none.2 h]
  rfl

/-- An insertion changes the value under its own key and under no other. -/
theorem get_insert : get (m.insert k x) j = if j = k then x else m.get j := by
  by_cases hjk : j = k
  · subst hjk
    rw [if_pos rfl, get_of_lookup (AList.lookup_insert m)]
  · rw [if_neg hjk, get, AList.lookup_insert_ne hjk]
    rfl

/-- Modifying under a key applies the function to the value there, or to the default where
there is no entry, and leaves the other keys as they are. -/
theorem get_modify : (m.modify k f).get j = if j = k then f (m.get k) else m.get j := get_insert

/-- Modifying makes an entry if there is none, and removes none. -/
@[simp] theorem mem_modify : j ∈ m.modify k f ↔ j = k ∨ j ∈ m := AList.mem_insert m

/-- Reading through `operator[]` changes no value, even where it makes an entry. -/
@[simp] theorem get_touch : (m.touch k).get j = m.get j := by
  rw [touch, get_modify]
  split
  · next hjk => rw [hjk]
  · rfl

/-- What reading through `operator[]` does change is which keys there are. -/
@[simp] theorem mem_touch : j ∈ m.touch k ↔ j = k ∨ j ∈ m := mem_modify

omit [Inhabited ν] in
/-- The keys are as many as the entries. -/
theorem card_keys (m : Table κ ν) : m.keys.toFinset.card = m.size :=
  List.toFinset_card_of_nodup m.keys_nodup

end Table
end Theory
end BearRpc
