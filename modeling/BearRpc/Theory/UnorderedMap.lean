/-
# Hash maps and their iterators

A `std::unordered_map`, as far as a program can tell it from a map: its
elements, how many of them its buckets have room for (`max_load_factor() *
bucket_count()`), and how often it has been rehashed.  Inserting an element for
which there is no room rehashes the map, which leaves the elements where they are
and invalidates every iterator.  Nothing else invalidates the iterator of an
element that is still there.  How many buckets a rehashing makes is up to the
library (`Growth`).

An iterator is what `find` gave: the key of its element and the number of
rehashings before.  Erasing the element of an iterator is defined while no
rehashing has come since (`eraseAt`).  A key that is erased and inserted again
counts as the same element here, so this is for programs that do not do both
while they hold an iterator to it.

What matters of a series of insertions is their number: an iterator outlives
them exactly if the map has room for them all (`Inserts.valid_iff`).
-/

import Mathlib.Data.List.AList

namespace BearRpc
namespace Theory

/-- How a library lets its hash maps grow. -/
structure Growth where
  /-- the elements that a new map has room for -/
  initial : ℕ
  /-- the elements that a map has room for after a rehashing, from its size and
  its room before -/
  next : ℕ → ℕ → ℕ
  /-- there is room for the element inserted -/
  lt_next : ∀ size room, size < next size room

/-- A hash map: its elements, the elements it has room for, and its rehashings. -/
structure UnorderedMap (ι κ : Type*) where
  entries : AList fun _ : ι => κ
  room : ℕ
  rehashes : ℕ
  /-- a map has room for its elements -/
  size_le : entries.keys.length ≤ room

namespace UnorderedMap

variable {ι κ : Type*} (growth : Growth)

/-- A new map. -/
def empty : UnorderedMap ι κ := ⟨∅, growth.initial, 0, Nat.zero_le _⟩

/-- `m.size()` -/
def size (m : UnorderedMap ι κ) : ℕ := m.entries.keys.length

instance : Membership ι (UnorderedMap ι κ) := ⟨fun m k => k ∈ m.entries⟩

/-- An iterator: the key of its element, and the rehashings before it was made. -/
structure Iterator (ι : Type*) where
  key : ι
  rehashes : ℕ

variable [DecidableEq ι]

instance (k : ι) (m : UnorderedMap ι κ) : Decidable (k ∈ m) :=
  inferInstanceAs (Decidable (k ∈ m.entries))

/-- The element under a key. -/
def lookup (m : UnorderedMap ι κ) (k : ι) : Option κ := m.entries.lookup k

/-- `m.find(k)`, with the element: `none` for `m.end()`. -/
def find (m : UnorderedMap ι κ) (k : ι) : Option (Iterator ι × κ) :=
  (m.lookup k).map fun v => (⟨k, m.rehashes⟩, v)

/-- An iterator that has been invalidated neither by a rehashing nor with its
element. -/
def Valid (m : UnorderedMap ι κ) (it : Iterator ι) : Prop := it.key ∈ m ∧ it.rehashes = m.rehashes

instance (m : UnorderedMap ι κ) (it : Iterator ι) : Decidable (m.Valid it) :=
  inferInstanceAs (Decidable (_ ∧ _))

/-- An insertion is no larger than by one. -/
theorem length_keys_insert_le (s : AList fun _ : ι => κ) (k : ι) (v : κ) :
    (s.insert k v).keys.length ≤ s.keys.length + 1 := by
  rw [AList.keys_insert, List.length_cons]
  exact Nat.succ_le_succ List.length_erase_le

/-- Under a key of the map, an insertion replaces the element. -/
theorem length_keys_insert_of_mem {s : AList fun _ : ι => κ} {k : ι} (hk : k ∈ s) (v : κ) :
    (s.insert k v).keys.length = s.keys.length := by
  have hpos : 0 < s.keys.length := List.length_pos_of_mem (AList.mem_keys.1 hk)
  rw [AList.keys_insert, List.length_cons, List.length_erase_of_mem (AList.mem_keys.1 hk)]
  omega

/-- Under a new key, it adds one. -/
theorem length_keys_insert_of_notMem {s : AList fun _ : ι => κ} {k : ι} (hk : k ∉ s) (v : κ) :
    (s.insert k v).keys.length = s.keys.length + 1 := by
  rw [AList.keys_insert, List.length_cons, List.erase_of_not_mem (fun h => hk (AList.mem_keys.2 h))]

/-- `m[k] = v`: the map is rehashed where it has no room for a new element. -/
def set (m : UnorderedMap ι κ) (k : ι) (v : κ) : UnorderedMap ι κ :=
  if h : k ∈ m then
    { m with
      entries := m.entries.insert k v
      size_le := le_of_eq_of_le (length_keys_insert_of_mem h v) m.size_le }
  else if h : m.size < m.room then
    { m with
      entries := m.entries.insert k v
      size_le := le_trans (length_keys_insert_le _ k v) h }
  else
    { entries := m.entries.insert k v
      room := growth.next m.size m.room
      rehashes := m.rehashes + 1
      size_le := le_trans (length_keys_insert_le _ k v) (growth.lt_next _ _) }

/-- `m.erase(k)` -/
def erase (m : UnorderedMap ι κ) (k : ι) : UnorderedMap ι κ :=
  { m with
    entries := m.entries.erase k
    size_le := by
      rw [AList.keys_erase]
      exact le_trans List.length_erase_le m.size_le }

/-- `m.erase(it)`, which is defined for a valid iterator. -/
def eraseAt (m : UnorderedMap ι κ) (it : Iterator ι) : Option (UnorderedMap ι κ) :=
  if m.Valid it then some (m.erase it.key) else none

/-- `m'` is `m` after `n` insertions of new elements. -/
inductive Inserts (m : UnorderedMap ι κ) : ℕ → UnorderedMap ι κ → Prop
  | none : Inserts m 0 m
  | more {n m' k v} : Inserts m n m' → k ∉ m' → Inserts m (n + 1) (m'.set growth k v)

variable {growth} {m m' : UnorderedMap ι κ} {k j : ι} {v : κ} {n : ℕ}

/-! ### Elements -/

/-- A key is in the map if there is an element under it. -/
theorem mem_iff_exists : k ∈ m ↔ ∃ v, m.lookup k = some v := by
  show k ∈ m.entries ↔ _
  rw [lookup, ← AList.lookup_isSome, Option.isSome_iff_exists]

/-- Whether or not the map is rehashed, the element is there. -/
theorem entries_set (m : UnorderedMap ι κ) (k : ι) (v : κ) :
    (m.set growth k v).entries = m.entries.insert k v := by
  unfold set
  split_ifs <;> rfl

/-- The element set is there. -/
@[simp] theorem lookup_set_self (m : UnorderedMap ι κ) (k : ι) (v : κ) :
    (m.set growth k v).lookup k = some v := by
  rw [lookup, entries_set, AList.lookup_insert]

/-- The other elements are left as they are. -/
theorem lookup_set_of_ne (h : j ≠ k) : (m.set growth k v).lookup j = m.lookup j := by
  rw [lookup, entries_set, AList.lookup_insert_ne h, lookup]

@[simp] theorem lookup_erase_self (m : UnorderedMap ι κ) (k : ι) : (m.erase k).lookup k = none :=
  AList.lookup_erase k _

/-- Erasing an element leaves the others as they are. -/
theorem lookup_erase_of_ne (h : j ≠ k) : (m.erase k).lookup j = m.lookup j :=
  AList.lookup_erase_ne h

/-- What `find` gives is a valid iterator and its element. -/
theorem find_eq_some_iff {it : Iterator ι} :
    m.find k = some (it, v) ↔ m.lookup k = some v ∧ it = ⟨k, m.rehashes⟩ := by
  rw [find, Option.map_eq_some_iff]
  constructor
  · rintro ⟨w, hw, h⟩
    cases h
    exact ⟨hw, rfl⟩
  · rintro ⟨hv, rfl⟩
    exact ⟨v, hv, rfl⟩

/-- `find` gives `end()` exactly if there is no element under the key. -/
theorem find_eq_none_iff : m.find k = none ↔ m.lookup k = none := by
  rw [find, Option.map_eq_none_iff]

/-- Erasing through a valid iterator is erasing under its key. -/
theorem eraseAt_of_valid {it : Iterator ι} (h : m.Valid it) :
    m.eraseAt it = some (m.erase it.key) :=
  if_pos h

theorem eraseAt_of_not_valid {it : Iterator ι} (h : ¬ m.Valid it) : m.eraseAt it = none := if_neg h

/-! ### Series of insertions -/

/-- A new element makes the map larger by one. -/
theorem size_set_of_notMem (h : k ∉ m) : (m.set growth k v).size = m.size + 1 := by
  rw [size, entries_set, length_keys_insert_of_notMem h, size]

/-- A new element for which there is room does not rehash the map. -/
theorem set_of_room (growth : Growth) (h : k ∉ m) (hroom : m.size < m.room) (v : κ) :
    (m.set growth k v).room = m.room ∧ (m.set growth k v).rehashes = m.rehashes := by
  rw [set, dif_neg h, dif_pos hroom]
  exact ⟨rfl, rfl⟩

/-- A new element for which there is none does. -/
theorem rehashes_set_of_full (h : k ∉ m) (hfull : ¬ m.size < m.room) :
    (m.set growth k v).rehashes = m.rehashes + 1 := by
  rw [set, dif_neg h, dif_neg hfull]

/-- Insertions rehash the map unless it has room for all of them. -/
theorem Inserts.rehashes_eq_iff (h : Inserts growth m n m') : m'.size = m.size + n ∧
    m.rehashes ≤ m'.rehashes ∧ (m.size + n ≤ m.room → m'.room = m.room) ∧
      (m'.rehashes = m.rehashes ↔ m.size + n ≤ m.room) := by
  induction h with
  | none => exact ⟨rfl, le_rfl, fun _ => rfl, iff_of_true rfl m.size_le⟩
  | @more n m' k v _ hk ih =>
    obtain ⟨hsize, hle, hroom, hiff⟩ := ih
    rw [size_set_of_notMem hk]
    by_cases hfree : m'.size < m'.room
    · obtain ⟨hr, hs⟩ := set_of_room growth hk hfree v
      rw [hr, hs, hiff]
      refine ⟨by omega, hle, fun h => hroom (by omega), fun h => ?_, fun h => by omega⟩
      have := hroom h
      omega
    · rw [rehashes_set_of_full hk hfree]
      have hfull : ¬ m.size + (n + 1) ≤ m.room := by
        intro h
        have := hroom (by omega)
        omega
      exact ⟨by omega, by omega, fun h => absurd h hfull, iff_of_false (by omega) hfull⟩

/-- The elements stay through insertions of new ones. -/
theorem Inserts.lookup (h : Inserts growth m n m') (hk : m.lookup k = some v) :
    m'.lookup k = some v := by
  induction h with
  | none => exact hk
  | @more n m' j w _ hj ih =>
    have hne : k ≠ j := by
      rintro rfl
      exact hj (mem_iff_exists.2 ⟨v, ih⟩)
    rw [lookup_set_of_ne hne, ih]

/-- **An iterator outlives insertions exactly if the map has room for them all**: the first
one that has no room makes the map rehash, and no later one makes the iterator valid again.
-/
theorem Inserts.valid_iff (h : Inserts growth m n m') (hk : m.lookup k = some v) :
    m'.Valid ⟨k, m.rehashes⟩ ↔ m.size + n ≤ m.room := by
  rw [← h.rehashes_eq_iff.2.2.2]
  constructor
  · exact fun hvalid => hvalid.2.symm
  · exact fun heq => ⟨mem_iff_exists.2 ⟨v, h.lookup hk⟩, heq.symm⟩

end UnorderedMap
end Theory
end BearRpc
