/-
# The adjacency map

`unordered_map<int,vector<int>>`, and what `fileToGraph` does to it with an edge that it
has read (`src/partition/GraphPartitionAlgo.cpp`, lines 80 to 92, and
`src/partition/graphCheck.cpp`, lines 9 to 21).

`operator[]` makes an empty list for a missing key, which is what `Table.get` gives
without an entry.
-/

import BearRpc.Theory.Table
import Mathlib.Data.Finset.Union
import Mathlib.Tactic.Ring

namespace BearRpc

open Theory

namespace Partition

/-- `unordered_map<int,vector<int>>` -/
abbrev NodeMap := Table ℤ (List ℤ)

/-- `node_map[key].push_back(value)` -/
def NodeMap.push (m : NodeMap) (key value : ℤ) : NodeMap := m.modify key (· ++ [value])

/-- What the body of `fileToGraph` does with an edge `src`, `dst`. -/
def storeEdge (node_map : NodeMap) (edge : ℤ × ℤ) : NodeMap :=
  (node_map.push edge.1 edge.2).push edge.2 edge.1

/-- The adjacency map of a list of edges. -/
def loadEdges (edges : List (ℤ × ℤ)) : NodeMap := edges.foldl storeEdge ∅

variable {m : NodeMap} {edges : List (ℤ × ℤ)} {edge : ℤ × ℤ} {key value u v : ℤ}

/-- Pushing a value puts it behind the others of its key, and leaves the other keys alone.
-/
theorem get_push : (m.push key value).get u = if u = key then m.get key ++ [value] else m.get u :=
  Table.get_modify

/-- The key then has a list. -/
@[simp] theorem mem_push : u ∈ m.push key value ↔ u = key ∨ u ∈ m := Table.mem_modify

/-- One value more. -/
theorem count_push : ((m.push key value).get u).count v =
    (m.get u).count v + [(key, value)].count (u, v) := by
  rw [get_push, List.count_singleton]
  by_cases hu : u = key
  · rw [if_pos hu, List.count_append, List.count_singleton, hu]
    simp
  · rw [if_neg hu, if_neg (by simp [Ne.symm hu]), Nat.add_zero]

/-- **An edge is stored in both directions**, a loop twice: the list of each end gets the
other end, one entry more than before. -/
theorem count_storeEdge : ((storeEdge m edge).get u).count v =
    (m.get u).count v + [edge].count (u, v) + [edge].count (v, u) := by
  obtain ⟨src, dst⟩ := edge
  have hswap : [(dst, src)].count (u, v) = [(src, dst)].count (v, u) := by
    rw [List.count_singleton, List.count_singleton]
    simp only [beq_iff_eq, Prod.mk.injEq, and_comm]
  rw [storeEdge, count_push, count_push, hswap]

/-- **The multiplicity in the adjacency map** is that of the edge, in both directions: edges
that come up more than once are stored as often. -/
theorem count_foldl_storeEdge : ((edges.foldl storeEdge m).get u).count v =
    (m.get u).count v + edges.count (u, v) + edges.count (v, u) := by
  induction edges generalizing m with
  | nil => rfl
  | cons edge edges ih =>
    have hcons : ∀ e, (edge :: edges).count e = [edge].count e + edges.count e := fun e => by
      rw [← List.count_append]
      rfl
    rw [List.foldl_cons, ih, count_storeEdge, hcons, hcons]
    ring

/-- **The list of a node holds its neighbours**, each as often as there is an edge to it or
from it; `fileToGraph` starts with an empty map. -/
theorem count_loadEdges :
    ((loadEdges edges).get u).count v = edges.count (u, v) + edges.count (v, u) := by
  rw [loadEdges, count_foldl_storeEdge, Table.get_empty]
  exact congrArg (· + _) (Nat.zero_add _)

/-- The endpoints of the edges. -/
def endpoints (edges : List (ℤ × ℤ)) : List ℤ := edges.flatMap fun e => [e.1, e.2]

/-- The nodes that have a list are those that are on an edge. -/
theorem mem_foldl_storeEdge :
    u ∈ edges.foldl storeEdge m ↔ u ∈ m ∨ u ∈ endpoints edges := by
  induction edges generalizing m with
  | nil => exact (or_iff_left List.not_mem_nil).symm
  | cons edge edges ih =>
    have hcons : endpoints (edge :: edges) = [edge.1, edge.2] ++ endpoints edges := rfl
    rw [List.foldl_cons, ih, storeEdge, mem_push, mem_push, hcons, List.mem_append, List.mem_pair]
    simp only [or_assoc, or_comm, or_left_comm]

/-- **The keys are the endpoints** of the edges: a node without an edge has no entry,
whatever its number is. -/
theorem mem_loadEdges : u ∈ loadEdges edges ↔ u ∈ endpoints edges := by
  rw [loadEdges, mem_foldl_storeEdge]
  exact or_iff_right (AList.notMem_empty u)

/-- **The size of the map** is the number of distinct endpoints, which is what `main` takes
for the number of nodes. -/
theorem size_loadEdges : (loadEdges edges).size = (endpoints edges).toFinset.card := by
  rw [← Table.card_keys]
  congr 1
  ext u
  rw [List.mem_toFinset, List.mem_toFinset, ← AList.mem_keys, mem_loadEdges]

end Partition
end BearRpc
