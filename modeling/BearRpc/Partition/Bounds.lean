/-
# Accesses to `viewedTable`

`main` makes `viewedTable` as long as `node_map`, which has one entry for each node that
is on an edge (`size_loadEdges`), and `NodeBlockConstruct` indexes it by the numbers of
the nodes (`src/partition/GraphPartitionAlgo.cpp`, lines 80 to 92, 138 to 209 and 258 to
284).

So every access is inside of `viewedTable` if and only if every node that a seed reaches
has a number below that size (`inBounds_iff`).  Numbers that leave gaps, or seeds without
an edge, break that.
-/

import BearRpc.Partition.NodeMap
import BearRpc.Partition.Turns

namespace BearRpc

open Theory

namespace Partition

/-- The adjacency map of `NodeBlockConstruct`, for nodes that are not negative. -/
def adjacency (node_map : NodeMap) (u : ℕ) : List ℕ := (node_map.get u).map Int.toNat

variable {nodeMap : ℕ → List ℕ} {n fuel fuel' v : ℕ} {seeds : List ℕ} {t t' : List ℤ}
  {bs : List Block} {classes : List (List ℕ)}

/-- Both steps keep the nodes of the blocks inside of `viewedTable`. -/
theorem kept_inRange : Kept nodeMap fun t slots =>
    t.length = n ∧ ∀ v ∈ occurrences (blocksOf slots), v < n where
  openSeed := fun {t bs s} h hs => by
    obtain ⟨hlen, hrange⟩ := h
    rw [blocksOf_activated] at hrange ⊢
    refine ⟨List.length_set.trans hlen, fun v hv => ?_⟩
    rw [occurrences_seedOnly, List.mem_append, List.mem_singleton] at hv
    rcases hv with hv | rfl
    · exact hrange v hv
    · exact hlen ▸ hs
  turn := fun {t l r b sc a} h hok _ => by
    obtain ⟨hlen, hrange⟩ := h
    obtain ⟨-, hgrown⟩ := grown_of_expand hok
    rw [blocksOf_append] at hrange ⊢
    refine ⟨hgrown.length.trans hlen, fun v hv => ?_⟩
    rcases List.mem_append.1 (hgrown.occurrences.mem_iff.1 hv) with hv | hv
    · exact hlen ▸ (List.getElem?_eq_some_iff.1 ((hgrown.mem v).1 hv).2).1
    · exact hrange v hv

/-- **A call that returns** has reached no node outside of `viewedTable`: the entry of every
node in a block has been written. -/
theorem lt_of_mem_blocks
    (h : nodeBlockConstruct nodeMap fuel (seeds :: classes) [] (List.replicate n (-1)) =
      .ok (t, bs)) (hv : v ∈ occurrences bs) : v < n := by
  obtain ⟨slots, rfl, ⟨-, hrange⟩, -⟩ :=
    (kept_inRange (n := n)).ofCall h ⟨List.length_replicate, nofun⟩
  rw [occurrences_refactored] at hv
  exact hrange v hv

/-- More fuel does not change the result of the call. -/
theorem nodeBlockConstruct_mono {r : Except Fault (List ℤ × List Block)} (hle : fuel ≤ fuel')
    (h : nodeBlockConstruct nodeMap fuel (seeds :: classes) [] t = r) (hr : r ≠ .error .fuel) :
    nodeBlockConstruct nodeMap fuel' (seeds :: classes) [] t = r := by
  unfold nodeBlockConstruct at h ⊢
  dsimp only [List.getElem?_cons_zero] at h ⊢
  rcases hseeds : seedBlocks nodeMap seeds t [] with e | ⟨t₁, bs₁⟩
  · rw [hseeds] at h
    exact h
  · rw [hseeds] at h
    change (rounds nodeMap fuel t₁ _ >>= _) = r at h
    change (rounds nodeMap fuel' t₁ _ >>= _) = r
    rcases hrounds : rounds nodeMap fuel t₁ (bs₁.map fun block => ⟨block, true⟩) with e | r₁
    · rw [hrounds] at h
      have hne : (.error e : Except Fault (List ℤ × List Slot)) ≠ .error .fuel := by
        rintro ⟨⟩
        exact hr h.symm
      rw [rounds_mono hle hrounds hne]
      exact h
    · rw [hrounds] at h
      rw [rounds_mono hle hrounds nofun]
      exact h

/-- **No access is outside of `viewedTable`** if and only if it has an entry for every node
that a seed reaches. -/
theorem nodeBlockConstruct_inBounds_iff (n : ℕ) (nodeMap : ℕ → List ℕ) (seeds : List ℕ)
    (classes : List (List ℕ)) :
    (∀ fuel, nodeBlockConstruct nodeMap fuel (seeds :: classes) [] (List.replicate n (-1)) ≠
      .error .outOfRange) ↔ ∀ v, Reached nodeMap seeds v → v < n := by
  constructor
  · intro h v hv
    rcases blocks_cases n nodeMap seeds classes with ⟨t, bs, hok, -, hreached⟩ | ⟨herror, -⟩
    · exact lt_of_mem_blocks (hok _ (Nat.lt_succ_self n)) ((hreached v).2 hv)
    · exact absurd (herror _ (Nat.lt_succ_self n)) (h _)
  · intro hlt fuel herror
    obtain ⟨t, bs, hok, -⟩ := exists_blocks hlt classes
    have hmax := nodeBlockConstruct_mono (Nat.le_max_left fuel (n + 1)) herror nofun
    rw [hok _ (Nat.lt_of_lt_of_le (Nat.lt_succ_self n) (Nat.le_max_right fuel (n + 1)))] at hmax
    cases hmax

/-- The edges of a file, as the reader has them. -/
def edgesOf (edges : List (ℕ × ℕ)) : List (ℤ × ℤ) := edges.map fun e => (↑e.1, ↑e.2)

/-- **When no access is out of range in `main`**, with the edges and the seeds of the files:
the table has an entry for each key of the map, so every node that a seed reaches has to be
smaller than the number of nodes that have an edge. -/
theorem inBounds_iff (edges : List (ℕ × ℕ)) (seeds : List ℕ) (classes : List (List ℕ)) :
    (∀ fuel, nodeBlockConstruct (adjacency (loadEdges (edgesOf edges))) fuel (seeds :: classes) []
      (List.replicate (loadEdges (edgesOf edges)).size (-1)) ≠ .error .outOfRange) ↔
    ∀ v, Reached (adjacency (loadEdges (edgesOf edges))) seeds v →
      v < (loadEdges (edgesOf edges)).size :=
  nodeBlockConstruct_inBounds_iff _ _ _ _

/-- **A gap in the numbers of the nodes**: the edge of the nodes 0 and 5 makes a table of
two entries, and the entry of the node 5 is the sixth one. -/
theorem not_inBounds_gap :
    ¬ ∀ (edges : List (ℕ × ℕ)) (seeds : List ℕ) (fuel : ℕ),
      nodeBlockConstruct (adjacency (loadEdges (edgesOf edges))) fuel [seeds] []
        (List.replicate (loadEdges (edgesOf edges)).size (-1)) ≠ .error .outOfRange := by
  intro h
  exact h [(0, 5)] [0] 1 (by decide)

end Partition
end BearRpc
