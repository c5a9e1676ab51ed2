/-
# Adjacent seeds

A seed is marked in `viewedTable` when its own block is opened.  A neighbour of it
that is a seed further back is still free then, and is claimed; when its turn comes
it gets a block of its own in spite of that, and its entry is overwritten.  So the
blocks share a node if two seeds are adjacent, and `viewedTable` and the sizes
disagree with them (`not_exclusive_adjacentSeeds`); if no two are, the blocks are a
partition of the nodes that the seeds reach (`nodeBlockConstruct_exclusive_iff`).

The number of the nodes is an `int`, as `nodeNumber` and `BlockSize` are.
-/

import BearRpc.Partition.Layers
import Mathlib.Data.Set.Card

namespace BearRpc

open Theory

namespace Partition

/-- **The blocks are a partition**: every node is in one place, `viewedTable` names
its block, and the sizes add up. -/
structure Exclusive (nodeMap : ℕ → List ℕ) (seeds : List ℕ) (t : List ℤ) (bs : List Block) :
    Prop where
  once : (occurrences bs).Nodup
  owner : ∀ b ∈ bs, ∀ v ∈ b.nodeList.flatten, t[v]? = some (b.srcNodeID : ℤ)
  sizes : (bs.map (·.blockSize)).sum =
    ({v | ∃ s ∈ seeds, (graph nodeMap).Reachable s v}.ncard : ℤ)

variable {nodeMap : ℕ → List ℕ} {n v : ℕ} {seeds : List ℕ} {t : List ℤ} {b c : Block}
  {bs : List Block} {slots : List Slot}

/-- The size of a block is the number of its places, as an `int`. -/
theorem blockSize_of_mem_refactored (hb : b ∈ refactored slots) :
    b.blockSize = toInt b.nodeList.flatten.length := by
  obtain ⟨c, -, index, rfl⟩ := mem_refactored hb
  exact c.blockSize_refactorBlock index

/-- Sizes that are the numbers of places. -/
theorem sum_blockSize_of_eq (h : ∀ b ∈ bs, b.blockSize = (b.nodeList.flatten.length : ℤ)) :
    (bs.map (·.blockSize)).sum = ((occurrences bs).length : ℤ) := by
  induction bs with
  | nil => rfl
  | cons b bs ih =>
    have hcons : occurrences (b :: bs) = b.nodeList.flatten ++ occurrences bs := rfl
    rw [List.map_cons, List.sum_cons, h b List.mem_cons_self,
      ih fun c hc => h c (List.mem_cons_of_mem b hc), hcons, List.length_append, Int.natCast_add]

/-- **The sizes count the places**, where these fit in an `int`: each block is measured
once, behind the last round. -/
theorem sum_blockSize (hint : (occurrences (blocksOf slots)).length < 2 ^ 31) :
    ((refactored slots).map (·.blockSize)).sum = ((occurrences (blocksOf slots)).length : ℤ) := by
  rw [← occurrences_refactored] at hint ⊢
  refine sum_blockSize_of_eq fun b hb => ?_
  have hmem : b.nodeList.flatten ∈ (refactored slots).map fun b => b.nodeList.flatten :=
    List.mem_map_of_mem hb
  have hle : b.nodeList.flatten.length ≤ (occurrences (refactored slots)).length :=
    (List.sublist_flatten_of_mem hmem).length_le
  rw [blockSize_of_mem_refactored hb]
  exact toInt_eq_self (by omega) (by omega)

/-- Where no node is in two places, blocks that share a node are the same. -/
theorem eq_of_mem_flatten (hnd : (occurrences bs).Nodup) (hb : b ∈ bs) (hc : c ∈ bs)
    (hvb : v ∈ b.nodeList.flatten) (hvc : v ∈ c.nodeList.flatten) : b = c := by
  by_contra hne
  have hdisjoint := (List.nodup_flatMap.1 hnd).2
  have hpair : List.Disjoint b.nodeList.flatten c.nodeList.flatten := by
    have : Std.Symm (Function.onFun List.Disjoint fun b : Block => b.nodeList.flatten) :=
      ⟨fun _ _ h => h.symm⟩
    exact hdisjoint.forall hb hc hne
  exact hpair hvb hvc

/-- `viewedTable` names the blocks of the seeds too, where no node is in two places. -/
theorem Placed.owner_of_nodup (h : Placed n nodeMap seeds seeds t bs)
    (hnd : (occurrences bs).Nodup) (hb : b ∈ bs) (hv : v ∈ b.nodeList.flatten) :
    t[v]? = some (b.srcNodeID : ℤ) := by
  by_cases hseed : v ∈ seeds
  · have hsrc := hseed
    rw [← h.src] at hsrc
    obtain ⟨c, hc, rfl⟩ := List.mem_map.1 hsrc
    have hvc := mem_flatten_of_layer (h.first_layer hc) (List.mem_singleton_self _)
    rw [eq_of_mem_flatten hnd hb hc hv hvc]
    exact h.seeded _ hseed
  · exact h.owner b hb v hv hseed

/-- No more places than nodes, where no node is in two of them. -/
theorem Placed.length_le_of_nodup {opened : List ℕ} (h : Placed n nodeMap seeds opened t bs)
    (hnd : (occurrences bs).Nodup) : (occurrences bs).length ≤ n := by
  have hsub : (occurrences bs).toFinset ⊆ Finset.range n := fun v hv =>
    Finset.mem_range.2 (h.inRange v (List.mem_toFinset.1 hv))
  have hcard := Finset.card_le_card hsub
  rwa [List.toFinset_card_of_nodup hnd, Finset.card_range] at hcard

/-- **The blocks are a partition if and only if no two seeds are adjacent.** For every
symmetric map of fewer than `2 ^ 31` nodes and distinct seeds: each node is in one place,
`viewedTable` names its block and the sizes add up to the number of nodes reached, unless a
seed is a neighbour of another one and so is claimed by its block too. -/
theorem nodeBlockConstruct_exclusive_iff (hint : n < 2 ^ 31) (hg : Undirected n nodeMap)
    (hnd : seeds.Nodup) (hlt : ∀ s ∈ seeds, s < n) (classes : List (List ℕ)) :
    ∃ t bs, (∀ fuel, n < fuel →
      nodeBlockConstruct nodeMap fuel (seeds :: classes) [] (List.replicate n (-1)) = .ok (t, bs)) ∧
        (Exclusive nodeMap seeds t bs ↔ Apart nodeMap seeds) := by
  obtain ⟨t, slots, h, hcall⟩ := exists_nodeBlockConstruct hg hnd hlt classes
  refine ⟨t, refactored slots, hcall, fun hex => ?_, fun hapart => ?_⟩
  · rw [← h.placed.once, ← occurrences_refactored]
    exact hex.once
  · have honce := h.placed.once.2 hapart
    refine ⟨?_, fun b hb v hv => ?_, ?_⟩
    · rw [occurrences_refactored]
      exact honce
    · obtain ⟨c, hc, index, rfl⟩ := mem_refactored hb
      have howner := h.placed.owner_of_nodup (v := v) honce hc hv
      exact howner
    · have hset : {v | ∃ s ∈ seeds, (graph nodeMap).Reachable s v} =
          ((occurrences (blocksOf slots)).toFinset : Set ℕ) := by
        ext v
        rw [Finset.mem_coe, List.mem_toFinset, h.reached v]
        exact Distance.toSources_ne_top.symm
      rw [sum_blockSize ((h.placed.length_le_of_nodup honce).trans_lt hint), hset,
        Set.ncard_coe_finset, List.toFinset_card_of_nodup honce]

/-- The hypotheses of `nodeBlockConstruct_exclusive_iff` are satisfiable: the two ends of a
path of three nodes are the seeds. -/
theorem nodeBlockConstruct_exclusive_iff_path : ∃ t bs, (∀ fuel, 3 < fuel →
    nodeBlockConstruct path fuel [[0, 2]] [] (List.replicate 3 (-1)) = .ok (t, bs)) ∧
      (Exclusive path [0, 2] t bs ↔ Apart path [0, 2]) :=
  nodeBlockConstruct_exclusive_iff (by decide) undirected_path (by decide) (by decide) []

/-- **Adjacent seeds** share a node: the second one is in a block of its own, and in the
block of the first as well. -/
theorem not_exclusive_adjacentSeeds :
    ¬ ∀ (n : ℕ) (nodeMap : ℕ → List ℕ) (seeds : List ℕ), n < 2 ^ 31 → Undirected n nodeMap →
      seeds.Nodup → (∀ s ∈ seeds, s < n) → ∃ t bs, (∀ fuel, n < fuel →
        nodeBlockConstruct nodeMap fuel [seeds] [] (List.replicate n (-1)) = .ok (t, bs)) ∧
          Exclusive nodeMap seeds t bs := by
  intro h
  obtain ⟨t, bs, hcall, hex⟩ := h 3 path [0, 1] (by decide) undirected_path (by decide)
    (by decide)
  have hresult : (nodeBlockConstruct path 4 [[0, 1]] [] (List.replicate 3 (-1))).map
      (fun r => occurrences r.2) = .ok [0, 1, 1, 2] := rfl
  rw [hcall 4 (by decide)] at hresult
  have hocc : occurrences bs = [0, 1, 1, 2] := Except.ok.inj hresult
  exact absurd hex.once (by rw [hocc]; decide)

end Partition
end BearRpc
