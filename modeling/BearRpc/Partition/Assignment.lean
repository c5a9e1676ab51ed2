/-
# From blocks to partitions

`Partition::mergeBlock`, `BlockSort` and `BlockToPartition`
(`src/partition/GraphPartitionAlgo.cpp`, lines 36 to 71 and 211 to 256).

`BlockToPartition` sorts the blocks by their size, makes `partNumber` partitions and
merges the blocks 0 and 2 into the first and the blocks 1 and 3 into the second one,
whatever the number of blocks and of partitions is.  So every block gets its partition
if and only if there are four blocks and at least two partitions
(`blockToPartition_conserves_iff`).

`std::sort` may leave equal blocks in any order, so `BlockSort` is a relation.  The
calls of `mergeBlock` are recorded in `merged`, which the code does not have.
-/

import BearRpc.Partition.Reach
import Mathlib.Data.List.Sort

namespace BearRpc

open Theory

/-- `class Partition`, without the bounds that nothing reads.  `nodeViewed` has the keys
of `NodeViewed`: only `mergeBlock` writes it, together with `nodeList`. -/
structure Partition where
  partitionId : ℤ := -1
  nodeViewed : Finset ℕ := ∅
  nodeList : List ℕ := []
  size : ℤ := 0
  trainSize : ℕ := 0
  valSize : ℕ := 0
  testSize : ℕ := 0
  viewed_iff : ∀ v, v ∈ nodeViewed ↔ v ∈ nodeList := by simp

namespace Partition

/-- A partition as `Partition()` makes it. -/
def new : Partition := {}

/-- The body of the inner loop of `mergeBlock` -/
def mergeNode (p : Partition) (node : ℕ) : Partition :=
  if node ∈ p.nodeViewed then p
  else
    { p with
      nodeViewed := insert node p.nodeViewed
      nodeList := p.nodeList ++ [node]
      viewed_iff := fun v => by simp [p.viewed_iff, or_comm] }

/-- The body of the outer loop of `mergeBlock`.  The sum of `size` and the length is a
`size_t`, and is converted back. -/
def mergeLayer (p : Partition) (nodes : List ℕ) : Partition :=
  nodes.foldl mergeNode { p with size := toInt (p.size + nodes.length) }

/-- `mergeBlock(block)` -/
def mergeBlock (p : Partition) (block : Block) : Partition :=
  block.nodeList.foldl mergeLayer
    { p with
      trainSize := p.trainSize + block.trainNodeNumber
      valSize := p.valSize + block.valNodeNumber
      testSize := p.testSize + block.testNodeNumber }

/-- `BlockSort(blocks)`: `std::sort` leaves a permutation that the comparison orders. -/
structure BlockSort (blocks sorted : List Block) : Prop where
  perm : sorted.Perm blocks
  ordered : sorted.Pairwise fun a b => ¬ b.blockSize > a.blockSize

/-- The partitions, and the calls `partitions[i].mergeBlock(blocks[j])` so far. -/
structure Assignment where
  partitions : List Partition
  merged : List (ℕ × ℕ)

/-- `partitions[i].mergeBlock(blocks[j])` -/
def merge (blocks : List Block) (a : Assignment) (i j : ℕ) : Except Fault Assignment :=
  match a.partitions[i]?, blocks[j]? with
  | some p, some b => .ok ⟨a.partitions.set i (p.mergeBlock b), a.merged ++ [(i, j)]⟩
  | _, _ => .error .outOfRange

/-- `partitions.resize(partNumber, partition)`, and the loop that numbers them. -/
def resized (partitions : List Partition) (partNumber : ℕ) : List Partition :=
  (partitions.take partNumber ++ List.replicate (partNumber - partitions.length) new).mapIdx
    fun i p => { p with partitionId := i }

/-- `BlockToPartition(blocks, partitions, partNumber)` behind `BlockSort(blocks)` -/
def blockToPartition (blocks : List Block) (partitions : List Partition) (partNumber : ℕ) :
    Except Fault Assignment := do
  let a ← merge blocks ⟨resized partitions partNumber, []⟩ 0 0
  let a ← merge blocks a 0 2
  let a ← merge blocks a 1 1
  merge blocks a 1 3

/-- Every block merged is held by its partition. -/
def Held (blocks : List Block) (a : Assignment) : Prop :=
  ∀ c ∈ a.merged, ∃ p b, a.partitions[c.1]? = some p ∧ blocks[c.2]? = some b ∧
    ∀ v ∈ b.nodeList.flatten, v ∈ p.nodeList

/-- **No node is lost**: every block is merged once, into a partition that holds its
nodes then, and every node that a seed reaches is in a partition. -/
structure Conserves (nodeMap : ℕ → List ℕ) (seeds : List ℕ) (blocks : List Block)
    (a : Assignment) : Prop where
  once : ∀ j < blocks.length, (a.merged.map Prod.snd).count j = 1
  held : Held blocks a
  reached : ∀ v, Reached nodeMap seeds v → ∃ p ∈ a.partitions, v ∈ p.nodeList

variable {nodeMap : ℕ → List ℕ} {n v i j : ℕ} {seeds nodes : List ℕ} {p : Partition} {b : Block}
  {bs sorted : List Block} {a a' : Assignment}

/-! ### What a partition holds -/

theorem mem_mergeNode {node : ℕ} :
    v ∈ (p.mergeNode node).nodeList ↔ v ∈ p.nodeList ∨ v = node := by
  unfold mergeNode
  split
  · next hviewed =>
    refine ⟨.inl, fun h => h.elim id ?_⟩
    rintro rfl
    exact (p.viewed_iff v).1 hviewed
  · exact List.mem_append.trans (or_congr_right List.mem_singleton)

theorem mem_mergeLayer :
    v ∈ (p.mergeLayer nodes).nodeList ↔ v ∈ p.nodeList ∨ v ∈ nodes := by
  have hfold : ∀ (q : Partition), v ∈ (nodes.foldl mergeNode q).nodeList ↔
      v ∈ q.nodeList ∨ v ∈ nodes := by
    induction nodes with
    | nil => exact fun q => (or_iff_left List.not_mem_nil).symm
    | cons node nodes ih =>
      intro q
      rw [List.foldl_cons, ih, mem_mergeNode, List.mem_cons, or_assoc]
  exact hfold _

/-- **The nodes of the block are added** to the partition, whatever its layers are, and none
of the old ones is lost. -/
theorem mem_mergeBlock :
    v ∈ (p.mergeBlock b).nodeList ↔ v ∈ p.nodeList ∨ v ∈ b.nodeList.flatten := by
  have hfold : ∀ (layers : List (List ℕ)) (q : Partition),
      v ∈ (layers.foldl mergeLayer q).nodeList ↔ v ∈ q.nodeList ∨ v ∈ layers.flatten := by
    intro layers
    induction layers with
    | nil => exact fun q => (or_iff_left List.not_mem_nil).symm
    | cons layer layers ih =>
      intro q
      rw [List.foldl_cons, ih, mem_mergeLayer, List.flatten_cons, List.mem_append, or_assoc]
  exact hfold _ _

/-! ### The calls of `mergeBlock` -/

/-- **A call inside of both vectors** merges the block, and keeps what is held: no partition
loses a node, and the one that is merged into has those of the block. -/
theorem exists_merge (hi : i < a.partitions.length) (hj : j < bs.length) (h : Held bs a) :
    ∃ a', merge bs a i j = .ok a' ∧ a'.partitions.length = a.partitions.length ∧
      a'.merged = a.merged ++ [(i, j)] ∧ Held bs a' := by
  have hp : a.partitions[i]? = some a.partitions[i] := List.getElem?_eq_getElem hi
  have hb : bs[j]? = some bs[j] := List.getElem?_eq_getElem hj
  refine ⟨⟨a.partitions.set i (a.partitions[i].mergeBlock bs[j]), a.merged ++ [(i, j)]⟩,
    by rw [merge, hp, hb], List.length_set, rfl, fun c hc => ?_⟩
  have hself := List.getElem?_set_self (a := a.partitions[i].mergeBlock bs[j]) hi
  rcases List.mem_append.1 hc with hc | hc
  · obtain ⟨p, b, hcp, hcb, hmem⟩ := h c hc
    by_cases hci : i = c.1
    · subst hci
      rw [hp] at hcp
      cases hcp
      exact ⟨_, b, hself, hcb, fun v hv => mem_mergeBlock.2 (.inl (hmem v hv))⟩
    · exact ⟨p, b, (List.getElem?_set_ne hci).trans hcp, hcb, hmem⟩
  · cases List.mem_singleton.1 hc
    exact ⟨_, bs[j], hself, hb, fun v hv => mem_mergeBlock.2 (.inr hv)⟩

/-- A call that returns was inside of both vectors. -/
theorem lt_of_merge (h : merge bs a i j = .ok a') : i < a.partitions.length ∧ j < bs.length ∧
    a'.partitions.length = a.partitions.length := by
  unfold merge at h
  split at h
  · next hp hb =>
    cases h
    exact ⟨(List.getElem?_eq_some_iff.1 hp).1, (List.getElem?_eq_some_iff.1 hb).1, List.length_set⟩
  · cases h

theorem length_resized (ps : List Partition) (k : ℕ) : (resized ps k).length = k := by
  rw [resized, List.length_mapIdx, List.length_append, List.length_take, List.length_replicate]
  omega

/-- **Four blocks and two partitions are enough**: no access is outside of a vector, and
blocks 0 and 2 go into the first partition, 1 and 3 into the second, whatever else there is.
-/
theorem exists_blockToPartition (ps : List Partition) {k : ℕ} (hbs : 4 ≤ bs.length)
    (hk : 2 ≤ k) : ∃ a, blockToPartition bs ps k = .ok a ∧
      a.merged = [(0, 0), (0, 2), (1, 1), (1, 3)] ∧ Held bs a := by
  have hlen := length_resized ps k
  have hnil : Held bs ⟨resized ps k, []⟩ := nofun
  obtain ⟨a₁, h₁, hlen₁, hmerged₁, held₁⟩ := exists_merge (i := 0) (j := 0)
    (by dsimp only; omega) (by omega) hnil
  obtain ⟨a₂, h₂, hlen₂, hmerged₂, held₂⟩ := exists_merge (i := 0) (j := 2)
    (by dsimp only at hlen₁; omega) (by omega) held₁
  obtain ⟨a₃, h₃, hlen₃, hmerged₃, held₃⟩ := exists_merge (i := 1) (j := 1)
    (by dsimp only at hlen₁; omega) (by omega) held₂
  obtain ⟨a₄, h₄, -, hmerged₄, held₄⟩ := exists_merge (i := 1) (j := 3)
    (by dsimp only at hlen₁; omega) (by omega) held₃
  refine ⟨a₄, ?_, ?_, held₄⟩
  · rw [blockToPartition, h₁]
    change merge bs a₁ 0 2 >>= _ = _
    rw [h₂]
    change merge bs a₂ 1 1 >>= _ = _
    rw [h₃]
    exact h₄
  · rw [hmerged₄, hmerged₃, hmerged₂, hmerged₁]
    rfl

/-- **They are needed**: with fewer of either, one of the four calls of `merge` is outside
of a vector, so a call that returns has had them. -/
theorem le_of_blockToPartition {ps : List Partition} {k : ℕ}
    (h : blockToPartition bs ps k = .ok a) : 4 ≤ bs.length ∧ 2 ≤ k := by
  obtain ⟨a₁, h₁, h⟩ := exists_of_bind h
  obtain ⟨a₂, h₂, h⟩ := exists_of_bind h
  obtain ⟨a₃, h₃, h₄⟩ := exists_of_bind h
  obtain ⟨-, -, hlen₁⟩ := lt_of_merge h₁
  obtain ⟨-, -, hlen₂⟩ := lt_of_merge h₂
  obtain ⟨-, -, hlen₃⟩ := lt_of_merge h₃
  obtain ⟨hi, hj, -⟩ := lt_of_merge h₄
  have hk := length_resized ps k
  dsimp only at hlen₁
  omega

/-- **Where every block is merged once, there are four**: the fifth is merged nowhere, and
with three the call would not have returned. -/
theorem length_eq_four {ps : List Partition} {k : ℕ} (h : blockToPartition bs ps k = .ok a)
    (once : ∀ j < bs.length, (a.merged.map Prod.snd).count j = 1) : bs.length = 4 ∧ 2 ≤ k := by
  obtain ⟨hbs, hk⟩ := le_of_blockToPartition h
  obtain ⟨a', ha', hmerged, -⟩ := exists_blockToPartition ps hbs hk
  cases h.symm.trans ha'
  refine ⟨?_, hk⟩
  by_contra hne
  have hfifth := once 4 (by omega)
  rw [hmerged] at hfifth
  cases hfifth

/-! ### The composition -/

theorem mem_occurrences_of_perm (hs : BlockSort bs sorted) :
    v ∈ occurrences sorted ↔ v ∈ occurrences bs := by
  rw [mem_occurrences, mem_occurrences]
  exact exists_congr fun b => and_congr_left' hs.perm.mem_iff

/-- Where every block is merged once and held, the partitions have all the nodes. -/
theorem exists_partition (hheld : Held bs a)
    (once : ∀ j < bs.length, (a.merged.map Prod.snd).count j = 1) (hv : v ∈ occurrences bs) :
    ∃ p ∈ a.partitions, v ∈ p.nodeList := by
  obtain ⟨b, hb, hvb⟩ := mem_occurrences.1 hv
  obtain ⟨j, hj, rfl⟩ := List.getElem_of_mem hb
  have hmem : j ∈ a.merged.map Prod.snd :=
    List.count_pos_iff.1 (by rw [once j hj]; exact Nat.one_pos)
  obtain ⟨c, hc, rfl⟩ := List.mem_map.1 hmem
  obtain ⟨p, b, hp, hcb, hall⟩ := hheld c hc
  rw [List.getElem?_eq_getElem hj] at hcb
  cases hcb
  exact ⟨p, List.mem_of_getElem? hp, hall v hvb⟩

/-- **Every block gets its partition if and only if there are four blocks and at least two
partitions**, however `std::sort` orders blocks of the same size: behind the loop that gives
each block to the partition with the best score, the source puts the blocks 0 and 2, and 1
and 3, into the first two partitions and drops all others. -/
theorem blockToPartition_conserves_iff (hlt : ∀ v, Reached nodeMap seeds v → v < n)
    (classes : List (List ℕ)) :
    ∃ t bs, (∀ fuel, n < fuel →
      nodeBlockConstruct nodeMap fuel (seeds :: classes) [] (List.replicate n (-1)) = .ok (t, bs)) ∧
        ∀ sorted, BlockSort bs sorted → ∀ partNumber,
          ((∃ a, blockToPartition sorted [] partNumber = .ok a ∧
            Conserves nodeMap seeds sorted a) ↔ seeds.length = 4 ∧ 2 ≤ partNumber) := by
  obtain ⟨t, bs, hcall, hlen, hreached⟩ := exists_blocks hlt classes
  refine ⟨t, bs, hcall, fun sorted hs partNumber => ?_⟩
  have hsorted : sorted.length = seeds.length := hs.perm.length_eq.trans hlen
  constructor
  · rintro ⟨a, ha, hcons⟩
    obtain ⟨hfour, hk⟩ := length_eq_four ha hcons.once
    exact ⟨hsorted.symm.trans hfour, hk⟩
  · rintro ⟨hfour, hk⟩
    have hbs : 4 ≤ sorted.length := by omega
    obtain ⟨a, ha, hmerged, hheld⟩ := exists_blockToPartition [] hbs hk
    have honce : ∀ j < sorted.length, (a.merged.map Prod.snd).count j = 1 := by
      intro j hj
      have hfour : ∀ j < 4, ([(0, 0), (0, 2), (1, 1), (1, 3)].map Prod.snd).count j = 1 := by decide
      rw [hmerged]
      exact hfour j (by omega)
    refine ⟨a, ha, honce, hheld, fun v hv => ?_⟩
    rw [← hreached, ← mem_occurrences_of_perm hs] at hv
    exact exists_partition hheld honce hv

/-- Nodes without edges. -/
def isolated : ℕ → List ℕ := fun _ => []

theorem lt_of_reached_isolated {k : ℕ} (hv : Reached isolated (List.range k) v) : v < k := by
  obtain ⟨s, hs, hsv⟩ := hv
  cases hsv with
  | refl => exact List.mem_range.1 hs
  | tail _ hstep => cases hstep

/-- The hypothesis of `blockToPartition_conserves_iff` is satisfiable: four isolated
nodes, all of them seeds. -/
theorem blockToPartition_conserves_iff_isolated : ∃ t bs, (∀ fuel, 4 < fuel →
    nodeBlockConstruct isolated fuel [[0, 1, 2, 3]] [] (List.replicate 4 (-1)) = .ok (t, bs)) ∧
      ∀ sorted, BlockSort bs sorted → ∀ partNumber,
        ((∃ a, blockToPartition sorted [] partNumber = .ok a ∧
          Conserves isolated [0, 1, 2, 3] sorted a) ↔
            [0, 1, 2, 3].length = 4 ∧ 2 ≤ partNumber) :=
  blockToPartition_conserves_iff (fun _ => lt_of_reached_isolated) []

/-- **The fifth block is dropped**, and its node with it: five isolated seeds and two
partitions. -/
theorem not_conserves_fiveSeeds :
    ¬ ∀ (n : ℕ) (nodeMap : ℕ → List ℕ) (seeds : List ℕ) (partNumber : ℕ),
      (∀ v, Reached nodeMap seeds v → v < n) → 1 ≤ partNumber →
        ∃ t bs, (∀ fuel, n < fuel →
          nodeBlockConstruct nodeMap fuel [seeds] [] (List.replicate n (-1)) = .ok (t, bs)) ∧
            ∀ sorted, BlockSort bs sorted → ∃ a, blockToPartition sorted [] partNumber = .ok a ∧
              Conserves nodeMap seeds sorted a := by
  intro h
  obtain ⟨t, bs, hcall, hall⟩ :=
    h 5 isolated (List.range 5) 2 (fun _ => lt_of_reached_isolated) (by decide)
  have hresult : (nodeBlockConstruct isolated 6 [List.range 5] [] (List.replicate 5 (-1))).map
      (fun r => r.2.map (·.blockSize)) = .ok [1, 1, 1, 1, 1] := rfl
  rw [hcall 6 (by decide)] at hresult
  have hsizes : bs.map (·.blockSize) = [1, 1, 1, 1, 1] := Except.ok.inj hresult
  have hlen : bs.length = 5 := by
    rw [← List.length_map (·.blockSize), hsizes]
    rfl
  have hordered : bs.Pairwise fun a b => ¬ b.blockSize > a.blockSize := by
    have hpair : (bs.map (·.blockSize)).Pairwise fun x y => ¬ y > x := by
      rw [hsizes]
      decide
    exact List.pairwise_map.1 hpair
  obtain ⟨a, ha, hcons⟩ := hall bs ⟨List.Perm.refl bs, hordered⟩
  obtain ⟨hfour, -⟩ := length_eq_four ha hcons.once
  omega

end Partition
end BearRpc
