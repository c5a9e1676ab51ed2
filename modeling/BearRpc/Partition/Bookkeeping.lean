/-
# The bookkeeping of a partition

`mergeBlock` adds a node to `NodeList` and to the keys of `NodeViewed` behind a test for
duplicates, but it adds the length of a layer to `size` without one
(`src/partition/GraphPartitionAlgo.cpp`, lines 58 to 71).

So the nodes are right in any case (`mem_mergeBlocks`, `nodup_mergeBlocks`), and `size` is
the number of the places, as an `int`.  It is the number of the nodes if and only if this
is an `int` and no node is in two places of the blocks merged, or full turns of the counter
of them are (`bookkept_iff`).
-/

import BearRpc.Partition.Assignment
import Mathlib.Data.Finset.Card

namespace BearRpc

open Theory

namespace Partition

/-- **The books are kept**: every node of the blocks once and no other, as a key as well,
and their number. -/
structure Bookkept (blocks : List Block) (p : Partition) : Prop where
  once : ∀ v ∈ occurrences blocks, p.nodeList.count v = 1
  only : ∀ v ∈ p.nodeList, v ∈ occurrences blocks
  keys : ∀ v, v ∈ p.nodeViewed ↔ v ∈ p.nodeList
  size : p.size = p.nodeList.length

/-- A partition with an id, as `Partition(ID, …)` makes it. -/
def newWith (partitionId : ℤ) : Partition := { new with partitionId := partitionId }

variable {p : Partition} {b : Block} {bs : List Block} {nodes : List ℕ} {v : ℕ}

/-! ### The nodes -/

/-- **All blocks**: their nodes are added, one block after the other, and the order of the
blocks does not matter for what is there in the end. -/
theorem mem_mergeBlocks :
    v ∈ (bs.foldl mergeBlock p).nodeList ↔ v ∈ p.nodeList ∨ v ∈ occurrences bs := by
  induction bs generalizing p with
  | nil => exact (or_iff_left List.not_mem_nil).symm
  | cons b bs ih =>
    have hcons : occurrences (b :: bs) = b.nodeList.flatten ++ occurrences bs := rfl
    rw [List.foldl_cons, ih, mem_mergeBlock, hcons, List.mem_append, or_assoc]

theorem nodup_mergeNode (h : p.nodeList.Nodup) : (p.mergeNode v).nodeList.Nodup := by
  unfold mergeNode
  split
  · exact h
  · next hviewed =>
    refine List.nodup_append.2 ⟨h, List.nodup_singleton v, fun u hu w hw => ?_⟩
    rw [List.mem_singleton.1 hw]
    rintro rfl
    exact hviewed ((p.viewed_iff u).2 hu)

/-- **The test for duplicates** keeps a node from being added twice: a node whose key is
there is passed over, so the list stays one without repetitions. -/
theorem nodup_mergeBlocks (h : p.nodeList.Nodup) : (bs.foldl mergeBlock p).nodeList.Nodup := by
  refine List.foldlRecOn (motive := fun q : Partition => q.nodeList.Nodup) bs mergeBlock
    h fun q hq b _ => ?_
  refine List.foldlRecOn (motive := fun r : Partition => r.nodeList.Nodup) b.nodeList mergeLayer
    hq fun r hr nodes _ => ?_
  exact List.foldlRecOn (motive := fun r : Partition => r.nodeList.Nodup) nodes mergeNode hr
    fun _ hr' _ _ => nodup_mergeNode hr'

/-! ### The counter -/

theorem size_mergeNode : (p.mergeNode v).size = p.size := by
  unfold mergeNode
  split <;> rfl

/-- **A layer adds its length to `size`**, whatever is in it: the nodes that are passed over
as duplicates are counted as well. -/
theorem size_mergeLayer : (p.mergeLayer nodes).size = toInt (p.size + nodes.length) :=
  List.foldlRecOn (motive := fun q : Partition => q.size = toInt (p.size + nodes.length)) nodes
    mergeNode rfl fun _ hq _ _ => size_mergeNode.trans hq

/-- A partition whose `size` is an `int`, behind a block. -/
theorem size_mergeBlock {k : ℤ} (h : p.size = toInt k) :
    (p.mergeBlock b).size = toInt (k + b.nodeList.flatten.length) := by
  have hfold : ∀ (layers : List (List ℕ)) (q : Partition), (layers.foldl mergeLayer q).size =
      layers.foldl (fun size nodes => toInt (size + nodes.length)) q.size := by
    intro layers
    induction layers with
    | nil => exact fun q => rfl
    | cons layer layers ih =>
      intro q
      rw [List.foldl_cons, ih, size_mergeLayer, List.foldl_cons]
  rw [← foldl_toInt_length, ← h]
  exact hfold _ _

/-- **`size` counts places**, not nodes: a node that is in several blocks is counted once
for each, and all that as an `int`. -/
theorem size_mergeBlocks {k : ℤ} (h : p.size = toInt k) :
    (bs.foldl mergeBlock p).size = toInt (k + (occurrences bs).length) := by
  induction bs generalizing p k with
  | nil => exact h.trans (congrArg toInt (Int.add_zero k).symm)
  | cons b bs ih =>
    have hcons : occurrences (b :: bs) = b.nodeList.flatten ++ occurrences bs := rfl
    rw [List.foldl_cons, ih (size_mergeBlock h), hcons, List.length_append,
      Int.natCast_add, Int.add_assoc]

/-- **The size of a new partition**, behind its blocks: the number of their places,
converted to an `int`. -/
theorem size_mergeBlocks_new (partitionId : ℤ) (bs : List Block) :
    (bs.foldl mergeBlock (newWith partitionId)).size = toInt (occurrences bs).length := by
  rw [size_mergeBlocks (k := 0) rfl, Int.zero_add]

/-! ### Both -/

/-- A list without repetitions is as long as another one with the same members if and only
if that has no repetitions either. -/
theorem length_eq_iff_nodup {l l' : List ℕ} (hl : l.Nodup) (h : ∀ v, v ∈ l ↔ v ∈ l') :
    l'.length = l.length ↔ l'.Nodup := by
  have hset : l.toFinset = l'.toFinset := by
    ext v
    rw [List.mem_toFinset, List.mem_toFinset, h]
  calc l'.length = l.length
      ↔ l.toFinset.card = l'.length := by rw [List.toFinset_card_of_nodup hl, eq_comm]
    _ ↔ l'.toFinset.card = l'.length := by rw [hset]
    _ ↔ l'.Nodup := Multiset.toFinset_card_eq_card_iff_nodup (m := (l' : Multiset ℕ))

/-- **The places fit the nodes**: the nodes are no more than an `int` can count, and the
places that repeat one are full turns of it, none if the places are fewer than 2^32. -/
def Counted (blocks : List Block) : Prop :=
  (occurrences blocks).toFinset.card < 2 ^ 31 ∧
    2 ^ 32 ∣ (occurrences blocks).length - (occurrences blocks).toFinset.card

/-- **Below 2^32 places** no node is in two of them: only from there on can the surplus of
the places make a full turn of the `int`. -/
theorem counted_iff_nodup {blocks : List Block} (h : (occurrences blocks).length < 2 ^ 32) :
    Counted blocks ↔ (occurrences blocks).Nodup ∧ (occurrences blocks).length < 2 ^ 31 := by
  have hle := List.toFinset_card_le (occurrences blocks)
  have hnodup : (occurrences blocks).toFinset.card = (occurrences blocks).length ↔
      (occurrences blocks).Nodup :=
    Multiset.toFinset_card_eq_card_iff_nodup (m := (occurrences blocks : Multiset ℕ))
  rw [Counted, ← hnodup]
  omega

/-- **The books are kept if and only if the places fit the nodes.** After any blocks have
been merged into a new partition, it has each of their nodes once, as a key as well, and in
`size`, an `int` that grows by the length of each layer, their number, if and only if the
places that repeat a node make full turns of the `int`. -/
theorem bookkept_iff (partitionId : ℤ) (blocks : List Block) :
    Bookkept blocks (blocks.foldl mergeBlock (newWith partitionId)) ↔ Counted blocks := by
  have hmem : ∀ v, v ∈ (blocks.foldl mergeBlock (newWith partitionId)).nodeList ↔
      v ∈ occurrences blocks := fun v =>
    mem_mergeBlocks.trans (or_iff_right List.not_mem_nil)
  have hnodup : (blocks.foldl mergeBlock (newWith partitionId)).nodeList.Nodup :=
    nodup_mergeBlocks List.nodup_nil
  have hlength : (blocks.foldl mergeBlock (newWith partitionId)).nodeList.length =
      (occurrences blocks).toFinset.card := by
    rw [← List.toFinset_card_of_nodup hnodup]
    congr 1
    ext v
    rw [List.mem_toFinset, List.mem_toFinset, hmem]
  have hle := List.toFinset_card_le (occurrences blocks)
  have hsize : (blocks.foldl mergeBlock (newWith partitionId)).size =
      ((blocks.foldl mergeBlock (newWith partitionId)).nodeList.length : ℤ) ↔
        Counted blocks := by
    rw [size_mergeBlocks_new, toInt_eq_iff, hlength, Counted]
    omega
  rw [← hsize]
  refine ⟨Bookkept.size, fun h => ⟨fun v hv => ?_, fun v => (hmem v).1, viewed_iff _, h⟩⟩
  exact List.count_eq_one_of_mem hnodup ((hmem v).2 hv)

/-- Two seeds that are neighbours: each of their blocks has the second seed. -/
def adjacentSeeds : List Block :=
  [{ srcNodeID := 0, nodeList := [[0], [1]], nodeViewed := {0, 1} },
    { srcNodeID := 1, nodeList := [[1]], nodeViewed := {1} }]

/-- **`size` counts the shared node twice**: two blocks that both hold a node are merged,
and `size` is the sum of theirs. -/
theorem not_bookkept_adjacentSeeds :
    ¬ ∀ (partitionId : ℤ) (blocks : List Block),
      Bookkept blocks (blocks.foldl mergeBlock (newWith partitionId)) := by
  intro h
  have hsize := (h 0 adjacentSeeds).size
  exact absurd hsize (by decide)

end Partition
end BearRpc
