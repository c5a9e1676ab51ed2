/-
# The program that divides a graph

`main` of `src/partition/GraphPartitionAlgo.cpp` (lines 258 to 284): the edges of a file, a
block around each of four fixed nodes, and the blocks in two partitions.

The blocks are sorted by their size, and the first partition gets the first and the third of
them, the second one the second and the fourth.  On a file of edges between nodes that are
numbered without a gap, all of this ends: the partitions hold what the four nodes reach, none
but those nodes is in both, and their sizes are as far apart as two differences of blocks
(`graphPartitionMain_divides`).

The ids of the nodes are not negative, as the rows of a graph file are, and their number is
an `int`, as `nodeNumber` is.
-/

import BearRpc.Partition.Bookkeeping
import BearRpc.Partition.Bounds
import BearRpc.Partition.Exclusive
import BearRpc.Partition.Readers

namespace BearRpc

open Theory IntStream

namespace Partition

/-- What ends `main` without a result. -/
inductive ProgramFault where
  /-- in a reader -/
  | read (e : ReadFault)
  /-- behind the readers -/
  | partition (e : Fault)
  deriving DecidableEq, Repr

/-- What `std::sort` does to blocks. -/
structure Sorting where
  run : List Block → List Block
  sorts : ∀ blocks, BlockSort blocks (run blocks)

/-- `NodeClassList.push_back({0,5,11,17})` -/
def centers : List ℕ := [0, 5, 11, 17]

/-- `main`, with the text of the file of edges -/
def graphPartitionMain (fuel : ℕ) (content : List UInt8) (junk : ℕ → ℤ × ℤ) (sort : Sorting) :
    Except ProgramFault (List Partition) := do
  let node_map ← (fileToGraph fuel content ∅ junk).mapError .read
  let viewedTable := List.replicate node_map.size (-1)
  let r ← (nodeBlockConstruct (adjacency node_map) fuel [centers] [] viewedTable).mapError
    .partition
  let a ← (blockToPartition (sort.run r.2) [] 2).mapError .partition
  .ok a.partitions

/-- The nodes of the edges are numbered from 0 on, without a gap. -/
def Numbered (edges : List (ℤ × ℤ)) : Prop :=
  ∀ v ∈ endpoints edges, 0 ≤ v ∧ v < (endpoints edges).toFinset.card

instance (edges : List (ℤ × ℤ)) : Decidable (Numbered edges) :=
  inferInstanceAs (Decidable (∀ v ∈ endpoints edges, _))

/-- **The two partitions of the blocks.** -/
structure Division (nodeMap : ℕ → List ℕ) (blocks : List Block) (p q : Partition) : Prop where
  ids : p.partitionId = 0 ∧ q.partitionId = 1
  once : p.nodeList.Nodup ∧ q.nodeList.Nodup
  reached : ∀ v, v ∈ p.nodeList ∨ v ∈ q.nodeList ↔
    ∃ s ∈ centers, (graph nodeMap).Reachable s v
  shared : ∀ v, v ∈ p.nodeList → v ∈ q.nodeList → v ∈ centers
  /-- the sizes of the blocks in order, the odd ones against the even ones, in `int`s -/
  sizes : ∃ k₀ k₁ k₂ k₃, (blocks.map (·.blockSize)).Perm [k₀, k₁, k₂, k₃] ∧
    k₁ ≤ k₀ ∧ k₂ ≤ k₁ ∧ k₃ ≤ k₂ ∧ p.size = toInt (k₀ + k₂) ∧ q.size = toInt (k₁ + k₃)
  apart : Apart nodeMap centers → p.nodeList.Disjoint q.nodeList ∧
    p.size = p.nodeList.length ∧ q.size = q.nodeList.length

variable {edges : List (ℤ × ℤ)} {nodeMap : ℕ → List ℕ} {n u v : ℕ} {seeds : List ℕ}
  {p : Partition} {b b₀ b₁ b₂ b₃ : Block} {blocks sorted : List Block}

/-! ### The graph of the file -/

/-- **The neighbours** are the nodes on a common edge, in either direction: `fileToGraph`
stores each edge for both of its ends. -/
theorem mem_adjacency (h : Numbered edges) :
    v ∈ adjacency (loadEdges edges) u ↔
      ((u : ℤ), (v : ℤ)) ∈ edges ∨ ((v : ℤ), (u : ℤ)) ∈ edges := by
  have hget : ∀ w, w ∈ (loadEdges edges).get u ↔ ((u : ℤ), w) ∈ edges ∨ (w, (u : ℤ)) ∈ edges := by
    intro w
    rw [← List.count_pos_iff, count_loadEdges, ← List.count_pos_iff, ← List.count_pos_iff]
    omega
  rw [adjacency, List.mem_map, ← hget]
  constructor
  · rintro ⟨w, hw, rfl⟩
    have hend : w ∈ endpoints edges := by
      rw [hget] at hw
      rw [endpoints, List.mem_flatMap]
      rcases hw with hw | hw
      · exact ⟨_, hw, List.mem_pair.2 (.inr rfl)⟩
      · exact ⟨_, hw, List.mem_pair.2 (.inl rfl)⟩
    rwa [Int.toNat_of_nonneg (h w hend).1]
  · exact fun hw => ⟨v, hw, Int.toNat_natCast v⟩

theorem undirected_adjacency (h : Numbered edges) :
    Undirected (loadEdges edges).size (adjacency (loadEdges edges)) where
  symm := fun u v hv => by
    rw [mem_adjacency h] at hv ⊢
    exact hv.symm
  inRange := fun u v hv => by
    have hend : (v : ℤ) ∈ endpoints edges := by
      rw [endpoints, List.mem_flatMap]
      rcases (mem_adjacency h).1 hv with hv | hv
      · exact ⟨_, hv, List.mem_pair.2 (.inr rfl)⟩
      · exact ⟨_, hv, List.mem_pair.2 (.inl rfl)⟩
    have hlt := (h v hend).2
    rw [size_loadEdges]
    exact Int.ofNat_lt.1 hlt

/-! ### The blocks of the partitions -/

theorem partitionId_mergeBlock : (p.mergeBlock b).partitionId = p.partitionId := by
  refine List.foldlRecOn (motive := fun r : Partition => r.partitionId = p.partitionId)
    b.nodeList mergeLayer rfl fun r hr nodes _ => ?_
  refine List.foldlRecOn (motive := fun r : Partition => r.partitionId = p.partitionId)
    nodes mergeNode hr fun r hr node _ => ?_
  unfold mergeNode
  split
  · exact hr
  · exact hr

/-- **Four blocks** are merged alternately: the first and the third into one partition, the
second and the fourth into the other. -/
theorem blockToPartition_four : blockToPartition [b₀, b₁, b₂, b₃] [] 2 =
    .ok ⟨[[b₀, b₂].foldl mergeBlock (newWith 0), [b₁, b₃].foldl mergeBlock (newWith 1)],
      [(0, 0), (0, 2), (1, 1), (1, 3)]⟩ := rfl

/-- A partition of blocks. -/
theorem foldl_mergeBlock_new (partitionId : ℤ) (bs : List Block) :
    (bs.foldl mergeBlock (newWith partitionId)).partitionId = partitionId ∧
    (bs.foldl mergeBlock (newWith partitionId)).nodeList.Nodup ∧
    (∀ v, v ∈ (bs.foldl mergeBlock (newWith partitionId)).nodeList ↔ v ∈ occurrences bs) ∧
    (bs.foldl mergeBlock (newWith partitionId)).size = toInt (occurrences bs).length := by
  refine ⟨?_, nodup_mergeBlocks List.nodup_nil,
    fun v => mem_mergeBlocks.trans (or_iff_right List.not_mem_nil),
    size_mergeBlocks_new partitionId bs⟩
  exact List.foldlRecOn (motive := fun r : Partition => r.partitionId = partitionId) bs mergeBlock
    rfl fun r hr b _ => partitionId_mergeBlock.trans hr

/-- **The sizes** are in order behind `BlockSort`, from the largest to the smallest; blocks
of one size may stand in any order. -/
theorem BlockSort.four (h : BlockSort blocks sorted) (hlen : blocks.length = 4) :
    ∃ b₀ b₁ b₂ b₃, sorted = [b₀, b₁, b₂, b₃] ∧ b₁.blockSize ≤ b₀.blockSize ∧
      b₂.blockSize ≤ b₁.blockSize ∧ b₃.blockSize ≤ b₂.blockSize := by
  obtain ⟨b₀, b₁, b₂, b₃, rfl⟩ : ∃ b₀ b₁ b₂ b₃, sorted = [b₀, b₁, b₂, b₃] := by
    have hsorted := h.perm.length_eq.trans hlen
    match sorted, hsorted with
    | [b₀, b₁, b₂, b₃], _ => exact ⟨b₀, b₁, b₂, b₃, rfl⟩
  have hordered := h.ordered
  simp only [List.pairwise_cons, List.mem_cons, forall_eq_or_imp, not_lt, gt_iff_lt] at hordered
  exact ⟨b₀, b₁, b₂, b₃, rfl, hordered.1.1, hordered.2.1.1, hordered.2.2.1.1⟩

/-- The nodes of the four blocks are those of the two pairs. -/
theorem occurrences_pairs :
    (occurrences [b₀, b₂] ++ occurrences [b₁, b₃]).Perm (occurrences [b₀, b₁, b₂, b₃]) := by
  rw [← occurrences_append]
  exact ((List.Perm.swap b₁ b₂ [b₃]).cons b₀).flatMap_right _

/-- **The blocks of a finished search** are divided: every node that was reached is in one
of the two partitions, with the blocks it belongs to. -/
theorem exists_division {t : List ℤ} {slots : List Slot}
    (h : Complete n nodeMap centers t (blocksOf slots)) (hint : n < 2 ^ 31)
    (hs : BlockSort (refactored slots) sorted) :
    ∃ p q merged, blockToPartition sorted [] 2 = .ok ⟨[p, q], merged⟩ ∧
      Division nodeMap (refactored slots) p q := by
  have hlen : (refactored slots).length = 4 := by
    have hsrc := congrArg List.length h.placed.src
    rw [List.length_map, blocksOf, List.length_map] at hsrc
    rw [refactored, List.length_mapIdx, hsrc]
    rfl
  obtain ⟨b₀, b₁, b₂, b₃, rfl, h₀₁, h₁₂, h₂₃⟩ := hs.four hlen
  have hperm : (occurrences [b₀, b₂] ++ occurrences [b₁, b₃]).Perm
      (occurrences (blocksOf slots)) := by
    rw [← occurrences_refactored]
    exact occurrences_pairs.trans (hs.perm.flatMap_right _)
  obtain ⟨hpid, hpnd, hpmem, hpsize⟩ := foldl_mergeBlock_new 0 [b₀, b₂]
  obtain ⟨hqid, hqnd, hqmem, hqsize⟩ := foldl_mergeBlock_new 1 [b₁, b₃]
  refine ⟨_, _, _, blockToPartition_four, ⟨hpid, hqid⟩, ⟨hpnd, hqnd⟩, fun v => ?_,
    fun v hp hq => ?_, ?_, fun hapart => ?_⟩
  · rw [hpmem, hqmem, ← List.mem_append, hperm.mem_iff, h.reached]
    exact Distance.toSources_ne_top
  · by_contra hseed
    have hsingle := (hperm.filter (· ∉ centers)).nodup_iff.2 h.placed.single
    rw [List.filter_append, List.nodup_append] at hsingle
    have hfilter : ∀ {l : List ℕ}, v ∈ l → v ∈ l.filter (· ∉ centers) := fun hv =>
      List.mem_filter.2 ⟨hv, decide_eq_true hseed⟩
    exact hsingle.2.2 v (hfilter ((hpmem v).1 hp)) v (hfilter ((hqmem v).1 hq)) rfl
  · have hpair : ∀ {b c : Block}, b ∈ [b₀, b₁, b₂, b₃] → c ∈ [b₀, b₁, b₂, b₃] →
        toInt (occurrences [b, c]).length = toInt (b.blockSize + c.blockSize) := by
      intro b c hb hc
      have hlen : (occurrences [b, c]).length =
          b.nodeList.flatten.length + c.nodeList.flatten.length := by
        simp only [occurrences, List.flatMap_cons, List.flatMap_nil, List.append_nil,
          List.length_append]
      rw [blockSize_of_mem_refactored (hs.perm.mem_iff.1 hb),
        blockSize_of_mem_refactored (hs.perm.mem_iff.1 hc), toInt_add, Int.add_comm, toInt_add,
        hlen, Int.natCast_add, Int.add_comm]
    refine ⟨_, _, _, _, (hs.perm.map _).symm, h₀₁, h₁₂, h₂₃, ?_, ?_⟩
    · rw [hpsize, hpair (by simp) (by simp)]
    · rw [hqsize, hpair (by simp) (by simp)]
  · have hall := h.placed.once.2 hapart
    have hlen := hperm.length_eq.trans_le (h.placed.length_le_of_nodup hall)
    rw [List.length_append] at hlen
    have honce := hperm.nodup_iff.2 hall
    rw [List.nodup_append] at honce
    refine ⟨fun v hp hq => ?_, ?_, ?_⟩
    · exact honce.2.2 v ((hpmem v).1 hp) v ((hqmem v).1 hq) rfl
    · rw [hpsize, toInt_eq_self (by omega) (by omega)]
      exact congrArg Nat.cast ((length_eq_iff_nodup hpnd hpmem).2 honce.1)
    · rw [hqsize, toInt_eq_self (by omega) (by omega)]
      exact congrArg Nat.cast ((length_eq_iff_nodup hqnd hqmem).2 honce.2.1)

/-! ### The program -/

/-- The program behind the reader. -/
theorem graphPartitionMain_eq {file : RecordFile pairs} (h : file.Clean) {junk : ℕ → ℤ × ℤ}
    {sort : Sorting} {fuel : ℕ} (hfuel : file.records.length < fuel) :
    graphPartitionMain fuel file.text junk sort =
      ((nodeBlockConstruct (adjacency (loadEdges file.values)) fuel [centers] []
        (List.replicate (loadEdges file.values).size (-1))).mapError .partition).bind fun r =>
          ((blockToPartition (sort.run r.2) [] 2).mapError .partition).bind fun a =>
            .ok a.partitions := by
  rw [graphPartitionMain, fileToGraph_of_clean h hfuel]
  rfl

/-- **With more than 17 nodes** everything is in its place: the four centers have entries,
the search ends, and each node comes into one of the two partitions. -/
theorem exists_graphPartitionMain {file : RecordFile pairs} (hclean : file.Clean)
    (hnumbered : Numbered file.values) (hint : (loadEdges file.values).size < 2 ^ 31)
    (hlarge : 17 < (loadEdges file.values).size)
    (junk : ℕ → ℤ × ℤ) (sort : Sorting) :
    ∃ t blocks p q, Division (adjacency (loadEdges file.values)) blocks p q ∧
      ∀ fuel, max file.records.length (loadEdges file.values).size < fuel →
        nodeBlockConstruct (adjacency (loadEdges file.values)) fuel [centers] []
          (List.replicate (loadEdges file.values).size (-1)) = .ok (t, blocks) ∧
        graphPartitionMain fuel file.text junk sort = .ok [p, q] := by
  have hmax : ∀ s ∈ centers, s ≤ 17 := by decide
  obtain ⟨t, slots, hcomplete, hcall⟩ := exists_nodeBlockConstruct
    (undirected_adjacency hnumbered) (by decide) (fun s hs => (hmax s hs).trans_lt hlarge) []
  obtain ⟨p, q, merged, hdivide, hdivision⟩ := exists_division hcomplete hint (sort.sorts _)
  refine ⟨t, _, p, q, hdivision, fun fuel hfuel => ?_⟩
  have hblocks := hcall fuel ((Nat.le_max_right ..).trans_lt hfuel)
  refine ⟨hblocks, ?_⟩
  rw [graphPartitionMain_eq hclean ((Nat.le_max_left ..).trans_lt hfuel), hblocks]
  change ((blockToPartition (sort.run (refactored slots)) [] 2).mapError _).bind _ = _
  rw [hdivide]
  rfl

/-- **With 17 nodes or less** the last of the four centers has no entry, and the call of
`NodeBlockConstruct` fails before its first round. -/
theorem graphPartitionMain_small {file : RecordFile pairs} (hclean : file.Clean)
    (hsmall : (loadEdges file.values).size ≤ 17) (junk : ℕ → ℤ × ℤ) (sort : Sorting) {fuel : ℕ}
    (hfuel : max file.records.length (loadEdges file.values).size < fuel) :
    graphPartitionMain fuel file.text junk sort = .error (.partition .outOfRange) := by
  have hlt := (Nat.le_max_right ..).trans_lt hfuel
  rw [graphPartitionMain_eq hclean ((Nat.le_max_left ..).trans_lt hfuel)]
  rcases blocks_cases (loadEdges file.values).size (adjacency (loadEdges file.values)) centers []
    with ⟨t, bs, hok, -, hreached⟩ | ⟨herror, -⟩
  · have hmem : 17 ∈ occurrences bs := (hreached 17).2 ⟨17, by decide, .refl⟩
    exact absurd (lt_of_mem_blocks (hok fuel hlt) hmem) (Nat.not_lt.2 hsmall)
  · rw [herror fuel hlt]
    rfl

/-- **The program divides the graph of its file**, which ends with a digit and numbers its
nodes without a gap and by an `int`, if and only if these are more than 17; otherwise an access
is outside of `viewedTable`. -/
theorem graphPartitionMain_divides {file : RecordFile pairs} (hclean : file.Clean)
    (hnumbered : Numbered file.values) (hint : (loadEdges file.values).size < 2 ^ 31)
    (junk : ℕ → ℤ × ℤ) (sort : Sorting) :
    (17 < (loadEdges file.values).size →
      ∃ t blocks p q, Division (adjacency (loadEdges file.values)) blocks p q ∧
        ∀ fuel, max file.records.length (loadEdges file.values).size < fuel →
          nodeBlockConstruct (adjacency (loadEdges file.values)) fuel [centers] []
            (List.replicate (loadEdges file.values).size (-1)) = .ok (t, blocks) ∧
          graphPartitionMain fuel file.text junk sort = .ok [p, q]) ∧
    ((loadEdges file.values).size ≤ 17 →
      ∀ fuel, max file.records.length (loadEdges file.values).size < fuel →
        graphPartitionMain fuel file.text junk sort = .error (.partition .outOfRange)) :=
  ⟨fun hlarge => exists_graphPartitionMain hclean hnumbered hint hlarge junk sort,
    fun hsmall _ => graphPartitionMain_small hclean hsmall junk sort⟩

/-! ### A chain of nodes -/

def digitsOf (k : ℕ) : List UInt8 :=
  if k < 10 then [48 + UInt8.ofNat k] else [49, 38 + UInt8.ofNat k]

theorem digitsOf_spec : ∀ k < 18, natOf (digitsOf k) = k ∧
    (∀ c ∈ digitsOf k, isDigit c = true) ∧ digitsOf k ≠ [] := by
  decide +kernel

/-- No gap. -/
theorem isSpace_none : ∀ c ∈ ([] : List UInt8), isSpace c = true :=
  fun _ h => absurd h List.not_mem_nil

/-- A line feed. -/
theorem isSpace_feed : ∀ c ∈ [(10 : UInt8)], isSpace c = true := by
  decide +kernel

/-- A blank. -/
theorem isSpace_blank : ∀ c ∈ [(32 : UInt8)], isSpace c = true := by
  decide +kernel

/-- A number below 18 in a file. -/
def numeral (gap : List UInt8) (hgap : ∀ c ∈ gap, isSpace c = true) (k : ℕ) (hk : k < 18) :
    Numeral where
  gap := gap
  sign := .absent
  digits := digitsOf k
  gap_space := hgap
  digits_digit := (digitsOf_spec k hk).2.1
  absent := rfl
  digits_ne := (digitsOf_spec k hk).2.2
  inRange := by
    change InRange (natOf (digitsOf k) : ℤ)
    rw [(digitsOf_spec k hk).1]
    constructor <;> omega

/-- Two numbers on a line. -/
def numeralPair (gap : List UInt8) (hgap : ∀ c ∈ gap, isSpace c = true) (k l : ℕ) (hk : k < 18)
    (hl : l < 18) : NumeralPair :=
  ⟨numeral gap hgap k hk, numeral [32] isSpace_blank l hl, List.cons_ne_nil _ _⟩

/-- The edges between neighbours in `0 – 1 – … – 17`, each on a line of its own. -/
def chain : RecordFile pairs where
  records := (List.finRange 17).map fun i : Fin 17 =>
    numeralPair [10] isSpace_feed i (i + 1) (Nat.lt_succ_of_lt i.isLt) (Nat.succ_lt_succ i.isLt)
  trailing := []
  trailing_space := isSpace_none
  separated := fun k hk => by
    obtain ⟨i, -, rfl⟩ := List.mem_map.1 (List.mem_of_mem_tail hk)
    exact Numeral.noDigit_bytes (List.cons_ne_nil _ _) _

theorem chain_values : chain.values = (List.range 17).map fun i : ℕ => ((i : ℤ), (i : ℤ) + 1) := by
  decide +kernel

/-- `a.BlockSize > b.BlockSize`, or both are equal. -/
def notSmaller (a b : Block) : Bool := b.blockSize ≤ a.blockSize

/-- A sorting that leaves equal blocks in their order. -/
def stableSort : Sorting where
  run := fun blocks => blocks.mergeSort notSmaller
  sorts := fun blocks =>
    { perm := List.mergeSort_perm _ _
      ordered := by
        have hordered := @List.pairwise_mergeSort Block notSmaller
          (fun a b c hab hbc => decide_eq_true
            (Int.le_trans (of_decide_eq_true hbc) (of_decide_eq_true hab)))
          (fun a b => by
            rw [Bool.or_eq_true, notSmaller, notSmaller, decide_eq_true_eq, decide_eq_true_eq]
            exact Int.le_total _ _) blocks
        exact hordered.imp fun h => Int.not_lt.2 (of_decide_eq_true h) }

theorem size_chain : (loadEdges chain.values).size = 18 := by
  rw [size_loadEdges, chain_values]
  decide

/-- The hypotheses of `graphPartitionMain_divides` are satisfiable: the chain has 18 nodes. -/
theorem graphPartitionMain_divides_chain :
    ∃ t blocks p q, Division (adjacency (loadEdges chain.values)) blocks p q ∧
      ∀ fuel, max chain.records.length (loadEdges chain.values).size < fuel →
        nodeBlockConstruct (adjacency (loadEdges chain.values)) fuel [centers] []
          (List.replicate (loadEdges chain.values).size (-1)) = .ok (t, blocks) ∧
        graphPartitionMain fuel chain.text (fun _ => (0, 0)) stableSort = .ok [p, q] := by
  have hnumbered : Numbered chain.values := by
    rw [Numbered, ← size_loadEdges, size_chain, chain_values]
    decide
  have hint : (loadEdges chain.values).size < 2 ^ 31 := by
    rw [size_chain]
    decide
  have hlarge : 17 < (loadEdges chain.values).size := by
    rw [size_chain]
    decide
  exact (graphPartitionMain_divides ⟨List.cons_ne_nil _ _, rfl⟩ hnumbered hint _
    stableSort).1 hlarge

end Partition
end BearRpc
