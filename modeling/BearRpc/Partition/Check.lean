/-
# The program that checks a partition

`main` of `src/partition/graphCheck.cpp` (lines 125 to 145): the edges, the partition of each
node and the training nodes are read, each training node is sampled, the messages between
the partitions are counted, and the training nodes of each partition.

`countMsg` changes the map that `CountBalance` reads, but adds to the end of its lists only;
so the balance is that of the file.  A training node is sampled once in each of two layers,
and needs 35 other nodes at most, so the messages are no more than 35 for each training node
(`graphCheckMain_counts`).  Both numbers are `int`s: with more than 2^31 messages, or training
nodes of a partition, the program has no result.
-/

import BearRpc.Partition.Balance
import BearRpc.Partition.Division
import BearRpc.Partition.Sampling
import Mathlib.Algebra.Order.BigOperators.Group.Finset

namespace BearRpc

open Theory IntStream

namespace Partition

/-- What ends `main` without a result. -/
inductive CheckFault where
  /-- in a reader -/
  | read (e : ReadFault)
  /-- in `countMsg` -/
  | count (e : Fault)
  /-- in `CountBalance` -/
  | balance (e : BalanceFault)
  deriving DecidableEq, Repr

/-- The order in which a hash map is gone through. -/
structure Traversal where
  run : NodeMap → NodeMap
  perm : ∀ m, (run m).entries.Perm m.entries

/-- `fanout = {25,10}` -/
def checkFanout : List ℕ := [25, 10]

/-- `main`, with the texts of the files of edges, partitions and training nodes: `MsgCount`,
and the lines of `CountBalance` -/
def graphCheckMain (fuel : ℕ) (graph partition train : List UInt8) (edgeJunk : ℕ → ℤ × ℤ)
    (junk : ℕ → ℕ → ℤ) (shuffle : ℕ → ℕ → Shuffle) (order : Traversal) :
    Except CheckFault (ℕ × List (ℕ × ℕ)) := do
  let node_map ← (fileToGraph fuel graph ∅ edgeJunk).mapError .read
  let node_partition_map ← (fileToPartition fuel partition ∅ (junk 0)).mapError .read
  let trainNodeList ← (fileToTrainList fuel train [] (junk 1)).mapError .read
  let sample_list_with_Id := sample trainNodeList checkFanout node_map ∅ shuffle
  let r ← (countMsg (order.run sample_list_with_Id) node_partition_map).mapError .count
  let lines ← (countBalance fuel trainNodeList r.node_partition_map).mapError .balance
  .ok (r.msgCount, lines)

/-- The partition of a node, in the order of the file. -/
def partOf (l : List ℤ) (v : ℤ) : ℤ := (l[v.toNat]?).getD 0

/-- **The files belong together**: each ends with a digit, every node has a partition, and the
numbers are in range. -/
structure CheckFiles (graph : RecordFile pairs) (partition train : RecordFile numbers) : Prop where
  clean : graph.Clean ∧ partition.Clean ∧ train.Clean
  short : partition.records.length < 2 ^ 31
  nodes : ∀ v ∈ endpoints graph.values ++ train.values, v < partition.records.length
  ids : ∀ p ∈ partition.values, p ≤ 2 ^ 31 - 2

variable {node_map m : NodeMap} {edges : List (ℤ × ℤ)} {fanout : List ℕ} {trainId l last : List ℤ}
  {u v p : ℤ} {i : ℕ} {shuffles : ℕ → Shuffle} {shuffle : ℕ → ℕ → Shuffle}

/-! ### What is sampled -/

/-- A sample holds neighbours. -/
theorem exists_of_mem_sampleLayers
    (hv : v ∈ (sampleLayers node_map shuffles i fanout last).flatten) :
    ∃ w, v ∈ node_map.get w := by
  induction fanout generalizing i last with
  | nil => cases hv
  | cons sampleNumber fanout ih =>
    rw [sampleLayers, List.flatten_cons, List.mem_append] at hv
    rcases hv with hv | hv
    · cases last with
      | nil => cases hv
      | cons nodeId nodeIds =>
        have hsub := (simRandomSampleList_cons node_map sampleNumber (shuffles i) nodeId nodeIds).1
        exact ⟨nodeId, hsub.subset hv⟩
    · exact ih hv

/-- **A layer is no larger than its entry of `fanout`**, since only the first node of the
layer before is sampled; so all layers together are no larger than the sum. -/
theorem length_flatten_sampleLayers :
    (sampleLayers node_map shuffles i fanout last).flatten.length ≤ fanout.sum := by
  induction fanout generalizing i last with
  | nil => exact Nat.le_refl 0
  | cons sampleNumber fanout ih =>
    have hrest : (sampleLayers node_map shuffles (i + 1) fanout
        (simRandomSampleList node_map sampleNumber (shuffles i) last)).flatten.length ≤
          fanout.sum := ih
    have hlayer : (simRandomSampleList node_map sampleNumber (shuffles i) last).length ≤
        sampleNumber := by
      cases last with
      | nil => exact Nat.zero_le _
      | cons nodeId nodeIds =>
        rw [(simRandomSampleList_cons node_map sampleNumber (shuffles i) nodeId nodeIds).2]
        exact Nat.min_le_right ..
    rw [sampleLayers, List.flatten_cons, List.length_append, List.sum_cons]
    exact Nat.add_le_add hlayer hrest

variable (node_map fanout shuffle) in
/-- **A sample** is its training node and a few other nodes, all of them neighbours of some
node, and no more than the numbers in `fanout` add up to. -/
theorem exists_get_sample_cons (hu : u ∈ trainId) : ∃ rest : List ℤ,
    (sample trainId fanout node_map ∅ shuffle).get u = u :: rest ∧ rest.length ≤ fanout.sum ∧
      ∀ v ∈ rest, ∃ w, v ∈ node_map.get w := by
  obtain ⟨j, -, hget⟩ := exists_get_sample (t := ∅) hu
  exact ⟨_, hget, length_flatten_sampleLayers, fun v => exists_of_mem_sampleLayers⟩

/-- **Only training nodes have samples**, and every one of them has, also if it comes up
more than once in the list. -/
theorem mem_sample : u ∈ sample trainId fanout node_map ∅ shuffle ↔ u ∈ trainId := by
  have hfold : ∀ (es : List (ℤ × ℕ)) (t : NodeMap) (f : ℤ × ℕ → List ℤ),
      u ∈ es.foldl (fun table e => table.insert e.1 (f e)) t ↔ u ∈ t ∨ u ∈ es.map Prod.fst := by
    intro es
    induction es with
    | nil => exact fun t f => (or_iff_left List.not_mem_nil).symm
    | cons e es ih =>
      intro t f
      rw [List.foldl_cons, ih, AList.mem_insert, List.map_cons, List.mem_cons, or_left_comm,
        or_assoc]
  rw [sample, hfold, List.zipIdx_map_fst]
  exact or_iff_right (AList.notMem_empty u)

/-! ### What is read -/

theorem numeral_nonneg (n : Numeral) : 0 ≤ n.value := by
  rw [Token.value, n.absent]
  exact Int.natCast_nonneg _

/-- The rows of a file of edges are not negative. -/
theorem endpoints_nonneg (file : RecordFile pairs) : ∀ v ∈ endpoints file.values, 0 ≤ v := by
  intro v hv
  obtain ⟨e, he, hv⟩ := List.mem_flatMap.1 hv
  obtain ⟨k, -, rfl⟩ := List.mem_map.1 he
  rcases List.mem_pair.1 hv with rfl | rfl
  · exact numeral_nonneg k.first
  · exact numeral_nonneg k.second

theorem values_nonneg (file : RecordFile numbers) : ∀ v ∈ file.values, 0 ≤ v := by
  intro v hv
  obtain ⟨k, -, rfl⟩ := List.mem_map.1 hv
  exact numeral_nonneg k

/-- A neighbour is on an edge. -/
theorem mem_endpoints_of_get (hv : v ∈ (loadEdges edges).get u) : v ∈ endpoints edges := by
  rw [← List.count_pos_iff, count_loadEdges] at hv
  have hor : (u, v) ∈ edges ∨ (v, u) ∈ edges := by
    rw [← List.count_pos_iff, ← List.count_pos_iff]
    omega
  rw [endpoints, List.mem_flatMap]
  rcases hor with h | h
  · exact ⟨_, h, List.mem_pair.2 (.inr rfl)⟩
  · exact ⟨_, h, List.mem_pair.2 (.inl rfl)⟩

/-- **A node of the file** has its partition, the number at its position, and no other. -/
theorem PartitionOf.get_eq (h : PartitionOf l m) (hv : 0 ≤ v) (hlt : v < l.length) :
    m.get v = [partOf l v] ∧ partOf l v ∈ l := by
  have hget : l[v.toNat]? = some (partOf l v) := by
    rw [partOf, List.getElem?_eq_getElem (by omega)]
    rfl
  have hm := h.get v.toNat _ hget
  rw [Int.toNat_of_nonneg hv] at hm
  exact ⟨hm, List.mem_of_getElem? hget⟩

/-! ### What is counted -/

/-- **`CountBalance` reads the first partitions only**: what `countMsg` has appended to the
lists of the map behind them makes no difference. -/
theorem countBalance_congr {m' : NodeMap} (fuel : ℕ)
    (h : ∀ v ∈ trainId, (m'.get v).head? = (m.get v).head?) :
    countBalance fuel trainId m' = countBalance fuel trainId m := by
  have hfold : ∀ t : Table ℤ ℕ, trainId.foldlM (countTrain m') t =
      trainId.foldlM (countTrain m) t := by
    induction trainId with
    | nil => exact fun t => rfl
    | cons v trainId ih =>
      intro t
      have hhead := h v List.mem_cons_self
      have hstep : countTrain m' t v = countTrain m t v := by
        rw [countTrain, countTrain, ← List.head?_eq_getElem?, ← List.head?_eq_getElem?, hhead]
      rw [List.foldlM_cons, List.foldlM_cons, hstep]
      exact congrArg _ (funext (ih fun w hw => h w (List.mem_cons_of_mem _ hw)))
  rw [countBalance, countBalance, hfold]

/-! ### The program -/

section Program

variable {graph : RecordFile pairs} {partition train : RecordFile numbers}

/-- **Every node has its partition**: a node of an edge or a training node is a position of
the file of partitions, and the number there is at most `2 ^ 31 - 2`. -/
theorem CheckFiles.get_eq (h : CheckFiles graph partition train)
    (hm : PartitionOf partition.values m) (hv : v ∈ endpoints graph.values ++ train.values) :
    m.get v = [partOf partition.values v] ∧ 0 ≤ partOf partition.values v ∧
      partOf partition.values v ≤ 2 ^ 31 - 2 := by
  have hnonneg : 0 ≤ v := by
    rcases List.mem_append.1 hv with hv | hv
    · exact endpoints_nonneg graph v hv
    · exact values_nonneg train v hv
  have hlt := h.nodes v hv
  have hlen : partition.values.length = partition.records.length := List.length_map ..
  obtain ⟨hget, hmem⟩ := hm.get_eq hnonneg (hlen ▸ hlt)
  exact ⟨hget, values_nonneg partition _ hmem, h.ids _ hmem⟩

/-- A sample of the program, and the partitions of its nodes. -/
theorem CheckFiles.sampled (h : CheckFiles graph partition train)
    (hm : PartitionOf partition.values m)
    (hv : v ∈ (sample train.values fanout (loadEdges graph.values) ∅ shuffle).get u) :
    u ∈ train.values ∧ m.get v = [partOf partition.values v] := by
  have hu : u ∈ train.values := by
    by_contra hnot
    rw [Table.get_of_not_mem (mt mem_sample.1 hnot)] at hv
    cases hv
  obtain ⟨rest, hget, -, hrest⟩ := exists_get_sample_cons (loadEdges graph.values) fanout shuffle hu
  rw [hget] at hv
  refine ⟨hu, (h.get_eq hm ?_).1⟩
  rcases List.mem_cons.1 hv with rfl | hv
  · exact List.mem_append_right _ hu
  · obtain ⟨w, hw⟩ := hrest v hv
    exact List.mem_append_left _ (mem_endpoints_of_get hw)

/-- **A message** is for a training node with the node in its sample: its partition needs
the node, which has another one in the file. -/
theorem CheckFiles.mem_messages (h : CheckFiles graph partition train)
    (hm : PartitionOf partition.values m) :
    (v, p) ∈ messages m (sample train.values fanout (loadEdges graph.values) ∅ shuffle) ↔
      p ≠ partOf partition.values v ∧ ∃ u ∈ train.values, partOf partition.values u = p ∧
        v ∈ (sample train.values fanout (loadEdges graph.values) ∅ shuffle).get u := by
  have hhome : ∀ {u}, u ∈ train.values → home m u = partOf partition.values u := fun hu => by
    rw [home, (h.get_eq hm (List.mem_append_right _ hu)).1]
    rfl
  rw [messages, Finset.mem_filter, List.mem_toFinset, needs, List.mem_flatMap]
  constructor
  · rintro ⟨⟨⟨u, l⟩, he, hw⟩, hnot⟩
    obtain ⟨w, hwl, heq⟩ := List.mem_map.1 hw
    cases heq
    have hlookup := Table.get_of_lookup (AList.mem_lookup_iff.2 he)
    have hv : v ∈ (sample train.values fanout (loadEdges graph.values) ∅ shuffle).get u := by
      rw [hlookup]
      exact hwl
    obtain ⟨hu, hget⟩ := h.sampled hm hv
    rw [hget, List.mem_singleton] at hnot
    exact ⟨hnot, u, hu, (hhome hu).symm, hv⟩
  · rintro ⟨hne, u, hu, rfl, hv⟩
    obtain ⟨-, hget⟩ := h.sampled hm hv
    have hkey : u ∈ sample train.values fanout (loadEdges graph.values) ∅ shuffle :=
      mem_sample.2 hu
    obtain ⟨l, hl⟩ := Option.ne_none_iff_exists'.1 (mt AList.lookup_eq_none.1 (not_not.2 hkey))
    rw [Table.get_of_lookup hl] at hv
    refine ⟨⟨⟨u, l⟩, AList.mem_lookup_iff.1 hl, List.mem_map.2 ⟨v, hv, ?_⟩⟩, ?_⟩
    · rw [hhome hu]
    · rw [hget, List.mem_singleton]
      exact hne

/-- **A training node needs no more than its fanout**, besides itself, which has its own
partition; so the messages are at most so many for each distinct training node. -/
theorem CheckFiles.card_messages (h : CheckFiles graph partition train)
    (hm : PartitionOf partition.values m) :
    (messages m (sample train.values fanout (loadEdges graph.values) ∅ shuffle)).card ≤
      fanout.sum * train.values.toFinset.card := by
  have hsub : messages m (sample train.values fanout (loadEdges graph.values) ∅ shuffle) ⊆
      train.values.toFinset.biUnion fun u =>
        ((sample train.values fanout (loadEdges graph.values) ∅ shuffle).get u).tail.toFinset.image
          fun v => (v, partOf partition.values u) := by
    rintro ⟨v, p⟩ hvp
    obtain ⟨hne, u, hu, rfl, hv⟩ := (h.mem_messages hm).1 hvp
    rw [Finset.mem_biUnion]
    refine ⟨u, List.mem_toFinset.2 hu, Finset.mem_image.2 ⟨v, List.mem_toFinset.2 ?_, rfl⟩⟩
    -- the training node itself is in its own partition
    obtain ⟨rest, hget, -, -⟩ := exists_get_sample_cons (loadEdges graph.values) fanout shuffle hu
    rw [hget] at hv ⊢
    refine (List.mem_cons.1 hv).resolve_left ?_
    rintro rfl
    exact hne rfl
  refine (Finset.card_le_card hsub).trans ?_
  rw [Nat.mul_comm]
  refine Finset.card_biUnion_le_card_mul _ _ _ fun u hu => ?_
  obtain ⟨rest, hget, hlen, -⟩ := exists_get_sample_cons (loadEdges graph.values) fanout shuffle
    (List.mem_toFinset.1 hu)
  rw [hget]
  exact Finset.card_image_le.trans ((List.toFinset_card_le _).trans hlen)

/-- **What the program prints**: the number of the pairs of a node and a partition that needs
it from another one, which is 35 for each training node at most; and for each id up to the
largest home the training nodes of that partition in the file, whatever `countMsg` has added.
Where one of these numbers is no `int`, its counter overflows. -/
theorem graphCheckMain_counts (h : CheckFiles graph partition train) (edgeJunk : ℕ → ℤ × ℤ)
    (junk : ℕ → ℕ → ℤ) (shuffle : ℕ → ℕ → Shuffle) (order : Traversal) :
    ∃ pairs : Finset (ℤ × ℤ),
      (∀ v p, (v, p) ∈ pairs ↔ p ≠ partOf partition.values v ∧
        ∃ u ∈ train.values, partOf partition.values u = p ∧
          v ∈ (sample train.values checkFanout (loadEdges graph.values) ∅ shuffle).get u) ∧
      pairs.card ≤ 35 * train.values.toFinset.card ∧
      ∀ fuel, max (max graph.records.length partition.records.length) (max train.records.length
          (afterLast (train.values.map (partOf partition.values)))) < fuel →
        (pairs.card < 2 ^ 31 →
          (∀ p, (train.values.map (partOf partition.values)).count p < 2 ^ 31) →
          graphCheckMain fuel graph.text partition.text train.text edgeJunk junk shuffle order =
            .ok (pairs.card,
              (List.range (afterLast (train.values.map (partOf partition.values)))).map
                fun i : ℕ => (i, (train.values.map (partOf partition.values)).count (i : ℤ)))) ∧
        (2 ^ 31 ≤ pairs.card →
          graphCheckMain fuel graph.text partition.text train.text edgeJunk junk shuffle order =
            .error (.count .overflow)) ∧
        (pairs.card < 2 ^ 31 →
          ∀ p, 2 ^ 31 ≤ (train.values.map (partOf partition.values)).count p →
          graphCheckMain fuel graph.text partition.text train.text edgeJunk junk shuffle order =
            .error (.balance .overflow)) := by
  have hloads : Loads (fun fuel => fileToPartition fuel partition.text ∅ (junk 0))
      partition.records.length (PartitionOf partition.values) :=
    fileToPartition_loads.2 ⟨h.clean.2.1, h.short⟩
  obtain ⟨m, hm, hread⟩ := hloads
  have hget : ∀ v ∈ train.values, m.get v = [partOf partition.values v] ∧
      0 ≤ partOf partition.values v ∧ partOf partition.values v ≤ 2 ^ 31 - 2 := fun v hv =>
    h.get_eq hm (List.mem_append_right _ hv)
  have hhome : ∀ v ∈ train.values, home m v = partOf partition.values v := fun v hv => by
    rw [home, (hget v hv).1]
    rfl
  have hhomes : homes m train.values = train.values.map (partOf partition.values) :=
    List.map_congr_left hhome
  have hhomed : Homed m train.values := fun v hv => by
    rw [hhome v hv, (hget v hv).1]
    exact ⟨List.cons_ne_nil _ _, (hget v hv).2⟩
  refine ⟨messages m (sample train.values checkFanout (loadEdges graph.values) ∅ shuffle),
    fun v p => h.mem_messages hm, h.card_messages hm, fun fuel hfuel => ?_⟩
  simp only [max_lt_iff] at hfuel
  obtain ⟨⟨hgraph, hpartition⟩, htrain, hlast⟩ := hfuel
  obtain ⟨r, hcount, hmsg, -, hfirst⟩ := countMsg_eq (m := m)
    (order.perm (sample train.values checkFanout (loadEdges graph.values) ∅ shuffle)) fun e he => by
      have hmem : e.1 ∈ train.values := mem_sample.1 (AList.mem_keys.2 (List.mem_map_of_mem he))
      exact (hhomed e.1 hmem).1
  have hbalance := countBalance_congr fuel fun v hv => hfirst v (hhomed v hv).1
  have hnodes : fileToTrainList fuel train.text [] (junk 1) = .ok train.values := by
    rw [fileToTrainList_file htrain, (train.append_phantom (junk 1)).2 h.clean.2.2]
    rfl
  have hpartitions : fileToPartition fuel partition.text ∅ (junk 0) = .ok m :=
    hread fuel hpartition
  -- the program behind its readers
  have hmain : graphCheckMain fuel graph.text partition.text train.text edgeJunk junk shuffle
      order = (countMsg (order.run (sample train.values checkFanout (loadEdges graph.values) ∅
        shuffle)) m).mapError .count >>= fun r =>
          (countBalance fuel train.values r.node_partition_map).mapError .balance >>= fun lines =>
            .ok (r.msgCount, lines) := by
    rw [graphCheckMain, fileToGraph_of_clean h.clean.1 hgraph, hpartitions, hnodes]
    rfl
  rw [hmain, hcount, ← hhomes]
  refine ⟨fun hint hcounts => ?_, fun hmany => ?_, fun hint p hmany => ?_⟩
  · rw [if_pos hint]
    change ((countBalance fuel train.values r.node_partition_map).mapError _ >>= _) = _
    rw [hbalance, countBalance_eq hhomed hcounts, if_pos (hhomes ▸ hlast), hmsg]
    rfl
  · rw [if_neg (Nat.not_lt.2 hmany)]
    rfl
  · rw [if_pos hint]
    change ((countBalance fuel train.values r.node_partition_map).mapError _ >>= _) = _
    rw [hbalance, countBalance_overflow (fun v hv => (hhomed v hv).1)
      fun hcounts => Nat.not_lt.2 hmany (hcounts p)]
    rfl

end Program

/-! ### One edge between two partitions -/

def oneEdge : RecordFile pairs where
  records := [numeralPair [] isSpace_none 0 1 (by decide) (by decide)]
  trailing := []
  trailing_space := isSpace_none
  separated := fun _ h => absurd h List.not_mem_nil

def onePartitionEach : RecordFile numbers where
  records := [numeral [] isSpace_none 0 (by decide), numeral [10] isSpace_feed 1 (by decide)]
  trailing := []
  trailing_space := isSpace_none
  separated := fun k hk => by
    rw [List.mem_singleton.1 hk]
    have hbytes := Numeral.noDigit_bytes (n := numeral [10] isSpace_feed 1 (by decide))
      (List.cons_ne_nil _ _) []
    rwa [List.append_nil] at hbytes

def oneTrainingNode : RecordFile numbers where
  records := [numeral [] isSpace_none 0 (by decide)]
  trailing := []
  trailing_space := isSpace_none
  separated := fun _ h => absurd h List.not_mem_nil

theorem checkFiles_oneEdge : CheckFiles oneEdge onePartitionEach oneTrainingNode where
  clean := ⟨⟨List.cons_ne_nil _ _, rfl⟩, ⟨List.cons_ne_nil _ _, rfl⟩, ⟨List.cons_ne_nil _ _, rfl⟩⟩
  short := by decide
  nodes := by decide +kernel
  ids := by decide +kernel

/-- The hypothesis of `graphCheckMain_counts` is satisfiable. -/
theorem graphCheckMain_counts_oneEdge :
    ∃ pairs : Finset (ℤ × ℤ), pairs.card ≤ 35 ∧
      ∀ fuel, max (max 1 2) (max 1 (afterLast (oneTrainingNode.values.map
          (partOf onePartitionEach.values)))) < fuel →
        graphCheckMain fuel oneEdge.text onePartitionEach.text oneTrainingNode.text
            (fun _ => (0, 0)) (fun _ _ => 0) (fun _ _ => .still) ⟨fun m => m, fun _ => .refl _⟩ =
          .ok (pairs.card, (List.range (afterLast (oneTrainingNode.values.map
            (partOf onePartitionEach.values)))).map fun i : ℕ =>
              (i, (oneTrainingNode.values.map (partOf onePartitionEach.values)).count
                (i : ℤ))) := by
  obtain ⟨pairs, -, hcard, hmain⟩ := graphCheckMain_counts checkFiles_oneEdge (fun _ => (0, 0))
    (fun _ _ => 0) (fun _ _ => .still) ⟨fun m => m, fun _ => .refl _⟩
  have hle : pairs.card ≤ 35 := hcard
  refine ⟨pairs, hle, fun fuel hfuel => (hmain fuel hfuel).1 (by omega) fun p => ?_⟩
  have hone : (oneTrainingNode.values.map (partOf onePartitionEach.values)).length = 1 := rfl
  have hcount := List.count_le_length (a := p)
    (l := oneTrainingNode.values.map (partOf onePartitionEach.values))
  omega

end Partition
end BearRpc
