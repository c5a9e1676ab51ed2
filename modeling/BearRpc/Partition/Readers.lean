/-
# The readers of the graph files

`fileToGraph` and `readNodeClass` (`src/partition/GraphPartitionAlgo.cpp`, lines 80 to
129), `fileToGraph`, `fileToPartition` and `fileToTrainList`
(`src/partition/graphCheck.cpp`, lines 9 to 48).

The text is that of a file that has been opened; the two `fileToGraph` differ in its name
only.  `junk` has the values of the variables that a body declares, in each turn.

All the loops look at `eofbit` before they read, and use what they have read without a
look at `failbit`.  So a file is loaded exactly if and only if it ends with a digit
(`loads_iff`), and a reader ends if and only if the file has nothing but numbers up to its
last token (`ends_iff`).
-/

import BearRpc.Partition.NodeMap
import BearRpc.Theory.ReadLoop

namespace BearRpc

open Theory IntStream

namespace Partition

/-- What ends a reader without a result. -/
inductive ReadFault where
  /-- an access outside of a vector -/
  | outOfRange
  /-- `nodeNumber++` above the largest `int` -/
  | overflow
  /-- a loop has not ended -/
  | fuel
  deriving DecidableEq, Repr

/-- The result of a loop. -/
def ended {σ : Type} : Option σ → Except ReadFault σ
  | none => .error .fuel
  | some s => .ok s

/-- `fileToGraph` -/
def fileToGraph (fuel : ℕ) (content : List UInt8) (node_map : NodeMap) (junk : ℕ → ℤ × ℤ) :
    Except ReadFault NodeMap :=
  ended (readLoop extractPair storeEdge junk fuel 0 node_map (opened content))

/-- `node_partition_map[nodeNumber++].push_back(partId)`, with both variables.  The loop
goes on after an overflow, but nothing is known of them. -/
def storePartition (s : Option (NodeMap × ℕ)) (partId : ℤ) : Option (NodeMap × ℕ) := do
  let (node_partition_map, nodeNumber) ← s
  if nodeNumber + 1 < 2 ^ 31 then some (node_partition_map.push nodeNumber partId, nodeNumber + 1)
  else none

/-- `fileToPartition` -/
def fileToPartition (fuel : ℕ) (content : List UInt8) (node_partition_map : NodeMap)
    (junk : ℕ → ℤ) : Except ReadFault NodeMap := do
  match ← ended (readLoop extract storePartition junk fuel 0 (some (node_partition_map, 0))
    (opened content)) with
  | none => .error .overflow
  | some (node_partition_map, _) => .ok node_partition_map

/-- `fileToTrainList` -/
def fileToTrainList (fuel : ℕ) (content : List UInt8) (trainNodeList : List ℤ)
    (junk : ℕ → ℤ) : Except ReadFault (List ℤ) :=
  ended (readLoop extract (fun nodes nodeId => nodes ++ [nodeId]) junk fuel 0 trainNodeList
    (opened content))

/-- One of the three loops of `readNodeClass`, which are that of `fileToTrainList`.  The
body runs at least once, so that a missing list is found. -/
def readClass (fuel k : ℕ) (content : List UInt8) (NodeClassList : List (List ℤ))
    (junk : ℕ → ℤ) : Except ReadFault (List (List ℤ)) :=
  match NodeClassList[k]? with
  | none => .error .outOfRange
  | some nodes => do
    let nodes ← fileToTrainList fuel content nodes junk
    .ok (NodeClassList.set k nodes)

/-- `readNodeClass`, with the texts of the files `_train`, `_val` and `_test` -/
def readNodeClass (fuel : ℕ) (train val test : List UInt8) (NodeClassList : List (List ℤ))
    (junk : ℕ → ℕ → ℤ) : Except ReadFault (List (List ℤ)) := do
  let NodeClassList ← readClass fuel 0 train NodeClassList (junk 0)
  let NodeClassList ← readClass fuel 1 val NodeClassList (junk 1)
  readClass fuel 2 test NodeClassList (junk 2)

section

variable {fuel k : ℕ} {content train val test : List UInt8} {nodes a b c : List ℤ}
  {NodeClassList rest : List (List ℤ)} {junk : ℕ → ℤ}

/-- Reading a class appends what `fileToTrainList` reads to the list that is there. -/
theorem readClass_eq (h : NodeClassList[k]? = some nodes) :
    readClass fuel k content NodeClassList junk =
      (fileToTrainList fuel content nodes junk).bind fun nodes =>
        .ok (NodeClassList.set k nodes) := by
  rw [readClass, h]
  rfl

/-- **Three lists, one for each file**: they are read one after the other, into the first
three lists of the vector. -/
theorem readNodeClass_eq {junk : ℕ → ℕ → ℤ} :
    readNodeClass fuel train val test (a :: b :: c :: rest) junk =
      (fileToTrainList fuel train a (junk 0)).bind fun a =>
        (fileToTrainList fuel val b (junk 1)).bind fun b =>
          (fileToTrainList fuel test c (junk 2)).bind fun c => .ok (a :: b :: c :: rest) := by
  rw [readNodeClass, readClass_eq rfl]
  cases fileToTrainList fuel train a (junk 0) with
  | error e => rfl
  | ok a =>
    change (readClass fuel 1 val (a :: b :: c :: rest) (junk 1)).bind _ =
      (fileToTrainList fuel val b (junk 1)).bind _
    rw [readClass_eq rfl]
    cases fileToTrainList fuel val b (junk 1) with
    | error e => rfl
    | ok b =>
      change readClass fuel 2 test (a :: b :: c :: rest) (junk 2) = _
      rw [readClass_eq rfl]
      rfl

end

/-! ### What is loaded -/

section

variable {σ : Type} {run : ℕ → Except ReadFault σ} {result : Except ReadFault σ} {n : ℕ}
  {P : σ → Prop}

/-- A reader that needs no more than `n + 1` turns has a result with `P`. -/
def Loads (run : ℕ → Except ReadFault σ) (n : ℕ) (P : σ → Prop) : Prop :=
  ∃ r, P r ∧ ∀ fuel, n < fuel → run fuel = .ok r

/-- Where every large enough fuel gives the same result, loading is about this result. -/
theorem loads_iff_of_run (h : ∀ fuel, n < fuel → run fuel = result) :
    Loads run n P ↔ ∃ r, result = .ok r ∧ P r := by
  constructor
  · rintro ⟨r, hP, hr⟩
    exact ⟨r, (h _ n.lt_succ_self).symm.trans (hr _ n.lt_succ_self), hP⟩
  · rintro ⟨r, rfl, hP⟩
    exact ⟨r, hP, h⟩

/-- Where every large enough fuel gives the same value, loading is about this value. -/
theorem loads_iff_of_ok {r : σ} (h : ∀ fuel, n < fuel → run fuel = .ok r) :
    Loads run n P ↔ P r := by
  rw [loads_iff_of_run h]
  constructor
  · rintro ⟨r', hr', hP⟩
    cases hr'
    exact hP
  · exact fun hP => ⟨r, rfl, hP⟩

end

/-- The adjacency map has the edges in both directions, as often as they are listed. -/
def GraphOf (edges : List (ℤ × ℤ)) (m : NodeMap) : Prop :=
  ∀ u v, (m.get u).count v = edges.count (u, v) + edges.count (v, u)

/-- The list has the numbers of its positions. -/
structure PartitionOf (l : List ℤ) (m : NodeMap) : Prop where
  keys : ∀ k, k ∈ m ↔ ∃ i < l.length, k = (i : ℤ)
  get : ∀ (i : ℕ) v, l[i]? = some v → m.get i = [v]

namespace PartitionOf

variable {l l' : List ℤ} {m : NodeMap} {v : ℤ}

/-- An empty file assigns no node. -/
theorem empty : PartitionOf [] ∅ where
  keys := fun k => ⟨fun h => absurd h (AList.notMem_empty k), fun ⟨_, hi, _⟩ => nomatch hi⟩
  get := fun _ _ h => nomatch h

/-- **One number more** at the end of the file is the partition of one node more, whose
number is the position. -/
theorem push (h : PartitionOf l m) : PartitionOf (l ++ [v]) (m.push l.length v) where
  keys := fun k => by
    rw [mem_push, h.keys, List.length_append, List.length_singleton]
    constructor
    · rintro (rfl | ⟨i, hi, rfl⟩)
      · exact ⟨_, Nat.lt_succ_self _, rfl⟩
      · exact ⟨i, Nat.lt_succ_of_lt hi, rfl⟩
    · rintro ⟨i, hi, rfl⟩
      rcases Nat.lt_succ_iff_lt_or_eq.1 hi with hlt | rfl
      · exact .inr ⟨i, hlt, rfl⟩
      · exact .inl rfl
  get := fun i w hw => by
    have hnew : (l.length : ℤ) ∉ m := fun hmem => by
      obtain ⟨i, hi, heq⟩ := (h.keys _).1 hmem
      exact absurd (Int.ofNat_inj.1 heq) (Nat.ne_of_gt hi)
    rw [get_push, Table.get_of_not_mem hnew]
    by_cases hi : i = l.length
    · rw [hi, List.getElem?_concat_length] at hw
      cases hw
      rw [if_pos (congrArg Nat.cast hi)]
      rfl
    · obtain ⟨hlt, -⟩ := List.getElem?_eq_some_iff.1 hw
      rw [List.length_append, List.length_singleton] at hlt
      rw [List.getElem?_append_left (by omega)] at hw
      rw [if_neg (mt Int.ofNat_inj.1 hi)]
      exact h.get i w hw

/-- The keys tell the length, and the values the list. -/
theorem unique (h : PartitionOf l m) (h' : PartitionOf l' m) : l = l' := by
  have hlt : ∀ i, i < l.length ↔ i < l'.length := by
    intro i
    have hcast : ∀ l : List ℤ, (∃ j < l.length, (i : ℤ) = (j : ℤ)) ↔ i < l.length := by
      intro l
      constructor
      · rintro ⟨j, hj, heq⟩
        rwa [Int.ofNat_inj.1 heq]
      · exact fun hi => ⟨i, hi, rfl⟩
    rw [← hcast l, ← hcast l', ← h.keys, ← h'.keys]
  refine List.ext_getElem? fun i => ?_
  by_cases hi : i < l.length
  · have hget := h.get i _ (List.getElem?_eq_getElem hi)
    have hget' := h'.get i _ (List.getElem?_eq_getElem ((hlt i).1 hi))
    rw [hget, List.singleton_inj] at hget'
    rw [List.getElem?_eq_getElem hi, List.getElem?_eq_getElem ((hlt i).1 hi), hget']
  · rw [List.getElem?_eq_none (Nat.not_lt.1 hi),
      List.getElem?_eq_none (Nat.not_lt.1 (mt (hlt i).2 hi))]

end PartitionOf

/-- **The numbers are stored under their positions**, as long as there are few enough for
the `int` that counts them; with more, it overflows. -/
theorem exists_partitionOf (l : List ℤ) :
    (l.length < 2 ^ 31 → ∃ m, PartitionOf l m ∧
      l.foldl storePartition (some (∅, 0)) = some (m, l.length)) ∧
    (2 ^ 31 ≤ l.length → l.foldl storePartition (some (∅, 0)) = none) := by
  induction l using List.reverseRecOn with
  | nil => exact ⟨fun _ => ⟨∅, .empty, rfl⟩, fun h => absurd h (by decide)⟩
  | append_singleton l v ih =>
    rw [List.foldl_append, List.length_append, List.length_singleton]
    by_cases hlen : l.length < 2 ^ 31
    · obtain ⟨m, hm, hfold⟩ := ih.1 hlen
      have hstep : [v].foldl storePartition (l.foldl storePartition (some (∅, 0))) =
          if l.length + 1 < 2 ^ 31 then some (m.push l.length v, l.length + 1) else none := by
        rw [hfold]
        rfl
      rw [hstep]
      exact ⟨fun h => ⟨_, hm.push, if_pos h⟩, fun h => if_neg (Nat.not_lt.2 h)⟩
    · have hfold := ih.2 (Nat.not_lt.1 hlen)
      rw [hfold]
      exact ⟨fun h => absurd h (by omega), fun _ => rfl⟩

/-! ### Files of records -/

section

variable {edges : RecordFile pairs} {file : RecordFile numbers} {junk : ℕ → ℤ} {l : List ℤ}

/-- **The adjacency map is that of the file** if and only if the file ends with a digit:
behind a newline, `eof()` comes true one turn too late, and what the failed reads have left
is stored as an edge. -/
theorem fileToGraph_loads {junk : ℕ → ℤ × ℤ} :
    Loads (fun fuel => fileToGraph fuel edges.text ∅ junk) edges.records.length
      (GraphOf edges.values) ↔ edges.Clean := by
  have hrun : ∀ fuel, edges.records.length < fuel → fileToGraph fuel edges.text ∅ junk =
      .ok (loadEdges (edges.values ++ edges.phantom junk)) := fun fuel hfuel => by
    have hloop : readLoop extractPair storeEdge junk fuel 0 ∅ (opened edges.text) = _ :=
      edges.readLoop_file hfuel
    rw [fileToGraph, hloop]
    rfl
  rw [loads_iff_of_ok hrun, ← edges.append_phantom junk]
  constructor
  · intro h
    rw [List.append_right_eq_self, List.eq_nil_iff_forall_not_mem]
    rintro ⟨u, v⟩ hmem
    have hpos := List.count_pos_iff.2 hmem
    have hcount := h u v
    rw [count_loadEdges, List.count_append, List.count_append] at hcount
    omega
  · intro h u v
    rw [h, count_loadEdges]

/-- A file that ends with a digit is read as its edges. -/
theorem fileToGraph_of_clean {junk : ℕ → ℤ × ℤ} {fuel : ℕ} (h : edges.Clean)
    (hfuel : edges.records.length < fuel) :
    fileToGraph fuel edges.text ∅ junk = .ok (loadEdges edges.values) := by
  have hloop : readLoop extractPair storeEdge junk fuel 0 ∅ (opened edges.text) = _ :=
    edges.readLoop_file hfuel
  rw [fileToGraph, hloop, (edges.append_phantom junk).2 h]
  rfl

/-- **The list that is read from a file** has the numbers of its records behind what was
there, and then what a final newline adds. -/
theorem fileToTrainList_file {fuel : ℕ} (hfuel : file.records.length < fuel) :
    fileToTrainList fuel file.text l junk = .ok (l ++ (file.values ++ file.phantom junk)) := by
  have hloop : readLoop extract (fun nodes nodeId => nodes ++ [nodeId]) junk fuel 0 l
      (opened file.text) = _ := file.readLoop_file hfuel
  rw [fileToTrainList, hloop, List.foldl_append_eq_append, ← List.flatMap_def,
    List.flatMap_singleton']
  rfl

/-- **The list grows by the file** if and only if the file ends with a digit: behind a
newline, the loop takes one turn more and appends what the failed read has left. -/
theorem fileToTrainList_loads :
    Loads (fun fuel => fileToTrainList fuel file.text l junk) file.records.length
      (· = l ++ file.values) ↔ file.Clean := by
  rw [loads_iff_of_ok fun _ => fileToTrainList_file, List.append_cancel_left_eq,
    file.append_phantom]

/-- **Each list grows by its file** if and only if all the files end with a digit; the lists
behind the first three stay as they are. -/
theorem readNodeClass_loads {train val test : RecordFile numbers} {a b c : List ℤ}
    {rest : List (List ℤ)} {junk : ℕ → ℕ → ℤ} {n : ℕ}
    (hn : n = max train.records.length (max val.records.length test.records.length)) :
    Loads (fun fuel =>
        readNodeClass fuel train.text val.text test.text (a :: b :: c :: rest) junk) n
      (· = (a ++ train.values) :: (b ++ val.values) :: (c ++ test.values) :: rest) ↔
      train.Clean ∧ val.Clean ∧ test.Clean := by
  have hrun : ∀ fuel, n < fuel →
      readNodeClass fuel train.text val.text test.text (a :: b :: c :: rest) junk =
        .ok ((a ++ (train.values ++ train.phantom (junk 0))) ::
          (b ++ (val.values ++ val.phantom (junk 1))) ::
          (c ++ (test.values ++ test.phantom (junk 2))) :: rest) := fun fuel hfuel => by
    obtain ⟨htrain, hval, htest⟩ : train.records.length < fuel ∧ val.records.length < fuel ∧
        test.records.length < fuel := by omega
    rw [readNodeClass_eq, fileToTrainList_file htrain, fileToTrainList_file hval,
      fileToTrainList_file htest]
    rfl
  rw [loads_iff_of_ok hrun]
  simp only [List.cons.injEq, List.append_cancel_left_eq, RecordFile.append_phantom, and_true]

/-- **Every number is stored under its position** if and only if the file ends with a digit
and has less than `2 ^ 31` numbers. -/
theorem fileToPartition_loads :
    Loads (fun fuel => fileToPartition fuel file.text ∅ junk) file.records.length
      (PartitionOf file.values) ↔ file.Clean ∧ file.records.length < 2 ^ 31 := by
  have hlength : file.values.length = file.records.length := List.length_map ..
  have hloop : ∀ fuel, file.records.length < fuel →
      readLoop extract storePartition junk fuel 0 (some (∅, 0)) (opened file.text) =
        some ((file.values ++ file.phantom junk).foldl storePartition (some (∅, 0))) :=
    fun _ => file.readLoop_file
  obtain ⟨hfew, hmany⟩ := exists_partitionOf (file.values ++ file.phantom junk)
  rw [← file.append_phantom junk]
  by_cases hlen : (file.values ++ file.phantom junk).length < 2 ^ 31
  · obtain ⟨m, hm, hfold⟩ := hfew hlen
    have hrun : ∀ fuel, file.records.length < fuel →
        fileToPartition fuel file.text ∅ junk = .ok m := fun fuel hfuel => by
      rw [fileToPartition, hloop fuel hfuel, hfold]
      rfl
    rw [loads_iff_of_ok hrun]
    constructor
    · intro h
      refine ⟨hm.unique h, ?_⟩
      rw [List.length_append] at hlen
      omega
    · rintro ⟨h, -⟩
      rwa [h] at hm
  · have hfold := hmany (Nat.not_lt.1 hlen)
    have hrun : ∀ fuel, file.records.length < fuel →
        fileToPartition fuel file.text ∅ junk = .error .overflow := fun fuel hfuel => by
      rw [fileToPartition, hloop fuel hfuel, hfold]
      rfl
    rw [loads_iff_of_run hrun]
    constructor
    · rintro ⟨_, h, -⟩
      cases h
    · rintro ⟨h, hlt⟩
      rw [h, hlength] at hlen
      exact absurd hlt hlen

end

/-- **The readers load exactly the file** if and only if it has a record and ends with the
last digit of its last record; a partition has to have less than `2 ^ 31` numbers as well.
Otherwise they load one record more, with whatever was in the variables. -/
theorem loads_iff (edges : RecordFile pairs) (file train val test : RecordFile numbers)
    (edgeJunk : ℕ → ℤ × ℤ) (junk : ℕ → ℤ) (classJunk : ℕ → ℕ → ℤ) (l a b c : List ℤ)
    (rest : List (List ℤ)) :
    (Loads (fun fuel => fileToGraph fuel edges.text ∅ edgeJunk) edges.records.length
        (GraphOf edges.values) ↔ edges.Clean) ∧
    (Loads (fun fuel => fileToPartition fuel file.text ∅ junk) file.records.length
        (PartitionOf file.values) ↔ file.Clean ∧ file.records.length < 2 ^ 31) ∧
    (Loads (fun fuel => fileToTrainList fuel file.text l junk) file.records.length
        (· = l ++ file.values) ↔ file.Clean) ∧
    (Loads (fun fuel =>
          readNodeClass fuel train.text val.text test.text (a :: b :: c :: rest) classJunk)
        (max train.records.length (max val.records.length test.records.length))
        (· = (a ++ train.values) :: (b ++ val.values) :: (c ++ test.values) :: rest) ↔
      train.Clean ∧ val.Clean ∧ test.Clean) :=
  ⟨fileToGraph_loads, fileToPartition_loads, fileToTrainList_loads, readNodeClass_loads rfl⟩

/-- An edge `0 1`, with a final newline. -/
def finalNewline : RecordFile pairs where
  records := [
    { first := ⟨⟨[], .absent, [48], nofun, List.forall_mem_singleton.2 rfl⟩, rfl, nofun, by decide⟩
      second := ⟨⟨[32], .absent, [49], List.forall_mem_singleton.2 rfl,
        List.forall_mem_singleton.2 rfl⟩, rfl, nofun, by decide⟩
      apart := nofun }]
  trailing := [10]
  trailing_space := List.forall_mem_singleton.2 rfl
  separated := nofun

/-- The file is not loaded exactly, whatever is in the variables. -/
theorem not_loads_finalNewline : finalNewline.text = [48, 32, 49, 10] ∧
    finalNewline.values = [(0, 1)] ∧
    ¬ ∃ junk, Loads (fun fuel => fileToGraph fuel finalNewline.text ∅ junk) 1
      (GraphOf finalNewline.values) := by
  refine ⟨by decide, by decide, ?_⟩
  rintro ⟨junk, h⟩
  have hclean : finalNewline.Clean := fileToGraph_loads.1 h
  exact absurd hclean (by decide)

/-! ### Which files are read to their end -/

/-- The loops of a reader end, if each has fuel for `n` turns. -/
def Ends {σ : Type} (run : ℕ → Except ReadFault σ) (n : ℕ) : Prop :=
  ∀ fuel, n ≤ fuel → run fuel ≠ .error .fuel

/-- The turns that a file has to be read with. -/
def turns (content : List UInt8) : ℕ := max 1 content.length

section

variable {σ τ : Type} {o : Option σ} {f : σ → Except ReadFault τ} {p : Prop}
  {content train val test : List UInt8}

/-- A loop that came to its end did not run out of fuel. -/
theorem ended_ne_fuel : ended o ≠ .error .fuel ↔ o.isSome = true := by
  cases o with
  | none => exact ⟨fun h => absurd rfl h, nofun⟩
  | some s => exact ⟨fun _ => rfl, fun _ => nofun⟩

/-- A loop and what follows it. -/
theorem ended_bind_ne_fuel (hf : ∀ s, f s ≠ .error .fuel ↔ p) :
    (ended o).bind f ≠ .error .fuel ↔ o.isSome = true ∧ p := by
  cases o with
  | none => exact ⟨fun h => absurd rfl h, nofun⟩
  | some s => exact (hf s).trans (and_iff_right rfl).symm

/-- **A reader with one loop**: it ends on readable files, and on no others whatever the
number of turns. A stream that has failed reads nothing more and never comes to its end. -/
theorem ends_of_loop {ρ : Type} {read : ρ → IntStream → ρ × IntStream} {store : σ → ρ → σ}
    {junk : ℕ → ρ} {acc : σ} {j : ℕ} {run : ℕ → Except ReadFault τ}
    (hread : ∀ old s, (read old s).2 = next^[j + 1] s)
    (hrun : ∀ fuel, run fuel ≠ .error .fuel ↔
      (readLoop read store junk fuel 0 acc (opened content)).isSome = true) :
    (Ends run (turns content) ↔ Readable content) ∧
      ((∃ fuel, run fuel ≠ .error .fuel) ↔ Readable content) := by
  have hloop : ((∃ fuel, (readLoop read store junk fuel 0 acc (opened content)).isSome = true) ↔
      Readable content) ∧ _ := readLoop_isSome_iff hread
  obtain ⟨hiff, hends⟩ := hloop
  simp only [Ends, hrun]
  exact ⟨⟨fun h => hiff.1 ⟨_, h _ le_rfl⟩, hends⟩, hiff⟩

/-- **The loop over a graph file ends** exactly on readable content, and then within the
turns that the content allows; otherwise no fuel is enough. -/
theorem fileToGraph_ends (node_map : NodeMap) (junk : ℕ → ℤ × ℤ) :
    (Ends (fun fuel => fileToGraph fuel content node_map junk) (turns content) ↔
        Readable content) ∧
      ((∃ fuel, fileToGraph fuel content node_map junk ≠ .error .fuel) ↔ Readable content) :=
  ends_of_loop extractPair_snd fun _ => ended_ne_fuel

/-- The loop over a file of training nodes ends exactly on readable content as well. -/
theorem fileToTrainList_ends (content : List UInt8) (trainNodeList : List ℤ) (junk : ℕ → ℤ) :
    (Ends (fun fuel => fileToTrainList fuel content trainNodeList junk) (turns content) ↔
        Readable content) ∧
      ((∃ fuel, fileToTrainList fuel content trainNodeList junk ≠ .error .fuel) ↔
        Readable content) :=
  ends_of_loop (j := 0) extract_snd fun _ => ended_ne_fuel

/-- So does the loop over a file of partitions. -/
theorem fileToPartition_ends (node_partition_map : NodeMap) (junk : ℕ → ℤ) :
    (Ends (fun fuel => fileToPartition fuel content node_partition_map junk) (turns content) ↔
        Readable content) ∧
      ((∃ fuel, fileToPartition fuel content node_partition_map junk ≠ .error .fuel) ↔
        Readable content) := by
  have hrun : ∀ fuel, fileToPartition fuel content node_partition_map junk ≠ .error .fuel ↔
      (readLoop extract storePartition junk fuel 0 (some (node_partition_map, 0))
        (opened content)).isSome = true := fun fuel => by
    refine (ended_bind_ne_fuel (p := True) fun s => ?_).trans (and_iff_left trivial)
    refine iff_of_true ?_ trivial
    cases s <;> nofun
  exact ends_of_loop (j := 0) extract_snd hrun

/-- **The three loops** of `readNodeClass` end if and only if those of the files do, each
with the fuel that is given. -/
theorem readNodeClass_ne_fuel {fuel : ℕ} {a b c : List ℤ} {rest : List (List ℤ)}
    {junk : ℕ → ℕ → ℤ} :
    readNodeClass fuel train val test (a :: b :: c :: rest) junk ≠ .error .fuel ↔
      fileToTrainList fuel train a (junk 0) ≠ .error .fuel ∧
        fileToTrainList fuel val b (junk 1) ≠ .error .fuel ∧
          fileToTrainList fuel test c (junk 2) ≠ .error .fuel := by
  rw [readNodeClass_eq]
  simp only [fileToTrainList, ended_ne_fuel]
  refine ended_bind_ne_fuel fun a => ended_bind_ne_fuel fun b => ?_
  refine (ended_bind_ne_fuel (p := True) fun c => ?_).trans (and_iff_left trivial)
  exact iff_of_true nofun trivial

/-- The three loops over the files of a node class all end exactly if the three files are
readable. -/
theorem readNodeClass_ends (a b c : List ℤ) (rest : List (List ℤ)) (junk : ℕ → ℕ → ℤ) :
    (Ends (fun fuel => readNodeClass fuel train val test (a :: b :: c :: rest) junk)
        (max (turns train) (max (turns val) (turns test))) ↔
        Readable train ∧ Readable val ∧ Readable test) ∧
      ((∃ fuel, readNodeClass fuel train val test (a :: b :: c :: rest) junk ≠ .error .fuel) ↔
        Readable train ∧ Readable val ∧ Readable test) := by
  have htrain := fileToTrainList_ends train a (junk 0)
  have hval := fileToTrainList_ends val b (junk 1)
  have htest := fileToTrainList_ends test c (junk 2)
  simp only [Ends, readNodeClass_ne_fuel]
  have hends : Readable train ∧ Readable val ∧ Readable test → ∀ fuel,
      max (turns train) (max (turns val) (turns test)) ≤ fuel →
      fileToTrainList fuel train a (junk 0) ≠ .error .fuel ∧
        fileToTrainList fuel val b (junk 1) ≠ .error .fuel ∧
          fileToTrainList fuel test c (junk 2) ≠ .error .fuel := by
    rintro ⟨h0, h1, h2⟩ fuel hfuel
    rw [max_le_iff, max_le_iff] at hfuel
    exact ⟨htrain.1.2 h0 fuel hfuel.1, hval.1.2 h1 fuel hfuel.2.1, htest.1.2 h2 fuel hfuel.2.2⟩
  have hreadable : (∃ fuel, fileToTrainList fuel train a (junk 0) ≠ .error .fuel ∧
        fileToTrainList fuel val b (junk 1) ≠ .error .fuel ∧
          fileToTrainList fuel test c (junk 2) ≠ .error .fuel) →
      Readable train ∧ Readable val ∧ Readable test := fun ⟨fuel, h0, h1, h2⟩ =>
    ⟨htrain.2.1 ⟨fuel, h0⟩, hval.2.1 ⟨fuel, h1⟩, htest.2.1 ⟨fuel, h2⟩⟩
  exact ⟨⟨fun h => hreadable ⟨_, h _ le_rfl⟩, hends⟩, hreadable, fun h => ⟨_, hends h _ le_rfl⟩⟩

end

/-- **A reader ends if and only if its files are readable**, and then with no more turns
than there are characters (one for an empty file).  On any other file it does not end,
whatever the number of turns. -/
theorem ends_iff (content train val test : List UInt8) (m : NodeMap) (l a b c : List ℤ)
    (rest : List (List ℤ)) (edgeJunk : ℕ → ℤ × ℤ) (junk : ℕ → ℤ) (classJunk : ℕ → ℕ → ℤ) :
    ((Ends (fun fuel => fileToGraph fuel content m edgeJunk) (turns content) ↔
        Readable content) ∧
      ((∃ fuel, fileToGraph fuel content m edgeJunk ≠ .error .fuel) ↔ Readable content)) ∧
    ((Ends (fun fuel => fileToPartition fuel content m junk) (turns content) ↔
        Readable content) ∧
      ((∃ fuel, fileToPartition fuel content m junk ≠ .error .fuel) ↔ Readable content)) ∧
    ((Ends (fun fuel => fileToTrainList fuel content l junk) (turns content) ↔
        Readable content) ∧
      ((∃ fuel, fileToTrainList fuel content l junk ≠ .error .fuel) ↔ Readable content)) ∧
    ((Ends (fun fuel => readNodeClass fuel train val test (a :: b :: c :: rest) classJunk)
        (max (turns train) (max (turns val) (turns test))) ↔
        Readable train ∧ Readable val ∧ Readable test) ∧
      ((∃ fuel, readNodeClass fuel train val test (a :: b :: c :: rest) classJunk ≠
        .error .fuel) ↔ Readable train ∧ Readable val ∧ Readable test)) :=
  ⟨fileToGraph_ends m edgeJunk, fileToPartition_ends m junk, fileToTrainList_ends content l junk,
    readNodeClass_ends a b c rest classJunk⟩

/-- On a file with the text `a` no loop ends. -/
theorem not_ends_letter : ¬ ∃ n, Ends (fun fuel => fileToGraph fuel [97] ∅ fun _ => (0, 0)) n := by
  rintro ⟨n, h⟩
  have hreadable : Readable [97] := (fileToGraph_ends ∅ _).2.1 ⟨n, h n le_rfl⟩
  have heof : (next^[1] (opened [97])).eofbit = true := iterate_of_readable hreadable
  exact absurd heof (by decide)

end Partition
end BearRpc
