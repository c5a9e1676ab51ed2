/-
# What the partitions serve

When `partition_graph` returns, the ranges it wrote tell the partition of every node and of
every edge, the book of `load_partition_book` has them, and the features of a node are found
at `id - start` in its partition (`nodes_served`).

The code checks that the nodes of a partition are stored in the order of their ids.  Of the
edges it sorts the ids before it looks at them, and their features are stored in the order
of the partition graph: they are found at `id - start` if and only if that is the order of
the ids (`edges_served`).
-/

import BearRpc.Store.Returns

namespace BearRpc
namespace Store

open Theory

variable {κ τ α : Type} {g : Graph τ α} {call : Call} {halo : List ℕ → List Part}
  {num_parts : ℕ} {node_parts : List ℕ} {saved : Saved τ α}

/-- A feature is found for an item: at `id - start` in the file of its partition is what the
graph has for the original item. -/
def Found (gathers : Bool) (side : Side κ α) (stored tensor : List α) (start : ℕ) (row : Row) :
    Prop :=
  ∃ (o : ℕ) (x : α), original gathers side row = some o ∧ tensor[o]? = some x ∧
    stored[row.id - start]? = some x

/-- The place of an item among consecutive ids. -/
theorem id_of_range' {rows : List Row} {a n k : ℕ} {row : Row}
    (h : rows.map Row.id = List.range' a n) (hk : rows[k]? = some row) : row.id = a + k := by
  have hid : (rows.map Row.id)[k]? = some row.id := by
    rw [List.getElem?_map, hk]
    rfl
  rw [h] at hid
  obtain ⟨hlt, hget⟩ := List.getElem?_eq_some_iff.1 hid
  rw [List.getElem_range', Nat.one_mul] at hget
  exact hget.symm

theorem ne_nil_of_getElem? {β : Type} {l : List β} {k : ℕ} {x : β} (h : l[k]? = some x) :
    l ≠ [] := by
  rintro rfl
  cases h

/-- Some book is loaded for every partition, and it has the ranges that were saved. -/
def Loaded [DecidableEq τ] (g : Graph τ α) (graph_name : List Char) (num_parts : ℕ)
    (saved : Saved τ α) : Prop :=
  ∀ p, p < num_parts → ∃ book,
    loadPartitionBook g.edges (dumpPartConfig g graph_name num_parts saved) p = .ok book ∧
      (∀ type ranges, book.node_map.lookup type = some ranges ↔ (type, ranges) ∈ saved.node_map) ∧
      ∀ type ranges, book.edge_map.lookup type = some ranges ↔ (type, ranges) ∈ saved.edge_map

/-- **The saved ranges are the loaded ones**, in every partition: the book that is read has
the maps that were written, whatever the name of the graph is. -/
theorem loaded_of_ok [DecidableEq τ]
    (h : partitionGraph call halo g num_parts node_parts = .ok saved) (hnum : 0 < num_parts)
    (hhalo : ∀ part ∈ halo (override node_parts), part.Reshuffled g.isHomogeneous)
    (hread : Readable g) (graph_name : List Char) : Loaded g graph_name num_parts saved := by
  obtain ⟨-, nodes, edges, ⟨-, hn, -⟩, ⟨-, he, -⟩, hfeats⟩ := partitionGraph_ok h hhalo
  obtain ⟨_, _, -, hnodes, hedges, -⟩ := hfeats 0 hnum
  have hcomplete := complete_of_idMap hn he (ne_nil_of_getElem? hnodes)
    (ne_nil_of_getElem? hedges)
  intro p hp
  obtain ⟨book, hbook, hnperm, heperm, -⟩ := exists_book hread hcomplete hp
  exact ⟨book, hbook, fun _ _ => lookup_iff_mem_items.trans hnperm.mem_iff,
    fun _ _ => lookup_iff_mem_items.trans heperm.mem_iff⟩

/-- **The nodes are served.**  The ranges of each type are in order, add up to all its nodes,
and hold the ids of the nodes of that type in each partition; the books have them; every
feature of a node is found in the file of its partition. -/
theorem nodes_served [DecidableEq τ]
    (h : partitionGraph call halo g num_parts node_parts = .ok saved) (hnum : 1 < num_parts)
    (hhalo : ∀ part ∈ halo (override node_parts), part.Reshuffled g.isHomogeneous)
    (hread : Readable g) (hnamed : Named g.nodes) (graph_name default_type : List Char) :
    Loaded g graph_name num_parts saved ∧
      ∀ i type, g.nodes.types[i]? = some type → ∃ ranges, (type, ranges) ∈ saved.node_map ∧
        Serves g.isHomogeneous g.nodes ((halo (override node_parts)).map Part.nodes) i type
          ranges ∧
        ∀ p, p < num_parts → ∃ rows r feats,
          ((halo (override node_parts)).map Part.nodes)[p]? = some rows ∧ ranges[p]? = some r ∧
          saved.feats[p]? = some feats ∧
          ∀ name tensor, (name, tensor) ∈ g.nodes.data type → name ∉ nodeSkipped →
            ∃ stored, (loadFeats default_type feats.1).lookup (featName g.nodes type name) =
                some stored ∧
              ∀ row ∈ owned g.isHomogeneous g.nodes i rows,
                Found (1 < g.nodes.types.length) g.nodes stored tensor r.1 row := by
  obtain ⟨-, nodes, edges, ⟨htyped, hmap, hsorted⟩, -, hfeats⟩ := partitionGraph_ok h hhalo
  refine ⟨loaded_of_ok h (Nat.zero_lt_of_lt hnum) hhalo hread graph_name, fun i type htype => ?_⟩
  obtain ⟨ranges, hmem, hserves, hparts⟩ :=
    side_files hmap hsorted (fun _ => .rfl) htyped htype
  refine ⟨ranges, hmem, hserves, fun p hp => ?_⟩
  obtain ⟨l, -, feats, hl, -, hf, hsaved, -⟩ := hfeats p hp
  obtain ⟨rows, r, hrows, hr, hsame, hexact⟩ := hparts p l hl
  refine ⟨rows, r, feats, hrows, hr, hf, fun name tensor hname hskip => ?_⟩
  obtain ⟨stored, hstored, hat⟩ := feature_at hsaved hsame hnamed htype hname hskip default_type
  refine ⟨stored, hstored, fun row hrow => ?_⟩
  obtain ⟨k, hk⟩ := List.getElem?_of_mem hrow
  obtain ⟨o, x, ho, hx, hplace⟩ := hat k row hk
  refine ⟨o, x, ho, hx, ?_⟩
  rw [id_of_range' hexact hk, Nat.add_sub_cancel_left]
  exact hplace

/-- Partition 1 has the last node. -/
theorem last_of_loops {n : ℕ} {node_parts : List ℕ} {type : List Char}
    {ranges : List (ℕ × ℕ)} {rows : List Row} {r : ℕ × ℕ}
    (h : Serves true (loops n).nodes ((loopsHalo (override node_parts)).map Part.nodes) 0 type
      ranges)
    (hsplit : override node_parts = List.replicate n 0 ++ [1])
    (hrows : ((loopsHalo (override node_parts)).map Part.nodes)[1]? = some rows)
    (hr : ranges[1]? = some r) :
    r.1 = n ∧ ⟨true, n, n, none⟩ ∈ owned true (loops n).nodes 0 rows := by
  have hmem := h.mem 1 rows r hrows hr
  rw [hsplit, loopsHalo_replicate] at hrows
  cases hrows
  rw [owned_rowsFrom] at hmem ⊢
  have hrow : ⟨true, n, n, none⟩ ∈ rowsFrom n 1 := List.mem_singleton_self _
  obtain ⟨hle, hlt⟩ := (hmem n).2 ⟨_, hrow, rfl⟩
  obtain ⟨row, hrow', hid⟩ := (hmem r.1).1 ⟨le_refl _, by omega⟩
  cases List.mem_singleton.1 hrow'
  exact ⟨hid.symm, hrow⟩

theorem readable_loops (n : ℕ) : Readable (loops n) :=
  ⟨List.cons_ne_nil _ _, List.nodup_singleton _, List.nodup_singleton _, fun _ _ => rfl⟩

theorem reshuffled_loops {n : ℕ} (hn : n = 98308) :
    ∀ part ∈ loopsHalo (override (List.replicate (n + 1) 0)),
      part.Reshuffled (loops n).isHomogeneous := by
  have hpromises : Promises (loops n) (loopsHalo (override (List.replicate (n + 1) 0))) := by
    rw [override_replicate hn]
    exact promises_loops n
  exact hpromises.reshuffled

/-- The last node of the graph is served by partition 1. -/
theorem nodes_served_loops : ∃ saved feats stored,
    partitionGraph metisCall loopsHalo (loops 98308) 2 (List.replicate 98309 0) = .ok saved ∧
      saved.feats[1]? = some feats ∧
      (loadFeats "_N".toList feats.1).lookup "_N/x".toList = some stored ∧
      stored[0]? = some 98308 := by
  have hsplit := override_replicate rfl
  obtain ⟨saved, hok⟩ := exists_saved_loops rfl
  obtain ⟨-, hall⟩ := nodes_served hok (by decide) (reshuffled_loops rfl) (readable_loops 98308)
    ⟨by decide, by decide, by decide⟩ "loops".toList "_N".toList
  obtain ⟨ranges, -, hserves, hparts⟩ := hall 0 _ rfl
  obtain ⟨rows, r, feats, hrows, hr, hfeats, hfound⟩ := hparts 1 (by decide)
  obtain ⟨stored, hstored, hrow⟩ := hfound _ _ (List.mem_singleton_self _) (by decide)
  have hlast := last_of_loops hserves hsplit hrows hr
  obtain ⟨o, x, ho, hx, hget⟩ := hrow ⟨true, 98308, 98308, none⟩ hlast.2
  cases ho
  rw [hlast.1] at hget
  rw [show (List.range 98309)[98308]? = some 98308 from List.getElem?_range (by decide)] at hx
  cases hx
  exact ⟨saved, feats, stored, hok, hfeats, hstored, hget⟩

/-- **Where the features are in the order of the rows**, they are found if and only if this is
the order of the ids. -/
theorem found_iff {gathers : Bool} {side : Side κ α} {rows : List Row} {stored tensor : List α}
    {a n : ℕ} (hids : npSort (rows.map Row.id) = List.range' a n)
    (hat : ∀ (k : ℕ) (row : Row), rows[k]? = some row → ∃ (o : ℕ) (x : α),
      original gathers side row = some o ∧ tensor[o]? = some x ∧ stored[k]? = some x)
    (htensor : tensor.Nodup) (horig : (rows.map (original gathers side)).Nodup) :
    (∀ row ∈ rows, Found gathers side stored tensor a row) ↔
      (rows.map Row.id).Pairwise (· < ·) := by
  constructor
  · intro hfound
    suffices heq : rows.map Row.id = List.range' a n from heq ▸ List.pairwise_lt_range'
    have hperm : (List.range' a n).Perm (rows.map Row.id) := hids ▸ npSort_perm _
    have hn : n = rows.length := by
      rw [← List.length_map (f := Row.id), ← hperm.length_eq, List.length_range']
    refine List.ext_getElem (by rw [List.length_map, List.length_range', hn]) fun k hk _ => ?_
    rw [List.length_map] at hk
    rw [List.getElem_map, List.getElem_range', Nat.one_mul]
    -- the row `k` is looked up at the place `j`
    have hmem : rows[k].id ∈ List.range' a n :=
      hperm.mem_iff.2 (List.mem_map_of_mem (List.getElem_mem hk))
    obtain ⟨j, hj, hid⟩ := List.mem_range'.1 hmem
    rw [Nat.one_mul] at hid
    obtain ⟨o, x, ho, hx, hplace⟩ := hfound rows[k] (List.getElem_mem hk)
    rw [hid, Nat.add_sub_cancel_left] at hplace
    obtain ⟨o', x', ho', hx', hplace'⟩ := hat j rows[j] (List.getElem?_eq_getElem (hn ▸ hj))
    obtain rfl : x = x' := Option.some.inj (hplace.symm.trans hplace')
    obtain ⟨hlt, hget⟩ := List.getElem?_eq_some_iff.1 hx
    obtain ⟨hlt', hget'⟩ := List.getElem?_eq_some_iff.1 hx'
    obtain rfl : o = o' := (htensor.getElem_inj_iff).1 (hget.trans hget'.symm)
    have hkj : k = j := by
      have hk' : k < (rows.map (original gathers side)).length := by rwa [List.length_map]
      have hj' : j < (rows.map (original gathers side)).length := by rwa [List.length_map, ← hn]
      have heq : (rows.map (original gathers side))[k] = (rows.map (original gathers side))[j] := by
        rw [List.getElem_map, List.getElem_map]
        exact ho.trans ho'.symm
      exact horig.getElem_inj_iff.1 heq
    rw [hid, hkj]
  · intro hsorted row hrow
    obtain ⟨k, hk⟩ := List.getElem?_of_mem hrow
    obtain ⟨o, x, ho, hx, hplace⟩ := hat k row hk
    have hle : (rows.map Row.id).Pairwise (· ≤ ·) := hsorted.imp fun {_ _} hlt => le_of_lt hlt
    rw [npSort, hle.insertionSort_eq] at hids
    refine ⟨o, x, ho, hx, ?_⟩
    rw [id_of_range' hids hk, Nat.add_sub_cancel_left]
    exact hplace

/-- **The edges are served**, and their features are found if and only if the partition graph
has them in the order of their ids. -/
theorem edges_served [DecidableEq τ]
    (h : partitionGraph call halo g num_parts node_parts = .ok saved) (hnum : 1 < num_parts)
    (hhalo : ∀ part ∈ halo (override node_parts), part.Reshuffled g.isHomogeneous)
    (hread : Readable g) (hnamed : Named g.edges) (graph_name default_type : List Char) :
    Loaded g graph_name num_parts saved ∧
      ∀ i type, g.edges.types[i]? = some type → ∃ ranges, (type, ranges) ∈ saved.edge_map ∧
        Serves g.isHomogeneous g.edges ((halo (override node_parts)).map Part.edges) i type
          ranges ∧
        ∀ p, p < num_parts → ∃ rows r feats,
          ((halo (override node_parts)).map Part.edges)[p]? = some rows ∧ ranges[p]? = some r ∧
          saved.feats[p]? = some feats ∧
          ∀ name tensor, (name, tensor) ∈ g.edges.data type → name ∉ edgeSkipped →
            tensor.Nodup →
            ((owned g.isHomogeneous g.edges i rows).map
              (original (!g.isHomogeneous) g.edges)).Nodup →
            ∃ stored, (loadFeats default_type feats.2).lookup (featName g.edges type name) =
                some stored ∧
              ((∀ row ∈ owned g.isHomogeneous g.edges i rows,
                  Found (!g.isHomogeneous) g.edges stored tensor r.1 row) ↔
                ((owned g.isHomogeneous g.edges i rows).map Row.id).Pairwise (· < ·)) := by
  obtain ⟨-, nodes, edges, -, ⟨htyped, hmap, hsorted⟩, hfeats⟩ := partitionGraph_ok h hhalo
  refine ⟨loaded_of_ok h (Nat.zero_lt_of_lt hnum) hhalo hread graph_name, fun i type htype => ?_⟩
  obtain ⟨ranges, hmem, hserves, hparts⟩ := side_files hmap hsorted npSort_perm htyped htype
  refine ⟨ranges, hmem, hserves, fun p hp => ?_⟩
  obtain ⟨-, l, feats, -, hl, hf, -, hsaved⟩ := hfeats p hp
  obtain ⟨rows, r, hrows, hr, hsame, hexact⟩ := hparts p l hl
  refine ⟨rows, r, feats, hrows, hr, hf, fun name tensor hname hskip htensor horig => ?_⟩
  obtain ⟨stored, hstored, hat⟩ := feature_at hsaved hsame hnamed htype hname hskip default_type
  exact ⟨stored, hstored, found_iff hexact hat htensor horig⟩

/-- The two loops of the last node are stored out of order in partition 1, and the features
found for them are not theirs. -/
theorem edges_served_loops : ∃ saved feats stored,
    partitionGraph metisCall loopsHalo (loops 98308) 2 (List.replicate 98309 0) = .ok saved ∧
      saved.feats[1]? = some feats ∧
      (loadFeats "_N:_E:_N".toList feats.2).lookup "_N:_E:_N/w".toList = some stored ∧
      ¬ ∀ row ∈ lastLoops, Found false (loops 98308).edges stored [7, 9, 11] 1 row := by
  have hsplit := override_replicate rfl
  obtain ⟨saved, hok⟩ := exists_saved_loops rfl
  obtain ⟨-, hall⟩ := edges_served hok (by decide) (reshuffled_loops rfl) (readable_loops 98308)
    ⟨by decide, by decide, by decide⟩ "loops".toList "_N:_E:_N".toList
  obtain ⟨ranges, -, hserves, hparts⟩ := hall 0 _ rfl
  obtain ⟨rows, r, feats, hrows, hr, hfeats, hfound⟩ := hparts 1 (by decide)
  have hmem := hserves.mem 1 rows r hrows hr
  rw [hsplit, loopsHalo_replicate] at hrows
  cases hrows
  -- the range starts with the smaller id
  have hstart : r.1 = 1 := by
    obtain ⟨hle, hlt⟩ := (hmem 1).2 ⟨⟨true, 1, 1, none⟩, by decide, rfl⟩
    obtain ⟨row, hrow, hid⟩ := (hmem r.1).1 ⟨le_refl _, by omega⟩
    have hpos : ∀ row ∈ owned true (loops 98308).edges 0 lastLoops, 1 ≤ row.id := by decide
    exact Nat.le_antisymm hle (hid ▸ hpos row hrow)
  rw [hstart] at hfound
  obtain ⟨stored, hstored, hiff⟩ := hfound _ _ (List.mem_singleton_self _) (by decide) (by decide)
    (by decide)
  refine ⟨saved, feats, stored, hok, hfeats, hstored, fun hfound => ?_⟩
  have hsorted := hiff.1 hfound
  revert hsorted
  decide

end Store
end BearRpc
