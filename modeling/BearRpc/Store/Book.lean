/-
# The maps in the configuration file

The ranges in the book of `load_partition_book` are those that `_dump_part_config` got
(`exists_book`).  The maps of the file are dictionaries: what is known of one is the list of
its items, up to their order (`toDict_perm`, `rebuild_ok`).  The edge types are written as
texts and read again, for which the library has to read each text as the type it was made
of (`Readable`).

A file of the old format, which has the ends of the ranges only, gives the same ranges
where there is no gap between them (`partRanges_stops`).
-/

import BearRpc.Store.PartitionGraph
import BearRpc.Theory.Fallible
import Mathlib.Data.List.Induction
import Mathlib.Data.List.Nodup
import Mathlib.Data.List.Perm.Basic

namespace BearRpc
namespace Store

open Theory

variable {κ κ' τ α β γ : Type}

/-! ### Dictionaries -/

theorem keys_eq_map_items (d : Dict κ β) : d.keys = (items d).map Prod.fst := by
  rw [items, List.map_map]
  rfl

theorem lookup_iff_mem_items [DecidableEq κ] {d : Dict κ β} {key : κ} {data : β} :
    d.lookup key = some data ↔ (key, data) ∈ items d := by
  have hentries : (⟨key, data⟩ : Sigma fun _ : κ => β) ∈ d.entries ↔ (key, data) ∈ items d := by
    rw [items, List.mem_map]
    constructor
    · intro h
      exact ⟨_, h, rfl⟩
    · rintro ⟨e, he, heq⟩
      cases heq
      exact he
  rw [← hentries]
  exact AList.mem_lookup_iff

/-- A dictionary has its items in some order. -/
theorem toDict_perm [DecidableEq κ] {l : List (κ × β)} (h : (l.map Prod.fst).Nodup) :
    (items (toDict l)).Perm l := by
  induction l using List.reverseRecOn with
  | nil => exact .nil
  | append_singleton l e ih =>
    rw [List.map_append, List.nodup_append] at h
    have hperm := ih h.1
    have hnew : e.1 ∉ toDict l := by
      rw [AList.mem_keys, keys_eq_map_items, (hperm.map Prod.fst).mem_iff]
      exact fun hmem => h.2.2 _ hmem _ (by simp) rfl
    rw [toDict, List.foldl_append]
    change (items ((toDict l).insert e.1 e.2)).Perm (l ++ [e])
    rw [items, AList.entries_insert_of_notMem hnew]
    exact (List.Perm.cons e hperm).trans (List.perm_append_singleton e l).symm

/-- **A loop over the items** makes the dictionary of the new items, if it fails on none of
them and no two get one key. -/
theorem rebuild_ok [DecidableEq κ'] {f : κ × β → Except Failure (κ' × γ)}
    {orig l : List (κ × β)} {out : List (κ' × γ)} (horig : orig.Perm l)
    (h : List.Forall₂ (fun x y => f x = .ok y) l out) (hnd : (out.map Prod.fst).Nodup) :
    ∃ d, rebuild f orig = .ok d ∧ (items d).Perm out := by
  obtain ⟨out', hout', hperm⟩ := List.perm_comp_forall₂ horig h
  refine ⟨toDict out', bind_ok_iff.2 ⟨out', mapM_ok_iff.2 hout', rfl⟩, ?_⟩
  exact (toDict_perm ((hperm.map Prod.fst).nodup_iff.2 hnd)).trans hperm

/-- The check of the keys passes where both have the keys of one list. -/
theorem checkKeys_ok [DecidableEq κ] {types : Dict κ β} {map : Dict κ γ} {l : List (κ × β)}
    {l' : List (κ × γ)} (htypes : (items types).Perm l) (hmap : (items map).Perm l')
    (hkeys : l'.map Prod.fst = l.map Prod.fst) : checkKeys types map = .ok () := by
  refine forM_ok_iff.2 fun e he => if_pos ?_
  rw [AList.mem_keys, keys_eq_map_items, (htypes.map Prod.fst).mem_iff, ← hkeys]
  exact List.mem_map_of_mem (hmap.mem_iff.1 he)

/-! ### The ranges of one key -/

/-- **What is written is what is read**: from a list of pairs, `_get_part_ranges` makes the
same list, as long as there is a first entry to tell the format from. -/
theorem partRanges_written {ranges : List (ℕ × ℕ)} (h : ranges ≠ []) :
    partRanges (ranges.map fun r => .range r.1 r.2) = .ok ranges := by
  cases ranges with
  | nil => exact absurd rfl h
  | cons r ranges =>
    rw [List.map_cons, partRanges, ← List.map_cons (f := fun r : ℕ × ℕ => Entry.range r.1 r.2)]
    refine mapM_ok_iff.2 ?_
    rw [List.forall₂_map_left_iff, List.forall₂_same]
    exact fun _ _ => rfl

/-- Every range starts where the one before it ends, the first at `start`. -/
def Tiles : ℕ → List (ℕ × ℕ) → Prop
  | _, [] => True
  | start, r :: ranges => r.1 = start ∧ Tiles r.2 ranges

/-- **The old format says the same** of ranges without gaps: from their ends alone, each
range begins where the one before it ends. -/
theorem partRanges_stops {ranges : List (ℕ × ℕ)} (h : Tiles 0 ranges) (hne : ranges ≠ []) :
    partRanges (ranges.map fun r => .stop r.2) = .ok ranges := by
  have hfrom : ∀ (ranges : List (ℕ × ℕ)) (start : ℕ), Tiles start ranges →
      fromStops start (ranges.map fun r => .stop r.2) = .ok ranges := by
    intro ranges
    induction ranges with
    | nil => exact fun _ _ => rfl
    | cons r ranges ih =>
      rintro start ⟨rfl, htiles⟩
      exact bind_ok_iff.2 ⟨ranges, ih r.2 htiles, rfl⟩
  cases ranges with
  | nil => exact absurd rfl hne
  | cons r ranges => exact hfrom (r :: ranges) 0 h

/-- **The ranges of a dictionary** of written maps: for each key its own, and the dictionary
is returned if none of the lists is empty. -/
theorem getPartRanges_ok [DecidableEq κ] {d : Dict κ (List Entry)}
    {map : List (κ × List (ℕ × ℕ))} (hd : (items d).Perm (written map))
    (hnd : (map.map Prod.fst).Nodup) (hne : ∀ e ∈ map, e.2 ≠ []) :
    ∃ ranges, getPartRanges d = .ok ranges ∧ (items ranges).Perm map := by
  refine rebuild_ok hd ?_ hnd
  rw [written, List.forall₂_map_left_iff, List.forall₂_same]
  rintro ⟨type, ranges⟩ he
  exact bind_ok_iff.2 ⟨ranges, partRanges_written (hne _ he), rfl⟩

/-! ### The book -/

/-- The graphs whose file can be read: there is a node type, no type is there twice, and the
library reads the text of an edge type as this type. -/
structure Readable (g : Graph τ α) : Prop where
  nonempty : g.nodes.types ≠ []
  nodes : g.nodes.types.Nodup
  edges : g.edges.types.Nodup
  ofStr : ∀ type ∈ g.edges.types, g.edges.ofStr (g.edges.str type) = some type

variable {g : Graph τ α}

/-- A node type is its own key. -/
theorem items_texts_nodes (h : Readable g) {map : List (List Char × β)}
    (hkeys : map.map Prod.fst = g.nodes.types) : (items (g.nodes.texts map)).Perm map := by
  have hself : (map.map fun e => (g.nodes.str e.1, e.2)) = map := by
    conv_rhs => rw [← List.map_id map]
    exact List.map_congr_left fun e _ => Prod.ext (g.str_nodes e.1) rfl
  have hperm : (items (toDict map)).Perm map := toDict_perm (hkeys ▸ h.nodes)
  rwa [Side.texts, hself]

/-- The texts of different edge types differ. -/
theorem nodup_str_edges (h : Readable g) : (g.edges.types.map g.edges.str).Nodup := by
  refine List.Nodup.map_on (fun type htype type' htype' heq => ?_) h.edges
  have hread := (h.ofStr type htype).symm.trans ((congrArg _ heq).trans (h.ofStr type' htype'))
  exact Option.some.inj hread

/-- **The edge types are read again**: the texts that were made of them for the file turn
into a dictionary with the edge types as keys, and no two of them fall together. -/
theorem formatKeys_texts [DecidableEq τ] (h : Readable g) {map : List (τ × β)}
    (hkeys : map.map Prod.fst = g.edges.types) :
    ∃ d, formatKeys (etypeStrToTuple g.edges) (g.edges.texts map) = .ok d ∧
      (items d).Perm map := by
  have htexts : (items (g.edges.texts map)).Perm
      (map.map fun e => (g.edges.str e.1, e.2)) := by
    refine toDict_perm ?_
    have hstr : (map.map fun e => (g.edges.str e.1, e.2)).map Prod.fst =
        g.edges.types.map g.edges.str := by
      rw [← hkeys, List.map_map, List.map_map]
      rfl
    exact hstr ▸ nodup_str_edges h
  refine rebuild_ok htexts ?_ (hkeys ▸ h.edges)
  rw [List.forall₂_map_left_iff, List.forall₂_same]
  rintro ⟨type, data⟩ he
  have htype : type ∈ g.edges.types := hkeys ▸ List.mem_map_of_mem he
  have hread : etypeStrToTuple g.edges (g.edges.str type) = .ok type := by
    rw [etypeStrToTuple, h.ofStr type htype]
  exact bind_ok_iff.2 ⟨type, hread, rfl⟩

/-- What `partition_graph` writes has the ranges of all types, and no list of them is empty. -/
structure Saved.Complete (g : Graph τ α) (saved : Saved τ α) : Prop where
  nodes : saved.node_map.map Prod.fst = g.nodes.types
  edges : saved.edge_map.map Prod.fst = g.edges.types
  node_ranges : ∀ e ∈ saved.node_map, e.2 ≠ []
  edge_ranges : ∀ e ∈ saved.edge_map, e.2 ≠ []

theorem map_fst_written (map : List (κ × List (ℕ × ℕ))) :
    (written map).map Prod.fst = map.map Prod.fst := by
  rw [written, List.map_map]
  rfl

/-- **The book has the maps that were saved**, and its types are numbered as in the graph:
reading the file that was written fails for no partition. -/
theorem exists_book [DecidableEq τ] {saved : Saved τ α} {graph_name : List Char}
    {num_parts part_id : ℕ} (h : Readable g) (hsaved : saved.Complete g)
    (hpart : part_id < num_parts) :
    ∃ book, loadPartitionBook g.edges (dumpPartConfig g graph_name num_parts saved) part_id =
        .ok book ∧
      (items book.node_map).Perm saved.node_map ∧ (items book.edge_map).Perm saved.edge_map ∧
      (items book.ntypes).Perm g.nodes.types.zipIdx ∧
      (items book.etypes).Perm g.edges.types.zipIdx := by
  have hwn := (map_fst_written saved.node_map).trans hsaved.nodes
  have hwe := (map_fst_written saved.edge_map).trans hsaved.edges
  have hzn : g.nodes.types.zipIdx.map Prod.fst = g.nodes.types := List.zipIdx_map_fst ..
  have hze : g.edges.types.zipIdx.map Prod.fst = g.edges.types := List.zipIdx_map_fst ..
  have hnodes := items_texts_nodes h hwn
  have hntypes := items_texts_nodes h hzn
  obtain ⟨edge_map, hedges, hedge_map⟩ := formatKeys_texts h hwe
  obtain ⟨etypes, hetypes, hetype_map⟩ := formatKeys_texts h hze
  obtain ⟨node_ranges, hnr, hnperm⟩ :=
    getPartRanges_ok hnodes (hsaved.nodes ▸ h.nodes) hsaved.node_ranges
  obtain ⟨edge_ranges, her, heperm⟩ :=
    getPartRanges_ok hedge_map (hsaved.edges ▸ h.edges) hsaved.edge_ranges
  have hconfig : loadPartConfig g.edges (dumpPartConfig g graph_name num_parts saved) =
      .ok (edge_map, etypes) := by
    have hformatted : (do
        let edge_map ← formatKeys (etypeStrToTuple g.edges) (g.edges.texts (written saved.edge_map))
        let etypes ← formatKeys (etypeStrToTuple g.edges) (g.edges.texts g.edges.types.zipIdx)
        return (edge_map, etypes)) = .ok (edge_map, etypes) :=
      bind_ok_iff.2 ⟨edge_map, hedges, bind_ok_iff.2 ⟨etypes, hetypes, rfl⟩⟩
    rw [loadPartConfig]
    dsimp only [dumpPartConfig]
    rw [hformatted]
  -- the map of the nodes is not empty, so the first key is looked at
  have hlen : ¬ (g.nodes.texts (written saved.node_map)).entries.length = 0 := by
    have hperm := hnodes.length_eq
    rw [items, List.length_map, ← List.length_map (f := Prod.fst), hwn] at hperm
    rw [hperm]
    exact fun hnil => h.nonempty (List.eq_nil_of_length_eq_zero hnil)
  refine ⟨⟨part_id, num_parts, node_ranges, edge_ranges, g.nodes.texts g.nodes.types.zipIdx,
    etypes, graph_name⟩, ?_, hnperm, heperm, hntypes, hetype_map⟩
  refine bind_ok_iff.2 ⟨_, hconfig, (if_pos hpart).trans ?_⟩
  refine bind_ok_iff.2 ⟨(), checkKeys_ok hntypes hnodes (hwn.trans hzn.symm), ?_⟩
  refine bind_ok_iff.2 ⟨(), checkKeys_ok hetype_map hedge_map (hwe.trans hze.symm), ?_⟩
  refine (if_neg hlen).trans ?_
  exact bind_ok_iff.2 ⟨node_ranges, hnr, bind_ok_iff.2 ⟨edge_ranges, her, rfl⟩⟩

/-- A text that is no edge type makes the file unreadable: the assertion of the library
becomes a `DGLError`. -/
theorem loadPartitionBook_dgl [DecidableEq τ] {config : Config} {part_id : ℕ}
    (h : ∃ e ∈ items config.edge_map, g.edges.ofStr e.1 = none) :
    loadPartitionBook g.edges config part_id = .error .dgl := by
  have hall : ∀ l : List (List Char × List Entry), (∃ e ∈ l, g.edges.ofStr e.1 = none) →
      (l.mapM fun e => do return (← etypeStrToTuple g.edges e.1, e.2)) = .error .assertion := by
    intro l hl
    induction l with
    | nil =>
      obtain ⟨e, he, -⟩ := hl
      exact absurd he List.not_mem_nil
    | cons e l ih =>
      rw [List.mapM_cons]
      cases hstr : g.edges.ofStr e.1 with
      | none =>
        have hfail : etypeStrToTuple g.edges e.1 = .error .assertion := by
          rw [etypeStrToTuple, hstr]
        rw [hfail]
        rfl
      | some type =>
        have hread : etypeStrToTuple g.edges e.1 = .ok type := by
          rw [etypeStrToTuple, hstr]
        have hrest : ∃ e' ∈ l, g.edges.ofStr e'.1 = none := by
          obtain ⟨e', he', hnone⟩ := hl
          rcases List.mem_cons.1 he' with rfl | he'
          · rw [hstr] at hnone
            cases hnone
          · exact ⟨e', he', hnone⟩
        rw [hread, ih hrest]
        rfl
  have hmap := hall _ h
  rw [loadPartitionBook, loadPartConfig, formatKeys, rebuild, hmap]
  rfl

end Store
end BearRpc
