/-
# What is in the files

What a run of `partition_graph` that has returned leaves in its files, one side of the graph
at a time: the ranges of each type are those of the ids of the partitions (`side_files`), every
type has its ranges (`keys_of_idMap`), and a feature is stored in the order of the rows
(`feature_at`).
-/

import BearRpc.Store.Book

namespace BearRpc
namespace Store

open Theory

variable {κ τ α : Type}

/-! ### Tensors -/

/-- **A row that was gathered** is the row of the tensor under the index, which exists: an
index that is too large would have been an error. -/
theorem getElem?_gatherRow {tensor out : List α} {rows : List ℕ} {k i : ℕ}
    (h : gatherRow tensor rows = .ok out) (hk : rows[k]? = some i) :
    out[k]? = tensor[i]? ∧ (tensor[i]?).isSome := by
  obtain ⟨x, hx, hrow⟩ := exists_of_mapM h hk
  rw [hx]
  cases htensor : tensor[i]? with
  | none =>
    rw [htensor] at hrow
    cases hrow
  | some y =>
    rw [htensor] at hrow
    cases hrow
    exact ⟨rfl, rfl⟩

/-- Sorting ids neither loses one nor makes one up. -/
theorem npSort_perm (ids : List ℕ) : (npSort ids).Perm ids := List.perm_insertionSort _ ids

/-- The bounds of consecutive ids are the first of them and the one behind the last. -/
theorem bounds_range' {a n : ℕ} {r : ℕ × ℕ} (h : bounds (List.range' a n) = .ok r) :
    r.1 = a ∧ r.2 = a + n := by
  obtain ⟨first, stop⟩ := r
  cases n with
  | zero => cases h
  | succ n =>
    rw [bounds, List.head?_range', List.getLast?_range'] at h
    simp at h
    omega

/-- **What `np.all` shows of distinct ids**: if they agree with the range from the first to
the last, entry by entry, with a list of one entry taken as often as the other is long, they
are this range. -/
theorem eq_range'_of_npAllEq {ids : List ℕ} {first stop : ℕ} (hnd : ids.Nodup)
    (hb : bounds ids = .ok (first, stop))
    (h : npAllEq ids (List.range' first (stop - first)) = true) :
    ids = List.range' first (stop - first) := by
  unfold npAllEq at h
  split at h
  · exact eq_of_beq h
  · next hlen =>
    split at h
    · -- one id is its own range
      next x b =>
      cases hb
      exact absurd (by simp) hlen
    · -- distinct ids that are all the same are one id
      next l _ _ y _ hrange =>
      rw [hrange] at hlen
      have hrep : l = List.replicate l.length y :=
        List.eq_replicate_of_mem fun x hx => eq_of_beq (List.all_eq_true.1 h x hx)
      rw [hrep, List.nodup_replicate] at hnd
      cases l with
      | nil => cases hb
      | cons x l => exact absurd (Nat.le_antisymm hnd (by simp)) hlen
    · cases h

/-! ### The rows inside a partition -/

/-- The items of a type that a partition owns; in a homogeneous graph there is one type. -/
def owned (homogeneous : Bool) (side : Side κ α) (type_id : ℕ) (rows : List Row) : List Row :=
  rows.filter fun row => row.inner && (homogeneous || side.simType[row.orig]? == some type_id)

/-- The types are what `sim_g` has for the original item, and they are in the `dtype`. -/
theorem setTypes_ok {bits : ℕ} {simType : List ℕ} {rows rows' : List Row}
    (h : setTypes bits simType rows = .ok rows') :
    rows' = (rows.map fun row => { row with type := simType[row.orig]? }) ∧
      ∀ row ∈ rows, ∃ type, simType[row.orig]? = some type ∧ astype bits type = type := by
  obtain ⟨types, htypes, h⟩ := bind_ok_iff.1 h
  split at h
  swap
  · cases h
  next hall =>
  cases h
  have hat : ∀ (k : ℕ) (row : Row), rows[k]? = some row →
      types[k]? = simType[row.orig]? ∧ (simType[row.orig]?).isSome := fun k row hk =>
    getElem?_gatherRow htypes (by
      rw [List.getElem?_map, hk]
      rfl)
  refine ⟨List.ext_getElem? fun k => ?_, fun row hrow => ?_⟩
  · rw [List.getElem?_zipWith, List.getElem?_map]
    cases hk : rows[k]? with
    | none => rfl
    | some row =>
      obtain ⟨heq, hsome⟩ := hat k row hk
      rw [heq]
      obtain ⟨type, htype⟩ := Option.isSome_iff_exists.1 hsome
      rw [htype, Option.map_some, htype]
  · obtain ⟨k, hk⟩ := List.getElem?_of_mem hrow
    obtain ⟨heq, hsome⟩ := hat k row hk
    obtain ⟨type, htype⟩ := Option.isSome_iff_exists.1 hsome
    have hfits := List.all_eq_true.1 hall type (List.mem_of_getElem? (heq.trans htype))
    exact ⟨type, htype, eq_of_beq hfits⟩

/-- Setting the types of rows changes nothing else that is read from the rows of a type. -/
theorem map_innerRows_setTypes {β : Type} {side : Side κ α} {bits : ℕ} {rows rows' : List Row}
    {i : ℕ} (h : setTypes bits side.simType rows = .ok rows') (f : Row → β)
    (hf : ∀ row type, f { row with type := type } = f row) :
    (innerRows i rows').map f = (owned false side i rows).map f := by
  obtain ⟨rfl, hsome⟩ := setTypes_ok h
  rw [innerRows, owned, List.filter_map, List.map_map]
  refine congrArg₂ List.map (funext fun row => hf row _) (List.filter_congr fun row hrow => ?_)
  obtain ⟨type, htype, -⟩ := hsome row hrow
  rw [Function.comp_apply, innerMask, Bool.false_or, htype]
  rfl

/-- Where rows have no type of their own, a partition's rows of the only type are all its
inner rows. -/
theorem innerRows_of_homogeneous {side : Side κ α} {rows : List Row} {i : ℕ}
    (h : ∀ row ∈ rows, row.type = none) : innerRows i rows = owned true side i rows := by
  refine List.filter_congr fun row hrow => ?_
  rw [innerMask, h row hrow]
  rfl

/-! ### The ranges -/

/-- The ranges of a type, over the ids of its items in each partition. -/
structure Ranges (arrange : List ℕ → List ℕ) (number : ℕ) (ids : List (List ℕ))
    (ranges : List (ℕ × ℕ)) : Prop where
  length : ranges.length = ids.length
  ordered : ranges.Pairwise fun r r' => r.2 ≤ r'.1
  total : (ranges.map fun r => r.2 - r.1).sum = number
  exact : ∀ (p : ℕ) (l : List ℕ) (r : ℕ × ℕ), ids[p]? = some l → ranges[p]? = some r →
    arrange l = List.range' r.1 (r.2 - r.1) ∧ r.1 < r.2

/-- Contiguous ids are told by their bounds. -/
theorem bounds_contiguous {ids : List ℕ} {r : ℕ × ℕ} (h : bounds ids = .ok r)
    (hids : ∃ a n, ids = List.range' a n) :
    ids = List.range' r.1 (r.2 - r.1) ∧ r.1 < r.2 := by
  obtain ⟨a, n, rfl⟩ := hids
  cases n with
  | zero => cases h
  | succ n =>
    obtain ⟨h₁, h₂⟩ := bounds_range' h
    rw [h₁, h₂]
    exact ⟨by rw [Nat.add_sub_cancel_left], by omega⟩

/-- **The check of a map that was read** makes sure that the ranges of a type come one
behind the other in the order of the partitions, so a number is in one of them at most. -/
theorem ordered_of_checkSorted {map : List (κ × List (ℕ × ℕ))} (h : checkSorted map = .ok ())
    {type : κ} {ranges : List (ℕ × ℕ)} (hmem : (type, ranges) ∈ map) :
    ranges.Pairwise fun r r' => r.2 ≤ r'.1 := by
  have hone := forM_ok_iff.1 h _ hmem
  dsimp only at hone
  split at hone
  · next hchain =>
    have hpair := (List.pairwise_flatMap.1 (List.isChain_iff_pairwise.1 hchain)).2
    refine hpair.imp fun {r r'} hle => ?_
    exact hle r.2 (by simp) r'.1 (by simp)
  · cases hone

/-- **The map has the ranges of every type**: one for each partition, of precisely the ids
of the type in it, in ascending order and none empty, and together as long as there are
items of the type. -/
theorem idMap_ranges {arrange : List ℕ → List ℕ} {side : Side κ α} {parts : List (List Row)}
    {map : List (κ × List (ℕ × ℕ))} (h : idMap arrange side parts = .ok map)
    (hsorted : checkSorted map = .ok ()) (hperm : ∀ l, (arrange l).Perm l)
    {i : ℕ} {type : κ} (htype : side.types[i]? = some type)
    (hids : ∀ rows ∈ parts, ∃ a n, arrange ((innerRows i rows).map Row.id) = List.range' a n) :
    ∃ ranges, (type, ranges) ∈ map ∧
      Ranges arrange (side.number type) (parts.map fun rows => (innerRows i rows).map Row.id)
        ranges := by
  obtain ⟨e, he, hrow⟩ := exists_of_mapM h (k := i) (x := (type, i)) (by
    rw [List.getElem?_zipIdx, htype, Nat.zero_add]
    rfl)
  obtain ⟨ranges, hranges, hrow⟩ := bind_ok_iff.1 hrow
  split at hrow
  swap
  · cases hrow
  next hsum =>
  cases hrow
  have hmem := List.mem_of_getElem? he
  have hexact : ∀ (p : ℕ) (l : List ℕ) (r : ℕ × ℕ),
      (parts.map fun rows => (innerRows i rows).map Row.id)[p]? = some l →
      ranges[p]? = some r → arrange l = List.range' r.1 (r.2 - r.1) ∧ r.1 < r.2 := by
    intro p l r hl hr
    rw [List.getElem?_map] at hl
    obtain ⟨rows, hrows, rfl⟩ := Option.map_eq_some_iff.1 hl
    obtain ⟨r', hr', hbounds⟩ := exists_of_mapM hranges hrows
    obtain rfl : r' = r := Option.some.inj (hr'.symm.trans hr)
    exact bounds_contiguous hbounds (hids rows (List.mem_of_getElem? hrows))
  refine ⟨ranges, hmem, ⟨?_, ordered_of_checkSorted hsorted hmem, ?_, hexact⟩⟩
  · rw [List.length_map, length_mapM hranges]
  · rw [← hsum]
    refine congrArg List.sum (List.ext_getElem? fun p => ?_)
    rw [List.getElem?_map, List.getElem?_map]
    cases hp : parts[p]? with
    | none =>
      have hle := List.getElem?_eq_none_iff.1 hp
      rw [← length_mapM hranges] at hle
      rw [List.getElem?_eq_none hle]
      rfl
    | some rows =>
      obtain ⟨r, hr, -⟩ := exists_of_mapM hranges hp
      have hlen := (hperm ((innerRows i rows).map Row.id)).length_eq
      rw [(hexact p _ r (by rw [List.getElem?_map, hp]; rfl) hr).1, List.length_range',
        List.length_map] at hlen
      rw [hr, Option.map_some, Option.map_some, hlen]

/-! ### The features -/

/-- What a side of the graph has to have for the names in a file to differ: the names of the
types differ and have no slash, and no type has two features of one name. -/
structure Named (side : Side κ α) : Prop where
  slash : ∀ type ∈ side.types, '/' ∉ side.str type
  types : (side.types.map side.str).Nodup
  data : ∀ type ∈ side.types, ((side.data type).map Prod.fst).Nodup

/-- The names of features tell the types apart, as long as no type's name has a slash. -/
theorem featName_inj {side : Side κ α} {type type' : κ} {name name' : List Char}
    (h : '/' ∉ side.str type) (h' : '/' ∉ side.str type')
    (heq : featName side type name = featName side type' name') :
    side.str type = side.str type' ∧ name = name' := by
  have hcut : ∀ (s t : List Char), '/' ∉ s →
      (s ++ '/' :: t).takeWhile (fun c => c ≠ '/') = s ∧
        (s ++ '/' :: t).dropWhile (fun c => c ≠ '/') = '/' :: t := by
    intro s t hs
    have hall : ∀ c ∈ s, decide (c ≠ '/') = true := fun c hc =>
      decide_eq_true fun hc' => hs (hc' ▸ hc)
    rw [List.takeWhile_append_of_pos hall, List.dropWhile_append_of_pos hall]
    exact ⟨by simp, by simp⟩
  rw [featName, featName] at heq
  have hstr := (hcut _ name h).1.symm.trans ((congrArg _ heq).trans (hcut _ name' h').1)
  have hname := (hcut _ name h).2.symm.trans ((congrArg _ heq).trans (hcut _ name' h').2)
  exact ⟨hstr, (List.cons.inj hname).2⟩

/-- **The features of one type** are saved under its name, each with the rows of the nodes
of the partition, and nothing else in the file is touched. -/
theorem saveType_ok {side : Side κ α} {skipped : List (List Char)} {type : κ}
    {local_ids : List ℕ} {feats feats' : Feats α}
    (h : saveType side skipped type local_ids feats = .ok feats')
    (hnd : ((side.data type).map Prod.fst).Nodup) :
    (∀ name tensor, (name, tensor) ∈ side.data type → name ∉ skipped →
      ∃ stored, gatherRow tensor local_ids = .ok stored ∧
        feats'.lookup (featName side type name) = some stored) ∧
    ∀ key, (∀ name, key ≠ featName side type name) → feats'.lookup key = feats.lookup key := by
  -- which names are done, and what is in the file
  have hinv := foldlM_invariant (fun done feats' =>
    (∀ name tensor, (name, tensor) ∈ done → name ∉ skipped →
      ∃ stored, gatherRow tensor local_ids = .ok stored ∧
        feats'.lookup (featName side type name) = some stored) ∧
    ∀ key, (∀ name, key ≠ featName side type name) → feats'.lookup key = feats.lookup key) h
    ⟨fun _ _ hmem => absurd hmem List.not_mem_nil, fun _ _ => rfl⟩ ?_
  · exact hinv
  · rintro done ⟨name, tensor⟩ rest s s' hdata ⟨hdone, hother⟩ hturn
    dsimp only at hturn
    split at hturn
    · next hskip =>
      cases hturn
      refine ⟨fun name' tensor' hmem hname => ?_, hother⟩
      rcases List.mem_append.1 hmem with hmem | hmem
      · exact hdone name' tensor' hmem hname
      · cases List.mem_singleton.1 hmem
        exact absurd hskip hname
    · obtain ⟨stored, hstored, hturn⟩ := bind_ok_iff.1 hturn
      cases hturn
      refine ⟨fun name' tensor' hmem hname => ?_, fun key hkey => ?_⟩
      · rcases List.mem_append.1 hmem with hmem | hmem
        · obtain ⟨stored', hstored', hlookup⟩ := hdone name' tensor' hmem hname
          refine ⟨stored', hstored', (AList.lookup_insert_ne fun heq => ?_).trans hlookup⟩
          rw [hdata, List.map_append, List.nodup_append] at hnd
          have hname' := (List.cons.inj (List.append_cancel_left heq)).2
          exact hnd.2.2 _ (List.mem_map_of_mem hmem) _ (by simp) hname'
        · cases List.mem_singleton.1 hmem
          exact ⟨stored, hstored, AList.lookup_insert _⟩
      · exact (AList.lookup_insert_ne (hkey name)).trans (hother key hkey)

/-- **A file whose names have a type is loaded as it is**: only a name without a `/`, of an
old file, gets the default type in front. -/
theorem lookup_loadFeats (default_type : List Char) {feats : Feats α}
    (h : ∀ key ∈ feats, '/' ∈ key) (key : List Char) :
    (loadFeats default_type feats).lookup key = feats.lookup key := by
  have hgen : ∀ entries : List (Sigma fun _ : List Char => List α),
      (∀ feat ∈ entries, '/' ∈ feat.1) →
      (entries.foldr (fun feat new_feats => new_feats.insert
        (if '/' ∈ feat.1 then feat.1 else default_type ++ '/' :: feat.1) feat.2)
        (∅ : Feats α)).lookup key = entries.dlookup key := by
    intro entries hentries
    induction entries with
    | nil => rfl
    | cons feat entries ih =>
      obtain ⟨hfeat, hrest⟩ := List.forall_mem_cons.1 hentries
      obtain ⟨name, tensor⟩ := feat
      rw [List.foldr_cons, if_pos hfeat]
      rcases eq_or_ne key name with rfl | hne
      · rw [AList.lookup_insert, List.dlookup_cons_eq]
      · rw [AList.lookup_insert_ne hne, ih hrest, List.dlookup_cons_ne _ _ hne]
  refine hgen feats.entries fun feat hfeat => h feat.1 ?_
  exact List.mem_keys_of_mem hfeat

/-- **The features of a partition**, under the type and the name: for each type the rows of
its own items, in the order in which the partition stores them. -/
theorem saveFeats_ok {gathers : Bool} {skipped : List (List Char)} {side : Side κ α}
    {rows : List Row} {feats : Feats α} (h : saveFeats gathers skipped side rows = .ok feats)
    (hnamed : Named side) :
    (∀ i type, side.types[i]? = some type → ∃ local_ids,
      localIds gathers side ((innerRows i rows).map Row.orig) = .ok local_ids ∧
      ∀ name tensor, (name, tensor) ∈ side.data type → name ∉ skipped →
        ∃ stored, gatherRow tensor local_ids = .ok stored ∧
          feats.lookup (featName side type name) = some stored) ∧
    ∀ key ∈ feats, '/' ∈ key := by
  -- which types are done, and what is in the file
  have hinv := foldlM_invariant (fun done feats =>
    (∀ type i, (type, i) ∈ done → ∃ local_ids,
      localIds gathers side ((innerRows i rows).map Row.orig) = .ok local_ids ∧
      ∀ name tensor, (name, tensor) ∈ side.data type → name ∉ skipped →
        ∃ stored, gatherRow tensor local_ids = .ok stored ∧
          feats.lookup (featName side type name) = some stored) ∧
    ∀ key ∈ feats, '/' ∈ key) h
    ⟨fun _ _ hmem => absurd hmem List.not_mem_nil,
      fun key hkey => absurd hkey (AList.notMem_empty key)⟩ ?_
  · refine ⟨fun i type htype => hinv.1 type i ?_, hinv.2⟩
    exact List.mem_of_getElem? (i := i) (by rw [List.getElem?_zipIdx, htype, Nat.zero_add]; rfl)
  · rintro done ⟨type, i⟩ rest s s' hdata ⟨hdone, hkeys⟩ hturn
    have htypes : side.types = done.map Prod.fst ++ type :: rest.map Prod.fst := by
      rw [← List.map_cons (f := Prod.fst) (a := (type, i)), ← List.map_append, ← hdata,
        List.zipIdx_map_fst]
    have htype : type ∈ side.types := htypes ▸ by simp
    obtain ⟨local_ids, hlocal, hturn⟩ := bind_ok_iff.1 hturn
    obtain ⟨hnew, hother⟩ := saveType_ok hturn (hnamed.data type htype)
    refine ⟨fun type' i' hmem => ?_, fun key hkey => ?_⟩
    · rcases List.mem_append.1 hmem with hmem | hmem
      · obtain ⟨local_ids', hlocal', hnames⟩ := hdone type' i' hmem
        refine ⟨local_ids', hlocal', fun name tensor hname hskip => ?_⟩
        obtain ⟨stored, hstored, hlookup⟩ := hnames name tensor hname hskip
        refine ⟨stored, hstored, (hother _ fun name' heq => ?_).trans hlookup⟩
        have hmem' := List.mem_map_of_mem (f := Prod.fst) hmem
        have hstr' := hnamed.slash type' (htypes ▸ List.mem_append_left _ hmem')
        have hinj := hnamed.types
        rw [htypes, List.map_append, List.nodup_append] at hinj
        exact hinj.2.2 _ (List.mem_map_of_mem hmem') _ (by simp)
          (featName_inj hstr' (hnamed.slash type htype) heq).1
      · cases List.mem_singleton.1 hmem
        exact ⟨local_ids, hlocal, hnew⟩
    · by_cases hname : ∃ name, key = featName side type name
      · obtain ⟨name, rfl⟩ := hname
        exact List.mem_append_right _ List.mem_cons_self
      · have heq := hother key fun name heq => hname ⟨name, heq⟩
        rw [← AList.lookup_isSome, heq, AList.lookup_isSome] at hkey
        exact hkeys key hkey

/-! ### One side of the graph -/

/-- The rows with their types are those of the partitions. -/
def SameRows (homogeneous : Bool) (side : Side κ α) (rows rows' : List Row) : Prop :=
  ∀ i, (innerRows i rows').map Row.id = (owned homogeneous side i rows).map Row.id ∧
    (innerRows i rows').map Row.orig = (owned homogeneous side i rows).map Row.orig

/-- **The check of a type** shows that its ids are a range, in the order in which `arrange`
puts them: that of the partition for nodes, and the sorted one for edges. -/
theorem contiguous_of_checkType {arrange : List ℕ → List ℕ} {rows : List Row} {i : ℕ}
    (h : checkType arrange rows i = .ok ()) (hperm : ∀ l, (arrange l).Perm l)
    (hnd : ((innerRows i rows).map Row.id).Nodup) :
    ∃ a n, arrange ((innerRows i rows).map Row.id) = List.range' a n := by
  obtain ⟨r, hr, h⟩ := bind_ok_iff.1 h
  split at h
  · next heq => exact ⟨_, _, eq_range'_of_npAllEq ((hperm _).nodup_iff.2 hnd) hr heq⟩
  · cases h

/-- A partition owns a row once. -/
theorem nodup_owned {homogeneous : Bool} {side : Side κ α} {i : ℕ} {rows : List Row}
    (h : ((rows.filter Row.inner).map Row.id).Nodup) :
    ((owned homogeneous side i rows).map Row.id).Nodup := by
  have hsub : (owned homogeneous side i rows).Sublist (rows.filter Row.inner) :=
    List.monotone_filter_right _ fun row hrow => (Bool.and_eq_true_iff.1 hrow).1
  exact h.sublist (hsub.map Row.id)

/-- What the ranges of a type say of the partitions `parts`. -/
structure Serves (homogeneous : Bool) (side : Side κ α) (parts : List (List Row)) (i : ℕ)
    (type : κ) (ranges : List (ℕ × ℕ)) : Prop where
  length : ranges.length = parts.length
  ordered : ranges.Pairwise fun r r' => r.2 ≤ r'.1
  total : (ranges.map fun r => r.2 - r.1).sum = side.number type
  mem : ∀ (p : ℕ) (rows : List Row) (r : ℕ × ℕ), parts[p]? = some rows → ranges[p]? = some r →
    ∀ id, (r.1 ≤ id ∧ id < r.2) ↔ ∃ row ∈ owned homogeneous side i rows, row.id = id

/-- The id of the original item in its type. -/
def original (gathers : Bool) (side : Side κ α) (row : Row) : Option ℕ :=
  if gathers then side.simId[row.orig]? else some row.orig

/-- **The data of a row is written at the place of the row**: the local id there is the
original id of that row. -/
theorem getElem?_localIds {gathers : Bool} {side : Side κ α} {rows rows' : List Row}
    {homogeneous : Bool} {i k : ℕ} {row : Row} {local_ids : List ℕ}
    (h : localIds gathers side ((innerRows i rows').map Row.orig) = .ok local_ids)
    (hsame : SameRows homogeneous side rows rows')
    (hrow : (owned homogeneous side i rows)[k]? = some row) :
    ∃ o, original gathers side row = some o ∧ local_ids[k]? = some o := by
  have hk : ((innerRows i rows').map Row.orig)[k]? = some row.orig := by
    rw [(hsame i).2, List.getElem?_map, hrow]
    rfl
  cases gathers with
  | false =>
    cases h
    exact ⟨row.orig, rfl, hk⟩
  | true =>
    obtain ⟨heq, hsome⟩ := getElem?_gatherRow h hk
    obtain ⟨o, ho⟩ := Option.isSome_iff_exists.1 hsome
    exact ⟨o, ho, heq.trans ho⟩

/-- **The features of an item stand at its place among the items of its partition**: the row
saved at that place is the row that the input graph has for the original item. -/
theorem feature_at {gathers : Bool} {skipped : List (List Char)} {side : Side κ α}
    {homogeneous : Bool} {rows rows' : List Row} {feats : Feats α}
    (h : saveFeats gathers skipped side rows' = .ok feats)
    (hsame : SameRows homogeneous side rows rows')
    (hnamed : Named side) {i : ℕ} {type : κ} (htype : side.types[i]? = some type)
    {name : List Char} {tensor : List α}
    (hname : (name, tensor) ∈ side.data type) (hskip : name ∉ skipped) (default_type : List Char) :
    ∃ stored, (loadFeats default_type feats).lookup (featName side type name) = some stored ∧
      ∀ (k : ℕ) (row : Row), (owned homogeneous side i rows)[k]? = some row →
        ∃ (o : ℕ) (x : α), original gathers side row = some o ∧ tensor[o]? = some x ∧
          stored[k]? = some x := by
  obtain ⟨hfeats, hkeys⟩ := saveFeats_ok h hnamed
  obtain ⟨local_ids, hlocal, hnames⟩ := hfeats i type htype
  obtain ⟨stored, hstored, hlookup⟩ := hnames name tensor hname hskip
  refine ⟨stored, (lookup_loadFeats default_type hkeys _).trans hlookup, fun k row hrow => ?_⟩
  obtain ⟨o, ho, hk⟩ := getElem?_localIds hlocal hsame hrow
  obtain ⟨heq, hsome⟩ := getElem?_gatherRow hstored hk
  obtain ⟨x, hx⟩ := Option.isSome_iff_exists.1 hsome
  exact ⟨o, x, ho, hx, heq.trans hx⟩

/-- **The ranges of one side of the graph**: in the order of the partitions, each with
precisely the ids of the type in its partition, and in sum as many as there are items of the
type. -/
theorem serves_of_idMap {arrange : List ℕ → List ℕ} {side : Side κ α} {homogeneous : Bool}
    {parts typed : List (List Row)} {map : List (κ × List (ℕ × ℕ))}
    (h : idMap arrange side typed = .ok map) (hsorted : checkSorted map = .ok ())
    (hperm : ∀ l, (arrange l).Perm l)
    (htyped : List.Forall₂ (SameRows homogeneous side) parts typed)
    {i : ℕ} {type : κ} (htype : side.types[i]? = some type)
    (hids : ∀ rows ∈ typed, ∃ a n, arrange ((innerRows i rows).map Row.id) = List.range' a n) :
    ∃ ranges, (type, ranges) ∈ map ∧ Serves homogeneous side parts i type ranges ∧
      ∀ (p : ℕ) (rows : List Row) (r : ℕ × ℕ), parts[p]? = some rows → ranges[p]? = some r →
        arrange ((owned homogeneous side i rows).map Row.id) = List.range' r.1 (r.2 - r.1) := by
  obtain ⟨ranges, hmem, hranges⟩ := idMap_ranges h hsorted hperm htype hids
  have hexact : ∀ (p : ℕ) (rows : List Row) (r : ℕ × ℕ), parts[p]? = some rows →
      ranges[p]? = some r → arrange ((owned homogeneous side i rows).map Row.id) =
        List.range' r.1 (r.2 - r.1) ∧ r.1 < r.2 := by
    intro p rows r hp hr
    obtain ⟨hlt, rfl⟩ := List.getElem?_eq_some_iff.1 hp
    have hlt' : p < typed.length := htyped.length_eq ▸ hlt
    have hsame : SameRows homogeneous side parts[p] typed[p] := htyped.get hlt hlt'
    rw [← (hsame i).1]
    exact hranges.exact p _ r (by rw [List.getElem?_map, List.getElem?_eq_getElem hlt']; rfl) hr
  refine ⟨ranges, hmem, ⟨?_, hranges.ordered, hranges.total, fun p rows r hp hr id => ?_⟩,
    fun p rows r hp hr => (hexact p rows r hp hr).1⟩
  · rw [hranges.length, List.length_map, htyped.length_eq]
  · obtain ⟨heq, hlt⟩ := hexact p rows r hp hr
    rw [← List.mem_map, ← (hperm _).mem_iff, heq, List.mem_range'_1]
    omega

/-! ### Both sides -/

variable {g : Graph τ α} {parts typed : List Part}

/-- What `partition_graph_with_halo` promises of the nodes, or the edges, of a partition: they
have no types yet, their ids differ, and those inside the partition have consecutive ids.
The last is used only where `partition_graph` does not check it. -/
structure Reshuffled (arrange : List ℕ → List ℕ) (homogeneous : Bool) (rows : List Row) :
    Prop where
  type : ∀ row ∈ rows, row.type = none
  nodup : ((rows.filter Row.inner).map Row.id).Nodup
  range : homogeneous = true → ∃ a n, arrange ((rows.filter Row.inner).map Row.id) =
    List.range' a n

/-- The same of both. -/
def Part.Reshuffled (homogeneous : Bool) (part : Part) : Prop :=
  Store.Reshuffled id homogeneous part.nodes ∧ Store.Reshuffled npSort homogeneous part.edges

/-- What has become of one side of a partition. -/
structure Typed (arrange : List ℕ → List ℕ) (homogeneous : Bool) (side : Side κ α)
    (rows rows' : List Row) : Prop where
  same : SameRows homogeneous side rows rows'
  contiguous : ∀ i, i < side.types.length →
    ∃ a n, arrange ((innerRows i rows').map Row.id) = List.range' a n

/-- In a homogeneous graph no types are set, so the rows are as they were. -/
theorem typed_of_homogeneous {arrange : List ℕ → List ℕ} {side : Side κ α} {rows : List Row}
    (h : Reshuffled arrange true rows) : Typed arrange true side rows rows := by
  have hinner : ∀ i, innerRows i rows = owned true side i rows := fun i =>
    innerRows_of_homogeneous h.type
  have howned : ∀ i, owned true side i rows = rows.filter Row.inner := fun i => by
    simp only [owned, Bool.true_or, Bool.and_true]
  exact ⟨fun i => ⟨by rw [hinner], by rw [hinner]⟩, fun i _ => by
    rw [hinner, howned]
    exact h.range rfl⟩

/-- **The check behind the assignment of types** makes sure that the rows of each type stand
together in the order of their ids. -/
theorem typed_of_checked {arrange : List ℕ → List ℕ} {side : Side κ α} {bits : ℕ}
    {rows rows' : List Row} (h : Reshuffled arrange false rows)
    (hperm : ∀ l, (arrange l).Perm l) (htypes : setTypes bits side.simType rows = .ok rows')
    (hcheck : (List.range side.types.length).forM (checkType arrange rows') = .ok ()) :
    Typed arrange false side rows rows' := by
  have hsame : SameRows false side rows rows' := fun i =>
    ⟨map_innerRows_setTypes htypes Row.id fun _ _ => rfl,
      map_innerRows_setTypes htypes Row.orig fun _ _ => rfl⟩
  refine ⟨hsame, fun i hi => ?_⟩
  refine contiguous_of_checkType (forM_ok_iff.1 hcheck i (List.mem_range.2 hi)) hperm ?_
  rw [(hsame i).1]
  exact nodup_owned h.nodup

/-- **The partitions with their types**: each comes out with the same rows, and the types of
these are set and have passed the checks of the code. -/
theorem typedParts_ok (h : typedParts g parts = .ok typed)
    (hhalo : ∀ part ∈ parts, part.Reshuffled g.isHomogeneous) :
    List.Forall₂ (fun part part' =>
      Typed id g.isHomogeneous g.nodes part.nodes part'.nodes ∧
        Typed npSort g.isHomogeneous g.edges part.edges part'.edges) parts typed := by
  unfold typedParts at h
  cases hhom : g.isHomogeneous with
  | true =>
    rw [hhom] at h hhalo
    cases h
    refine List.forall₂_same.2 fun part hpart => ?_
    obtain ⟨hnodes, hedges⟩ := hhalo part hpart
    exact ⟨typed_of_homogeneous hnodes, typed_of_homogeneous hedges⟩
  | false =>
    rw [hhom] at h hhalo
    refine List.forall₂_iff_get.2 ?_
    have hall := mapM_ok_iff.1 h
    refine ⟨hall.length_eq, fun p hp hp' => ?_⟩
    obtain ⟨hnodes, hedges⟩ := hhalo _ (List.get_mem parts ⟨p, hp⟩)
    obtain ⟨nodes, hn, hturn⟩ := bind_ok_iff.1 (hall.get hp hp')
    obtain ⟨edges, he, hturn⟩ := bind_ok_iff.1 hturn
    obtain ⟨_, hcn, hturn⟩ := bind_ok_iff.1 hturn
    obtain ⟨_, hce, hturn⟩ := bind_ok_iff.1 hturn
    have heq := Except.ok.inj hturn
    rw [← heq]
    exact ⟨typed_of_checked hnodes (fun _ => .rfl) hn hcn,
      typed_of_checked hedges npSort_perm he hce⟩

/-- **What has happened when `partition_graph` returns**: the arguments were accepted, the
types were set and checked, both maps were written and have passed their check, and the
features of every partition were saved. -/
theorem partitionGraph_ok {call : Call} {halo : List ℕ → List Part} {num_parts : ℕ}
    {node_parts : List ℕ} {saved : Saved τ α}
    (h : partitionGraph call halo g num_parts node_parts = .ok saved)
    (hhalo : ∀ part ∈ halo (override node_parts), part.Reshuffled g.isHomogeneous) :
    checkCall call = .ok () ∧ ∃ nodes edges : List (List Row),
      (List.Forall₂ (Typed id g.isHomogeneous g.nodes)
        ((halo (override node_parts)).map Part.nodes) nodes ∧
        idMap id g.nodes nodes = .ok saved.node_map ∧ checkSorted saved.node_map = .ok ()) ∧
      (List.Forall₂ (Typed npSort g.isHomogeneous g.edges)
        ((halo (override node_parts)).map Part.edges) edges ∧
        idMap npSort g.edges edges = .ok saved.edge_map ∧ checkSorted saved.edge_map = .ok ()) ∧
      ∀ p, p < num_parts → ∃ l l' feats, nodes[p]? = some l ∧ edges[p]? = some l' ∧
        saved.feats[p]? = some feats ∧
        saveFeats (1 < g.nodes.types.length) nodeSkipped g.nodes l = .ok feats.1 ∧
        saveFeats (!g.isHomogeneous) edgeSkipped g.edges l' = .ok feats.2 := by
  obtain ⟨_, hcall, h⟩ := bind_ok_iff.1 h
  obtain ⟨typed, htyped, h⟩ := bind_ok_iff.1 h
  obtain ⟨node_map, hnodes, h⟩ := bind_ok_iff.1 h
  obtain ⟨edge_map, hedges, h⟩ := bind_ok_iff.1 h
  obtain ⟨_, hcn, h⟩ := bind_ok_iff.1 h
  obtain ⟨_, hce, h⟩ := bind_ok_iff.1 h
  obtain ⟨feats, hfeats, h⟩ := bind_ok_iff.1 h
  cases h
  have hall := typedParts_ok htyped hhalo
  refine ⟨hcall, typed.map Part.nodes, typed.map Part.edges, ⟨?_, hnodes, hcn⟩, ⟨?_, hedges, hce⟩,
    fun p hp => ?_⟩
  · rw [List.forall₂_map_left_iff, List.forall₂_map_right_iff]
    exact hall.imp fun _ _ ht => ht.1
  · rw [List.forall₂_map_left_iff, List.forall₂_map_right_iff]
    exact hall.imp fun _ _ ht => ht.2
  · obtain ⟨f, hf, hturn⟩ := exists_of_mapM hfeats (k := p) (x := p) (by
      rw [List.getElem?_range hp])
    rw [savePart] at hturn
    rw [List.getElem?_map, List.getElem?_map]
    cases hpart : typed[p]? with
    | none =>
      rw [hpart] at hturn
      cases hturn
    | some part =>
      rw [hpart] at hturn
      obtain ⟨nodes, hn, hturn⟩ := bind_ok_iff.1 hturn
      obtain ⟨edges, he, hturn⟩ := bind_ok_iff.1 hturn
      cases hturn
      exact ⟨part.nodes, part.edges, _, rfl, rfl, hf, hn, he⟩

/-- **Every type has its ranges** in a map that was made, and there is one for each
partition: a partition without an item of the type would have ended the loop. -/
theorem keys_of_idMap {arrange : List ℕ → List ℕ} {side : Side κ α} {rows : List (List Row)}
    {map : List (κ × List (ℕ × ℕ))} (h : idMap arrange side rows = .ok map) :
    map.map Prod.fst = side.types ∧ ∀ e ∈ map, e.2.length = rows.length := by
  have hturn : ∀ (x : κ × ℕ) (e : κ × List (ℕ × ℕ)), (do
      let ranges ← rows.mapM fun rows => bounds (arrange ((innerRows x.2 rows).map Row.id))
      if (rows.map fun rows => (innerRows x.2 rows).length).sum = side.number x.1 then
        return (x.1, ranges)
      else throw .assertion) = (.ok e : Except Failure _) →
      e.1 = x.1 ∧ e.2.length = rows.length := by
    intro x e h
    obtain ⟨ranges, hranges, h⟩ := bind_ok_iff.1 h
    split at h
    · cases h
      exact ⟨rfl, length_mapM hranges⟩
    · cases h
  have hall := mapM_ok_iff.1 h
  refine ⟨?_, fun e he => ?_⟩
  · have hfst : List.Forall₂ (fun x e => Prod.fst x = Prod.fst e) side.types.zipIdx map :=
      hall.imp fun x e hx => (hturn x e hx).1.symm
    rw [← List.zipIdx_map_fst 0 side.types, eq_comm, ← List.forall₂_eq_eq_eq,
      List.forall₂_map_left_iff, List.forall₂_map_right_iff]
    exact hfst
  · obtain ⟨x, -, hx⟩ := exists_of_mem_mapM h he
    exact (hturn x e hx).2

/-- The maps of a run that has returned are complete. -/
theorem complete_of_idMap {saved : Saved τ α} {nodes edges : List (List Row)}
    (hnodes : idMap id g.nodes nodes = .ok saved.node_map)
    (hedges : idMap npSort g.edges edges = .ok saved.edge_map) (hn : nodes ≠ [])
    (he : edges ≠ []) : saved.Complete g := by
  obtain ⟨hkn, hln⟩ := keys_of_idMap hnodes
  obtain ⟨hke, hle⟩ := keys_of_idMap hedges
  refine ⟨hkn, hke, fun e hmem hnil => hn ?_, fun e hmem hnil => he ?_⟩
  · exact List.eq_nil_of_length_eq_zero ((hln e hmem).symm.trans (congrArg List.length hnil))
  · exact List.eq_nil_of_length_eq_zero ((hle e hmem).symm.trans (congrArg List.length hnil))

/-- **What is known of one side of the graph**, partition by partition: the ranges of a
type, and the rows of the partitions they are the ranges of. -/
theorem side_files {arrange : List ℕ → List ℕ} {side : Side κ α} {homogeneous : Bool}
    {rows rows' : List (List Row)} {map : List (κ × List (ℕ × ℕ))}
    (h : idMap arrange side rows' = .ok map) (hsorted : checkSorted map = .ok ())
    (hperm : ∀ l, (arrange l).Perm l)
    (htyped : List.Forall₂ (Typed arrange homogeneous side) rows rows')
    {i : ℕ} {type : κ} (htype : side.types[i]? = some type) :
    ∃ ranges, (type, ranges) ∈ map ∧ Serves homogeneous side rows i type ranges ∧
      ∀ (p : ℕ) (l' : List Row), rows'[p]? = some l' →
        ∃ l r, rows[p]? = some l ∧ ranges[p]? = some r ∧ SameRows homogeneous side l l' ∧
          arrange ((owned homogeneous side i l).map Row.id) = List.range' r.1 (r.2 - r.1) := by
  obtain ⟨ranges, hmem, hserves, hexact⟩ := serves_of_idMap h hsorted hperm
    (htyped.imp fun _ _ ht => ht.same) htype fun l hl => by
      obtain ⟨p, hp, rfl⟩ := List.getElem_of_mem hl
      have hlt : p < rows.length := htyped.length_eq ▸ hp
      have ht : Typed arrange homogeneous side rows[p] rows'[p] := htyped.get hlt hp
      exact ht.contiguous i (List.getElem?_eq_some_iff.1 htype).1
  refine ⟨ranges, hmem, hserves, fun p l' hp => ?_⟩
  obtain ⟨hlt', rfl⟩ := List.getElem?_eq_some_iff.1 hp
  have hlt : p < rows.length := htyped.length_eq ▸ hlt'
  have hl : rows[p]? = some rows[p] := List.getElem?_eq_getElem hlt
  have hr := List.getElem?_eq_getElem (l := ranges) (i := p) (hserves.length ▸ hlt)
  have ht : Typed arrange homogeneous side rows[p] rows'[p] := htyped.get hlt hlt'
  exact ⟨rows[p], _, hl, hr, ht.same, hexact p _ _ hl hr⟩

end Store
end BearRpc
