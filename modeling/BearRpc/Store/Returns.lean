/-
# When `partition_graph` returns

Given what `partition_graph_with_halo` promises, `partition_graph` returns if and only if its
arguments are accepted, there are as many partitions as asked for, every one of them owns a
node of every type and an edge of every type, and the types of a graph that is not
homogeneous fit in the `dtype`s of their fields (`returns_iff`): the first id of an empty
list does not exist, and a type that the cast changes fails an assertion.

For a graph of 98308 nodes or fewer it never returns, as all of them go to partition 0
(`assigned_of_partitionGraph`).
-/

import BearRpc.Store.Lookup

namespace BearRpc
namespace Store

open Theory

variable {κ τ α : Type} {g : Graph τ α} {call : Call} {halo : List ℕ → List Part}
  {num_parts : ℕ} {node_parts : List ℕ} {saved : Saved τ α}

/-- What is promised of one side of the graph. -/
structure Promised (arrange : List ℕ → List ℕ) (homogeneous gathers : Bool) (side : Side κ α)
    (parts : List (List Row)) : Prop where
  /-- `partition_graph_with_halo` sets no types -/
  type : ∀ rows ∈ parts, ∀ row ∈ rows, row.type = none
  nodup : ∀ rows ∈ parts, ((rows.filter Row.inner).map Row.id).Nodup
  /-- the ids of one type in one partition follow each other -/
  contiguous : ∀ rows ∈ parts, ∀ i, i < side.types.length →
    ∃ a n, arrange ((owned homogeneous side i rows).map Row.id) = List.range' a n
  /-- the partitions are in the order of the ids -/
  ordered : ∀ i, parts.Pairwise fun rows rows' =>
    ∀ row ∈ owned homogeneous side i rows, ∀ row' ∈ owned homogeneous side i rows', row.id < row'.id
  /-- every item is in one partition -/
  number : ∀ i type, side.types[i]? = some type →
    (parts.map fun rows => (owned homogeneous side i rows).length).sum = side.number type
  /-- `orig_id` is the id of an item of `sim_g` -/
  known : homogeneous = false → ∀ rows ∈ parts, ∀ row ∈ rows, (side.simType[row.orig]?).isSome
  /-- every item has its features -/
  featured : ∀ rows ∈ parts, ∀ i type, side.types[i]? = some type →
    ∀ row ∈ owned homogeneous side i rows, ∃ o, original gathers side row = some o ∧
      ∀ feat ∈ side.data type, o < feat.2.length

/-! ### Steps that return -/

/-- Gathering rows from a tensor that has all of them raises nothing. -/
theorem exists_gatherRow {tensor : List α} {rows : List ℕ} (h : ∀ i ∈ rows, i < tensor.length) :
    ∃ out, gatherRow tensor rows = .ok out :=
  exists_mapM fun i hi => ⟨_, by rw [List.getElem?_eq_getElem (h i hi)]⟩

/-- The first and the last id of a list exist exactly if the list has an element: `ids[0]`
of an empty tensor raises an `IndexError`. -/
theorem exists_bounds_iff {ids : List ℕ} : (∃ r, bounds ids = .ok r) ↔ ids ≠ [] := by
  cases ids with
  | nil =>
    refine ⟨?_, fun h => absurd rfl h⟩
    rintro ⟨r, h⟩
    cases h
  | cons id ids =>
    refine ⟨fun _ => List.cons_ne_nil _ _, fun _ => ?_⟩
    rw [bounds, List.head?_cons, List.getLast?_cons]
    exact ⟨_, rfl⟩

/-- Comparing a tensor with itself gives all `True`, so the `assert np.all` of
`partition_graph` holds for types that were not changed. -/
theorem npAllEq_self (ids : List ℕ) : npAllEq ids ids = true := by
  simp [npAllEq]

/-- A range passes its check. -/
theorem checkType_of_contiguous {arrange : List ℕ → List ℕ} {rows : List Row} {i : ℕ}
    (h : ∃ a n, arrange ((innerRows i rows).map Row.id) = List.range' a n)
    (hne : arrange ((innerRows i rows).map Row.id) ≠ []) : checkType arrange rows i = .ok () := by
  obtain ⟨r, hr⟩ := exists_bounds_iff.2 hne
  refine bind_ok_iff.2 ⟨r, hr, ?_⟩
  rw [← (bounds_contiguous hr h).1, if_pos (npAllEq_self _)]
  rfl

/-- **The cast changes the types from half of the numbers on**: below it they fit the signed
type, and from there on they become negative. -/
theorem astype_eq_iff (bits type : ℕ) : astype (bits + 1) type = type ↔ type < 2 ^ bits := by
  have hpos : 0 < 2 ^ bits := Nat.two_pow_pos bits
  rw [astype, Nat.pow_succ]
  constructor
  · intro h
    have hlt := @Int.bmod_lt type (2 ^ bits * 2) (by omega)
    omega
  · intro h
    exact Int.bmod_eq_of_le_mul_two (by omega) (by omega)

/-- **The types of rows can be set** where every original id has a type and none of the
types is changed by the conversion to a short integer, which the assertion behind the
conversion checks. -/
theorem exists_setTypes {bits : ℕ} {simType : List ℕ} {rows : List Row}
    (h : ∀ row ∈ rows, (simType[row.orig]?).isSome)
    (hfits : ∀ type ∈ simType, astype bits type = type) :
    ∃ rows', setTypes bits simType rows = .ok rows' := by
  have hlt : ∀ i ∈ rows.map Row.orig, i < simType.length := by
    intro i hi
    obtain ⟨row, hrow, rfl⟩ := List.mem_map.1 hi
    exact (List.getElem?_eq_some_iff.1 (Option.eq_some_of_isSome (h row hrow))).1
  obtain ⟨types, htypes⟩ := exists_gatherRow hlt
  have hall : types.all (fun type => astype bits type == type) = true := by
    refine List.all_eq_true.2 fun type htype => beq_of_eq (hfits type ?_)
    obtain ⟨i, hi, hrow⟩ := exists_of_mem_mapM htypes htype
    split at hrow
    · next hget =>
      cases hrow
      exact List.mem_of_getElem? hget
    · cases hrow
  exact ⟨_, bind_ok_iff.2 ⟨types, htypes, if_pos hall⟩⟩

section Side

variable {arrange : List ℕ → List ℕ} {homogeneous gathers : Bool} {side : Side κ α}
  {rows rows' : List (List Row)} {map : List (κ × List (ℕ × ℕ))}

/-- Arranging the rows of a partition neither loses the last one nor makes one up. -/
theorem arrange_map_ne_nil (hperm : ∀ l, (arrange l).Perm l) {l : List Row} :
    arrange (l.map Row.id) ≠ [] ↔ l ≠ [] := by
  rw [← List.length_pos_iff, ← List.length_pos_iff, (hperm _).length_eq, List.length_map]

/-- A partition has rows of a type after the arrangement exactly if it owned rows of that
type before. -/
theorem innerRows_ne_nil {l l' : List Row} (h : SameRows homogeneous side l l') (i : ℕ) :
    innerRows i l' ≠ [] ↔ owned homogeneous side i l ≠ [] := by
  have hlen := congrArg List.length (h i).1
  rw [List.length_map, List.length_map] at hlen
  rw [← List.length_pos_iff, ← List.length_pos_iff, hlen]

/-- **A written map has an id of every type in every partition**: the first and the last one
are read from the list without a look at its length. -/
theorem owned_ne_nil (h : idMap arrange side rows' = .ok map) (hperm : ∀ l, (arrange l).Perm l)
    (hsame : List.Forall₂ (SameRows homogeneous side) rows rows') {l : List Row} (hl : l ∈ rows)
    {i : ℕ} (hi : i < side.types.length) : owned homogeneous side i l ≠ [] := by
  obtain ⟨e, -, hturn⟩ := exists_of_mapM h (k := i) (x := (side.types[i], i)) (by
    rw [List.getElem?_zipIdx, List.getElem?_eq_getElem hi, Nat.zero_add]
    rfl)
  obtain ⟨ranges, hranges, -⟩ := bind_ok_iff.1 hturn
  obtain ⟨p, hp, rfl⟩ := List.getElem_of_mem hl
  have hp' : p < rows'.length := hsame.length_eq ▸ hp
  obtain ⟨r, -, hr⟩ := exists_of_mapM hranges (List.getElem?_eq_getElem hp')
  have hp := hsame.get hp hp'
  exact (innerRows_ne_nil hp i).1 ((arrange_map_ne_nil hperm).1 (exists_bounds_iff.1 ⟨r, hr⟩))

/-- The range of a type in a partition. -/
theorem exists_range (h : Promised arrange homogeneous gathers side rows)
    (hperm : ∀ l, (arrange l).Perm l) {l l' : List Row} (hl : l ∈ rows)
    (hsame : SameRows homogeneous side l l') {i : ℕ} (hi : i < side.types.length)
    (hne : owned homogeneous side i l ≠ []) :
    ∃ r, bounds (arrange ((innerRows i l').map Row.id)) = .ok r ∧
      arrange ((owned homogeneous side i l).map Row.id) = List.range' r.1 (r.2 - r.1) ∧
      r.1 < r.2 := by
  have hne' := (arrange_map_ne_nil hperm).2 ((innerRows_ne_nil hsame i).2 hne)
  obtain ⟨r, hr⟩ := exists_bounds_iff.2 hne'
  rw [(hsame i).1] at hr
  exact ⟨r, (hsame i).1 ▸ hr, bounds_contiguous hr (h.contiguous l hl i hi)⟩

/-- **A map can be written** where every partition has an id of every type, and passes its
check, if the ids are consecutive and in the order of the partitions. -/
theorem exists_idMap (h : Promised arrange homogeneous gathers side rows)
    (hperm : ∀ l, (arrange l).Perm l)
    (hsame : List.Forall₂ (SameRows homogeneous side) rows rows')
    (hne : ∀ l ∈ rows, ∀ i, i < side.types.length → owned homogeneous side i l ≠ []) :
    ∃ map, idMap arrange side rows' = .ok map ∧ checkSorted map = .ok () := by
  have hat : ∀ i, i < side.types.length → ∀ p (hp : p < rows.length) (hp' : p < rows'.length),
      ∃ r, bounds (arrange ((innerRows i rows'[p]).map Row.id)) = .ok r ∧
        arrange ((owned homogeneous side i rows[p]).map Row.id) = List.range' r.1 (r.2 - r.1) ∧
        r.1 < r.2 := fun i hi p hp hp' =>
    exists_range h hperm (List.getElem_mem hp) (hsame.get hp hp') hi
      (hne _ (List.getElem_mem hp) i hi)
  have hmap : ∃ map, idMap arrange side rows' = .ok map := by
    refine exists_mapM fun e he => ?_
    obtain ⟨type, i⟩ := e
    have hi := List.mem_zipIdx' he
    have hbounds : ∀ l' ∈ rows', ∃ r, bounds (arrange ((innerRows i l').map Row.id)) = .ok r := by
      intro l' hl'
      obtain ⟨p, hp', rfl⟩ := List.getElem_of_mem hl'
      obtain ⟨r, hr, -⟩ := hat i hi.1 p (hsame.length_eq ▸ hp') hp'
      exact ⟨r, hr⟩
    obtain ⟨ranges, hranges⟩ := exists_mapM hbounds
    have hsum : (rows'.map fun l => (innerRows i l).length).sum = side.number type := by
      have htype := (List.getElem?_eq_getElem hi.1).trans (congrArg some hi.2.symm)
      rw [← h.number i type htype]
      refine congrArg List.sum (List.forall₂_eq_eq_eq ▸ ?_)
      rw [List.forall₂_map_left_iff, List.forall₂_map_right_iff]
      refine hsame.flip.imp fun l' l hl => ?_
      simpa using congrArg List.length (hl i).1
    exact ⟨_, bind_ok_iff.2 ⟨ranges, hranges, if_pos hsum⟩⟩
  obtain ⟨map, hmap⟩ := hmap
  refine ⟨map, hmap, forM_ok_iff.2 fun e he => ?_⟩
  obtain ⟨⟨type, i⟩, hx, hturn⟩ := exists_of_mem_mapM hmap he
  obtain ⟨ranges, hranges, hturn⟩ := bind_ok_iff.1 hturn
  split at hturn
  swap
  · cases hturn
  cases hturn
  have hi := (List.mem_zipIdx' hx).1
  have hlen : ranges.length = rows.length := (length_mapM hranges).trans hsame.length_eq.symm
  have hrange : ∀ p (hp : p < ranges.length) (hp' : p < rows.length),
      arrange ((owned homogeneous side i rows[p]).map Row.id) =
        List.range' ranges[p].1 (ranges[p].2 - ranges[p].1) ∧ ranges[p].1 < ranges[p].2 := by
    intro p hp hp'
    have hp'' : p < rows'.length := hsame.length_eq ▸ hp'
    obtain ⟨r, hr, hexact⟩ := hat i hi p hp' hp''
    obtain ⟨r', hr', hbounds⟩ := exists_of_mapM hranges (List.getElem?_eq_getElem hp'')
    rw [List.getElem?_eq_getElem hp, Option.some.injEq] at hr'
    rw [hr', Except.ok.inj (hbounds.symm.trans hr)]
    exact hexact
  refine if_pos (List.isChain_iff_pairwise.2 (List.pairwise_flatMap.2 ⟨fun r hr => ?_, ?_⟩))
  · obtain ⟨p, hp, rfl⟩ := List.getElem_of_mem hr
    simpa using (hrange p hp (hlen ▸ hp)).2.le
  · refine List.pairwise_iff_getElem.2 fun p q hp hq hpq => ?_
    have hp' : p < rows.length := hlen ▸ hp
    have hq' : q < rows.length := hlen ▸ hq
    obtain ⟨hl, hlt⟩ := hrange p hp hp'
    obtain ⟨hl', hlt'⟩ := hrange q hq hq'
    -- the last id of the one is before the first id of the other
    have hlast : ranges[p].2 - 1 ∈ (owned homogeneous side i rows[p]).map Row.id := by
      rw [← (hperm _).mem_iff, hl, List.mem_range'_1]
      omega
    have hfirst : ranges[q].1 ∈ (owned homogeneous side i rows[q]).map Row.id := by
      rw [← (hperm _).mem_iff, hl', List.mem_range'_1]
      omega
    obtain ⟨row, hrow, hid⟩ := List.mem_map.1 hlast
    obtain ⟨row', hrow', hid'⟩ := List.mem_map.1 hfirst
    have hord := List.pairwise_iff_getElem.1 (h.ordered i) p q hp' hq' hpq row hrow
      row' hrow'
    rw [hid, hid'] at hord
    simp only [List.mem_cons, List.not_mem_nil, or_false]
    omega

/-- The local ids under which a partition's data is written are the original ids of rows it
owns, so the data it writes is of nodes or edges of the graph. -/
theorem exists_of_mem_localIds {l l' : List Row} {i o : ℕ} {local_ids : List ℕ}
    (h : localIds gathers side ((innerRows i l').map Row.orig) = .ok local_ids)
    (hsame : SameRows homogeneous side l l') (ho : o ∈ local_ids) :
    ∃ row ∈ owned homogeneous side i l, original gathers side row = some o := by
  have hlen : local_ids.length = (owned homogeneous side i l).length := by
    have horig := congrArg List.length (hsame i).2
    rw [List.length_map, List.length_map] at horig
    cases gathers with
    | false =>
      cases h
      rw [List.length_map, horig]
    | true => rw [length_mapM h, List.length_map, horig]
  obtain ⟨k, hk, rfl⟩ := List.getElem_of_mem ho
  have hk' : k < (owned homogeneous side i l).length := hlen ▸ hk
  obtain ⟨o, horig, hget⟩ := getElem?_localIds h hsame (List.getElem?_eq_getElem hk')
  rw [List.getElem?_eq_getElem hk] at hget
  exact ⟨_, List.getElem_mem _, horig.trans hget.symm⟩

/-- **The features can be saved**: every row that is to be gathered exists, since the
original ids number the items of a type. -/
theorem exists_saveFeats (h : Promised arrange homogeneous gathers side rows)
    {l l' : List Row} (hl : l ∈ rows) (hsame : SameRows homogeneous side l l')
    (skipped : List (List Char)) : ∃ feats, saveFeats gathers skipped side l' = .ok feats := by
  refine exists_foldlM (fun e he feats => ?_) ∅
  obtain ⟨type, i⟩ := e
  have htype : side.types[i]? = some type := by
    obtain ⟨hi, heq⟩ := List.mem_zipIdx' he
    exact (List.getElem?_eq_getElem hi).trans (congrArg some heq.symm)
  have hlocal : ∃ local_ids,
      localIds gathers side ((innerRows i l').map Row.orig) = .ok local_ids := by
    cases hg : gathers with
    | false => exact ⟨_, rfl⟩
    | true =>
      refine exists_gatherRow fun o ho => ?_
      rw [(hsame i).2] at ho
      obtain ⟨row, hrow, rfl⟩ := List.mem_map.1 ho
      obtain ⟨o, ho, -⟩ := h.featured l hl i type htype row hrow
      rw [hg] at ho
      exact (List.getElem?_eq_some_iff.1 ho).1
  obtain ⟨local_ids, hlocal⟩ := hlocal
  suffices hsave : ∃ feats', saveType side skipped type local_ids feats = .ok feats' by
    obtain ⟨feats', hsave⟩ := hsave
    exact ⟨feats', bind_ok_iff.2 ⟨local_ids, hlocal, hsave⟩⟩
  refine exists_foldlM (fun feat hfeat feats => ?_) feats
  obtain ⟨name, tensor⟩ := feat
  dsimp only
  split
  · exact ⟨feats, rfl⟩
  · have hlt : ∀ o ∈ local_ids, o < tensor.length := by
      intro o ho
      obtain ⟨row, hrow, horig⟩ := exists_of_mem_localIds hlocal hsame ho
      obtain ⟨o', horig', hlt⟩ := h.featured l hl i type htype row hrow
      obtain rfl : o' = o := Option.some.inj (horig'.symm.trans horig)
      exact hlt _ hfeat
    obtain ⟨stored, hstored⟩ := exists_gatherRow hlt
    exact ⟨_, bind_ok_iff.2 ⟨stored, hstored, rfl⟩⟩

/-- The types of a partition can be set and checked. -/
theorem exists_checked {bits : ℕ} (h : Promised arrange false gathers side rows)
    (hperm : ∀ l, (arrange l).Perm l) (hfits : ∀ type ∈ side.simType, astype bits type = type)
    {l : List Row} (hl : l ∈ rows)
    (hne : ∀ i, i < side.types.length → owned false side i l ≠ []) :
    ∃ l', setTypes bits side.simType l = .ok l' ∧
      (List.range side.types.length).forM (checkType arrange l') = .ok () := by
  obtain ⟨l', hl'⟩ := exists_setTypes (h.known rfl l hl) hfits
  refine ⟨l', hl', forM_ok_iff.2 fun i hi => ?_⟩
  have hi := List.mem_range.1 hi
  have hids := map_innerRows_setTypes (i := i) hl' Row.id fun _ _ => rfl
  refine checkType_of_contiguous ?_ ?_
  · rw [hids]
    exact h.contiguous l hl i hi
  · rw [hids]
    exact (arrange_map_ne_nil hperm).2 (hne i hi)

end Side

/-! ### Both sides -/

/-- What is promised of all partitions. -/
structure Promises (g : Graph τ α) (parts : List Part) : Prop where
  nodes : Promised id g.isHomogeneous (1 < g.nodes.types.length) g.nodes (parts.map Part.nodes)
  edges : Promised npSort g.isHomogeneous (!g.isHomogeneous) g.edges (parts.map Part.edges)

/-- What `partition_graph_with_halo` is relied on for gives the conditions of the round
trip: the types are numbered in order and the rows of each type stand together. -/
theorem reshuffled_of_promised {arrange : List ℕ → List ℕ} {homogeneous gathers : Bool}
    {side : Side κ α} {rows : List (List Row)}
    (h : Promised arrange homogeneous gathers side rows) {l : List Row} (hl : l ∈ rows)
    (htypes : homogeneous = true → 0 < side.types.length) : Reshuffled arrange homogeneous l := by
  refine ⟨h.type l hl, h.nodup l hl, fun hhom => ?_⟩
  obtain ⟨a, n, hcontiguous⟩ := h.contiguous l hl 0 (htypes hhom)
  refine ⟨a, n, ?_⟩
  rw [← hcontiguous, owned, hhom]
  simp only [Bool.true_or, Bool.and_true]

/-- A homogeneous graph has one type of nodes and one of edges. -/
theorem length_types_of_homogeneous (h : g.isHomogeneous = true) :
    g.nodes.types.length = 1 ∧ g.edges.types.length = 1 := by
  simpa [Graph.isHomogeneous] using h

/-- So both sides of every partition are ready for the round trip. -/
theorem Promises.reshuffled {parts : List Part} (h : Promises g parts) :
    ∀ part ∈ parts, part.Reshuffled g.isHomogeneous := by
  intro part hpart
  refine ⟨reshuffled_of_promised h.nodes (List.mem_map_of_mem hpart) fun hhom => ?_,
    reshuffled_of_promised h.edges (List.mem_map_of_mem hpart) fun hhom => ?_⟩
  · rw [(length_types_of_homogeneous hhom).1]
    exact Nat.one_pos
  · rw [(length_types_of_homogeneous hhom).2]
    exact Nat.one_pos

/-- A partition owns an item of every type. -/
def Part.Full (g : Graph τ α) (part : Part) : Prop :=
  (∀ i, i < g.nodes.types.length → owned g.isHomogeneous g.nodes i part.nodes ≠ []) ∧
    ∀ i, i < g.edges.types.length → owned g.isHomogeneous g.edges i part.edges ≠ []

/-- The arguments that are accepted. -/
structure Call.Valid (call : Call) : Prop where
  coo : "coo".toList ∈ call.formats
  objtype : call.objtype ∈ ["cut".toList, "vol".toList]
  method : (call.part_method = "metis".toList ∧ 1 ≤ call.num_trainers_per_machine) ∨
    call.part_method = "random".toList

/-- **The checks of the arguments** raise nothing exactly on valid calls: a known method,
and options that go with it. -/
theorem checkCall_ok_iff : checkCall call = .ok () ↔ call.Valid := by
  have hmethods : "metis".toList ≠ "random".toList := by decide
  unfold checkCall
  constructor
  · intro h
    split at h
    · cases h
    next hcoo =>
    split at h
    · cases h
    next hobjtype =>
    refine ⟨not_not.1 hcoo, not_not.1 hobjtype, ?_⟩
    split at h
    · next hmetis =>
      split at h
      · next htrainers => exact .inl ⟨hmetis, htrainers⟩
      · cases h
    · split at h
      · next hrandom => exact .inr hrandom
      · cases h
  · rintro ⟨hcoo, hobjtype, hmethod⟩
    rw [if_neg (not_not.2 hcoo), if_neg (not_not.2 hobjtype)]
    obtain ⟨hmetis, htrainers⟩ | hrandom := hmethod
    · rw [if_pos hmetis, if_pos htrainers]
      rfl
    · rw [if_neg fun hmetis => hmethods (hmetis.symm.trans hrandom), if_pos hrandom]
      rfl

/-- The types of the items are those of the graph. -/
def Numbered (side : Side κ α) : Prop := ∀ type ∈ side.simType, type < side.types.length

/-- The types fit in `F.int16` and `F.int32`. -/
structure Graph.Small (g : Graph τ α) : Prop where
  nodes : g.nodes.types.length ≤ 2 ^ 15
  edges : g.edges.types.length ≤ 2 ^ 31

/-- Types that are numbered in order fit the short integer if there are not too many of
them, so the conversion changes none. -/
theorem astype_of_numbered {side : Side κ α} {bits : ℕ} (h : Numbered side)
    (hsmall : side.types.length ≤ 2 ^ bits) :
    ∀ type ∈ side.simType, astype (bits + 1) type = type := fun type htype =>
  (astype_eq_iff bits type).2 ((h type htype).trans_le hsmall)

/-- **The types can be set and checked**: they fit the numbers they are cast to, every type
has an item, and the ids of each are a range. -/
theorem exists_typedParts {parts : List Part} (h : Promises g parts)
    (hn : Numbered g.nodes) (he : Numbered g.edges) (hsmall : g.isHomogeneous = false → g.Small)
    (hfull : ∀ part ∈ parts, part.Full g) : ∃ typed, typedParts g parts = .ok typed := by
  unfold typedParts
  cases hhom : g.isHomogeneous with
  | true => exact ⟨_, rfl⟩
  | false =>
    refine exists_mapM fun part hpart => ?_
    obtain ⟨hnodes, hedges⟩ := h
    obtain ⟨hfn, hfe⟩ := hfull part hpart
    rw [hhom] at hnodes hedges hfn hfe
    obtain ⟨nodes, hn, hcn⟩ := exists_checked hnodes (fun _ => .rfl)
      (astype_of_numbered hn (hsmall hhom).nodes) (List.mem_map_of_mem hpart) hfn
    obtain ⟨edges, he, hce⟩ := exists_checked hedges npSort_perm
      (astype_of_numbered he (hsmall hhom).edges) (List.mem_map_of_mem hpart) hfe
    exact ⟨_, bind_ok_iff.2 ⟨nodes, hn, bind_ok_iff.2 ⟨edges, he, bind_ok_iff.2 ⟨(), hcn,
      bind_ok_iff.2 ⟨(), hce, rfl⟩⟩⟩⟩⟩

/-- **A type that was set fits**: the last type of a side, if an item has it. So there are
no more types than the signed number can count. -/
theorem length_types_le {side : Side κ α} {bits : ℕ} {l l' : List Row}
    (h : setTypes (bits + 1) side.simType l = .ok l')
    (hne : ∀ i, i < side.types.length → owned false side i l ≠ []) :
    side.types.length ≤ 2 ^ bits := by
  rcases Nat.eq_zero_or_pos side.types.length with hzero | hpos
  · rw [hzero]
    exact Nat.zero_le _
  · obtain ⟨row, hrow⟩ := List.exists_mem_of_ne_nil _ (hne (side.types.length - 1) (by omega))
    obtain ⟨hmem, hmask⟩ := List.mem_filter.1 hrow
    rw [Bool.false_or] at hmask
    obtain ⟨type, htype, hfits⟩ := (setTypes_ok h).2 row hmem
    have hlast := eq_of_beq (Bool.and_eq_true_iff.1 hmask).2
    have hlt := (astype_eq_iff bits type).1 hfits
    cases hlast.symm.trans htype
    omega

/-- **What a graph with types needs** to get them set: no more node types than an int16 can
number, and no more edge types than an int32 can. -/
theorem small_of_typedParts {parts typed : List Part} (h : typedParts g parts = .ok typed)
    (hhom : g.isHomogeneous = false) (hparts : parts ≠ [])
    (hfull : ∀ part ∈ parts, part.Full g) : g.Small := by
  obtain ⟨part, hpart⟩ := List.exists_mem_of_ne_nil _ hparts
  rw [typedParts, hhom] at h
  obtain ⟨k, hk⟩ := List.getElem?_of_mem hpart
  obtain ⟨_, -, hturn⟩ := exists_of_mapM h hk
  obtain ⟨nodes, hn, hturn⟩ := bind_ok_iff.1 hturn
  obtain ⟨edges, he, -⟩ := bind_ok_iff.1 hturn
  obtain ⟨hfn, hfe⟩ := hfull part hpart
  rw [hhom] at hfn hfe
  exact ⟨length_types_le hn hfn, length_types_le he hfe⟩

/-- **What it needs to return**: a partition for each number that is asked for, and in every
partition an item of every type of both sides. -/
theorem full_of_ok (h : Promises g (halo (override node_parts)))
    (hok : partitionGraph call halo g num_parts node_parts = .ok saved) :
    num_parts ≤ (halo (override node_parts)).length ∧
      ∀ part ∈ halo (override node_parts), part.Full g := by
  obtain ⟨-, nodes, edges, ⟨htn, hmn, -⟩, ⟨hte, hme, -⟩, hfeats⟩ :=
    partitionGraph_ok hok h.reshuffled
  refine ⟨?_, fun part hpart => ⟨fun i hi => ?_, fun i hi => ?_⟩⟩
  · rcases Nat.eq_zero_or_pos num_parts with rfl | hpos
    · exact Nat.zero_le _
    · obtain ⟨l, -, -, hl, -⟩ := hfeats (num_parts - 1) (by omega)
      have hlt := (List.getElem?_eq_some_iff.1 hl).1
      rw [← htn.length_eq, List.length_map] at hlt
      omega
  · exact owned_ne_nil hmn (fun _ => .rfl) (htn.imp fun _ _ ht => ht.same)
      (List.mem_map_of_mem hpart) hi
  · exact owned_ne_nil hme npSort_perm (hte.imp fun _ _ ht => ht.same)
      (List.mem_map_of_mem hpart) hi

/-- **What is enough** to return: with arguments that are accepted, enough partitions with
items of all types, and types that fit, no step fails. -/
theorem exists_saved (h : Promises g (halo (override node_parts))) (hn : Numbered g.nodes)
    (he : Numbered g.edges) (hcall : call.Valid)
    (hlen : num_parts ≤ (halo (override node_parts)).length)
    (hfull : ∀ part ∈ halo (override node_parts), part.Full g)
    (hsmall : g.isHomogeneous = false → g.Small) :
    ∃ saved, partitionGraph call halo g num_parts node_parts = .ok saved := by
  obtain ⟨typed, htyped⟩ := exists_typedParts h hn he hsmall hfull
  have hall := typedParts_ok htyped h.reshuffled
  have hn : List.Forall₂ (SameRows g.isHomogeneous g.nodes)
      ((halo (override node_parts)).map Part.nodes) (typed.map Part.nodes) := by
    rw [List.forall₂_map_left_iff, List.forall₂_map_right_iff]
    exact hall.imp fun _ _ ht => ht.1.same
  have he : List.Forall₂ (SameRows g.isHomogeneous g.edges)
      ((halo (override node_parts)).map Part.edges) (typed.map Part.edges) := by
    rw [List.forall₂_map_left_iff, List.forall₂_map_right_iff]
    exact hall.imp fun _ _ ht => ht.2.same
  obtain ⟨node_map, hnm, hns⟩ := exists_idMap h.nodes (fun _ => .rfl) hn fun l hl i hi => by
    obtain ⟨part, hpart, rfl⟩ := List.mem_map.1 hl
    exact (hfull part hpart).1 i hi
  obtain ⟨edge_map, hem, hes⟩ := exists_idMap h.edges npSort_perm he fun l hl i hi => by
    obtain ⟨part, hpart, rfl⟩ := List.mem_map.1 hl
    exact (hfull part hpart).2 i hi
  have hfeats : ∀ p ∈ List.range num_parts, ∃ feats, savePart g typed p = .ok feats := by
    intro p hp
    have hlt : p < (halo (override node_parts)).length := (List.mem_range.1 hp).trans_le hlen
    have hlt' : p < typed.length := hall.length_eq ▸ hlt
    have ht := hall.get hlt hlt'
    obtain ⟨nodes, hnodes⟩ := exists_saveFeats h.nodes
      (List.mem_map_of_mem (List.getElem_mem hlt)) ht.1.same nodeSkipped
    obtain ⟨edges, hedges⟩ := exists_saveFeats h.edges
      (List.mem_map_of_mem (List.getElem_mem hlt)) ht.2.same edgeSkipped
    refine ⟨(nodes, edges), ?_⟩
    rw [savePart, List.getElem?_eq_getElem hlt']
    exact bind_ok_iff.2 ⟨nodes, hnodes, bind_ok_iff.2 ⟨edges, hedges, rfl⟩⟩
  obtain ⟨feats, hfeats⟩ := exists_mapM hfeats
  exact ⟨_, bind_ok_iff.2 ⟨(), checkCall_ok_iff.2 hcall, bind_ok_iff.2 ⟨typed, htyped,
    bind_ok_iff.2 ⟨node_map, hnm, bind_ok_iff.2 ⟨edge_map, hem, bind_ok_iff.2 ⟨(), hns,
      bind_ok_iff.2 ⟨(), hes, bind_ok_iff.2 ⟨feats, hfeats, rfl⟩⟩⟩⟩⟩⟩⟩⟩

/-- **When `partition_graph` returns**: its arguments are accepted, there are as many partitions
as asked for, each owns a node of every type and an edge of every type, and there are no more
types than the fields can hold, unless the graph is homogeneous. -/
theorem returns_iff (h : Promises g (halo (override node_parts))) (hnum : 1 < num_parts)
    (hn : Numbered g.nodes) (he : Numbered g.edges) :
    (∃ saved, partitionGraph call halo g num_parts node_parts = .ok saved) ↔
      call.Valid ∧ num_parts ≤ (halo (override node_parts)).length ∧
        (∀ part ∈ halo (override node_parts), part.Full g) ∧
        (g.isHomogeneous = false → g.Small) := by
  constructor
  · rintro ⟨saved, hok⟩
    obtain ⟨hlen, hfull⟩ := full_of_ok h hok
    obtain ⟨_, hcall, hok⟩ := bind_ok_iff.1 hok
    obtain ⟨typed, htyped, -⟩ := bind_ok_iff.1 hok
    have hparts : halo (override node_parts) ≠ [] := List.length_pos_iff.1 (by omega)
    exact ⟨checkCall_ok_iff.1 hcall, hlen, hfull,
      fun hhom => small_of_typedParts htyped hhom hparts hfull⟩
  · rintro ⟨hcall, hlen, hfull, hsmall⟩
    exact exists_saved h hn he hcall hlen hfull hsmall

/-- **Every partition asked for has been assigned a node of every type**; so no graph of 98308
nodes or fewer is partitioned. -/
theorem assigned_of_partitionGraph (h : Promises g (halo (override node_parts)))
    (hassigned : ∀ (p : ℕ) (part : Part), (halo (override node_parts))[p]? = some part →
      ∀ row ∈ part.nodes, row.inner = true → (override node_parts)[row.orig]? = some p)
    (hok : partitionGraph call halo g num_parts node_parts = .ok saved) :
    (∀ p, p < num_parts → ∀ i, i < g.nodes.types.length → ∃ v : ℕ,
      (override node_parts)[v]? = some p ∧
        (g.isHomogeneous = false → g.nodes.simType[v]? = some i)) ∧
      (1 < num_parts → 0 < g.nodes.types.length → 98308 < node_parts.length) := by
  have hall : ∀ p, p < num_parts → ∀ i, i < g.nodes.types.length → ∃ v : ℕ,
      (override node_parts)[v]? = some p ∧
        (g.isHomogeneous = false → g.nodes.simType[v]? = some i) := by
    intro p hp i hi
    obtain ⟨hlen, hfull⟩ := full_of_ok h hok
    have hlt := hp.trans_le hlen
    obtain ⟨row, hrow⟩ := List.exists_mem_of_ne_nil _ ((hfull _ (List.getElem_mem hlt)).1 i hi)
    obtain ⟨hmem, hmask⟩ := List.mem_filter.1 hrow
    obtain ⟨hinner, htype⟩ := Bool.and_eq_true_iff.1 hmask
    refine ⟨row.orig, hassigned p _ (List.getElem?_eq_getElem hlt) row hmem hinner, fun hhom => ?_⟩
    rw [hhom, Bool.false_or] at htype
    exact eq_of_beq htype
  refine ⟨hall, fun hnum htypes => ?_⟩
  obtain ⟨v, hv, -⟩ := hall 1 hnum 0 htypes
  rw [override, List.getElem?_mapIdx] at hv
  obtain ⟨p, hp, hv⟩ := Option.map_eq_some_iff.1 hv
  have hlt := (List.getElem?_eq_some_iff.1 hp).1
  split at hv
  · cases hv
  · omega

/-! ### Two loops -/

/-- Items that keep their ids. -/
def rowsFrom (a n : ℕ) : List Row := (List.range' a n).map fun i => ⟨true, i, i, none⟩

/-- The loops from `a` on, `n` of them: so many rows. -/
theorem length_rowsFrom (a n : ℕ) : (rowsFrom a n).length = n := by
  rw [rowsFrom, List.length_map, List.length_range']

/-- Their ids are consecutive. -/
theorem map_id_rowsFrom (a n : ℕ) : (rowsFrom a n).map Row.id = List.range' a n := by
  rw [rowsFrom, List.map_map]
  exact List.map_id _

/-- Each is an inner row with the same id and original id, without a type of its own. -/
theorem mem_rowsFrom {a n : ℕ} {row : Row} :
    row ∈ rowsFrom a n ↔ ∃ j, (a ≤ j ∧ j < a + n) ∧ ⟨true, j, j, none⟩ = row := by
  rw [rowsFrom, List.mem_map]
  simp only [List.mem_range'_1]

/-- All items of a homogeneous graph that are inside the partition have its type. -/
theorem owned_of_perm (side : Side κ α) (i : ℕ) {l : List Row} {a n : ℕ}
    (h : l.Perm (rowsFrom a n)) : owned true side i l = l := by
  refine List.filter_eq_self.2 fun row hrow => ?_
  obtain ⟨j, -, rfl⟩ := mem_rowsFrom.1 (h.mem_iff.1 hrow)
  rfl

/-- In a homogeneous graph all of them belong to the only type. -/
theorem owned_rowsFrom (side : Side κ α) (i a n : ℕ) :
    owned true side i (rowsFrom a n) = rowsFrom a n :=
  owned_of_perm side i .rfl

/-- Two partitions of items that keep their ids, stored in any order. -/
theorem promised_rows {arrange : List ℕ → List ℕ} {side : Side κ α} {m k : ℕ} {l₀ l₁ : List Row}
    (h₀ : l₀.Perm (rowsFrom 0 m)) (h₁ : l₁.Perm (rowsFrom m k))
    (ha₀ : arrange (l₀.map Row.id) = List.range' 0 m)
    (ha₁ : arrange (l₁.map Row.id) = List.range' m k)
    (hnumber : ∀ type ∈ side.types, m + k = side.number type)
    (hdata : ∀ type ∈ side.types, ∀ feat ∈ side.data type, feat.2.length = m + k) :
    Promised arrange true false side [l₀, l₁] := by
  have hrows : ∀ l ∈ [l₀, l₁], ∃ a n, l.Perm (rowsFrom a n) ∧
      arrange (l.map Row.id) = List.range' a n ∧ a + n ≤ m + k := by
    intro l hl
    rcases List.mem_cons.1 hl with rfl | hl
    · exact ⟨0, m, h₀, ha₀, by omega⟩
    · cases List.mem_singleton.1 hl
      exact ⟨m, k, h₁, ha₁, le_refl _⟩
  refine ⟨fun l hl row hrow => ?_, fun l hl => ?_, fun l hl i hi => ?_, fun i => ?_,
    fun i type htype => ?_, fun h => (by cases h), fun l hl i type htype row hrow => ?_⟩
  · obtain ⟨a, n, hperm, -⟩ := hrows l hl
    obtain ⟨j, -, rfl⟩ := mem_rowsFrom.1 (hperm.mem_iff.1 hrow)
    rfl
  · obtain ⟨a, n, hperm, -⟩ := hrows l hl
    refine List.Nodup.sublist (List.filter_sublist.map Row.id) ?_
    rw [(hperm.map Row.id).nodup_iff, map_id_rowsFrom]
    exact List.nodup_range'
  · obtain ⟨a, n, hperm, harrange, -⟩ := hrows l hl
    exact ⟨a, n, by rw [owned_of_perm side i hperm, harrange]⟩
  · refine List.pairwise_pair.2 fun row hrow row' hrow' => ?_
    rw [owned_of_perm side i h₀] at hrow
    rw [owned_of_perm side i h₁] at hrow'
    obtain ⟨j, hj, rfl⟩ := mem_rowsFrom.1 (h₀.mem_iff.1 hrow)
    obtain ⟨j', hj', rfl⟩ := mem_rowsFrom.1 (h₁.mem_iff.1 hrow')
    dsimp only
    omega
  · rw [← hnumber type (List.mem_of_getElem? htype)]
    simp only [List.map_cons, List.map_nil, owned_of_perm side i h₀, owned_of_perm side i h₁,
      h₀.length_eq, h₁.length_eq, length_rowsFrom, List.sum_cons, List.sum_nil, Nat.add_zero]
  · obtain ⟨a, n, hperm, -, hle⟩ := hrows l hl
    rw [owned_of_perm side i hperm] at hrow
    obtain ⟨j, hj, rfl⟩ := mem_rowsFrom.1 (hperm.mem_iff.1 hrow)
    refine ⟨j, rfl, fun feat hfeat => ?_⟩
    rw [hdata type (List.mem_of_getElem? htype) feat hfeat]
    omega

/-- A graph of `n + 1` nodes with a loop on its first node and two on its last. -/
def loops (n : ℕ) : Graph (List Char) ℕ where
  nodes :=
    { types := ["_N".toList]
      str := id
      ofStr := some
      number := fun _ => n + 1
      data := fun _ => [("x".toList, List.range (n + 1))]
      simType := List.replicate (n + 1) 0
      simId := List.range (n + 1) }
  edges :=
    { types := ["_N:_E:_N".toList]
      str := id
      ofStr := some
      number := fun _ => 3
      data := fun _ => [("w".toList, [7, 9, 11])]
      simType := [0, 0, 0]
      simId := [0, 1, 2] }
  str_nodes := fun _ => rfl

/-- The arguments of the calls below. -/
def metisCall : Call := ⟨["coo".toList], "cut".toList, "metis".toList, 1⟩

/-- `metis` with balanced node types is one of the calls that the checks let through. -/
theorem valid_metisCall : metisCall.Valid := ⟨by decide, by decide, .inl ⟨rfl, by decide⟩⟩

/-- The loops of the last node, not in the order of their ids. -/
def lastLoops : List Row := [⟨true, 2, 2, none⟩, ⟨true, 1, 1, none⟩]

/-- Sorting puts the two rows of the last partition in order. -/
theorem npSort_lastLoops : npSort (lastLoops.map Row.id) = List.range' 1 2 := by decide

/-- The last partition has its two rows, stored in the wrong order. -/
theorem lastLoops_perm : lastLoops.Perm (rowsFrom 1 2) := List.Perm.swap _ _ _

/-- Its partitions, where the nodes are assigned in order. -/
def loopsHalo (node_parts : List ℕ) : List Part :=
  [⟨rowsFrom 0 (node_parts.count 0), rowsFrom 0 1⟩,
    ⟨rowsFrom (node_parts.count 0) (node_parts.count 1), lastLoops⟩]

/-- **The override that the source puts behind the assignment** for this graph: every node
goes to partition 0, but for the last one. -/
theorem override_replicate {n : ℕ} (hn : n = 98308) :
    override (List.replicate (n + 1) 0) = List.replicate n 0 ++ [1] := by
  refine List.ext_getElem? fun i => ?_
  rw [override, List.getElem?_mapIdx, List.getElem?_replicate]
  rcases Nat.lt_trichotomy i n with hlt | rfl | hlt
  · rw [if_pos (by omega), List.getElem?_append_left (by rwa [List.length_replicate]),
      List.getElem?_replicate, if_pos hlt, Option.map_some, if_pos (by omega)]
  · rw [if_pos (Nat.lt_succ_self _), Option.map_some, if_neg (by omega), if_pos (by omega),
      List.getElem?_append_right (by rw [List.length_replicate])]
    simp only [List.length_replicate, Nat.sub_self, List.getElem?_cons_zero]
  · rw [if_neg (by omega), Option.map_none, List.getElem?_eq_none]
    rw [List.length_append, List.length_replicate, List.length_singleton]
    omega

/-- What the halo function makes of that assignment: all loops but the last in partition 0,
which keeps a copy of the first as a halo row, and the last loop in partition 1. -/
theorem loopsHalo_replicate (n : ℕ) : loopsHalo (List.replicate n 0 ++ [1]) =
    [⟨rowsFrom 0 n, rowsFrom 0 1⟩, ⟨rowsFrom n 1, lastLoops⟩] := by
  have h₀ : (List.replicate n 0 ++ [1]).count 0 = n := by
    rw [List.count_append, List.count_replicate_self]
    rfl
  have h₁ : (List.replicate n 0 ++ [1]).count 1 = 1 := by
    rw [List.count_append, List.count_replicate]
    rfl
  rw [loopsHalo, h₀, h₁]

/-- The two partitions keep what `partition_graph_with_halo` promises. -/
theorem promises_loops (n : ℕ) : Promises (loops n) (loopsHalo (List.replicate n 0 ++ [1])) := by
  rw [loopsHalo_replicate]
  refine ⟨promised_rows .rfl .rfl (map_id_rowsFrom 0 n) (map_id_rowsFrom n 1) (fun _ _ => rfl)
      fun _ _ feat hfeat => ?_,
    promised_rows .rfl lastLoops_perm rfl npSort_lastLoops (fun _ _ => rfl)
      fun _ _ feat hfeat => ?_⟩
  · cases List.mem_singleton.1 hfeat
    exact List.length_range
  · cases List.mem_singleton.1 hfeat
    rfl

/-- The only type of nodes and of edges has the number 0. -/
theorem numbered_loops (n : ℕ) : Numbered (loops n).nodes ∧ Numbered (loops n).edges := by
  refine ⟨fun type htype => ?_, fun type htype => ?_⟩
  · rw [List.eq_of_mem_replicate htype]
    exact Nat.one_pos
  · rw [List.eq_of_mem_replicate (n := 3) htype]
    exact Nat.one_pos

/-- A partition that gets a loop is not empty. -/
theorem rowsFrom_ne_nil (a : ℕ) {n : ℕ} (hn : 0 < n) : rowsFrom a n ≠ [] := by
  rwa [← List.length_pos_iff, length_rowsFrom]

/-- Both partitions have rows of every type, so no bound is missing. -/
theorem full_loops {n : ℕ} (hn : 0 < n) :
    ∀ part ∈ loopsHalo (List.replicate n 0 ++ [1]), part.Full (loops n) := by
  rw [loopsHalo_replicate]
  intro part hpart
  rcases List.mem_cons.1 hpart with rfl | hpart
  · exact ⟨fun i _ => (owned_rowsFrom _ i 0 n).symm ▸ rowsFrom_ne_nil 0 hn,
      fun i _ => (owned_rowsFrom _ i 0 1).symm ▸ rowsFrom_ne_nil 0 Nat.one_pos⟩
  · cases List.mem_singleton.1 hpart
    exact ⟨fun i _ => (owned_rowsFrom _ i n 1).symm ▸ rowsFrom_ne_nil n Nat.one_pos,
      fun i _ => (owned_of_perm _ i lastLoops_perm).symm ▸ List.cons_ne_nil _ _⟩

/-- With all conditions met, the call returns. -/
theorem exists_saved_loops {n : ℕ} (hn : n = 98308) : ∃ saved,
    partitionGraph metisCall loopsHalo (loops n) 2 (List.replicate (n + 1) 0) = .ok saved := by
  refine exists_saved ?_ (numbered_loops n).1 (numbered_loops n).2 valid_metisCall ?_ ?_ ?_
  · rw [override_replicate hn]
    exact promises_loops n
  · rw [override_replicate hn]
    exact le_refl 2
  · rw [override_replicate hn]
    exact full_loops (by omega)
  · intro hhom
    cases hhom

/-- The hypotheses of `returns_iff` are satisfiable: a graph of loops, for which the
condition holds and the call returns. -/
theorem returns_iff_loops : ∃ saved,
    partitionGraph metisCall loopsHalo (loops 98308) 2 (List.replicate 98309 0) = .ok saved := by
  have hsplit := override_replicate rfl
  obtain ⟨hn, he⟩ := numbered_loops 98308
  refine (returns_iff (g := loops 98308) ?_ (by decide) hn he).2 ⟨valid_metisCall, ?_, ?_, ?_⟩
  · rw [hsplit]
    exact promises_loops 98308
  · rw [hsplit]
    exact le_refl 2
  · rw [hsplit]
    exact full_loops (by decide)
  · intro hhom
    cases hhom

/-- Every row of a partition of this graph is of a node that the assignment puts there. -/
theorem assigned_loops {n p : ℕ} {part : Part}
    (h : (loopsHalo (List.replicate n 0 ++ [1]))[p]? = some part) {row : Row}
    (hrow : row ∈ part.nodes) : (List.replicate n 0 ++ [1])[row.orig]? = some p := by
  rw [loopsHalo_replicate] at h
  rcases p with _ | _ | p
  · cases h
    obtain ⟨j, hj, rfl⟩ := List.mem_map.1 hrow
    rw [List.mem_range'_1, Nat.zero_add] at hj
    rw [List.getElem?_append_left (by rw [List.length_replicate]; exact hj.2),
      List.getElem?_replicate, if_pos hj.2]
  · cases h
    obtain ⟨j, hj, rfl⟩ := List.mem_map.1 hrow
    obtain rfl : j = n := by
      rw [List.mem_range'_1] at hj
      omega
    rw [List.getElem?_append_right (by rw [List.length_replicate])]
    simp only [List.length_replicate, Nat.sub_self, List.getElem?_cons_zero]
  · cases h

/-- The hypotheses of `assigned_of_partitionGraph` are satisfiable: in this graph, the
override assigns one node to partition 1. -/
theorem assigned_of_partitionGraph_loops :
    ∃ v : ℕ, (override (List.replicate 98309 0))[v]? = some 1 := by
  have hsplit := override_replicate rfl
  obtain ⟨saved, hok⟩ := exists_saved_loops rfl
  obtain ⟨hall, -⟩ := assigned_of_partitionGraph (by rw [hsplit]; exact promises_loops 98308)
    (fun p part hp row hrow _ => by
      rw [hsplit] at hp ⊢
      exact assigned_loops hp hrow) hok
  obtain ⟨v, hv, -⟩ := hall 1 (by decide) 0 (by decide)
  exact ⟨v, hv⟩

end Store
end BearRpc
