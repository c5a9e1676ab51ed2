/-
# Messages between the partitions

`countMsg` (`src/partition/graphCheck.cpp`, lines 91 to 108).

A training node needs the nodes of its sample in its own partition, the first one of its
list.  The first time that a partition needs a node that it does not have, the message
is counted and the partition is added to the list of the node.  A list grows at its end
only, so the first partitions stay, and what a training node needs does not depend on the
entries before it (`foldlM_serve_eq`): the count is that of the pairs of a node and a
partition without it, in whatever order the hash map is gone through (`countMsg_exact`).
-/

import BearRpc.Partition.Blocks
import BearRpc.Partition.NodeMap
import BearRpc.Theory.FirstSight
import Mathlib.Data.Finset.Prod

namespace BearRpc

open Theory

namespace Partition

/-- `MsgCount`, and `node_partition_map`, which the loop changes. -/
structure Messages where
  msgCount : ℕ
  node_partition_map : NodeMap

/-- The body of the inner loop -/
def Messages.cache (nodePartitionId : ℤ) (s : Messages) (sampleNode : ℤ) :
    Except Fault Messages :=
  let partIds := s.node_partition_map.get sampleNode
  if nodePartitionId ∈ partIds then .ok s
  else if s.msgCount + 1 < 2 ^ 31 then
    .ok ⟨s.msgCount + 1, s.node_partition_map.push sampleNode nodePartitionId⟩
  else .error .overflow

/-- The body of the outer loop: an access to the first element of an empty list is a
fault. -/
def Messages.serve (s : Messages) (sampleList : Σ _ : ℤ, List ℤ) : Except Fault Messages :=
  match (s.node_partition_map.get sampleList.1)[0]? with
  | none => .error .outOfRange
  | some nodePartitionId => sampleList.2.foldlM (Messages.cache nodePartitionId) s

/-- `countMsg(sample_list_with_Id, node_partition_map)`, in the order of the entries -/
def countMsg (sample_list_with_Id node_partition_map : NodeMap) : Except Fault Messages :=
  sample_list_with_Id.entries.foldlM Messages.serve ⟨0, node_partition_map⟩

/-- Every node that occurs in the samples has a partition. -/
def Partitioned (sample_list_with_Id node_partition_map : NodeMap) : Prop :=
  ∀ u l, sample_list_with_Id.lookup u = some l →
    node_partition_map.get u ≠ [] ∧ ∀ v ∈ l, node_partition_map.get v ≠ []

/-- The partition of a training node. -/
def home (m : NodeMap) (u : ℤ) : ℤ := (m.get u).headI

/-- What the training nodes need: a node, and the partition that needs it. -/
def needs (m : NodeMap) (entries : List (Σ _ : ℤ, List ℤ)) : List (ℤ × ℤ) :=
  entries.flatMap fun e => e.2.map fun v => (v, home m e.1)

/-- The messages of the samples: a node, and a partition that needs it and does not have it. -/
def messages (m table : NodeMap) : Finset (ℤ × ℤ) :=
  (needs m table.entries).toFinset.filter fun x => x.2 ∉ m.get x.1

/-- The body of the inner loop with an unbounded counter, for a node and a partition that
needs it. -/
def Messages.fetch (s : Messages) (x : ℤ × ℤ) : Messages :=
  if x.2 ∈ s.node_partition_map.get x.1 then s
  else ⟨s.msgCount + 1, s.node_partition_map.push x.1 x.2⟩

/-- `MsgCount` is an `int`. -/
def Messages.Fits (s : Messages) : Prop := s.msgCount < 2 ^ 31

instance : DecidablePred Messages.Fits := fun s => inferInstanceAs (Decidable (s.msgCount < 2 ^ 31))

variable {m m' sample sample' : NodeMap} {s : Messages} {u v p : ℤ} {x : ℤ × ℤ}
  {es : List (Σ _ : ℤ, List ℤ)}

/-! ### The inner loop -/

/-- **The lists learn what is needed, and `MsgCount` counts it**: a partition that has
fetched a node is in its list from then on, so the same need is counted once. -/
theorem firstSight_fetch :
    FirstSight (fun (s : Messages) (x : ℤ × ℤ) => x.2 ∈ s.node_partition_map.get x.1)
      Messages.msgCount Messages.fetch where
  knows_see := fun s x y => by
    rw [Messages.fetch]
    split
    · next hin =>
      refine ⟨.inl, fun h => h.elim id ?_⟩
      rintro rfl
      exact hin
    · change y.2 ∈ (s.node_partition_map.push x.1 x.2).get y.1 ↔ _
      rw [get_push, Prod.ext_iff]
      split
      · next hkey =>
        rw [List.mem_append, List.mem_singleton, hkey]
        exact or_congr_right (by rw [eq_self, true_and])
      · next hkey => exact (or_iff_left fun h => hkey h.1).symm
  count_known := fun s x hx => by rw [Messages.fetch, if_pos hx]
  count_new := fun s x hx => by rw [Messages.fetch, if_neg hx]

/-- **The inner loop is a loop with a test**: the counter only grows, so it overflows in
some turn exactly if the messages do not fit in an `int`. -/
theorem checked_cache : Checked Messages.Fits Fault.overflow Messages.fetch
    fun s (x : ℤ × ℤ) => s.cache x.2 x.1 where
  eq_ite := fun s x hs => by
    rw [Messages.cache, Messages.fetch]
    split
    · rfl
    · rfl
  fits_of_step := fun s x hx => by
    rw [Messages.fetch] at hx
    split at hx
    · exact hx
    · exact Nat.lt_of_succ_lt hx

/-- **The first partition stays**, where there is one: what is fetched is appended, and
`countMsg` takes the first element for the home of a node. -/
theorem head?_fetch (h : s.node_partition_map.get v ≠ []) :
    ((s.fetch x).node_partition_map.get v).head? = (s.node_partition_map.get v).head? := by
  rw [Messages.fetch]
  split
  · rfl
  · change ((s.node_partition_map.push x.1 x.2).get v).head? = _
    rw [get_push]
    split
    · next hkey => rw [List.head?_append_of_ne_nil _ (hkey ▸ h), hkey]
    · rfl

/-- A list with the first element of one that is not empty. -/
theorem ne_nil_of_head?_eq {l l' : List ℤ} (h : l'.head? = l.head?) (hl : l ≠ []) : l' ≠ [] := by
  rintro rfl
  exact hl (List.head?_eq_none_iff.1 h.symm)

/-- Fetching messages never changes the home of a node, as it only appends to the lists. -/
theorem head?_foldl_fetch {xs : List (ℤ × ℤ)} (h : s.node_partition_map.get v ≠ []) :
    ((xs.foldl Messages.fetch s).node_partition_map.get v).head? =
      (s.node_partition_map.get v).head? := by
  refine List.foldlRecOn (motive := fun r : Messages => (r.node_partition_map.get v).head? =
    (s.node_partition_map.get v).head?) xs Messages.fetch rfl fun r hr x _ => ?_
  exact (head?_fetch (ne_nil_of_head?_eq hr h)).trans hr

/-! ### The call -/

/-- The home of a node is the first entry of its list. -/
theorem getElem?_zero_eq_home (h : m.get u ≠ []) : (m.get u)[0]? = some (home m u) := by
  obtain ⟨p, ps, hps⟩ := List.exists_cons_of_ne_nil h
  rw [home, hps]
  rfl

/-- **What a training node needs does not depend on the entries before it**: they only
append to the lists, and its partition is the first element of its own. -/
theorem foldlM_serve_eq (hfirst : ∀ v, m.get v ≠ [] →
      (s.node_partition_map.get v).head? = (m.get v).head?)
    (hes : ∀ e ∈ es, m.get e.1 ≠ []) (hs : s.Fits) :
    es.foldlM Messages.serve s = (needs m es).foldlM (fun s x => s.cache x.2 x.1) s := by
  induction es generalizing s with
  | nil => rfl
  | cons e es ih =>
    have hne : m.get e.1 ≠ [] := hes e (List.mem_cons_self ..)
    have hhome : (s.node_partition_map.get e.1)[0]? = some (home m e.1) := by
      rw [← getElem?_zero_eq_home hne, ← List.head?_eq_getElem?, ← List.head?_eq_getElem?]
      exact hfirst _ hne
    have hserve : s.serve e =
        (e.2.map fun v => (v, home m e.1)).foldlM (fun s x => s.cache x.2 x.1) s := by
      rw [Messages.serve, hhome, List.foldlM_map]
    have hneeds : needs m (e :: es) = (e.2.map fun v => (v, home m e.1)) ++ needs m es := rfl
    rw [List.foldlM_cons, hserve, hneeds, List.foldlM_append, checked_cache.foldlM_eq hs]
    split
    · next hfits =>
      refine ih (fun v hv => ?_) (fun e' he' => hes e' (List.mem_cons_of_mem _ he')) hfits
      rw [← hfirst v hv]
      exact head?_foldl_fetch (ne_nil_of_head?_eq (hfirst v hv) hv)
    · rfl

/-- **`countMsg` in one loop**: it fails if and only if the messages do not fit in an `int`,
whatever the iteration order of the hash map, and otherwise counts each message once. -/
theorem countMsg_eq {table table' : NodeMap} (hperm : table'.entries.Perm table.entries)
    (h : ∀ e ∈ table.entries, m.get e.1 ≠ []) :
    ∃ r, countMsg table' m =
        (if (messages m table).card < 2 ^ 31 then .ok r else .error .overflow) ∧
      r.msgCount = (messages m table).card ∧
      (∀ v p, p ∈ r.node_partition_map.get v ↔
        p ∈ m.get v ∨ (v, p) ∈ needs m table.entries) ∧
      ∀ v, m.get v ≠ [] → (r.node_partition_map.get v).head? = (m.get v).head? := by
  have hneeds : (needs m table'.entries).Perm (needs m table.entries) := hperm.flatMap_right _
  have hcount : ((needs m table'.entries).foldl Messages.fetch ⟨0, m⟩).msgCount =
      (messages m table).card := by
    rw [firstSight_fetch.count_perm hneeds, firstSight_fetch.count_foldl]
    exact Nat.zero_add _
  have hzero : Messages.Fits ⟨0, m⟩ := Nat.two_pow_pos 31
  refine ⟨(needs m table'.entries).foldl Messages.fetch ⟨0, m⟩, ?_, hcount, fun v p => ?_,
    fun v hv => head?_foldl_fetch (s := ⟨0, m⟩) hv⟩
  · rw [countMsg, foldlM_serve_eq (fun _ _ => rfl) (fun e he => h e (hperm.mem_iff.1 he)) hzero,
      checked_cache.foldlM_eq hzero]
    simp only [Messages.Fits, hcount]
  · exact (firstSight_fetch.knows_foldl (y := (v, p))).trans (or_congr_right hneeds.mem_iff)

/-- What a training node needs, by the entries of the table. -/
theorem mem_needs (h : Partitioned sample m) : (v, p) ∈ needs m sample.entries ↔
    ∃ u l, sample.lookup u = some l ∧ v ∈ l ∧ (m.get u).head? = some p := by
  rw [needs, List.mem_flatMap]
  constructor
  · rintro ⟨⟨u, l⟩, he, hv⟩
    obtain ⟨w, hw, hwv⟩ := List.mem_map.1 hv
    cases hwv
    have hlookup : sample.lookup u = some l := AList.mem_lookup_iff.2 he
    refine ⟨u, l, hlookup, hw, ?_⟩
    rw [List.head?_eq_getElem?]
    exact getElem?_zero_eq_home (h u l hlookup).1
  · rintro ⟨u, l, hlookup, hv, hhead⟩
    refine ⟨⟨u, l⟩, AList.mem_lookup_iff.1 hlookup, List.mem_map.2 ⟨v, hv, ?_⟩⟩
    rw [List.head?_eq_getElem?, getElem?_zero_eq_home (h u l hlookup).1] at hhead
    rw [Option.some.inj hhead]

/-- **A message** is a node and a partition that needs and does not have it: some training
node of the partition has the node in its sample. -/
theorem mem_messages (h : Partitioned sample m) : (v, p) ∈ messages m sample ↔
    p ∉ m.get v ∧ ∃ u l, sample.lookup u = some l ∧ v ∈ l ∧ (m.get u).head? = some p := by
  rw [messages, Finset.mem_filter, List.mem_toFinset, mem_needs h, and_comm]

/-- The call, for tables whose nodes have partitions. -/
theorem countMsg_cases (h : Partitioned sample m) (hperm : sample'.entries.Perm sample.entries) :
    ∃ r, countMsg sample' m =
        (if (messages m sample).card < 2 ^ 31 then .ok r else .error .overflow) ∧
      r.msgCount = (messages m sample).card ∧
      (∀ v p, p ∈ r.node_partition_map.get v ↔ p ∈ m.get v ∨ (v, p) ∈ messages m sample) ∧
      ∀ v, (r.node_partition_map.get v).head? = (m.get v).head? := by
  obtain ⟨r, hcall, hcount, hknows, hhead⟩ := countMsg_eq hperm fun e he =>
    (h e.1 e.2 (AList.mem_lookup_iff.2 he)).1
  refine ⟨r, hcall, hcount, fun v p => ?_, fun v => ?_⟩
  · rw [hknows, messages, Finset.mem_filter, List.mem_toFinset]
    tauto
  · by_cases hv : m.get v = []
    · -- a node without a partition does not occur
      have hnil : r.node_partition_map.get v = [] := by
        refine List.eq_nil_iff_forall_not_mem.2 fun p hp => ?_
        rcases (hknows v p).1 hp with hp | hp
        · rw [hv] at hp
          cases hp
        · obtain ⟨u, l, hlookup, hvl, -⟩ := (mem_needs h).1 hp
          exact (h u l hlookup).2 v hvl hv
      rw [hnil, hv]
    · exact hhead v hv

/-- **The count is that of the pairs of a node and a partition that needs and does not have
it**, in whatever order the entries are gone through, if and only if these are less than
2^31. -/
theorem countMsg_exact_iff (h : Partitioned sample m) :
    ∃ pairs : Finset (ℤ × ℤ),
      (∀ v p, (v, p) ∈ pairs ↔ p ∉ m.get v ∧
        ∃ u l, sample.lookup u = some l ∧ v ∈ l ∧ (m.get u).head? = some p) ∧
      ((∀ sample' : NodeMap, sample'.entries.Perm sample.entries →
        ∃ r, countMsg sample' m = .ok r ∧ r.msgCount = pairs.card ∧
          (∀ v p, p ∈ r.node_partition_map.get v ↔ p ∈ m.get v ∨ (v, p) ∈ pairs) ∧
          ∀ v, (r.node_partition_map.get v).head? = (m.get v).head?) ↔
        pairs.card < 2 ^ 31) := by
  refine ⟨messages m sample, fun v p => mem_messages h, fun hall => ?_, fun hlt sample' hperm => ?_⟩
  · obtain ⟨r, hok, -⟩ := hall sample (.refl _)
    obtain ⟨r', hcall, -⟩ := countMsg_cases h (.refl sample.entries)
    by_contra hnot
    rw [if_neg hnot, hok] at hcall
    cases hcall
  · obtain ⟨r, hcall, hr⟩ := countMsg_cases h hperm
    rw [if_pos hlt] at hcall
    exact ⟨r, hcall, hr⟩

/-- The training node 0, with the node 1 in its sample twice. -/
def sampleTwice : NodeMap := (NodeMap.push ∅ 0 1).push 0 1

/-- The nodes 0 and 1, in the partitions 0 and 1. -/
def twoPartitions : NodeMap := (NodeMap.push ∅ 0 0).push 1 1

/-- Every node of this sample has a home. -/
theorem partitioned_sampleTwice : Partitioned sampleTwice twoPartitions := by
  intro u l hlookup
  have hentries : sampleTwice.entries = [⟨0, [1, 1]⟩] := rfl
  have he := AList.mem_lookup_iff.1 hlookup
  rw [hentries] at he
  cases List.mem_singleton.1 he
  decide

example : (countMsg sampleTwice twoPartitions).map Messages.msgCount = .ok 1 := rfl

/-- The hypothesis of `countMsg_exact_iff` is satisfiable. -/
theorem countMsg_exact_iff_sampleTwice : ∃ pairs : Finset (ℤ × ℤ),
    (∀ v p, (v, p) ∈ pairs ↔ p ∉ twoPartitions.get v ∧
      ∃ u l, sampleTwice.lookup u = some l ∧ v ∈ l ∧ (twoPartitions.get u).head? = some p) ∧
    ((∀ sample' : NodeMap, sample'.entries.Perm sampleTwice.entries →
      ∃ r, countMsg sample' twoPartitions = .ok r ∧ r.msgCount = pairs.card ∧
        (∀ v p, p ∈ r.node_partition_map.get v ↔ p ∈ twoPartitions.get v ∨ (v, p) ∈ pairs) ∧
        ∀ v, (r.node_partition_map.get v).head? = (twoPartitions.get v).head?) ↔
      pairs.card < 2 ^ 31) :=
  countMsg_exact_iff partitioned_sampleTwice

/-! ### More messages than an `int` can count -/

/-- The nodes from 2 on, `n` of them. -/
def nodesFromTwo (n : ℕ) : List ℤ := (List.range n).map fun i : ℕ => (i : ℤ) + 2

/-- Two training nodes with the same sample. -/
def sampleMany (n : ℕ) : NodeMap :=
  ((∅ : NodeMap).insert 0 (nodesFromTwo n)).insert 1 (nodesFromTwo n)

/-- The training nodes in the partitions 0 and 1, all others in the partition 2. -/
def threePartitions (n : ℕ) : NodeMap :=
  (nodesFromTwo n).foldl (fun m v => m.insert v [2])
    (((∅ : NodeMap).insert 0 ([0] : List ℤ)).insert 1 ([1] : List ℤ))

/-- Giving all nodes of a list the same partitions changes the entries of these nodes and of
no others. -/
theorem get_foldl_insert {l ps : List ℤ} :
    Table.get (l.foldl (fun m v => m.insert v ps) m) v = if v ∈ l then ps else m.get v := by
  induction l generalizing m with
  | nil => exact (if_neg List.not_mem_nil).symm
  | cons w l ih =>
    rw [List.foldl_cons, ih, Table.get_insert]
    by_cases hl : v ∈ l
    · rw [if_pos hl, if_pos (List.mem_cons_of_mem w hl)]
    · rw [if_neg hl]
      simp only [List.mem_cons, hl, or_false]

/-- The homes in this example: node 0 in partition 0, node 1 in partition 1, all others in
partition 2. -/
theorem get_threePartitions (n : ℕ) (v : ℤ) : (threePartitions n).get v =
    if v ∈ nodesFromTwo n then [2] else if v = 1 then [1] else if v = 0 then [0] else [] := by
  rw [threePartitions, get_foldl_insert, Table.get_insert, Table.get_insert]
  rfl

/-- The nodes from 2 on, as many as asked for. -/
theorem mem_nodesFromTwo {n : ℕ} : v ∈ nodesFromTwo n ↔ 2 ≤ v ∧ v < n + 2 := by
  rw [nodesFromTwo, List.mem_map]
  constructor
  · rintro ⟨i, hi, rfl⟩
    have := List.mem_range.1 hi
    omega
  · rintro ⟨hlow, hhigh⟩
    exact ⟨(v - 2).toNat, List.mem_range.2 (by omega), by omega⟩

/-- The two nodes that are sampled have all the others as neighbours. -/
theorem lookup_sampleMany {n : ℕ} {l : List ℤ} :
    (sampleMany n).lookup u = some l ↔ (u = 0 ∨ u = 1) ∧ l = nodesFromTwo n := by
  by_cases h1 : u = 1
  · subst h1
    rw [sampleMany, AList.lookup_insert, Option.some.injEq, eq_comm]
    simp
  · rw [sampleMany, AList.lookup_insert_ne h1]
    by_cases h0 : u = 0
    · subst h0
      rw [AList.lookup_insert, Option.some.injEq, eq_comm]
      simp
    · rw [AList.lookup_insert_ne h0]
      simp [h0, h1]

/-- Every node of this sample has a home. -/
theorem partitioned_sampleMany (n : ℕ) : Partitioned (sampleMany n) (threePartitions n) := by
  intro u l hlookup
  obtain ⟨hu, rfl⟩ := lookup_sampleMany.1 hlookup
  refine ⟨?_, fun v hv => ?_⟩
  · rw [get_threePartitions]
    rcases hu with rfl | rfl <;> split <;> simp
  · rw [get_threePartitions, if_pos hv]
    exact List.cons_ne_nil _ _

/-- **Two messages for each node** that both training nodes have in their samples: they are
in two partitions, and the node is in a third one. -/
theorem le_card_messages_sampleMany (n : ℕ) :
    2 * n ≤ (messages (threePartitions n) (sampleMany n)).card := by
  have hinj : Function.Injective fun x : ℕ × ℕ => ((x.1 : ℤ) + 2, (x.2 : ℤ)) := by
    rintro ⟨i, p⟩ ⟨j, q⟩ h
    simp only [Prod.mk.injEq] at h ⊢
    omega
  have hsub : (Finset.range n ×ˢ Finset.range 2).image
      (fun x : ℕ × ℕ => ((x.1 : ℤ) + 2, (x.2 : ℤ))) ⊆
        messages (threePartitions n) (sampleMany n) := by
    intro x hx
    obtain ⟨⟨i, p⟩, hip, rfl⟩ := Finset.mem_image.1 hx
    obtain ⟨hi, hp⟩ := Finset.mem_product.1 hip
    have hi := Finset.mem_range.1 hi
    have hp := Finset.mem_range.1 hp
    have hmem : (i : ℤ) + 2 ∈ nodesFromTwo n := mem_nodesFromTwo.2 (by omega)
    have htraining : ¬ (p : ℤ) ∈ nodesFromTwo n := fun h => by
      have := (mem_nodesFromTwo.1 h).1
      omega
    refine (mem_messages (partitioned_sampleMany n)).2
      ⟨?_, p, _, lookup_sampleMany.2 ⟨by omega, rfl⟩, hmem, ?_⟩
    · rw [get_threePartitions, if_pos hmem, List.mem_singleton]
      omega
    · rw [get_threePartitions, if_neg htraining]
      obtain rfl | rfl : p = 0 ∨ p = 1 := by omega
      · rfl
      · rfl
  have hcard := Finset.card_le_card hsub
  rw [Finset.card_image_of_injective _ hinj, Finset.card_product, Finset.card_range,
    Finset.card_range] at hcard
  omega

/-- **Message number 2^31 overflows `MsgCount`**: with samples of so many nodes the call
does not return, and so counts nothing exactly. -/
theorem not_countMsg_exact_sampleMany :
    ¬ ∀ sample m : NodeMap, Partitioned sample m → ∃ pairs : Finset (ℤ × ℤ),
      (∀ v p, (v, p) ∈ pairs ↔ p ∉ m.get v ∧
        ∃ u l, sample.lookup u = some l ∧ v ∈ l ∧ (m.get u).head? = some p) ∧
      ∀ sample' : NodeMap, sample'.entries.Perm sample.entries →
        ∃ r, countMsg sample' m = .ok r ∧ r.msgCount = pairs.card ∧
          (∀ v p, p ∈ r.node_partition_map.get v ↔ p ∈ m.get v ∨ (v, p) ∈ pairs) ∧
          ∀ v, (r.node_partition_map.get v).head? = (m.get v).head? := by
  intro h
  obtain ⟨pairs, -, hall⟩ := h _ _ (partitioned_sampleMany (2 ^ 30))
  obtain ⟨r, hok, -⟩ := hall _ (.refl _)
  obtain ⟨r', hcall, -⟩ := countMsg_cases (partitioned_sampleMany (2 ^ 30)) (.refl _)
  have hle : ¬ (messages (threePartitions (2 ^ 30)) (sampleMany (2 ^ 30))).card < 2 ^ 31 :=
    Nat.not_lt.2 (le_card_messages_sampleMany (2 ^ 30))
  rw [if_neg hle, hok] at hcall
  cases hcall

end Partition
end BearRpc
