/-
# What the blocks claim

Every step of `NodeBlockConstruct` opens the block of a seed, or lets one block claim
its next layer (`Grown`).  Whatever the order of these steps, a node that is not a
seed is in at most one place, `viewedTable` says in whose block, and every node
behind the first layer has a neighbour in the layer before (`Placed`).

A seed is in the first layer of its own block in any case.  So all nodes are in one
place if and only if no two of the seeds opened are adjacent (`Placed.once`).
-/

import BearRpc.Partition.Blocks
import Mathlib.Data.List.Flatten
import Mathlib.Data.List.Perm.Basic

namespace BearRpc
namespace Partition

/-- An undirected graph over the nodes `0 … n - 1`, with self-loops and multiple
edges. -/
structure Undirected (n : ℕ) (nodeMap : ℕ → List ℕ) : Prop where
  symm : ∀ u v, v ∈ nodeMap u → u ∈ nodeMap v
  inRange : ∀ u, ∀ v ∈ nodeMap u, v < n

/-- The neighbours have entries. -/
theorem Undirected.inRange_of_length {n : ℕ} {nodeMap : ℕ → List ℕ} (hg : Undirected n nodeMap)
    {t : List ℤ} (ht : t.length = n) (u : ℕ) : ∀ v ∈ nodeMap u, v < t.length :=
  fun v hv => ht ▸ hg.inRange u v hv

/-- No two of the seeds are adjacent. -/
def Apart (nodeMap : ℕ → List ℕ) (seeds : List ℕ) : Prop :=
  ∀ s ∈ seeds, ∀ s' ∈ seeds, s ≠ s' → s' ∉ nodeMap s

/-- The nodes of the blocks, place by place. -/
def occurrences (blocks : List Block) : List ℕ := blocks.flatMap fun b => b.nodeList.flatten

/-- The layer that is expanded next. -/
def Block.lastLayer (b : Block) : List ℕ := b.nodeList.getLast?.getD []

/-- The block of a seed, before it claims anything. -/
def seedOnly (s : ℕ) : Block := { srcNodeID := s, nodeList := [[s]], nodeViewed := {s} }

/-- The block `b` has claimed the nodes `new` as its next layer. -/
structure Grown (nodeMap : ℕ → List ℕ) (t : List ℤ) (b : Block) (t' : List ℤ) (b' : Block)
    (new : List ℕ) : Prop where
  nodup : new.Nodup
  mem : ∀ v, v ∈ new ↔ v ∈ b.lastLayer.flatMap nodeMap ∧ t[v]? = some (-1)
  table : ∀ v, t'[v]? = if v ∈ new then some (b.srcNodeID : ℤ) else t[v]?
  length : t'.length = t.length
  count : t'.count (-1) + new.length = t.count (-1)
  srcNodeID : b'.srcNodeID = b.srcNodeID
  nodeList : b'.nodeList = if new = [] then b.nodeList else b.nodeList ++ [new]

variable {nodeMap : ℕ → List ℕ} {n s v : ℕ} {seeds opened : List ℕ} {t t' : List ℤ}
  {b b' : Block} {bs l r : List Block} {new : List ℕ}

/-- What the loop over the neighbours does to a block. -/
theorem grown_of_scanned {sc : Scan} (h : Scanned (b.lastLayer.flatMap nodeMap) ⟨t, b, []⟩ sc new) :
    sc.tmp = new ∧ Grown nodeMap t b sc.viewedTable sc.grown new := by
  have htmp : sc.tmp = new := h.tmp
  refine ⟨htmp, h.nodup, h.mem, h.table, h.length, h.count, ?_, ?_⟩
  · rw [Scan.grown]
    split
    · exact h.srcNodeID
    · exact h.srcNodeID
  · rw [Scan.grown, htmp]
    split
    · exact h.nodeList
    · exact congrArg (· ++ [new]) h.nodeList

/-- The last layer is what `back()` gives, where there is one. -/
theorem getLast?_eq_lastLayer (hb : b.nodeList ≠ []) :
    b.nodeList.getLast? = some b.lastLayer := by
  rw [Block.lastLayer, List.getLast?_eq_some_getLast hb]
  rfl

/-- **A block expands its last layer**, if the neighbours have entries: behind the loop, the
block has grown by those of them that nobody had claimed. -/
theorem exists_expand (hrange : ∀ u ∈ b.lastLayer.flatMap nodeMap, u < t.length)
    (hb : b.nodeList ≠ []) : ∃ sc new, expand nodeMap t b = .ok sc ∧ sc.tmp = new ∧
      Grown nodeMap t b sc.viewedTable sc.grown new := by
  obtain ⟨sc, new, hfold, hsc⟩ := exists_scanned
    (decide (b.nodeList.length ≤ b.holoLayer)) (s := ⟨t, b, []⟩) hrange
  refine ⟨sc, new, ?_, grown_of_scanned hsc⟩
  rw [expand, getLast?_eq_lastLayer hb]
  exact hfold

/-- A neighbour of the last layer without an entry. -/
theorem expand_error (hb : b.nodeList ≠ [])
    (h : ∃ u ∈ b.lastLayer.flatMap nodeMap, t.length ≤ u) :
    expand nodeMap t b = .error .outOfRange := by
  rw [expand, getLast?_eq_lastLayer hb]
  exact scan_error h

/-- **An expansion that returns** was inside of `viewedTable`, and has grown the block by
what it claimed. -/
theorem grown_of_expand {sc : Scan} (h : expand nodeMap t b = .ok sc) :
    (∀ u ∈ b.lastLayer.flatMap nodeMap, u < t.length) ∧
      Grown nodeMap t b sc.viewedTable sc.grown sc.tmp := by
  have hb : b.nodeList ≠ [] := by
    intro hnil
    rw [expand, hnil] at h
    cases h
  by_cases hrange : ∀ u ∈ b.lastLayer.flatMap nodeMap, u < t.length
  · obtain ⟨sc', new, hexpand, rfl, hgrown⟩ := exists_expand hrange hb
    cases hexpand.symm.trans h
    exact ⟨hrange, hgrown⟩
  · push Not at hrange
    rw [expand_error hb hrange] at h
    cases h

/-- **The block of a seed takes its first turn** when it has been opened: the code writes
this turn out a second time, for a block with the seed alone. -/
theorem seedBlock_eq (hs : s < t.length) :
    seedBlock nodeMap s t = expand nodeMap (t.set s s) (seedOnly s) := by
  have hlayer : [s].flatMap nodeMap = nodeMap s := List.append_nil _
  rw [seedBlock, if_pos hs, expand]
  change _ = ([s].flatMap nodeMap).foldlM _ _
  rw [hlayer]
  rfl

/-- A seed without an entry. -/
theorem seedBlock_error (hs : ¬ s < t.length) : seedBlock nodeMap s t = .error .outOfRange := by
  rw [seedBlock, if_neg hs]

/-- **A seed opens its block**, and claims its neighbours at once if they have entries and
nobody has claimed them. -/
theorem exists_seedBlock (hrange : ∀ u ∈ nodeMap s, u < t.length) (hs : s < t.length) :
    ∃ sc new, seedBlock nodeMap s t = .ok sc ∧
      Grown nodeMap (t.set s s) (seedOnly s) sc.viewedTable sc.grown new := by
  have hlast : (seedOnly s).lastLayer.flatMap nodeMap = nodeMap s := List.append_nil _
  have hlen : (t.set s (s : ℤ)).length = t.length := List.length_set
  rw [← hlen, ← hlast] at hrange
  obtain ⟨sc, new, hexpand, -, hgrown⟩ := exists_expand hrange (List.cons_ne_nil _ _)
  exact ⟨sc, new, (seedBlock_eq hs).trans hexpand, hgrown⟩

/-! ### Places -/

/-- The nodes that occur in two lists of blocks, one after the other, are those of the first
list followed by those of the second. -/
theorem occurrences_append : occurrences (l ++ r) = occurrences l ++ occurrences r :=
  List.flatMap_append ..

/-- A node occurs if it is in a layer of one of the blocks. -/
theorem mem_occurrences : v ∈ occurrences bs ↔ ∃ b ∈ bs, v ∈ b.nodeList.flatten :=
  List.mem_flatMap

/-- **A block that has grown** has its old nodes and behind them the new ones, as its last
layer if there are any. -/
theorem Grown.flatten (h : Grown nodeMap t b t' b' new) :
    b'.nodeList.flatten = b.nodeList.flatten ++ new := by
  rw [h.nodeList]
  split
  · next hnew => rw [hnew, List.append_nil]
  · rw [List.flatten_append, List.flatten_singleton]

/-- The new places are those of the new nodes. -/
theorem Grown.occurrences (h : Grown nodeMap t b t' b' new) :
    (occurrences (l ++ b' :: r)).Perm (new ++ occurrences (l ++ b :: r)) := by
  have hsplit : ∀ c : Block, Partition.occurrences (l ++ c :: r) =
      Partition.occurrences l ++ c.nodeList.flatten ++ Partition.occurrences r := by
    intro c
    rw [occurrences_append, List.append_assoc]
    rfl
  rw [hsplit, hsplit, h.flatten, ← List.append_assoc, ← List.append_assoc new]
  exact List.perm_append_comm.append_right _

/-- A layer of the grown block is one it had, or the new one. -/
theorem Grown.layer (h : Grown nodeMap t b t' b' new) {k : ℕ} {L : List ℕ}
    (hL : b'.nodeList[k]? = some L) :
    b.nodeList[k]? = some L ∨ new ≠ [] ∧ k = b.nodeList.length ∧ L = new := by
  rw [h.nodeList] at hL
  split at hL
  · exact .inl hL
  · next hnew =>
    rcases Nat.lt_trichotomy k b.nodeList.length with hk | hk | hk
    · rw [List.getElem?_append_left hk] at hL
      exact .inl hL
    · rw [hk, List.getElem?_concat_length] at hL
      exact .inr ⟨hnew, hk, (Option.some.inj hL).symm⟩
    · rw [List.getElem?_eq_none (by rw [List.length_append]; exact hk)] at hL
      cases hL

/-- The layers it had stay. -/
theorem Grown.layer_of (h : Grown nodeMap t b t' b' new) {k : ℕ} {L : List ℕ}
    (hL : b.nodeList[k]? = some L) : b'.nodeList[k]? = some L := by
  rw [h.nodeList]
  split
  · exact hL
  · rwa [List.getElem?_append_left (List.getElem?_eq_some_iff.1 hL).1]

/-- The last layer is the one with the last index. -/
theorem lastLayer_eq {k : ℕ} (h : b.nodeList.length = k + 1) :
    b.nodeList[k]? = some b.lastLayer := by
  have hne : b.nodeList ≠ [] := List.ne_nil_of_length_eq_add_one h
  rw [Block.lastLayer, List.getLast?_eq_some_getLast hne, Option.getD_some,
    List.getLast_eq_getElem hne, List.getElem?_eq_some_iff]
  exact ⟨by omega, by congr 1; omega⟩

/-- **What every step keeps**, with the seeds `opened` so far. -/
structure Placed (n : ℕ) (nodeMap : ℕ → List ℕ) (seeds opened : List ℕ) (t : List ℤ)
    (bs : List Block) : Prop where
  length : t.length = n
  inRange : ∀ v ∈ occurrences bs, v < n
  unviewed : ∀ v < n, t[v]? = some (-1) ↔ v ∉ occurrences bs
  /-- a node that is not a seed is in one place -/
  single : ((occurrences bs).filter (· ∉ seeds)).Nodup
  once : (occurrences bs).Nodup ↔ Apart nodeMap opened
  owner : ∀ b ∈ bs, ∀ v ∈ b.nodeList.flatten, v ∉ seeds → t[v]? = some (b.srcNodeID : ℤ)
  seeded : ∀ s ∈ opened, t[s]? = some (s : ℤ)
  src : bs.map (·.srcNodeID) = opened
  first : ∀ b ∈ bs, ∃ layers, b.nodeList = [b.srcNodeID] :: layers
  parent : ∀ b ∈ bs, ∀ k L v, b.nodeList[k + 1]? = some L → v ∈ L →
    ∃ L', b.nodeList[k]? = some L' ∧ ∃ u ∈ L', v ∈ nodeMap u

/-- The nodes claimed are those nobody had claimed. -/
theorem Placed.new_disjoint (h : Placed n nodeMap seeds opened t (l ++ b :: r))
    (hg : Undirected n nodeMap) (hgrown : Grown nodeMap t b t' b' new) :
    ∀ v ∈ new, v < n ∧ v ∉ occurrences (l ++ b :: r) := by
  intro v hv
  obtain ⟨hmem, hun⟩ := (hgrown.mem v).1 hv
  obtain ⟨u, -, hu⟩ := List.mem_flatMap.1 hmem
  have hlt := hg.inRange u v hu
  exact ⟨hlt, (h.unviewed v hlt).1 hun⟩

/-- Growing one block does not touch the entries of the nodes that are in blocks already. -/
theorem Placed.table_of_mem (h : Placed n nodeMap seeds opened t (l ++ b :: r))
    (hg : Undirected n nodeMap) (hgrown : Grown nodeMap t b t' b' new)
    (hv : v ∈ occurrences (l ++ b :: r)) : t'[v]? = t[v]? := by
  rw [hgrown.table, if_neg fun hnew => (h.new_disjoint hg hgrown v hnew).2 hv]

/-- **A block that claims its next layer** leaves all nodes in their places: the new ones
were in no block, and what the other blocks claim is not touched. -/
theorem Placed.grow (h : Placed n nodeMap seeds opened t (l ++ b :: r))
    (hg : Undirected n nodeMap) (hgrown : Grown nodeMap t b t' b' new) :
    Placed n nodeMap seeds opened t' (l ++ b' :: r) := by
  have hperm : (occurrences (l ++ b' :: r)).Perm (new ++ occurrences (l ++ b :: r)) :=
    hgrown.occurrences
  have hnew := h.new_disjoint hg hgrown
  have hmem : ∀ v, v ∈ occurrences (l ++ b' :: r) ↔ v ∈ new ∨ v ∈ occurrences (l ++ b :: r) :=
    fun v => hperm.mem_iff.trans List.mem_append
  -- the blocks behind the step: the grown one, and the others
  have hcases : ∀ {c}, c ∈ l ++ b' :: r → c = b' ∨ c ∈ l ++ b :: r := by
    intro c hc
    rcases List.mem_append.1 hc with hc | hc
    · exact .inr (List.mem_append_left _ hc)
    · rcases List.mem_cons.1 hc with hc | hc
      · exact .inl hc
      · exact .inr (List.mem_append_right _ (List.mem_cons_of_mem _ hc))
  have hb : b ∈ l ++ b :: r := List.mem_append_right _ (List.mem_cons_self ..)
  refine ⟨hgrown.length.trans h.length, fun v hv => ?_, fun v hv => ?_, ?_, ?_,
    fun c hc v hv hseed => ?_, fun s hs => ?_, ?_, fun c hc => ?_, fun c hc k L v hL hv => ?_⟩
  · rcases (hmem v).1 hv with hv | hv
    · exact (hnew v hv).1
    · exact h.inRange v hv
  · rw [hmem, hgrown.table v]
    by_cases hvn : v ∈ new
    · rw [if_pos hvn]
      refine ⟨fun hsrc => ?_, fun hnot => absurd (.inl hvn) hnot⟩
      have hneg := Option.some.inj hsrc
      omega
    · rw [if_neg hvn, h.unviewed v hv]
      exact ⟨fun hnot hor => hor.elim hvn hnot, fun hnot hocc => hnot (.inr hocc)⟩
  · have hperm' := hperm.filter (· ∉ seeds)
    rw [hperm'.nodup_iff, List.filter_append]
    refine List.nodup_append.2 ⟨hgrown.nodup.filter _, h.single, fun u hu w hw => ?_⟩
    rintro rfl
    exact (hnew u (List.mem_of_mem_filter hu)).2 (List.mem_of_mem_filter hw)
  · rw [hperm.nodup_iff, ← h.once]
    refine ⟨fun hnd => (List.nodup_append.1 hnd).2.1, fun hnd => ?_⟩
    refine List.nodup_append.2 ⟨hgrown.nodup, hnd, fun u hu w hw => ?_⟩
    rintro rfl
    exact (hnew u hu).2 hw
  · rcases hcases hc with rfl | hc
    · rw [hgrown.flatten] at hv
      rw [hgrown.srcNodeID]
      rcases List.mem_append.1 hv with hv | hv
      · rw [h.table_of_mem hg hgrown (mem_occurrences.2 ⟨b, hb, hv⟩)]
        exact h.owner b hb v hv hseed
      · rw [hgrown.table, if_pos hv]
    · rw [h.table_of_mem hg hgrown (mem_occurrences.2 ⟨c, hc, hv⟩)]
      exact h.owner c hc v hv hseed
  · have hopen : t[s]? = some (s : ℤ) := h.seeded s hs
    rw [hgrown.table, if_neg fun hsnew => ?_, hopen]
    have hun := ((hgrown.mem s).1 hsnew).2
    rw [hopen] at hun
    have hneg := Option.some.inj hun
    omega
  · rw [← h.src, List.map_append, List.map_append, List.map_cons, List.map_cons, hgrown.srcNodeID]
  · rcases hcases hc with rfl | hc
    · obtain ⟨layers, hlayers⟩ := h.first b hb
      rw [hgrown.srcNodeID, hgrown.nodeList, hlayers]
      split
      · exact ⟨layers, rfl⟩
      · exact ⟨layers ++ [new], rfl⟩
    · exact h.first c hc
  · rcases hcases hc with rfl | hc
    · rcases hgrown.layer hL with hL | ⟨-, hk, rfl⟩
      · obtain ⟨L', hL', hu⟩ := h.parent b hb k L v hL hv
        exact ⟨L', hgrown.layer_of hL', hu⟩
      · obtain ⟨u, hu, hvu⟩ := List.mem_flatMap.1 ((hgrown.mem v).1 hv).1
        exact ⟨b.lastLayer, hgrown.layer_of (lastLayer_eq hk.symm), u, hu, hvu⟩
    · exact h.parent c hc k L v hL hv

/-! ### The first phase -/

/-- A node of a block is in one of its layers. -/
theorem exists_layer (hv : v ∈ b.nodeList.flatten) :
    ∃ (k : ℕ) (L : List ℕ), b.nodeList[k]? = some L ∧ v ∈ L := by
  obtain ⟨L, hL, hvL⟩ := List.mem_flatten.1 hv
  obtain ⟨k, hk⟩ := List.mem_iff_getElem?.1 hL
  exact ⟨k, L, hk, hvL⟩

/-- A node of a layer is a node of the block. -/
theorem mem_flatten_of_layer {k : ℕ} {L : List ℕ} (hL : b.nodeList[k]? = some L) (hv : v ∈ L) :
    v ∈ b.nodeList.flatten :=
  List.mem_flatten.2 ⟨L, List.mem_of_getElem? hL, hv⟩

/-- The first layer of a block is its seed. -/
theorem Placed.first_layer (h : Placed n nodeMap seeds opened t bs) (hb : b ∈ bs) :
    b.nodeList[0]? = some [b.srcNodeID] := by
  obtain ⟨layers, hlayers⟩ := h.first b hb
  rw [hlayers]
  rfl

/-- The seed of a block is one of those that have been opened. -/
theorem Placed.src_mem (h : Placed n nodeMap seeds opened t bs) (hb : b ∈ bs) :
    b.srcNodeID ∈ opened := by
  rw [← h.src]
  exact List.mem_map_of_mem hb

/-- What holds between the seeds: no block has more than two layers, and the
neighbours of the seeds are claimed. -/
structure Opening (n : ℕ) (nodeMap : ℕ → List ℕ) (seeds opened : List ℕ) (t : List ℤ)
    (bs : List Block) : Prop extends Placed n nodeMap seeds opened t bs where
  short : ∀ b ∈ bs, b.nodeList.length ≤ 2
  closed : ∀ s ∈ opened, ∀ v ∈ nodeMap s, v ∈ occurrences bs

/-- A block that has only its seed adds this one node. -/
theorem occurrences_seedOnly : occurrences (bs ++ [seedOnly s]) = occurrences bs ++ [s] := by
  rw [occurrences_append]
  rfl

/-- A seed that is in a block already has a neighbour among the seeds before it. -/
theorem Opening.exists_adj (h : Opening n nodeMap seeds opened t bs) (hs : s ∉ opened)
    (hocc : s ∈ occurrences bs) : ∃ s' ∈ opened, s ∈ nodeMap s' := by
  obtain ⟨b, hb, hmem⟩ := mem_occurrences.1 hocc
  obtain ⟨k, L, hL, hsL⟩ := exists_layer hmem
  rcases k with _ | k
  · rw [h.first_layer hb] at hL
    rw [← Option.some.inj hL, List.mem_singleton] at hsL
    exact absurd (hsL ▸ h.src_mem hb) hs
  · obtain ⟨L', hL', u, hu, hsu⟩ := h.parent b hb k L s hL hsL
    have hk : k = 0 := by
      have hlt := (List.getElem?_eq_some_iff.1 hL).1
      have hshort := h.short b hb
      omega
    rw [hk, h.first_layer hb] at hL'
    rw [← Option.some.inj hL', List.mem_singleton] at hu
    exact ⟨u, hu ▸ h.src_mem hb, hsu⟩

/-- The new place repeats one if and only if the seed has a neighbour among the seeds
before it. -/
theorem Opening.nodup_openSeed (h : Opening n nodeMap seeds opened t bs)
    (hg : Undirected n nodeMap) (hopen : s ∉ opened) :
    (occurrences (bs ++ [seedOnly s])).Nodup ↔ Apart nodeMap (opened ++ [s]) := by
  rw [occurrences_seedOnly, List.nodup_append]
  constructor
  · rintro ⟨hnd, -, hdis⟩ a ha a' ha' hne hadj
    have hocc : s ∉ occurrences bs := fun hocc => hdis s hocc s (List.mem_singleton_self s) rfl
    rw [List.mem_append, List.mem_singleton] at ha ha'
    rcases ha with ha | rfl
    · rcases ha' with ha' | rfl
      · exact h.once.1 hnd a ha a' ha' hne hadj
      · exact hocc (h.closed a ha _ hadj)
    · rcases ha' with ha' | rfl
      · exact hocc (h.closed a' ha' _ (hg.symm _ _ hadj))
      · exact hne rfl
  · intro hapart
    have hnd : (occurrences bs).Nodup := h.once.2 fun a ha a' ha' =>
      hapart a (List.mem_append_left _ ha) a' (List.mem_append_left _ ha')
    refine ⟨hnd, List.nodup_singleton s, fun a ha a' ha' => ?_⟩
    rw [List.mem_singleton.1 ha']
    rintro rfl
    obtain ⟨s', hs', hadj⟩ := h.exists_adj hopen ha
    have hne : s' ≠ a := by
      rintro rfl
      exact hopen hs'
    exact hapart s' (List.mem_append_left _ hs') a
      (List.mem_append_right _ (List.mem_singleton_self a)) hne hadj

/-- **A seed that opens its block** keeps all nodes in their places, but for the seed
itself, which an earlier block may have claimed as a neighbour of its own. -/
theorem Opening.openSeed (h : Opening n nodeMap seeds opened t bs) (hg : Undirected n nodeMap)
    (hs : s ∈ seeds) (hlt : s < n) (hopen : s ∉ opened) :
    Placed n nodeMap seeds (opened ++ [s]) (t.set s s) (bs ++ [seedOnly s]) := by
  have hcases : ∀ {c}, c ∈ bs ++ [seedOnly s] → c ∈ bs ∨ c = seedOnly s := fun hc =>
    (List.mem_append.1 hc).imp_right List.mem_singleton.1
  have hother : ∀ {v}, v ≠ s → (t.set s (s : ℤ))[v]? = t[v]? := fun hv =>
    List.getElem?_set_ne (Ne.symm hv)
  have hself : (t.set s (s : ℤ))[s]? = some (s : ℤ) :=
    List.getElem?_set_self (by rw [h.length]; exact hlt)
  refine ⟨by rw [List.length_set, h.length], fun v hv => ?_, fun v hv => ?_, ?_, ?_,
    fun c hc v hv hseed => ?_, fun s' hs' => ?_, ?_, fun c hc => ?_, fun c hc k L v hL hv => ?_⟩
  · rw [occurrences_seedOnly, List.mem_append, List.mem_singleton] at hv
    rcases hv with hv | rfl
    · exact h.inRange v hv
    · exact hlt
  · rw [occurrences_seedOnly, List.mem_append, List.mem_singleton]
    by_cases hvs : v = s
    · rw [hvs, hself]
      refine ⟨fun hneg => ?_, fun hnot => absurd (.inr rfl) hnot⟩
      have hneg' := Option.some.inj hneg
      omega
    · rw [hother hvs, h.unviewed v hv]
      exact ⟨fun hnot hor => hor.elim hnot hvs, fun hnot hocc => hnot (.inl hocc)⟩
  · rw [occurrences_seedOnly, List.filter_append, List.filter_singleton]
    simpa [hs] using h.single
  · exact h.nodup_openSeed hg hopen
  · rcases hcases hc with hc | rfl
    · have hvs : v ≠ s := by
        rintro rfl
        exact hseed hs
      rw [hother hvs]
      exact h.owner c hc v hv hseed
    · have hvs : v = s := List.mem_singleton.1 hv
      exact absurd (hvs ▸ hs) hseed
  · rcases List.mem_append.1 hs' with hmem | hmem
    · have hne : s' ≠ s := fun heq => hopen (heq ▸ hmem)
      rw [hother hne]
      exact h.seeded s' hmem
    · rw [List.mem_singleton.1 hmem]
      exact hself
  · rw [List.map_append, h.src]
    rfl
  · rcases hcases hc with hc | rfl
    · exact h.first c hc
    · exact ⟨[], rfl⟩
  · rcases hcases hc with hc | rfl
    · exact h.parent c hc k L v hL hv
    · cases hL

/-- What has been claimed once stays claimed; the grown block has all neighbours of
its layer claimed. -/
theorem Placed.neighbours (h : Placed n nodeMap seeds opened t (l ++ b :: r))
    (hg : Undirected n nodeMap) (hgrown : Grown nodeMap t b t' b' new)
    (hv : v ∈ b.lastLayer.flatMap nodeMap) : v ∈ occurrences (l ++ b' :: r) := by
  obtain ⟨u, -, hu⟩ := List.mem_flatMap.1 hv
  refine hgrown.occurrences.mem_iff.2 (List.mem_append.2 ?_)
  by_cases hocc : v ∈ occurrences (l ++ b :: r)
  · exact .inr hocc
  · exact .inl ((hgrown.mem v).2 ⟨hv, (h.unviewed v (hg.inRange u v hu)).2 hocc⟩)

/-- **The first phase** opens the blocks of the seeds that remain, one after the other, each
with its first layer. -/
theorem Opening.seedBlocks {rest : List ℕ} (h : Opening n nodeMap seeds opened t bs)
    (hg : Undirected n nodeMap) (hseeds : opened ++ rest = seeds) (hnd : seeds.Nodup)
    (hlt : ∀ s ∈ seeds, s < n) :
    ∃ t' bs', seedBlocks nodeMap rest t bs = .ok (t', bs') ∧
      Opening n nodeMap seeds seeds t' bs' := by
  induction rest generalizing opened t bs with
  | nil =>
    rw [List.append_nil] at hseeds
    exact ⟨t, bs, rfl, hseeds ▸ h⟩
  | cons s rest ih =>
    have hs : s ∈ seeds := hseeds ▸ List.mem_append_right _ (List.mem_cons_self ..)
    have hopen : s ∉ opened := by
      intro hopen
      rw [← hseeds, List.nodup_append] at hnd
      exact hnd.2.2 s hopen s (List.mem_cons_self ..) rfl
    obtain ⟨sc, new, hblock, hgrown⟩ := exists_seedBlock (hg.inRange_of_length h.length s)
      (h.length ▸ hlt s hs)
    have hplaced := h.openSeed hg hs (hlt s hs) hopen
    have hgrow := hplaced.grow hg hgrown
    have hkeep : ∀ v ∈ occurrences (bs ++ [seedOnly s]), v ∈ occurrences (bs ++ [sc.grown]) :=
      fun v hv => hgrown.occurrences.mem_iff.2 (List.mem_append_right _ hv)
    have hopening : Opening n nodeMap seeds (opened ++ [s]) sc.viewedTable (bs ++ [sc.grown]) := by
      refine ⟨hgrow, fun b hb => ?_, fun s' hs' v hv => ?_⟩
      · rcases List.mem_append.1 hb with hb | hb
        · exact h.short b hb
        · rw [List.mem_singleton.1 hb, hgrown.nodeList]
          split
          · exact Nat.le_succ 1
          · exact Nat.le_refl 2
      · rcases List.mem_append.1 hs' with hs' | hs'
        · refine hkeep v ?_
          rw [occurrences_seedOnly]
          exact List.mem_append_left _ (h.closed s' hs' v hv)
        · rw [List.mem_singleton.1 hs'] at hv
          exact hplaced.neighbours hg hgrown (List.mem_flatMap.2 ⟨s, List.mem_singleton_self s, hv⟩)
    obtain ⟨t', bs', hrest, h'⟩ := ih hopening (by rw [List.append_assoc]; exact hseeds)
    refine ⟨t', bs', ?_, h'⟩
    rw [Partition.seedBlocks, hblock]
    exact hrest

end Partition
end BearRpc
