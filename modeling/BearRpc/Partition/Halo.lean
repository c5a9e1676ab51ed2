/-
# The halo of a block

A neighbour that is taken when a block comes to it goes to `holoNode`, while the layer
expanded is one of the first three (`holoLayer = 3`).

What is taken stays taken, so such a node never enters the block afterwards, and
`nodeViewed` has the nodes of the block and those of its halo all the time (`Noting` in
the loop over the neighbours, `Haloed` between two turns).  At the end every layer has
been expanded, so the halo has every neighbour of the first three that is not in the
block (`HaloClosed`).
-/

import BearRpc.Partition.Turns

namespace BearRpc
namespace Partition

/-- **The halo is closed**: besides the nodes of the block it has all the neighbours of
the layers 0 to 2, and nothing else. -/
structure HaloClosed (nodeMap : ℕ → List ℕ) (b : Block) : Prop where
  nodup : b.holoNode.Nodup
  disjoint : ∀ v ∈ b.holoNode, v ∉ b.nodeList.flatten
  adjacent : ∀ v ∈ b.holoNode, ∃ u ∈ (b.nodeList.take 3).flatten, v ∈ nodeMap u
  complete : ∀ u ∈ (b.nodeList.take 3).flatten, ∀ v ∈ nodeMap u,
    v ∈ b.nodeList.flatten ∨ v ∈ b.holoNode

/-- **In the loop over the neighbours** of the last layer of `b`, when it has been
through `ids`. -/
structure Noting (inHolo : Bool) (t : List ℤ) (b : Block) (ids : List ℕ) (s : Scan) : Prop where
  nodeList : s.block.nodeList = b.nodeList
  holoLayer : s.block.holoLayer = b.holoLayer
  taken : ∀ v : ℕ, t[v]? ≠ some (-1) → s.viewedTable[v]? ≠ some (-1)
  keeps : ∀ v ∈ b.nodeViewed, v ∈ s.block.nodeViewed
  viewed : ∀ v, v ∈ s.block.nodeViewed ↔
    v ∈ b.nodeList.flatten ∨ v ∈ s.tmp ∨ v ∈ s.block.holoNode
  nodup : s.block.holoNode.Nodup
  disjoint : ∀ v ∈ s.block.holoNode, v ∉ b.nodeList.flatten ∧ v ∉ s.tmp
  claimed : ∀ v ∈ s.block.nodeViewed, s.viewedTable[v]? ≠ some (-1)
  noted : ∀ v ∈ s.block.holoNode, v ∈ b.holoNode ∨ inHolo = true ∧ v ∈ ids
  complete : inHolo = true → ∀ v ∈ ids, v ∈ s.block.nodeViewed

/-- **Between two turns.**  What holds of the nodes of the halo holds of the layers that
have been expanded. -/
structure Haloed (nodeMap : ℕ → List ℕ) (t : List ℤ) (slot : Slot) : Prop where
  holoLayer : slot.block.holoLayer = 3
  nonempty : slot.block.nodeList ≠ []
  viewed : ∀ v, v ∈ slot.block.nodeViewed ↔
    v ∈ slot.block.nodeList.flatten ∨ v ∈ slot.block.holoNode
  nodup : slot.block.holoNode.Nodup
  disjoint : ∀ v ∈ slot.block.holoNode, v ∉ slot.block.nodeList.flatten
  claimed : ∀ v ∈ slot.block.nodeViewed, t[v]? ≠ some (-1)
  adjacent : ∀ v ∈ slot.block.holoNode,
    ∃ u ∈ (slot.block.nodeList.take 3).flatten, v ∈ nodeMap u
  complete : ∀ u ∈ (slot.expanded.take 3).flatten, ∀ v ∈ nodeMap u, v ∈ slot.block.nodeViewed

variable {nodeMap : ℕ → List ℕ} {n u v : ℕ} {seeds ids ids' : List ℕ} {t t' : List ℤ}
  {b : Block} {inHolo a : Bool} {s s' sc : Scan} {slot : Slot}

/-! ### One neighbour after the other -/

/-- An entry that is set is taken. -/
theorem getElem?_set_ne_neg_one {t : List ℤ} {src : ℕ} (h : t[u]? ≠ some (-1)) :
    (t.set v (src : ℤ))[u]? ≠ some (-1) := by
  rw [List.getElem?_set]
  split
  · split
    · intro hneg
      have := Option.some.inj hneg
      omega
    · nofun
  · exact h

/-- **One neighbour** is claimed, noted or left alone: noted if the block expands one of its
first three layers, does not have it and has not noted it yet. -/
theorem Noting.visit (h : Noting inHolo t b ids s) (hok : s.visit inHolo v = .ok s') :
    Noting inHolo t b (ids ++ [v]) s' := by
  obtain ⟨nodeList, holoLayer, taken, keeps, viewed, nodup, disjoint, claimed, noted, complete⟩ := h
  have hnoted : ∀ u ∈ s.block.holoNode, u ∈ b.holoNode ∨ inHolo = true ∧ u ∈ ids ++ [v] :=
    fun u hu => (noted u hu).imp_right (And.imp_right (List.mem_append_left [v]))
  have hinsert : inHolo = true → ∀ u ∈ ids ++ [v], u ∈ insert v s.block.nodeViewed :=
    fun hin u hu => Finset.mem_insert.2 ((List.mem_append.1 hu).elim
      (fun hu => .inr (complete hin u hu)) fun hu => .inl (List.mem_singleton.1 hu))
  rw [Scan.visit] at hok
  split at hok
  · cases hok
  · next x hx =>
    split at hok
    · next hfree =>
      cases hok
      have hv : v ∉ s.block.nodeViewed := fun hv => claimed v hv (hx.trans (by rw [hfree]))
      have hlt : v < s.viewedTable.length := (List.getElem?_eq_some_iff.1 hx).1
      refine ⟨nodeList, holoLayer, fun u hu => getElem?_set_ne_neg_one (taken u hu),
        fun u hu => Finset.mem_insert_of_mem (keeps u hu), fun u => ?_, nodup, fun u hu => ?_,
        fun u hu => ?_, hnoted, hinsert⟩
      · rw [Finset.mem_insert, viewed u, List.mem_append, List.mem_singleton]
        simp only [or_assoc, or_comm]
      · have hne : u ≠ v := by
          rintro rfl
          exact hv ((viewed u).2 (.inr (.inr hu)))
        exact ⟨(disjoint u hu).1, fun hmem => (List.mem_append.1 hmem).elim (disjoint u hu).2
          fun heq => hne (List.mem_singleton.1 heq)⟩
      · rcases Finset.mem_insert.1 hu with rfl | hu
        · rw [List.getElem?_set_self hlt]
          intro hneg
          have := Option.some.inj hneg
          omega
        · exact getElem?_set_ne_neg_one (claimed u hu)
    · next htaken =>
      split at hok
      · next hnote =>
        cases hok
        have hv := mt (viewed v).2 hnote.2
        refine ⟨nodeList, holoLayer, taken, fun u hu => Finset.mem_insert_of_mem (keeps u hu),
          fun u => ?_, ?_, fun u hu => ?_, fun u hu => ?_, fun u hu => ?_, hinsert⟩
        · rw [Finset.mem_insert, viewed u, List.mem_append, List.mem_singleton]
          simp only [or_assoc, or_comm, or_left_comm]
        · refine List.nodup_append.2 ⟨nodup, List.nodup_singleton v, fun u hu w hw => ?_⟩
          rw [List.mem_singleton.1 hw]
          rintro rfl
          exact hv (.inr (.inr hu))
        · rcases List.mem_append.1 hu with hu | hu
          · exact disjoint u hu
          · rw [List.mem_singleton.1 hu]
            exact ⟨fun hmem => hv (.inl hmem), fun hmem => hv (.inr (.inl hmem))⟩
        · rcases Finset.mem_insert.1 hu with rfl | hu
          · rw [hx]
            exact fun hneg => htaken (Option.some.inj hneg)
          · exact claimed u hu
        · rcases List.mem_append.1 hu with hu | hu
          · exact hnoted u hu
          · exact .inr ⟨hnote.1, List.mem_append_right _ hu⟩
      · next hleft =>
        cases hok
        refine ⟨nodeList, holoLayer, taken, keeps, viewed, nodup, disjoint, claimed, hnoted,
          fun hin u hu => ?_⟩
        rcases List.mem_append.1 hu with hu | hu
        · exact complete hin u hu
        · rw [List.mem_singleton.1 hu]
          by_contra hnot
          exact hleft ⟨hin, hnot⟩

/-- **The loop over the neighbours** notes, behind its last turn, each of those that are not
in the block. -/
theorem Noting.loop (h : Noting inHolo t b ids s)
    (hok : ids'.foldlM (Scan.visit inHolo) s = .ok s') : Noting inHolo t b (ids ++ ids') s' := by
  induction ids' generalizing ids s with
  | nil =>
    cases hok
    rw [List.append_nil]
    exact h
  | cons v ids' ih =>
    obtain ⟨s₁, hvisit, hrest⟩ := exists_of_bind hok
    rw [List.append_cons]
    exact ih (h.visit hvisit) hrest

/-- Before the first neighbour. -/
theorem Haloed.noting (h : Haloed nodeMap t ⟨b, a⟩) : Noting inHolo t b [] ⟨t, b, []⟩ where
  nodeList := rfl
  holoLayer := rfl
  taken := fun _ hv => hv
  keeps := fun _ hv => hv
  viewed := fun v => (h.viewed v).trans (by simp)
  nodup := h.nodup
  disjoint := fun v hv => ⟨h.disjoint v hv, List.not_mem_nil⟩
  claimed := h.claimed
  noted := fun _ hv => .inl hv
  complete := fun _ => nofun

/-! ### A turn -/

@[simp] theorem Scan.grown_holoNode : sc.grown.holoNode = sc.block.holoNode := by
  rw [Scan.grown]
  split <;> rfl

@[simp] theorem Scan.grown_nodeViewed : sc.grown.nodeViewed = sc.block.nodeViewed := by
  rw [Scan.grown]
  split <;> rfl

@[simp] theorem Scan.grown_holoLayer : sc.grown.holoLayer = sc.block.holoLayer := by
  rw [Scan.grown]
  split <;> rfl

theorem Scan.grown_nodeList : sc.grown.nodeList =
    if sc.tmp = [] then sc.block.nodeList else sc.block.nodeList ++ [sc.tmp] := by
  rw [Scan.grown]
  split <;> rfl

theorem Scan.flatten_grown : sc.grown.nodeList.flatten = sc.block.nodeList.flatten ++ sc.tmp := by
  rw [Scan.grown_nodeList]
  split
  · next hnil => rw [hnil, List.append_nil]
  · rw [List.flatten_append, List.flatten_singleton]

/-- The layers stay where they are. -/
theorem Scan.prefix_grown : sc.block.nodeList <+: sc.grown.nodeList := by
  rw [Scan.grown_nodeList]
  split
  · exact List.prefix_rfl
  · exact List.prefix_append _ _

/-- **Behind its turn a block has expanded no more than the layers it had**: the layer that
it has just claimed is expanded in the next turn, if the block stays active. -/
theorem Scan.expanded_prefix (ha : a = false → sc.tmp = []) :
    (Slot.mk sc.grown a).expanded <+: sc.block.nodeList := by
  rw [Slot.expanded]
  dsimp only
  rw [Scan.grown_nodeList]
  split
  · split
    · exact List.dropLast_prefix _
    · rw [List.dropLast_concat]
  · next hidle => rw [if_pos (ha (Bool.eq_false_iff.2 hidle))]

theorem mem_flatten_take {layers layers' : List (List ℕ)} (h : layers <+: layers')
    (hu : u ∈ (layers.take 3).flatten) : u ∈ (layers'.take 3).flatten := by
  obtain ⟨L, hL, huL⟩ := List.mem_flatten.1 hu
  exact List.mem_flatten.2 ⟨L, (h.take 3).subset hL, huL⟩

/-- A node of the first three layers is in the last one or in those before it. -/
theorem mem_take_or (hne : b.nodeList ≠ []) (hu : u ∈ (b.nodeList.take 3).flatten) :
    u ∈ (b.nodeList.dropLast.take 3).flatten ∨ b.nodeList.length ≤ 3 ∧ u ∈ b.lastLayer := by
  have hlast : b.nodeList = b.nodeList.dropLast ++ [b.lastLayer] := by
    rw [Block.lastLayer, List.getLast?_eq_some_getLast hne]
    exact (List.dropLast_append_getLast hne).symm
  have hlen : b.nodeList.dropLast.length = b.nodeList.length - 1 := List.length_dropLast
  have hpos : 0 < b.nodeList.length := List.length_pos_iff.2 hne
  rw [hlast, List.take_append, List.flatten_append, List.mem_append] at hu
  refine hu.imp_right fun hu => ?_
  obtain ⟨L, hL, huL⟩ := List.mem_flatten.1 hu
  have hlt : 0 < 3 - b.nodeList.dropLast.length := by
    by_contra hzero
    rw [Nat.eq_zero_of_not_pos hzero] at hL
    cases hL
  refine ⟨by omega, ?_⟩
  rwa [← List.mem_singleton.1 (List.mem_of_mem_take hL)]

/-- **A turn keeps the halo of the block**: what it notes are neighbours of the layer it
expands, and what it claims is not in the halo any more. -/
theorem Haloed.turn (h : Haloed nodeMap t ⟨b, true⟩) (hok : expand nodeMap t b = .ok sc)
    (ha : a = false → sc.tmp = []) :
    Haloed nodeMap sc.viewedTable ⟨sc.grown, a⟩ ∧
      ∀ v : ℕ, t[v]? ≠ some (-1) → sc.viewedTable[v]? ≠ some (-1) := by
  have hne : b.nodeList ≠ [] := h.nonempty
  have hthree : b.holoLayer = 3 := h.holoLayer
  have hlast := getLast?_eq_lastLayer hne
  have hlayer : b.lastLayer ∈ b.nodeList := List.mem_of_getLast? hlast
  rw [expand, hlast] at hok
  have hnoting := h.noting.loop hok
  rw [List.nil_append] at hnoting
  obtain ⟨nodeList, holoLayer, taken, keeps, viewed, nodup, disjoint, claimed, noted, complete⟩ :=
    hnoting
  have hprefix : b.nodeList <+: sc.grown.nodeList := nodeList ▸ Scan.prefix_grown
  refine ⟨⟨?_, ?_, fun v => ?_, ?_, fun v hv => ?_, ?_, fun v hv => ?_, fun u hu v hvu => ?_⟩,
    taken⟩
  · rw [Scan.grown_holoLayer, holoLayer, hthree]
  · exact fun hnil => hne (List.prefix_nil.1 (hnil ▸ hprefix))
  · rw [Scan.grown_nodeViewed, Scan.grown_holoNode, Scan.flatten_grown, nodeList, viewed v,
      List.mem_append, or_assoc]
  · rw [Scan.grown_holoNode]
    exact nodup
  · rw [Scan.grown_holoNode] at hv
    rw [Scan.flatten_grown, nodeList]
    exact fun hmem => (List.mem_append.1 hmem).elim (disjoint v hv).1 (disjoint v hv).2
  · rw [Scan.grown_nodeViewed]
    exact claimed
  · rw [Scan.grown_holoNode] at hv
    rcases noted v hv with hv | ⟨hin, hv⟩
    · obtain ⟨u, hu, hvu⟩ := h.adjacent v hv
      exact ⟨u, mem_flatten_take hprefix hu, hvu⟩
    · obtain ⟨u, hu, hvu⟩ := List.mem_flatMap.1 hv
      have hlen : b.nodeList.length ≤ 3 := hthree ▸ of_decide_eq_true hin
      refine ⟨u, mem_flatten_take hprefix ?_, hvu⟩
      rw [List.take_of_length_le hlen]
      exact List.mem_flatten.2 ⟨_, hlayer, hu⟩
  · rw [Scan.grown_nodeViewed]
    have hu' := mem_flatten_take (nodeList ▸ Scan.expanded_prefix ha) hu
    rcases mem_take_or hne hu' with hbefore | ⟨hlen, hlast⟩
    · exact keeps v (h.complete u hbefore v hvu)
    · refine complete (decide_eq_true (hthree ▸ hlen)) v ?_
      exact List.mem_flatMap.2 ⟨u, hlast, hvu⟩

/-! ### The call -/

/-- What the turn of another block does to a halo. -/
theorem Haloed.mono (h : Haloed nodeMap t slot)
    (ht : ∀ v : ℕ, t[v]? ≠ some (-1) → t'[v]? ≠ some (-1)) : Haloed nodeMap t' slot :=
  { h with claimed := fun v hv => ht v (h.claimed v hv) }

/-- The block of a seed, before it claims anything, has no halo. -/
theorem haloed_seedOnly {s : ℕ} (hs : s < t.length) :
    Haloed nodeMap (t.set s s) ⟨seedOnly s, true⟩ where
  holoLayer := rfl
  nonempty := List.cons_ne_nil _ _
  viewed := fun v => by
    change v ∈ ({s} : Finset ℕ) ↔ v ∈ [s] ∨ v ∈ []
    rw [Finset.mem_singleton, List.mem_singleton, or_iff_left List.not_mem_nil]
  nodup := List.nodup_nil
  disjoint := nofun
  claimed := fun v hv => by
    rw [Finset.mem_singleton.1 hv, List.getElem?_set_self hs]
    intro hneg
    have := Option.some.inj hneg
    omega
  adjacent := nofun
  complete := nofun

/-- **Both steps keep the halo of every block**: a seed opens a block with no halo, and a
turn changes the halo of one block only. -/
theorem kept_haloed : Kept nodeMap fun t slots => ∀ slot ∈ slots, Haloed nodeMap t slot where
  openSeed := fun {t bs s} h hs slot hslot => by
    rw [activated_append, List.mem_append, List.mem_singleton] at hslot
    rcases hslot with hslot | rfl
    · exact (h slot hslot).mono fun v => getElem?_set_ne_neg_one
    · exact haloed_seedOnly hs
  turn := fun {t l r b sc a} h hok ha slot hslot => by
    obtain ⟨hgrown, htaken⟩ := (h ⟨b, true⟩ List.mem_append_cons_self).turn hok ha
    rcases List.mem_append.1 hslot with hslot | hslot
    · exact (h slot (List.mem_append_left _ hslot)).mono htaken
    · rcases List.mem_cons.1 hslot with rfl | hslot
      · exact hgrown
      · exact (h slot (List.mem_append_right _ (List.mem_cons_of_mem _ hslot))).mono htaken

/-- **Behind the last turn of a block its halo is closed**: every layer up to the third has
been expanded by then. -/
theorem Haloed.closed (h : Haloed nodeMap t slot) (hidle : ¬ slot.active = true) :
    HaloClosed nodeMap slot.block where
  nodup := h.nodup
  disjoint := h.disjoint
  adjacent := h.adjacent
  complete := fun u hu v hvu => by
    have hexpanded : slot.expanded = slot.block.nodeList := if_neg hidle
    exact (h.viewed v).1 (h.complete u (hexpanded ▸ hu) v hvu)

/-- What seeds below `n` reach in a graph over `0 … n - 1` is below `n`. -/
theorem Undirected.lt_of_reached (hg : Undirected n nodeMap) (hlt : ∀ s ∈ seeds, s < n)
    (hv : Reached nodeMap seeds v) : v < n := by
  obtain ⟨s, hs, hsv⟩ := hv
  cases hsv with
  | refl => exact hlt v hs
  | tail _ hstep => exact hg.inRange _ v hstep

/-- **`NodeBlockConstruct` leaves every block with a closed halo.** For every symmetric map
it ends with a block for each seed, and the `holoNode` of each has the neighbours of its
layers 0 to 2 that are not in the block, each once and nothing else. -/
theorem nodeBlockConstruct_haloClosed (hg : Undirected n nodeMap) (hlt : ∀ s ∈ seeds, s < n)
    (classes : List (List ℕ)) :
    ∃ t bs, (∀ fuel, n < fuel →
      nodeBlockConstruct nodeMap fuel (seeds :: classes) [] (List.replicate n (-1)) = .ok (t, bs)) ∧
        bs.length = seeds.length ∧ ∀ b ∈ bs, HaloClosed nodeMap b := by
  obtain ⟨t, bs, hcall, hlen, -⟩ := exists_blocks (fun v => hg.lt_of_reached hlt) classes
  refine ⟨t, bs, hcall, hlen, fun b hb => ?_⟩
  obtain ⟨slots, rfl, hslots, hidle⟩ := kept_haloed.ofCall (hcall _ (Nat.lt_succ_self n)) nofun
  obtain ⟨c, hc, index, rfl⟩ := mem_refactored hb
  obtain ⟨slot, hslot, rfl⟩ := List.mem_map.1 hc
  have hclosed := (hslots slot hslot).closed fun ha =>
    hidle (List.any_eq_true.2 ⟨slot, hslot, ha⟩)
  exact ⟨hclosed.nodup, hclosed.disjoint, hclosed.adjacent, hclosed.complete⟩

/-- The hypotheses of `nodeBlockConstruct_haloClosed` are satisfiable, with blocks that are
in the halo of each other. -/
theorem nodeBlockConstruct_haloClosed_path : ∃ t bs, (∀ fuel, 3 < fuel →
    nodeBlockConstruct path fuel [[0, 1]] [] (List.replicate 3 (-1)) = .ok (t, bs)) ∧
      bs.length = 2 ∧ ∀ b ∈ bs, HaloClosed path b :=
  nodeBlockConstruct_haloClosed undirected_path (by decide) []

end Partition
end BearRpc
