/-
# The blocks of a graph

`NodeBlockConstruct` and `Block::refactorBlock`
(`src/partition/GraphPartitionAlgo.cpp`, lines 12 to 33 and 138 to 209).

Every seed gets a block.  First each seed in turn claims its neighbours that nobody
has claimed; then the blocks take turns, and each claims a layer more, until a round
claims nothing for it.  `viewedTable` says who has claimed a node, or `-1`.

The adjacency map is the function of `operator[]`, which gives an empty list for a
missing key.  An access outside of a vector is a fault; so is a `while` loop that
needs more rounds than `fuel`.
-/

import BearRpc.Theory.MachineInt
import Mathlib.Data.Finset.Insert

namespace BearRpc

open Theory

namespace Partition

/-- What ends a call without a result. -/
inductive Fault where
  /-- an access outside of a vector -/
  | outOfRange
  /-- `++` on the largest `int` -/
  | overflow
  /-- the loop has not ended -/
  | fuel
  deriving DecidableEq, Repr

/-- A call and what comes behind it. -/
theorem exists_of_bind {α β : Type} {x : Except Fault α} {f : α → Except Fault β} {r : β}
    (h : x >>= f = .ok r) : ∃ a, x = .ok a ∧ f a = .ok r := by
  cases x with
  | error e => cases h
  | ok a => exact ⟨a, rfl, h⟩

/-- A block.  `blockId` and `partitionId` have no value before `refactorBlock`; nothing in
the program sets the three numbers of nodes. -/
structure Block where
  srcNodeID : ℕ
  blockId : Option ℕ := none
  partitionId : Option ℤ := none
  nodeList : List (List ℕ)
  /-- the keys of `nodeViewed` -/
  nodeViewed : Finset ℕ
  holoNode : List ℕ := []
  blockSize : ℤ := 0
  holoLayer : ℕ := 3
  trainNodeNumber : ℕ := 0
  valNodeNumber : ℕ := 0
  testNodeNumber : ℕ := 0
  deriving DecidableEq

/-- `refactorBlock`.  The sum of `BlockSize` and a length is a `size_t`, and is converted
back. -/
def Block.refactorBlock (b : Block) (ID : ℕ) : Block :=
  { b with
    blockId := some ID
    partitionId := some (-1)
    blockSize := b.nodeList.foldl (fun size nodes => toInt (size + nodes.length)) 0 }

/-- **Sums of lengths**, converted in every turn, are converted once: an `int` that wraps on
the way has the same end as one that wraps there. -/
theorem foldl_toInt_length (layers : List (List ℕ)) (k : ℤ) :
    layers.foldl (fun size nodes => toInt (size + nodes.length)) (toInt k) =
      toInt (k + layers.flatten.length) := by
  induction layers generalizing k with
  | nil => exact congrArg toInt (Int.add_zero k).symm
  | cons layer layers ih =>
    rw [List.foldl_cons, toInt_add, ih, List.flatten_cons, List.length_append,
      Int.natCast_add, Int.add_assoc]

theorem Block.blockSize_refactorBlock (b : Block) (ID : ℕ) :
    (b.refactorBlock ID).blockSize = toInt b.nodeList.flatten.length := by
  rw [← Int.zero_add (b.nodeList.flatten.length : ℤ)]
  exact foldl_toInt_length b.nodeList 0

/-- The variables of the loop over the neighbours; `flag` is set if and only if
`tmp` is not empty. -/
structure Scan where
  viewedTable : List ℤ
  block : Block
  tmp : List ℕ
  deriving DecidableEq

/-- The body of the loop, for one neighbour.  A neighbour that has been claimed is
noted in `holoNode` if `inHolo`. -/
def Scan.visit (inHolo : Bool) (s : Scan) (sampleId : ℕ) : Except Fault Scan :=
  match s.viewedTable[sampleId]? with
  | none => .error .outOfRange
  | some viewed =>
    if viewed = -1 then
      .ok
        { viewedTable := s.viewedTable.set sampleId s.block.srcNodeID
          block := { s.block with nodeViewed := insert sampleId s.block.nodeViewed }
          tmp := s.tmp ++ [sampleId] }
    else if inHolo = true ∧ sampleId ∉ s.block.nodeViewed then
      .ok
        { s with
          block :=
            { s.block with
              holoNode := s.block.holoNode ++ [sampleId]
              nodeViewed := insert sampleId s.block.nodeViewed } }
    else .ok s

/-- The block behind the loop: with `tmp` as a new layer, unless it is empty. -/
def Scan.grown (s : Scan) : Block :=
  if s.tmp = [] then s.block else { s.block with nodeList := s.block.nodeList ++ [s.tmp] }

section

variable (nodeMap : ℕ → List ℕ)

/-- The block of a seed, in the first phase. -/
def seedBlock (nodeId : ℕ) (viewedTable : List ℤ) : Except Fault Scan :=
  if nodeId < viewedTable.length then
    (nodeMap nodeId).foldlM (Scan.visit true)
      { viewedTable := viewedTable.set nodeId nodeId
        block := { srcNodeID := nodeId, nodeList := [[nodeId]], nodeViewed := {nodeId} }
        tmp := [] }
  else .error .outOfRange

/-- The first phase. -/
def seedBlocks : List ℕ → List ℤ → List Block → Except Fault (List ℤ × List Block)
  | [], viewedTable, blocks => .ok (viewedTable, blocks)
  | nodeId :: rest, viewedTable, blocks => do
    let s ← seedBlock nodeMap nodeId viewedTable
    seedBlocks rest s.viewedTable (blocks ++ [s.grown])

/-- The loop over the last layer of a block and the neighbours of its nodes. -/
def expand (viewedTable : List ℤ) (block : Block) : Except Fault Scan :=
  match block.nodeList.getLast? with
  | none => .error .outOfRange
  | some layer =>
    (layer.flatMap nodeMap).foldlM
      (Scan.visit (decide (block.nodeList.length ≤ block.holoLayer)))
      { viewedTable := viewedTable, block := block, tmp := [] }

/-- A block, with its entry of `activeBlocksTable`: its index while it is active,
and `-1` afterwards. -/
structure Slot where
  block : Block
  active : Bool
  deriving DecidableEq

/-- The loop over `activeBlocksTable`.  Behind it `blocksActive` is set if and only if
a block is active. -/
def round : List ℤ → List Slot → Except Fault (List ℤ × List Slot)
  | viewedTable, [] => .ok (viewedTable, [])
  | viewedTable, slot :: rest =>
    if slot.active = true then do
      let s ← expand nodeMap viewedTable slot.block
      let r ← round s.viewedTable rest
      .ok (r.1, ⟨s.grown, decide (s.tmp ≠ [])⟩ :: r.2)
    else do
      let r ← round viewedTable rest
      .ok (r.1, slot :: r.2)

/-- `while (blocksActive)` -/
def rounds : ℕ → List ℤ → List Slot → Except Fault (List ℤ × List Slot)
  | 0, _, _ => .error .fuel
  | fuel + 1, viewedTable, slots => do
    let r ← round nodeMap viewedTable slots
    if r.2.any (·.active) = true then rounds fuel r.1 r.2 else .ok r

/-- `NodeBlockConstruct` -/
def nodeBlockConstruct (fuel : ℕ) (nodeClassList : List (List ℕ)) (blocks : List Block)
    (viewedTable : List ℤ) : Except Fault (List ℤ × List Block) :=
  match nodeClassList[0]? with
  | none => .error .outOfRange
  | some seeds => do
    let r ← seedBlocks nodeMap seeds viewedTable blocks
    let r ← rounds nodeMap fuel r.1 (r.2.map fun block => ⟨block, true⟩)
    .ok (r.1, r.2.mapIdx fun index slot => slot.block.refactorBlock index)

end

/-! ### What the loop over the neighbours claims -/

/-- From `s` to `s'` the loop has claimed the nodes `new`, of the neighbours `ids`. -/
structure Scanned (ids : List ℕ) (s s' : Scan) (new : List ℕ) : Prop where
  tmp : s'.tmp = s.tmp ++ new
  nodup : new.Nodup
  mem : ∀ v, v ∈ new ↔ v ∈ ids ∧ s.viewedTable[v]? = some (-1)
  table : ∀ v, s'.viewedTable[v]? =
    if v ∈ new then some (s.block.srcNodeID : ℤ) else s.viewedTable[v]?
  length : s'.viewedTable.length = s.viewedTable.length
  count : s'.viewedTable.count (-1) + new.length = s.viewedTable.count (-1)
  srcNodeID : s'.block.srcNodeID = s.block.srcNodeID
  nodeList : s'.block.nodeList = s.block.nodeList

variable {inHolo : Bool} {ids : List ℕ} {s s' : Scan} {new : List ℕ} {v : ℕ}

variable (inHolo) in
/-- **One neighbour** is claimed if nobody has claimed it, and then stands at the end of the
new layer; otherwise it may be noted as a halo node, and the table stays as it is. -/
theorem Scan.visit_ok (hv : v < s.viewedTable.length) :
    ∃ s' new, s.visit inHolo v = .ok s' ∧ Scanned [v] s s' new := by
  have hget : s.viewedTable[v]? = some s.viewedTable[v] := List.getElem?_eq_getElem hv
  rw [Scan.visit, hget]
  by_cases hviewed : s.viewedTable[v] = -1
  · refine ⟨_, [v], if_pos hviewed, rfl, List.nodup_singleton v, fun u => ?_, fun u => ?_,
      List.length_set, ?_, rfl, rfl⟩
    · rw [List.mem_singleton]
      refine ⟨?_, And.left⟩
      rintro rfl
      exact ⟨rfl, by rw [hget, hviewed]⟩
    · by_cases hu : u = v
      · rw [if_pos (List.mem_singleton.2 hu), hu]
        exact List.getElem?_set_self hv
      · rw [if_neg (mt List.mem_singleton.1 hu)]
        exact List.getElem?_set_ne (Ne.symm hu)
    · have hpos : 0 < s.viewedTable.count (-1) :=
        List.count_pos_iff.2 (hviewed ▸ List.getElem_mem hv)
      change (s.viewedTable.set v s.block.srcNodeID).count (-1) + 1 = _
      rw [List.count_set hv, hviewed, if_pos (beq_self_eq_true _), if_neg (by simp)]
      omega
  · have hstay : ∀ {s' : Scan}, s'.viewedTable = s.viewedTable → s'.tmp = s.tmp →
        s'.block.srcNodeID = s.block.srcNodeID → s'.block.nodeList = s.block.nodeList →
          Scanned [v] s s' [] := by
      intro s' htable htmp hsrc hlist
      refine ⟨by rw [htmp, List.append_nil], List.nodup_nil, fun u => ⟨nofun, ?_⟩, fun u => ?_,
        by rw [htable], by rw [htable]; rfl, hsrc, hlist⟩
      · rintro ⟨hu, hun⟩
        rw [List.mem_singleton.1 hu, hget] at hun
        exact absurd (Option.some.inj hun) hviewed
      · rw [if_neg List.not_mem_nil, htable]
    by_cases hholo : inHolo = true ∧ v ∉ s.block.nodeViewed
    · exact ⟨_, [], (if_neg hviewed).trans (if_pos hholo), hstay rfl rfl rfl rfl⟩
    · exact ⟨s, [], (if_neg hviewed).trans (if_neg hholo), hstay rfl rfl rfl rfl⟩

/-- One neighbour after the other. -/
theorem Scanned.trans {ids' : List ℕ} {s'' : Scan} {new' : List ℕ} (h : Scanned ids s s' new)
    (h' : Scanned ids' s' s'' new') : Scanned (ids ++ ids') s s'' (new ++ new') := by
  have hdisjoint : ∀ u ∈ new, u ∉ new' := by
    intro u hu hu'
    have hun := ((h'.mem u).1 hu').2
    rw [h.table, if_pos hu] at hun
    have hsrc := Option.some.inj hun
    omega
  refine ⟨?_, ?_, fun u => ?_, fun u => ?_, h'.length.trans h.length, ?_,
    h'.srcNodeID.trans h.srcNodeID, h'.nodeList.trans h.nodeList⟩
  · rw [h'.tmp, h.tmp, List.append_assoc]
  · refine List.nodup_append.2 ⟨h.nodup, h'.nodup, fun u hu w hw => ?_⟩
    rintro rfl
    exact hdisjoint u hu hw
  · rw [List.mem_append, List.mem_append, h.mem u, h'.mem u, h.table u]
    by_cases hu : u ∈ new
    · rw [if_pos hu]
      have hun := (h.mem u).1 hu
      exact ⟨fun _ => ⟨.inl hun.1, hun.2⟩, fun _ => .inl hun⟩
    · rw [if_neg hu]
      exact ⟨fun hor => hor.elim (fun h => ⟨.inl h.1, h.2⟩) fun h => ⟨.inr h.1, h.2⟩,
        fun hand => hand.1.elim (fun h => .inl ⟨h, hand.2⟩) fun h => .inr ⟨h, hand.2⟩⟩
  · rw [h'.table u, h.table u, h.srcNodeID]
    by_cases hu : u ∈ new
    · rw [if_pos (List.mem_append_left _ hu), if_neg (hdisjoint u hu), if_pos hu]
    · by_cases hu' : u ∈ new'
      · rw [if_pos (List.mem_append_right _ hu'), if_pos hu']
      · rw [if_neg hu, if_neg hu', if_neg (fun hmem => (List.mem_append.1 hmem).elim hu hu')]
  · have hcount := h.count
    have hcount' := h'.count
    rw [List.length_append]
    omega

variable (inHolo) in
/-- **The loop claims the neighbours that nobody has claimed**, each once: the second time a
node comes up, the table says whose it is. -/
theorem exists_scanned (h : ∀ v ∈ ids, v < s.viewedTable.length) :
    ∃ s' new, ids.foldlM (Scan.visit inHolo) s = .ok s' ∧ Scanned ids s s' new := by
  induction ids generalizing s with
  | nil =>
    exact ⟨s, [], rfl, (List.append_nil _).symm, List.nodup_nil, by simp, by simp, rfl, rfl, rfl,
      rfl⟩
  | cons v ids ih =>
    obtain ⟨s₁, new₁, hvisit, h₁⟩ := s.visit_ok inHolo (h v (List.mem_cons_self ..))
    obtain ⟨s₂, new₂, hfold, h₂⟩ := ih (s := s₁) fun u hu => by
      rw [h₁.length]
      exact h u (List.mem_cons_of_mem _ hu)
    refine ⟨s₂, new₁ ++ new₂, ?_, h₁.trans h₂⟩
    rw [List.foldlM_cons, hvisit]
    exact hfold

/-- **A neighbour without an entry** ends the loop with an access outside of `viewedTable`,
whatever it has claimed before. -/
theorem scan_error (h : ∃ v ∈ ids, s.viewedTable.length ≤ v) :
    ids.foldlM (Scan.visit inHolo) s = .error .outOfRange := by
  induction ids generalizing s with
  | nil =>
    obtain ⟨v, hv, -⟩ := h
    cases hv
  | cons v ids ih =>
    rw [List.foldlM_cons]
    by_cases hv : v < s.viewedTable.length
    · obtain ⟨s₁, new, hvisit, h₁⟩ := s.visit_ok inHolo hv
      obtain ⟨u, hu, hlen⟩ := h
      have hrest : u ∈ ids := (List.mem_cons.1 hu).resolve_left fun heq => by omega
      rw [hvisit]
      exact ih ⟨u, hrest, h₁.length.symm ▸ hlen⟩
    · rw [Scan.visit, List.getElem?_eq_none (Nat.le_of_not_lt hv)]
      rfl

end Partition
end BearRpc
