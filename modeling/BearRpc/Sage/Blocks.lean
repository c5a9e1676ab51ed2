/-
# Sampled blocks and the forward pass over them

`NeighborSampler.sample_blocks` and `DistSAGE.forward` (`python/dist_graphSage.py`).
The graph store is a parameter: `sample_neighbors` gives the edges of a frontier and
`to_block` numbers its nodes from 0 on, the seeds first.  A block keeps what
`dgl.to_block` promises of it as fields, and `Block.frontier` reads the edges back.

`forward_sampleBlocks`: over the blocks of a batch the forward pass computes, for every
seed, rounds of message passing on the nodes of the whole graph, along the edges that
were sampled, and the labels of the batch belong to the rows.  `forward_full`: where
every in-edge is sampled these are the rounds over the whole graph.
-/

import BearRpc.Theory.MessagePassing
import Mathlib.Algebra.Ring.Nat
import Mathlib.Data.List.Chain
import Mathlib.Data.List.Dedup
import Mathlib.Data.List.GetD
import Mathlib.Data.List.Infix
import Mathlib.Data.List.Nodup

namespace BearRpc
namespace Sage

open Theory

/-- An edge, from its source to its destination. -/
abbrev Edge := ℕ × ℕ

/-- A bipartite block, the result of `dgl.to_block`. -/
structure Block where
  /-- `srcdata[dgl.NID]` -/
  srcNID : List ℕ
  /-- `dstdata[dgl.NID]` -/
  dstNID : List ℕ
  /-- the edges, between positions in the two lists -/
  edges : List (ℕ × ℕ)
  nodup : srcNID.Nodup
  dst_prefix : dstNID <+: srcNID
  edges_lt : ∀ e ∈ edges, e.1 < srcNID.length ∧ e.2 < dstNID.length

/-- The edges of a block between the nodes of the graph. -/
def Block.frontier (block : Block) : List Edge :=
  block.edges.map fun e => (block.srcNID.getD e.1 0, block.dstNID.getD e.2 0)

/-- What the program asks of the distributed graph. -/
structure Dgl where
  /-- `sample_neighbors(g, seeds, fanout, replace=True)`, the edges of its result, at the
  call with that number -/
  sampleNeighbors : ℕ → List ℕ → ℤ → List Edge
  /-- `to_block(frontier, seeds)` -/
  toBlock : List Edge → List ℕ → Block

/-- What the documentation of DGL says of the two functions; `edges` are those of the
graph. -/
structure Dgl.Documented (dgl : Dgl) (edges : List Edge) : Prop where
  into_seeds : ∀ k seeds fanout, ∀ e ∈ dgl.sampleNeighbors k seeds fanout, e.2 ∈ seeds
  /-- a fanout of -1 takes all in-edges -/
  all : ∀ k seeds, ∀ v ∈ seeds, sources (dgl.sampleNeighbors k seeds (-1)) v = sources edges v
  dstNID : ∀ frontier seeds, seeds.Nodup → (∀ e ∈ frontier, e.2 ∈ seeds) →
    (dgl.toBlock frontier seeds).dstNID = seeds
  frontier : ∀ frontier seeds, seeds.Nodup → (∀ e ∈ frontier, e.2 ∈ seeds) →
    (dgl.toBlock frontier seeds).frontier = frontier
  /-- there are no nodes besides -/
  srcNID : ∀ frontier seeds, ∀ u ∈ (dgl.toBlock frontier seeds).srcNID,
    u ∈ seeds ∨ u ∈ frontier.map Prod.fst

variable {dgl : Dgl} {graph : List Edge} {α β : Type}

/-! ### Sampling -/

/-- The loop of `sample_blocks` over the fanouts left: each block is inserted in front. -/
def sampleLoop (dgl : Dgl) : ℕ → List ℤ → List ℕ → List Block → List Block
  | _, [], _, blocks => blocks
  | k, fanout :: fanouts, seeds, blocks =>
    let block := dgl.toBlock (dgl.sampleNeighbors k seeds fanout) seeds
    sampleLoop dgl (k + 1) fanouts block.srcNID (block :: blocks)

/-- What `sample_blocks` returns, with the features of `blocks[0]` and the labels of
`blocks[-1]`. -/
structure Batch (α β : Type) where
  blocks : List Block
  /-- `blocks[0].srcdata['features']`, if they were loaded -/
  features : Option (List α)
  /-- `blocks[-1].dstdata['labels']` -/
  labels : List β

/-- `load_subtensor(g, seeds, input_nodes, device, load_feat)`. -/
def loadSubtensor (features : ℕ → α) (labels : ℕ → β) (seeds input_nodes : List ℕ)
    (load_feat : Bool) : Option (List α) × List β :=
  (if load_feat then some (input_nodes.map features) else none, seeds.map labels)

/-- `NeighborSampler.sample_blocks(seeds)`; the indices 0 and -1 fail without a block. -/
def sampleBlocks (dgl : Dgl) (features : ℕ → α) (labels : ℕ → β) (fanouts : List ℤ)
    (load_feat : Bool) (seeds : List ℕ) : Option (Batch α β) := do
  let blocks := sampleLoop dgl 0 fanouts seeds []
  let input_nodes := (← blocks.head?).srcNID
  let seeds := (← blocks.getLast?).dstNID
  let (batch_inputs, batch_labels) := loadSubtensor features labels seeds input_nodes load_feat
  return ⟨blocks, batch_inputs, batch_labels⟩

/-! ### The forward pass -/

/-- A `SAGEConv` layer: the new row of a node from its own and those of its neighbours. -/
abbrev Layer (α : Type) := α → List α → α

/-- `layer(block, (h, h[:block.number_of_dst_nodes()]))`; there is a row for each source node. -/
def Layer.call (layer : Layer α) (block : Block) (h : List α) : Option (List α) :=
  if h.length = block.srcNID.length then
    some ((h.take block.dstNID.length).mapIdx fun j a =>
      layer a (block.edges.filterMap fun e => if e.2 = j then h[e.1]? else none))
  else none

/-- `class DistSAGE`: its layers, `activation`, and what `dropout` does behind a layer to the
row with that number, which is drawn anew in every call. -/
structure DistSAGE (α : Type) where
  layers : List (Layer α)
  activation : α → α
  dropout : ℕ → ℕ → α → α
  training : Bool

/-- `__init__`: the layer for the input, `n_layers - 2` hidden ones and the last. -/
def DistSAGE.init (conv : ℕ → Layer α) (n_layers : ℕ) (activation : α → α)
    (dropout : ℕ → ℕ → α → α) : DistSAGE α :=
  ⟨(List.range (n_layers - 2 + 2)).map conv, activation, dropout, true⟩

/-- `model.eval()`: from now on `dropout` does nothing. -/
def DistSAGE.eval (m : DistSAGE α) : DistSAGE α := { m with training := false }

/-- What follows the layer `l`, on the row with the number `j`: nothing behind the last one. -/
def DistSAGE.finish (m : DistSAGE α) (l j : ℕ) (a : α) : α :=
  if l ≠ m.layers.length - 1 then
    let a := m.activation a
    if m.training then m.dropout l j a else a
  else a

/-- The loop of `forward` over the layers and blocks left. -/
def DistSAGE.forwardLoop (m : DistSAGE α) :
    ℕ → List (Layer α) → List Block → List α → Option (List α)
  | l, layer :: layers, block :: blocks, h => do
    let h ← layer.call block h
    m.forwardLoop (l + 1) layers blocks (h.mapIdx (m.finish l))
  | _, _, _, h => some h

/-- `DistSAGE.forward(blocks, x)`. -/
def DistSAGE.forward (m : DistSAGE α) (blocks : List Block) (x : List α) : Option (List α) :=
  m.forwardLoop 0 m.layers blocks x

/-! ### The same on the nodes of the graph -/

/-- One layer over a block, for the nodes of the graph. -/
def DistSAGE.round (m : DistSAGE α) (l : ℕ) (layer : Layer α) (block : Block) (x : ℕ → α)
    (v : ℕ) : α :=
  m.finish l (block.dstNID.idxOf v) (messageRound layer block.frontier x v)

/-- The layers from `l` on over their blocks. -/
def DistSAGE.rounds (m : DistSAGE α) : ℕ → List (Layer α) → List Block → (ℕ → α) → ℕ → α
  | l, layer :: layers, block :: blocks, x =>
    m.rounds (l + 1) layers blocks (m.round l layer block x)
  | _, _, _, x => x

/-- The rows in front of layer `l` in the evaluation of the whole graph. -/
def DistSAGE.level (m : DistSAGE α) (graph : List Edge) (x : ℕ → α) : ℕ → ℕ → α
  | 0 => x
  | l + 1 => fun v =>
    match m.layers[l]? with
    | some layer => m.finish l 0 (messageRound layer graph (m.level graph x l) v)
    | none => m.level graph x l v

variable {block : Block} {blocks : List Block} {m : DistSAGE α} {layer : Layer α}
  {layers : List (Layer α)} {x : ℕ → α} {fanouts : List ℤ} {seeds : List ℕ} {l k v : ℕ}

/-- Out of training there is no dropout, so it does not matter which layer's draw would be
used. -/
theorem DistSAGE.finish_eval (hm : m.training = false) (l j : ℕ) (a : α) :
    m.finish l j a = m.finish l 0 a := by
  simp [finish, hm]

/-- The nodes a block computes are distinct. -/
theorem Block.nodup_dstNID (block : Block) : block.dstNID.Nodup :=
  block.nodup.sublist block.dst_prefix.sublist

/-- The neighbours of a destination node are rows of the source nodes. -/
theorem Block.rows_eq (block : Block) (x : ℕ → α) {j : ℕ} (hj : j < block.dstNID.length) :
    (block.edges.filterMap fun e => if e.2 = j then (block.srcNID.map x)[e.1]? else none) =
      (sources block.frontier block.dstNID[j]).map x := by
  have hlt := block.edges_lt
  rw [sources, frontier]
  generalize block.edges = es at hlt
  induction es with
  | nil => rfl
  | cons e es ih =>
    obtain ⟨h₁, h₂⟩ := hlt e (List.mem_cons_self ..)
    have hrest := ih fun e' he' => hlt e' (List.mem_cons_of_mem _ he')
    have hdst : block.dstNID.getD e.2 0 = block.dstNID[j] ↔ e.2 = j := by
      rw [List.getD_eq_getElem _ _ h₂, block.nodup_dstNID.getElem_inj_iff]
    by_cases he : e.2 = j
    · rw [List.filterMap_cons_some (b := x block.srcNID[e.1]) (by simp [he, h₁]), hrest]
      simp [he, hj, h₁]
    · rw [List.filterMap_cons_none (by simp [he]), hrest]
      simp only [List.map_cons]
      rw [List.filter_cons_of_neg (by simpa using fun h => he (hdst.1 h))]

/-- **A layer over a block** computes one round for its destination nodes, with the edges of
the block alone. The first source nodes are the destination nodes, so `h_dst` has their
rows. -/
theorem Layer.call_rows (layer : Layer α) (block : Block) (x : ℕ → α) :
    layer.call block (block.srcNID.map x) =
      some (block.dstNID.map (messageRound layer block.frontier x)) := by
  rw [Layer.call, if_pos (List.length_map ..)]
  congr 1
  have htake : (block.srcNID.map x).take block.dstNID.length = block.dstNID.map x := by
    rw [← List.map_take, ← List.prefix_iff_eq_take.1 block.dst_prefix]
  rw [htake]
  refine List.ext_getElem (by simp) fun j hj hj' => ?_
  have hjlt : j < block.dstNID.length := by simpa using hj'
  rw [List.getElem_mapIdx, List.getElem_map, List.getElem_map, block.rows_eq x hjlt, messageRound]

/-- Each block feeds the next one. -/
def Fed (blocks : List Block) : Prop :=
  blocks.IsChain fun b b' => b.dstNID = b'.srcNID

/-- A layer that works on the rows of a block by their position works on them by their node,
as every node has one row. -/
theorem mapIdx_rows (block : Block) (f : ℕ → α) (g : ℕ → α → α) :
    (block.dstNID.map f).mapIdx g = block.dstNID.map fun v => g (block.dstNID.idxOf v) (f v) := by
  refine List.ext_getElem (by simp) fun j hj hj' => ?_
  have hjlt : j < block.dstNID.length := by simpa using hj'
  simp [block.nodup_dstNID.idxOf_getElem j hjlt]

/-- **The forward pass over blocks that feed each other**, one block for each layer: it
returns a row for each destination node of the last block, which comes from as many rounds.
-/
theorem DistSAGE.forwardLoop_rows (hfed : Fed (block :: blocks))
    (hlen : layers.length = (block :: blocks).length) :
    m.forwardLoop l layers (block :: blocks) (block.srcNID.map x) =
      some (((block :: blocks).getLast (List.cons_ne_nil block blocks)).dstNID.map
        (m.rounds l layers (block :: blocks) x)) := by
  induction blocks generalizing block layers x l with
  | nil =>
    obtain ⟨layer, rfl⟩ := List.length_eq_one_iff.1 hlen
    simp only [forwardLoop, layer.call_rows, Option.bind_eq_bind, Option.bind_some, mapIdx_rows,
      rounds, List.getLast_singleton]
    rfl
  | cons next blocks ih =>
    obtain ⟨layer, layers, rfl⟩ := List.exists_cons_of_length_eq_add_one hlen
    obtain ⟨hnext, hfed⟩ := List.isChain_cons_cons.1 hfed
    have hrest := @ih next layers (m.round l layer block x) (l + 1) hfed (Nat.succ.inj hlen)
    rw [List.getLast_cons_cons, rounds, ← hrest, ← hnext]
    simp only [forwardLoop, layer.call_rows, Option.bind_eq_bind, Option.bind_some, mapIdx_rows]
    rfl

/-- All in-edges of its destination nodes are in the block. -/
def Block.Full (graph : List Edge) (block : Block) : Prop :=
  ∀ v ∈ block.dstNID, sources block.frontier v = sources graph v

/-- A node from which a sampled edge comes has a row among the inputs of the block. -/
theorem Block.mem_srcNID (h : v ∈ sources block.frontier k) : v ∈ block.srcNID := by
  obtain ⟨e, he, heq⟩ := List.mem_map.1 (mem_sources.1 h)
  have hlt := (block.edges_lt e he).1
  rw [List.getD_eq_getElem _ _ hlt] at heq
  exact (Prod.mk.inj heq).1 ▸ List.getElem_mem hlt

/-- One round over a block with all in-edges. -/
theorem DistSAGE.round_full (hm : m.training = false) (hfull : block.Full graph)
    (hl : m.layers[l]? = some layer) {y : ℕ → α}
    (hy : ∀ u ∈ block.srcNID, y u = m.level graph x l u) (hv : v ∈ block.dstNID) :
    m.round l layer block y v = m.level graph x (l + 1) v := by
  rw [round, level, hl, finish_eval hm]
  congr 1
  refine messageRound_congr (hfull v hv) (hy v (block.dst_prefix.subset hv)) fun u hu => hy u ?_
  exact block.mem_srcNID hu

/-- **Blocks with all in-edges** evaluate the whole graph: a round over such a block gives
its destination nodes what a round over the graph gives them. -/
theorem DistSAGE.rounds_full (hm : m.training = false)
    (hfull : ∀ b ∈ block :: blocks, b.Full graph) (hfed : Fed (block :: blocks))
    (hlayers : layers = m.layers.drop l) (hlen : layers.length = (block :: blocks).length)
    {y : ℕ → α} (hy : ∀ u ∈ block.srcNID, y u = m.level graph x l u)
    (hv : v ∈ ((block :: blocks).getLast (List.cons_ne_nil block blocks)).dstNID) :
    m.rounds l layers (block :: blocks) y v = m.level graph x (l + layers.length) v := by
  induction blocks generalizing block layers y l with
  | nil =>
    obtain ⟨layer, rfl⟩ := List.length_eq_one_iff.1 hlen
    have hl : m.layers[l]? = some layer := by
      rw [← List.head?_drop, ← hlayers]
      rfl
    exact round_full hm (hfull _ (List.mem_singleton_self _)) hl hy hv
  | cons next blocks ih =>
    obtain ⟨layer, layers, rfl⟩ := List.exists_cons_of_length_eq_add_one hlen
    obtain ⟨hnext, hfed⟩ := List.isChain_cons_cons.1 hfed
    have hl : m.layers[l]? = some layer := by
      rw [← List.head?_drop, ← hlayers]
      rfl
    have hrest : layers = m.layers.drop (l + 1) := by
      rw [← List.tail_drop, ← hlayers]
      rfl
    rw [rounds, List.length_cons, Nat.add_comm layers.length, ← Nat.add_assoc]
    refine ih (fun b hb => hfull b (List.mem_cons_of_mem _ hb)) hfed hrest (Nat.succ.inj hlen)
      (fun u hu => ?_) hv
    exact round_full hm (hfull _ (List.mem_cons_self ..)) hl hy (hnext ▸ hu)

/-! ### The blocks of a batch -/

/-- The blocks of the hops, the one of the seeds first. -/
def hops (dgl : Dgl) : ℕ → List ℤ → List ℕ → List Block
  | _, [], _ => []
  | k, fanout :: fanouts, seeds =>
    let block := dgl.toBlock (dgl.sampleNeighbors k seeds fanout) seeds
    block :: hops dgl (k + 1) fanouts block.srcNID

/-- The loop of `sample_blocks` puts the blocks in front of each other, so they come out in
the reverse order of sampling. -/
theorem sampleLoop_eq (blocks : List Block) :
    sampleLoop dgl k fanouts seeds blocks = (hops dgl k fanouts seeds).reverse ++ blocks := by
  induction fanouts generalizing k seeds blocks with
  | nil => rfl
  | cons fanout fanouts ih => simp [sampleLoop, hops, ih]

/-- There is one hop for each fanout. -/
theorem length_hops : (hops dgl k fanouts seeds).length = fanouts.length := by
  induction fanouts generalizing k seeds with
  | nil => rfl
  | cons fanout fanouts ih => simp [hops, ih]

/-- The block of a hop, of what was sampled for its seeds. -/
theorem getElem?_hops (hd : dgl.Documented graph) (hseeds : seeds.Nodup) {i : ℕ}
    (hi : (hops dgl k fanouts seeds)[i]? = some block) :
    ∃ fanout, fanouts[i]? = some fanout ∧
      block.frontier = dgl.sampleNeighbors (k + i) block.dstNID fanout := by
  induction fanouts generalizing k seeds i with
  | nil => cases hi
  | cons fanout fanouts ih =>
    cases i with
    | zero =>
      have hinto := hd.into_seeds k seeds fanout
      obtain rfl := Option.some.inj hi
      rw [hd.frontier _ _ hseeds hinto, hd.dstNID _ _ hseeds hinto]
      exact ⟨fanout, rfl, rfl⟩
    | succ i =>
      obtain ⟨f, hf, h⟩ := ih (Block.nodup _) hi
      exact ⟨f, hf, by rw [h, Nat.add_assoc, Nat.add_comm 1]⟩

/-- **Every block is fed by the one before**: the nodes that a block computes are those that
the next takes as its inputs. -/
theorem fed_hops (hd : dgl.Documented graph) (hseeds : seeds.Nodup) :
    Fed (hops dgl k fanouts seeds).reverse := by
  refine List.isChain_reverse.2 ?_
  induction fanouts generalizing k seeds with
  | nil => exact .nil
  | cons fanout fanouts ih =>
    refine List.isChain_cons.2 ⟨fun b hb => ?_, ih (Block.nodup _)⟩
    cases fanouts with
    | nil => cases hb
    | cons fanout' fanouts =>
      obtain rfl := Option.some.inj hb
      exact hd.dstNID _ _ (Block.nodup _) (hd.into_seeds _ _ _)

/-- **The forward pass over a sampled batch.**  The labels belong to the rows of the
features, each block holds what was sampled for its destination nodes, and the rows
computed are those of message passing over these edges for the seeds; with all in-edges
and in evaluation mode, over the whole graph. -/
theorem DistSAGE.forward_sampleBlocks {features : ℕ → α} {labels : ℕ → β}
    (hd : dgl.Documented graph) (hseeds : seeds.Nodup) (hne : fanouts ≠ [])
    (hlen : m.layers.length = fanouts.length) :
    ∃ blocks rows,
      sampleBlocks dgl features labels fanouts true seeds =
        some ⟨blocks, some rows, seeds.map labels⟩ ∧
      (∀ i block, blocks.reverse[i]? = some block → ∃ fanout, fanouts[i]? = some fanout ∧
        block.frontier = dgl.sampleNeighbors i block.dstNID fanout) ∧
      m.forward blocks rows = some (seeds.map (m.rounds 0 m.layers blocks features)) ∧
      (m.training = false → (∀ fanout ∈ fanouts, fanout = -1) →
        ∀ v ∈ seeds, m.rounds 0 m.layers blocks features v =
          m.level graph features m.layers.length v) := by
  have hloop : sampleLoop dgl 0 fanouts seeds [] = (hops dgl 0 fanouts seeds).reverse ++ [] :=
    sampleLoop_eq []
  rw [List.append_nil] at hloop
  have hfed : Fed (hops dgl 0 fanouts seeds).reverse := fed_hops hd hseeds
  have hlength : (hops dgl 0 fanouts seeds).reverse.length = fanouts.length := by
    rw [List.length_reverse, length_hops]
  have hlast : ∃ b, (hops dgl 0 fanouts seeds).reverse.getLast? = some b ∧ b.dstNID = seeds := by
    obtain ⟨fanout, fanouts, rfl⟩ := List.exists_cons_of_ne_nil hne
    rw [List.getLast?_reverse]
    exact ⟨_, rfl, hd.dstNID _ _ hseeds (hd.into_seeds _ _ _)⟩
  have hhop : ∀ i b, (hops dgl 0 fanouts seeds).reverse.reverse[i]? = some b →
      ∃ fanout, fanouts[i]? = some fanout ∧
        b.frontier = dgl.sampleNeighbors i b.dstNID fanout := by
    intro i b hi
    rw [List.reverse_reverse] at hi
    simpa using getElem?_hops hd hseeds hi
  rw [sampleBlocks, hloop]
  generalize (hops dgl 0 fanouts seeds).reverse = blocks at hfed hlength hlast hhop
  obtain ⟨b, hb, rfl⟩ := hlast
  cases blocks with
  | nil => cases hb
  | cons block blocks =>
    have hrows := @forwardLoop_rows α block blocks m m.layers features 0 hfed
      (hlen.trans hlength.symm)
    have hget := List.getLast?_eq_some_getLast (List.cons_ne_nil block blocks)
    obtain rfl := Option.some.inj (hb.symm.trans hget)
    refine ⟨block :: blocks, block.srcNID.map features, ?_, hhop, hrows, fun hm hall v hv => ?_⟩
    · simp [loadSubtensor, hb]
    · have hfull : ∀ b ∈ block :: blocks, b.Full graph := by
        intro b hmem v hv
        obtain ⟨i, hi⟩ := List.mem_iff_getElem?.1 (List.mem_reverse.2 hmem)
        obtain ⟨fanout, hf, h⟩ := hhop i b hi
        rw [h, hall fanout (List.mem_of_getElem? hf)]
        exact hd.all i b.dstNID v hv
      have hlevel := rounds_full (x := features) (y := features) hm hfull hfed
        (List.drop_zero).symm (hlen.trans hlength.symm) (fun _ _ => rfl) hv
      rwa [Nat.zero_add] at hlevel

/-! ### A graph held in memory -/

/-- The seeds, and then the other sources of the frontier. -/
def sourceNodes (frontier : List Edge) (seeds : List ℕ) : List ℕ :=
  seeds.dedup ++ (frontier.map Prod.fst).dedup.filter fun u => u ∉ seeds

/-- The next frontier of the sampling has the sources of all edges sampled. -/
theorem mem_sourceNodes {frontier : List Edge} {e : Edge} (he : e ∈ frontier) :
    e.1 ∈ sourceNodes frontier seeds := by
  by_cases hu : e.1 ∈ seeds
  · exact List.mem_append_left _ (List.mem_dedup.2 hu)
  · refine List.mem_append_right _ (List.mem_filter.2 ⟨?_, by simpa using hu⟩)
    exact List.mem_dedup.2 (List.mem_map_of_mem he)

/-- The frontier with its nodes numbered. -/
def compact (frontier : List Edge) (seeds : List ℕ) : Block where
  srcNID := sourceNodes frontier seeds
  dstNID := seeds.dedup
  edges := (frontier.filter fun e => e.2 ∈ seeds).map fun e =>
    ((sourceNodes frontier seeds).idxOf e.1, seeds.dedup.idxOf e.2)
  nodup := by
    refine List.nodup_append'.2 ⟨List.nodup_dedup _, (List.nodup_dedup _).filter _, ?_⟩
    intro u hu hu'
    rw [List.mem_filter, decide_eq_true_iff] at hu'
    exact hu'.2 (List.mem_dedup.1 hu)
  dst_prefix := List.prefix_append ..
  edges_lt := by
    intro _ h
    obtain ⟨e, he, rfl⟩ := List.mem_map.1 h
    rw [List.mem_filter, decide_eq_true_iff] at he
    exact ⟨List.idxOf_lt_length_iff.2 (mem_sourceNodes he.1),
      List.idxOf_lt_length_iff.2 (List.mem_dedup.2 he.2)⟩

/-- Looking up a node by its position in a list that has it gives the node back. -/
theorem getD_idxOf {us : List ℕ} {u : ℕ} (h : u ∈ us) : us.getD (us.idxOf u) 0 = u := by
  have hlt := List.idxOf_lt_length_iff.2 h
  rw [List.getD_eq_getElem _ _ hlt, List.getElem_idxOf hlt]

/-- The in-edges of each seed in turn, as many as asked for. -/
def drawn (edges : List Edge) (seeds : List ℕ) (fanout : ℤ) : List Edge :=
  if fanout = -1 then edges.filter fun e => e.2 ∈ seeds
  else seeds.flatMap fun v =>
    let into := edges.filter fun e => e.2 = v
    (List.range fanout.toNat).filterMap fun i => into[i % into.length]?

/-- A graph held in memory. -/
def Dgl.ofEdges (edges : List Edge) : Dgl := ⟨fun _ => drawn edges, compact⟩

/-- The sampling that takes all edges into a node behaves as the documentation of DGL says.
-/
theorem documented_ofEdges (edges : List Edge) : (Dgl.ofEdges edges).Documented edges where
  into_seeds := by
    intro k seeds fanout e he
    simp only [Dgl.ofEdges, drawn] at he
    split at he
    · exact of_decide_eq_true (List.mem_filter.1 he).2
    · obtain ⟨v, hv, he⟩ := List.mem_flatMap.1 he
      obtain ⟨i, -, hi⟩ := List.mem_filterMap.1 he
      have hmem := List.mem_filter.1 (List.mem_of_getElem? hi)
      exact of_decide_eq_true hmem.2 ▸ hv
  all := by
    intro k seeds v hv
    simp only [Dgl.ofEdges, drawn, if_pos, sources, List.filter_filter]
    congr 1
    refine List.filter_congr fun e _ => ?_
    by_cases he : e.2 = v
    · simp [he, hv]
    · simp [he]
  dstNID := fun _ _ hseeds _ => hseeds.dedup
  frontier := by
    intro frontier seeds hseeds hinto
    have hfilter : (frontier.filter fun e => e.2 ∈ seeds) = frontier :=
      List.filter_eq_self.2 fun e he => decide_eq_true (hinto e he)
    simp only [Dgl.ofEdges, Block.frontier, compact, hfilter, List.map_map]
    refine (List.map_congr_left fun e he => ?_).trans (List.map_id _)
    exact Prod.ext (getD_idxOf (mem_sourceNodes he))
      (getD_idxOf (List.mem_dedup.2 (hinto e he)))
  srcNID := by
    intro frontier seeds u hu
    refine (List.mem_append.1 hu).imp List.mem_dedup.1 fun h => ?_
    exact List.mem_dedup.1 (List.mem_filter.1 h).1

/-- Two layers that add up the rows. -/
def summing : DistSAGE ℕ := (DistSAGE.init (fun _ a as => a + as.sum) 2 id fun _ _ a => a).eval

/-- Two hops on the path `2 → 1 → 0`. -/
theorem forward_sampleBlocks_path :
    ∃ (blocks : List Block) (rows : List ℕ),
      sampleBlocks (Dgl.ofEdges [(1, 0), (2, 1)]) (fun v => 10 ^ v) (fun v => v) [-1, 1] true [0] =
        some ⟨blocks, some rows, [0]⟩ ∧
      (∀ (i : ℕ) (block : Block), blocks.reverse[i]? = some block →
        ∃ fanout, [(-1 : ℤ), 1][i]? = some fanout ∧
          block.frontier = drawn [(1, 0), (2, 1)] block.dstNID fanout) ∧
      summing.forward blocks rows =
        some [summing.rounds 0 summing.layers blocks (fun v => 10 ^ v) 0] ∧
      (summing.training = false → (∀ fanout ∈ [(-1 : ℤ), 1], fanout = -1) →
        ∀ v ∈ [0], summing.rounds 0 summing.layers blocks (fun v => 10 ^ v) v =
          summing.level [(1, 0), (2, 1)] (fun v => 10 ^ v) summing.layers.length v) :=
  DistSAGE.forward_sampleBlocks (documented_ofEdges _) (List.nodup_singleton _)
    (List.cons_ne_nil _ _) rfl

example : (sampleBlocks (Dgl.ofEdges [(1, 0), (2, 1)]) (fun v => 10 ^ v) (fun v => v) [-1, -1] true
    [0]).bind (fun batch => batch.features.bind (summing.forward batch.blocks)) =
      some [1 + 10 + (10 + 100)] := by decide

end Sage
end BearRpc
