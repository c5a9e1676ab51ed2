/-
# Inference by several trainers, layer by layer

`DistSAGE.inference` (`python/dist_graphSage.py`), called by every trainer in `evaluate`.
A trainer fetches the rows of a batch from `x`, writes what the layer makes of them into
`y`, and meets the others at `g.barrier()` before `x = y`.  Rows are fetched and written
one at a time, between any steps of the other trainers.

`node_split` takes a mask, and it gets `np.arange(g.number_of_nodes())`: node 0 is in no
share (`mem_nonzero1d_arange`).  Its rows are never written, and the second layer reads what
`'h'` had there before the call (`Evaluation.level`).

`x` and `y` are names: the tensor `'h'` is made once, in front of the loop, and from the
third layer on a trainer reads the tensor that it and the others are writing.  With two
layers, or where no batch has an edge from another one, what is left in `'h_last'` is the
evaluation of the graph with that row of node 0 (`inference_exact`), for every order of the
steps.
-/

import BearRpc.Sage.Blocks
import BearRpc.Theory.Barrier
import BearRpc.Theory.Transition
import Mathlib.Algebra.Order.BigOperators.Group.Finset
import Mathlib.Data.List.Perm.Subperm

namespace BearRpc
namespace Sage

open Theory Function

/-- The tensors of the store. -/
inductive Name where
  | features
  /-- `DistTensor(.., 'h')` -/
  | h
  /-- `DistTensor(.., 'h_last')` -/
  | h_last
  deriving DecidableEq, Repr

/-- Where a trainer is in the body of the loop over the layers. -/
inductive Phase (α : Type) where
  /-- at the head of the loop over the dataloader, with the batches to come -/
  | loading (batches : List (List ℕ))
  /-- in `h = x[input_nodes]`, with the rows fetched and the nodes to come -/
  | gathering (block : Block) (rows : List α) (todo : List ℕ) (batches : List (List ℕ))
  /-- in `y[output_nodes] = h.cpu()`, with the rows to come -/
  | scattering (rows : List (ℕ × α)) (batches : List (List ℕ))
  /-- in `g.barrier()` -/
  | waiting
  | returned

/-- A trainer, with its `l`, `x` and `y`. -/
structure Trainer (α : Type) where
  l : ℕ
  x : Name
  y : Name
  phase : Phase α

/-- The store and the trainers. -/
structure State (τ α : Type) where
  tensor : Name → ℕ → α
  trainer : τ → Trainer α

/-- A call of `inference` on every trainer. -/
structure Evaluation (τ α : Type) where
  model : DistSAGE α
  dgl : Dgl
  graph : List Edge
  /-- `g.number_of_nodes()` -/
  number_of_nodes : ℕ
  /-- the argument `x` -/
  features : ℕ → α
  /-- what an earlier evaluation left in the tensors; zeros if they are new -/
  h : ℕ → α
  h_last : ℕ → α
  /-- `nodes`, what `node_split` gives to the trainer -/
  nodes : τ → List ℕ
  batch_size : ℕ

variable {τ α : Type} {e : Evaluation τ α} {s s' : State τ α} {t : τ}

namespace Evaluation

/-- The batches of the dataloader, in slices of `batch_size`. -/
def batches (e : Evaluation τ α) (t : τ) : List (List ℕ) :=
  (List.range (((e.nodes t).length + e.batch_size - 1) / e.batch_size)).map fun i =>
    ((e.nodes t).drop (i * e.batch_size)).take e.batch_size

/-- The head of the loop over the layers. -/
def enter (e : Evaluation τ α) (t : τ) (l : ℕ) (x y : Name) : Trainer α :=
  ⟨l, x, if l = e.model.layers.length - 1 then .h_last else y, .loading (e.batches t)⟩

/-- In front of the loop. -/
def start (e : Evaluation τ α) : State τ α where
  tensor
    | .features => e.features
    | .h => e.h
    | .h_last => e.h_last
  trainer := fun t => e.enter t 0 .features .h

end Evaluation

/-- How many barriers a trainer has reached and passed. -/
def Trainer.clock (p : Trainer α) : ℕ :=
  match p.phase with
  | .waiting => 2 * p.l + 1
  | .returned => 2 * p.l + 2
  | _ => 2 * p.l

section Steps

variable [DecidableEq τ]

/-- The trainer goes on to the next phase. -/
def State.move (s : State τ α) (t : τ) (phase : Phase α) : State τ α :=
  { s with trainer := update s.trainer t { s.trainer t with phase := phase } }

/-- A row of a tensor is written. -/
def State.write (s : State τ α) (name : Name) (v : ℕ) (a : α) : State τ α :=
  { s with tensor := update s.tensor name (update (s.tensor name) v a) }

/-- What trainer `t` does next. -/
inductive Evaluation.Step (e : Evaluation τ α) : State τ α → τ → State τ α → Prop
  /-- the dataloader hands out one of the batches left, with its block -/
  | load {s : State τ α} {t : τ} {before b after k block}
      (h : (s.trainer t).phase = .loading (before ++ b :: after))
      (hblock : sampleLoop e.dgl k [-1] b [] = [block]) :
      e.Step s t (s.move t (.gathering block [] block.srcNID (before ++ after)))
  | gather {s : State τ α} {t : τ} {block rows u todo left}
      (h : (s.trainer t).phase = .gathering block rows (u :: todo) left) :
      e.Step s t
        (s.move t (.gathering block (rows ++ [s.tensor (s.trainer t).x u]) todo left))
  /-- `h = layer(block, (h, h_dst))`, and the activation -/
  | compute {s : State τ α} {t : τ} {block rows left layer out}
      (h : (s.trainer t).phase = .gathering block rows [] left)
      (hlayer : e.model.layers[(s.trainer t).l]? = some layer)
      (hout : layer.call block rows = some out) :
      e.Step s t (s.move t (.scattering
        (block.dstNID.zip (out.mapIdx (e.model.finish (s.trainer t).l))) left))
  | scatter {s : State τ α} {t : τ} {v a rows left}
      (h : (s.trainer t).phase = .scattering ((v, a) :: rows) left) :
      e.Step s t ((s.move t (.scattering rows left)).write (s.trainer t).y v a)
  | stored {s : State τ α} {t : τ} {left} (h : (s.trainer t).phase = .scattering [] left) :
      e.Step s t (s.move t (.loading left))
  /-- `x = y`, and on to the barrier -/
  | arrive {s : State τ α} {t : τ} (h : (s.trainer t).phase = .loading []) :
      e.Step s t { s with
        trainer := update s.trainer t
          { s.trainer t with x := (s.trainer t).y, phase := .waiting } }
  /-- the others have come to this barrier too -/
  | pass {s : State τ α} {t : τ} (h : (s.trainer t).phase = .waiting)
      (hall : ∀ u, (s.trainer t).clock ≤ (s.trainer u).clock) :
      e.Step s t { s with
        trainer := update s.trainer t
          (if (s.trainer t).l + 1 < e.model.layers.length then
            e.enter t ((s.trainer t).l + 1) (s.trainer t).x (s.trainer t).y
          else { s.trainer t with phase := .returned }) }

end Steps

/-! ### What holds between two steps -/

/-- `F.nonzero_1d`, the positions that a mask selects. -/
def nonzero1d (mask : List ℕ) : List ℕ :=
  (List.range mask.length).filter fun i => mask.getD i 0 ≠ 0

/-- **`np.arange` as a mask** leaves node 0 out: the entries are taken for truth values, and
the only entry that is 0 is the first one. -/
theorem mem_nonzero1d_arange {n v : ℕ} : v ∈ nonzero1d (List.range n) ↔ 0 < v ∧ v < n := by
  rw [nonzero1d, List.mem_filter, List.length_range, List.mem_range, and_comm,
    decide_eq_true_iff]
  refine and_congr_left fun hlt => ?_
  rw [List.getD_eq_getElem _ _ (by rwa [List.length_range]), List.getElem_range,
    Nat.pos_iff_ne_zero]

/-- The rows in front of layer `l`: those of the evaluation of the whole graph, but for node 0,
which keeps the row of `'h'`. -/
def Evaluation.level (e : Evaluation τ α) : ℕ → ℕ → α
  | 0 => e.features
  | l + 1 => fun v =>
    if v = 0 then e.h v
    else
      match e.model.layers[l]? with
      | some layer => e.model.finish l 0 (messageRound layer e.graph (e.level l) v)
      | none => e.level l v

/-- What `node_split` promises: every node that its mask selects is in the share of one
trainer. -/
structure Evaluation.Split (e : Evaluation τ α) : Prop where
  nodup : ∀ t, (e.nodes t).Nodup
  disjoint : ∀ t u v, v ∈ e.nodes t → v ∈ e.nodes u → t = u
  covers : ∀ v, (∃ t, v ∈ e.nodes t) ↔ v ∈ nonzero1d (List.range e.number_of_nodes)

/-- The edges are between nodes. -/
def Evaluation.Graph (e : Evaluation τ α) : Prop :=
  ∀ edge ∈ e.graph, edge.1 < e.number_of_nodes

/-- No batch has an edge from outside, except from node 0. -/
def Evaluation.Closed (e : Evaluation τ α) : Prop :=
  ∀ t, ∀ b ∈ e.batches t, ∀ v ∈ b, ∀ u ∈ sources e.graph v, u = 0 ∨ u ∈ b

/-- The tensor with the rows in front of layer `l`. -/
def Evaluation.tensorAt (e : Evaluation τ α) (l : ℕ) : Name :=
  if l = 0 then .features else if l = e.model.layers.length then .h_last else .h

/-- The nodes whose rows are not written yet. -/
def Phase.left : Phase α → List ℕ
  | .loading batches => batches.flatten
  | .gathering block _ _ batches => block.dstNID ++ batches.flatten
  | .scattering rows batches => rows.map Prod.fst ++ batches.flatten
  | .waiting | .returned => []

/-- The batches not handed out yet. -/
def Phase.batches : Phase α → List (List ℕ)
  | .loading batches | .gathering _ _ _ batches | .scattering _ batches => batches
  | .waiting | .returned => []

/-- The body of the loop is not over. -/
def Phase.AtWork : Phase α → Prop
  | .waiting | .returned => False
  | _ => True

/-- The level of the row of a node of the trainer: how many layers it has been through. -/
def Trainer.level (p : Trainer α) (v : ℕ) : ℕ :=
  if v ∈ p.phase.left then p.l else p.l + 1

/-- What a trainer has in hand is what the evaluation of the whole graph has. -/
def Evaluation.Holds (e : Evaluation τ α) (t : τ) (l : ℕ) : Phase α → Prop
  | .loading _ | .waiting => True
  | .gathering block rows todo _ =>
    block.dstNID ∈ e.batches t ∧ block.Full e.graph ∧
      (∀ u ∈ block.srcNID, u ∈ block.dstNID ∨ ∃ v ∈ block.dstNID, u ∈ sources e.graph v) ∧
      ∃ fetched, block.srcNID = fetched ++ todo ∧ rows = fetched.map (e.level l)
  | .scattering rows _ => ∀ r ∈ rows, r.2 = e.level (l + 1) r.1
  | .returned => l + 1 = e.model.layers.length

/-- The state of a trainer between two steps. -/
structure Evaluation.Sound (e : Evaluation τ α) (t : τ) (p : Trainer α) : Prop where
  lt : p.l < e.model.layers.length
  x_atWork : p.phase.AtWork → p.x = e.tensorAt p.l
  x_done : ¬ p.phase.AtWork → p.x = e.tensorAt (p.l + 1)
  y : p.y = e.tensorAt (p.l + 1)
  nodup : p.phase.left.Nodup
  mem : ∀ v ∈ p.phase.left, v ∈ e.nodes t
  batches : ∀ b ∈ p.phase.batches, b ∈ e.batches t
  holds : e.Holds t p.l p.phase

/-- The rows of a node that has been through `n` layers: `'h'` keeps the one in front of the
last layer. -/
structure Evaluation.Stored (e : Evaluation τ α) (tensor : Name → ℕ → α) (n v : ℕ) : Prop where
  h : 1 ≤ n → tensor .h v = e.level (min n (e.model.layers.length - 1)) v
  h_last : n = e.model.layers.length → tensor .h_last v = e.level n v

/-- What holds between two steps. -/
structure Evaluation.Inv (e : Evaluation τ α) (s : State τ α) : Prop where
  abreast : Abreast fun t => (s.trainer t).clock
  sound : ∀ t, e.Sound t (s.trainer t)
  features : s.tensor .features = e.features
  stored : ∀ t, ∀ v ∈ e.nodes t, e.Stored s.tensor ((s.trainer t).level v) v
  unshared : ∀ v, (∀ t, v ∉ e.nodes t) → s.tensor .h v = e.h v ∧ s.tensor .h_last v = e.h_last v

/-! ### The shares -/

/-- Node 0 is in no share. -/
theorem Evaluation.Split.zero_notMem (hs : e.Split) (t : τ) : 0 ∉ e.nodes t := fun h =>
  absurd (mem_nonzero1d_arange.1 ((hs.covers 0).1 ⟨t, h⟩)).1 (Nat.lt_irrefl 0)

/-- The source of an edge is in a share, unless it is node 0. -/
theorem Evaluation.Split.source (hs : e.Split) (hg : e.Graph) {u v : ℕ}
    (h : u ∈ sources e.graph v) : u = 0 ∨ ∃ t, u ∈ e.nodes t := by
  refine or_iff_not_imp_left.2 fun hu => (hs.covers u).2 (mem_nonzero1d_arange.2 ⟨?_, ?_⟩)
  · exact Nat.pos_of_ne_zero hu
  · exact hg (u, v) (mem_sources.1 h)

/-- Node 0, which the mask of `node_split` leaves out, keeps what the tensor held at the
beginning. -/
theorem Evaluation.level_zero (l : ℕ) : e.level (l + 1) 0 = e.h 0 := rfl

/-- Every other node has what the layer computes from the level below, those of its
neighbours that are node 0 included. -/
theorem Evaluation.level_succ {l v : ℕ} {layer : Layer α}
    (hl : e.model.layers[l]? = some layer) (hv : v ≠ 0) :
    e.level (l + 1) v = e.model.finish l 0 (messageRound layer e.graph (e.level l) v) := by
  refine (if_neg hv).trans ?_
  rw [hl]

/-- **Where node 0 has no edge out**, the other rows are those of the whole graph: none of
them is computed from the row that is missing. -/
theorem Evaluation.level_eq (h : ∀ edge ∈ e.graph, edge.1 ≠ 0) (l : ℕ) {v : ℕ} (hv : v ≠ 0) :
    e.level l v = e.model.level e.graph e.features l v := by
  induction l generalizing v with
  | zero => rfl
  | succ l ih =>
    cases hlayer : e.model.layers[l]? with
    | some layer =>
      rw [level_succ hlayer hv, DistSAGE.level, hlayer]
      congr 1
      exact messageRound_congr rfl (ih hv) fun u hu => ih (h (u, v) (mem_sources.1 hu))
    | none =>
      rw [DistSAGE.level, hlayer]
      refine (if_neg hv).trans ?_
      rw [hlayer]
      exact ih hv

/-- One round over a block with all in-edges. -/
theorem Evaluation.round_full (hm : e.model.training = false) {block : Block}
    (hfull : block.Full e.graph) {l : ℕ} {layer : Layer α} (hl : e.model.layers[l]? = some layer)
    {v : ℕ} (hv : v ∈ block.dstNID) (hpos : v ≠ 0) :
    e.model.round l layer block (e.level l) v = e.level (l + 1) v := by
  rw [DistSAGE.round, level_succ hl hpos, DistSAGE.finish_eval hm]
  congr 1
  exact messageRound_congr (hfull v hv) rfl fun _ _ => rfl

/-! ### The dataloader -/

/-- The batches of a list, one after the other, are the list again, as far as they reach. -/
theorem flatten_slices (vs : List ℕ) (size n : ℕ) :
    ((List.range n).map fun i => (vs.drop (i * size)).take size).flatten = vs.take (n * size) := by
  induction n with
  | zero => simp
  | succ n ih =>
    rw [List.range_succ, List.map_append, List.flatten_append, ih, Nat.succ_mul, List.take_add]
    simp

/-- The batches of a trainer are its nodes. -/
theorem Evaluation.flatten_batches (e : Evaluation τ α) (t : τ) (h : 0 < e.batch_size) :
    (e.batches t).flatten = e.nodes t := by
  rw [batches, flatten_slices]
  refine List.take_of_length_le ?_
  have := Nat.lt_mul_div_succ ((e.nodes t).length + e.batch_size - 1) h
  rw [Nat.mul_comm, Nat.add_mul] at this
  omega

/-! ### What one step does -/

/-- Between the barriers of a layer, the clock of a trainer is even and tells the layer. -/
theorem Trainer.clock_of_atWork {p : Trainer α} (h : p.phase.AtWork) : p.clock = 2 * p.l := by
  rw [clock]
  cases hp : p.phase <;> first | rfl | (rw [hp] at h; cases h)

/-- Behind its last batch, it is one or two further. -/
theorem Trainer.clock_of_done {p : Trainer α} (h : ¬ p.phase.AtWork) :
    2 * p.l + 1 ≤ p.clock ∧ p.clock ≤ 2 * p.l + 2 := by
  rw [clock]
  cases hp : p.phase <;> dsimp only <;> first | omega | (rw [hp] at h; exact absurd trivial h)

/-- A trainer that has done its batches has written all its rows of the layer. -/
theorem Trainer.level_of_done {p : Trainer α} (h : ¬ p.phase.AtWork) (v : ℕ) :
    p.level v = p.l + 1 := by
  rw [level, if_neg]
  cases hp : p.phase <;> first | exact List.not_mem_nil | (rw [hp] at h; exact absurd trivial h)

/-- **The rows of a trainer are no further than its clock**, and no more than two ticks
behind. With the barrier, which keeps the clocks abreast, this bounds how far the rows of
two trainers can be apart. -/
theorem Trainer.clock_le (p : Trainer α) (v : ℕ) :
    p.clock ≤ 2 * p.level v ∧ 2 * p.level v ≤ p.clock + 2 := by
  by_cases h : p.phase.AtWork
  · have hc := clock_of_atWork h
    rw [level]
    split_ifs <;> omega
  · have hc := clock_of_done h
    have hl := level_of_done h v
    omega

variable {l n v u : ℕ} {a : α} {name : Name}

/-- Behind the first layer, the rows are no longer in the tensor of the features. -/
theorem Evaluation.tensorAt_features (hl : 0 < l) : e.tensorAt l ≠ .features := by
  rw [tensorAt, if_neg hl.ne']
  split_ifs <;> simp

/-- **What a trainer at work reads** from its `x` is the row of the level below its own,
with two layers of any node, and with more of those whose rows it has not overwritten yet.
-/
theorem Evaluation.Inv.read (hi : e.Inv s) (hs : e.Split) (ht : (s.trainer t).phase.AtWork)
    (hu : u = 0 ∨ ∃ w, u ∈ e.nodes w)
    (hsafe : e.model.layers.length = 2 ∨ u = 0 ∨ u ∈ (s.trainer t).phase.left) :
    s.tensor (s.trainer t).x u = e.level (s.trainer t).l u := by
  have hok := hi.sound t
  rcases hu with rfl | ⟨w, hw⟩
  · -- nobody writes this row
    have hlt := hok.lt
    rw [hok.x_atWork ht, tensorAt]
    split_ifs with h₀ h₁
    · rw [h₀, hi.features]
      rfl
    · omega
    · obtain ⟨l, hl⟩ := Nat.exists_eq_succ_of_ne_zero h₀
      rw [(hi.unshared 0 hs.zero_notMem).1, hl, level_zero]
  have hnear := hi.abreast.near (Trainer.clock_of_atWork ht) w
  have hclock := (s.trainer w).clock_le u
  have hstored := hi.stored w u hw
  have hlt := hok.lt
  rw [hok.x_atWork ht, tensorAt]
  split_ifs with h₀ h₁
  · rw [h₀, hi.features]
    rfl
  · omega
  · rw [hstored.h (by omega)]
    congr 1
    rcases hsafe with h₂ | rfl | hleft
    · omega
    · exact absurd hw (hs.zero_notMem w)
    · obtain rfl := hs.disjoint w t u hw (hok.mem u hleft)
      rw [Trainer.level, if_pos hleft]
      omega

/-- The block of a batch. -/
theorem sampleLoop_single (hd : e.dgl.Documented e.graph) {b : List ℕ} (hb : b.Nodup) {k : ℕ}
    {block : Block} (h : sampleLoop e.dgl k [-1] b [] = [block]) :
    block.dstNID = b ∧ block.Full e.graph ∧
      ∀ u ∈ block.srcNID, u ∈ block.dstNID ∨ ∃ v ∈ block.dstNID, u ∈ sources e.graph v := by
  obtain rfl := List.singleton_inj.1 h
  have hinto := hd.into_seeds k b (-1)
  have hdst := hd.dstNID _ b hb hinto
  refine ⟨hdst, fun v hv => ?_, fun u hu => ?_⟩
  · rw [hd.frontier _ b hb hinto]
    exact hd.all k b v (hdst ▸ hv)
  · rw [hdst]
    refine (hd.srcNID _ b u hu).imp_right fun h => ?_
    obtain ⟨edge, hedge, rfl⟩ := List.mem_map.1 h
    have hv := hinto edge hedge
    refine ⟨edge.2, hv, ?_⟩
    rw [← hd.all k b edge.2 hv]
    exact mem_sources.2 hedge

/-- A phase of the same round, with nodes that had rows to write. -/
theorem Evaluation.Sound.move {p : Trainer α} (hp : e.Sound t p) {phase : Phase α}
    (ht : p.phase.AtWork) (ht' : phase.AtWork) (hnodup : phase.left.Nodup)
    (hleft : phase.left ⊆ p.phase.left) (hbatches : ∀ b ∈ phase.batches, b ∈ e.batches t)
    (hholds : e.Holds t p.l phase) : e.Sound t { p with phase := phase } :=
  ⟨hp.lt, fun _ => hp.x_atWork ht, fun h => absurd ht' h, hp.y, hnodup,
    fun v hv => hp.mem v (hleft hv), hbatches, hholds⟩

/-- Between two barriers, the clock does not move. -/
theorem Trainer.clock_move {p : Trainer α} {phase : Phase α} (ht : p.phase.AtWork)
    (ht' : phase.AtWork) : ({ p with phase := phase } : Trainer α).clock = p.clock := by
  rw [clock_of_atWork ht]
  exact clock_of_atWork (p := { p with phase := phase }) ht'

/-- Whether a row is stored as it should be depends on that row of the two tensors alone. -/
theorem Evaluation.Stored.congr {tensor tensor' : Name → ℕ → α} (h : e.Stored tensor n v)
    (hh : tensor' .h v = tensor .h v) (hlast : tensor' .h_last v = tensor .h_last v) :
    e.Stored tensor' n v :=
  ⟨fun hn => hh.trans (h.h hn), fun hn => hlast.trans (h.h_last hn)⟩

/-- A row that was written holds what was written. -/
theorem State.write_self : (s.write name v a).tensor name v = a := by
  simp [write]

/-- Writing a row of one tensor leaves the rows of the other tensors as they were. -/
theorem State.write_of_name_ne {name' : Name} (h : name' ≠ name) :
    (s.write name v a).tensor name' u = s.tensor name' u := by
  simp [write, h]

/-- Writing a row leaves the other rows as they were, in every tensor. -/
theorem State.write_of_ne {name' : Name} (h : u ≠ v) :
    (s.write name v a).tensor name' u = s.tensor name' u := by
  rcases eq_or_ne name' name with rfl | hne
  · simp [write, h]
  · exact write_of_name_ne hne

/-- A row has been through one more layer. -/
theorem Evaluation.Stored.next (hL : 2 ≤ e.model.layers.length) (hl : l < e.model.layers.length)
    (h : e.Stored s.tensor l v) :
    e.Stored (s.write (e.tensorAt (l + 1)) v (e.level (l + 1) v)).tensor (l + 1) v := by
  have hname : e.tensorAt (l + 1) = if l + 1 = e.model.layers.length then .h_last else .h :=
    if_neg (Nat.succ_ne_zero l)
  rw [hname]
  split_ifs with hlast
  · refine ⟨fun _ => ?_, fun _ => State.write_self⟩
    rw [State.write_of_name_ne (by simp), h.h (by omega)]
    congr 1
    omega
  · refine ⟨fun _ => ?_, fun hn => absurd hn hlast⟩
    rw [State.write_self]
    congr 1
    omega

/-- A trainer at the head of the loop. -/
theorem Evaluation.sound_enter (hs : e.Split) (hsize : 0 < e.batch_size)
    (hl : l < e.model.layers.length) {x y : Name} (hx : x = e.tensorAt l) (hy : y = .h) :
    e.Sound t (e.enter t l x y) := by
  have hflat := e.flatten_batches t hsize
  refine ⟨hl, fun _ => hx, fun h => absurd trivial h, ?_, ?_, ?_, fun b hb => hb, trivial⟩
  · simp only [enter, tensorAt, if_neg (Nat.succ_ne_zero l), hy]
    exact if_congr (by omega) rfl rfl
  · exact (congrArg List.Nodup hflat).mpr (hs.nodup t)
  · exact fun v hv => hflat ▸ hv

/-- A trainer that enters a layer has not yet written any of its rows. -/
theorem Evaluation.level_enter (hsize : 0 < e.batch_size) {x y : Name} (hv : v ∈ e.nodes t) :
    (e.enter t l x y).level v = l :=
  if_pos (show v ∈ (e.batches t).flatten from e.flatten_batches t hsize ▸ hv)

variable [DecidableEq τ]

/-- The clocks, when one trainer has moved on. -/
theorem Evaluation.Inv.abreast_update (hi : e.Inv s) {p : Trainer α}
    (hclock : p.clock = (s.trainer t).clock ∨ p.clock = (s.trainer t).clock + 1 ∧
      ((s.trainer t).clock % 2 = 0 ∨ ∀ u, (s.trainer t).clock ≤ (s.trainer u).clock)) :
    Abreast fun u => (update s.trainer t p u).clock := by
  have heq : (fun u => (update s.trainer t p u).clock) =
      update (fun u => (s.trainer u).clock) t p.clock :=
    funext fun u => Function.apply_update (fun _ q => Trainer.clock q) s.trainer t p u
  rw [heq]
  rcases hclock with h | ⟨h, heven | hall⟩ <;> rw [h]
  · rw [update_eq_self]
    exact hi.abreast
  · exact hi.abreast.arrive heven
  · exact hi.abreast.pass hall

/-- What one trainer does leaves the invariants of the others as they were. -/
theorem Evaluation.Inv.sound_update (hi : e.Inv s) {p : Trainer α} (hp : e.Sound t p) (u : τ) :
    e.Sound u (update s.trainer t p u) := by
  rcases eq_or_ne u t with rfl | hu
  · rwa [update_self]
  · rw [update_of_ne hu]
    exact hi.sound u

/-- A trainer has moved on, and its nodes are at the levels they were. -/
theorem Evaluation.Inv.keep (hi : e.Inv s) {p : Trainer α}
    (hclock : p.clock = (s.trainer t).clock ∨ p.clock = (s.trainer t).clock + 1 ∧
      ((s.trainer t).clock % 2 = 0 ∨ ∀ u, (s.trainer t).clock ≤ (s.trainer u).clock))
    (hp : e.Sound t p) (hlevel : ∀ v ∈ e.nodes t, p.level v = (s.trainer t).level v) :
    e.Inv { s with trainer := update s.trainer t p } := by
  refine ⟨hi.abreast_update hclock, hi.sound_update hp, hi.features, fun u v hv => ?_,
    hi.unshared⟩
  dsimp only
  rcases eq_or_ne u t with rfl | hu
  · rw [update_self, hlevel v hv]
    exact hi.stored u v hv
  · rw [update_of_ne hu]
    exact hi.stored u v hv

/-- A phase of the same round, with the same rows to write. -/
theorem Evaluation.Inv.move (hi : e.Inv s) {phase : Phase α}
    (ht : (s.trainer t).phase.AtWork) (ht' : phase.AtWork)
    (hleft : phase.left.Perm (s.trainer t).phase.left)
    (hbatches : ∀ b ∈ phase.batches, b ∈ e.batches t)
    (hholds : e.Holds t (s.trainer t).l phase) : e.Inv (s.move t phase) := by
  have hok := hi.sound t
  refine hi.keep (.inl (Trainer.clock_move ht ht')) (hok.move ht ht'
    (hleft.nodup_iff.2 hok.nodup) hleft.subset hbatches hholds) fun v _ => ?_
  simp only [Trainer.level, hleft.mem_iff]

/-- **A row is written.** It is the row of the next level of a node of this trainer, and the
rows of all other nodes stay as they are, in each of the tensors. -/
theorem Evaluation.Inv.scatter (hi : e.Inv s) (hs : e.Split)
    (hL : 2 ≤ e.model.layers.length) {rows : List (ℕ × α)} {left : List (List ℕ)}
    (h : (s.trainer t).phase = .scattering ((v, a) :: rows) left) :
    e.Inv ((s.move t (.scattering rows left)).write (s.trainer t).y v a) := by
  have hok := hi.sound t
  have ht : (s.trainer t).phase.AtWork := by
    rw [h]
    trivial
  have hnodup := hok.nodup
  have hmem := hok.mem
  have hholds := hok.holds
  have hbatches := hok.batches
  rw [h] at hnodup hmem hholds hbatches
  have hv : v ∉ (Phase.scattering rows left).left := (List.nodup_cons.1 hnodup).1
  have hleft : (s.trainer t).phase.left = v :: (Phase.scattering rows left).left := by
    rw [h]
    rfl
  have ha : a = e.level ((s.trainer t).l + 1) v := hholds (v, a) (List.mem_cons_self ..)
  have hsound : e.Sound t { s.trainer t with phase := .scattering rows left } :=
    hok.move ht trivial (List.nodup_cons.1 hnodup).2 (hleft ▸ List.subset_cons_self ..) hbatches
      fun r hr => hholds r (List.mem_cons_of_mem _ hr)
  refine ⟨hi.abreast_update (.inl (Trainer.clock_move ht trivial)), hi.sound_update hsound,
    ?_, ?_, ?_⟩
  · refine Eq.trans ?_ hi.features
    rw [State.write, State.move, hok.y]
    exact update_of_ne (Evaluation.tensorAt_features (Nat.succ_pos _)).symm ..
  · intro u w hw
    have hold := hi.stored u w hw
    simp only [Trainer.level] at hold
    rcases eq_or_ne u t with rfl | hu
    · simp only [State.write, State.move, update_self, Trainer.level]
      rw [hleft] at hold
      rcases eq_or_ne w v with rfl | hwv
      · rw [if_pos (List.mem_cons_self ..)] at hold
        rw [if_neg hv, hok.y, ha]
        exact hold.next hL hok.lt
      · simp only [List.mem_cons, hwv, false_or] at hold
        exact hold.congr (State.write_of_ne hwv) (State.write_of_ne hwv)
    · have hwv : w ≠ v := by
        rintro rfl
        exact hu (hs.disjoint u t w hw (hmem w (List.mem_cons_self ..)))
      simp only [State.write, State.move, update_of_ne hu, Trainer.level]
      exact hold.congr (State.write_of_ne hwv) (State.write_of_ne hwv)
  · intro w hw
    have hwv : w ≠ v := by
      rintro rfl
      exact hw t (hmem w (List.mem_cons_self ..))
    rw [State.write_of_ne hwv, State.write_of_ne hwv]
    exact hi.unshared w hw

/-- **The step lemma**: whichever trainer goes on, and wherever it is, the rows in the store
and the ones in the hands of the trainers stay those of the evaluation. -/
theorem Evaluation.Inv.step (hi : e.Inv s) (hd : e.dgl.Documented e.graph) (hs : e.Split)
    (hg : e.Graph) (hm : e.model.training = false) (hL : 2 ≤ e.model.layers.length)
    (hsize : 0 < e.batch_size)
    (hsafe : e.model.layers.length = 2 ∨ e.Closed) (hstep : e.Step s t s') : e.Inv s' := by
  have hok := hi.sound t
  have hnodup := hok.nodup
  have hmem := hok.mem
  have hbatches := hok.batches
  have hholds := hok.holds
  cases hstep with
  | @load before b after k block h hblock =>
    rw [h] at hnodup hbatches
    have hb : b ∈ before ++ b :: after := by simp
    have hbn : b.Nodup := (List.nodup_flatten.1 hnodup).1 b hb
    obtain ⟨hdst, hfull, hsrc⟩ := sampleLoop_single hd hbn hblock
    refine hi.move (by rw [h]; trivial) trivial ?_ (fun c hc => hbatches c ?_)
      ⟨hdst ▸ hbatches b hb, hfull, hsrc, [], rfl, rfl⟩
    · rw [h]
      simp only [Phase.left, hdst, List.flatten_append, List.flatten_cons]
      exact (List.perm_append_comm_assoc ..)
    · exact List.mem_append.2 ((List.mem_append.1 hc).imp_right (List.mem_cons_of_mem _))
  | @gather block rows u todo left h =>
    have ht : (s.trainer t).phase.AtWork := by
      rw [h]
      trivial
    rw [h] at hbatches hholds hmem
    obtain ⟨hb, hfull, hsrc, fetched, hsplit, rfl⟩ := hholds
    have hu : u ∈ block.srcNID := hsplit ▸ List.mem_append_right _ (List.mem_cons_self ..)
    have hread := hi.read hs ht (u := u) ?_ (hsafe.imp_right fun hc => ?_)
    · refine hi.move ht trivial (by rw [h]; exact .rfl) hbatches
        ⟨hb, hfull, hsrc, fetched ++ [u], by simp [hsplit], by simp [hread]⟩
    · rcases hsrc u hu with hdst | ⟨v, -, hv⟩
      · exact .inr ⟨t, hmem u (List.mem_append_left _ hdst)⟩
      · exact hs.source hg hv
    · rw [h]
      refine Or.imp_right (List.mem_append_left _) ?_
      rcases hsrc u hu with hdst | ⟨v, hv, hsv⟩
      · exact .inr hdst
      · exact hc t _ hb v hv u hsv
  | @compute block rows left layer out h hlayer hout =>
    rw [h] at hbatches hholds hmem
    obtain ⟨hb, hfull, hsrc, fetched, hsplit, rfl⟩ := hholds
    rw [List.append_nil] at hsplit
    rw [← hsplit, layer.call_rows] at hout
    obtain rfl := Option.some.inj hout
    rw [mapIdx_rows]
    refine hi.move (by rw [h]; trivial) trivial ?_ hbatches ?_
    · rw [h]
      simp only [Phase.left, List.map_fst_zip (Nat.le_of_eq (List.length_map ..).symm)]
      exact .rfl
    · intro r hr
      rw [← List.map_prod_left_eq_zip] at hr
      obtain ⟨v, hv, rfl⟩ := List.mem_map.1 hr
      have hshare : v ∈ e.nodes t := hmem v (List.mem_append_left _ hv)
      exact e.round_full hm hfull hlayer hv fun hzero => hs.zero_notMem t (hzero ▸ hshare)
  | @scatter v a rows left h => exact hi.scatter hs hL h
  | @stored left h =>
    rw [h] at hbatches
    exact hi.move (by rw [h]; trivial) trivial (by rw [h]; exact .rfl) hbatches trivial
  | arrive h =>
    have ht : (s.trainer t).phase.AtWork := by
      rw [h]
      trivial
    have hclock := Trainer.clock_of_atWork ht
    refine hi.keep (.inr ⟨?_, .inl (by omega)⟩) ⟨hok.lt, False.elim, fun _ => hok.y, hok.y,
      List.nodup_nil, by simp [Phase.left], by simp [Phase.batches], trivial⟩ fun v _ => ?_
    · rw [hclock]
      rfl
    · rw [Trainer.level_of_done id, Trainer.level, h]
      exact (if_neg List.not_mem_nil).symm
  | pass h hall =>
    have ht : ¬ (s.trainer t).phase.AtWork := by
      rw [h]
      exact id
    have hclock : (s.trainer t).clock = 2 * (s.trainer t).l + 1 := by rw [Trainer.clock, h]
    have hlevel := Trainer.level_of_done ht
    have hx := hok.x_done ht
    split_ifs with hlt
    · have hy : (s.trainer t).y = .h := by
        rw [hok.y, tensorAt, if_neg (Nat.succ_ne_zero _), if_neg hlt.ne]
      refine hi.keep (.inr ⟨?_, .inr hall⟩) (sound_enter hs hsize hlt hx hy) fun v hv => ?_
      · rw [hclock]
        rfl
      · rw [hlevel, level_enter hsize hv]
    · refine hi.keep (.inr ⟨?_, .inr hall⟩) ⟨hok.lt, False.elim, fun _ => hx, hok.y,
        List.nodup_nil, by simp [Phase.left], by simp [Phase.batches], ?_⟩ fun v _ => ?_
      · rw [hclock]
        rfl
      · exact Nat.le_antisymm hok.lt (Nat.le_of_not_lt hlt)
      · rw [hlevel, Trainer.level_of_done id]

omit [DecidableEq τ] in
/-- What holds at the head of the loop. -/
theorem Evaluation.inv_start (hs : e.Split) (hL : 2 ≤ e.model.layers.length)
    (hsize : 0 < e.batch_size) : e.Inv e.start where
  abreast := Abreast.start 0
  sound := fun _ => sound_enter hs hsize (Nat.lt_of_succ_lt hL) rfl rfl
  features := rfl
  stored := by
    intro t v hv
    rw [start, level_enter hsize hv]
    exact ⟨fun h => absurd h (Nat.not_succ_le_zero 0), fun h => by omega⟩
  unshared := fun _ _ => ⟨rfl, rfl⟩

/-! ### Whole evaluations -/

/-- A trainer at work has a step to make. -/
theorem Evaluation.Inv.exists_step_of_atWork (hi : e.Inv s) (ht : (s.trainer t).phase.AtWork) :
    ∃ s', e.Step s t s' := by
  have hok := hi.sound t
  have hholds := hok.holds
  cases hp : (s.trainer t).phase with
  | loading batches =>
    cases batches with
    | nil => exact ⟨_, .arrive hp⟩
    | cons b after =>
      have hp' : (s.trainer t).phase = .loading ([] ++ b :: after) := hp
      exact ⟨_, .load (k := 0) hp' rfl⟩
  | gathering block rows todo left =>
    cases todo with
    | nil =>
      rw [hp] at hholds
      obtain ⟨-, -, -, fetched, hsplit, rfl⟩ := hholds
      rw [List.append_nil] at hsplit
      exact ⟨_, .compute hp (List.getElem?_eq_getElem hok.lt) (hsplit ▸ Layer.call_rows ..)⟩
    | cons u todo => exact ⟨_, .gather hp⟩
  | scattering rows left =>
    cases rows with
    | nil => exact ⟨_, .stored hp⟩
    | cons r rows => exact ⟨_, .scatter hp⟩
  | _ =>
    rw [hp] at ht
    exact ht.elim

/-- **No barrier is waited at forever**: a trainer whose clock is furthest behind is not
held up by the others, and inside a layer nobody waits for anybody. -/
theorem Evaluation.Inv.exists_step (hi : e.Inv s) (h : ∃ t, (s.trainer t).phase ≠ .returned) :
    ∃ t s', e.Step s t s' := by
  obtain ⟨t₀, ht₀⟩ := h
  have : Nonempty τ := ⟨t₀⟩
  obtain ⟨t, hall⟩ := exists_last fun u => (s.trainer u).clock
  by_cases ht : (s.trainer t).phase.AtWork
  · exact ⟨t, hi.exists_step_of_atWork ht⟩
  · cases hp : (s.trainer t).phase with
    | waiting => exact ⟨t, _, .pass hp hall⟩
    | returned =>
      -- it has come to the end, and no clock goes beyond
      have hholds := (hi.sound t).holds
      have hle := hall t₀
      have hlt := (hi.sound t₀).lt
      rw [hp] at hholds
      have hL : (s.trainer t).l + 1 = e.model.layers.length := hholds
      simp only [Trainer.clock, hp] at hle
      cases hp₀ : (s.trainer t₀).phase with
      | returned => exact absurd hp₀ ht₀
      | _ =>
        simp only [hp₀] at hle
        omega
    | _ =>
      rw [hp] at ht
      exact absurd trivial ht

omit [DecidableEq τ] in
/-- Behind the last barrier all rows are through all layers. -/
theorem Evaluation.Inv.rows (hi : e.Inv s) (ht : (s.trainer t).phase = .returned) {u : τ}
    (hv : v ∈ e.nodes u) : s.tensor .h_last v = e.level e.model.layers.length v := by
  have hend := (hi.sound t).holds
  rw [ht] at hend
  have hL : (s.trainer t).l + 1 = e.model.layers.length := hend
  have hclock : (s.trainer t).clock = 2 * (s.trainer t).l + 2 := by rw [Trainer.clock, ht]
  have hnear := hi.abreast t u
  have hlevel := (s.trainer u).clock_le v
  have hlt := (hi.sound u).lt
  have hle : (s.trainer u).level v ≤ (s.trainer u).l + 1 := by
    rw [Trainer.level]
    split_ifs <;> omega
  have hn : (s.trainer u).level v = e.model.layers.length := by
    dsimp only at hnear
    omega
  rw [(hi.stored u v hv).h_last hn, hn]

/-! ### How long an evaluation takes -/

/-- The steps for a batch, at most. -/
def Evaluation.cost (e : Evaluation τ α) (b : List ℕ) : ℕ := 2 * b.length + e.graph.length + 3

/-- The steps for some batches and the barrier behind them. -/
def Evaluation.costs (e : Evaluation τ α) (bs : List (List ℕ)) : ℕ := (bs.map e.cost).sum + 2

/-- The steps left in the round, at most. -/
def Evaluation.ahead (e : Evaluation τ α) : Phase α → ℕ
  | .loading batches => e.costs batches
  | .gathering block _ todo batches => todo.length + block.dstNID.length + 2 + e.costs batches
  | .scattering rows batches => rows.length + 1 + e.costs batches
  | .waiting => 1
  | .returned => 0

/-- The steps left, at most. -/
def Evaluation.remaining (e : Evaluation τ α) (t : τ) (p : Trainer α) : ℕ :=
  (e.model.layers.length - (p.l + 1)) * e.costs (e.batches t) + e.ahead p.phase

omit [DecidableEq τ] in
/-- **The inputs of a block** are no more than the nodes it computes and the edges of the
graph together, which bounds the rows that a batch has to fetch. -/
theorem length_srcNID_le {block : Block}
    (hsrc : ∀ u ∈ block.srcNID, u ∈ block.dstNID ∨ ∃ v ∈ block.dstNID, u ∈ sources e.graph v) :
    block.srcNID.length ≤ block.dstNID.length + e.graph.length := by
  have hsub : block.srcNID ⊆ block.dstNID ++ e.graph.map Prod.fst := by
    intro u hu
    refine List.mem_append.2 ((hsrc u hu).imp_right ?_)
    rintro ⟨v, -, hv⟩
    exact List.mem_map.2 ⟨(u, v), mem_sources.1 hv, rfl⟩
  simpa using (List.subperm_of_subset block.nodup hsub).length_le

omit [DecidableEq τ] in
/-- The steps for some batches are those for one of them and those for the others. -/
theorem Evaluation.costs_split (before after : List (List ℕ)) (b : List ℕ) :
    e.costs (before ++ b :: after) = e.cost b + e.costs (before ++ after) := by
  simp only [costs, List.map_append, List.map_cons, List.sum_append, List.sum_cons]
  omega

/-- **Every step is progress**: the trainer that makes it has fewer steps left than before,
and the others have as many as they had. -/
theorem Evaluation.Inv.progress (hi : e.Inv s) (hd : e.dgl.Documented e.graph)
    (hstep : e.Step s t s') :
    e.remaining t (s'.trainer t) < e.remaining t (s.trainer t) ∧
      ∀ u, u ≠ t → s'.trainer u = s.trainer u := by
  have hok := hi.sound t
  have hnodup := hok.nodup
  cases hstep with
  | @load before b after k block h hblock =>
    rw [h] at hnodup
    have hbn : b.Nodup := (List.nodup_flatten.1 hnodup).1 b (by simp)
    obtain ⟨hdst, -, hsrc⟩ := sampleLoop_single hd hbn hblock
    have hle := length_srcNID_le hsrc
    refine ⟨?_, fun u hu => update_of_ne hu ..⟩
    simp only [State.move, update_self, remaining, ahead, h, costs_split, cost]
    rw [hdst] at hle ⊢
    omega
  | gather h =>
    refine ⟨?_, fun u hu => update_of_ne hu ..⟩
    simp only [State.move, update_self, remaining, ahead, h, List.length_cons]
    omega
  | @compute block rows left layer out h hlayer hout =>
    refine ⟨?_, fun u hu => update_of_ne hu ..⟩
    simp only [State.move, update_self, remaining, ahead, h, List.length_zip, List.length_nil]
    omega
  | scatter h =>
    refine ⟨?_, fun u hu => update_of_ne hu ..⟩
    simp only [State.write, State.move, update_self, remaining, ahead, h, List.length_cons]
    omega
  | stored h =>
    refine ⟨?_, fun u hu => update_of_ne hu ..⟩
    simp only [State.move, update_self, remaining, ahead, h, List.length_nil]
    omega
  | arrive h =>
    refine ⟨?_, fun u hu => update_of_ne hu ..⟩
    simp only [update_self, remaining, ahead, h, costs, List.map_nil, List.sum_nil]
    omega
  | pass h hall =>
    refine ⟨?_, fun u hu => update_of_ne hu ..⟩
    simp only [update_self]
    split_ifs with hlt
    · obtain ⟨k, hk⟩ := Nat.exists_eq_add_of_lt hlt
      simp only [remaining, ahead, h, enter, hk]
      rw [show (s.trainer t).l + 1 + k + 1 - ((s.trainer t).l + 1 + 1) = k by omega,
        show (s.trainer t).l + 1 + k + 1 - ((s.trainer t).l + 1) = k + 1 by omega, Nat.succ_mul]
      omega
    · simp only [remaining, ahead, h]
      omega

/-- Every evaluation can be brought to its end. -/
theorem Evaluation.Inv.exists_run [Fintype τ] (hi : e.Inv s) (hd : e.dgl.Documented e.graph)
    (hs : e.Split) (hg : e.Graph) (hm : e.model.training = false) (hL : 2 ≤ e.model.layers.length)
    (hsize : 0 < e.batch_size) (hsafe : e.model.layers.length = 2 ∨ e.Closed) :
    ∃ ts s', Run e.Step s ts s' ∧ ∀ t, (s'.trainer t).phase = .returned := by
  induction hn : ∑ t, e.remaining t (s.trainer t) using Nat.strongRecOn generalizing s with
  | _ n ih =>
    by_cases hall : ∀ t, (s.trainer t).phase = .returned
    · exact ⟨[], s, .nil, hall⟩
    · push Not at hall
      obtain ⟨t, x, hstep⟩ := hi.exists_step hall
      obtain ⟨hlt, hframe⟩ := hi.progress hd hstep
      have hsum : ∑ u, e.remaining u (x.trainer u) < n := by
        rw [← hn]
        refine Finset.sum_lt_sum (fun u _ => ?_) ⟨t, Finset.mem_univ t, hlt⟩
        rcases eq_or_ne u t with rfl | hne
        · exact hlt.le
        · rw [hframe u hne]
      obtain ⟨ts, y, hrun, hret⟩ := ih _ hsum (hi.step hd hs hg hm hL hsize hsafe hstep) rfl
      exact ⟨[t] ++ ts, y, (Run.single hstep).trans hrun, hret⟩

/-- The invariant, with the steps made since `s₀`. -/
structure Evaluation.Kept (e : Evaluation τ α) (s₀ : State τ α) (ts : List τ) (s : State τ α) :
    Prop where
  inv : e.Inv s
  count : ∀ t, ts.count t + e.remaining t (s.trainer t) ≤ e.remaining t (s₀.trainer t)

/-- **Every step keeps the invariant and is paid for**: the trainer that made it has fewer
steps left than before. -/
theorem Evaluation.Kept.step {s₀ : State τ α} {ts : List τ} (hk : e.Kept s₀ ts s)
    (hd : e.dgl.Documented e.graph) (hs : e.Split) (hg : e.Graph)
    (hm : e.model.training = false) (hL : 2 ≤ e.model.layers.length) (hsize : 0 < e.batch_size)
    (hsafe : e.model.layers.length = 2 ∨ e.Closed) (hstep : e.Step s t s') :
    e.Kept s₀ (ts ++ [t]) s' := by
  obtain ⟨hlt, hframe⟩ := hk.inv.progress hd hstep
  refine ⟨hk.inv.step hd hs hg hm hL hsize hsafe hstep, fun u => ?_⟩
  have hu := hk.count u
  rw [List.count_append, List.count_singleton]
  rcases eq_or_ne t u with rfl | hne
  · rw [if_pos (beq_self_eq_true t)]
    omega
  · rw [hframe u hne.symm, if_neg (by simpa using hne)]
    exact hu

/-- **Inference is the evaluation of the graph, but for node 0**, for every number of trainers,
split, size of the batches and order of the steps: with two layers, or where the batches have
no edges from outside.  Once a trainer has returned, every other row of its `y` is right; the
rows of node 0 are never written, so all the others are those of the whole graph where node 0
has no edge out.  Until all have returned one of them has a step to make, and none makes more
than so many. -/
theorem Evaluation.inference_exact {conv : ℕ → Layer α} {n_layers : ℕ} {activation : α → α}
    {dropout : ℕ → ℕ → α → α}
    (hmodel : e.model = (DistSAGE.init conv n_layers activation dropout).eval)
    (hd : e.dgl.Documented e.graph) (hs : e.Split) (hg : e.Graph) (hsize : 0 < e.batch_size)
    (hsafe : n_layers ≤ 2 ∨ e.Closed) {ts : List τ} (hrun : Run e.Step e.start ts s) :
    (∀ t, (s.trainer t).phase = .returned → (s.trainer t).y = .h_last ∧
      ∀ v, 0 < v → v < e.number_of_nodes →
        s.tensor .h_last v = e.level e.model.layers.length v ∧
        ((∀ edge ∈ e.graph, edge.1 ≠ 0) →
          s.tensor .h_last v = e.model.level e.graph e.features e.model.layers.length v)) ∧
    (s.tensor .h 0 = e.h 0 ∧ s.tensor .h_last 0 = e.h_last 0) ∧
    ((∀ t, (s.trainer t).phase = .returned) ∨ ∃ t s', e.Step s t s') ∧
    ∀ t, ts.count t ≤ e.model.layers.length * e.costs (e.batches t) := by
  have hm : e.model.training = false := by
    rw [hmodel]
    rfl
  have hlength : e.model.layers.length = n_layers - 2 + 2 := by
    rw [hmodel]
    simp [DistSAGE.init, DistSAGE.eval]
  have hL : 2 ≤ e.model.layers.length := hlength ▸ Nat.le_add_left ..
  have hsafe' : e.model.layers.length = 2 ∨ e.Closed := hsafe.imp_left fun hn => by omega
  have hkept : e.Kept e.start ts s := by
    refine hrun.invariant ⟨inv_start hs hL hsize, fun t => by simp⟩ ?_
    exact fun _ _ _ _ hk hstep => hk.step hd hs hg hm hL hsize hsafe' hstep
  obtain ⟨hi, hcount⟩ := hkept
  refine ⟨fun t ht => ⟨?_, fun v hpos hlt => ?_⟩, hi.unshared 0 hs.zero_notMem, ?_, fun t => ?_⟩
  · have hend := (hi.sound t).holds
    rw [ht] at hend
    rw [(hi.sound t).y, tensorAt, if_neg (Nat.succ_ne_zero _)]
    exact if_pos hend
  · obtain ⟨u, hu⟩ := (hs.covers v).2 (mem_nonzero1d_arange.2 ⟨hpos, hlt⟩)
    have hrow := hi.rows ht hu
    exact ⟨hrow, fun hout => hrow.trans (level_eq hout _ hpos.ne')⟩
  · refine or_iff_not_imp_left.2 fun hall => hi.exists_step ?_
    push Not at hall
    exact hall
  · refine (Nat.le_of_add_right_le (hcount t)).trans (Nat.le_of_eq ?_)
    obtain ⟨k, hk⟩ := Nat.exists_eq_add_of_le hL
    simp only [start, remaining, enter, ahead, hk]
    rw [show 2 + k - (0 + 1) = k + 1 by omega, show 2 + k = k + 1 + 1 by omega,
      Nat.succ_mul (k + 1)]

/-- Node 0 has an edge to one of two nodes with an edge to each other, one for each of two
trainers, and the layers add up the rows. -/
def pair : Evaluation Bool ℕ where
  model := summing
  dgl := Dgl.ofEdges [(0, 1), (1, 2), (2, 1)]
  graph := [(0, 1), (1, 2), (2, 1)]
  number_of_nodes := 3
  features := fun v => 10 ^ v
  h := fun _ => 0
  h_last := fun _ => 0
  nodes := fun t => [t.toNat + 1]
  batch_size := 1

/-- The two trainers share the nodes but for node 0. -/
theorem split_pair : pair.Split where
  nodup := fun t => List.nodup_singleton _
  disjoint := by
    intro t u v ht hu
    have htu : t.toNat + 1 = u.toNat + 1 :=
      (List.mem_singleton.1 ht).symm.trans (List.mem_singleton.1 hu)
    cases t <;> cases u <;> simp_all
  covers := by
    intro v
    rw [mem_nonzero1d_arange]
    constructor
    · rintro ⟨t, ht⟩
      rw [List.mem_singleton.1 ht]
      cases t <;> decide
    · rintro ⟨hpos, hlt⟩
      have hcases : v = 1 ∨ v = 2 := by
        change v < 3 at hlt
        omega
      rcases hcases with rfl | rfl
      · exact ⟨false, List.mem_singleton_self _⟩
      · exact ⟨true, List.mem_singleton_self _⟩

/-- Both trainers come to the end, with `(10 + (1 + 100)) + (0 + (100 + 10))` at node 1; in the
evaluation of the whole graph node 0 has a row to add. -/
theorem inference_exact_pair : ∃ ts s, Run pair.Step pair.start ts s ∧
    (∀ t, (s.trainer t).phase = .returned) ∧ s.tensor .h_last 0 = 0 ∧
    s.tensor .h_last 1 = 221 ∧ pair.model.level pair.graph pair.features 2 1 = 222 := by
  have hd : pair.dgl.Documented pair.graph := documented_ofEdges _
  have hg : ∀ edge ∈ pair.graph, edge.1 < 3 := by decide
  obtain ⟨ts, s, hrun, hret⟩ := (pair.inv_start split_pair (by decide) (by decide)).exists_run
    hd split_pair hg rfl (by decide) (by decide) (.inl rfl)
  obtain ⟨hrows, hzero, -⟩ := Evaluation.inference_exact (e := pair) rfl hd split_pair hg
    (by decide) (.inl le_rfl) hrun
  exact ⟨ts, s, hrun, hret, hzero.2,
    ((hrows true (hret true)).2 1 Nat.one_pos (by decide)).1, by decide⟩

end Sage
end BearRpc
