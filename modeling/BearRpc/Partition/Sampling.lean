/-
# Sampling of neighbours

`sim_random_sample_list` and `sample` (`src/partition/graphCheck.cpp`, lines 50 to 89).

Both branches in the loop of `sim_random_sample_list` return, so it samples from the
neighbours of the first node it is given, and from no other.  This covers all of the nodes
if and only if nothing is wanted from the other ones or they have no neighbours
(`covers_iff`); `sample` feeds the result to the next call, layer by layer.

`random_shuffle` is any permutation, another one in every call.  `sampleNumber` is not
negative.
-/

import BearRpc.Partition.NodeMap
import Mathlib.Data.List.Forall2

namespace BearRpc

open Theory

namespace Partition

/-- What `random_shuffle` does in one call. -/
structure Shuffle where
  run : List ℤ → List ℤ
  perm : ∀ l, (run l).Perm l

/-- `sim_random_sample_list(nodeIds, node_map, sampleNumber)` -/
def simRandomSampleList (node_map : NodeMap) (sampleNumber : ℕ) (shuffle : Shuffle) :
    List ℤ → List ℤ
  | nodeId :: _ =>
    let sampleList := node_map.get nodeId
    if sampleList.length < sampleNumber then sampleList
    else (shuffle.run sampleList).take sampleNumber
  | [] => []

/-- The loop over `fanout` in `sample`, from its `i`-th turn on: what it adds to
`neighbors`, whose last element is given. -/
def sampleLayers (node_map : NodeMap) (shuffle : ℕ → Shuffle) : ℕ → List ℕ → List ℤ → List (List ℤ)
  | _, [], _ => []
  | i, sampleNumber :: fanout, last =>
    let tmp := simRandomSampleList node_map sampleNumber (shuffle i) last
    tmp :: sampleLayers node_map shuffle (i + 1) fanout tmp

/-- `neighbors` behind that loop, for the training node `id` -/
def neighbors (node_map : NodeMap) (shuffle : ℕ → Shuffle) (fanout : List ℕ) (id : ℤ) :
    List (List ℤ) :=
  [id] :: sampleLayers node_map shuffle 0 fanout [id]

/-- `sample(trainId, fanout, node_map, sample_list_with_Id)`; `shuffle j i` is what
`random_shuffle` does for the `j`-th training node in the layer `i`. -/
def sample (trainId : List ℤ) (fanout : List ℕ) (node_map sample_list_with_Id : NodeMap)
    (shuffle : ℕ → ℕ → Shuffle) : NodeMap :=
  trainId.zipIdx.foldl
    (fun table e => table.insert e.1 (neighbors node_map (shuffle e.2) fanout e.1).flatten)
    sample_list_with_Id

/-- **The frontier is covered**: from each of its nodes in order, as many of the neighbours
as wanted. -/
def Covers (node_map : NodeMap) (sampleNumber : ℕ) (nodeIds result : List ℤ) : Prop :=
  ∃ parts : List (List ℤ), result = parts.flatten ∧
    List.Forall₂ (fun nodeId part => part.Subperm (node_map.get nodeId) ∧
      part.length = min (node_map.get nodeId).length sampleNumber) nodeIds parts

/-- Nothing is to be sampled from any node but the first one. -/
def FirstOnly (node_map : NodeMap) (sampleNumber : ℕ) (nodeIds : List ℤ) : Prop :=
  sampleNumber = 0 ∨ ∀ nodeId ∈ nodeIds.tail, node_map.get nodeId = []

variable {node_map t : NodeMap} {sampleNumber i : ℕ} {shuffle : Shuffle}
  {shuffles : ℕ → Shuffle} {nodeId id : ℤ} {nodeIds l : List ℤ} {fanout : List ℕ}

/-! ### One call -/

variable (node_map sampleNumber shuffle nodeId nodeIds) in
/-- **The first node is sampled as it should be**: as many of its neighbours as wanted, or
all if there are fewer, and none more often than it is there. -/
theorem simRandomSampleList_cons :
    (simRandomSampleList node_map sampleNumber shuffle (nodeId :: nodeIds)).Subperm
      (node_map.get nodeId) ∧
    (simRandomSampleList node_map sampleNumber shuffle (nodeId :: nodeIds)).length =
      min (node_map.get nodeId).length sampleNumber := by
  rw [simRandomSampleList]
  split
  · next hlt => exact ⟨List.Subperm.refl _, (Nat.min_eq_left hlt.le).symm⟩
  · have hperm := shuffle.perm (node_map.get nodeId)
    refine ⟨(List.take_sublist _ _).subperm.trans hperm.subperm, ?_⟩
    rw [List.length_take, hperm.length_eq, Nat.min_comm]

/-- A covered frontier has as many nodes sampled as are wanted from all of its nodes. -/
theorem Covers.length_eq {result : List ℤ} (h : Covers node_map sampleNumber nodeIds result) :
    result.length =
      (nodeIds.map fun nodeId => min (node_map.get nodeId).length sampleNumber).sum := by
  obtain ⟨parts, rfl, hparts⟩ := h
  induction hparts with
  | nil => rfl
  | cons hpart _ ih =>
    rw [List.flatten_cons, List.length_append, ih, hpart.2, List.map_cons, List.sum_cons]

/-- **The frontier is covered if and only if nothing is to be sampled from any node but the
first one**, whatever the shuffle does. -/
theorem covers_simRandomSampleList_iff :
    Covers node_map sampleNumber nodeIds
      (simRandomSampleList node_map sampleNumber shuffle nodeIds) ↔
    FirstOnly node_map sampleNumber nodeIds := by
  cases nodeIds with
  | nil => exact ⟨fun _ => .inr nofun, fun _ => ⟨[], rfl, .nil⟩⟩
  | cons nodeId nodeIds =>
    obtain ⟨hsub, hlen⟩ :=
      simRandomSampleList_cons node_map sampleNumber shuffle nodeId nodeIds
    constructor
    · intro h
      have hsum := h.length_eq
      rw [hlen, List.map_cons, List.sum_cons, Nat.left_eq_add,
        List.sum_eq_zero_iff_forall_eq_nat] at hsum
      refine or_iff_not_imp_left.2 fun hpos u hu => ?_
      have hmin := hsum _ (List.mem_map_of_mem hu)
      rw [← List.length_eq_zero_iff]
      omega
    · intro h
      have hnil : (nodeIds.map fun _ => ([] : List ℤ)).flatten = [] := by
        rw [List.flatten_eq_nil_iff]
        simp
      refine ⟨simRandomSampleList node_map sampleNumber shuffle (nodeId :: nodeIds) ::
        nodeIds.map fun _ => [], ?_, .cons ⟨hsub, hlen⟩ ?_⟩
      · rw [List.flatten_cons, hnil, List.append_nil]
      · rw [List.forall₂_map_right_iff, List.forall₂_same]
        refine fun u hu => ⟨List.nil_subperm, ?_⟩
        rcases h with rfl | h
        · exact (Nat.min_zero _).symm
        · rw [h u hu]
          exact (Nat.zero_min _).symm

/-! ### The layers -/

theorem length_sampleLayers :
    (sampleLayers node_map shuffles i fanout l).length = fanout.length := by
  induction fanout generalizing i l with
  | nil => rfl
  | cons sampleNumber fanout ih => exact congrArg (· + 1) ih

/-- **A layer is what the layer before gives**, which is `l` for the first one: each entry
of `fanout` makes one call for the layer recorded last. -/
theorem getD_sampleLayers {j : ℕ} (hj : j < fanout.length) :
    (l :: sampleLayers node_map shuffles i fanout l).getD (j + 1) [] =
      simRandomSampleList node_map fanout[j] (shuffles (i + j))
        ((l :: sampleLayers node_map shuffles i fanout l).getD j []) := by
  induction fanout generalizing i j l with
  | nil => cases hj
  | cons sampleNumber fanout ih =>
    cases j with
    | zero => rfl
    | succ j =>
      have hstep := ih (i := i + 1)
        (l := simRandomSampleList node_map sampleNumber (shuffles i) l)
        (Nat.lt_of_succ_lt_succ hj)
      rw [Nat.add_assoc, Nat.add_comm 1 j] at hstep
      exact hstep

/-- The table behind a loop that sets entries, for a key that it has set. -/
theorem exists_get_foldl_insert {f : ℤ × ℕ → List ℤ} {es : List (ℤ × ℕ)}
    (hid : id ∈ es.map Prod.fst) :
    ∃ e ∈ es, e.1 = id ∧
      Table.get (es.foldl (fun table e => table.insert e.1 (f e)) t) id = f e := by
  induction es generalizing t with
  | nil => cases hid
  | cons e es ih =>
    rw [List.foldl_cons]
    by_cases hrest : id ∈ es.map Prod.fst
    · obtain ⟨e', he', hkey, hget⟩ := ih (t := t.insert e.1 (f e)) hrest
      exact ⟨e', List.mem_cons_of_mem _ he', hkey, hget⟩
    · have hkey : id = e.1 := (List.mem_cons.1 hid).resolve_right hrest
      refine ⟨e, List.mem_cons_self .., hkey.symm, ?_⟩
      -- the entries set afterwards are those of other keys
      refine List.foldlRecOn (motive := fun t : NodeMap => t.get id = f e) es _ ?_
        fun t ht e' he' => ?_
      · rw [Table.get_insert, if_pos hkey]
      · have hne : id ≠ e'.1 := by
          rintro rfl
          exact hrest (List.mem_map_of_mem he')
        rw [Table.get_insert, if_neg hne, ht]

/-- **What `sample` records**: the layers of one of its runs for the training node, one
behind the other, with the node itself in front. -/
theorem exists_get_sample {trainId : List ℤ} {shuffle : ℕ → ℕ → Shuffle} (hid : id ∈ trainId) :
    ∃ j, trainId[j]? = some id ∧
      (sample trainId fanout node_map t shuffle).get id =
        (neighbors node_map (shuffle j) fanout id).flatten := by
  have hmem : id ∈ trainId.zipIdx.map Prod.fst := by
    rw [List.zipIdx_map_fst]
    exact hid
  obtain ⟨⟨id', j⟩, he, rfl, hget⟩ := exists_get_foldl_insert (t := t)
    (f := fun e => (neighbors node_map (shuffle e.2) fanout e.1).flatten) hmem
  exact ⟨j, List.mem_zipIdx_iff_getElem?.1 he, hget⟩

/-- **`sim_random_sample_list` covers a frontier if and only if nothing is to be sampled
from any node but the first one**; and so for every layer that `sample` records. -/
theorem covers_iff (node_map : NodeMap) :
    (∀ (sampleNumber : ℕ) (shuffle : Shuffle) (nodeIds : List ℤ),
      Covers node_map sampleNumber nodeIds
        (simRandomSampleList node_map sampleNumber shuffle nodeIds) ↔
      FirstOnly node_map sampleNumber nodeIds) ∧
    ∀ (trainId : List ℤ) (fanout : List ℕ) (table : NodeMap) (shuffle : ℕ → ℕ → Shuffle),
      ∀ id ∈ trainId, ∃ j layers, trainId[j]? = some id ∧
        layers = neighbors node_map (shuffle j) fanout id ∧
        (sample trainId fanout node_map table shuffle).get id = layers.flatten ∧
        layers.length = fanout.length + 1 ∧
        ∀ i (hi : i < fanout.length),
          (Covers node_map fanout[i] (layers.getD i []) (layers.getD (i + 1) []) ↔
            FirstOnly node_map fanout[i] (layers.getD i [])) := by
  refine ⟨fun _ _ _ => covers_simRandomSampleList_iff,
    fun trainId fanout table shuffle id hid => ?_⟩
  obtain ⟨j, hj, hget⟩ := exists_get_sample hid
  refine ⟨j, _, hj, rfl, hget, congrArg (· + 1) length_sampleLayers, fun i hi => ?_⟩
  rw [neighbors, getD_sampleLayers hi]
  exact covers_simRandomSampleList_iff

/-- A shuffle that leaves everything in its place. -/
def Shuffle.still : Shuffle := ⟨fun l => l, List.Perm.refl⟩

/-- The hypotheses of `covers_iff` are satisfiable: a training node with one neighbour,
sampled once. -/
theorem covers_iff_oneEdge : ∃ (j : ℕ) (layers : List (List ℤ)), ([0] : List ℤ)[j]? = some 0 ∧
    layers = neighbors (loadEdges [(0, 1)]) (fun _ => .still) [1] 0 ∧
    (sample [0] [1] (loadEdges [(0, 1)]) ∅ fun _ _ => .still).get 0 = layers.flatten ∧
    layers.length = 2 ∧
    ∀ i (hi : i < [1].length),
      (Covers (loadEdges [(0, 1)]) [1][i] (layers.getD i []) (layers.getD (i + 1) []) ↔
        FirstOnly (loadEdges [(0, 1)]) [1][i] (layers.getD i [])) :=
  (covers_iff _).2 [0] [1] ∅ (fun _ _ => .still) 0 (List.mem_singleton_self 0)

/-- **The second node of the frontier is not sampled**: both branches of the loop over the
frontier return in its first turn. -/
theorem not_covers_twoNodes :
    ¬ ∀ (node_map : NodeMap) (sampleNumber : ℕ) (shuffle : Shuffle) (nodeIds : List ℤ),
      Covers node_map sampleNumber nodeIds
        (simRandomSampleList node_map sampleNumber shuffle nodeIds) := by
  intro h
  have hlen := (h (loadEdges [(0, 1)]) 1 .still [0, 1]).length_eq
  exact absurd hlen (by decide)

end Partition
end BearRpc
