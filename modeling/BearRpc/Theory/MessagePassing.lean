/-
# Message passing on the nodes of a graph

One round gives every node a value computed from its own and those of the sources of
its in-edges (`messageRound`).  What a node gets depends on these values only
(`messageRound_congr`), so rounds over different edges agree at the nodes whose in-edges are the
same.
-/

import Mathlib.Data.List.Basic

namespace BearRpc
namespace Theory

variable {V α : Type*} [DecidableEq V]

/-- The sources of the edges into `v`, in the order of the edges. -/
def sources (edges : List (V × V)) (v : V) : List V :=
  (edges.filter fun e => e.2 = v).map Prod.fst

/-- One round of message passing. -/
def messageRound (layer : α → List α → α) (edges : List (V × V)) (x : V → α) (v : V) : α :=
  layer (x v) ((sources edges v).map x)

variable {layer : α → List α → α} {edges edges' : List (V × V)} {x y : V → α} {u v : V}

/-- The sources of a node are the nodes with an edge to it. -/
theorem mem_sources : u ∈ sources edges v ↔ (u, v) ∈ edges := by
  simp [sources]

/-- **A round is local**: what a node gets depends on its own value and on those of the
sources of its in-edges, and on nothing else in the graph. -/
theorem messageRound_congr (hs : sources edges v = sources edges' v) (hv : x v = y v)
    (hu : ∀ u ∈ sources edges v, x u = y u) :
    messageRound layer edges x v = messageRound layer edges' y v := by
  rw [messageRound, messageRound, hv, List.map_congr_left hu, hs]

end Theory
end BearRpc
