/-
# The distance to a set of sources

For a graph and a set of sources, `toSources G S v` is the least distance of `v` to
a source, infinite if none reaches it.  Along an edge it grows by at most one
(`toSources_adj`), and a vertex at the distance `k + 1` has a neighbour at the
distance `k` (`exists_adj`).  So a search that goes from one distance to the next
finds every vertex that can be reached.
-/

import Mathlib.Combinatorics.SimpleGraph.Metric

namespace BearRpc
namespace Theory
namespace Distance

variable {V : Type*} {G : SimpleGraph V} {S : Set V} {s u v : V} {k : ℕ}

variable (G S) in
/-- The distance of `v` to the nearest source. -/
noncomputable def toSources (v : V) : ℕ∞ := ⨅ s ∈ S, G.edist s v

theorem toSources_le (hs : s ∈ S) : toSources G S v ≤ G.edist s v :=
  iInf₂_le s hs

/-- The nearest source. -/
theorem exists_source (h : toSources G S v ≠ ⊤) : ∃ s ∈ S, G.edist s v = toSources G S v := by
  have hne : ((fun s => G.edist s v) '' S).Nonempty := by
    rw [Set.image_nonempty, Set.nonempty_iff_ne_empty]
    rintro rfl
    exact h (by simp [toSources])
  obtain ⟨s, hs, heq⟩ := csInf_mem hne
  exact ⟨s, hs, heq.trans sInf_image⟩

theorem toSources_eq_zero : toSources G S v = 0 ↔ v ∈ S := by
  constructor
  · intro h
    obtain ⟨s, hs, heq⟩ := exists_source (by rw [h]; exact ENat.zero_ne_top)
    rw [h, SimpleGraph.edist_eq_zero_iff] at heq
    exact heq ▸ hs
  · intro hv
    have hle : toSources G S v ≤ G.edist v v := toSources_le hv
    rw [SimpleGraph.edist_self] at hle
    exact nonpos_iff_eq_zero.1 hle

/-- **A finite distance is reachability** from one of the sources, for any set of them. -/
theorem toSources_ne_top : toSources G S v ≠ ⊤ ↔ ∃ s ∈ S, G.Reachable s v := by
  constructor
  · intro h
    obtain ⟨s, hs, heq⟩ := exists_source h
    exact ⟨s, hs, SimpleGraph.reachable_of_edist_ne_top (heq ▸ h)⟩
  · rintro ⟨s, hs, hr⟩
    have hfin := SimpleGraph.edist_ne_top_iff_reachable.2 hr
    exact ne_top_of_le_ne_top hfin (toSources_le hs)

/-- **The distance grows by at most one along an edge**: a walk to one end, and the edge, is
a walk to the other. -/
theorem toSources_adj (h : G.Adj u v) : toSources G S v ≤ toSources G S u + 1 := by
  rcases eq_or_ne (toSources G S u) ⊤ with htop | hfin
  · rw [htop, top_add]
    exact le_top
  · obtain ⟨s, hs, heq⟩ := exists_source hfin
    calc toSources G S v ≤ G.edist s v := toSources_le hs
      _ ≤ G.edist s u + G.edist u v := SimpleGraph.edist_triangle
      _ = toSources G S u + 1 := by rw [heq, SimpleGraph.edist_eq_one_iff_adj.2 h]

/-- **Every vertex off the sources has a neighbour one step nearer**, the one before it on a
shortest walk. -/
theorem exists_adj (h : toSources G S v = (k + 1 : ℕ)) :
    ∃ u, G.Adj u v ∧ toSources G S u = k := by
  obtain ⟨s, hs, heq⟩ := exists_source (by rw [h]; exact ENat.natCast_ne_top _)
  obtain ⟨w, hw⟩ := SimpleGraph.exists_walk_of_edist_eq_coe (heq.trans h)
  -- the last edge of a shortest walk
  obtain ⟨u, hadj, w', hw'⟩ : ∃ u, G.Adj v u ∧ ∃ w' : G.Walk u s, w'.length = k := by
    have hlen : w.reverse.length = k + 1 := w.length_reverse.trans hw
    cases hrev : w.reverse with
    | nil => rw [hrev] at hlen; cases hlen
    | cons hadj w' =>
      rw [hrev] at hlen
      exact ⟨_, hadj, w', Nat.succ.inj hlen⟩
  refine ⟨u, hadj.symm, le_antisymm ?_ ?_⟩
  · refine (toSources_le hs).trans ?_
    rw [SimpleGraph.edist_comm, ← hw']
    exact SimpleGraph.edist_le w'
  · have hle := toSources_adj (S := S) hadj.symm
    rw [h, Nat.cast_add, Nat.cast_one] at hle
    exact (ENat.add_le_add_iff_right (by decide)).1 hle

/-- On the way to a vertex every smaller distance occurs. -/
theorem exists_toSources_eq {m : ℕ} (h : toSources G S v = m) (hk : k ≤ m) :
    ∃ u, toSources G S u = k := by
  induction m generalizing v with
  | zero => exact ⟨v, by rw [h, Nat.le_zero.1 hk]⟩
  | succ m ih =>
    rcases Nat.lt_or_eq_of_le hk with hlt | rfl
    · obtain ⟨u, -, hu⟩ := exists_adj h
      exact ih hu (Nat.le_of_lt_succ hlt)
    · exact ⟨v, h⟩

end Distance
end Theory
end BearRpc
