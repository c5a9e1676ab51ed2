/-
# The layers of the blocks

`NodeBlockConstruct` is a breadth-first search from all seeds at once: the `k`-th
layers of the blocks are the nodes at the distance `k` from the seeds.

Between two rounds the nodes up to a distance `m` are claimed, and those at `m` are
in the last layers of the active blocks (`Level`).  In a round a block claims only
nodes at the distance `m + 1`, in whatever order the blocks take their turns
(`exists_round`).  A block whose first layer behind the seed is empty expands its
seed a second time; it claims nothing, and is not active any more.  Every other
round claims a node, so there are at most as many as nodes, and one more
(`exists_rounds`).
-/

import BearRpc.Partition.Claims
import BearRpc.Theory.Distance

namespace BearRpc

open Theory

namespace Partition

/-- The graph of an adjacency map. -/
def graph (nodeMap : ℕ → List ℕ) : SimpleGraph ℕ := SimpleGraph.fromRel fun u v => v ∈ nodeMap u

/-- The least distance of the node to a seed. -/
noncomputable def depth (nodeMap : ℕ → List ℕ) (seeds : List ℕ) (v : ℕ) : ℕ∞ :=
  Distance.toSources (graph nodeMap) {s | s ∈ seeds} v

variable {nodeMap : ℕ → List ℕ} {n u v k m : ℕ} {seeds : List ℕ} {t t' : List ℤ}
  {b b' : Block} {bs l r : List Block} {new L : List ℕ} {slots slots' : List Slot}

theorem adj_iff (hg : Undirected n nodeMap) :
    (graph nodeMap).Adj u v ↔ u ≠ v ∧ v ∈ nodeMap u := by
  rw [graph, SimpleGraph.fromRel_adj]
  exact and_congr_right fun _ => ⟨fun h => h.elim id (hg.symm v u), .inl⟩

theorem depth_eq_zero : depth nodeMap seeds v = 0 ↔ v ∈ seeds :=
  Distance.toSources_eq_zero

/-- A neighbour is at most one step further. -/
theorem depth_le_of_mem (hg : Undirected n nodeMap) (hu : depth nodeMap seeds u ≤ k)
    (hv : v ∈ nodeMap u) : depth nodeMap seeds v ≤ (k + 1 : ℕ) := by
  rcases eq_or_ne u v with rfl | hne
  · exact hu.trans (Nat.cast_le.2 (Nat.le_succ k))
  · have hadj := Distance.toSources_adj (S := {s | s ∈ seeds}) ((adj_iff hg).2 ⟨hne, hv⟩)
    calc depth nodeMap seeds v ≤ depth nodeMap seeds u + 1 := hadj
      _ ≤ k + 1 := by gcongr
      _ = (k + 1 : ℕ) := by push_cast; rfl

/-- A node off the seeds has a neighbour one step nearer. -/
theorem exists_mem_of_depth (hg : Undirected n nodeMap) (hv : depth nodeMap seeds v = (k + 1 : ℕ)) :
    ∃ u, depth nodeMap seeds u = k ∧ v ∈ nodeMap u := by
  obtain ⟨u, hadj, hu⟩ := Distance.exists_adj hv
  exact ⟨u, hu, ((adj_iff hg).1 hadj).2⟩

theorem depth_eq_succ (hle : depth nodeMap seeds v ≤ (k + 1 : ℕ))
    (hnot : ¬ depth nodeMap seeds v ≤ k) : depth nodeMap seeds v = (k + 1 : ℕ) := by
  refine le_antisymm hle ?_
  rw [Nat.cast_add, Nat.cast_one]
  exact Order.add_one_le_of_lt (not_le.1 hnot)

/-- **No layer is nearer than its nodes**: a node in layer `k` of a block is reached from
its seed in `k` steps, so the nearest seed is no further. -/
theorem Placed.depth_le (h : Placed n nodeMap seeds seeds t bs) (hg : Undirected n nodeMap)
    (hb : b ∈ bs) (hL : b.nodeList[k]? = some L) (hv : v ∈ L) : depth nodeMap seeds v ≤ k := by
  induction k generalizing L v with
  | zero =>
    rw [h.first_layer hb] at hL
    rw [← Option.some.inj hL, List.mem_singleton] at hv
    rw [hv, depth_eq_zero.2 (h.src_mem hb)]
    exact le_rfl
  | succ k ih =>
    obtain ⟨L', hL', u, hu, hvu⟩ := h.parent b hb k L v hL hv
    exact depth_le_of_mem hg (ih hL' hu) hvu

/-- The blocks of the slots. -/
def blocksOf (slots : List Slot) : List Block := slots.map (·.block)

/-- Every node that is not a seed is in the layer of its distance. -/
def Exact (nodeMap : ℕ → List ℕ) (seeds : List ℕ) (bs : List Block) : Prop :=
  ∀ b ∈ bs, ∀ (k : ℕ) (L : List ℕ), b.nodeList[k]? = some L → ∀ v ∈ L, v ∉ seeds →
    depth nodeMap seeds v = k

/-- **Between two rounds**: the nodes up to the distance `m` are claimed. -/
structure Level (n : ℕ) (nodeMap : ℕ → List ℕ) (seeds : List ℕ) (m : ℕ) (t : List ℤ)
    (slots : List Slot) : Prop where
  placed : Placed n nodeMap seeds seeds t (blocksOf slots)
  reached : ∀ v, v ∈ occurrences (blocksOf slots) ↔ depth nodeMap seeds v ≤ m
  exact : Exact nodeMap seeds (blocksOf slots)
  frontier : ∀ v, depth nodeMap seeds v = m →
    ∃ slot ∈ slots, slot.active = true ∧ v ∈ slot.block.lastLayer
  deep : ∀ slot ∈ slots, slot.active = true → slot.block.nodeList.length = m + 1 ∨
    ∀ v ∈ slot.block.lastLayer.flatMap nodeMap, v ∈ occurrences (blocksOf slots)

/-- **In a round**: the blocks `l` have had their turns, those of `slots` have not. -/
structure Turn (n : ℕ) (nodeMap : ℕ → List ℕ) (seeds : List ℕ) (m : ℕ) (t : List ℤ)
    (l : List Block) (slots : List Slot) : Prop where
  placed : Placed n nodeMap seeds seeds t (l ++ blocksOf slots)
  below : ∀ v, depth nodeMap seeds v ≤ m → v ∈ occurrences (l ++ blocksOf slots)
  exact : Exact nodeMap seeds (l ++ blocksOf slots)
  deep : ∀ slot ∈ slots, slot.active = true → slot.block.nodeList.length = m + 1 ∨
    ∀ v ∈ slot.block.lastLayer.flatMap nodeMap, v ∈ occurrences (l ++ blocksOf slots)

/-- **What the turns of `slots` do**: the nodes claimed are at the distance `m + 1`
and in the last layers of active blocks. -/
structure Turned (n : ℕ) (nodeMap : ℕ → List ℕ) (seeds : List ℕ) (m : ℕ) (t : List ℤ)
    (l : List Block) (slots : List Slot) (t' : List ℤ) (slots' : List Slot) : Prop where
  placed : Placed n nodeMap seeds seeds t' (l ++ blocksOf slots')
  keeps : ∀ v ∈ occurrences (l ++ blocksOf slots), v ∈ occurrences (l ++ blocksOf slots')
  fresh : ∀ v ∈ occurrences (l ++ blocksOf slots'), v ∉ occurrences (l ++ blocksOf slots) →
    depth nodeMap seeds v = (m + 1 : ℕ) ∧
      ∃ slot ∈ slots', slot.active = true ∧ v ∈ slot.block.lastLayer
  exact : Exact nodeMap seeds (l ++ blocksOf slots')
  deep : ∀ slot ∈ slots', slot.active = true → slot.block.nodeList.length = m + 2
  closed : ∀ slot ∈ slots, slot.active = true → ∀ v ∈ slot.block.lastLayer.flatMap nodeMap,
    v ∈ occurrences (l ++ blocksOf slots')
  count : t'.count (-1) ≤ t.count (-1)
  progress : slots'.any (·.active) = true → t'.count (-1) < t.count (-1)

/-- The block whose turn it is claims nodes at the distance `m + 1` only, and only
if its last layer is at the distance `m`. -/
theorem Turn.new_depth {slot : Slot} (h : Turn n nodeMap seeds m t l (slot :: slots))
    (hg : Undirected n nodeMap) (hactive : slot.active = true)
    (hgrown : Grown nodeMap t slot.block t' b' new) (hv : v ∈ new) :
    slot.block.nodeList.length = m + 1 ∧ depth nodeMap seeds v = (m + 1 : ℕ) := by
  have hnot := (h.placed.new_disjoint hg hgrown v hv).2
  have hmem := ((hgrown.mem v).1 hv).1
  have hlen : slot.block.nodeList.length = m + 1 := by
    refine (h.deep slot (List.mem_cons_self ..) hactive).resolve_right fun hclosed => ?_
    exact hnot (hclosed v hmem)
  obtain ⟨u, hu, hvu⟩ := List.mem_flatMap.1 hmem
  have hdepth : depth nodeMap seeds u ≤ m :=
    h.placed.depth_le hg (List.mem_append_right _ (List.mem_cons_self ..)) (lastLayer_eq hlen) hu
  exact ⟨hlen, depth_eq_succ (depth_le_of_mem hg hdepth hvu) fun hle => hnot (h.below v hle)⟩

theorem append_blocksOf (b : Block) (slots : List Slot) :
    l ++ [b] ++ blocksOf slots = l ++ b :: blocksOf slots :=
  (List.append_cons ..).symm

/-- The turn of one active block. -/
theorem Turn.next {slot : Slot} (h : Turn n nodeMap seeds m t l (slot :: slots))
    (hg : Undirected n nodeMap) (hactive : slot.active = true)
    (hgrown : Grown nodeMap t slot.block t' b' new) :
    Turn n nodeMap seeds m t' (l ++ [b']) slots := by
  have hkeep : ∀ v ∈ occurrences (l ++ blocksOf (slot :: slots)),
      v ∈ occurrences (l ++ b' :: blocksOf slots) := fun v hv =>
    hgrown.occurrences.mem_iff.2 (List.mem_append_right _ hv)
  refine ⟨?_, fun v hv => ?_, fun c hc k L hL v hv hseed => ?_, fun s hs ha => ?_⟩
  · rw [append_blocksOf]
    exact h.placed.grow hg hgrown
  · rw [append_blocksOf]
    exact hkeep v (h.below v hv)
  · rw [append_blocksOf] at hc
    have hslot : slot.block ∈ l ++ blocksOf (slot :: slots) :=
      List.mem_append_right _ (List.mem_cons_self ..)
    rcases List.mem_append.1 hc with hc | hc
    · exact h.exact c (List.mem_append_left _ hc) k L hL v hv hseed
    · rcases List.mem_cons.1 hc with rfl | hc
      · rcases hgrown.layer hL with hL | ⟨-, hk, rfl⟩
        · exact h.exact _ hslot k L hL v hv hseed
        · obtain ⟨hlen, hd⟩ := h.new_depth hg hactive hgrown hv
          rw [hk, hlen]
          exact hd
      · exact h.exact c (List.mem_append_right _ (List.mem_cons_of_mem _ hc)) k L hL v hv hseed
  · rw [append_blocksOf]
    exact (h.deep s (List.mem_cons_of_mem _ hs) ha).imp_right fun hclosed v hv =>
      hkeep v (hclosed v hv)

/-- The turn of an active block, and those behind it. -/
theorem Turned.active {slot : Slot} (h : Turn n nodeMap seeds m t l (slot :: slots))
    (hg : Undirected n nodeMap) (hactive : slot.active = true) {t₁ : List ℤ}
    (hgrown : Grown nodeMap t slot.block t₁ b' new)
    (hrest : Turned n nodeMap seeds m t₁ (l ++ [b']) slots t' slots') :
    Turned n nodeMap seeds m t l (slot :: slots) t' (⟨b', decide (new ≠ [])⟩ :: slots') := by
  obtain ⟨placed, keeps, fresh, exact, deep, closed, count, progress⟩ := hrest
  rw [append_blocksOf] at placed keeps fresh exact closed
  rw [append_blocksOf] at keeps fresh
  have hmem : ∀ v, v ∈ occurrences (l ++ b' :: blocksOf slots) ↔
      v ∈ new ∨ v ∈ occurrences (l ++ blocksOf (slot :: slots)) := fun v =>
    hgrown.occurrences.mem_iff.trans List.mem_append
  have hcount := hgrown.count
  refine ⟨placed, fun v hv => keeps v ((hmem v).2 (.inr hv)), fun v hv hnot => ?_, exact,
    fun s hs ha => ?_, fun s hs ha v hv => ?_, by omega, fun hany => ?_⟩
  · by_cases hv' : v ∈ occurrences (l ++ b' :: blocksOf slots)
    · have hnew : v ∈ new := ((hmem v).1 hv').resolve_right hnot
      have hne : new ≠ [] := List.ne_nil_of_mem hnew
      refine ⟨(h.new_depth hg hactive hgrown hnew).2, _, List.mem_cons_self ..,
        decide_eq_true hne, ?_⟩
      change v ∈ b'.nodeList.getLast?.getD []
      rw [hgrown.nodeList, if_neg hne, List.getLast?_concat]
      exact hnew
    · obtain ⟨hd, s, hs, hs'⟩ := fresh v hv hv'
      exact ⟨hd, s, List.mem_cons_of_mem _ hs, hs'⟩
  · rcases List.mem_cons.1 hs with rfl | hs
    · have hne : new ≠ [] := of_decide_eq_true ha
      obtain ⟨v, hv⟩ := List.exists_mem_of_ne_nil new hne
      have hlen := (h.new_depth hg hactive hgrown hv).1
      change b'.nodeList.length = m + 2
      rw [hgrown.nodeList, if_neg hne, List.length_append, hlen, List.length_singleton]
    · exact deep s hs ha
  · rcases List.mem_cons.1 hs with rfl | hs
    · exact keeps v (h.placed.neighbours hg hgrown hv)
    · exact closed s hs ha v hv
  · rw [List.any_cons, Bool.or_eq_true] at hany
    rcases hany with hne | hany
    · have hpos := List.length_pos_iff.2 (of_decide_eq_true hne)
      omega
    · have hlt := progress hany
      omega

/-- A block that is not active does nothing. -/
theorem Turned.idle {slot : Slot} (hidle : ¬ slot.active = true)
    (hrest : Turned n nodeMap seeds m t (l ++ [slot.block]) slots t' slots') :
    Turned n nodeMap seeds m t l (slot :: slots) t' (slot :: slots') := by
  obtain ⟨placed, keeps, fresh, exact, deep, closed, count, progress⟩ := hrest
  rw [append_blocksOf] at placed keeps fresh exact closed
  rw [append_blocksOf] at keeps fresh
  refine ⟨placed, keeps, fun v hv hnot => ?_, exact, fun s hs ha => ?_, fun s hs ha => ?_, count,
    fun hany => ?_⟩
  · obtain ⟨hd, s, hs, hs'⟩ := fresh v hv hnot
    exact ⟨hd, s, List.mem_cons_of_mem _ hs, hs'⟩
  · rcases List.mem_cons.1 hs with rfl | hs
    · exact absurd ha hidle
    · exact deep s hs ha
  · rcases List.mem_cons.1 hs with rfl | hs
    · exact absurd ha hidle
    · exact closed s hs ha
  · rw [List.any_cons, Bool.or_eq_true] at hany
    exact progress (hany.resolve_left hidle)

/-- **A round** claims the nodes at the distance `m + 1`: each active block in its turn
takes those of them that are neighbours of its last layer and that no block before it has
taken. -/
theorem Turn.exists_round (h : Turn n nodeMap seeds m t l slots) (hg : Undirected n nodeMap) :
    ∃ t' slots', round nodeMap t slots = .ok (t', slots') ∧
      Turned n nodeMap seeds m t l slots t' slots' := by
  induction slots generalizing t l with
  | nil =>
    exact ⟨t, [], rfl, h.placed, fun _ h => h, fun v hv hnot => absurd hv hnot, h.exact, nofun,
      nofun, le_rfl, nofun⟩
  | cons slot slots ih =>
    by_cases hactive : slot.active = true
    · have hne : slot.block.nodeList ≠ [] := by
        obtain ⟨layers, hlayers⟩ :=
          h.placed.first _ (List.mem_append_right _ (List.mem_cons_self ..))
        rw [hlayers]
        exact List.cons_ne_nil _ _
      have hrange : ∀ v ∈ slot.block.lastLayer.flatMap nodeMap, v < t.length := by
        intro v hv
        obtain ⟨u, -, hvu⟩ := List.mem_flatMap.1 hv
        exact hg.inRange_of_length h.placed.length u v hvu
      obtain ⟨sc, new, hexpand, htmp, hgrown⟩ := exists_expand hrange hne
      obtain ⟨t', slots', hround, hturned⟩ := ih (h.next hg hactive hgrown)
      refine ⟨t', ⟨sc.grown, decide (new ≠ [])⟩ :: slots', ?_, .active h hg hactive hgrown hturned⟩
      rw [round, if_pos hactive, hexpand, ← htmp]
      change (round nodeMap sc.viewedTable slots >>= _) = _
      rw [hround]
      rfl
    · have hturn : Turn n nodeMap seeds m t (l ++ [slot.block]) slots := by
        obtain ⟨placed, below, exact, deep⟩ := h
        refine ⟨?_, ?_, ?_, fun s hs ha => ?_⟩ <;> rw [append_blocksOf]
        · exact placed
        · exact below
        · exact exact
        · exact deep s (List.mem_cons_of_mem _ hs) ha
      obtain ⟨t', slots', hround, hturned⟩ := ih hturn
      refine ⟨t', slot :: slots', ?_, .idle hactive hturned⟩
      rw [round, if_neg hactive, hround]
      rfl

/-- The blocks behind the last round. -/
structure Complete (n : ℕ) (nodeMap : ℕ → List ℕ) (seeds : List ℕ) (t : List ℤ) (bs : List Block) :
    Prop where
  placed : Placed n nodeMap seeds seeds t bs
  reached : ∀ v, v ∈ occurrences bs ↔ depth nodeMap seeds v ≠ ⊤
  exact : Exact nodeMap seeds bs

theorem Level.turn (h : Level n nodeMap seeds m t slots) : Turn n nodeMap seeds m t [] slots :=
  ⟨h.placed, fun v hv => (h.reached v).2 hv, h.exact, h.deep⟩

/-- **One level more is claimed** behind a round: by then every node at the next distance
has a block, since one of its neighbours was in the last layer of one. -/
theorem Level.next (h : Level n nodeMap seeds m t slots) (hg : Undirected n nodeMap)
    (hturned : Turned n nodeMap seeds m t [] slots t' slots') :
    Level n nodeMap seeds (m + 1) t' slots' := by
  have hclaimed : ∀ v, depth nodeMap seeds v = (m + 1 : ℕ) → v ∈ occurrences (blocksOf slots') := by
    intro v hv
    obtain ⟨u, hu, hvu⟩ := exists_mem_of_depth hg hv
    obtain ⟨slot, hslot, hactive, hlast⟩ := h.frontier u hu
    exact hturned.closed slot hslot hactive v (List.mem_flatMap.2 ⟨u, hlast, hvu⟩)
  have hlt : ((m : ℕ) : ℕ∞) < (m + 1 : ℕ) := Nat.cast_lt.2 (Nat.lt_succ_self m)
  refine ⟨hturned.placed, fun v => ⟨fun hv => ?_, fun hv => ?_⟩, hturned.exact, fun v hv => ?_,
    fun slot hslot hactive => .inl (hturned.deep slot hslot hactive)⟩
  · by_cases hocc : v ∈ occurrences (blocksOf slots)
    · exact ((h.reached v).1 hocc).trans hlt.le
    · exact (hturned.fresh v hv hocc).1.le
  · by_cases hle : depth nodeMap seeds v ≤ m
    · exact hturned.keeps v ((h.reached v).2 hle)
    · exact hclaimed v (depth_eq_succ hv hle)
  · refine (hturned.fresh v (hclaimed v hv) fun hocc => ?_).2
    have hle := (h.reached v).1 hocc
    rw [hv] at hle
    exact absurd hlt (not_lt.2 hle)

/-- **Without an active block everything that can be reached is claimed**: a block becomes
inactive when it has claimed nothing, so no node at the next distance is left. -/
theorem Level.complete (h : Level n nodeMap seeds m t slots)
    (hidle : ¬ slots.any (·.active) = true) : Complete n nodeMap seeds t (blocksOf slots) := by
  refine ⟨h.placed, fun v => ⟨fun hv htop => ?_, fun hfin => ?_⟩, h.exact⟩
  · have hle := (h.reached v).1 hv
    rw [htop] at hle
    exact ENat.natCast_ne_top m (top_le_iff.1 hle)
  · obtain ⟨d, hd⟩ := ENat.ne_top_iff_exists.1 hfin
    refine (h.reached v).2 ?_
    by_contra hnot
    rw [← hd, Nat.cast_le, not_le] at hnot
    obtain ⟨u, hu⟩ := Distance.exists_toSources_eq hd.symm hnot.le
    obtain ⟨slot, hslot, hactive, -⟩ := h.frontier u hu
    exact hidle (List.any_eq_true.2 ⟨slot, hslot, hactive⟩)

/-- **The second phase ends**, if there is more fuel than there are nodes that nobody has
claimed: a round that claims none is the last one. -/
theorem Level.exists_rounds {fuel : ℕ} (h : Level n nodeMap seeds m t slots)
    (hg : Undirected n nodeMap) (hfuel : t.count (-1) < fuel) :
    ∃ t' slots', rounds nodeMap fuel t slots = .ok (t', slots') ∧
      Complete n nodeMap seeds t' (blocksOf slots') := by
  induction fuel generalizing m t slots with
  | zero => exact absurd hfuel (Nat.not_lt_zero _)
  | succ fuel ih =>
    obtain ⟨t₁, slots₁, hround, hturned⟩ := h.turn.exists_round hg
    have hlevel := h.next hg hturned
    by_cases hany : slots₁.any (·.active) = true
    · have hlt := hturned.progress hany
      obtain ⟨t', slots', hrounds, hcomplete⟩ := ih hlevel (by omega)
      refine ⟨t', slots', ?_, hcomplete⟩
      rw [rounds, hround]
      exact (if_pos hany).trans hrounds
    · refine ⟨t₁, slots₁, ?_, hlevel.complete hany⟩
      rw [rounds, hround]
      exact if_neg hany

/-- Behind the first phase a place that is not the one of a seed is in the second
layer, which is the last. -/
theorem Opening.second (h : Opening n nodeMap seeds seeds t bs) (hb : b ∈ bs)
    (hL : b.nodeList[k]? = some L) (hv : v ∈ L) (hne : depth nodeMap seeds v ≠ 0) :
    k = 1 ∧ b.nodeList.length = 2 := by
  have hlt := (List.getElem?_eq_some_iff.1 hL).1
  have hshort := h.short b hb
  have hk : k ≠ 0 := by
    rintro rfl
    rw [h.first_layer hb] at hL
    rw [← Option.some.inj hL, List.mem_singleton] at hv
    exact hne (hv ▸ depth_eq_zero.2 (h.src_mem hb))
  omega

/-- The first phase claims the seeds and their neighbours. -/
theorem Opening.mem_occurrences_iff (h : Opening n nodeMap seeds seeds t bs)
    (hg : Undirected n nodeMap) :
    v ∈ occurrences bs ↔ depth nodeMap seeds v ≤ (1 : ℕ) := by
  constructor
  · intro hv
    obtain ⟨b, hb, hmem⟩ := mem_occurrences.1 hv
    obtain ⟨k, L, hL, hvL⟩ := exists_layer hmem
    refine (h.depth_le hg hb hL hvL).trans (Nat.cast_le.2 ?_)
    have hlt := (List.getElem?_eq_some_iff.1 hL).1
    have hshort := h.short b hb
    omega
  · intro hv
    by_cases hzero : depth nodeMap seeds v ≤ (0 : ℕ)
    · have hseed : v ∈ seeds := depth_eq_zero.1 (nonpos_iff_eq_zero.1 hzero)
      rw [← h.src] at hseed
      obtain ⟨b, hb, rfl⟩ := List.mem_map.1 hseed
      exact mem_occurrences.2 ⟨b, hb,
        mem_flatten_of_layer (h.first_layer hb) (List.mem_singleton_self _)⟩
    · obtain ⟨u, hu, hvu⟩ := exists_mem_of_depth hg (depth_eq_succ hv hzero)
      exact h.closed u (depth_eq_zero.1 hu) v hvu

/-- **The first phase claims the first level**, and leaves every block active: each has its
seed in layer 0, and the neighbours that nobody before it had taken in layer 1. -/
theorem Opening.level (h : Opening n nodeMap seeds seeds t bs) (hg : Undirected n nodeMap) :
    Level n nodeMap seeds 1 t (bs.map fun block => ⟨block, true⟩) := by
  have hblocks : blocksOf (bs.map fun block => ⟨block, true⟩) = bs := by
    rw [blocksOf, List.map_map]
    exact List.map_id bs
  refine ⟨?_, ?_, ?_, fun v hv => ?_, fun slot hslot _ => ?_⟩
  · rw [hblocks]
    exact h.toPlaced
  · rw [hblocks]
    exact fun v => h.mem_occurrences_iff hg
  · rw [hblocks]
    intro b hb k L hL v hv hseed
    have hne : depth nodeMap seeds v ≠ 0 := mt depth_eq_zero.1 hseed
    have hle := h.depth_le hg hb hL hv
    obtain ⟨rfl, -⟩ := h.second hb hL hv hne
    exact depth_eq_succ hle fun hzero => hne (nonpos_iff_eq_zero.1 hzero)
  · have hne : depth nodeMap seeds v ≠ 0 := by
      rw [hv]
      exact Nat.cast_ne_zero.2 one_ne_zero
    obtain ⟨b, hb, hmem⟩ := mem_occurrences.1 ((h.mem_occurrences_iff hg).2 hv.le)
    obtain ⟨k, L, hL, hvL⟩ := exists_layer hmem
    obtain ⟨rfl, hlen⟩ := h.second hb hL hvL hne
    refine ⟨⟨b, true⟩, List.mem_map_of_mem hb, rfl, ?_⟩
    rw [lastLayer_eq hlen] at hL
    exact Option.some.inj hL ▸ hvL
  · obtain ⟨b, hb, rfl⟩ := List.mem_map.1 hslot
    rw [hblocks]
    obtain ⟨layers, hlayers⟩ := h.first b hb
    have hshort := h.short b hb
    rcases layers with _ | ⟨L, layers⟩
    · right
      intro v hv
      have hlast : b.lastLayer = [b.srcNodeID] := by rw [Block.lastLayer, hlayers]; rfl
      change v ∈ b.lastLayer.flatMap nodeMap at hv
      rw [hlast] at hv
      exact h.closed _ (h.src_mem hb) v (by simpa using hv)
    · left
      change b.nodeList.length = 2
      rw [hlayers] at hshort ⊢
      simp only [List.length_cons] at hshort ⊢
      omega

/-! ### The call -/

/-- The blocks with their numbers: the last loop of `NodeBlockConstruct`. -/
def refactored (slots : List Slot) : List Block :=
  slots.mapIdx fun index slot => slot.block.refactorBlock index

theorem mem_refactored (hb : b ∈ refactored slots) :
    ∃ c ∈ blocksOf slots, ∃ index, b = c.refactorBlock index := by
  obtain ⟨index, hlt, rfl⟩ := List.mem_mapIdx.1 hb
  exact ⟨_, List.mem_map_of_mem (List.getElem_mem hlt), index, rfl⟩

/-- What does not depend on the numbers. -/
theorem map_refactored {γ : Type} {f : Block → γ}
    (hf : ∀ (b : Block) (index : ℕ), f (b.refactorBlock index) = f b) :
    (refactored slots).map f = (blocksOf slots).map f := by
  refine List.ext_getElem? fun index => ?_
  simp only [refactored, blocksOf, List.getElem?_map, List.getElem?_mapIdx, Option.map_map]
  exact congrArg (Option.map · slots[index]?) (funext fun slot => hf slot.block index)

theorem occurrences_refactored : occurrences (refactored slots) = occurrences (blocksOf slots) := by
  have hmap : (refactored slots).map (fun b => b.nodeList.flatten) =
      (blocksOf slots).map fun b => b.nodeList.flatten := map_refactored fun _ _ => rfl
  rw [occurrences, occurrences, List.flatMap_def, List.flatMap_def, hmap]

/-- Before the first seed nothing is claimed. -/
theorem opening_nil : Opening n nodeMap seeds [] (List.replicate n (-1)) [] where
  length := List.length_replicate
  inRange := nofun
  unviewed := fun v hv => by
    rw [List.getElem?_replicate_of_lt hv]
    exact ⟨fun _ => List.not_mem_nil, fun _ => rfl⟩
  single := List.nodup_nil
  once := ⟨fun _ => nofun, fun _ => List.nodup_nil⟩
  owner := nofun
  seeded := nofun
  src := rfl
  first := nofun
  parent := nofun
  short := nofun
  closed := nofun

/-- Behind a round that returns. -/
theorem rounds_of_round {fuel : ℕ} (h : round nodeMap t slots = .ok (t', slots')) :
    rounds nodeMap (fuel + 1) t slots =
      if slots'.any (·.active) = true then rounds nodeMap fuel t' slots' else .ok (t', slots') := by
  rw [rounds, h]
  rfl

/-- More fuel does not change the result. -/
theorem rounds_mono {fuel fuel' : ℕ} {r : Except Fault (List ℤ × List Slot)} (hle : fuel ≤ fuel')
    (h : rounds nodeMap fuel t slots = r) (hr : r ≠ .error .fuel) :
    rounds nodeMap fuel' t slots = r := by
  induction fuel generalizing fuel' t slots with
  | zero => exact absurd h.symm hr
  | succ fuel ih =>
    obtain ⟨fuel', rfl⟩ := Nat.exists_eq_add_of_le' (Nat.lt_of_lt_of_le (Nat.succ_pos fuel) hle)
    rcases hround : round nodeMap t slots with e | ⟨t₁, slots₁⟩
    · rw [rounds, hround] at h ⊢
      exact h
    · rw [rounds_of_round hround] at h ⊢
      split at h
      · next hany =>
        rw [if_pos hany]
        exact ih (Nat.le_of_succ_le_succ hle) h
      · next hany =>
        rw [if_neg hany]
        exact h

/-- **The call ends**, with the blocks behind the last round: more fuel than nodes is
enough, whatever the seeds are. -/
theorem exists_nodeBlockConstruct (hg : Undirected n nodeMap) (hnd : seeds.Nodup)
    (hlt : ∀ s ∈ seeds, s < n) (classes : List (List ℕ)) :
    ∃ t slots, Complete n nodeMap seeds t (blocksOf slots) ∧ ∀ fuel, n < fuel →
      nodeBlockConstruct nodeMap fuel (seeds :: classes) [] (List.replicate n (-1)) =
        .ok (t, refactored slots) := by
  have hopening : Opening n nodeMap seeds [] (List.replicate n (-1)) [] := opening_nil
  obtain ⟨t₁, bs₁, hseeds, hopened⟩ := hopening.seedBlocks hg rfl hnd hlt
  have hcount : t₁.count (-1) < n + 1 := by
    rw [Nat.lt_succ_iff, ← hopened.length]
    exact List.count_le_length
  obtain ⟨t, slots, hrounds, hcomplete⟩ := (hopened.level hg).exists_rounds hg hcount
  refine ⟨t, slots, hcomplete, fun fuel hfuel => ?_⟩
  change (seedBlocks nodeMap seeds (List.replicate n (-1)) [] >>= _) = _
  rw [hseeds]
  change (rounds nodeMap fuel t₁ _ >>= _) = _
  rw [rounds_mono hfuel hrounds nofun]
  rfl

/-- **A breadth-first search from all seeds**: a node that is not a seed is in one
place if a seed reaches it, in the layer of its distance, and with a neighbour in
the layer before. -/
structure MultiSourceBfs (nodeMap : ℕ → List ℕ) (seeds : List ℕ) (bs : List Block) : Prop where
  occurs : ∀ v ∉ seeds, (∃ s ∈ seeds, (graph nodeMap).Reachable s v) → (occurrences bs).count v = 1
  nowhere : ∀ v ∉ seeds, (¬ ∃ s ∈ seeds, (graph nodeMap).Reachable s v) → v ∉ occurrences bs
  layer : ∀ b ∈ bs, ∀ (k : ℕ) (L : List ℕ), b.nodeList[k]? = some L → ∀ v ∈ L, v ∉ seeds →
    k = ⨅ s ∈ seeds, (graph nodeMap).edist s v
  parent : ∀ b ∈ bs, ∀ (k : ℕ) (L : List ℕ), b.nodeList[k + 1]? = some L → ∀ v ∈ L, v ∉ seeds →
    ∃ L', b.nodeList[k]? = some L' ∧ ∃ u ∈ L', v ∈ nodeMap u

/-- **`NodeBlockConstruct` ends, and is a breadth-first search from all seeds.** For every
symmetric map and distinct seeds, with enough fuel it returns a table and blocks, and each
node that is not a seed is in one place of them if a seed reaches it and in none otherwise,
in the layer of its distance from the nearest seed and with a neighbour in the layer before.
-/
theorem nodeBlockConstruct_bfs (hg : Undirected n nodeMap) (hnd : seeds.Nodup)
    (hlt : ∀ s ∈ seeds, s < n) (classes : List (List ℕ)) :
    ∃ t bs, (∀ fuel, n < fuel →
      nodeBlockConstruct nodeMap fuel (seeds :: classes) [] (List.replicate n (-1)) = .ok (t, bs)) ∧
        MultiSourceBfs nodeMap seeds bs := by
  obtain ⟨t, slots, h, hcall⟩ := exists_nodeBlockConstruct hg hnd hlt classes
  refine ⟨t, refactored slots, hcall, fun v hseed hr => ?_, fun v _ hr => ?_,
    fun b hb k L hL v hv hseed => ?_, fun b hb k L hL v hv _ => ?_⟩
  · have hocc : v ∈ occurrences (blocksOf slots) := (h.reached v).2 (Distance.toSources_ne_top.2 hr)
    rw [occurrences_refactored, ← List.count_filter (p := (· ∉ seeds)) (decide_eq_true hseed)]
    refine List.count_eq_one_of_mem h.placed.single ?_
    exact List.mem_filter.2 ⟨hocc, decide_eq_true hseed⟩
  · rw [occurrences_refactored, h.reached v]
    exact mt Distance.toSources_ne_top.1 hr
  · obtain ⟨c, hc, index, rfl⟩ := mem_refactored hb
    exact (h.exact c hc k L hL v hv hseed).symm
  · obtain ⟨c, hc, index, rfl⟩ := mem_refactored hb
    exact h.placed.parent c hc k L v hL hv

/-- The path `0 – 1 – 2`, with a loop at its end. -/
def path (u : ℕ) : List ℕ :=
  [(0, 1), (1, 0), (1, 2), (2, 1), (2, 2)].filterMap fun e => if e.1 = u then some e.2 else none

theorem undirected_path : Undirected 3 path := by
  have hmem : ∀ u v, v ∈ path u ↔ (u, v) ∈ [(0, 1), (1, 0), (1, 2), (2, 1), (2, 2)] := by
    intro u v
    simp only [path, List.mem_filterMap, Option.ite_none_right_eq_some, Option.some.injEq]
    constructor
    · rintro ⟨⟨a, b⟩, he, rfl, rfl⟩
      exact he
    · exact fun he => ⟨(u, v), he, rfl, rfl⟩
  have hsymm : ∀ e ∈ [(0, 1), (1, 0), (1, 2), (2, 1), (2, 2)],
      (e.2, e.1) ∈ [(0, 1), (1, 0), (1, 2), (2, 1), (2, 2)] ∧ e.2 < 3 := by decide
  refine ⟨fun u v hv => (hmem v u).2 (hsymm _ ((hmem u v).1 hv)).1, fun u v hv => ?_⟩
  exact (hsymm _ ((hmem u v).1 hv)).2

/-- The hypotheses of `nodeBlockConstruct_bfs` are satisfiable: a path of three nodes, of
which the first two are the seeds and neighbours. -/
theorem nodeBlockConstruct_bfs_path : ∃ t bs, (∀ fuel, 3 < fuel →
    nodeBlockConstruct path fuel [[0, 1]] [] (List.replicate 3 (-1)) = .ok (t, bs)) ∧
      MultiSourceBfs path [0, 1] bs :=
  nodeBlockConstruct_bfs undirected_path (by decide) (by decide) []

end Partition
end BearRpc
