/-
# What the blocks reach

`NodeBlockConstruct` takes any adjacency map and any seeds, directed or not and with
repetitions, as long as no node that it comes to lies outside of `viewedTable`: as
long as every node that a seed reaches does not.

Then it ends with one block for each seed, and the blocks hold the nodes that the
seeds reach (`exists_blocks`).  The layers that have been expanded have all their
neighbours in some block (`Covering`).  Otherwise it comes to a node without an entry
(`blocks_cases`).
-/

import BearRpc.Partition.Layers
import Mathlib.Logic.Relation

namespace BearRpc

open Relation

namespace Partition

/-- Some seed reaches the node. -/
def Reached (nodeMap : ℕ → List ℕ) (seeds : List ℕ) (v : ℕ) : Prop :=
  ∃ s ∈ seeds, ReflTransGen (fun u v => v ∈ nodeMap u) s v

/-- The layers of a block that have been expanded. -/
def Slot.expanded (slot : Slot) : List (List ℕ) :=
  if slot.active = true then slot.block.nodeList.dropLast else slot.block.nodeList

/-- **What holds between two turns**, with the seeds `opened` so far. -/
structure Covering (n : ℕ) (nodeMap : ℕ → List ℕ) (seeds opened : List ℕ) (t : List ℤ)
    (slots : List Slot) : Prop where
  length : t.length = n
  viewed : ∀ v < n, t[v]? = some (-1) ∨ v ∈ occurrences (blocksOf slots)
  reached : ∀ v ∈ occurrences (blocksOf slots), Reached nodeMap seeds v
  opened : ∀ s ∈ opened, s ∈ occurrences (blocksOf slots)
  nonempty : ∀ slot ∈ slots, slot.block.nodeList ≠ []
  closed : ∀ slot ∈ slots, ∀ u ∈ slot.expanded.flatten, ∀ v ∈ nodeMap u,
    v ∈ occurrences (blocksOf slots)

variable {nodeMap : ℕ → List ℕ} {n s u v : ℕ} {seeds opened new : List ℕ} {t t' : List ℤ}
  {b b' : Block} {a : Bool} {l r slots slots' : List Slot}

theorem Reached.next (h : Reached nodeMap seeds u) (hv : v ∈ nodeMap u) :
    Reached nodeMap seeds v := by
  obtain ⟨s, hs, hsu⟩ := h
  exact ⟨s, hs, hsu.tail hv⟩

theorem blocksOf_append : blocksOf (l ++ ⟨b, a⟩ :: r) = blocksOf l ++ b :: blocksOf r :=
  List.map_append

/-- The neighbours of the last layer have been reached. -/
theorem Covering.neighbours (h : Covering n nodeMap seeds opened t (l ++ ⟨b, true⟩ :: r))
    (hv : v ∈ b.lastLayer.flatMap nodeMap) : Reached nodeMap seeds v := by
  obtain ⟨u, hu, hvu⟩ := List.mem_flatMap.1 hv
  have hne : b.nodeList ≠ [] :=
    h.nonempty ⟨b, true⟩ (List.mem_append_right _ (List.mem_cons_self ..))
  have hlast : b.lastLayer = b.nodeList.getLast hne := by
    rw [Block.lastLayer, List.getLast?_eq_some_getLast hne]
    rfl
  rw [hlast] at hu
  refine (h.reached u ?_).next hvu
  rw [blocksOf_append]
  exact mem_occurrences.2 ⟨b, List.mem_append_right _ (List.mem_cons_self ..),
    List.mem_flatten.2 ⟨_, List.getLast_mem hne, hu⟩⟩

/-- **A turn expands the last layer**: then every neighbour of every layer that the block
had is claimed by it or was in a block before. -/
theorem Covering.closed_of_grown (h : Covering n nodeMap seeds opened t (l ++ ⟨b, true⟩ :: r))
    (hrange : ∀ v ∈ b.lastLayer.flatMap nodeMap, v < t.length)
    (hgrown : Grown nodeMap t b t' b' new)
    (hu : u ∈ b.nodeList.flatten) (hvu : v ∈ nodeMap u) :
    v ∈ new ∨ v ∈ occurrences (blocksOf (l ++ ⟨b, true⟩ :: r)) := by
  have hslot : (⟨b, true⟩ : Slot) ∈ l ++ ⟨b, true⟩ :: r := List.mem_append_cons_self
  have hne : b.nodeList ≠ [] := h.nonempty ⟨b, true⟩ hslot
  obtain ⟨layer, hlayer, hul⟩ := List.mem_flatten.1 hu
  rw [← List.dropLast_append_getLast hne, List.mem_append, List.mem_singleton] at hlayer
  rcases hlayer with hlayer | rfl
  · refine .inr (h.closed ⟨b, true⟩ hslot u ?_ v hvu)
    exact List.mem_flatten.2 ⟨layer, hlayer, hul⟩
  · have hlast : u ∈ b.lastLayer := by
      rw [Block.lastLayer, List.getLast?_eq_some_getLast hne]
      exact hul
    have hv : v ∈ b.lastLayer.flatMap nodeMap := List.mem_flatMap.2 ⟨u, hlast, hvu⟩
    rcases h.viewed v (h.length ▸ hrange v hv) with hun | hocc
    · exact .inl ((hgrown.mem v).2 ⟨hv, hun⟩)
    · exact .inr hocc

/-- Behind a turn the layers that have been expanded are those that the block had. -/
theorem mem_of_expanded (hgrown : Grown nodeMap t b t' b' new) (ha : a = false → new = [])
    (hu : u ∈ (Slot.mk b' a).expanded.flatten) : u ∈ b.nodeList.flatten := by
  have hlist := hgrown.nodeList
  unfold Slot.expanded at hu
  split at hlist
  · dsimp only at hu
    rw [hlist] at hu
    split at hu
    · obtain ⟨layer, hlayer, hul⟩ := List.mem_flatten.1 hu
      exact List.mem_flatten.2 ⟨layer, List.mem_of_mem_dropLast hlayer, hul⟩
    · exact hu
  · next hne =>
    have hactive : a = true := by
      by_contra hoff
      exact hne (ha (Bool.eq_false_iff.2 hoff))
    dsimp only at hu
    rwa [if_pos hactive, hlist, List.dropLast_concat] at hu

/-- **A turn keeps it**: behind it the block is active if it has claimed a node, so only its
last layer, if any, has neighbours that are in no block. -/
theorem Covering.grow (h : Covering n nodeMap seeds opened t (l ++ ⟨b, true⟩ :: r))
    (hrange : ∀ v ∈ b.lastLayer.flatMap nodeMap, v < t.length)
    (hgrown : Grown nodeMap t b t' b' new)
    (ha : a = false → new = []) : Covering n nodeMap seeds opened t' (l ++ ⟨b', a⟩ :: r) := by
  have hmem : ∀ v, v ∈ occurrences (blocksOf (l ++ ⟨b', a⟩ :: r)) ↔
      v ∈ new ∨ v ∈ occurrences (blocksOf (l ++ ⟨b, true⟩ :: r)) := fun v => by
    rw [blocksOf_append, blocksOf_append]
    exact hgrown.occurrences.mem_iff.trans List.mem_append
  have hnew : ∀ v ∈ new, Reached nodeMap seeds v := fun v hv =>
    h.neighbours ((hgrown.mem v).1 hv).1
  -- a slot behind the turn is the one that had it, or was there before
  have hslots : ∀ slot ∈ l ++ ⟨b', a⟩ :: r,
      slot = ⟨b', a⟩ ∨ slot ∈ l ++ ⟨b, true⟩ :: r := by
    intro slot hslot
    rcases List.mem_append.1 hslot with hslot | hslot
    · exact .inr (List.mem_append_left _ hslot)
    · refine (List.mem_cons.1 hslot).imp_right fun hslot => ?_
      exact List.mem_append_right _ (List.mem_cons_of_mem _ hslot)
  refine ⟨hgrown.length.trans h.length, fun v hv => ?_, fun v hv => ?_, fun s hs => ?_,
    fun slot hslot => ?_, fun slot hslot u hu v hvu => ?_⟩
  · by_cases hvn : v ∈ new
    · exact .inr ((hmem v).2 (.inl hvn))
    · rw [hgrown.table v, if_neg hvn, hmem]
      exact (h.viewed v hv).imp_right .inr
  · exact ((hmem v).1 hv).elim (hnew v) (h.reached v)
  · exact (hmem s).2 (.inr (h.opened s hs))
  · rcases hslots slot hslot with rfl | hslot
    · have hne : b.nodeList ≠ [] := h.nonempty ⟨b, true⟩ List.mem_append_cons_self
      dsimp only
      rw [hgrown.nodeList]
      split
      · exact hne
      · exact List.append_ne_nil_of_left_ne_nil hne _
    · exact h.nonempty slot hslot
  · rcases hslots slot hslot with rfl | hslot
    · exact (hmem v).2 (h.closed_of_grown hrange hgrown (mem_of_expanded hgrown ha hu) hvu)
    · exact (hmem v).2 (.inr (h.closed slot hslot u hu v hvu))

/-- Two slots that differ in nothing but the place of the cut. -/
theorem append_slot (slot : Slot) : l ++ [slot] ++ slots = l ++ slot :: slots :=
  (List.append_cons ..).symm

/-- **A block whose turn it is** expands its last layer, or comes to a node without an
entry; such a node is then one that a seed reaches. -/
theorem Covering.expand_cases (h : Covering n nodeMap seeds opened t (l ++ ⟨b, true⟩ :: r)) :
    (∃ sc, expand nodeMap t b = .ok sc ∧ (∀ v ∈ b.lastLayer.flatMap nodeMap, v < t.length) ∧
      Grown nodeMap t b sc.viewedTable sc.grown sc.tmp) ∨
    expand nodeMap t b = .error .outOfRange ∧ ∃ v, Reached nodeMap seeds v ∧ n ≤ v := by
  have hne : b.nodeList ≠ [] :=
    h.nonempty ⟨b, true⟩ (List.mem_append_right _ (List.mem_cons_self ..))
  by_cases hrange : ∀ v ∈ b.lastLayer.flatMap nodeMap, v < t.length
  · obtain ⟨sc, new, hexpand, rfl, hgrown⟩ := exists_expand hrange hne
    exact .inl ⟨sc, hexpand, hrange, hgrown⟩
  · push Not at hrange
    obtain ⟨v, hv, hlen⟩ := hrange
    exact .inr ⟨expand_error hne ⟨v, hv, hlen⟩, v, h.neighbours hv, h.length ▸ hlen⟩

/-- **One round** keeps the slots covering and claims a node for every block that stays
active, or it comes to a node without an entry. -/
theorem Covering.round_cases (h : Covering n nodeMap seeds opened t (l ++ slots)) :
    (∃ t' slots', round nodeMap t slots = .ok (t', slots') ∧
      Covering n nodeMap seeds opened t' (l ++ slots') ∧ slots'.length = slots.length ∧
        t'.count (-1) ≤ t.count (-1) ∧
          (slots'.any (·.active) = true → t'.count (-1) < t.count (-1))) ∨
    round nodeMap t slots = .error .outOfRange ∧ ∃ v, Reached nodeMap seeds v ∧ n ≤ v := by
  induction slots generalizing t l with
  | nil => exact .inl ⟨t, [], rfl, h, rfl, le_rfl, nofun⟩
  | cons slot slots ih =>
    obtain ⟨b, active⟩ := slot
    cases active with
    | true =>
      rw [round, if_pos rfl]
      rcases h.expand_cases with ⟨sc, hexpand, hrange, hgrown⟩ | ⟨hexpand, hv⟩
      · have hgrow := h.grow (a := decide (sc.tmp ≠ [])) hrange hgrown (by simp)
        rw [← append_slot] at hgrow
        rw [hexpand]
        change (_ ∨ (round nodeMap sc.viewedTable slots >>= _) = _ ∧ _)
        rcases ih hgrow with ⟨t', slots', hround, h', hlen, hcount, hprogress⟩ | ⟨hround, hv⟩
        · rw [append_slot] at h'
          have hclaimed := hgrown.count
          refine .inl ⟨t', ⟨sc.grown, decide (sc.tmp ≠ [])⟩ :: slots', ?_, h', ?_, by omega,
            fun hany => ?_⟩
          · change (round nodeMap sc.viewedTable slots >>= _) = _
            rw [hround]
            rfl
          · rw [List.length_cons, hlen, List.length_cons]
          · rw [List.any_cons, Bool.or_eq_true] at hany
            rcases hany with hany | hany
            · have hpos : 0 < sc.tmp.length := List.length_pos_iff.2 (of_decide_eq_true hany)
              omega
            · have := hprogress hany
              omega
        · rw [hround]
          exact .inr ⟨rfl, hv⟩
      · rw [hexpand]
        exact .inr ⟨rfl, hv⟩
    | false =>
      rw [← append_slot] at h
      rw [round, if_neg Bool.false_ne_true]
      rcases ih h with ⟨t', slots', hround, h', hlen, hcount, hprogress⟩ | ⟨hround, hv⟩
      · rw [append_slot] at h'
        refine .inl ⟨t', ⟨b, false⟩ :: slots', ?_, h', ?_, hcount, hprogress⟩
        · rw [hround]
          rfl
        · rw [List.length_cons, hlen, List.length_cons]
      · rw [hround]
        exact .inr ⟨rfl, hv⟩

/-- **The second phase ends**, and leaves no block active, or it comes to a node without an
entry. With more fuel than nodes that nobody has claimed, there is no third case. -/
theorem Covering.rounds_cases {fuel : ℕ} (h : Covering n nodeMap seeds opened t slots)
    (hfuel : t.count (-1) < fuel) :
    (∃ t' slots', rounds nodeMap fuel t slots = .ok (t', slots') ∧
      Covering n nodeMap seeds opened t' slots' ∧ slots'.length = slots.length ∧
        ¬ slots'.any (·.active) = true) ∨
    rounds nodeMap fuel t slots = .error .outOfRange ∧ ∃ v, Reached nodeMap seeds v ∧ n ≤ v := by
  induction fuel generalizing t slots with
  | zero => exact absurd hfuel (Nat.not_lt_zero _)
  | succ fuel ih =>
    rcases h.round_cases (l := []) with ⟨t₁, slots₁, hround, h₁, hlen₁, -, hprogress⟩ |
      ⟨hround, hv⟩
    · rw [rounds_of_round hround]
      by_cases hany : slots₁.any (·.active) = true
      · have hdown := hprogress hany
        rw [if_pos hany, ← hlen₁]
        exact ih h₁ (by omega)
      · rw [if_neg hany]
        exact .inl ⟨t₁, slots₁, rfl, h₁, hlen₁, hany⟩
    · rw [rounds, hround]
      exact .inr ⟨rfl, hv⟩

/-- The slots before the second phase. -/
def activated (bs : List Block) : List Slot := bs.map fun block => ⟨block, true⟩

theorem activated_append (bs : List Block) (b : Block) :
    activated (bs ++ [b]) = activated bs ++ [⟨b, true⟩] := by
  rw [activated, List.map_append]
  rfl

theorem blocksOf_activated (bs : List Block) : blocksOf (activated bs) = bs := by
  rw [blocksOf, activated, List.map_map]
  exact List.map_id bs

/-- **A seed opens its block**, whoever has claimed the seed: the table names the new block
from then on, and the node stays in the old one as well. -/
theorem Covering.openSeed {bs : List Block} (h : Covering n nodeMap seeds opened t (activated bs))
    (hs : s ∈ seeds) (hsn : s < n) :
    Covering n nodeMap seeds (opened ++ [s]) (t.set s s) (activated (bs ++ [seedOnly s])) := by
  have hocc : ∀ v, v ∈ occurrences (bs ++ [seedOnly s]) ↔ v ∈ occurrences bs ∨ v = s := fun v => by
    rw [occurrences_seedOnly, List.mem_append, List.mem_singleton]
  obtain ⟨length, viewed, reached, opened, nonempty, closed⟩ := h
  rw [blocksOf_activated] at viewed reached opened closed
  refine ⟨List.length_set.trans length, ?_, ?_, ?_, fun slot hslot => ?_, fun slot hslot => ?_⟩
  · rw [blocksOf_activated]
    intro v hv
    rw [hocc]
    by_cases hvs : v = s
    · exact .inr (.inr hvs)
    · rw [List.getElem?_set_ne (Ne.symm hvs)]
      exact (viewed v hv).imp_right .inl
  · rw [blocksOf_activated]
    intro v hv
    rcases (hocc v).1 hv with hv | rfl
    · exact reached v hv
    · exact ⟨v, hs, .refl⟩
  · rw [blocksOf_activated]
    intro v hv
    rw [hocc]
    exact (List.mem_append.1 hv).imp (opened v) List.mem_singleton.1
  · rw [activated, List.map_append, List.mem_append] at hslot
    rcases hslot with hslot | hslot
    · exact nonempty slot hslot
    · rw [List.map_singleton, List.mem_singleton] at hslot
      rw [hslot]
      exact List.cons_ne_nil _ _
  · rw [blocksOf_activated]
    intro u hu v hvu
    rw [activated, List.map_append, List.mem_append] at hslot
    rcases hslot with hslot | hslot
    · exact (hocc v).2 (.inl (closed slot hslot u hu v hvu))
    · rw [List.map_singleton, List.mem_singleton] at hslot
      rw [hslot] at hu
      cases hu

/-- **The first phase** opens a block for each of the seeds that remain, or it comes to a
node without an entry. -/
theorem Covering.seedBlocks_cases {rest : List ℕ} {bs : List Block}
    (h : Covering n nodeMap seeds opened t (activated bs)) (hseeds : opened ++ rest = seeds) :
    (∃ t' bs', seedBlocks nodeMap rest t bs = .ok (t', bs') ∧
      Covering n nodeMap seeds seeds t' (activated bs') ∧
        bs'.length = bs.length + rest.length) ∨
    seedBlocks nodeMap rest t bs = .error .outOfRange ∧
      ∃ v, Reached nodeMap seeds v ∧ n ≤ v := by
  induction rest generalizing opened t bs with
  | nil =>
    rw [List.append_nil] at hseeds
    exact .inl ⟨t, bs, rfl, hseeds ▸ h, rfl⟩
  | cons s rest ih =>
    have hs : s ∈ seeds := hseeds ▸ List.mem_append_right _ (List.mem_cons_self ..)
    rw [seedBlocks]
    by_cases hsn : s < t.length
    · have hopen := h.openSeed hs (h.length ▸ hsn)
      rw [activated_append] at hopen
      rw [seedBlock_eq hsn]
      rcases hopen.expand_cases with ⟨sc, hexpand, hrange, hgrown⟩ | ⟨hexpand, hv⟩
      · have hgrow := hopen.grow (a := true) hrange hgrown (fun h => by cases h)
        rw [← activated_append] at hgrow
        rw [hexpand]
        change ((∃ t' bs', seedBlocks nodeMap rest sc.viewedTable (bs ++ [sc.grown]) = _ ∧ _) ∨
          seedBlocks nodeMap rest sc.viewedTable (bs ++ [sc.grown]) = _ ∧ _)
        have hcases := ih hgrow (by rw [List.append_assoc]; exact hseeds)
        rw [List.length_append, List.length_singleton, Nat.add_assoc, Nat.add_comm 1] at hcases
        exact hcases
      · rw [hexpand]
        exact .inr ⟨rfl, hv⟩
    · rw [seedBlock_error hsn]
      exact .inr ⟨rfl, s, ⟨s, hs, .refl⟩, h.length ▸ Nat.le_of_not_lt hsn⟩

/-- Before the first seed nothing is claimed. -/
theorem covering_nil : Covering n nodeMap seeds [] (List.replicate n (-1)) (activated []) where
  length := List.length_replicate
  viewed := fun _ hv => .inl (List.getElem?_replicate_of_lt hv)
  reached := nofun
  opened := nofun
  nonempty := nofun
  closed := nofun

/-- **Without an active block everything that a seed reaches is in a block**: along a path
from the seed, no node can be the first that is in none. -/
theorem Covering.mem_of_reached (h : Covering n nodeMap seeds seeds t slots)
    (hidle : ¬ slots.any (·.active) = true) (hv : Reached nodeMap seeds v) :
    v ∈ occurrences (blocksOf slots) := by
  obtain ⟨s, hs, hsv⟩ := hv
  induction hsv with
  | refl => exact h.opened s hs
  | tail _ hstep ih =>
    obtain ⟨b, hb, hu⟩ := mem_occurrences.1 ih
    obtain ⟨slot, hslot, rfl⟩ := List.mem_map.1 hb
    refine h.closed slot hslot _ ?_ _ hstep
    rw [Slot.expanded, if_neg fun ha => hidle (List.any_eq_true.2 ⟨slot, hslot, ha⟩)]
    exact hu

/-- **`NodeBlockConstruct` ends** with one block for each seed, and the blocks hold what
the seeds reach; or it comes to a node without an entry. -/
theorem blocks_cases (n : ℕ) (nodeMap : ℕ → List ℕ) (seeds : List ℕ) (classes : List (List ℕ)) :
    (∃ t bs, (∀ fuel, n < fuel →
      nodeBlockConstruct nodeMap fuel (seeds :: classes) [] (List.replicate n (-1)) = .ok (t, bs)) ∧
        bs.length = seeds.length ∧ ∀ v, v ∈ occurrences bs ↔ Reached nodeMap seeds v) ∨
    (∀ fuel, n < fuel →
      nodeBlockConstruct nodeMap fuel (seeds :: classes) [] (List.replicate n (-1)) =
        .error .outOfRange) ∧ ∃ v, Reached nodeMap seeds v ∧ n ≤ v := by
  have hnil : Covering n nodeMap seeds [] (List.replicate n (-1)) (activated []) := covering_nil
  rcases hnil.seedBlocks_cases rfl with ⟨t₁, bs₁, hseeds, h₁, hlen₁⟩ | ⟨hseeds, hv⟩
  · have hcount : t₁.count (-1) < n + 1 := by
      rw [Nat.lt_succ_iff, ← h₁.length]
      exact List.count_le_length
    have hcall : ∀ fuel,
        nodeBlockConstruct nodeMap fuel (seeds :: classes) [] (List.replicate n (-1)) =
          (rounds nodeMap fuel t₁ (activated bs₁) >>= fun r => .ok (r.1, refactored r.2)) := by
      intro fuel
      change (seedBlocks nodeMap seeds (List.replicate n (-1)) [] >>= _) = _
      rw [hseeds]
      rfl
    rcases h₁.rounds_cases hcount with ⟨t, slots, hrounds, h, hlen, hidle⟩ | ⟨hrounds, hv⟩
    · refine .inl ⟨t, refactored slots, fun fuel hfuel => ?_, ?_, fun v => ?_⟩
      · rw [hcall, rounds_mono hfuel hrounds (fun h => by cases h)]
        rfl
      · rw [refactored, List.length_mapIdx, hlen, activated, List.length_map, hlen₁,
          List.length_nil, Nat.zero_add]
      · rw [occurrences_refactored]
        exact ⟨h.reached v, h.mem_of_reached hidle⟩
    · refine .inr ⟨fun fuel hfuel => ?_, hv⟩
      rw [hcall, rounds_mono hfuel hrounds (fun h => by cases h)]
      rfl
  · refine .inr ⟨fun fuel _ => ?_, hv⟩
    change (seedBlocks nodeMap seeds (List.replicate n (-1)) [] >>= _) = _
    rw [hseeds]
    rfl

/-- **`NodeBlockConstruct` ends with one block for each seed**, and the blocks hold what the
seeds reach. For this the map need not be symmetric; it is enough that every node reached
has an entry. -/
theorem exists_blocks (hlt : ∀ v, Reached nodeMap seeds v → v < n) (classes : List (List ℕ)) :
    ∃ t bs, (∀ fuel, n < fuel →
      nodeBlockConstruct nodeMap fuel (seeds :: classes) [] (List.replicate n (-1)) = .ok (t, bs)) ∧
        bs.length = seeds.length ∧ ∀ v, v ∈ occurrences bs ↔ Reached nodeMap seeds v := by
  rcases blocks_cases n nodeMap seeds classes with hok | ⟨-, v, hv, hle⟩
  · exact hok
  · exact absurd (hlt v hv) (Nat.not_lt.2 hle)

end Partition
end BearRpc
