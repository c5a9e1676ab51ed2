/-
# The turns of the blocks

`NodeBlockConstruct` does two things to `viewedTable` and the blocks: it opens the
block of a seed, and it gives a block its turn, which expands the last layer.  In the
first phase a turn comes right behind every opening (`seedBlock_eq`); in the second one
the active blocks take turns.

So what both steps keep holds behind the call, whatever it is (`Kept.ofCall`).
-/

import BearRpc.Partition.Reach

namespace BearRpc
namespace Partition

variable {nodeMap : ℕ → List ℕ} {n s fuel : ℕ} {seeds : List ℕ} {t t' : List ℤ} {b : Block}
  {bs bs' : List Block} {l slots slots' : List Slot} {sc : Scan}

/-- **What the two steps keep.**  Behind its turn a block may stay active in any case, and
is not active only if it has claimed nothing. -/
structure Kept (nodeMap : ℕ → List ℕ) (Inv : List ℤ → List Slot → Prop) : Prop where
  openSeed : ∀ {t bs s}, Inv t (activated bs) → s < t.length →
    Inv (t.set s s) (activated (bs ++ [seedOnly s]))
  turn : ∀ {t l r b sc a}, Inv t (l ++ ⟨b, true⟩ :: r) → expand nodeMap t b = .ok sc →
    (a = false → sc.tmp = []) → Inv sc.viewedTable (l ++ ⟨sc.grown, a⟩ :: r)

variable {Inv : List ℤ → List Slot → Prop}

/-- **The first phase** keeps what holds of the blocks that are open, as long as opening a
seed and a turn do. -/
theorem Kept.seedBlocks (hkept : Kept nodeMap Inv)
    (h : seedBlocks nodeMap seeds t bs = .ok (t', bs')) (hinv : Inv t (activated bs)) :
    Inv t' (activated bs') := by
  induction seeds generalizing t bs with
  | nil =>
    cases h
    exact hinv
  | cons s seeds ih =>
    obtain ⟨sc, hblock, hrest⟩ := exists_of_bind h
    by_cases hs : s < t.length
    · have hopen := hkept.openSeed hinv hs
      rw [activated_append] at hopen
      rw [seedBlock_eq hs] at hblock
      have hturn := hkept.turn (a := true) hopen hblock nofun
      rw [← activated_append] at hturn
      exact ih hrest hturn
    · rw [seedBlock_error hs] at hblock
      cases hblock

/-- **A round**, behind the turns of `l`: what each turn keeps holds behind the round.
Blocks that are not active have no turn. -/
theorem Kept.round (hkept : Kept nodeMap Inv) (h : round nodeMap t slots = .ok (t', slots'))
    (hinv : Inv t (l ++ slots)) : Inv t' (l ++ slots') := by
  induction slots generalizing t l slots' with
  | nil =>
    cases h
    exact hinv
  | cons slot slots ih =>
    obtain ⟨b, active⟩ := slot
    cases active with
    | true =>
      rw [Partition.round, if_pos rfl] at h
      obtain ⟨sc, hexpand, h⟩ := exists_of_bind h
      obtain ⟨⟨t₁, slots₁⟩, hround, h⟩ := exists_of_bind h
      cases h
      have hturn := hkept.turn (a := decide (sc.tmp ≠ [])) hinv hexpand (by simp)
      rw [← append_slot] at hturn ⊢
      exact ih hround hturn
    | false =>
      rw [Partition.round, if_neg Bool.false_ne_true] at h
      obtain ⟨⟨t₁, slots₁⟩, hround, h⟩ := exists_of_bind h
      cases h
      rw [← append_slot] at hinv ⊢
      exact ih hround hinv

/-- **The second phase** keeps it as well, and ends when no block is active any more. -/
theorem Kept.rounds (hkept : Kept nodeMap Inv) (h : rounds nodeMap fuel t slots = .ok (t', slots'))
    (hinv : Inv t slots) : Inv t' slots' ∧ ¬ slots'.any (·.active) = true := by
  induction fuel generalizing t slots with
  | zero => cases h
  | succ fuel ih =>
    obtain ⟨⟨t₁, slots₁⟩, hround, h⟩ := exists_of_bind h
    have hinv₁ : Inv t₁ slots₁ := hkept.round (l := []) hround hinv
    dsimp only at h
    split at h
    · exact ih h hinv₁
    · next hidle =>
      cases h
      exact ⟨hinv₁, hidle⟩

/-- **The call**: the blocks returned are those of slots of which none is active, and what
both steps keep holds of them. -/
theorem Kept.ofCall (hkept : Kept nodeMap Inv) {classes : List (List ℕ)}
    (h : nodeBlockConstruct nodeMap fuel (seeds :: classes) [] t = .ok (t', bs'))
    (hinv : Inv t []) :
    ∃ slots, bs' = refactored slots ∧ Inv t' slots ∧ ¬ slots.any (·.active) = true := by
  obtain ⟨⟨t₁, bs₁⟩, hseeds, h⟩ := exists_of_bind h
  obtain ⟨⟨t₂, slots⟩, hrounds, h⟩ := exists_of_bind h
  cases h
  obtain ⟨hslots, hidle⟩ := hkept.rounds hrounds (hkept.seedBlocks hseeds hinv)
  exact ⟨slots, rfl, hslots, hidle⟩

end Partition
end BearRpc
