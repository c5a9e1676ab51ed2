/-
# How many training nodes a partition has

`CountBalance` (`src/partition/graphCheck.cpp`, lines 110 to 123).

The loop that prints goes up to `balanceCount.size()`, and its body makes an entry for
every partition that it comes to.  When it has been at the ids below `i`, these and the
homes of the training nodes are the keys (`Filled`), so there are more than `i` entries as
long as there is a home from `i` on: the loop ends behind the largest home
(`printLoop_eq`).

The numbers are `int`s, and `++` on the largest one is undefined.  So all of this holds if
and only if no partition is the home of 2^31 training nodes (`countBalance_exact_iff`).
-/

import BearRpc.Partition.Messages
import Mathlib.Algebra.BigOperators.Group.Finset.Basic

namespace BearRpc

open Theory

namespace Partition

/-- What ends `CountBalance` without a result. -/
inductive BalanceFault where
  /-- an access to the first element of an empty list -/
  | outOfRange
  /-- `++` on the largest `int` -/
  | overflow
  /-- the loop has not ended -/
  | fuel
  deriving DecidableEq, Repr

/-- The body of the first loop -/
def countTrain (node_partition_map : NodeMap) (balanceCount : Table ℤ ℕ) (trainId : ℤ) :
    Except BalanceFault (Table ℤ ℕ) :=
  match (node_partition_map.get trainId)[0]? with
  | none => .error .outOfRange
  | some partId =>
    let balanceCount :=
      if partId ∈ balanceCount then balanceCount else balanceCount.insert partId 0
    if balanceCount.get partId + 1 < 2 ^ 31 then .ok (balanceCount.modify partId (· + 1))
    else .error .overflow

/-- `for (int i = 0; i < balanceCount.size(); ++i)`, with the lines printed so far -/
def printLoop : ℕ → ℕ → Table ℤ ℕ → List (ℕ × ℕ) → Except BalanceFault (List (ℕ × ℕ))
  | 0, _, _, _ => .error .fuel
  | fuel + 1, i, balanceCount, out =>
    if i < balanceCount.size then
      let out := out ++ [(i, balanceCount.get i)]
      let balanceCount := balanceCount.touch i
      if i + 1 < 2 ^ 31 then printLoop fuel (i + 1) balanceCount out else .error .overflow
    else .ok out

/-- `CountBalance(trainNodeList, node_partition_map)` -/
def countBalance (fuel : ℕ) (trainNodeList : List ℤ) (node_partition_map : NodeMap) :
    Except BalanceFault (List (ℕ × ℕ)) := do
  let balanceCount ← trainNodeList.foldlM (countTrain node_partition_map) ∅
  printLoop fuel 0 balanceCount []

/-- The homes of the training nodes. -/
def homes (m : NodeMap) (trainNodeList : List ℤ) : List ℤ := trainNodeList.map (home m)

/-- The largest home and one, or nothing without a home. -/
def afterLast (homes : List ℤ) : ℕ := (homes.map fun p => p.toNat + 1).foldr max 0

/-- Every training node has a home, and `++i` gets past it. -/
def Homed (m : NodeMap) (trainNodeList : List ℤ) : Prop :=
  ∀ v ∈ trainNodeList, m.get v ≠ [] ∧ 0 ≤ home m v ∧ home m v ≤ 2 ^ 31 - 2

variable {m : NodeMap} {t : Table ℤ ℕ} {trainNodeList ps : List ℤ} {v : ℤ} {i d n fuel : ℕ}
  {out : List (ℕ × ℕ)}

/-! ### The first loop -/

/-- The entry of a home, made if there is none. -/
def entered (t : Table ℤ ℕ) (partId : ℤ) : Table ℤ ℕ :=
  if partId ∈ t then t else t.insert partId 0

/-- One training node more in a partition, with unbounded numbers. -/
def countHome (t : Table ℤ ℕ) (partId : ℤ) : Table ℤ ℕ := (entered t partId).modify partId (· + 1)

/-- One training node more in a partition. -/
def countInt (t : Table ℤ ℕ) (partId : ℤ) : Except BalanceFault (Table ℤ ℕ) :=
  if (entered t partId).get partId + 1 < 2 ^ 31 then .ok (countHome t partId)
  else .error .overflow

/-- The numbers are `int`s. -/
def Fits (t : Table ℤ ℕ) : Prop := ∀ e ∈ t.entries, e.2 < 2 ^ 31

instance : DecidablePred Fits := fun t => List.decidableBAll _ t.entries

/-- The counts of a table fit an `int` if each of them does. -/
theorem fits_iff : Fits t ↔ ∀ z, t.get z < 2 ^ 31 := by
  constructor
  · intro h z
    cases hz : t.lookup z with
    | none =>
      rw [Table.get, hz]
      exact Nat.two_pow_pos 31
    | some x =>
      rw [Table.get_of_lookup hz]
      exact h ⟨z, x⟩ (AList.mem_lookup_iff.1 hz)
  · rintro h ⟨z, x⟩ he
    have hz := h z
    rwa [Table.get_of_lookup (AList.mem_lookup_iff.2 he)] at hz

/-- Making an entry changes no count. -/
theorem get_entered (t : Table ℤ ℕ) (p z : ℤ) : (entered t p).get z = t.get z := by
  rw [entered]
  split
  · rfl
  · next hnew =>
    rw [Table.get_insert]
    split
    · next hz =>
      rw [hz, Table.get_of_not_mem hnew]
      rfl
    · rfl

/-- Counting a node adds one to the count of its home and to no other. -/
theorem get_countHome (t : Table ℤ ℕ) (p z : ℤ) :
    (countHome t p).get z = t.get z + [p].count z := by
  rw [countHome, Table.get_modify, get_entered]
  split
  · next hz => rw [hz, List.count_singleton_self]
  · next hz =>
    rw [get_entered, List.count_eq_zero_of_not_mem (mt List.mem_singleton.1 hz), Nat.add_zero]

/-- Its home then has an entry. -/
theorem mem_countHome (t : Table ℤ ℕ) (p z : ℤ) : z ∈ countHome t p ↔ z ∈ t ∨ z = p := by
  rw [countHome, Table.mem_modify, entered]
  split
  · rw [or_comm]
  · rw [AList.mem_insert, or_comm (a := z ∈ t), or_self_left]

/-- **The first loop is a loop with a test**: the numbers only grow, so it fails in some
turn exactly if they do not fit behind the last one. -/
theorem checked_countInt : Checked Fits BalanceFault.overflow countHome countInt where
  eq_ite := fun t p ht => by
    have hfits : (entered t p).get p + 1 < 2 ^ 31 ↔ Fits (countHome t p) := by
      rw [fits_iff, get_entered]
      constructor
      · intro h z
        rw [get_countHome]
        by_cases hz : z = p
        · rwa [hz, List.count_singleton_self]
        · rw [List.count_eq_zero_of_not_mem (mt List.mem_singleton.1 hz)]
          exact fits_iff.1 ht z
      · intro h
        have hp := h p
        rwa [get_countHome, List.count_singleton_self] at hp
    rw [countInt]
    exact if_congr hfits rfl rfl
  fits_of_step := fun t p h => fits_iff.2 fun z => by
    have hz := fits_iff.1 h z
    rw [get_countHome] at hz
    exact (Nat.le_add_right ..).trans_lt hz

/-- **One training node** is counted for its home, the first of its partitions, if it has
any; without one, the access would be to an empty list. -/
theorem countTrain_eq (h : m.get v ≠ []) : countTrain m t v = countInt t (home m v) := by
  rw [countTrain, getElem?_zero_eq_home h]
  rfl

/-- **The counts of all nodes** are how often each home occurs, on top of what the table had
for it before. -/
theorem get_foldl_countHome {z : ℤ} :
    (ps.foldl countHome t).get z = t.get z + ps.count z := by
  induction ps generalizing t with
  | nil => rfl
  | cons p ps ih =>
    have hcons : p :: ps = [p] ++ ps := rfl
    rw [List.foldl_cons, ih, get_countHome, hcons, List.count_append, Nat.add_assoc]

/-- The entries are those of the homes that occur. -/
theorem mem_foldl_countHome {z : ℤ} : z ∈ ps.foldl countHome t ↔ z ∈ t ∨ z ∈ ps := by
  induction ps generalizing t with
  | nil => exact (or_iff_left List.not_mem_nil).symm
  | cons p ps ih => rw [List.foldl_cons, ih, mem_countHome, List.mem_cons, or_assoc]

/-- No home has more training nodes than an `int` can count. -/
def Countable (homes : List ℤ) : Prop := ∀ p, homes.count p < 2 ^ 31

/-- **All training nodes** are counted for their homes, if and only if the numbers are
`int`s; otherwise one of the increments overflows. -/
theorem foldlM_countTrain (h : ∀ v ∈ trainNodeList, m.get v ≠ []) :
    (Countable (homes m trainNodeList) → trainNodeList.foldlM (countTrain m) ∅ =
      .ok ((homes m trainNodeList).foldl countHome ∅)) ∧
    (¬ Countable (homes m trainNodeList) →
      trainNodeList.foldlM (countTrain m) ∅ = .error .overflow) := by
  have hhomes : ∀ t : Table ℤ ℕ, trainNodeList.foldlM (countTrain m) t =
      (homes m trainNodeList).foldlM countInt t := by
    induction trainNodeList with
    | nil => exact fun t => rfl
    | cons v l ih =>
      intro t
      have hcons : homes m (v :: l) = home m v :: homes m l := rfl
      rw [List.foldlM_cons, countTrain_eq (h v List.mem_cons_self), hcons, List.foldlM_cons]
      exact congrArg _ (funext (ih fun w hw => h w (List.mem_cons_of_mem v hw)))
  have hfits : Fits ((homes m trainNodeList).foldl countHome ∅) ↔
      Countable (homes m trainNodeList) := by
    rw [fits_iff]
    refine forall_congr' fun z => ?_
    rw [get_foldl_countHome, Table.get_empty]
    exact iff_of_eq (congrArg (· < 2 ^ 31) (Nat.zero_add _))
  have hempty : Fits ∅ := fun e he => absurd he List.not_mem_nil
  rw [hhomes, checked_countInt.foldlM_eq hempty]
  exact ⟨fun hcount => if_pos (hfits.2 hcount), fun hcount => if_neg (mt hfits.1 hcount)⟩

/-! ### The loop that prints -/

/-- No home is beyond the last. -/
theorem lt_afterLast {p : ℤ} (hp : p ∈ ps) : p < afterLast ps := by
  induction ps with
  | nil => cases hp
  | cons q ps ih =>
    have hcons : afterLast (q :: ps) = max (q.toNat + 1) (afterLast ps) := rfl
    rcases List.mem_cons.1 hp with rfl | hp
    · omega
    · have := ih hp
      omega

/-- Behind the largest home there is one. -/
theorem exists_mem_afterLast (hpos : 0 < afterLast ps) (h : ∀ p ∈ ps, 0 ≤ p) :
    ∃ p ∈ ps, p + 1 = afterLast ps := by
  induction ps with
  | nil => exact absurd hpos (Nat.lt_irrefl 0)
  | cons q ps ih =>
    have hcons : afterLast (q :: ps) = max (q.toNat + 1) (afterLast ps) := rfl
    have hq := h q (List.mem_cons_self ..)
    by_cases hmax : afterLast ps ≤ q.toNat + 1
    · exact ⟨q, List.mem_cons_self .., by omega⟩
    · obtain ⟨p, hp, hlast⟩ := ih (by omega) fun p hp => h p (List.mem_cons_of_mem _ hp)
      exact ⟨p, List.mem_cons_of_mem _ hp, by omega⟩

/-- **Before the turn `i`** there are entries for the homes and for the ids below `i`. -/
def Filled (ps : List ℤ) (i : ℕ) (t : Table ℤ ℕ) : Prop :=
  ∀ z, z ∈ t ↔ z ∈ ps ∨ ∃ j < i, z = (j : ℕ)

/-- Reading the count of the next home makes its entry, as `operator[]` does, so all entries
up to it are there. -/
theorem Filled.touch (h : Filled ps i t) : Filled ps (i + 1) (t.touch i) := by
  intro z
  rw [Table.mem_touch, h z]
  constructor
  · rintro (rfl | hz | ⟨j, hj, rfl⟩)
    · exact .inr ⟨i, Nat.lt_succ_self i, rfl⟩
    · exact .inl hz
    · exact .inr ⟨j, Nat.lt_succ_of_lt hj, rfl⟩
  · rintro (hz | ⟨j, hj, rfl⟩)
    · exact .inr (.inl hz)
    · rcases Nat.lt_succ_iff_lt_or_eq.1 hj with hj | rfl
      · exact .inr (.inr ⟨j, hj, rfl⟩)
      · exact .inl rfl

/-- The numbers below `n`, as keys. -/
theorem card_castRange (n : ℕ) : ((Finset.range n).image (Nat.cast : ℕ → ℤ)).card = n := by
  rw [Finset.card_image_of_injective _ Nat.cast_injective, Finset.card_range]

/-- **Up to the largest home the loop goes on**: the table has an entry for each number
printed so far, and for the largest home as well. -/
theorem Filled.lt_size (h : Filled ps i t) (hps : ∀ p ∈ ps, 0 ≤ p) (hi : i < afterLast ps) :
    i < t.size := by
  obtain ⟨p, hp, hlast⟩ := exists_mem_afterLast (Nat.zero_lt_of_lt hi) hps
  have hnot : p ∉ (Finset.range i).image (Nat.cast : ℕ → ℤ) := by
    intro hmem
    obtain ⟨j, hj, rfl⟩ := Finset.mem_image.1 hmem
    have := Finset.mem_range.1 hj
    omega
  have hsub : insert p ((Finset.range i).image (Nat.cast : ℕ → ℤ)) ⊆ t.keys.toFinset := by
    intro z hz
    rw [List.mem_toFinset, ← AList.mem_keys, h z]
    rcases Finset.mem_insert.1 hz with rfl | hz
    · exact .inl hp
    · obtain ⟨j, hj, rfl⟩ := Finset.mem_image.1 hz
      exact .inr ⟨j, Finset.mem_range.1 hj, rfl⟩
  have hcard := Finset.card_le_card hsub
  rwa [Finset.card_insert_of_notMem hnot, card_castRange, Table.card_keys] at hcard

/-- **Behind the largest home it ends**: by then the table has an entry for every number up
to it and for no other. -/
theorem Filled.size_le (h : Filled ps (afterLast ps) t) (hps : ∀ p ∈ ps, 0 ≤ p) :
    t.size ≤ afterLast ps := by
  have hsub : t.keys.toFinset ⊆ (Finset.range (afterLast ps)).image (Nat.cast : ℕ → ℤ) := by
    intro z hz
    rw [List.mem_toFinset, ← AList.mem_keys, h z] at hz
    rw [Finset.mem_image]
    rcases hz with hz | ⟨j, hj, rfl⟩
    · have hlt := lt_afterLast hz
      have hpos := hps z hz
      exact ⟨z.toNat, Finset.mem_range.2 (by omega), Int.toNat_of_nonneg hpos⟩
    · exact ⟨j, Finset.mem_range.2 hj, rfl⟩
  have hcard := Finset.card_le_card hsub
  rwa [card_castRange, Table.card_keys] at hcard

/-- **The loop that prints**, from the turn `i` on, with `d` turns to go: a line for each
number up to the largest home, also for those that are nobody's home. -/
theorem printLoop_eq (h : Filled ps i t) (hps : ∀ p ∈ ps, 0 ≤ p) (hi : i + d = afterLast ps)
    (hmax : afterLast ps < 2 ^ 31) (fuel : ℕ) :
    printLoop fuel i t out =
      if d < fuel then .ok (out ++ (List.range' i d).map fun j : ℕ => (j, t.get j))
      else .error .fuel := by
  induction d generalizing i t out fuel with
  | zero =>
    cases fuel with
    | zero => rfl
    | succ fuel =>
      have hend : ¬ i < t.size := by
        rw [Nat.add_zero] at hi
        subst hi
        exact Nat.not_lt.2 (h.size_le hps)
      rw [printLoop, if_neg hend, if_pos (Nat.succ_pos fuel)]
      exact congrArg Except.ok (List.append_nil out).symm
  | succ d ih =>
    cases fuel with
    | zero => rfl
    | succ fuel =>
      rw [printLoop, if_pos (h.lt_size hps (by omega)), if_pos (by omega),
        ih h.touch (by omega)]
      simp only [Table.get_touch, Nat.succ_lt_succ_iff, List.append_assoc, List.range'_succ,
        List.map_cons, List.singleton_append]

/-! ### The call -/

/-- The home of a node is a partition, which is no negative number. -/
theorem nonneg_of_homed (h : Homed m trainNodeList) : ∀ p ∈ homes m trainNodeList, 0 ≤ p := by
  intro p hp
  obtain ⟨v, hv, rfl⟩ := List.mem_map.1 hp
  exact (h v hv).2.1

/-- There are no more partitions than an `int` can number. -/
theorem afterLast_lt_of_homed (h : Homed m trainNodeList) :
    afterLast (homes m trainNodeList) < 2 ^ 31 := by
  by_contra hnot
  obtain ⟨p, hp, hlast⟩ := exists_mem_afterLast (by omega) (nonneg_of_homed h)
  obtain ⟨v, hv, rfl⟩ := List.mem_map.1 hp
  have := (h v hv).2.2
  omega

/-- The counts of the ids up to the largest one are those of all. -/
theorem sum_count_range (h : ∀ p ∈ ps, 0 ≤ p) :
    ((List.range (afterLast ps)).map fun i : ℕ => ps.count (i : ℤ)).sum = ps.length := by
  have hmem : ∀ p ∈ (ps : Multiset ℤ),
      p ∈ (Finset.range (afterLast ps)).image (Nat.cast : ℕ → ℤ) := by
    intro p hp
    have hlt := lt_afterLast hp
    have hpos := h p hp
    exact Finset.mem_image.2
      ⟨p.toNat, Finset.mem_range.2 (by omega), Int.toNat_of_nonneg hpos⟩
  have hsum : ∀ (n : ℕ) (f : ℕ → ℕ), ((List.range n).map f).sum = ∑ i ∈ Finset.range n, f i :=
    fun _ _ => (Multiset.sum_coe _).symm
  calc ((List.range (afterLast ps)).map fun i : ℕ => ps.count (i : ℤ)).sum
      = ∑ i ∈ Finset.range (afterLast ps), (ps : Multiset ℤ).count (i : ℤ) := by
        simp only [hsum, Multiset.coe_count]
    _ = ∑ p ∈ (Finset.range (afterLast ps)).image (Nat.cast : ℕ → ℤ),
          (ps : Multiset ℤ).count p :=
        (Finset.sum_image (f := fun p => (ps : Multiset ℤ).count p) Nat.cast_injective.injOn).symm
    _ = ps.length := Multiset.sum_count_eq_card hmem

/-- **The lines**, where the numbers are `int`s: for each number up to the largest home, how
many training nodes have it as their home. The call needs one turn more than there are
lines. -/
theorem countBalance_eq (h : Homed m trainNodeList) (hcount : Countable (homes m trainNodeList))
    (fuel : ℕ) :
    countBalance fuel trainNodeList m =
      if afterLast (homes m trainNodeList) < fuel then
        .ok ((List.range (afterLast (homes m trainNodeList))).map fun i : ℕ =>
          (i, (homes m trainNodeList).count (i : ℤ)))
      else .error .fuel := by
  have hps := nonneg_of_homed h
  have hfilled : Filled (homes m trainNodeList) 0
      ((homes m trainNodeList).foldl countHome ∅) := by
    intro z
    rw [mem_foldl_countHome, or_iff_right (AList.notMem_empty z)]
    exact (or_iff_left (by rintro ⟨j, hj, -⟩; cases hj)).symm
  have hget : ∀ z, Table.get ((homes m trainNodeList).foldl countHome ∅) z =
      (homes m trainNodeList).count z := fun z =>
    get_foldl_countHome.trans (Nat.zero_add _)
  rw [countBalance, (foldlM_countTrain fun v hv => (h v hv).1).1 hcount]
  change printLoop fuel 0 ((homes m trainNodeList).foldl countHome ∅) [] = _
  rw [printLoop_eq hfilled hps (Nat.zero_add _) (afterLast_lt_of_homed h), List.nil_append,
    ← List.range_eq_range']
  simp only [hget]

/-- **One home too often**: the first loop overflows, and nothing is printed however much
fuel there is. -/
theorem countBalance_overflow (h : ∀ v ∈ trainNodeList, m.get v ≠ [])
    (hcount : ¬ Countable (homes m trainNodeList)) (fuel : ℕ) :
    countBalance fuel trainNodeList m = .error .overflow := by
  rw [countBalance, (foldlM_countTrain h).2 hcount]
  rfl

/-- **`CountBalance` ends behind the largest home**, and has printed each id up to it once,
with the number of training nodes whose home it is, if and only if no partition is the home
of 2^31 of them. -/
theorem countBalance_exact_iff (h : Homed m trainNodeList) :
    ((∀ fuel, countBalance fuel trainNodeList m =
      if afterLast (homes m trainNodeList) < fuel then
        .ok ((List.range (afterLast (homes m trainNodeList))).map fun i : ℕ =>
          (i, (homes m trainNodeList).count (i : ℤ)))
      else .error .fuel) ∧
    ((List.range (afterLast (homes m trainNodeList))).map fun i : ℕ =>
      (homes m trainNodeList).count (i : ℤ)).sum = trainNodeList.length) ↔
      ∀ p, (homes m trainNodeList).count p < 2 ^ 31 := by
  have hsum := (sum_count_range (nonneg_of_homed h)).trans (List.length_map _)
  refine ⟨fun hall => ?_, fun hcount => ⟨countBalance_eq h hcount, hsum⟩⟩
  by_contra hcount
  have hover := countBalance_overflow (fun v hv => (h v hv).1) hcount
    (afterLast (homes m trainNodeList) + 1)
  rw [hall.1, if_pos (Nat.lt_succ_self _)] at hover
  cases hover

/-- The training node 0 in the partition 2, and the training node 1 in the partition 0. -/
def gapInHomes : NodeMap := (NodeMap.push ∅ 0 2).push 1 0

example : countBalance 4 [0, 1] gapInHomes = .ok [(0, 1), (1, 0), (2, 1)] := rfl

/-- The hypothesis of `countBalance_exact_iff` is satisfiable, with a partition that is the
home of no training node. -/
theorem countBalance_exact_iff_gapInHomes :
    ((∀ fuel, countBalance fuel [0, 1] gapInHomes =
      if afterLast (homes gapInHomes [0, 1]) < fuel then
        .ok ((List.range (afterLast (homes gapInHomes [0, 1]))).map fun i : ℕ =>
          (i, (homes gapInHomes [0, 1]).count (i : ℤ)))
      else .error .fuel) ∧
    ((List.range (afterLast (homes gapInHomes [0, 1]))).map fun i : ℕ =>
      (homes gapInHomes [0, 1]).count (i : ℤ)).sum = 2) ↔
      ∀ p, (homes gapInHomes [0, 1]).count p < 2 ^ 31 :=
  countBalance_exact_iff (by unfold Homed; decide)

/-! ### More training nodes than an `int` can count -/

/-- The node 0 in the partition 0. -/
def oneNode : NodeMap := NodeMap.push ∅ 0 0

/-- All entries of this list are at home in partition 0. -/
theorem homed_oneNode (n : ℕ) : Homed oneNode (List.replicate n 0) := by
  intro v hv
  have hget : Table.get oneNode 0 = [0] := rfl
  have hhome : home oneNode 0 = 0 := rfl
  rw [List.eq_of_mem_replicate hv, hget, hhome]
  exact ⟨List.cons_ne_nil _ _, by decide, by decide⟩

/-- **The counts can outgrow an `int`**: a list that names the only node `2 ^ 31` times, as
a file of training nodes may. -/
theorem not_countable_oneNode {n : ℕ} (hn : 2 ^ 31 ≤ n) :
    ¬ Countable (homes oneNode (List.replicate n 0)) := by
  intro hlt
  have hhome : home oneNode 0 = 0 := rfl
  have hzero := hlt 0
  rw [homes, List.map_replicate, hhome, List.count_replicate_self] at hzero
  exact Nat.not_lt.2 hn hzero

/-- **The training node number 2^31 of a partition overflows its number**: the list names
the only node of the graph as often, so that the lines are never printed. -/
theorem not_countBalance_exact_oneNode :
    ¬ ∀ (m : NodeMap) (trainNodeList : List ℤ), Homed m trainNodeList →
      (∀ fuel, countBalance fuel trainNodeList m =
        if afterLast (homes m trainNodeList) < fuel then
          .ok ((List.range (afterLast (homes m trainNodeList))).map fun i : ℕ =>
            (i, (homes m trainNodeList).count (i : ℤ)))
        else .error .fuel) ∧
      ((List.range (afterLast (homes m trainNodeList))).map fun i : ℕ =>
        (homes m trainNodeList).count (i : ℤ)).sum = trainNodeList.length := by
  intro h
  obtain ⟨n, hn⟩ : ∃ n : ℕ, 2 ^ 31 ≤ n := ⟨2 ^ 31, Nat.le_refl _⟩
  have hover := countBalance_overflow (fun v hv => (homed_oneNode n v hv).1)
    (not_countable_oneNode hn) (afterLast (homes oneNode (List.replicate n 0)) + 1)
  rw [(h _ _ (homed_oneNode n)).1, if_pos (Nat.lt_succ_self _)] at hover
  cases hover

end Partition
end BearRpc
