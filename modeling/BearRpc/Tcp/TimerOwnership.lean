/-
# Who deletes a timer

`TimerQueue::~TimerQueue`, `cancelTimer` and `handleRead`
(`src/RPC/bearTCP/TimerQueue.cc`, lines 76 to 126) delete timers.  A live timer
has one owner: the entry in `timers_`, or the batch that `handleRead` walks over
(`owned`).

`cancelTimer` deletes its timer whoever owns it.  Where the batch owns it,
`handleRead` goes on to access a deleted timer (`not_soundTimers_cancelItself`).
`soundTimers_of_run` says that this is all that can go wrong: as long as no timer
is cancelled that the batch still owns, every timer is deleted exactly once, none
is accessed afterwards, and no callback starts once its timer is cancelled.
-/

import BearRpc.Tcp.TimerQueue
import BearRpc.Theory.Ledger

namespace BearRpc

open Theory Function

namespace TimerQueue

/-- The timers the batch owns. -/
def Point.pending : Point → List Ptr
  | .walking _ rest => rest.map Entry.timer
  | .running _ p rest => p :: rest.map Entry.timer
  | .returned _ p rest => p :: rest.map Entry.timer
  | _ => []

/-- The batch to come, with the time it has expired at. -/
def Point.batch : Point → Option (ℤ × List Entry)
  | .walking now rest => some (now, rest)
  | .running now _ rest => some (now, rest)
  | .returned now _ rest => some (now, rest)
  | _ => none

/-- The timers owned, by `timers_` or by the batch. -/
def owned (point : Point) (timers : Finset Entry) : Multiset Ptr :=
  timers.val.map Entry.timer + ↑point.pending

/-- The timers created, in order. -/
def createdOf (h : List Event) : List Ptr :=
  h.filterMap fun | .created p => some p | _ => none

/-- The timers deleted, in order. -/
def deletedOf (h : List Event) : List Ptr :=
  h.filterMap fun | .deleted p => some p | _ => none

/-- No callback starts behind the cancellation of its timer. -/
def Silent (h : List Event) : Prop :=
  h.Pairwise fun a b => ∀ p, a = .cancelled p → b ≠ .started p

/-- **What timers are owed.** -/
structure SoundTimers (s : State) : Prop where
  deleted_once : (deletedOf s.history).Nodup
  all_deleted : s.point = .destroyed → ∀ p, .created p ∈ s.history → .deleted p ∈ s.history
  no_dangling : s.point ≠ .dangling
  silent : Silent s.history

/-- The action cancels no timer that the batch owns: not the one whose callback
runs, and none that is to come. -/
def Careful (s : State) (a : Action) : Prop := ∀ p, a = .cancel p → p ∉ s.point.pending

/-- What holds of the members in every state of a careful run. -/
structure Inv (point : Point) (heap : Ptr → Option Timer) (timers : Finset Entry)
    (history : List Event) : Prop where
  ledger : Ledger (fun p => heap p ≠ none) (createdOf history) (deletedOf history)
    (owned point timers)
  /-- the time in an entry is the one in its timer -/
  key : ∀ e ∈ timers, ∃ t, heap e.timer = some t ∧ t.when = e.when
  due : ∀ now rest, point.batch = some (now, rest) → ∀ e ∈ rest,
    ∃ t, heap e.timer = some t ∧ t.when = e.when ∧ e.when ≤ now
  valid : ∀ p t, heap p = some t → t.canceled = false
  cancelled : ∀ p, .cancelled p ∈ history → .deleted p ∈ history
  silent : Silent history
  safe : point ≠ .dangling ∧ point ≠ .aborted
  ended : point = .destroyed → timers = ∅

/-- What holds in every state of a careful run. -/
def State.Inv (s : State) : Prop := TimerQueue.Inv s.point s.heap s.timers s.history

variable {s : State} {point : Point} {heap : Ptr → Option Timer} {timers : Finset Entry}
  {p : Ptr} {e : Entry} {t : Timer} {now when interval clock : ℤ} {rest : List Entry}
  {h : List Event}

@[simp] theorem createdOf_append (h h' : List Event) :
    createdOf (h ++ h') = createdOf h ++ createdOf h' := List.filterMap_append

@[simp] theorem deletedOf_append (h h' : List Event) :
    deletedOf (h ++ h') = deletedOf h ++ deletedOf h' := List.filterMap_append

theorem mem_createdOf : p ∈ createdOf h ↔ .created p ∈ h := by
  simp only [createdOf, List.mem_filterMap]
  constructor
  · rintro ⟨e, he, hp⟩
    cases e <;> cases hp
    exact he
  · exact fun hp => ⟨_, hp, rfl⟩

theorem mem_deletedOf : p ∈ deletedOf h ↔ .deleted p ∈ h := by
  simp only [deletedOf, List.mem_filterMap]
  constructor
  · rintro ⟨e, he, hp⟩
    cases e <;> cases hp
    exact he
  · exact fun hp => ⟨_, hp, rfl⟩

/-- An event that starts no cancelled timer keeps a history silent. -/
theorem Silent.concat (hs : Silent h) {e : Event}
    (he : ∀ p, e = .started p → .cancelled p ∉ h) : Silent (h ++ [e]) := by
  rw [Silent, List.pairwise_append]
  refine ⟨hs, List.pairwise_singleton _ _, fun a ha b hb p hp hb' => ?_⟩
  rw [List.mem_singleton] at hb
  exact he p (hb ▸ hb') (hp ▸ ha)

theorem inv_init : init.Inv where
  ledger := Ledger.empty fun _ hp => hp rfl
  key := by simp [init]
  due := nofun
  valid := nofun
  cancelled := nofun
  silent := List.Pairwise.nil
  safe := ⟨nofun, nofun⟩
  ended := nofun

/-- **The invariant gives the timers what they are owed**: none is used behind its deletion
or deleted twice, and none is forgotten. -/
theorem State.Inv.soundTimers (hi : s.Inv) : SoundTimers s where
  deleted_once := Multiset.coe_nodup.1 hi.ledger.deleted_once
  all_deleted := by
    intro hp p hc
    have howned : owned s.point s.timers = 0 := by
      rw [owned, hi.ended hp, hp]
      rfl
    have hl := hi.ledger
    rw [howned] at hl
    rw [← mem_deletedOf, ← Multiset.mem_coe, hl.all_deleted, Multiset.mem_coe, mem_createdOf]
    exact hc
  no_dangling := hi.safe.1
  silent := hi.silent

/-- The timers to come are in the batch. -/
theorem Point.mem_pending (hb : point.batch = some (now, rest)) (he : e ∈ rest) :
    e.timer ∈ point.pending := by
  have hin := List.mem_map_of_mem (f := Entry.timer) he
  cases point <;> cases hb
  · exact hin
  · exact List.mem_cons_of_mem _ hin
  · exact List.mem_cons_of_mem _ hin

section Owners

variable (hi : Inv point heap timers h)

include hi

/-- A timer of the batch is live. -/
theorem Inv.live_of_pending (hp : p ∈ point.pending) :
    ∃ t, heap p = some t ∧ t.canceled = false := by
  have hmem : p ∈ owned point timers := Multiset.mem_add.2 (.inr hp)
  obtain ⟨t, ht⟩ := Option.ne_none_iff_exists'.1 ((hi.ledger.live_iff p).2 hmem)
  exact ⟨t, ht, hi.valid p t ht⟩

/-- The batch and `timers_` own different timers. -/
theorem Inv.timer_ne (he : e ∈ timers) (hp : p ∈ point.pending) : e.timer ≠ p := by
  have hnd := hi.ledger.owned_nodup
  rw [owned, Multiset.nodup_add] at hnd
  rintro rfl
  exact Multiset.disjoint_left.1 hnd.2.2 (Multiset.mem_map_of_mem _ he) hp

theorem Inv.pending_nodup : point.pending.Nodup := by
  have hnd := hi.ledger.owned_nodup
  rw [owned, Multiset.nodup_add] at hnd
  exact Multiset.coe_nodup.1 hnd.2.1

/-- A live timer that the batch does not own has its entry in `timers_`. -/
theorem Inv.entry_mem (ht : heap p = some t) (hp : p ∉ point.pending) :
    entry t.when p ∈ timers := by
  have hmem : p ∈ owned point timers :=
    (hi.ledger.live_iff p).1 (by rw [ht]; exact Option.some_ne_none t)
  rcases Multiset.mem_add.1 hmem with h | h
  · obtain ⟨e, he, rfl⟩ := Multiset.mem_map.1 h
    obtain ⟨t', ht', hwhen⟩ := hi.key e he
    rw [ht] at ht'
    cases ht'
    rw [hwhen]
    exact he
  · exact absurd h hp

/-- Two entries of one timer are one entry. -/
theorem Inv.entry_unique {e' : Entry} (he : e ∈ timers) (he' : e' ∈ timers)
    (h : e.timer = e'.timer) : e = e' := by
  obtain ⟨t, ht, hwhen⟩ := hi.key e he
  obtain ⟨t', ht', hwhen'⟩ := hi.key e' he'
  rw [h, ht'] at ht
  cases ht
  rw [e.eq_entry, e'.eq_entry, ← hwhen, hwhen', h]

/-- A pointer that was never handed out points to nothing. -/
theorem Inv.dead_of_fresh (hp : .created p ∉ h) : heap p = none := by
  by_contra hlive
  have howned := (hi.ledger.live_iff p).1 hlive
  rw [← mem_createdOf, ← Multiset.mem_coe, hi.ledger.conserved] at hp
  exact hp (Multiset.mem_add.2 (.inr howned))

/-- A timer that is stored without being cancelled leaves all timers valid. -/
theorem Inv.valid_update {o : Option Timer} (ho : ∀ t, o = some t → t.canceled = false)
    (q : Ptr) (t : Timer) (ht : update heap p o q = some t) : t.canceled = false := by
  by_cases hq : q = p
  · rw [hq, update_self] at ht
    exact ho t ht
  · rw [update_of_ne hq] at ht
    exact hi.valid q t ht

/-- An event that is no cancellation owes no deletion. -/
theorem Inv.cancelled_concat {e : Event} (he : ∀ p, e ≠ .cancelled p) (q : Ptr)
    (hq : .cancelled q ∈ h ++ [e]) : .deleted q ∈ h ++ [e] := by
  rcases List.mem_append.1 hq with hq | hq
  · exact List.mem_append_left _ (hi.cancelled q hq)
  · exact absurd (List.mem_singleton.1 hq).symm (he q)

end Owners

/-! ### The steps -/

/-- `addTimer` with a new pointer inserts a new entry. -/
theorem State.addTimer_of_fresh (s : State) (p : Ptr) (when interval clock : ℤ)
    (h : entry when p ∉ s.timers) : ∃ fd, s.addTimer p when interval clock =
      { s with
        heap := update s.heap p (some (.new when interval))
        timers := insert (entry when p) s.timers
        timerfd := fd
        history := s.history ++ [.created p] } := by
  simp only [addTimer, store, record, h, if_false]
  by_cases hfirst : ∀ e ∈ insert (entry when p) s.timers, entry when p ≤ e
  · exact ⟨some (timerfdSet when clock), if_pos hfirst⟩
  · exact ⟨s.timerfd, if_neg hfirst⟩

/-- **A new timer keeps the invariant**: its address is that of no live timer, and `timers_`
owns it. -/
theorem Inv.create (hi : Inv point heap timers h) (hp : .created p ∉ h)
    (hd : point ≠ .destroyed) :
    Inv point (update heap p (some (.new when interval))) (insert (entry when p) timers)
      (h ++ [.created p]) := by
  have hdead := hi.dead_of_fresh hp
  have hother : ∀ q t, heap q = some t → q ≠ p := by
    rintro q t hq rfl
    rw [hdead] at hq
    cases hq
  have hkey : ∀ e ∈ timers, e.timer ≠ p := fun e he => by
    obtain ⟨t, ht, -⟩ := hi.key e he
    exact hother _ _ ht
  have hnew : entry when p ∉ timers := fun he => hkey _ he rfl
  refine ⟨?_, ?_, ?_, hi.valid_update ?_, hi.cancelled_concat nofun, hi.silent.concat nofun,
    hi.safe, fun he => absurd he hd⟩
  · have hcreated : (↑(createdOf (h ++ [.created p])) : Multiset Ptr) = ↑(createdOf h) + {p} := by
      rw [createdOf_append, ← Multiset.coe_add]
      rfl
    have hdeleted : deletedOf (h ++ [.created p]) = deletedOf h := by
      rw [deletedOf_append]
      exact List.append_nil _
    rw [hcreated, hdeleted]
    refine hi.ledger.create ?_ ?_ fun q => ?_
    · rwa [Multiset.mem_coe, mem_createdOf]
    · rw [owned, Finset.insert_val_of_notMem hnew, Multiset.map_cons, entry_timer,
        Multiset.cons_add]
      rfl
    · by_cases hq : q = p
      · simp [hq]
      · simp [hq]
  · intro e he
    rcases Finset.mem_insert.1 he with rfl | he
    · exact ⟨.new when interval, update_self .., rfl⟩
    · rw [update_of_ne (hkey e he)]
      exact hi.key e he
  · intro now rest hb e he
    obtain ⟨t, ht, hwhen⟩ := hi.due now rest hb e he
    rw [update_of_ne (hother _ _ ht)]
    exact ⟨t, ht, hwhen⟩
  · rintro t ⟨⟩
    rfl

/-- **A cancelled timer keeps the invariant**, if the batch does not own it: it is taken
from `timers_` and deleted, and nothing else refers to it. -/
theorem Inv.cancel (hi : Inv point heap timers h) (ht : heap p = some t)
    (hc : p ∉ point.pending) :
    Inv point (update heap p none) (timers.erase (entry t.when p))
      (h ++ [.cancelled p] ++ [.deleted p]) := by
  have hmem := hi.entry_mem ht hc
  have hother : ∀ e ∈ timers.erase (entry t.when p), e.timer ≠ p := by
    intro e he heq
    rw [Finset.mem_erase] at he
    exact he.1 (hi.entry_unique he.2 hmem heq)
  have hsilent : Silent (h ++ [.cancelled p]) := hi.silent.concat nofun
  refine ⟨?_, ?_, ?_, hi.valid_update nofun, ?_, hsilent.concat nofun, hi.safe, ?_⟩
  · have hcreated : createdOf (h ++ [.cancelled p] ++ [.deleted p]) = createdOf h := by
      simp [createdOf]
    have hdeleted : deletedOf (h ++ [.cancelled p] ++ [.deleted p]) = deletedOf h ++ [p] := by
      simp [deletedOf]
    rw [hcreated, hdeleted, ← Multiset.coe_add]
    refine hi.ledger.delete ?_ fun q => ?_
    · rw [owned, owned, Finset.erase_val, ← Multiset.cons_add, ← entry_timer t.when p,
        ← Multiset.map_cons, entry_timer, Multiset.cons_erase hmem]
    · by_cases hq : q = p
      · simp [hq]
      · simp [hq]
  · intro e he
    rw [update_of_ne (hother e he)]
    exact hi.key e (Finset.mem_of_mem_erase he)
  · intro now rest hb e he
    have hne : e.timer ≠ p := fun heq => hc (heq ▸ Point.mem_pending hb he)
    rw [update_of_ne hne]
    exact hi.due now rest hb e he
  · intro q hq
    by_cases heq : q = p
    · simp [heq]
    · have hq' : Event.cancelled q ∈ h := by simpa [heq] using hq
      exact List.mem_append_left _ (List.mem_append_left _ (hi.cancelled q hq'))
  · intro hd
    rw [hi.ended hd]
    rfl

/-- The thread moves on, with the batch it had. -/
theorem Inv.move (hi : Inv point heap timers h) {point' : Point}
    (hp : point'.pending = point.pending)
    (hb : ∀ now rest, point'.batch = some (now, rest) → ∀ e ∈ rest,
      ∃ t, heap e.timer = some t ∧ t.when = e.when ∧ e.when ≤ now)
    (hsafe : point' ≠ .dangling ∧ point' ≠ .aborted) (hd : point' ≠ .destroyed) :
    Inv point' heap timers h :=
  ⟨hi.ledger.transfer (by rw [owned, owned, hp]) fun _ => Iff.rfl, hi.key, hb, hi.valid,
    hi.cancelled, hi.silent, hsafe, fun he => absurd he hd⟩

/-- **The callback of an owned timer starts**: it is alive, and stays alive as long as its
owner keeps it. -/
theorem Inv.start (hi : Inv point heap timers h) (hp : p ∈ owned point timers) :
    Inv point heap timers (h ++ [.started p]) := by
  have hnot : .cancelled p ∉ h := by
    intro hc
    have hd := hi.cancelled p hc
    rw [← mem_deletedOf, ← Multiset.mem_coe] at hd
    exact hi.ledger.not_deleted hp hd
  have hcreated : createdOf (h ++ [.started p]) = createdOf h := by simp [createdOf]
  have hdeleted : deletedOf (h ++ [.started p]) = deletedOf h := by simp [deletedOf]
  refine ⟨?_, hi.key, hi.due, hi.valid, hi.cancelled_concat nofun, hi.silent.concat ?_, hi.safe,
    hi.ended⟩
  · rw [hcreated, hdeleted]
    exact hi.ledger
  · rintro q ⟨⟩
    exact hnot

/-- **The expired timers pass from `timers_` to the batch**: each of them still has one
owner, and no timer has two. -/
theorem Inv.beginRead (hi : Inv s.point s.heap s.timers s.history) (hp : s.point = .idle)
    (now : ℤ) : (s.beginRead now).Inv := by
  rw [hp] at hi
  refine ⟨hi.ledger.transfer ?_ fun _ => Iff.rfl, ?_, ?_, hi.valid, hi.cancelled, hi.silent,
    ⟨nofun, nofun⟩, nofun⟩
  · change (s.timers.filter (¬ · < entry (now + 1) 0)).val.map Entry.timer +
      ↑((getExpired s now).map Entry.timer) = s.timers.val.map Entry.timer + 0
    rw [← Multiset.map_coe, getExpired, Finset.sort_eq, ← Multiset.map_add, add_zero,
      Finset.filter_val, Finset.filter_val, add_comm, Multiset.filter_add_not]
  · exact fun e he => hi.key e (Finset.mem_of_mem_filter e he)
  · intro now' rest hb e he
    cases hb
    obtain ⟨hmem, hlt⟩ := (getExpired_eq s now e).1 he
    obtain ⟨t, ht, hwhen⟩ := hi.key e hmem
    exact ⟨t, ht, hwhen, (lt_entry_iff e now).1 hlt⟩

/-- **A repeating timer passes from the batch to `timers_`**, under its next time; it has
not been cancelled, and its address is in neither of them otherwise. -/
theorem Inv.reinsert (hi : Inv (.returned now p rest) heap timers h) (ht : heap p = some t)
    (hc : t.canceled = false) :
    Inv (.walking now rest) (update heap p (some t.restart))
      (insert (entry t.restart.when p) timers) h := by
  have hmem : p ∈ (Point.returned now p rest).pending := List.mem_cons_self ..
  have hkey : ∀ e ∈ timers, e.timer ≠ p := fun e he => hi.timer_ne he hmem
  have hnew : entry t.restart.when p ∉ timers := fun he => hkey _ he rfl
  have hrest : ∀ e ∈ rest, e.timer ≠ p := by
    rintro e he rfl
    exact (List.nodup_cons.1 hi.pending_nodup).1 (List.mem_map_of_mem he)
  refine ⟨hi.ledger.transfer ?_ fun q => ?_, ?_, ?_, hi.valid_update ?_, hi.cancelled, hi.silent,
    ⟨nofun, nofun⟩, nofun⟩
  · rw [owned, owned, Finset.insert_val_of_notMem hnew, Multiset.map_cons, entry_timer,
      Multiset.cons_add, ← Multiset.add_cons]
    rfl
  · by_cases hq : q = p
    · simp [hq, ht]
    · simp [hq]
  · intro e he
    rcases Finset.mem_insert.1 he with rfl | he
    · exact ⟨t.restart, update_self .., rfl⟩
    · rw [update_of_ne (hkey e he)]
      exact hi.key e he
  · intro now' rest' hb e he
    cases hb
    rw [update_of_ne (hrest e he)]
    exact hi.due now rest rfl e he
  · rintro t' ⟨⟩
    exact hc

/-- **A one-shot timer of the batch is deleted** behind its callback, and its place in the
batch is passed. -/
theorem Inv.dispose (hi : Inv (.returned now p rest) heap timers h) :
    Inv (.walking now rest) (update heap p none) timers (h ++ [.deleted p]) := by
  have hmem : p ∈ (Point.returned now p rest).pending := List.mem_cons_self ..
  have hrest : ∀ e ∈ rest, e.timer ≠ p := by
    rintro e he rfl
    exact (List.nodup_cons.1 hi.pending_nodup).1 (List.mem_map_of_mem he)
  have hcreated : createdOf (h ++ [.deleted p]) = createdOf h := by simp [createdOf]
  have hdeleted : deletedOf (h ++ [.deleted p]) = deletedOf h ++ [p] := by simp [deletedOf]
  refine ⟨?_, ?_, ?_, hi.valid_update nofun, hi.cancelled_concat nofun, hi.silent.concat nofun,
    ⟨nofun, nofun⟩, nofun⟩
  · rw [hcreated, hdeleted, ← Multiset.coe_add]
    refine hi.ledger.delete ?_ fun q => ?_
    · rw [owned, owned, ← Multiset.add_cons]
      rfl
    · by_cases hq : q = p
      · simp [hq]
      · simp [hq]
  · intro e he
    rw [update_of_ne (hi.timer_ne he hmem)]
    exact hi.key e he
  · intro now' rest' hb e he
    cases hb
    rw [update_of_ne (hrest e he)]
    exact hi.due now rest rfl e he

/-- The destructor deletes live timers one after the other. -/
theorem State.deleteAll_of_live {es : List Entry} (hlive : ∀ e ∈ es, s.heap e.timer ≠ none)
    (hnd : (es.map Entry.timer).Nodup) : s.deleteAll es = { s with
      heap := fun p => if p ∈ es.map Entry.timer then none else s.heap p
      history := s.history ++ (es.map Entry.timer).map .deleted } := by
  induction es generalizing s with
  | nil => simp [deleteAll]
  | cons e es ih =>
    rw [List.map_cons, List.nodup_cons] at hnd
    obtain ⟨t, ht⟩ := Option.ne_none_iff_exists'.1 (hlive e (List.mem_cons_self ..))
    rw [deleteAll, delete_of_live ht, ih _ hnd.2]
    · simp only [record, State.mk.injEq, true_and, List.map_cons, List.append_assoc,
        List.singleton_append, and_true]
      funext q
      by_cases hq : q = e.timer
      · simp [hq]
      · simp only [update_of_ne hq, List.mem_cons, hq, false_or]
    · intro e' he'
      have hne : e'.timer ≠ e.timer := fun heq => hnd.1 (heq ▸ List.mem_map_of_mem he')
      change update s.heap e.timer none e'.timer ≠ none
      rw [update_of_ne hne]
      exact hlive e' (List.mem_cons_of_mem _ he')

/-- **The destructor deletes all that is left**: every timer in `timers_` once, and behind
that nothing is alive. -/
theorem Inv.destroy (hi : Inv s.point s.heap s.timers s.history) (hp : s.point = .idle) :
    s.destroy.Inv := by
  rw [hp] at hi
  have hval : (↑((s.timers.sort (· ≤ ·)).map Entry.timer) : Multiset Ptr) =
      owned .idle s.timers := by
    rw [← Multiset.map_coe, Finset.sort_eq]
    exact (add_zero _).symm
  have hmem : ∀ q, q ∈ (s.timers.sort (· ≤ ·)).map Entry.timer ↔ s.heap q ≠ none := fun q => by
    rw [hi.ledger.live_iff q, ← hval, Multiset.mem_coe]
  have hlive : ∀ e ∈ s.timers.sort (· ≤ ·),
      ({ s with point := .destroyed, timers := ∅ } : State).heap e.timer ≠ none := fun e he =>
    (hmem _).1 (List.mem_map_of_mem he)
  have hnd : ((s.timers.sort (· ≤ ·)).map Entry.timer).Nodup := by
    rw [← Multiset.coe_nodup, hval]
    exact hi.ledger.owned_nodup
  have hnone : ∀ q, (if q ∈ (s.timers.sort (· ≤ ·)).map Entry.timer then none else s.heap q) =
      none := by
    intro q
    split_ifs with hq
    · rfl
    · rw [hmem, not_not] at hq
      exact hq
  rw [State.destroy, State.deleteAll_of_live hlive hnd]
  refine ⟨?_, by simp, ?_, ?_, ?_, ?_, ⟨?_, ?_⟩, fun _ => rfl⟩
  · have hcreated : createdOf (s.history ++ ((s.timers.sort (· ≤ ·)).map Entry.timer).map .deleted)
        = createdOf s.history := by simp [createdOf, List.filterMap_map, Function.comp_def]
    have hdeleted : deletedOf (s.history ++ ((s.timers.sort (· ≤ ·)).map Entry.timer).map .deleted)
        = deletedOf s.history ++ (s.timers.sort (· ≤ ·)).map Entry.timer := by
      simp [deletedOf, List.filterMap_map, Function.comp_def]
    dsimp only
    rw [hcreated, hdeleted, ← Multiset.coe_add, hval]
    exact hi.ledger.deleteAll fun q hq => hq (hnone q)
  · intro now rest hbatch
    cases hbatch
  · intro q t ht
    dsimp only at ht
    rw [hnone] at ht
    cases ht
  · intro q hq
    have hq' : Event.cancelled q ∈ s.history := by simpa using hq
    exact List.mem_append_left _ (hi.cancelled q hq')
  · dsimp only
    rw [Silent, List.pairwise_append]
    refine ⟨hi.silent, ?_, ?_⟩
    · rw [List.pairwise_map]
      exact List.pairwise_of_forall fun _ _ _ h => by cases h
    · intro a _ b hb q _ hq
      obtain ⟨r, -, rfl⟩ := List.mem_map.1 hb
      cases hq
  · intro h
    cases h
  · intro h
    cases h

/-! ### What the operations do where the invariant holds -/

theorem State.Inv.addTimer_eq (hi : s.Inv) (hp : .created p ∉ s.history)
    (when interval clock : ℤ) : ∃ fd, s.addTimer p when interval clock =
      { s with
        heap := update s.heap p (some (.new when interval))
        timers := insert (entry when p) s.timers
        timerfd := fd
        history := s.history ++ [.created p] } := by
  refine s.addTimer_of_fresh p when interval clock fun he => ?_
  obtain ⟨t, ht, -⟩ := hi.key _ he
  rw [entry_timer, hi.dead_of_fresh hp] at ht
  cases ht

/-- The first entry of the batch is live and due, so its callback is called. -/
theorem State.Inv.visit_eq (hi : s.Inv) (hp : s.point = .walking now (e :: rest)) :
    s.heap e.timer ≠ none ∧ s.visit now e rest =
      { s with point := .running now e.timer rest }.record (.started e.timer) := by
  have hi' : TimerQueue.Inv s.point s.heap s.timers s.history := hi
  rw [hp] at hi'
  obtain ⟨t, ht, hwhen, hle⟩ := hi'.due now (e :: rest) rfl e (List.mem_cons_self ..)
  refine ⟨?_, State.visit_of_live ht (hwhen ▸ hle) (hi.valid _ t ht)⟩
  rw [ht]
  exact Option.some_ne_none t

/-- Behind its callback a repeating timer is inserted again, and any other deleted. -/
theorem State.Inv.settle_eq (hi : s.Inv) (hp : s.point = .returned now p rest) :
    ∃ t, s.heap p = some t ∧ t.canceled = false ∧
      (t.repeats = true ∧ s.settle now p rest =
          { s.store p t.restart with
            timers := insert (entry t.restart.when p) s.timers, point := .walking now rest } ∨
        t.repeats = false ∧ s.settle now p rest =
          { s with
            point := .walking now rest
            heap := update s.heap p none
            history := s.history ++ [.deleted p] }) := by
  have hi' : TimerQueue.Inv s.point s.heap s.timers s.history := hi
  rw [hp] at hi'
  obtain ⟨t, ht, htc⟩ := hi'.live_of_pending (List.mem_cons_self ..)
  refine ⟨t, ht, htc, ?_⟩
  cases hr : t.repeats with
  | true => exact .inl ⟨rfl, State.settle_of_repeats ht htc hr⟩
  | false =>
    have hlive := State.delete_of_live (s := { s with point := .walking now rest }) ht
    exact .inr ⟨rfl, (State.settle_of_oneShot ht hr).trans hlive⟩

/-- **Every careful step keeps the invariant**: the one step that does not is a callback
that cancels a timer of the batch, its own included. -/
theorem State.Inv.step {s s' : State} {a : Action} (hi : s.Inv) (hst : Step s a s')
    (hc : Careful s a) : s'.Inv := by
  have hi' : TimerQueue.Inv s.point s.heap s.timers s.history := hi
  cases hst with
  | add p when interval clock hu hp hfresh =>
    have hd : s.point ≠ .destroyed := by
      rcases hu with hu | ⟨now, q, rest, hu⟩
      · rw [hu]
        exact nofun
      · rw [hu]
        exact nofun
    obtain ⟨fd, heq⟩ := hi.addTimer_eq hfresh when interval clock
    rw [heq]
    exact hi'.create hfresh hd
  | cancel p hu hp =>
    obtain ⟨t, ht⟩ := Option.ne_none_iff_exists'.1 hp
    rw [State.cancelTimer_of_live ht (hi.valid p t ht)]
    exact hi'.cancel ht (hc p rfl)
  | beginRead now hp => exact hi'.beginRead hp now
  | @visit now e rest hp =>
    obtain ⟨-, heq⟩ := hi.visit_eq hp
    rw [heq]
    rw [hp] at hi'
    have hmem : e.timer ∈ owned (.walking now (e :: rest)) s.timers :=
      Multiset.mem_add.2 (.inr (List.mem_cons_self ..))
    refine (hi'.start hmem).move rfl ?_ ⟨nofun, nofun⟩ nofun
    intro now' rest' hb e' he'
    cases hb
    exact hi'.due now (e :: rest) rfl e' (List.mem_cons_of_mem _ he')
  | ret hp =>
    rw [hp] at hi'
    exact hi'.move rfl hi'.due ⟨nofun, nofun⟩ nofun
  | @settle now p rest hp =>
    obtain ⟨t, ht, htc, ⟨-, heq⟩ | ⟨-, heq⟩⟩ := hi.settle_eq hp
    · rw [heq]
      rw [hp] at hi'
      exact hi'.reinsert ht htc
    · rw [heq]
      rw [hp] at hi'
      exact hi'.dispose
  | endRead clock hp =>
    rw [hp] at hi'
    exact hi'.move rfl nofun ⟨nofun, nofun⟩ nofun
  | destroy hp => exact hi'.destroy hp

/-- **Timers get what they are owed**, in every run in which no timer is cancelled
that the batch still owns. -/
theorem soundTimers_of_run {actions : List Action} {s : State}
    (hrun : Run (fun s a s' => Step s a s' ∧ Careful s a) init actions s) : SoundTimers s := by
  have hi : s.Inv := hrun.preserves inv_init fun _ _ _ hi hst => hi.step hst.1 hst.2
  exact hi.soundTimers

/-- A one-shot timer due at 0, and the batch with it. -/
def oneBatch : State := (init.addTimer 1 0 0 0).beginRead 0

theorem oneBatch_point : oneBatch.point = .walking 0 [entry 0 1] := by
  have hfilter : (insert (entry 0 1) ∅ : Finset Entry).filter (· < entry (0 + 1) 0) =
      {entry 0 1} := by
    decide
  have hget : getExpired (init.addTimer 1 0 0 0) 0 = [entry 0 1] := by
    change Finset.sort ((insert (entry 0 1) ∅ : Finset Entry).filter (· < entry (0 + 1) 0)) _ = _
    rw [hfilter, Finset.sort_singleton]
  rw [oneBatch, State.beginRead, hget]

/-- Its callback runs. -/
def oneCallback : State := oneBatch.visit 0 (entry 0 1) []

/-- The hypothesis of `soundTimers_of_run` is satisfiable: the callback adds a
timer and cancels it. -/
theorem soundTimers_of_run_oneCallback :
    SoundTimers ((oneCallback.addTimer 2 5 0 0).cancelTimer 2) := by
  have hnot : ∀ {s : State} {a : Action}, (∀ p, a ≠ .cancel p) → Careful s a :=
    fun h p hp => absurd hp (h p)
  refine soundTimers_of_run (((((Run.nil.snoc
    ⟨.add 1 0 0 0 (.inl rfl) (by decide) (by decide), hnot nofun⟩).snoc
    ⟨.beginRead 0 rfl, hnot nofun⟩).snoc ⟨.visit oneBatch_point, hnot nofun⟩).snoc
    ⟨.add 2 5 0 0 (.inr ⟨0, 1, [], rfl⟩) (by decide) (by decide), hnot nofun⟩).snoc
    ⟨.cancel 2 ?_ ?_, ?_⟩)
  · exact .inr ⟨0, 1, [], rfl⟩
  · decide
  · intro p hp
    cases hp
    decide

/-- **A callback that cancels its own timer** leaves `handleRead` with a deleted timer,
which it reads: the batch has a copy of the pointer. -/
theorem not_soundTimers_cancelItself :
    ¬ ∀ actions s, Run Step init actions s → SoundTimers s := by
  intro h
  have hadd := Run.nil.snoc (Step.add (s := init) 1 0 0 0 (.inl rfl) (by decide) (by decide))
  have hvisit := (hadd.snoc (.beginRead 0 rfl)).snoc (.visit oneBatch_point)
  have hcancel := hvisit.snoc (.cancel 1 (.inr ⟨0, 1, [], rfl⟩) (by decide))
  have hret := hcancel.snoc (@Step.ret _ 0 1 [] rfl)
  have hsettle := hret.snoc (.settle rfl)
  exact (h _ _ hsettle).no_dangling rfl

/-! ### A careless cancellation cannot be made good -/

/-- The batch owns a timer that has been deleted, or the loop thread has come to
a deleted timer or to a failed assertion. -/
def Doomed (s : State) : Prop :=
  (∃ p ∈ s.point.pending, s.heap p = none ∧ .created p ∈ s.history) ∨
    s.point = .dangling ∨ s.point = .aborted

/-- `handleRead` does not end well. -/
theorem Doomed.not_idle {s : State} (hd : Doomed s) : s.point ≠ .idle := by
  intro h
  rcases hd with ⟨p, hp, -⟩ | hd | hd
  · rw [h] at hp
    cases hp
  · cases h.symm.trans hd
  · cases h.symm.trans hd

/-- A cancellation that is not careful leaves the batch with a deleted timer. -/
theorem State.Inv.doomed_of_cancel (hi : s.Inv) (hp : p ∈ s.point.pending) :
    Doomed (s.cancelTimer p) := by
  obtain ⟨t, ht, hc⟩ := TimerQueue.Inv.live_of_pending hi hp
  have hmem : p ∈ owned s.point s.timers := Multiset.mem_add.2 (.inr hp)
  have hcreated : p ∈ (↑(createdOf s.history) : Multiset Ptr) := by
    rw [hi.ledger.conserved]
    exact Multiset.mem_add.2 (.inr hmem)
  rw [Multiset.mem_coe, mem_createdOf] at hcreated
  rw [State.cancelTimer_of_live ht hc]
  exact .inl ⟨p, hp, update_self .., List.mem_append_left _ (List.mem_append_left _ hcreated)⟩

/-- What the user does meanwhile does not bring a deleted timer back. -/
theorem Doomed.step {s s' : State} {a : Action} (hd : Doomed s) (hst : Step s a s') :
    Doomed s' := by
  have hd' : ∀ {p : Ptr}, s'.point = s.point → p ∈ s.point.pending → s'.heap p = none →
      .created p ∈ s'.history → Doomed s' := fun hpoint hp hnone hc =>
    .inl ⟨_, hpoint ▸ hp, hnone, hc⟩
  rcases hd with ⟨p, hp, hnone, hcreated⟩ | hd
  swap
  · exfalso
    cases hst with
    | add _ _ _ _ hu | cancel _ hu =>
      rcases hu with hu | ⟨_, _, _, hu⟩ <;> rw [hu] at hd <;> rcases hd with hd | hd <;> cases hd
    | beginRead _ h | visit h | ret h | settle h | endRead _ h | destroy h =>
      rw [h] at hd
      rcases hd with hd | hd <;> cases hd
  cases hst with
  | add q when interval clock hu hq hfresh =>
    have hne : p ≠ q := by
      rintro rfl
      exact hfresh hcreated
    by_cases hnew : entry when q ∈ s.timers
    · refine .inr (.inr ?_)
      simp [State.addTimer, State.store, State.record, hnew]
    · obtain ⟨fd, heq⟩ := s.addTimer_of_fresh q when interval clock hnew
      rw [heq] at hd' ⊢
      exact hd' rfl hp ((update_of_ne hne ..).trans hnone) (List.mem_append_left _ hcreated)
  | cancel q hu hq =>
    obtain ⟨t, ht⟩ := Option.ne_none_iff_exists'.1 hq
    have hne : p ≠ q := by
      rintro rfl
      exact hq hnone
    cases hc : t.canceled with
    | true => exact .inr (.inr (by simp [State.cancelTimer, ht, hc]))
    | false =>
      rw [State.cancelTimer_of_live ht hc] at hd' ⊢
      exact hd' rfl hp ((update_of_ne hne ..).trans hnone)
        (List.mem_append_left _ (List.mem_append_left _ hcreated))
  | beginRead now h | destroy h | endRead now h =>
    rw [h] at hp
    cases hp
  | @visit now e rest h =>
    rw [h] at hp
    unfold State.visit
    cases ht : s.heap e.timer with
    | none => exact .inr (.inl rfl)
    | some t =>
      dsimp only
      split_ifs
      · exact .inl ⟨p, hp, hnone, hcreated⟩
      · exact .inl ⟨p, hp, hnone, List.mem_append_left _ hcreated⟩
      · exact .inr (.inr rfl)
  | ret h =>
    rw [h] at hp
    exact .inl ⟨p, hp, hnone, hcreated⟩
  | @settle now q rest h =>
    rw [h] at hp
    unfold State.settle
    cases ht : s.heap q with
    | none => exact .inr (.inl rfl)
    | some t =>
      have hne : p ≠ q := by
        rintro rfl
        rw [hnone] at ht
        cases ht
      have hrest : p ∈ rest.map Entry.timer := (List.mem_cons.1 hp).resolve_left hne
      dsimp only
      split_ifs
      · exact .inl ⟨p, hrest, (update_of_ne hne ..).trans hnone, hcreated⟩
      · have hlive := State.delete_of_live (s := { s with point := .walking now rest }) ht
        rw [hlive]
        exact .inl ⟨p, hrest, (update_of_ne hne ..).trans hnone, List.mem_append_left _ hcreated⟩

/-- **A timer cancelled while the batch owns it is fatal**: whatever happens then,
`handleRead` does not come to its end, but to a deleted timer. -/
theorem not_idle_of_careless_cancel {actions : List Action} {s' : State} (hi : s.Inv)
    (hp : p ∈ s.point.pending) (hrun : Run Step (s.cancelTimer p) actions s') :
    s'.point ≠ .idle := by
  have hd : Doomed s' := hrun.preserves (hi.doomed_of_cancel hp) fun _ _ _ hd hst => hd.step hst
  exact hd.not_idle

end TimerQueue
end BearRpc
