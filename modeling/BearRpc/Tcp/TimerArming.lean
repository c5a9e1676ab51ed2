/-
# The timer descriptor is armed

`durationFromNow` and `timerfdSet` (`src/RPC/bearTCP/TimerQueue.cc`, lines 36 to 62)
are called when a new timer is the first one and at the end of `handleRead`, and never
when a timer is cancelled.  A timer that is cancelled leaves the descriptor armed for a
time that is too early, which does no harm; `handleRead` reads an expiry away, but arms
the descriptor again if a timer is left.  So no timer is forgotten (`timerfd_armed`).
-/

import BearRpc.Tcp.TimerQueue

namespace BearRpc

open Theory

namespace TimerQueue

/-- What `timerfdSet` may pass: at least a millisecond, and a valid `tv_nsec`. -/
structure Armed.Valid (a : Armed) : Prop where
  sec : 0 ≤ a.sec
  nsec : 0 ≤ a.nsec ∧ a.nsec < 1000000000
  millisecond : 1000000 ≤ a.sec * 1000000000 + a.nsec

/-- The descriptor is armed, or has expired and has not been read, and its deadline is
no later than the time `when`, or a millisecond after it was set. -/
def ArmedFor (fd : Option Armed) (when : ℤ) : Prop :=
  ∃ a, fd = some a ∧ a.deadline ≤ max when (a.clock + 1000000)

/-- What holds in every state: between two operations the descriptor is armed for the
first entry, and what was passed to it is valid. -/
structure Remembers (s : State) : Prop where
  armed : s.point = .idle → ∀ e ∈ s.timers, (∀ e' ∈ s.timers, e ≤ e') → ArmedFor s.timerfd e.when
  valid : ∀ a, s.timerfd = some a → a.Valid

variable {s s' : State} {a : Action} {actions : List Action} {when clock : ℤ} {p : Ptr} {e : Entry}

/-- Whatever the time and the clock are, `timerfdSet` passes a valid setting that does not
disarm the descriptor. -/
theorem timerfdSet_valid (when clock : ℤ) : (timerfdSet when clock).Valid := by
  unfold timerfdSet
  refine ⟨?_, ⟨?_, ?_⟩, ?_⟩ <;> dsimp only <;> split_ifs <;> omega

/-- **The deadline** is the time asked for, or a millisecond from now, which is the least
that `timerfdSet` waits. -/
theorem deadline_timerfdSet (when clock : ℤ) :
    (timerfdSet when clock).deadline = max when (clock + 1000000) := by
  unfold timerfdSet Armed.deadline
  dsimp only
  split_ifs <;> omega

/-- Set for a time, the descriptor is armed for every later entry. -/
theorem armedFor_timerfdSet (h : when ≤ e.when) :
    ArmedFor (some (timerfdSet when clock)) e.when := by
  refine ⟨_, rfl, ?_⟩
  rw [deadline_timerfdSet]
  change max when (clock + 1000000) ≤ max e.when (clock + 1000000)
  omega

/-- The first entry of a set has the time that `firstWhen` gives. -/
theorem firstWhen_eq (he : e ∈ s.timers) (hfirst : ∀ e' ∈ s.timers, e ≤ e') :
    firstWhen s = some e.when := by
  have hsorted := Finset.pairwise_sort s.timers (· ≤ ·)
  have hmem : e ∈ s.timers.sort (· ≤ ·) := (Finset.mem_sort _).2 he
  unfold firstWhen
  cases hlist : s.timers.sort (· ≤ ·) with
  | nil =>
    rw [hlist] at hmem
    cases hmem
  | cons e' rest =>
    have he' : e' ∈ s.timers := by
      rw [← Finset.mem_sort (· ≤ ·), hlist]
      exact List.mem_cons_self ..
    rw [hlist] at hmem hsorted
    have hle : e' ≤ e := by
      rcases List.mem_cons.1 hmem with rfl | hmem
      · exact le_rfl
      · exact (List.pairwise_cons.1 hsorted).1 e hmem
    rw [le_antisymm (hfirst e' he') hle]
    rfl

/-- Armed for a time is armed for every later one. -/
theorem ArmedFor.mono {fd : Option Armed} {when' : ℤ} (h : ArmedFor fd when) (hle : when ≤ when') :
    ArmedFor fd when' := by
  obtain ⟨a, ha, hdeadline⟩ := h
  exact ⟨a, ha, by omega⟩

/-- Entries are ordered by their times first. -/
theorem Entry.when_le {e e' : Entry} (h : e ≤ e') : e.when ≤ e'.when :=
  Prod.Lex.monotone_fst _ _ h

/-- At the end of `handleRead` the descriptor is set for the first entry, if one is left. -/
theorem endRead_timerfd (s : State) (clock : ℤ) : (s.endRead clock).timerfd =
    (firstWhen s).elim s.timerfd fun when => some (timerfdSet when clock) := by
  unfold State.endRead
  cases firstWhen s <;> rfl

/-! ### The steps -/

/-- A state that is not at rest, with the descriptor as it was. -/
theorem Remembers.busy (h : Remembers s) (hp : s'.point ≠ .idle) (hfd : s'.timerfd = s.timerfd) :
    Remembers s' :=
  ⟨fun hidle => absurd hidle hp, hfd ▸ h.valid⟩

/-- **A new timer** is armed for if it is the first one; otherwise the descriptor is armed
for an earlier one, or fires earlier than needed. -/
theorem Remembers.addTimer (h : Remembers s) (p : Ptr) (when interval clock : ℤ) :
    Remembers (s.addTimer p when interval clock) := by
  unfold State.addTimer
  dsimp only
  split_ifs with hin hfirst
  · exact h.busy nofun rfl
  · refine ⟨fun _ e he _ => armedFor_timerfdSet (Entry.when_le (hfirst e he)), ?_⟩
    rintro a ⟨⟩
    exact timerfdSet_valid when clock
  · refine ⟨fun hidle e he hmin => ?_, h.valid⟩
    have hmin' : ∀ e' ∈ s.timers, e ≤ e' := fun e' he' => hmin e' (Finset.mem_insert_of_mem he')
    have hne : e ≠ entry when p := by
      rintro rfl
      exact hfirst hmin
    exact h.armed hidle e ((Finset.mem_insert.1 he).resolve_left hne) hmin'

/-- **A cancelled timer** leaves the descriptor armed, for a time no later than before,
which is early enough for the timers that are left. -/
theorem Remembers.cancelTimer (h : Remembers s) (p : Ptr) : Remembers (s.cancelTimer p) := by
  unfold State.cancelTimer
  split
  · exact h.busy nofun rfl
  · next t ht =>
    split_ifs
    · exact h.busy nofun rfl
    · have hpoint := State.delete_point ({ (s.store p t.cancel).record (.cancelled p) with
        timers := s.timers.erase (entry t.when p) } : State) p
      refine ⟨fun hidle e he hmin => ?_, ?_⟩
      · rcases hpoint with hp | hp
        · rw [State.delete_timerfd]
          rw [State.delete_timers] at he
          have hidle' : s.point = .idle := hp.symm.trans hidle
          obtain ⟨e₀, he₀, hmin₀⟩ := s.timers.exists_min_image id
            ⟨e, Finset.mem_of_mem_erase he⟩
          exact (h.armed hidle' e₀ he₀ hmin₀).mono
            (Entry.when_le (hmin₀ e (Finset.mem_of_mem_erase he)))
        · cases hp.symm.trans hidle
      · rw [State.delete_timerfd]
        exact h.valid

/-- **Every step remembers the timers**: outside of `handleRead`, the descriptor is armed
for no later than the first of them. -/
theorem Remembers.step (h : Remembers s) (hst : Step s a s') : Remembers s' := by
  cases hst with
  | add p when interval clock => exact h.addTimer p when interval clock
  | cancel p => exact h.cancelTimer p
  | beginRead now =>
    refine ⟨nofun, fun a ha => ?_⟩
    obtain ⟨ha, -⟩ := Option.filter_eq_some_iff.1 ha
    exact h.valid a ha
  | @visit now e rest =>
    unfold State.visit
    split
    · exact h.busy nofun rfl
    · split_ifs
      · exact h.busy nofun rfl
      · exact h.busy nofun rfl
      · exact h.busy nofun rfl
  | ret => exact h.busy nofun rfl
  | @settle now p rest =>
    unfold State.settle
    split
    · exact h.busy nofun rfl
    · split_ifs
      · exact h.busy nofun rfl
      · refine h.busy ?_ (State.delete_timerfd _ _)
        rcases State.delete_point ({ s with point := .walking now rest } : State) p with hp | hp
        · rw [hp]
          exact nofun
        · rw [hp]
          exact nofun
  | endRead clock =>
    refine ⟨fun _ e he hmin => ?_, fun a ha => ?_⟩
    · have hfirst : firstWhen s = some e.when := firstWhen_eq he hmin
      rw [endRead_timerfd, hfirst]
      exact armedFor_timerfdSet le_rfl
    · rw [endRead_timerfd] at ha
      cases hfirst : firstWhen s with
      | none =>
        rw [hfirst] at ha
        exact h.valid a ha
      | some when =>
        rw [hfirst] at ha
        cases ha
        exact timerfdSet_valid when clock
  | destroy =>
    refine h.busy ?_ (State.deleteAll_timerfd _ _)
    rcases State.deleteAll_point ({ s with point := .destroyed, timers := ∅ } : State)
      (s.timers.sort (· ≤ ·)) with hp | hp
    · exact fun hidle => nomatch hp.symm.trans hidle
    · exact fun hidle => nomatch hp.symm.trans hidle

/-- **No timer is forgotten.**  In every state between two operations in which
`timers_` is not empty, the descriptor is armed, or has expired and has not been read,
and its deadline is no later than the first time in `timers_` or a millisecond after
the descriptor was set; and what is passed to the descriptor never disarms it. -/
theorem timerfd_armed (hrun : Run Step init actions s) :
    (s.point = .idle → s.timers.Nonempty → ∃ first ∈ s.timers, (∀ e ∈ s.timers, first ≤ e) ∧
      ArmedFor s.timerfd first.when) ∧ ∀ a, s.timerfd = some a → a.Valid := by
  have hinit : Remembers init := ⟨nofun, nofun⟩
  have h : Remembers s := hrun.preserves hinit fun _ _ _ h hst => h.step hst
  refine ⟨fun hidle hne => ?_, h.valid⟩
  obtain ⟨first, hfirst, hmin⟩ := s.timers.exists_min_image id hne
  exact ⟨first, hfirst, hmin, h.armed hidle first hfirst hmin⟩

/-- The hypothesis of `timerfd_armed` is satisfiable, and so are those of what it says: a
timer was added, which stands in `timers_`, and the descriptor is armed for a millisecond
from then. -/
theorem timerfd_armed_oneTimer :
    (init.addTimer 1 5 0 0).timers = {entry 5 1} ∧
      (init.addTimer 1 5 0 0).timerfd = some ⟨0, 0, 1000000⟩ ∧
        ∃ first ∈ (init.addTimer 1 5 0 0).timers,
          (∀ e ∈ (init.addTimer 1 5 0 0).timers, first ≤ e) ∧
            ArmedFor (init.addTimer 1 5 0 0).timerfd first.when :=
  have hrun : Run Step init [.add 1 5 0 0] (init.addTimer 1 5 0 0) :=
    Run.nil.snoc (.add 1 5 0 0 (.inl rfl) (by decide) (by decide))
  ⟨rfl, rfl, (timerfd_armed hrun).1 rfl ⟨entry 5 1, Finset.mem_singleton_self _⟩⟩

end TimerQueue
end BearRpc
