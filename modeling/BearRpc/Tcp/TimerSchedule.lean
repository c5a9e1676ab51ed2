/-
# The schedule of the timers

`TimerQueue::handleRead` restarts a repeating timer from the time it was due at and not
from the time it has read (`src/RPC/bearTCP/TimerQueue.cc`, lines 117 to 121), so the
timer stays on its schedule however late it fires (`Scheduled`).

Together with `BearRpc.Tcp.TimerFiring` this is what one `handleRead` does in every
state that the queue can come to (`handleRead_exact`).
-/

import BearRpc.Tcp.TimerFiring

namespace BearRpc

open Theory Function

namespace TimerQueue

/-- **At rest** the entries have the times of their timers, and the time of a timer is
its first one and an interval for each time it has fired. -/
structure OnSchedule (past : List Action) (s : State) : Prop where
  key : ∀ e ∈ s.timers, ∃ t, s.heap e.timer = some t ∧ t.when = e.when
  when : ∀ p when interval clock, .add p when interval clock ∈ past → ∀ t, s.heap p = some t →
    t.when = when + (startedOf s.history).count p * interval

variable {s s' x x' : State} {a : Action} {acts past : List Action} {p q : Ptr} {e : Entry}
  {rest : List Entry} {t : Timer} {now when interval clock : ℤ} {point : Point}

/-! ### `handleRead` comes to its end -/

/-- Steps that concern no timer, and one more before them. -/
theorem subject_append {more : List Action} (ha : a.subject = none)
    (hmore : ∀ b ∈ more, b.subject = none) : ∀ b ∈ [a] ++ more, b.subject = none := by
  intro b hb
  rcases List.mem_append.1 hb with hb | hb
  · rw [List.mem_singleton.1 hb]
    exact ha
  · exact hmore b hb

/-- The callback of a timer has returned: the loop goes on. -/
theorem State.Inv.exists_settle (hi : x.Inv) (hp : x.point = .returned now p rest) :
    ∃ x', Step x .settle x' ∧ x'.Inv ∧ x'.point = .walking now rest := by
  have hst : Step x .settle (x.settle now p rest) := .settle hp
  refine ⟨_, hst, hi.step hst nofun, ?_⟩
  cases hi.effect hst nofun with
  | settle returned live heap point history =>
    rw [hp] at returned
    cases returned
    exact point

/-- From the head of the loop. -/
theorem State.Inv.exists_idle_of_walking (hi : x.Inv) (hp : x.point = .walking now rest) :
    ∃ more s', Run Step x more s' ∧ s'.point = .idle ∧ ∀ a ∈ more, a.subject = none := by
  induction rest generalizing x with
  | nil =>
    exact ⟨[.endRead 0] ++ [], _, .single (.endRead 0 hp), rfl, subject_append rfl nofun⟩
  | cons e rest ih =>
    have hvisit : Step x .visit (x.visit now e rest) := .visit hp
    have hrunning : (x.visit now e rest).point = .running now e.timer rest := by
      cases hi.effect hvisit nofun with
      | visit walking live heap point history =>
        rw [hp] at walking
        cases walking
        exact point
    have hret := Step.ret hrunning
    have hi₁ := (hi.step hvisit nofun).step hret nofun
    obtain ⟨x₂, hsettle, hi₂, hp₂⟩ := hi₁.exists_settle rfl
    obtain ⟨more, s', hrun, hidle, hmore⟩ := ih hi₂ hp₂
    exact ⟨[.visit] ++ ([.ret] ++ ([.settle] ++ more)), s',
      (Run.single hvisit).trans ((Run.single hret).trans ((Run.single hsettle).trans hrun)), hidle,
      subject_append rfl (subject_append rfl (subject_append rfl hmore))⟩

/-- **Whatever the callbacks have done, `handleRead` can end**: the rest of the batch is
walked through, with steps that are about no other timer. -/
theorem State.Inv.exists_idle (hi : x.Inv) (hw : x.point.batch = some (now, rest)) :
    ∃ more s', Run Step x more s' ∧ s'.point = .idle ∧ ∀ a ∈ more, a.subject = none := by
  have hreturned : ∀ {x : State} {p : Ptr}, x.Inv → x.point = .returned now p rest →
      ∃ more s', Run Step x more s' ∧ s'.point = .idle ∧ ∀ a ∈ more, a.subject = none := by
    intro x p hi hp
    obtain ⟨x₁, hsettle, hi₁, hp₁⟩ := hi.exists_settle hp
    obtain ⟨more, s', hrun, hidle, hmore⟩ := hi₁.exists_idle_of_walking hp₁
    exact ⟨[.settle] ++ more, s', (Run.single hsettle).trans hrun, hidle, subject_append rfl hmore⟩
  cases hp : x.point <;> rw [hp] at hw <;> cases hw
  case walking => exact hi.exists_idle_of_walking hp
  case running p =>
    have hret := Step.ret hp
    obtain ⟨more, s', hrun, hidle, hmore⟩ := hreturned (hi.step hret nofun) rfl
    exact ⟨[.ret] ++ more, s', (Run.single hret).trans hrun, hidle, subject_append rfl hmore⟩
  case returned p => exact hreturned hi hp

/-! ### The schedule of a timer -/

/-- **Every timer is on its schedule**: its next time is the first one and an interval
for each time that its callback has been started, but for the callback at hand. -/
structure Scheduled (past : List Action) (s : State) : Prop where
  started : ∀ p, .started p ∈ s.history → .created p ∈ s.history
  created : ∀ p when interval clock, .add p when interval clock ∈ past → .created p ∈ s.history
  when : ∀ p when interval clock, .add p when interval clock ∈ past → ∀ t, s.heap p = some t →
    t.interval = interval ∧ t.when + (if p ∈ s.point.current then interval else 0) =
      when + (startedOf s.history).count p * interval

/-- Before the first step. -/
theorem scheduled_init : Scheduled [] init := ⟨nofun, nofun, nofun⟩

/-- A step that leaves a timer and its callbacks leaves it on its schedule. -/
theorem Scheduled.stay (hs : Scheduled past s)
    (heap : s'.heap p = s.heap p) (current : p ∈ s'.point.current ↔ p ∈ s.point.current)
    (count : (startedOf s'.history).count p = (startedOf s.history).count p)
    (hadd : .add p when interval clock ∈ past) (ht : s'.heap p = some t) :
    t.interval = interval ∧ t.when + (if p ∈ s'.point.current then interval else 0) =
      when + (startedOf s'.history).count p * interval := by
  rw [count, if_congr current rfl rfl]
  exact hs.when p when interval clock hadd t (heap ▸ ht)

/-- A step that concerns no timer is none that adds one. -/
theorem mem_of_subject (hmem : .add p when interval clock ∈ past ++ [a]) (ha : a.subject = none) :
    .add p when interval clock ∈ past := by
  refine (List.mem_append.1 hmem).resolve_right fun hmem => ?_
  rw [← List.mem_singleton.1 hmem] at ha
  cases ha

/-- What a step has to keep, where it records `h`. -/
theorem Scheduled.of_step (hs : Scheduled past s) {h : List Event}
    (history : s'.history = s.history ++ h)
    (started : ∀ p, .started p ∈ h → .created p ∈ s.history)
    (created : ∀ p when interval clock, a = .add p when interval clock → .created p ∈ h)
    (when : ∀ p when interval clock, .add p when interval clock ∈ past ++ [a] →
      ∀ t, s'.heap p = some t → t.interval = interval ∧
        t.when + (if p ∈ s'.point.current then interval else 0) =
          when + (startedOf s'.history).count p * interval) : Scheduled (past ++ [a]) s' := by
  refine ⟨fun q hq => ?_, fun q w i c hmem => ?_, when⟩
  · rw [history] at hq ⊢
    refine List.mem_append_left _ ?_
    exact (List.mem_append.1 hq).elim (hs.started q) (started q)
  · rw [history]
    refine List.mem_append.2 ((List.mem_append.1 hmem).imp (hs.created q w i c) fun hmem => ?_)
    exact created q w i c (List.mem_singleton.1 hmem).symm

/-- A step that leaves all timers and their callbacks. -/
theorem Scheduled.keep (hs : Scheduled past s) (ha : a.subject = none) (heap : s'.heap = s.heap)
    (current : s'.point.current = s.point.current) (history : s'.history = s.history) :
    Scheduled (past ++ [a]) s' := by
  refine hs.of_step (history.trans (List.append_nil _).symm) nofun ?_ fun q w i c hmem t ht => ?_
  · rintro q w i c rfl
    cases ha
  · exact hs.stay (by rw [heap]) (by rw [current]) (by rw [history]) (mem_of_subject hmem ha) ht

/-- The callback at hand is one of the batch. -/
theorem Point.mem_pending_of_current (hp : p ∈ point.current) : p ∈ point.pending := by
  cases point with
  | running _ q _ | returned _ q _ => exact List.mem_singleton.1 hp ▸ List.mem_cons_self ..
  | _ => cases hp

/-- **Every step keeps the timers on their schedule**: its next time is the first one, and
an interval later for each time that its callback has been started. -/
theorem Scheduled.step (hs : Scheduled past s) (hi : s.Inv) (hst : Step s a s')
    (hc : Careful s a) (hd : s'.point ≠ .destroyed) : Scheduled (past ++ [a]) s' := by
  have hlive : ∀ {p}, p ∈ s.point.pending → s.heap p ≠ none := by
    intro p hp
    obtain ⟨t, ht, -⟩ := TimerQueue.Inv.live_of_pending hi hp
    rw [ht]
    exact Option.some_ne_none t
  have hcreated : ∀ {p}, s.heap p ≠ none → .created p ∈ s.history := by
    intro p hp
    by_contra hnot
    exact hp (TimerQueue.Inv.dead_of_fresh hi hnot)
  cases hi.effect hst hc with
  | add p when interval clock fresh heap point history =>
    have hcount : startedOf s'.history = startedOf s.history := by
      rw [history, startedOf_append]
      exact List.append_nil _
    refine hs.of_step history (by simp) (fun q w i c ha => ?_) fun q w i c hmem t ht => ?_
    · cases ha
      exact List.mem_singleton_self _
    · rcases List.mem_append.1 hmem with hin | hmem
      · have hne : q ≠ p := by
          rintro rfl
          exact fresh (hs.created q w i c hin)
        exact hs.stay (by rw [heap, update_of_ne hne]) (by rw [point]) (by rw [hcount]) hin ht
      · cases List.mem_singleton.1 hmem
        rw [heap, update_self] at ht
        cases ht
        have hcurrent : p ∉ s.point.current := fun hmem =>
          fresh (hcreated (hlive (Point.mem_pending_of_current hmem)))
        have hnone : p ∉ startedOf s.history := fun hmem =>
          fresh (hs.started p (mem_startedOf.1 hmem))
        rw [point, if_neg hcurrent, hcount, List.count_eq_zero_of_not_mem hnone]
        refine ⟨rfl, ?_⟩
        change when + 0 = when + 0 * interval
        rw [Int.zero_mul]
  | cancel p live heap point history =>
    have hcount : startedOf s'.history = startedOf s.history := by
      rw [history, startedOf_append]
      exact List.append_nil _
    have hpast : ∀ {q w i c}, .add q w i c ∈ past ++ [.cancel p] → .add q w i c ∈ past :=
      fun hmem => (List.mem_append.1 hmem).resolve_right (by simp)
    refine hs.of_step history (by simp) nofun fun q w i c hmem t ht => ?_
    have hne : q ≠ p := by
      rintro rfl
      rw [heap, update_self] at ht
      cases ht
    exact hs.stay (by rw [heap, update_of_ne hne]) (by rw [point]) (by rw [hcount]) (hpast hmem) ht
  | beginRead now idle heap point history =>
    exact hs.keep rfl heap (by rw [point, idle]; rfl) history
  | @visit s' now e rest walking live heap point history =>
    refine hs.of_step history (fun q hq => ?_) nofun fun q w i c hmem t ht => ?_
    · cases List.mem_singleton.1 hq
      exact hcreated live
    · have hnow : q ∈ s'.point.current ↔ q = e.timer := by
        rw [point]
        exact List.mem_singleton
      have hbefore : q ∉ s.point.current := by
        rw [walking]
        exact List.not_mem_nil
      by_cases hq : q = e.timer
      · obtain ⟨hint, hwhen⟩ := hs.when q w i c (mem_of_subject hmem rfl) t (heap ▸ ht)
        rw [if_neg hbefore] at hwhen
        have hone : startedOf [.started e.timer] = [q] := hq ▸ rfl
        rw [if_pos (hnow.2 hq), history, startedOf_append, hone, List.count_append,
          List.count_singleton_self]
        refine ⟨hint, ?_⟩
        rw [Int.natCast_add, Int.add_mul]
        omega
      · refine hs.stay (by rw [heap]) (iff_of_false (mt hnow.1 hq) hbefore) ?_
          (mem_of_subject hmem rfl) ht
        rw [history, startedOf_append, List.count_append]
        exact Nat.add_eq_left.2 (List.count_eq_zero_of_not_mem fun hmem =>
          hq (List.mem_singleton.1 hmem))
  | ret running heap point history =>
    exact hs.keep rfl heap (by rw [point, running]; rfl) history
  | @settle s' now p rest t₀ returned live heap point history =>
    obtain ⟨h, history, hnone⟩ := history
    have hcount : startedOf s'.history = startedOf s.history := by
      rw [history, startedOf_append, hnone, List.append_nil]
    refine hs.of_step history (fun q hq => ?_) nofun fun q w i c hmem t ht => ?_
    · rw [← mem_startedOf, hnone] at hq
      cases hq
    · have hbefore : q ∈ s.point.current ↔ q = p := by
        rw [returned]
        exact List.mem_singleton
      have hafter : q ∉ s'.point.current := by
        rw [point]
        exact List.not_mem_nil
      by_cases hq : q = p
      · -- the callback at hand is over: the restart is due to it
        obtain ⟨hint, hwhen⟩ := hs.when q w i c (mem_of_subject hmem rfl) t₀ (hq ▸ live)
        rw [if_pos (hbefore.2 hq)] at hwhen
        rw [heap, hq, update_self, settled] at ht
        split at ht
        · cases ht
          rw [if_neg hafter, hcount, ← hwhen, ← hint]
          exact ⟨rfl, Int.add_zero _⟩
        · cases ht
      · exact hs.stay (by rw [heap, update_of_ne hq]) (iff_of_false hafter (mt hbefore.1 hq))
          (by rw [hcount]) (mem_of_subject hmem rfl) ht
  | @endRead s' now clock walking heap point history =>
    exact hs.keep rfl heap (by rw [point, walking]; rfl) history
  | destroy idle point => exact absurd point hd

/-- What the queue can be: the timers are well and on their schedule, unless a timer was
cancelled that the batch owned. -/
inductive Health (past : List Action) (s : State) : Prop
  | destroyed (h : s.point = .destroyed)
  | doomed (h : Doomed s)
  | well (inv : s.Inv) (scheduled : Scheduled past s)

theorem Health.step (h : Health past s) (hst : Step s a s') : Health (past ++ [a]) s' := by
  cases h with
  | destroyed hd =>
    exfalso
    cases hst with
    | add _ _ _ _ hu | cancel _ hu =>
      rcases hu with hu | ⟨_, _, _, hu⟩ <;> cases hd.symm.trans hu
    | beginRead _ h | visit h | ret h | settle h | endRead _ h | destroy h =>
      cases hd.symm.trans h
  | doomed hd => exact .doomed (hd.step hst)
  | well hi hs =>
    by_cases hc : Careful s a
    · by_cases hd : s'.point = .destroyed
      · exact .destroyed hd
      · exact .well (hi.step hst hc) (hs.step hi hst hc hd)
    · simp only [Careful, not_forall, not_not] at hc
      obtain ⟨p, rfl, hp⟩ := hc
      cases hst with
      | cancel => exact .doomed (hi.doomed_of_cancel hp)

/-- **In every run** whose cancellations are careful, the queue is in order and its timers
are on their schedule. -/
theorem health_of_run (hrun : Run Step init past s) : Health past s :=
  hrun.invariant (.well inv_init scheduled_init) fun _ _ _ _ h hst => h.step hst

/-- At rest the timers are well. -/
theorem Health.of_idle (h : Health past s) (hidle : s.point = .idle) :
    s.Inv ∧ Scheduled past s := by
  cases h with
  | destroyed hd => cases hd.symm.trans hidle
  | doomed hd => exact absurd hidle hd.not_idle
  | well hi hs => exact ⟨hi, hs⟩

/-- **One `handleRead` fires what is due, and nothing else**, in every reachable state
and at every time: whatever its callbacks add, and whatever they cancel outside of
the batch, it can come to its end, and when it does it has fired the timers that were
due.  Between two operations every timer is on its schedule. -/
theorem handleRead_exact (hreach : Run Step init past s) (hidle : s.point = .idle)
    (hrun : Run Step s (.beginRead now :: acts) x) (hone : ∀ clock, .endRead clock ∉ acts)
    (houtside : ∀ p, .cancel p ∈ acts → p ∉ batch s now) :
    OnSchedule past s ∧
      (∃ more s', Run Step x more s' ∧ s'.point = .idle ∧ ∀ a ∈ more, a.subject = none) ∧
        ∀ clock s', Step x (.endRead clock) s' → Fires now acts s s' := by
  obtain ⟨hi, hs⟩ := (health_of_run hreach).of_idle hidle
  have hr := reading_of_run hi hidle hrun hone houtside
  obtain ⟨rest, hw⟩ := hr.walks
  refine ⟨⟨hi.key, fun p when interval clock hadd t ht => ?_⟩, hr.inv.exists_idle hw,
    fun clock s' hst => hr.fires hi hidle hst⟩
  obtain ⟨-, hwhen⟩ := hs.when p when interval clock hadd t ht
  have hcurrent : p ∉ s.point.current := by
    rw [hidle]
    exact List.not_mem_nil
  rwa [if_neg hcurrent, Int.add_zero] at hwhen

/-- The hypotheses of `handleRead_exact` are satisfiable: the callback of a timer due
at 0 adds a timer. -/
theorem handleRead_exact_oneCallback :
    OnSchedule [.add 1 0 0 0] (init.addTimer 1 0 0 0) ∧
      (∃ more s', Run Step (oneCallback.addTimer 2 5 0 0) more s' ∧ s'.point = .idle ∧
        ∀ a ∈ more, a.subject = none) ∧
        ∀ clock s', Step (oneCallback.addTimer 2 5 0 0) (.endRead clock) s' →
          Fires 0 [.visit, .add 2 5 0 0] (init.addTimer 1 0 0 0) s' :=
  handleRead_exact (Run.nil.snoc (.add 1 0 0 0 (.inl rfl) (by decide) (by decide))) rfl
    (((Run.nil.snoc (.beginRead 0 rfl)).snoc (.visit oneBatch_point)).snoc
      (.add 2 5 0 0 (.inr ⟨0, 1, [], rfl⟩) (by decide) (by decide)))
    (fun clock hmem => by simp at hmem) (fun p hmem => by simp at hmem)

end TimerQueue
end BearRpc
