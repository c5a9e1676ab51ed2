/-
# No task sleeps in the queue

`EventLoop::queueInLoop` writes to the eventfd unless it is called on the loop
thread outside `doPendingTasks` (`src/RPC/bearTCP/Eventloop.cc`, lines 101 to
123).  A task is pushed before that decision, the eventfd is drained before the
swap, and `doingPendingTasks_` is set only behind it.

While the loop runs, a task in `pendingTasks_` is on its way (`Wakeful`): the
counter is positive, or a thread is about to make it so, or the loop thread comes
to the swap before it polls again.
-/

import BearRpc.Tcp.EventLoop

namespace BearRpc

open Theory Function

namespace EventLoop

variable {ι τ : Type} [DecidableEq ι]

/-- `poll` has returned, and the swap is still to come. -/
def Point.Polled : Point → Prop
  | .handling _ | .handler _ | .swapping => True
  | _ => False

/-- The thread has pushed a task and will write to the eventfd. -/
def WillWake (s : State ι τ) (w : Option ι) : Prop :=
  (∃ k, s.stage w = .queued k) ∧ (w = none → s.point = .inTask)

/-- A pending task is on its way. -/
structure Wakeful (s : State ι τ) : Prop where
  started : s.point ≠ .before
  covered : s.pending ≠ [] → 0 < s.counter ∨ (∃ w, WillWake s w) ∨ s.point.Polled

/-- **The loop thread sleeps on a task**: it is blocked in `poll`, every other
thread is outside `queueInLoop`, and a task is pending. -/
structure LostWakeup (s : State ι τ) : Prop where
  blocked : s.point = .polling ∧ s.counter = 0
  outside : ∀ i k, s.stage (some i) ≠ .queued k ∧ s.stage (some i) ≠ .woken k
  pending : s.pending ≠ []

variable {s s' s₀ : State ι τ} {a : Action ι τ} {as : List (Action ι τ)} {w : Option ι}

omit [DecidableEq ι] in
theorem Wakeful.not_lostWakeup (h : Wakeful s) : ¬ LostWakeup s := by
  rintro ⟨⟨hp, hc⟩, hout, hne⟩
  rcases h.covered hne with hpos | ⟨w, ⟨k, hk⟩, hw⟩ | hb
  · omega
  · cases w with
    | none =>
      have hpoint := hw rfl
      rw [hp] at hpoint
      cases hpoint
    | some i => exact (hout i k).1 hk
  · rw [hp] at hb
    exact hb

/-- Another thread that will write to the eventfd still will, whatever a thread
does that is not to write. -/
theorem willWake_of_update {v : Option ι} {st : Stage} (hw : WillWake s w) (hv : v ≠ w)
    (hs : s'.stage = update s.stage v st) (hp : s'.point = s.point) : WillWake s' w := by
  obtain ⟨⟨k, hk⟩, hpoint⟩ := hw
  refine ⟨⟨k, ?_⟩, fun hn => hp.trans (hpoint hn)⟩
  rw [hs, update_of_ne (Ne.symm hv)]
  exact hk

/-- **Every step keeps the pending tasks on their way**: where one is pending, the loop is
awake, or it will be woken up by the descriptor or by a caller that has not written yet. -/
theorem Wakeful.step (h : Wakeful s) (hs : Sound s) (hst : Step s a s') : Wakeful s' := by
  obtain ⟨started, covered⟩ := h
  have hother : ∀ {v : Option ι} {st : Stage}, (∀ k, s.stage v ≠ .queued k) →
      s'.stage = update s.stage v st → s'.point = s.point → s.counter ≤ s'.counter →
        s.pending ≠ [] → 0 < s'.counter ∨ (∃ w, WillWake s' w) ∨ s'.point.Polled := by
    intro v st hv hstage hpoint hc hne
    rcases covered hne with hpos | ⟨w, hw⟩ | hb
    · exact .inl (Nat.lt_of_lt_of_le hpos hc)
    · have hvw : v ≠ w := by
        rintro rfl
        obtain ⟨k, hk⟩ := hw.1
        exact hv k hk
      exact .inr (.inl ⟨w, willWake_of_update hw hvw hstage hpoint⟩)
    · exact .inr (.inr (hpoint ▸ hb))
  have hmove : ¬ s.point.Polled → s.stage none = .outside → s'.stage = s.stage →
      s'.counter = s.counter → s.pending ≠ [] →
        0 < s'.counter ∨ (∃ w, WillWake s' w) ∨ s'.point.Polled := by
    intro hb ho hstage hc hne
    rcases covered hne with hpos | ⟨w, ⟨k, hk⟩, -⟩ | hb'
    · exact .inl (hc ▸ hpos)
    · refine .inr (.inl ⟨w, ⟨k, by rw [hstage, hk]⟩, ?_⟩)
      rintro rfl
      rw [ho] at hk
      cases hk
    · exact absurd hb' hb
  cases hst with
  | @push w t hc =>
    refine ⟨started, fun _ => ?_⟩
    by_cases hb : s.point.Polled
    · exact .inr (.inr hb)
    -- the loop thread runs code of the user, and that in a task
    refine .inr (.inl ⟨w, ⟨_, update_self ..⟩, fun hw => ?_⟩)
    have huser := hc.2 hw
    change s.point = .inTask
    cases hp : s.point <;> rw [hp] at huser hb started <;> first
      | rfl
      | exact absurd rfl started
      | exact absurd trivial hb
      | cases huser
  | @wake w k hw =>
    refine ⟨started, fun hne => ?_⟩
    by_cases hcond : w ≠ none ∨ s.doing = true
    · exact .inl (s.wakeup_pos hcond)
    · -- the loop thread is in a handler: it will swap
      rw [not_or, not_not] at hcond
      have huser : s.point.User := hs.own (by rw [← hcond.1, hw]; exact nofun)
      refine .inr (.inr ?_)
      change s.point.Polled
      cases hp : s.point <;> rw [hp] at huser started <;> first
        | exact trivial
        | exact absurd rfl started
        | exact absurd (hs.doing.2 (.inr hp)) hcond.2
        | cases huser
  | ret hw | quitSet hw =>
    exact ⟨started, hother (by rw [hw]; exact nofun) rfl rfl (Nat.le_refl _)⟩
  | quitBegin hc _ => exact ⟨started, hother (by rw [hc.1]; exact nofun) rfl rfl (Nat.le_refl _)⟩
  | @quitWake w hw =>
    exact ⟨started, hother (by rw [hw]; exact nofun) rfl rfl (s.counter_le_wakeup w false)⟩
  | enter hp => exact absurd hp started
  | poll active hp _ => exact ⟨nofun, fun _ => .inr (.inr trivial)⟩
  | drain hp | handle hp | handled hp | doPendingTasks hp =>
    exact ⟨nofun, fun _ => .inr (.inr trivial)⟩
  | swap hp => exact ⟨nofun, fun hne => absurd rfl hne⟩
  | clearQuit hp | iterate hp _ | leave hp _ | raise hp | start hp _ | lower hp _ =>
    have hout : s.stage none = .outside := hs.own_outside hp nofun
    exact ⟨nofun, hmove (by rw [hp]; exact nofun) hout rfl rfl⟩
  | finish hp ho => exact ⟨nofun, hmove (by rw [hp]; exact nofun) ho rfl rfl⟩

/-- **No wake-up is lost while the loop runs**, entered with no pending task: in
no state of any run does the loop thread sleep on a task; and the tasks are
executed in the order in which they were pushed, each at most once. -/
theorem no_lost_wakeup (hq : Quiet s₀) (hp : s₀.point = .entered) (hempty : s₀.pending = [])
    (hrun : Run Step s₀ as s) : ¬ LostWakeup s ∧ s.executed <+: s.pushed := by
  have hinit : Sound s₀ ∧ Wakeful s₀ :=
    ⟨hq.sound (.inr hp), by rw [hp]; exact nofun, fun hne => absurd hempty hne⟩
  have hinv : Sound s ∧ Wakeful s :=
    hrun.preserves (P := fun s => Sound s ∧ Wakeful s) hinit fun _ _ _ h hst =>
      ⟨h.1.step hst, h.2.step h.1 hst⟩
  refine ⟨hinv.2.not_lostWakeup, s.tasks ++ s.pending, ?_⟩
  rw [hinv.1.ordered, List.append_assoc]

/-- A loop with no pending task, entered. -/
def freshLoop : State Unit Unit :=
  ⟨.entered, fun _ => .outside, false, false, 0, [], [], [], [], [], []⟩

theorem quiet_freshLoop : Quiet freshLoop where
  own := rfl
  doing := rfl
  tasks := rfl
  ordered := rfl
  numbered := by
    rintro w k (h | h)
    · cases h
    · cases h
  completed := nofun
  owed := rfl

/-- The hypotheses of `no_lost_wakeup` are satisfiable: another thread has pushed a
task while the loop thread blocks in `poll`. -/
theorem no_lost_wakeup_freshLoop :
    ¬ LostWakeup ({ freshLoop with point := .polling, quit := false }.push (some ()) ()) ∧
      ({ freshLoop with point := .polling, quit := false }.push (some ()) ()).executed <+:
        ({ freshLoop with point := .polling, quit := false }.push (some ()) ()).pushed :=
  no_lost_wakeup quiet_freshLoop rfl rfl
    (((Run.nil.snoc (.clearQuit rfl)).snoc (.iterate rfl rfl)).snoc
      (.push (w := some ()) () ⟨rfl, nofun⟩))

end EventLoop
end BearRpc
