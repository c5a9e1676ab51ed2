/-
# The event loop

`EventLoop::loop`, `quit`, `queueInLoop` and `doPendingTasks`
(`src/RPC/bearTCP/Eventloop.cc`, lines 62 to 123 and 148 to 204) with any number
of threads.

The loop thread goes through the points of `loop()`; at three of them it runs code
of the user: before `loop()` is called, in the handler of a channel, and in a
pending task.  That code, and every other thread at any time, calls `queueInLoop`
and `quit` (`Stage`).  A critical section under `mutex_` is one step, and so is
each access to `quit_`, to `doingPendingTasks_` and to the eventfd.

`poll` returns with any channels, among them the one of the eventfd only if its
counter is positive.  The tasks are a parameter; `pushed` and `executed` record
them in the order in which they were pushed and started.  A failed assertion ends
the program: there is no step behind it.

Code of the user is a handler or a task.  The vector of `doPendingTasks` destroys
the tasks it has executed when the function returns, behind
`doingPendingTasks_ = false`; destructors of what a task has captured are not part of
the model, so that one that calls `queueInLoop` itself, which would wake up nobody, is
not covered.
-/

import BearRpc.Theory.Transition
import Mathlib.Logic.Function.Basic

namespace BearRpc

open Theory Function

namespace EventLoop

/-- A channel in `activeChannels_`. -/
inductive Channel where
  /-- `wakeupChannel_` -/
  | wakeup
  | other
  deriving DecidableEq, Repr

/-- Where the loop thread is. -/
inductive Point where
  /-- `loop()` has not been called; code of the user -/
  | before
  /-- in `loop()`, before `quit_ = false` -/
  | entered
  /-- before `while (!quit_)` -/
  | test
  /-- in `poller_.poll(activeChannels_)` -/
  | polling
  /-- before the handler of the first of the remaining channels -/
  | handling (active : List Channel)
  /-- in the handler of a channel; code of the user -/
  | handler (active : List Channel)
  /-- in `doPendingTasks()`, before the swap -/
  | swapping
  /-- before `doingPendingTasks_ = true` -/
  | raising
  /-- before the first of the remaining tasks -/
  | running
  /-- in a task; code of the user -/
  | inTask
  /-- `loop()` has returned -/
  | returned
  deriving DecidableEq, Repr

/-- Code of the user runs on the loop thread. -/
def Point.User : Point → Prop
  | .before | .handler _ | .inTask => True
  | _ => False

/-- Where a thread is in a call of `queueInLoop` or `quit`.  The task pushed is
known by its number. -/
inductive Stage where
  | outside
  /-- in `queueInLoop`, behind the critical section -/
  | queued (k : ℕ)
  /-- at the end of `queueInLoop` -/
  | woken (k : ℕ)
  /-- in `quit`, behind the assertion -/
  | quitting
  /-- in `quit`, behind `quit_ = true` -/
  | quitSet
  deriving DecidableEq, Repr

/-- The loop, with the other threads `ι` and tasks `τ`.  The thread `none` is the
loop thread. -/
structure State (ι τ : Type) where
  point : Point
  stage : Option ι → Stage
  /-- `quit_` -/
  quit : Bool
  /-- `doingPendingTasks_` -/
  doing : Bool
  /-- the counter of the eventfd -/
  counter : ℕ
  /-- `pendingTasks_` -/
  pending : List τ
  /-- `tasks` of `doPendingTasks`, without those already started -/
  tasks : List τ
  pushed : List τ
  executed : List τ
  /-- the tasks whose `queueInLoop` call has returned -/
  completed : List ℕ
  /-- `completed`, when the last call of `quit` began -/
  owed : List ℕ

/-- What a thread does. -/
inductive Action (ι τ : Type) where
  | push (w : Option ι) (t : τ)
  | wake (w : Option ι)
  | ret (w : Option ι)
  | quitBegin (w : Option ι)
  | quitSet (w : Option ι)
  | quitWake (w : Option ι)
  /-- a step of `loop()` -/
  | loop

variable {ι τ : Type} [DecidableEq ι]

namespace State

variable (s : State ι τ)

/-- The thread `w` can call a function of the loop. -/
def MayCall (w : Option ι) : Prop := s.stage w = .outside ∧ (w = none → s.point.User)

/-- `wakeup()`, unless the thread is the loop thread and `asked` is false. -/
def wakeup (w : Option ι) (asked : Bool) : ℕ :=
  if w ≠ none ∨ asked = true then s.counter + 1 else s.counter

omit [DecidableEq ι] in
theorem counter_le_wakeup (w : Option ι) (asked : Bool) : s.counter ≤ s.wakeup w asked := by
  rw [wakeup]
  split <;> omega

omit [DecidableEq ι] in
theorem wakeup_pos {w : Option ι} {asked : Bool} (h : w ≠ none ∨ asked = true) :
    0 < s.wakeup w asked := by
  rw [wakeup, if_pos h]
  exact Nat.succ_pos _

/-- The critical section of `queueInLoop(task)` -/
def push (w : Option ι) (t : τ) : State ι τ :=
  { s with
    stage := update s.stage w (.queued s.pushed.length)
    pending := s.pending ++ [t]
    pushed := s.pushed ++ [t] }

/-- `if (!isInLoopThread() || doingPendingTasks_) wakeup();` -/
def wake (w : Option ι) (k : ℕ) : State ι τ :=
  { s with stage := update s.stage w (.woken k), counter := s.wakeup w s.doing }

/-- `queueInLoop` returns. -/
def ret (w : Option ι) (k : ℕ) : State ι τ :=
  { s with stage := update s.stage w .outside, completed := s.completed ++ [k] }

/-- `quit` is called. -/
def quitBegin (w : Option ι) : State ι τ :=
  { s with stage := update s.stage w .quitting, owed := s.completed }

/-- `quit_ = true` -/
def setQuit (w : Option ι) : State ι τ :=
  { s with stage := update s.stage w .quitSet, quit := true }

/-- `if (!isInLoopThread()) wakeup();` -/
def quitWake (w : Option ι) : State ι τ :=
  { s with stage := update s.stage w .outside, counter := s.wakeup w false }

/-- `tasks.swap(pendingTasks_)` -/
def swap : State ι τ := { s with point := .raising, tasks := s.pending, pending := [] }

/-- The next task is called. -/
def start (t : τ) (ts : List τ) : State ι τ :=
  { s with point := .inTask, tasks := ts, executed := s.executed ++ [t] }

/-- The number of the tasks swapped out so far. -/
def taken : ℕ := s.executed.length + s.tasks.length

end State

/-- The steps of the threads. -/
inductive Step : State ι τ → Action ι τ → State ι τ → Prop
  | push {s w} (t : τ) : s.MayCall w → Step s (.push w t) (s.push w t)
  | wake {s w k} : s.stage w = .queued k → Step s (.wake w) (s.wake w k)
  | ret {s w k} : s.stage w = .woken k → Step s (.ret w) (s.ret w k)
  | quitBegin {s w} : s.MayCall w → s.quit = false → Step s (.quitBegin w) (s.quitBegin w)
  | quitSet {s w} : s.stage w = .quitting → Step s (.quitSet w) (s.setQuit w)
  | quitWake {s w} : s.stage w = .quitSet → Step s (.quitWake w) (s.quitWake w)
  /-- `loop()` is called -/
  | enter {s} : s.point = .before → s.stage none = .outside →
      Step s .loop { s with point := .entered }
  /-- `quit_ = false` -/
  | clearQuit {s} : s.point = .entered → Step s .loop { s with point := .test, quit := false }
  | iterate {s} : s.point = .test → s.quit = false → Step s .loop { s with point := .polling }
  | leave {s} : s.point = .test → s.quit = true → Step s .loop { s with point := .returned }
  /-- `poll` returns -/
  | poll {s} (active : List Channel) : s.point = .polling → (.wakeup ∈ active → 0 < s.counter) →
      Step s .loop { s with point := .handling active }
  /-- `handleRead()` of the eventfd -/
  | drain {s active} : s.point = .handling (.wakeup :: active) →
      Step s .loop { s with point := .handling active, counter := 0 }
  | handle {s active} : s.point = .handling (.other :: active) →
      Step s .loop { s with point := .handler active }
  | handled {s active} : s.point = .handler active → s.stage none = .outside →
      Step s .loop { s with point := .handling active }
  | doPendingTasks {s} : s.point = .handling [] → Step s .loop { s with point := .swapping }
  | swap {s} : s.point = .swapping → Step s .loop s.swap
  /-- `doingPendingTasks_ = true` -/
  | raise {s} : s.point = .raising → Step s .loop { s with point := .running, doing := true }
  | start {s t ts} : s.point = .running → s.tasks = t :: ts → Step s .loop (s.start t ts)
  | finish {s} : s.point = .inTask → s.stage none = .outside →
      Step s .loop { s with point := .running }
  /-- `doingPendingTasks_ = false` -/
  | lower {s} : s.point = .running → s.tasks = [] →
      Step s .loop { s with point := .test, doing := false }

/-! ### What holds in every run -/

/-- What holds in every state: the tasks in their places, and which thread may
hold what. -/
structure Sound (s : State ι τ) : Prop where
  /-- the tasks pushed are those started, those swapped out and those pending -/
  ordered : s.pushed = s.executed ++ s.tasks ++ s.pending
  tasks : s.tasks ≠ [] → s.point = .raising ∨ s.point = .running ∨ s.point = .inTask
  doing : s.doing = true ↔ s.point = .running ∨ s.point = .inTask
  own : s.stage none ≠ .outside → s.point.User
  numbered : ∀ w k, s.stage w = .queued k ∨ s.stage w = .woken k → k < s.pushed.length
  completed : ∀ k ∈ s.completed, k < s.pushed.length
  owed : ∀ k ∈ s.owed, k < s.pushed.length

/-- A loop that is not in `doPendingTasks`, with the calls of other threads. -/
structure Quiet (s : State ι τ) : Prop where
  own : s.stage none = .outside
  doing : s.doing = false
  tasks : s.tasks = []
  ordered : s.pushed = s.executed ++ s.pending
  numbered : ∀ w k, s.stage w = .queued k ∨ s.stage w = .woken k → k < s.pushed.length
  completed : ∀ k ∈ s.completed, k < s.pushed.length
  owed : s.owed = []

variable {s s' s₀ : State ι τ} {a : Action ι τ} {as : List (Action ι τ)} {w : Option ι}

omit [DecidableEq ι] in
/-- A loop can be entered in any such state. -/
theorem Quiet.sound (h : Quiet s) (hp : s.point = .before ∨ s.point = .entered) : Sound s where
  ordered := by
    rw [h.tasks, List.append_nil]
    exact h.ordered
  tasks := fun hne => absurd h.tasks hne
  doing := by
    rw [h.doing]
    rcases hp with hp | hp <;> simp [hp]
  own := fun hne => absurd h.own hne
  numbered := h.numbered
  completed := h.completed
  owed := by simp [h.owed]

omit [DecidableEq ι] in
/-- Outside of `doPendingTasks`, and before its swap, the loop thread has no tasks. -/
theorem Sound.idle {p : Point} (h : Sound s) (hp : s.point = p) (h₁ : p ≠ .raising)
    (h₂ : p ≠ .running) (h₃ : p ≠ .inTask) : s.tasks = [] ∧ s.doing = false := by
  subst hp
  constructor
  · by_contra hne
    rcases h.tasks hne with hp | hp | hp
    · exact h₁ hp
    · exact h₂ hp
    · exact h₃ hp
  · exact Bool.eq_false_iff.2 fun hd => (h.doing.1 hd).elim h₂ h₃

/-- A thread that may call a function is the loop thread only in code of the
user. -/
theorem own_of_update (h : s.stage none ≠ .outside → s.point.User)
    (hw : s.stage w ≠ .outside ∨ s.MayCall w) {st : Stage}
    (hne : update s.stage w st none ≠ .outside) : s.point.User := by
  by_cases hn : w = none
  · rcases hw with hw | hw
    · exact h (hn ▸ hw)
    · exact hw.2 hn
  · rw [update_of_ne (Ne.symm hn)] at hne
    exact h hne

/-- A stage without a number leaves the numbers of the others. -/
theorem numbered_of_update {n : ℕ}
    (h : ∀ w k, s.stage w = .queued k ∨ s.stage w = .woken k → k < n) {st : Stage}
    (hst : ∀ k, st = .queued k ∨ st = .woken k → k < n) (v : Option ι) (k : ℕ)
    (hk : update s.stage w st v = .queued k ∨ update s.stage w st v = .woken k) : k < n := by
  by_cases hv : v = w
  · rw [hv, update_self] at hk
    exact hst k hk
  · rw [update_of_ne hv] at hk
    exact h v k hk

omit [DecidableEq ι] in
/-- Outside code of the user the loop thread is in no call. -/
theorem Sound.own_outside {p : Point} (h : Sound s) (hp : s.point = p) (hu : ¬ p.User) :
    s.stage none = .outside := by
  by_contra hne
  exact hu (hp ▸ h.own hne)

omit [DecidableEq ι] in
/-- The loop thread moves on, and leaves the tasks where they are. -/
theorem Sound.move (h : Sound s) {point : Point} {quit doing : Bool} {counter : ℕ}
    (hown : s.stage none = .outside)
    (htasks : s.tasks = [] ∨ point = .raising ∨ point = .running ∨ point = .inTask)
    (hdoing : doing = true ↔ point = .running ∨ point = .inTask) :
    Sound { s with point := point, quit := quit, doing := doing, counter := counter } :=
  ⟨h.ordered, fun hne => htasks.resolve_left hne, hdoing, fun hne => absurd hown hne, h.numbered,
    h.completed, h.owed⟩

/-- **Every step keeps the tasks in their places**: one that was pushed is pending, taken or
executed, in the order in which they were pushed and each in one place. -/
theorem Sound.step (h : Sound s) (hst : Step s a s') : Sound s' := by
  have ⟨ordered, tasks, doing, own, numbered, completed, owed⟩ := h
  cases hst with
  | @push w t hc =>
    have hlen : (s.pushed ++ [t]).length = s.pushed.length + 1 := by simp
    refine ⟨?_, tasks, doing, own_of_update own (.inr hc), ?_, ?_, ?_⟩
    · change s.pushed ++ [t] = s.executed ++ s.tasks ++ (s.pending ++ [t])
      rw [ordered]
      simp only [List.append_assoc]
    · change ∀ v k, _ → k < (s.pushed ++ [t]).length
      rw [hlen]
      refine numbered_of_update (fun v k hk => Nat.lt_succ_of_lt (numbered v k hk)) fun k hk => ?_
      rcases hk with hk | hk <;> cases hk
      exact Nat.lt_succ_self _
    · change ∀ k ∈ s.completed, k < (s.pushed ++ [t]).length
      rw [hlen]
      exact fun k hk => Nat.lt_succ_of_lt (completed k hk)
    · change ∀ k ∈ s.owed, k < (s.pushed ++ [t]).length
      rw [hlen]
      exact fun k hk => Nat.lt_succ_of_lt (owed k hk)
  | @wake w k hw =>
    have hk := numbered w k (.inl hw)
    have hne : s.stage w ≠ .outside := by rw [hw]; exact nofun
    refine ⟨ordered, tasks, doing, own_of_update own (.inl hne), ?_, completed, owed⟩
    refine numbered_of_update numbered fun j hj => ?_
    rcases hj with hj | hj <;> cases hj
    exact hk
  | @ret w k hw =>
    have hk := numbered w k (.inr hw)
    have hne : s.stage w ≠ .outside := by rw [hw]; exact nofun
    refine ⟨ordered, tasks, doing, own_of_update own (.inl hne),
      numbered_of_update numbered nofun, ?_, owed⟩
    intro j hj
    rcases List.mem_append.1 hj with hj | hj
    · exact completed j hj
    · rw [List.mem_singleton.1 hj]
      exact hk
  | quitBegin hc _ =>
    exact ⟨ordered, tasks, doing, own_of_update own (.inr hc), numbered_of_update numbered nofun,
      completed, completed⟩
  | @quitSet w hw | @quitWake w hw =>
    have hne : s.stage w ≠ .outside := by rw [hw]; exact nofun
    exact ⟨ordered, tasks, doing, own_of_update own (.inl hne), numbered_of_update numbered nofun,
      completed, owed⟩
  | enter hp ho =>
    obtain ⟨ht, hd⟩ := h.idle hp nofun nofun nofun
    exact h.move ho (.inl ht) (by simp [hd])
  | clearQuit hp | iterate hp | leave hp | poll _ hp | drain hp | handle hp | doPendingTasks hp =>
    obtain ⟨ht, hd⟩ := h.idle hp nofun nofun nofun
    exact h.move (h.own_outside hp nofun) (.inl ht) (by simp [hd])
  | handled hp ho =>
    obtain ⟨ht, hd⟩ := h.idle hp nofun nofun nofun
    exact h.move ho (.inl ht) (by simp [hd])
  | swap hp =>
    obtain ⟨ht, hd⟩ := h.idle hp nofun nofun nofun
    refine ⟨?_, fun _ => .inl rfl, ?_, ?_, numbered, completed, owed⟩
    · simp [State.swap, ordered, ht]
    · simp [State.swap, hd]
    · exact fun hne => absurd (h.own_outside hp nofun) hne
  | raise hp => exact h.move (h.own_outside hp nofun) (.inr (.inr (.inl rfl))) (by simp)
  | @start t ts hp ht =>
    have hd : s.doing = true := doing.2 (.inl hp)
    refine ⟨?_, fun _ => .inr (.inr rfl), ?_, ?_, numbered, completed, owed⟩
    · simp [State.start, ordered, ht]
    · simp [State.start, hd]
    · exact fun hne => absurd (h.own_outside hp nofun) hne
  | finish hp ho => exact h.move ho (.inr (.inr (.inl rfl))) (by simp [doing.2 (.inr hp)])
  | lower hp ht => exact h.move (h.own_outside hp nofun) (.inl ht) (by simp)

/-- **In every state of every run the tasks are in their places**, whatever the threads are
and whichever of them queue tasks. -/
theorem sound_of_run (hq : Quiet s₀) (hp : s₀.point = .before ∨ s₀.point = .entered)
    (hrun : Run Step s₀ as s) : Sound s :=
  hrun.preserves (hq.sound hp) fun _ _ _ h hst => h.step hst

end EventLoop
end BearRpc
