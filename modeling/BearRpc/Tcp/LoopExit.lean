/-
# Tasks at the exit of the loop

`EventLoop::loop` (`src/RPC/bearTCP/Eventloop.cc`, lines 62 to 75) takes the
pending tasks once in an iteration and tests `quit_` behind them.  A task that is
pushed behind the swap, by a task or by another thread, is only executed if there
is another iteration: a call of `quit` behind it ends the loop with the task in
`pendingTasks_` (`not_exitComplete_taskQuits`).

A call of `quit` is timely if, when it sets `quit_`, the loop still comes to a
swap before its test, or no task is pending that was owed then.  With timely calls
no task is dropped (`exitComplete_of_run`), and a call that is not timely drops one
(`not_exitComplete_of_late`).
-/

import BearRpc.Tcp.EventLoop

namespace BearRpc

open Theory Function

namespace EventLoop

variable {ι τ : Type} [DecidableEq ι]

/-- `loop()` tests `quit_` before it comes to a swap. -/
def Point.AfterSwap : Point → Prop
  | .test | .raising | .running | .inTask => True
  | _ => False

/-- **No task is dropped**: every task whose `queueInLoop` call had returned before
the last call of `quit` began has been executed, once. -/
structure ExitComplete (s : State ι τ) : Prop where
  once : s.executed <+: s.pushed
  all : ∀ k ∈ s.owed, k < s.executed.length

/-- If the action sets `quit_` behind the swap of the iteration, no task that is
owed is still pending. -/
def Timely (s : State ι τ) (a : Action ι τ) : Prop :=
  ∀ w, a = .quitSet w → s.point.AfterSwap → ∀ k ∈ s.owed, k < s.taken

/-- The loop that is about to return, or has returned, has taken what it owes. -/
structure Settled (s : State ι τ) : Prop where
  taken : (s.quit = true ∧ s.point.AfterSwap) ∨ s.point = .returned → ∀ k ∈ s.owed, k < s.taken
  quit : s.point = .returned → s.quit = true

variable {s s' s₀ : State ι τ} {a : Action ι τ} {as : List (Action ι τ)} {w : Option ι}

/-- **Timely steps keep the accounts**: when the loop is about to return, the tasks that it
owes have been taken from the queue. -/
theorem Settled.step (h : Settled s) (hs : Sound s) (hst : Step s a s') (ht : Timely s a) :
    Settled s' := by
  obtain ⟨taken, quit⟩ := h
  -- between the swap and the test of `quit_` the accounts stand
  have hstay : ∀ {p p' : Point}, s.point = p → p.AfterSwap → p' ≠ .returned →
      (s.quit = true ∧ p'.AfterSwap) ∨ p' = .returned → ∀ k ∈ s.owed, k < s.taken := by
    rintro p p' rfl hp hne (⟨hq, -⟩ | hp')
    · exact taken (.inl ⟨hq, hp⟩)
    · exact absurd hp' hne
  cases hst with
  | push t hc => exact ⟨taken, quit⟩
  | wake hw | ret hw | quitWake hw => exact ⟨taken, quit⟩
  | quitBegin hc hq =>
    refine ⟨?_, quit⟩
    rintro (⟨hq', -⟩ | hp)
    · exact absurd (hq.symm.trans hq') nofun
    · exact absurd (hq.symm.trans (quit hp)) nofun
  | @quitSet w hw =>
    refine ⟨?_, fun _ => rfl⟩
    rintro (⟨-, hp⟩ | hp)
    · exact ht w rfl hp
    · exact taken (.inr hp)
  | enter hp | poll _ hp _ | drain hp | handle hp | handled hp | doPendingTasks hp =>
    refine ⟨?_, nofun⟩
    rintro (⟨-, hp'⟩ | hp')
    · cases hp'
    · cases hp'
  | clearQuit hp =>
    refine ⟨?_, nofun⟩
    rintro (⟨hq, -⟩ | hp')
    · cases hq
    · cases hp'
  | iterate hp hq =>
    refine ⟨?_, nofun⟩
    rintro (⟨hq', -⟩ | hp')
    · exact absurd (hq.symm.trans hq') nofun
    · cases hp'
  | leave hp hq => exact ⟨fun _ => taken (.inl ⟨hq, by rw [hp]; trivial⟩), fun _ => hq⟩
  | swap hp =>
    refine ⟨fun _ k hk => ?_, nofun⟩
    have hlen := congrArg List.length hs.ordered
    have htasks := (hs.idle hp nofun nofun nofun).1
    have hlt := hs.owed k hk
    simp only [htasks, List.append_nil, List.length_append] at hlen
    change k < s.executed.length + s.pending.length
    omega
  | raise hp | finish hp _ | lower hp _ => exact ⟨hstay hp trivial nofun, nofun⟩
  | @start t ts hp htasks =>
    have hne : Point.inTask ≠ .returned := nofun
    refine ⟨fun hor k hk => ?_, fun h => absurd h hne⟩
    have hlt := hstay hp trivial hne hor k hk
    simp only [State.taken, htasks, List.length_cons] at hlt
    simp only [State.taken, State.start, List.length_append, List.length_singleton]
    omega

/-- **No task is dropped at the exit of the loop**, in every run in which the calls of
`quit` are timely: where one sets `quit_` behind the swap of an iteration, no task that is
owed is still pending. When such a run has returned, every task pushed before the last call
of `quit` began has been executed. -/
theorem exitComplete_of_run (hq : Quiet s₀) (hp : s₀.point = .entered)
    (hrun : Run (fun s a s' => Step s a s' ∧ Timely s a) s₀ as s) (hret : s.point = .returned) :
    ExitComplete s := by
  have hinit : Sound s₀ ∧ Settled s₀ := by
    refine ⟨hq.sound (.inr hp), ?_, by rw [hp]; exact nofun⟩
    rw [hq.owed]
    exact nofun
  have hinv : Sound s ∧ Settled s :=
    hrun.preserves (P := fun s => Sound s ∧ Settled s) hinit fun _ _ _ h hst =>
      ⟨h.1.step hst.1, h.2.step h.1 hst.1 hst.2⟩
  have htasks := (hinv.1.idle hret nofun nofun nofun).1
  refine ⟨⟨s.tasks ++ s.pending, ?_⟩, fun k hk => ?_⟩
  · rw [hinv.1.ordered, List.append_assoc]
  · have hlt := hinv.2.taken (.inr hret) k hk
    rwa [State.taken, htasks, List.length_nil, Nat.add_zero] at hlt

/-- A call of `quit` that is not timely, with the task `k` that it owes. -/
structure Late (s : State ι τ) (k : ℕ) : Prop where
  quit : s.quit = true
  point : s.point.AfterSwap ∨ s.point = .returned
  owed : k ∈ s.owed
  pending : s.taken ≤ k

/-- The loop goes to its exit, and takes no task on the way. -/
theorem Late.step {k : ℕ} (h : Late s k) (hst : Step s a s') : Late s' k := by
  obtain ⟨quit, point, owed, pending⟩ := h
  cases hst with
  | push | wake | ret | quitWake => exact ⟨quit, point, owed, pending⟩
  | quitSet => exact ⟨rfl, point, owed, pending⟩
  | quitBegin _ hq => exact absurd (hq.symm.trans quit) nofun
  | enter hp | clearQuit hp | poll _ hp _ | drain hp | handle hp | handled hp | doPendingTasks hp
  | swap hp =>
    rw [hp] at point
    rcases point with hp' | hp' <;> cases hp'
  | iterate hp hq => exact absurd (hq.symm.trans quit) nofun
  | leave hp hq => exact ⟨quit, .inr rfl, owed, pending⟩
  | raise hp | finish hp | lower hp => exact ⟨quit, .inl trivial, owed, pending⟩
  | @start t ts hp htasks =>
    refine ⟨quit, .inl trivial, owed, ?_⟩
    simp only [State.taken, htasks, List.length_cons] at pending
    simp only [State.taken, State.start, List.length_append, List.length_singleton]
    omega

/-- **A call of `quit` that is not timely drops a task**: the loop returns without
having executed it, if it returns. -/
theorem not_exitComplete_of_late {k : ℕ} (hp : s.point.AfterSwap) (hk : k ∈ s.owed)
    (hle : s.taken ≤ k) (hrun : Run Step (s.setQuit w) as s') : ¬ ExitComplete s' := by
  have hlate : Late s' k :=
    hrun.preserves (P := fun s => Late s k) ⟨rfl, .inl hp, hk, hle⟩ fun _ _ _ h hst => h.step hst
  intro h
  have hlt := h.all k hlate.owed
  have hle' := hlate.pending
  unfold State.taken at hle'
  omega

/-- A loop entered with one task pending, whose `queueInLoop` call has returned. -/
def oneTask : State Unit Unit :=
  ⟨.entered, fun _ => .outside, false, false, 1, [()], [], [()], [], [0], []⟩

theorem quiet_oneTask : Quiet oneTask where
  own := rfl
  doing := rfl
  tasks := rfl
  ordered := rfl
  numbered := by
    rintro w k (h | h)
    · cases h
    · cases h
  completed := by simp [oneTask]
  owed := rfl

/-- The task is called. -/
def oneTaskRuns : State Unit Unit :=
  { oneTask with point := .inTask, doing := true, counter := 0, pending := [], executed := [()] }

theorem run_oneTask : Run (fun s a s' => Step s a s' ∧ Timely s a) oneTask
    (List.replicate 8 Action.loop) oneTaskRuns := by
  have htimely : ∀ {s : State Unit Unit}, Timely s .loop := fun _ h => by cases h
  exact (((((((Run.nil.snoc ⟨.clearQuit rfl, htimely⟩).snoc ⟨.iterate rfl rfl, htimely⟩).snoc
    ⟨.poll [.wakeup] rfl fun _ => Nat.one_pos, htimely⟩).snoc ⟨.drain rfl, htimely⟩).snoc
    ⟨.doPendingTasks rfl, htimely⟩).snoc ⟨.swap rfl, htimely⟩).snoc ⟨.raise rfl, htimely⟩).snoc
    ⟨.start rfl rfl, htimely⟩

/-- The hypotheses of `exitComplete_of_run` are satisfiable: the task calls `quit`. -/
theorem exitComplete_of_run_oneTask :
    ExitComplete { oneTaskRuns with
      point := .returned, quit := true, doing := false, owed := [0],
      stage := update (update (update oneTaskRuns.stage none .quitting) none .quitSet) none
        .outside } := by
  have htimely : ∀ {s : State Unit Unit} {a}, (∀ w, a ≠ .quitSet w) → Timely s a :=
    fun h w hw => absurd hw (h w)
  have hbegin := run_oneTask.snoc
    ⟨.quitBegin (w := none) ⟨rfl, fun _ => trivial⟩ rfl, htimely nofun⟩
  have hset := hbegin.snoc ⟨.quitSet (w := none) rfl, fun _ _ _ k hk => by
    rw [List.mem_singleton.1 hk]
    exact Nat.one_pos⟩
  have hwake := hset.snoc ⟨.quitWake (w := none) rfl, htimely nofun⟩
  exact exitComplete_of_run quiet_oneTask rfl
    (((hwake.snoc ⟨.finish rfl rfl, htimely nofun⟩).snoc ⟨.lower rfl rfl, htimely nofun⟩).snoc
      ⟨.leave rfl rfl, htimely nofun⟩) rfl

/-- **A task that queues another and then calls `quit`** leaves that one behind: the queue
has been swapped for this turn, and there is no other turn. -/
theorem not_exitComplete_taskQuits :
    ¬ ∀ (s₀ s : State Unit Unit) (as : List (Action Unit Unit)), Quiet s₀ → s₀.point = .entered →
      Run Step s₀ as s → s.point = .returned → ExitComplete s := by
  intro h
  have hrun := run_oneTask.mono fun _ _ _ hst => hst.1
  have hqueue := ((hrun.snoc (.push (w := none) () ⟨rfl, fun _ => trivial⟩)).snoc
    (.wake (w := none) (k := 1) rfl)).snoc (.ret (w := none) (k := 1) rfl)
  have hquit := ((hqueue.snoc (.quitBegin (w := none) ⟨rfl, fun _ => trivial⟩ rfl)).snoc
    (.quitSet (w := none) rfl)).snoc (.quitWake (w := none) rfl)
  have hexit := ((hquit.snoc (.finish rfl rfl)).snoc (.lower rfl rfl)).snoc (.leave rfl rfl)
  have hlt := (h _ _ _ quiet_oneTask rfl hexit rfl).all 1 (by decide)
  exact absurd hlt (by decide)

end EventLoop
end BearRpc
