/-
# The thread pool

`ThreadPool::runTask`, `stop`, `runInThread` and `take`
(`src/RPC/bearTCP/ThreadPool.cc`, lines 29 to 100) with `n` worker threads and any
number of other threads, any of which may be in `runTask`, the workers from within
a task.

A critical section under `mutex_` is one step, from the lock to the unlock or to
`wait`.  `running_` is atomic: each access to it outside of `mutex_` is a step.  A
task is a function that can be called, known by its number in the order of
`push_back`; `take` returns an empty one only if the queue is empty.

Where no task calls `runTask`, the pool does not sleep on work
(`neverSleeps_of_run`).
-/

import BearRpc.Theory.Condition
import BearRpc.Theory.Transition
import Mathlib.Data.Fintype.Basic
import Mathlib.Logic.Function.Basic

namespace BearRpc

open Theory Function

namespace ThreadPool

/-- Where a worker is, in `runInThread`. -/
inductive Worker where
  /-- in `threadInitCallback_` -/
  | starting
  /-- before `while (running_)` -/
  | test
  /-- in `take()`, before the lock -/
  | taking
  /-- in `notEmpty_.wait(lock)` -/
  | waiting
  /-- behind `take()`, with the task `k` -/
  | holding (k : ℕ)
  /-- in `task()` -/
  | calling
  | exited
  deriving DecidableEq, Repr

/-- Where a thread is, in `runTask(task)`. -/
inductive Caller (τ : Type) where
  | outside
  /-- behind the assertion -/
  | entered (task : τ)
  /-- in `notFull_.wait(lock)` -/
  | waiting (task : τ)
  deriving DecidableEq, Repr

/-- Where `stop()` is. -/
inductive Stop where
  | notCalled
  /-- behind `running_ = false` -/
  | flagged
  /-- behind `notify_all`, joining the threads -/
  | joining
  | returned
  deriving DecidableEq, Repr

/-- The pool, with `n` workers, the other threads `π` and the tasks `τ`. -/
structure State (n : ℕ) (π τ : Type) where
  worker : Fin n → Worker
  caller : Fin n ⊕ π → Caller τ
  stop : Stop
  running : Bool
  taskQueue : List τ
  /-- the workers that wait on `notEmpty_` -/
  notEmpty : Finset (Fin n)
  /-- the threads that wait on `notFull_` -/
  notFull : Finset (Fin n ⊕ π)
  /-- the tasks that `runTask` has pushed, and those that `take` has popped -/
  pushed : List τ
  taken : List τ
  /-- the tasks that have been called -/
  executed : List ℕ

/-- What happens: a call of `runTask`, a step of a thread in it, a step of a worker,
a spurious wake-up, or a step of `stop`. -/
inductive Action (n : ℕ) (π τ : Type) where
  | enter (c : Fin n ⊕ π) (task : τ)
  | caller (c : Fin n ⊕ π)
  | worker (w : Fin n)
  | spurious
  | stop

variable {n : ℕ} {π τ : Type}

/-- A constructed pool. -/
def init : State n π τ :=
  ⟨fun _ => .starting, fun _ => .outside, .notCalled, true, [], ∅, ∅, [], [], []⟩

namespace State

variable (s : State n π τ)

/-- The thread can call `runTask`. -/
def MayCall (c : Fin n ⊕ π) : Prop :=
  s.caller c = .outside ∧ ∀ w, c = .inl w → s.worker w = .calling

/-- The thread can lock `mutex_` in `runTask`. -/
def InRunTask (c : Fin n ⊕ π) (task : τ) : Prop :=
  s.caller c = .entered task ∨ s.caller c = .waiting task ∧ c ∉ s.notFull

/-- The worker can lock `mutex_` in `take`. -/
def InTake (w : Fin n) : Prop :=
  s.worker w = .taking ∨ s.worker w = .waiting ∧ w ∉ s.notEmpty

/-- The worker goes on to `p`. -/
def move (w : Fin n) (p : Worker) : State n π τ := { s with worker := update s.worker w p }

variable [DecidableEq π] in
/-- `taskQueue_.push_back(task); notEmpty_.notify_one();` -/
def push (c : Fin n ⊕ π) (task : τ) (notEmpty : Finset (Fin n)) : State n π τ :=
  { s with
    caller := update s.caller c .outside
    taskQueue := s.taskQueue ++ [task]
    pushed := s.pushed ++ [task]
    notEmpty := notEmpty }

variable [DecidableEq π] in
/-- `notFull_.wait(lock)` -/
def block (c : Fin n ⊕ π) (task : τ) : State n π τ :=
  { s with caller := update s.caller c (.waiting task), notFull := insert c s.notFull }

/-- `taskQueue_.pop_front(); notFull_.notify_one();` -/
def take (w : Fin n) (task : τ) (rest : List τ) (notFull : Finset (Fin n ⊕ π)) : State n π τ :=
  { s with
    worker := update s.worker w (.holding s.taken.length)
    taskQueue := rest
    taken := s.taken ++ [task]
    notFull := notFull }

end State

variable [DecidableEq π] in
/-- The steps, of a pool with `n` threads. -/
inductive Step (maxQueueSize : ℕ) : State n π τ → Action n π τ → State n π τ → Prop
  /-- `assert(running_)` -/
  | enter {s c} (task : τ) : s.running = true → s.MayCall c →
      Step maxQueueSize s (.enter c task) { s with caller := update s.caller c (.entered task) }
  /-- `threads_.empty()`: the thread calls the task itself -/
  | direct {s c task} : n = 0 → s.caller c = .entered task →
      Step maxQueueSize s (.caller c) { s with caller := update s.caller c .outside }
  | push {s c task notEmpty} : 0 < n → s.InRunTask c task → s.taskQueue.length < maxQueueSize →
      Condition.NotifyOne s.notEmpty notEmpty →
        Step maxQueueSize s (.caller c) (s.push c task notEmpty)
  | block {s c task} : 0 < n → s.InRunTask c task → maxQueueSize ≤ s.taskQueue.length →
      Step maxQueueSize s (.caller c) (s.block c task)
  /-- `threadInitCallback_` returns -/
  | begin {s w} : s.worker w = .starting → Step maxQueueSize s (.worker w) (s.move w .test)
  | loop {s w} : s.worker w = .test → s.running = true →
      Step maxQueueSize s (.worker w) (s.move w .taking)
  | exit {s w} : s.worker w = .test → s.running = false →
      Step maxQueueSize s (.worker w) (s.move w .exited)
  /-- `notEmpty_.wait(lock)` -/
  | sleep {s w} : s.InTake w → s.taskQueue = [] → s.running = true →
      Step maxQueueSize s (.worker w) { s.move w .waiting with notEmpty := insert w s.notEmpty }
  | take {s w task rest notFull} : s.InTake w → s.taskQueue = task :: rest →
      Condition.NotifyOne s.notFull notFull →
        Step maxQueueSize s (.worker w) (s.take w task rest notFull)
  /-- `take` returns an empty task -/
  | takeEmpty {s w} : s.InTake w → s.taskQueue = [] → s.running = false →
      Step maxQueueSize s (.worker w) (s.move w .test)
  | call {s w k} : s.worker w = .holding k →
      Step maxQueueSize s (.worker w) { s.move w .calling with executed := s.executed ++ [k] }
  /-- `task()` returns -/
  | finish {s w} : s.worker w = .calling → s.caller (.inl w) = .outside →
      Step maxQueueSize s (.worker w) (s.move w .test)
  | wakeWorker {s w} : w ∈ s.notEmpty →
      Step maxQueueSize s .spurious { s with notEmpty := s.notEmpty.erase w }
  | wakeCaller {s c} : c ∈ s.notFull →
      Step maxQueueSize s .spurious { s with notFull := s.notFull.erase c }
  /-- `running_ = false` -/
  | stop {s} : s.stop = .notCalled → s.running = true →
      Step maxQueueSize s .stop { s with stop := .flagged, running := false }
  | notifyAll {s} : s.stop = .flagged →
      Step maxQueueSize s .stop { s with stop := .joining, notEmpty := ∅ }
  /-- the last `join` returns -/
  | join {s} : s.stop = .joining → (∀ w, s.worker w = .exited) →
      Step maxQueueSize s .stop { s with stop := .returned }

variable {maxQueueSize : ℕ} {s s' : State n π τ} {a : Action n π τ} {as : List (Action n π τ)}

/-! ### The tasks -/

/-- The tasks are in their places: `taskQueue_` is a queue within its bound, and a
task that has been taken is with one worker until it is called. -/
structure Sound (maxQueueSize : ℕ) (s : State n π τ) : Prop where
  bounded : s.taskQueue.length ≤ maxQueueSize
  ordered : s.pushed = s.taken ++ s.taskQueue
  held : ∀ w k, s.worker w = .holding k → k < s.taken.length ∧ k ∉ s.executed
  distinct : ∀ w w' k, s.worker w = .holding k → s.worker w' = .holding k → w = w'
  called : ∀ k ∈ s.executed, k < s.taken.length
  once : s.executed.Nodup
  accounted : ∀ k < s.taken.length, k ∈ s.executed ∨ ∃ w, s.worker w = .holding k

theorem sound_init : Sound maxQueueSize (init : State n π τ) where
  bounded := Nat.zero_le _
  ordered := rfl
  held := nofun
  distinct := nofun
  called := nofun
  once := List.nodup_nil
  accounted := nofun

/-- A worker that holds no task moves on without one. -/
theorem Sound.move {w : Fin n} {p : Worker} (h : Sound maxQueueSize s)
    (hw : ∀ k, s.worker w ≠ .holding k) (hp : ∀ k, p ≠ .holding k) :
    Sound maxQueueSize (s.move w p) := by
  have hold : ∀ {v k}, update s.worker w p v = .holding k → s.worker v = .holding k := by
    intro v k hv
    by_cases hvw : v = w
    · rw [hvw, update_self] at hv
      exact absurd hv (hp k)
    · rwa [update_of_ne hvw] at hv
  refine ⟨h.bounded, h.ordered, fun v k hv => h.held v k (hold hv),
    fun v v' k hv hv' => h.distinct v v' k (hold hv) (hold hv'), h.called, h.once, fun k hk => ?_⟩
  refine (h.accounted k hk).imp_right ?_
  rintro ⟨v, hv⟩
  have hvw : v ≠ w := by
    rintro rfl
    exact hw k hv
  exact ⟨v, (update_of_ne hvw _ _).trans hv⟩

/-- A worker in `take` holds no task. -/
theorem State.InTake.not_holding {w : Fin n} (h : s.InTake w) (k : ℕ) :
    s.worker w ≠ .holding k := by
  rcases h with h | ⟨h, -⟩
  · rw [h]
    exact nofun
  · rw [h]
    exact nofun

/-- The task popped is with the worker. -/
theorem Sound.take {w : Fin n} {task : τ} {rest : List τ} {notFull : Finset (Fin n ⊕ π)}
    (h : Sound maxQueueSize s) (hw : s.InTake w) (hq : s.taskQueue = task :: rest) :
    Sound maxQueueSize (s.take w task rest notFull) := by
  have hlen : (s.taken ++ [task]).length = s.taken.length + 1 := by simp
  -- the workers that hold a task: this one, and those that held it before
  have hold : ∀ {v k}, update s.worker w (.holding s.taken.length) v = .holding k →
      v = w ∧ k = s.taken.length ∨ v ≠ w ∧ s.worker v = .holding k := by
    intro v k hv
    by_cases hvw : v = w
    · rw [hvw, update_self] at hv
      exact .inl ⟨hvw, (Worker.holding.inj hv).symm⟩
    · rw [update_of_ne hvw] at hv
      exact .inr ⟨hvw, hv⟩
  have hlt : ∀ {v k}, s.worker v = .holding k → k ≠ s.taken.length :=
    fun hv => Nat.ne_of_lt (h.held _ _ hv).1
  refine ⟨?_, ?_, fun v k hv => ?_, fun v v' k hv hv' => ?_, fun k hk => ?_, h.once, fun k hk => ?_⟩
  · have hb := h.bounded
    rw [hq, List.length_cons] at hb
    exact Nat.le_of_succ_le hb
  · rw [State.take, List.append_assoc]
    exact h.ordered.trans (congrArg (s.taken ++ ·) hq)
  · change k < (s.taken ++ [task]).length ∧ _
    rw [hlen]
    rcases hold hv with ⟨-, rfl⟩ | ⟨-, hv⟩
    · exact ⟨Nat.lt_succ_self _, fun hk => Nat.lt_irrefl _ (h.called _ hk)⟩
    · exact ⟨Nat.lt_succ_of_lt (h.held v k hv).1, (h.held v k hv).2⟩
  · rcases hold hv with ⟨rfl, rfl⟩ | ⟨-, hv⟩
    · rcases hold hv' with ⟨rfl, -⟩ | ⟨-, hv'⟩
      · rfl
      · exact absurd rfl (hlt hv')
    · rcases hold hv' with ⟨-, rfl⟩ | ⟨-, hv'⟩
      · exact absurd rfl (hlt hv)
      · exact h.distinct v v' k hv hv'
  · change k < (s.taken ++ [task]).length
    rw [hlen]
    exact Nat.lt_succ_of_lt (h.called k hk)
  · change k < (s.taken ++ [task]).length at hk
    rw [hlen, Nat.lt_succ_iff_lt_or_eq] at hk
    rcases hk with hk | rfl
    · refine (h.accounted k hk).imp_right ?_
      rintro ⟨v, hv⟩
      have hvw : v ≠ w := by
        rintro rfl
        exact hw.not_holding k hv
      exact ⟨v, (update_of_ne hvw _ _).trans hv⟩
    · exact .inr ⟨w, update_self ..⟩

/-- The task called is not with a worker any more. -/
theorem Sound.call {w : Fin n} {k : ℕ} (h : Sound maxQueueSize s) (hw : s.worker w = .holding k) :
    Sound maxQueueSize { s.move w .calling with executed := s.executed ++ [k] } := by
  have hold : ∀ {v j}, update s.worker w .calling v = .holding j →
      v ≠ w ∧ s.worker v = .holding j := by
    intro v j hv
    by_cases hvw : v = w
    · rw [hvw, update_self] at hv
      exact absurd hv nofun
    · rw [update_of_ne hvw] at hv
      exact ⟨hvw, hv⟩
  refine ⟨h.bounded, h.ordered, fun v j hv => ?_, fun v v' j hv hv' =>
    h.distinct v v' j (hold hv).2 (hold hv').2, fun j hj => ?_, ?_, fun j hj => ?_⟩
  · obtain ⟨hvw, hv⟩ := hold hv
    refine ⟨(h.held v j hv).1, fun hj => ?_⟩
    rcases List.mem_append.1 hj with hj | hj
    · exact (h.held v j hv).2 hj
    · rw [List.mem_singleton.1 hj] at hv
      exact hvw (h.distinct v w k hv hw)
  · rcases List.mem_append.1 hj with hj | hj
    · exact h.called j hj
    · rw [List.mem_singleton.1 hj]
      exact (h.held w k hw).1
  · refine List.nodup_append.2 ⟨h.once, List.nodup_singleton k, fun a ha b hb => ?_⟩
    rw [List.mem_singleton.1 hb]
    rintro rfl
    exact (h.held w a hw).2 ha
  · rcases h.accounted j hj with hj | ⟨v, hv⟩
    · exact .inl (List.mem_append_left _ hj)
    · by_cases hvw : v = w
      · rw [hvw, hw] at hv
        rw [Worker.holding.inj hv]
        exact .inl (List.mem_append_right _ (List.mem_singleton_self j))
      · exact .inr ⟨v, (update_of_ne hvw _ _).trans hv⟩

variable [DecidableEq π] in
/-- **Every step keeps the tasks in their places**: in the queue, with a worker or executed,
and the queue within its bound. -/
theorem Sound.step (h : Sound maxQueueSize s) (hst : Step maxQueueSize s a s') :
    Sound maxQueueSize s' := by
  have ⟨bounded, ordered, held, distinct, called, once, accounted⟩ := h
  have hne : ∀ {w p}, s.worker w = p → (∀ k, p ≠ .holding k) → ∀ k, s.worker w ≠ .holding k := by
    rintro w p rfl hp
    exact hp
  cases hst with
  | @push c task notEmpty _ _ hlt _ =>
    refine ⟨?_, ?_, held, distinct, called, once, accounted⟩
    · change (s.taskQueue ++ [task]).length ≤ maxQueueSize
      rw [List.length_append]
      exact hlt
    · change s.pushed ++ [task] = s.taken ++ (s.taskQueue ++ [task])
      rw [ordered, List.append_assoc]
  | begin hw => exact h.move (hne hw nofun) nofun
  | loop hw _ => exact h.move (hne hw nofun) nofun
  | exit hw _ => exact h.move (hne hw nofun) nofun
  | sleep hw _ _ =>
    have hmove := h.move (p := .waiting) hw.not_holding nofun
    exact ⟨bounded, ordered, hmove.held, hmove.distinct, called, once, hmove.accounted⟩
  | take hw hq _ => exact h.take hw hq
  | takeEmpty hw _ _ => exact h.move hw.not_holding nofun
  | call hw => exact h.call hw
  | finish hw _ => exact h.move (hne hw nofun) nofun
  | _ => exact ⟨bounded, ordered, held, distinct, called, once, accounted⟩

/-! ### The threads -/

variable [DecidableEq π]

/-- No task calls `runTask`. -/
def External (a : Action n π τ) : Prop := ∀ w task, a ≠ .enter (.inl w) task

/-- Only the workers outside of `wait`, and the callers outside of `wait`, can be
missing where there is work. -/
structure Wakeful (s : State n π τ) : Prop where
  asleepWorker : ∀ w ∈ s.notEmpty, s.worker w = .waiting
  asleepCaller : ∀ c ∈ s.notFull, ∃ task, s.caller c = .waiting task
  workers : s.taskQueue ≠ [] → ∃ w, w ∉ s.notEmpty
  callers : s.notFull.Nonempty →
    s.taskQueue ≠ [] ∨ ∃ c task, s.caller c = .waiting task ∧ c ∉ s.notFull
  running : s.running = true ↔ s.stop = .notCalled
  alive : s.running = true → ∀ w, s.worker w ≠ .exited
  notified : s.stop = .joining ∨ s.stop = .returned → s.notEmpty = ∅
  external : ∀ w, s.caller (.inl w) = .outside

omit [DecidableEq π] in
theorem wakeful_init : Wakeful (init : State n π τ) where
  asleepWorker := nofun
  asleepCaller := nofun
  workers := fun h => absurd rfl h
  callers := fun h => absurd h Finset.not_nonempty_empty
  running := ⟨fun _ => rfl, fun _ => rfl⟩
  alive := nofun
  notified := fun _ => rfl
  external := fun _ => rfl

omit [DecidableEq π] in
/-- A worker that is not asleep moves on. -/
theorem Wakeful.move {w : Fin n} {p : Worker} (h : Wakeful s) (hw : w ∉ s.notEmpty)
    (hp : s.running = true → p ≠ .exited) : Wakeful (s.move w p) := by
  refine ⟨fun v hv => ?_, h.asleepCaller, h.workers, h.callers, h.running, fun hr v => ?_,
    h.notified, h.external⟩
  · have hvw : v ≠ w := by
      rintro rfl
      exact hw hv
    exact (update_of_ne hvw _ _).trans (h.asleepWorker v hv)
  · change update s.worker w p v ≠ .exited
    by_cases hvw : v = w
    · rw [hvw, update_self]
      exact hp hr
    · rw [update_of_ne hvw]
      exact h.alive hr v

omit [DecidableEq π] in
theorem Wakeful.awake {w : Fin n} {p : Worker} (h : Wakeful s) (hw : s.worker w = p)
    (hp : p ≠ .waiting) : w ∉ s.notEmpty :=
  fun hmem => hp (hw.symm.trans (h.asleepWorker w hmem))

omit [DecidableEq π] in
theorem Wakeful.awake_of_inTake {w : Fin n} (h : Wakeful s) (hw : s.InTake w) :
    w ∉ s.notEmpty := by
  rcases hw with hw | ⟨-, hw⟩
  · exact h.awake hw nofun
  · exact hw

omit [DecidableEq π] in
theorem Wakeful.awake_of_inRunTask {c : Fin n ⊕ π} {task : τ} (h : Wakeful s)
    (hc : s.InRunTask c task) : c ∉ s.notFull := by
  rcases hc with hc | ⟨-, hc⟩
  · intro hmem
    obtain ⟨_, ht⟩ := h.asleepCaller c hmem
    rw [hc] at ht
    cases ht
  · exact hc

/-- The place of a thread that is not asleep does not matter to those that are. -/
theorem Wakeful.asleepCaller_update {c : Fin n ⊕ π} {p : Caller τ} (h : Wakeful s)
    (hc : c ∉ s.notFull) : ∀ d ∈ s.notFull, ∃ task, update s.caller c p d = .waiting task := by
  intro d hd
  have hdc : d ≠ c := by
    rintro rfl
    exact hc hd
  rw [update_of_ne hdc]
  exact h.asleepCaller d hd

theorem Wakeful.external_update {c : Fin n ⊕ π} {p : Caller τ} (h : Wakeful s)
    (hext : ∀ w, c = .inl w → p = .outside) (w : Fin n) :
    update s.caller c p (.inl w) = .outside := by
  by_cases hw : c = .inl w
  · rw [hw, update_self]
    exact hext w hw
  · rw [update_of_ne (Ne.symm hw)]
    exact h.external w

omit [DecidableEq π] in
/-- Workers are outside of `runTask`. -/
theorem Wakeful.not_inRunTask {w : Fin n} {task : τ} (h : Wakeful s) :
    ¬ s.InRunTask (.inl w) task := by
  rintro (hc | ⟨hc, -⟩)
  · rw [h.external w] at hc
    cases hc
  · rw [h.external w] at hc
    cases hc

/-- **Every step leaves a thread for the work**, if no task calls `runTask`: where there are
tasks, some worker does not sleep, and where a caller waits for room, some thread is going
to make it. -/
theorem Wakeful.step (h : Wakeful s) (hn : 0 < n) (hmax : 0 < maxQueueSize)
    (hst : Step maxQueueSize s a s') (hext : External a) : Wakeful s' := by
  have h' := h
  obtain ⟨asleepWorker, asleepCaller, workers, callers, running, alive, notified, external⟩ := h'
  have : Nonempty (Fin n) := ⟨⟨0, hn⟩⟩
  cases hst with
  | @enter c task hr hc =>
    have hmem : c ∉ s.notFull := fun hmem => by
      obtain ⟨_, ht⟩ := asleepCaller c hmem
      rw [hc.1] at ht
      cases ht
    have hout : ∀ w, c = .inl w → (.entered task : Caller τ) = .outside := fun w hw =>
      absurd (congrArg (Action.enter · task) hw) (hext w task)
    refine ⟨asleepWorker, h.asleepCaller_update hmem, workers, fun hne => ?_, running, alive,
      notified, h.external_update hout⟩
    refine (callers hne).imp_right ?_
    rintro ⟨d, task', hd, hmem'⟩
    have hdc : d ≠ c := by
      rintro rfl
      rw [hc.1] at hd
      cases hd
    exact ⟨d, task', (update_of_ne hdc _ _).trans hd, hmem'⟩
  | direct h0 _ => exact absurd hn (by omega)
  | @push c task notEmpty _ hc _ hnot =>
    refine ⟨fun w hw => asleepWorker w (hnot.subset hw),
      h.asleepCaller_update (h.awake_of_inRunTask hc), fun _ => hnot.exists_notMem,
      fun _ => .inl (List.append_ne_nil_of_right_ne_nil _ (List.cons_ne_nil _ _)), running, alive,
      fun hs => ?_, h.external_update fun _ _ => rfl⟩
    rw [← Finset.subset_empty, ← notified hs]
    exact hnot.subset
  | @block c task _ hc hle =>
    refine ⟨asleepWorker, fun d hd => ?_, workers, fun _ => .inl fun hnil => ?_, running, alive,
      notified, h.external_update fun w hw => absurd (hw ▸ hc) h.not_inRunTask⟩
    · by_cases hdc : d = c
      · rw [hdc]
        exact ⟨task, update_self ..⟩
      · have hd' := Finset.mem_of_mem_insert_of_ne hd hdc
        exact h.asleepCaller_update (h.awake_of_inRunTask hc) d hd'
    · change s.taskQueue = [] at hnil
      rw [hnil] at hle
      exact absurd hmax (Nat.not_lt.2 hle)
  | begin hw => exact h.move (h.awake hw nofun) fun _ => nofun
  | loop hw _ => exact h.move (h.awake hw nofun) fun _ => nofun
  | exit hw hr =>
    exact h.move (h.awake hw nofun) fun hr' => absurd (hr.symm.trans hr') nofun
  | @sleep w hw hq hr =>
    have hmove := h.move (p := .waiting) (h.awake_of_inTake hw) fun _ => nofun
    refine ⟨fun v hv => ?_, asleepCaller, fun hne => absurd hq hne, callers, running, hmove.alive,
      fun hs => ?_, external⟩
    · by_cases hvw : v = w
      · rw [hvw]
        exact update_self ..
      · exact hmove.asleepWorker v (Finset.mem_of_mem_insert_of_ne hv hvw)
    · have hstop := running.1 hr
      rcases hs with hs | hs <;> exact absurd (hstop.symm.trans hs) nofun
  | @take w task rest notFull hw hq hnot =>
    have hmove := h.move (p := .holding s.taken.length) (h.awake_of_inTake hw) fun _ => nofun
    refine ⟨hmove.asleepWorker, fun c hc => asleepCaller c (hnot.subset hc), fun _ => ?_,
      fun hne => .inr ?_, running, hmove.alive, notified, external⟩
    · exact workers (by rw [hq]; exact List.cons_ne_nil _ _)
    · obtain ⟨c, hc, hmem⟩ := hnot.exists_woken (hne.mono hnot.subset)
      obtain ⟨task', hw'⟩ := asleepCaller c hc
      exact ⟨c, task', hw', hmem⟩
  | takeEmpty hw _ _ => exact h.move (h.awake_of_inTake hw) fun _ => nofun
  | @call w k hw =>
    have hmove := h.move (p := .calling) (h.awake hw nofun) fun _ => nofun
    exact ⟨hmove.asleepWorker, asleepCaller, workers, callers, running, hmove.alive, notified,
      external⟩
  | finish hw _ => exact h.move (h.awake hw nofun) fun _ => nofun
  | @wakeWorker w hw =>
    refine ⟨fun v hv => asleepWorker v (Finset.mem_of_mem_erase hv), asleepCaller, fun _ =>
      ⟨w, Finset.notMem_erase w _⟩, callers, running, alive, fun hs => ?_, external⟩
    exact absurd hw (by rw [notified hs]; exact Finset.notMem_empty w)
  | @wakeCaller c hc =>
    obtain ⟨task, ht⟩ := asleepCaller c hc
    exact ⟨asleepWorker, fun d hd => asleepCaller d (Finset.mem_of_mem_erase hd), workers,
      fun _ => .inr ⟨c, task, ht, Finset.notMem_erase c _⟩, running, alive, notified, external⟩
  | stop hs hr =>
    exact ⟨asleepWorker, asleepCaller, workers, callers, ⟨nofun, nofun⟩, nofun,
      fun hs' => hs'.elim nofun nofun, external⟩
  | notifyAll hs =>
    refine ⟨nofun, asleepCaller, fun _ => ⟨⟨0, hn⟩, Finset.notMem_empty _⟩, callers, ?_, alive,
      fun _ => rfl, external⟩
    exact ⟨fun hr => absurd (hs.symm.trans (running.1 hr)) nofun, nofun⟩
  | join hs _ =>
    refine ⟨asleepWorker, asleepCaller, workers, callers, ?_, alive, fun _ => notified (.inl hs),
      external⟩
    exact ⟨fun hr => absurd (hs.symm.trans (running.1 hr)) nofun, nofun⟩

/-! ### The pool -/

/-- No worker and no thread in `runTask` can take a step, unless somebody wakes up
for no reason. -/
def Stuck (maxQueueSize : ℕ) (s : State n π τ) : Prop :=
  (∀ w s', ¬ Step maxQueueSize s (.worker w) s') ∧ ∀ c s', ¬ Step maxQueueSize s (.caller c) s'

/-- **The pool does not sleep on work.** -/
structure NeverSleeps (maxQueueSize : ℕ) (s : State n π τ) : Prop where
  bounded : s.taskQueue.length ≤ maxQueueSize
  /-- the tasks leave the queue in the order in which they entered it -/
  ordered : s.pushed = s.taken ++ s.taskQueue
  taken : ∀ k ∈ s.executed, k < s.taken.length
  once : s.executed.Nodup
  progress : s.running = true →
    (s.taskQueue ≠ [] ∨ ∃ c task, s.caller c = .waiting task) → ¬ Stuck maxQueueSize s
  notified : s.stop = .joining ∨ s.stop = .returned → s.notEmpty = ∅

/-- A worker that is not asleep can take a step. -/
theorem Wakeful.exists_step {w : Fin n} (h : Wakeful s) (hr : s.running = true)
    (hw : w ∉ s.notEmpty) : ∃ s', Step maxQueueSize s (.worker w) s' := by
  have htake : s.InTake w → ∃ s', Step maxQueueSize s (.worker w) s' := by
    intro hin
    rcases hq : s.taskQueue with _ | ⟨task, rest⟩
    · exact ⟨_, .sleep hin hq hr⟩
    · obtain ⟨notFull, hnot⟩ := Condition.exists_notifyOne s.notFull
      exact ⟨_, .take hin hq hnot⟩
  rcases hp : s.worker w with _ | _ | _ | _ | k | _ | _
  · exact ⟨_, .begin hp⟩
  · exact ⟨_, .loop hp hr⟩
  · exact htake (.inl hp)
  · exact htake (.inr ⟨hp, hw⟩)
  · exact ⟨_, .call hp⟩
  · exact ⟨_, .finish hp (h.external w)⟩
  · exact absurd hp (h.alive hr w)

/-- So can a thread in `runTask`. -/
theorem exists_step_of_inRunTask {c : Fin n ⊕ π} {task : τ} (hn : 0 < n)
    (hc : s.InRunTask c task) : ∃ s', Step maxQueueSize s (.caller c) s' := by
  rcases Nat.lt_or_ge s.taskQueue.length maxQueueSize with hlt | hle
  · obtain ⟨notEmpty, hnot⟩ := Condition.exists_notifyOne s.notEmpty
    exact ⟨_, .push hn hc hlt hnot⟩
  · exact ⟨_, .block hn hc hle⟩

/-- **Where there is work, somebody can go on**: a worker that is awake, or a caller that
has been woken up. -/
theorem Wakeful.not_stuck (h : Wakeful s) (hn : 0 < n) (hr : s.running = true)
    (hwork : s.taskQueue ≠ [] ∨ ∃ c task, s.caller c = .waiting task) :
    ¬ Stuck maxQueueSize s := by
  rintro ⟨hworker, hcaller⟩
  have hqueue : s.taskQueue = [] := by
    by_contra hne
    obtain ⟨w, hw⟩ := h.workers hne
    obtain ⟨s', hst⟩ := h.exists_step hr hw
    exact hworker w s' hst
  have hwoken : ∀ c task, s.caller c = .waiting task → c ∈ s.notFull := by
    intro c task hc
    by_contra hmem
    obtain ⟨s', hst⟩ := exists_step_of_inRunTask hn (.inr ⟨hc, hmem⟩)
    exact hcaller c s' hst
  obtain ⟨c, task, hc⟩ := hwork.resolve_left (not_not_intro hqueue)
  rcases h.callers ⟨c, hwoken c task hc⟩ with hne | ⟨d, task', hd, hmem⟩
  · exact hne hqueue
  · exact hmem (hwoken d task' hd)

/-- **A pool with a worker never sleeps on work.** In every run of any number of workers and
callers in which no task calls `runTask` itself: the queue is bounded and keeps its order,
no task is executed twice, and as long as the pool runs, somebody can take a step where a
task is queued or a caller waits for room. -/
theorem neverSleeps_of_run (hn : 0 < n) (hmax : 0 < maxQueueSize)
    (hrun : Run (fun s a s' => Step maxQueueSize s a s' ∧ External a) init as s) :
    NeverSleeps maxQueueSize s := by
  have hinv : Sound maxQueueSize s ∧ Wakeful s :=
    hrun.preserves (P := fun s => Sound maxQueueSize s ∧ Wakeful s) ⟨sound_init, wakeful_init⟩
      fun _ _ _ h hst => ⟨h.1.step hst.1, h.2.step hn hmax hst.1 hst.2⟩
  obtain ⟨hs, hw⟩ := hinv
  exact ⟨hs.bounded, hs.ordered, hs.called, hs.once, fun hr => hw.not_stuck hn hr, hw.notified⟩

/-- The hypotheses of `neverSleeps_of_run` are satisfiable: a thread waits for the
only worker, which waits for the lock. -/
theorem neverSleeps_of_run_fullQueue : ∃ (as : List (Action 1 Bool Unit)) (s : State 1 Bool Unit),
    Run (fun s a s' => Step 1 s a s' ∧ External a) init as s ∧ s.taskQueue = [()] ∧
      s.caller (.inr true) = .waiting () ∧ NeverSleeps 1 s := by
  have hworker : ∀ w, External (.worker w : Action 1 Bool Unit) := fun _ _ _ => nofun
  have hcaller : ∀ c, External (.caller c : Action 1 Bool Unit) := fun _ _ _ => nofun
  have henter : ∀ b, External (.enter (.inr b) () : Action 1 Bool Unit) := fun _ _ _ => nofun
  have hinit : Run (fun s a s' => Step 1 s a s' ∧ External a) (init : State 1 Bool Unit) [] init :=
    .nil
  have hloop := (hinit.snoc ⟨.begin (w := 0) rfl, hworker 0⟩).snoc
    ⟨.loop (w := 0) rfl rfl, hworker 0⟩
  have hsleep := hloop.snoc ⟨.sleep (w := 0) (.inl rfl) rfl rfl, hworker 0⟩
  have hfirst := hsleep.snoc ⟨.enter (c := .inr false) () rfl ⟨rfl, nofun⟩, henter false⟩
  have hpush := hfirst.snoc ⟨.push (c := .inr false) Nat.one_pos (.inl rfl) Nat.one_pos
    (.inr ⟨0, by decide, rfl⟩), hcaller _⟩
  have hsecond := hpush.snoc ⟨.enter (c := .inr true) () rfl ⟨rfl, nofun⟩, henter true⟩
  have hblock := hsecond.snoc ⟨.block (c := .inr true) Nat.one_pos (.inl rfl) (Nat.le_refl _),
    hcaller _⟩
  exact ⟨_, _, hblock, rfl, rfl, neverSleeps_of_run Nat.one_pos Nat.one_pos hblock⟩

end ThreadPool
end BearRpc
