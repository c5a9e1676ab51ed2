/-
# The end of the thread pool

`ThreadPool::stop` (`src/RPC/bearTCP/ThreadPool.cc`, lines 65 to 75) wakes the
workers and joins them.  It wakes nobody that waits on `notFull_`, and a worker that
finds `running_` false leaves the queue as it is: a thread can wait in `runTask` for
ever, and a task can stay behind (`not_clean_fullQueue`).

The workers between their test of `running_` and the end of `take` take one task
more each.  If, when `stop` sets `running_`, nobody is in `runTask` and the queue
holds no more tasks than there are such workers, the pool ends clean
(`clean_of_run`); otherwise there is a run in which it does not
(`exists_run_not_clean`).
-/

import BearRpc.Tcp.ThreadPool
import Mathlib.Data.Finset.Card

namespace BearRpc

open Theory Function

namespace ThreadPool

/-- The worker is going to take a task. -/
def Worker.Takes (p : Worker) : Prop := p = .taking ∨ p = .waiting

instance : DecidablePred Worker.Takes := fun p =>
  inferInstanceAs (Decidable (p = .taking ∨ p = .waiting))

variable {n : ℕ} {π τ : Type}

/-- The workers that have passed their test of `running_`, and are in `take`. -/
def State.takers (s : State n π τ) : Finset (Fin n) :=
  Finset.univ.filter fun w => (s.worker w).Takes

/-- **The pool has ended clean**: every task pushed has been called once, and
nobody waits for room in the queue. -/
structure Clean (s : State n π τ) : Prop where
  executed : ∀ k < s.pushed.length, s.executed.count k = 1
  callers : ∀ c task, s.caller c ≠ .waiting task

/-- The workers are going to take all that is to be taken. -/
structure Drains (s : State n π τ) : Prop where
  callers : ∀ c, s.caller c = .outside
  queue : s.taskQueue.length ≤ s.takers.card

/-- If the step is that of `stop` which sets `running_`, the pool drains. -/
def InTime (s : State n π τ) (a : Action n π τ) : Prop :=
  a = .stop → s.stop = .notCalled → Drains s

/-- What a call of `stop` in time leaves. -/
structure Ends (s : State n π τ) : Prop where
  running : s.stop ≠ .notCalled → s.running = false
  drains : s.stop ≠ .notCalled → Drains s
  joined : s.stop = .returned → ∀ w, s.worker w = .exited

variable {maxQueueSize : ℕ} {s s' : State n π τ} {a : Action n π τ} {as : List (Action n π τ)}
  {w : Fin n} {p : Worker}

theorem not_takes_holding (k : ℕ) : ¬ (Worker.holding k).Takes := by
  rintro (h | h) <;> cases h

theorem mem_takers : w ∈ s.takers ↔ (s.worker w).Takes := by
  simp [State.takers]

theorem State.InTake.mem_takers (h : s.InTake w) : w ∈ s.takers := by
  refine ThreadPool.mem_takers.2 ?_
  rcases h with h | ⟨h, -⟩
  · exact .inl h
  · exact .inr h

/-- A worker that goes on to something else is not among them. -/
theorem takers_move (hp : ¬ p.Takes) : (s.move w p).takers = s.takers.erase w := by
  ext v
  rw [Finset.mem_erase, mem_takers, mem_takers]
  change (update s.worker w p v).Takes ↔ _
  by_cases hv : v = w
  · rw [hv, update_self]
    exact ⟨fun h => absurd h hp, fun h => absurd rfl h.1⟩
  · rw [update_of_ne hv]
    exact ⟨fun h => ⟨hv, h⟩, And.right⟩

theorem takers_move_of_not (hw : ¬ (s.worker w).Takes) (hp : ¬ p.Takes) :
    (s.move w p).takers = s.takers := by
  rw [takers_move hp, Finset.erase_eq_of_notMem (mt mem_takers.1 hw)]

/-- A worker that takes a task is one less. -/
theorem card_takers_take (hw : s.InTake w) (hp : ¬ p.Takes) :
    (s.move w p).takers.card + 1 = s.takers.card := by
  rw [takers_move hp]
  exact Finset.card_erase_add_one hw.mem_takers

/-- Before `stop` is called there is nothing to keep. -/
theorem ends_of_notCalled (hs : s.stop = .notCalled) : Ends s :=
  ⟨fun h => absurd hs h, fun h => absurd hs h, fun h => absurd (hs.symm.trans h) nofun⟩

/-- A worker that has not exited goes on. -/
theorem Ends.move (h : Ends s) (hw : s.worker w ≠ .exited)
    (hd : s.stop ≠ .notCalled → s.taskQueue.length ≤ (s.move w p).takers.card) :
    Ends (s.move w p) :=
  ⟨h.running, fun hs => ⟨(h.drains hs).callers, hd hs⟩, fun hs => absurd (h.joined hs w) hw⟩

variable [DecidableEq π]

/-- **Every step keeps the workers for the tasks**, and nobody enters `runTask`: of the
tasks that are left, each has a worker that is going to take it before it exits. -/
theorem Ends.step (h : Ends s) (hst : Step maxQueueSize s a s') (ht : InTime s a) : Ends s' := by
  have hquiet : s.running = true → s.stop = .notCalled := fun hr => by
    by_contra hs
    exact absurd (hr.symm.trans (h.running hs)) nofun
  have hcalled : ∀ {c task}, s.InRunTask c task → s.stop = .notCalled := by
    intro c task hc
    by_contra hs
    have hout := (h.drains hs).callers c
    rcases hc with hc | ⟨hc, -⟩ <;> exact absurd (hout.symm.trans hc) nofun
  -- a worker outside of `take` that goes on to a place outside of `take`
  have hmove : ∀ {w p q}, s.worker w = p → ¬ p.Takes → p ≠ .exited → ¬ q.Takes →
      Ends (s.move w q) := by
    rintro w p q rfl hp hne hq
    refine h.move hne fun hs => ?_
    rw [takers_move_of_not hp hq]
    exact (h.drains hs).queue
  have hne : ∀ {w}, s.InTake w → s.worker w ≠ .exited := by
    rintro w (hw | ⟨hw, -⟩) <;> rw [hw] <;> exact nofun
  cases hst with
  | enter _ hr => exact ends_of_notCalled (hquiet hr)
  | direct _ hc => exact ends_of_notCalled (hcalled (.inl hc))
  | push _ hc _ _ => exact ends_of_notCalled (hcalled hc)
  | block _ hc _ => exact ends_of_notCalled (hcalled hc)
  | begin hw => exact hmove hw (by decide) nofun (by decide)
  | loop _ hr => exact ends_of_notCalled (hquiet hr)
  | exit hw _ => exact hmove hw (by decide) nofun (by decide)
  | sleep _ _ hr => exact ends_of_notCalled (hquiet hr)
  | @take w task rest notFull hw hq _ =>
    have hcard := card_takers_take (p := .holding s.taken.length) hw (not_takes_holding _)
    refine ⟨h.running, fun hs => ⟨(h.drains hs).callers, ?_⟩, fun hs =>
      absurd (h.joined hs w) (hne hw)⟩
    have hle := (h.drains hs).queue
    rw [hq, List.length_cons, ← hcard] at hle
    exact Nat.le_of_succ_le_succ hle
  | takeEmpty hw hq _ =>
    refine h.move (hne hw) fun _ => ?_
    rw [hq]
    exact Nat.zero_le _
  | @call w k hw =>
    have hex := hmove (q := .calling) hw (not_takes_holding _) nofun (by decide)
    exact ⟨hex.running, fun hs => ⟨(hex.drains hs).callers, (hex.drains hs).queue⟩, hex.joined⟩
  | finish hw _ => exact hmove hw (by decide) nofun (by decide)
  | wakeWorker _ | wakeCaller _ =>
    exact ⟨h.running, fun hs => ⟨(h.drains hs).callers, (h.drains hs).queue⟩, h.joined⟩
  | stop hs _ =>
    have hd := ht rfl hs
    exact ⟨fun _ => rfl, fun _ => ⟨hd.callers, hd.queue⟩, nofun⟩
  | notifyAll hs =>
    have hs' : s.stop ≠ .notCalled := by rw [hs]; exact nofun
    have hd := h.drains hs'
    exact ⟨fun _ => h.running hs', fun _ => ⟨hd.callers, hd.queue⟩, nofun⟩
  | join hs hex =>
    have hs' : s.stop ≠ .notCalled := by rw [hs]; exact nofun
    have hd := h.drains hs'
    exact ⟨fun _ => h.running hs', fun _ => ⟨hd.callers, hd.queue⟩, fun _ => hex⟩

/-- **The pool ends clean**, in every run in which `stop` is called in time, that is with
nobody inside `runTask` and no more tasks queued than there are workers that are going to
take one: when `stop` has returned, every task pushed has been called once. -/
theorem clean_of_run (hrun : Run (fun s a s' => Step maxQueueSize s a s' ∧ InTime s a) init as s)
    (hret : s.stop = .returned) : Clean s := by
  have hinit : Sound maxQueueSize (init : State n π τ) ∧ Ends (init : State n π τ) :=
    ⟨sound_init, fun h => absurd rfl h, fun h => absurd rfl h, nofun⟩
  have hinv : Sound maxQueueSize s ∧ Ends s :=
    hrun.preserves (P := fun s => Sound maxQueueSize s ∧ Ends s) hinit fun _ _ _ h hst =>
      ⟨h.1.step hst.1, h.2.step hst.1 hst.2⟩
  obtain ⟨hs, he⟩ := hinv
  have hexited := he.joined hret
  have hd := he.drains (by rw [hret]; exact nofun)
  have htakers : s.takers = ∅ := by
    refine Finset.eq_empty_of_forall_notMem fun w hw => ?_
    rw [mem_takers, hexited w] at hw
    revert hw
    decide
  have hqueue : s.taskQueue = [] := by
    have hle := hd.queue
    rw [htakers, Finset.card_empty] at hle
    exact List.eq_nil_of_length_eq_zero (Nat.le_zero.1 hle)
  refine ⟨fun k hk => List.count_eq_one_of_mem hs.once ?_, fun c task hc => ?_⟩
  · rw [hs.ordered, hqueue, List.append_nil] at hk
    refine (hs.accounted k hk).resolve_right ?_
    rintro ⟨w, hw⟩
    exact absurd ((hexited w).symm.trans hw) nofun
  · exact absurd ((hd.callers c).symm.trans hc) nofun

/-- The hypotheses of `clean_of_run` are satisfiable: the only worker has passed its
test, and a task is in the queue. -/
theorem clean_of_run_oneTask : ∃ (as : List (Action 1 Unit Unit)) (s : State 1 Unit Unit),
    Run (fun s a s' => Step 1 s a s' ∧ InTime s a) init as s ∧ s.stop = .returned ∧
      s.pushed = [()] ∧ Clean s := by
  have hinit : Run (fun s a s' => Step 1 s a s' ∧ InTime s a) (init : State 1 Unit Unit) [] init :=
    .nil
  have hloop := (hinit.snoc ⟨.begin (w := 0) rfl, nofun⟩).snoc ⟨.loop (w := 0) rfl rfl, nofun⟩
  have hpush := (hloop.snoc ⟨.enter (c := .inr ()) () rfl ⟨rfl, nofun⟩, nofun⟩).snoc
    ⟨.push (c := .inr ()) Nat.one_pos (.inl rfl) Nat.one_pos (.inl ⟨rfl, rfl⟩), nofun⟩
  have hstop := hpush.snoc ⟨.stop rfl rfl, fun _ _ => ⟨by rintro (w | u) <;> rfl, by decide⟩⟩
  have htake := hstop.snoc ⟨.take (w := 0) (.inl rfl) rfl (.inl ⟨rfl, rfl⟩), nofun⟩
  have hcall := (htake.snoc ⟨.call (w := 0) rfl, nofun⟩).snoc ⟨.finish (w := 0) rfl rfl, nofun⟩
  have hexit := hcall.snoc ⟨.exit (w := 0) rfl rfl, nofun⟩
  have hnotify := hexit.snoc ⟨.notifyAll rfl, fun _ => nofun⟩
  have hjoin := hnotify.snoc ⟨.join rfl (by decide), fun _ => nofun⟩
  exact ⟨_, _, hjoin, rfl, rfl, clean_of_run hjoin rfl⟩

/-- **A full queue at `stop`**: the task in it stays behind, and the thread that
waits for room waits for ever. -/
theorem not_clean_fullQueue :
    ¬ ∀ (as : List (Action 1 Bool Unit)) (s : State 1 Bool Unit), Run (Step 1) init as s →
      s.stop = .returned → Clean s := by
  intro h
  have hinit : Run (Step 1) (init : State 1 Bool Unit) [] init := .nil
  have hpush := (hinit.snoc (.enter (c := .inr false) () rfl ⟨rfl, nofun⟩)).snoc
    (.push (c := .inr false) Nat.one_pos (.inl rfl) Nat.one_pos (.inl ⟨rfl, rfl⟩))
  have hblock := (hpush.snoc (.enter (c := .inr true) () rfl ⟨rfl, nofun⟩)).snoc
    (.block (c := .inr true) Nat.one_pos (.inl rfl) (Nat.le_refl _))
  have hstop := ((hblock.snoc (.begin (w := 0) rfl)).snoc (.stop rfl rfl)).snoc
    (.exit (w := 0) rfl rfl)
  have hjoin := (hstop.snoc (.notifyAll rfl)).snoc (.join rfl (by decide))
  exact (h _ _ hjoin rfl).callers (.inr true) () rfl

/-! ### A call of `stop` that is not in time -/

/-- More tasks than workers that take one. -/
structure Overfull (s : State n π τ) : Prop where
  running : s.running = false
  queue : s.takers.card < s.taskQueue.length

/-- There are never enough workers again. -/
theorem Overfull.step (h : Overfull s) (hst : Step maxQueueSize s a s') : Overfull s' := by
  obtain ⟨running, queue⟩ := h
  have hmove : ∀ {w p q}, s.worker w = p → ¬ p.Takes → ¬ q.Takes → Overfull (s.move w q) := by
    rintro w p q rfl hp hq
    refine ⟨running, ?_⟩
    rw [takers_move_of_not hp hq]
    exact queue
  cases hst with
  | enter _ hr => exact absurd (running.symm.trans hr) nofun
  | @push c task notEmpty _ _ _ _ =>
    refine ⟨running, ?_⟩
    change s.takers.card < (s.taskQueue ++ [task]).length
    rw [List.length_append]
    exact Nat.lt_succ_of_lt queue
  | begin hw => exact hmove hw (by decide) (by decide)
  | exit hw _ => exact hmove hw (by decide) (by decide)
  | loop _ hr => exact absurd (running.symm.trans hr) nofun
  | sleep _ _ hr => exact absurd (running.symm.trans hr) nofun
  | @take w task rest notFull hw hq _ =>
    have hcard := card_takers_take (p := .holding s.taken.length) hw (not_takes_holding _)
    refine ⟨running, ?_⟩
    rw [hq, List.length_cons, ← hcard] at queue
    exact Nat.lt_of_succ_lt_succ queue
  | takeEmpty _ hq _ =>
    rw [hq] at queue
    exact absurd queue (Nat.not_lt_zero _)
  | @call w k hw =>
    have hex := hmove (q := .calling) hw (not_takes_holding _) (by decide)
    exact ⟨running, hex.queue⟩
  | finish hw _ => exact hmove hw (by decide) (by decide)
  | stop _ _ => exact ⟨rfl, queue⟩
  | direct | block | wakeWorker | wakeCaller | notifyAll | join => exact ⟨running, queue⟩

omit [DecidableEq π] in
/-- A task in the queue has not been called. -/
theorem not_clean_of_queue (hs : Sound maxQueueSize s) (hq : s.taskQueue ≠ []) : ¬ Clean s := by
  intro hclean
  have hlen : s.taken.length < s.pushed.length := by
    have hpos := List.length_pos_iff.2 hq
    rw [hs.ordered, List.length_append]
    omega
  have hcount := hclean.executed _ hlen
  have hmem : s.taken.length ∈ s.executed := List.count_pos_iff.1 (by omega)
  exact Nat.lt_irrefl _ (hs.called _ hmem)

/-- **Too many tasks**: no run of a pool that is stopped so ends clean, since a worker that
has looked at `running_` takes one task at most before its exit. -/
theorem not_clean_of_overfull (hs : Sound maxQueueSize s) (h : Overfull s)
    (hrun : Run (Step maxQueueSize) s as s') : ¬ Clean s' := by
  have hinv : Sound maxQueueSize s' ∧ Overfull s' :=
    hrun.preserves (P := fun s => Sound maxQueueSize s ∧ Overfull s) ⟨hs, h⟩
      fun _ _ _ h hst => ⟨h.1.step hst, h.2.step hst⟩
  refine not_clean_of_queue hinv.1 fun hnil => ?_
  have hlt := hinv.2.queue
  rw [hnil] at hlt
  exact Nat.not_lt_zero _ hlt

/-- What stays when the workers go on to their exits. -/
structure Kept (s s' : State n π τ) : Prop where
  caller : s'.caller = s.caller
  stop : s'.stop = s.stop
  running : s'.running = s.running
  notEmpty : s'.notEmpty = s.notEmpty
  exited : ∀ w, s.worker w = .exited → s'.worker w = .exited

omit [DecidableEq π] in
theorem Kept.trans {s₁ s₂ s₃ : State n π τ} (h : Kept s₁ s₂) (h' : Kept s₂ s₃) : Kept s₁ s₃ :=
  ⟨h'.caller.trans h.caller, h'.stop.trans h.stop, h'.running.trans h.running,
    h'.notEmpty.trans h.notEmpty, fun w hw => h'.exited w (h.exited w hw)⟩

omit [DecidableEq π] in
/-- A worker that has not exited goes on. -/
theorem kept_move (hw : s.worker w ≠ .exited) : Kept s (s.move w p) :=
  ⟨rfl, rfl, rfl, rfl, fun v hv =>
    (update_of_ne (fun hvw : v = w => hw (hvw ▸ hv)) _ _).trans hv⟩

/-- A run of the workers to `s'`. -/
def Reaches (maxQueueSize : ℕ) (s s' : State n π τ) : Prop :=
  ∃ as, Run (Step maxQueueSize) s as s' ∧ Kept s s'

theorem Reaches.trans {s₁ s₂ s₃ : State n π τ} (h : Reaches maxQueueSize s₁ s₂)
    (h' : Reaches maxQueueSize s₂ s₃) : Reaches maxQueueSize s₁ s₃ := by
  obtain ⟨as, hrun, hk⟩ := h
  obtain ⟨as', hrun', hk'⟩ := h'
  exact ⟨as ++ as', hrun.trans hrun', hk.trans hk'⟩

/-- **Every worker comes to its exit**, once `running_` is false: it does not go to sleep
any more, and the task it may have taken comes to its end. -/
theorem exists_reaches_exited (hr : s.running = false) (hn : s.notEmpty = ∅)
    (hc : s.caller (.inl w) = .outside) :
    ∃ s', Reaches maxQueueSize s s' ∧ s'.worker w = .exited := by
  have hself : ∀ {t : State n π τ} {p}, (t.move w p).worker w = p := update_self ..
  have htest : ∀ {t : State n π τ}, t.running = false → t.worker w = .test →
      ∃ s', Reaches maxQueueSize t s' ∧ s'.worker w = .exited := fun hr hw =>
    ⟨_, ⟨_, Run.single (.exit hw hr), kept_move (by rw [hw]; exact nofun)⟩, hself⟩
  have hcalling : ∀ {t : State n π τ}, t.running = false → t.caller (.inl w) = .outside →
      t.worker w = .calling → ∃ s', Reaches maxQueueSize t s' ∧ s'.worker w = .exited := by
    intro t hr hc hw
    obtain ⟨s', hreach, hex⟩ := htest (t := t.move w .test) hr hself
    have hne : t.worker w ≠ .exited := by rw [hw]; exact nofun
    exact ⟨s', .trans ⟨_, Run.single (.finish hw hc), kept_move hne⟩ hreach, hex⟩
  have hholding : ∀ {t : State n π τ} {k}, t.running = false → t.caller (.inl w) = .outside →
      t.worker w = .holding k → ∃ s', Reaches maxQueueSize t s' ∧ s'.worker w = .exited := by
    intro t k hr hc hw
    have hstep : Step maxQueueSize t (.worker w) _ := .call hw
    have hne : t.worker w ≠ .exited := by rw [hw]; exact nofun
    have hk := kept_move (p := .calling) hne
    obtain ⟨s', hreach, hex⟩ :=
      hcalling (t := { t.move w .calling with executed := t.executed ++ [k] }) hr hc hself
    exact ⟨s', .trans ⟨_, Run.single hstep, hk.caller, hk.stop, hk.running, hk.notEmpty, hk.exited⟩
      hreach, hex⟩
  have htake : s.InTake w → ∃ s', Reaches maxQueueSize s s' ∧ s'.worker w = .exited := by
    intro hw
    have hne : s.worker w ≠ .exited := by
      rcases hw with hw | ⟨hw, -⟩ <;> rw [hw] <;> exact nofun
    rcases hq : s.taskQueue with _ | ⟨task, rest⟩
    · obtain ⟨s', hreach, hex⟩ := htest (t := s.move w .test) hr hself
      exact ⟨s', .trans ⟨_, Run.single (.takeEmpty hw hq hr), kept_move hne⟩ hreach, hex⟩
    · obtain ⟨notFull, hnot⟩ := Condition.exists_notifyOne s.notFull
      have hk := kept_move (p := .holding s.taken.length) hne
      obtain ⟨s', hreach, hex⟩ := hholding (t := s.take w task rest notFull) hr hc hself
      exact ⟨s', .trans ⟨_, Run.single (.take hw hq hnot), hk.caller, hk.stop, hk.running,
        hk.notEmpty, hk.exited⟩ hreach, hex⟩
  rcases hp : s.worker w with _ | _ | _ | _ | k | _ | _
  · obtain ⟨s', hreach, hex⟩ := htest (t := s.move w .test) hr hself
    exact ⟨s', .trans ⟨_, Run.single (.begin hp), kept_move (by rw [hp]; exact nofun)⟩ hreach, hex⟩
  · exact htest hr hp
  · exact htake (.inl hp)
  · exact htake (.inr ⟨hp, by rw [hn]; exact Finset.notMem_empty w⟩)
  · exact hholding hr hc hp
  · exact hcalling hr hc hp
  · exact ⟨s, ⟨[], .nil, rfl, rfl, rfl, rfl, fun _ h => h⟩, hp⟩

/-- **`stop` can return**: the workers come to their exits, and the callers stay where they
are, so that one that waits for room waits for ever. -/
theorem exists_run_returned (hs : s.stop = .flagged) (hr : s.running = false)
    (hext : ∀ w, s.caller (.inl w) = .outside) :
    ∃ as s', Run (Step maxQueueSize) s as s' ∧ s'.stop = .returned ∧ s'.caller = s.caller := by
  have hall : ∀ (ws : Finset (Fin n)) (t : State n π τ), t.running = false → t.notEmpty = ∅ →
      (∀ w, t.caller (.inl w) = .outside) →
        ∃ t', Reaches maxQueueSize t t' ∧ ∀ w ∈ ws, t'.worker w = .exited := by
    intro ws t hr hn hext
    induction ws using Finset.induction_on with
    | empty => exact ⟨t, ⟨[], .nil, rfl, rfl, rfl, rfl, fun _ h => h⟩, nofun⟩
    | @insert w ws _ ih =>
      obtain ⟨t₁, ⟨as₁, hrun₁, hk₁⟩, hex₁⟩ := ih
      obtain ⟨t₂, ⟨as₂, hrun₂, hk₂⟩, hex₂⟩ := exists_reaches_exited (w := w)
        (hk₁.running.trans hr) (hk₁.notEmpty.trans hn) (by rw [hk₁.caller]; exact hext w)
      refine ⟨t₂, .trans ⟨as₁, hrun₁, hk₁⟩ ⟨as₂, hrun₂, hk₂⟩, fun v hv => ?_⟩
      rcases Finset.mem_insert.1 hv with rfl | hv
      · exact hex₂
      · exact hk₂.exited v (hex₁ v hv)
  obtain ⟨t, ⟨as, hrun, hk⟩, hex⟩ :=
    hall Finset.univ { s with stop := .joining, notEmpty := ∅ } hr rfl hext
  have hjoin := hrun.snoc (.join hk.stop fun w => hex w (Finset.mem_univ w))
  exact ⟨_, _, (Run.single (.notifyAll hs)).trans hjoin, rfl, hk.caller⟩

/-- **A call of `stop` that is not in time** has a run that does not end clean, if
no task calls `runTask`. -/
theorem exists_run_not_clean (hn : 0 < n) (hmax : 0 < maxQueueSize)
    (hrun : Run (fun s a s' => Step maxQueueSize s a s' ∧ External a) init as s)
    (hstop : Step maxQueueSize s .stop s') (hs : s.stop = .notCalled) (hd : ¬ Drains s) :
    ∃ as' t, Run (Step maxQueueSize) s' as' t ∧ t.stop = .returned ∧ ¬ Clean t := by
  have hsound : Sound maxQueueSize s :=
    hrun.preserves sound_init fun _ _ _ h hst => h.step hst.1
  have hwakeful : Wakeful s :=
    hrun.preserves (P := fun s => Wakeful s) wakeful_init fun _ _ _ h hst =>
      h.step hn hmax hst.1 hst.2
  have hsound' := hsound.step hstop
  generalize ha : (.stop : Action n π τ) = a at hstop
  cases hstop with
  | notifyAll hs' => exact absurd (hs.symm.trans hs') nofun
  | join hs' => exact absurd (hs.symm.trans hs') nofun
  | stop _ _ =>
    have hreturned : ∃ as' t, Run (Step maxQueueSize) { s with stop := .flagged, running := false }
        as' t ∧ t.stop = .returned ∧ t.caller = s.caller :=
      exists_run_returned rfl rfl hwakeful.external
    obtain ⟨as', t, hrun', hret, hcaller⟩ := hreturned
    by_cases hout : ∀ c, s.caller c = .outside
    · have hlt : s.takers.card < s.taskQueue.length := Nat.lt_of_not_le fun hle => hd ⟨hout, hle⟩
      exact ⟨as', t, hrun', hret, not_clean_of_overfull hsound' ⟨rfl, hlt⟩ hrun'⟩
    · obtain ⟨c, hc⟩ := not_forall.1 hout
      rw [← hcaller] at hc
      rcases hp : t.caller c with _ | task | task
      · exact absurd hp hc
      · -- the thread goes on when the pool has ended
        rcases Nat.lt_or_ge t.taskQueue.length maxQueueSize with hlt | hle
        · obtain ⟨notEmpty, hnot⟩ := Condition.exists_notifyOne t.notEmpty
          have hpush := hrun'.snoc (.push hn (.inl hp) hlt hnot)
          have hsound'' := hpush.preserves hsound' fun _ _ _ h hst => h.step hst
          exact ⟨_, _, hpush, hret, not_clean_of_queue hsound''
            (List.append_ne_nil_of_right_ne_nil _ (List.cons_ne_nil _ _))⟩
        · have hblock := hrun'.snoc (.block hn (.inl hp) hle)
          exact ⟨_, _, hblock, hret, fun h => h.callers c task (update_self ..)⟩
      · exact ⟨as', t, hrun', hret, fun h => h.callers c task hp⟩
  | _ => cases ha

end ThreadPool
end BearRpc
