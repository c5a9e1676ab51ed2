/-
# Timers from any thread

`EventLoop::runAt`, `runAfter`, `runEvery` and `cancelTimer` with `TimerQueue::addTimer`
and `cancelTimer` behind them (`src/RPC/bearTCP/Eventloop.cc`, `TimerQueue.cc`), called on
any thread.  `runInLoop` runs the lambda at once on the loop thread and queues it on every
other one; so the queue of timers is touched by the loop thread only, while `new Timer` is
not.

A timer that was made and is not in `timers_` yet can be overtaken: `cancelTimer` on the
loop thread deletes it, and the lambda that is still queued inserts a pointer to nothing.
A one-shot timer may have fired before a queued cancellation is run.  As long as other
threads cancel repeating timers only, and the loop thread cancels what is in the queue,
every access is to a live timer (`timers_sound`), and while the loop thread sleeps no timer
waits for it (`timers_inserted`).
-/

import BearRpc.Theory.Deferred
import BearRpc.Tcp.TimerArming
import BearRpc.Tcp.TimerOwnership
import BearRpc.Tcp.Wakeup

namespace BearRpc
namespace TimerThreads

open Theory Function TimerQueue

/-- A task of the loop. -/
inductive Task where
  /-- the lambda of `addTimer` -/
  | insert (p : Ptr) (when interval : ℤ)
  /-- the lambda of `cancelTimer` -/
  | cancel (p : Ptr)
  | other
  deriving DecidableEq, Repr

/-- The loop, its queue of timers, and the timers that are not in it yet. -/
structure State (ι : Type) where
  loop : EventLoop.State ι Task
  queue : TimerQueue.State
  /-- behind `new Timer`, and not in `timers_` yet -/
  made : Ptr → Option Timer
  /-- what `new Timer` has returned so far -/
  allocated : List Ptr

/-- What the threads do. -/
inductive Act (ι : Type) where
  /-- something else -/
  | loop (a : EventLoop.Action ι Task)
  | addTimer (i : ι) (p : Ptr) (when interval : ℤ)
  | addTimerHere (p : Ptr) (when interval clock : ℤ)
  | cancelTimer (i : ι) (p : Ptr)
  | cancelTimerHere (p : Ptr)
  /-- a queued lambda of `addTimer` is called -/
  | runInsert (clock : ℤ)
  /-- a queued lambda of `cancelTimer` is called -/
  | runCancel
  /-- a step of `handleRead` -/
  | handleRead (a : TimerQueue.Action)

section Steps

variable {ι : Type} [DecidableEq ι]

/-- The lambda of `addTimer`. -/
def State.insert (s : State ι) (p : Ptr) (when interval clock : ℤ) : State ι :=
  let queue := s.queue.addTimer p when interval clock
  match s.made p with
  | some _ => { s with queue := queue, made := update s.made p none }
  -- deleted meanwhile
  | none => { s with queue := { queue with heap := s.queue.heap, history := s.queue.history } }

/-- The lambda of `cancelTimer`. -/
def State.cancel (s : State ι) (p : Ptr) : State ι :=
  match s.queue.heap p, s.made p with
  -- there is no entry to erase
  | none, some _ => { s with made := update s.made p none }
  | _, _ => { s with queue := s.queue.cancelTimer p }

/-- The steps of `handleRead`. -/
def Reads : TimerQueue.Action → Prop
  | .beginRead _ | .visit | .ret | .settle | .endRead _ => True
  | _ => False

/-- The steps of the threads. -/
inductive Step : State ι → Act ι → State ι → Prop
  /-- other calls and tasks; the handler of the timer channel returns when `handleRead` does -/
  | loop {s : State ι} {a loop} (h : EventLoop.Step s.loop a loop)
      (hpush : ∀ w t, a = .push w t → t = .other)
      (hstart : a = .loop → s.loop.point = .running → ∀ t ∈ s.loop.tasks.head?, t = .other)
      (hread : s.queue.point ≠ .idle → loop.point = s.loop.point) :
      Step s (.loop a) { s with loop := loop }
  | addTimer {s : State ι} {i p when interval} (hcall : s.loop.MayCall (some i)) (hp : p ≠ 0)
      (hfresh : p ∉ s.allocated) :
      Step s (.addTimer i p when interval)
        { s with
          loop := s.loop.push (some i) (.insert p when interval)
          made := update s.made p (some (.new when interval))
          allocated := s.allocated ++ [p] }
  | addTimerHere {s : State ι} {p when interval clock} (hcall : s.loop.MayCall none)
      (huser : s.queue.UserRuns) (hp : p ≠ 0) (hfresh : p ∉ s.allocated) :
      Step s (.addTimerHere p when interval clock)
        { s with
          queue := s.queue.addTimer p when interval clock
          allocated := s.allocated ++ [p] }
  | cancelTimer {s : State ι} {i p} (hcall : s.loop.MayCall (some i)) :
      Step s (.cancelTimer i p) { s with loop := s.loop.push (some i) (.cancel p) }
  | cancelTimerHere {s : State ι} {p} (hcall : s.loop.MayCall none)
      (huser : s.queue.UserRuns) : Step s (.cancelTimerHere p) (s.cancel p)
  | runInsert {s : State ι} {p when interval clock ts} (hpoint : s.loop.point = .running)
      (htasks : s.loop.tasks = .insert p when interval :: ts) :
      Step s (.runInsert clock)
        { s.insert p when interval clock with
          loop := s.loop.start (.insert p when interval) ts }
  | runCancel {s : State ι} {p ts} (hpoint : s.loop.point = .running)
      (htasks : s.loop.tasks = .cancel p :: ts) :
      Step s .runCancel { s.cancel p with loop := s.loop.start (.cancel p) ts }
  | handleRead {s : State ι} {a queue active} (hpoint : s.loop.point = .handler active)
      (h : TimerQueue.Step s.queue a queue) (ha : Reads a) :
      Step s (.handleRead a) { s with queue := queue }

end Steps

/-- The tasks that are still to be started. -/
def waiting {ι : Type} (l : EventLoop.State ι Task) : List Task := l.tasks ++ l.pending

variable {ι : Type} {s s' : State ι} {a : Act ι} {as : List (Act ι)} {p : Ptr}

/-- The timer is there, and repeats. -/
def State.Lasts (s : State ι) (p : Ptr) : Prop :=
  ∃ t, (s.made p = some t ∨ s.queue.heap p = some t) ∧ t.repeats = true

/-- **What the callers have to see to**: a timer is not cancelled twice; on another thread only
repeating timers are cancelled, on the loop thread only timers in the queue, and none that
the batch of `handleRead` still owns. -/
def Proper (s : State ι) : Act ι → Prop
  | .cancelTimer _ p => s.Lasts p ∧ .cancel p ∉ waiting s.loop
  | .cancelTimerHere p =>
    s.queue.heap p ≠ none ∧ p ∉ s.queue.point.pending ∧ .cancel p ∉ waiting s.loop
  | _ => True

/-- A running loop without tasks, with what was added before. -/
structure Start (s : State ι) : Prop where
  loop : EventLoop.Quiet s.loop
  entered : s.loop.point = .entered
  pending : s.loop.pending = []
  queue : ∃ actions, Run (fun s a s' => TimerQueue.Step s a s' ∧ Careful s a) init actions s.queue
  idle : s.queue.point = .idle
  made : ∀ p, s.made p = none
  allocated : ∀ p, .created p ∈ s.queue.history ↔ p ∈ s.allocated

/-! ### The tasks that wait -/

/-- What the tasks rely on: the timers that are not in `timers_` yet, and the repeating
ones that are live. -/
structure Account where
  made : Ptr → Option Timer
  lasts : Ptr → Prop

/-- The lambda finds what it needs. -/
def Served (a : Account) : Task → Prop
  | .insert p when interval => a.made p = some (.new when interval)
  | .cancel p => a.lasts p
  | .other => True

/-- What the lambda leaves. -/
def Account.run (a : Account) : Task → Account
  | .insert p _ interval => ⟨update a.made p none, fun q => a.lasts q ∨ q = p ∧ 0 < interval⟩
  | .cancel p => ⟨a.made, fun q => a.lasts q ∧ q ≠ p⟩
  | .other => a

/-- The tasks can be run one after the other, and insert all timers there are. -/
structure Ready (a : Account) (os : List Task) : Prop where
  enabled : Enabled Served Account.run a os
  settled : ∀ p, (os.foldl Account.run a).made p = none

def State.account (s : State ι) : Account :=
  ⟨s.made, fun p => ∃ t, s.queue.heap p = some t ∧ t.repeats = true⟩

section Waiting

variable {b c : Account} {os : List Task} {o : Task}

/-- The first lambda is served, and the others are ready behind it. -/
theorem Ready.tail (h : Ready b (o :: os)) : Served b o ∧ Ready (b.run o) os :=
  ⟨h.enabled.1, h.enabled.2, h.settled⟩

/-- A task that has nothing to do with timers can be queued at any time. -/
theorem Ready.other (h : Ready b os) : Ready b (os ++ [.other]) := by
  refine ⟨enabled_concat.2 ⟨h.enabled, trivial⟩, fun p => ?_⟩
  rw [List.foldl_append]
  exact h.settled p

/-- **The repeating timers that are cancelled are all that counts**: whether the others are
still there makes no difference to the tasks that wait. -/
theorem Ready.mono (h : Ready b os) (hmade : c.made = b.made)
    (hlasts : ∀ p, .cancel p ∈ os → b.lasts p → c.lasts p) : Ready c os := by
  have hsim := h.enabled.simulate
    (R := fun b c => c.made = b.made ∧ ∀ p, .cancel p ∈ os → b.lasts p → c.lasts p)
    ⟨hmade, hlasts⟩ ?_ ?_
  · exact ⟨hsim.1, fun p => (congrFun hsim.2.1 p).trans (h.settled p)⟩
  · rintro b c (⟨p, w, n⟩ | p | _) ho ⟨hm, hl⟩ hpre
    · exact (congrFun hm p).trans hpre
    · exact hl p ho hpre
    · exact trivial
  · rintro b c (⟨p, w, n⟩ | p | _) - ⟨hm, hl⟩ -
    · refine ⟨?_, fun q hq => Or.imp_left (hl q hq)⟩
      change update c.made p none = update b.made p none
      rw [hm]
    · exact ⟨hm, fun q hq => And.imp_left (hl q hq)⟩
    · exact ⟨hm, hl⟩

/-- **The lambda of a new timer** is put behind the others, and the timer it inserts is in
no other of them. -/
theorem Ready.insert (h : Ready b os) (hp : b.made p = none) (when interval : ℤ) :
    Ready ⟨update b.made p (some (.new when interval)), b.lasts⟩
      (os ++ [.insert p when interval]) := by
  have hsim := h.enabled.simulate
    (R := fun b c => c.made = update b.made p (some (.new when interval)) ∧
      c.lasts = b.lasts ∧ b.made p = none)
    (b := ⟨update b.made p (some (.new when interval)), b.lasts⟩) ⟨rfl, rfl, hp⟩ ?_ ?_
  · obtain ⟨henabled, hm, -⟩ := hsim
    refine ⟨enabled_concat.2 ⟨henabled, (congrFun hm p).trans (update_self ..)⟩, fun q => ?_⟩
    rw [List.foldl_append]
    change update (os.foldl Account.run _).made p none q = none
    by_cases hq : q = p
    · rw [hq, update_self]
    · rw [update_of_ne hq, hm, update_of_ne hq]
      exact h.settled q
  · rintro b c (⟨q, w, n⟩ | q | _) - ⟨hm, hl, hnone⟩ hpre
    · have hne : q ≠ p := by
        rintro rfl
        exact absurd (hnone.symm.trans hpre) (Option.some_ne_none _).symm
      exact (congrFun hm q).trans ((update_of_ne hne ..).trans hpre)
    · exact (congrFun hl q).mpr hpre
    · exact trivial
  · rintro b c (⟨q, w, n⟩ | q | _) - ⟨hm, hl, hnone⟩ hpre
    · have hne : p ≠ q := by
        rintro rfl
        exact absurd (hnone.symm.trans hpre) (Option.some_ne_none _).symm
      refine ⟨?_, ?_, (update_of_ne hne ..).trans hnone⟩
      · change update c.made q none = _
        rw [hm]
        exact update_comm hne _ _ _
      · change (fun r => c.lasts r ∨ r = q ∧ 0 < n) = fun r => b.lasts r ∨ r = q ∧ 0 < n
        rw [hl]
    · refine ⟨hm, ?_, hnone⟩
      change (fun r => c.lasts r ∧ r ≠ q) = fun r => b.lasts r ∧ r ≠ q
      rw [hl]
    · exact ⟨hm, hl, hnone⟩

/-- **A cancellation** is put behind the others: the timer it is for will be there, since it
is there now, or its insertion is ahead and no other cancellation is. -/
theorem Ready.cancel (h : Ready b os)
    (hp : (∃ t, b.made p = some t ∧ t.repeats = true) ∨ b.lasts p) (hnew : .cancel p ∉ os) :
    Ready b (os ++ [.cancel p]) := by
  have hlast := h.enabled.preserves
    (P := fun b => (∃ t, b.made p = some t ∧ t.repeats = true) ∨ b.lasts p) hp ?_
  · refine ⟨enabled_concat.2 ⟨h.enabled, hlast.resolve_left ?_⟩, fun q => ?_⟩
    · rintro ⟨t, ht, -⟩
      exact absurd ((h.settled p).symm.trans ht) (Option.some_ne_none t).symm
    · rw [List.foldl_append]
      exact h.settled q
  · rintro b (⟨q, w, n⟩ | q | _) ho hb hpre
    · by_cases hq : p = q
      · subst hq
        refine .inr ?_
        rcases hb with ⟨t, ht, hr⟩ | hb
        · obtain rfl : Timer.new w n = t := Option.some.inj (hpre.symm.trans ht)
          exact .inr ⟨rfl, of_decide_eq_true hr⟩
        · exact .inl hb
      · refine hb.imp ?_ .inl
        rintro ⟨t, ht, hr⟩
        exact ⟨t, (update_of_ne hq ..).trans ht, hr⟩
    · refine hb.imp_right fun hb => ⟨hb, ?_⟩
      rintro rfl
      exact hnew ho
    · exact hb

/-- A lambda makes no timer that is not in `timers_`. -/
theorem Account.run_made (hp : b.made p = none) (o : Task) : (b.run o).made p = none := by
  cases o with
  | insert q w n =>
    change update b.made q none p = none
    by_cases hq : p = q
    · rw [hq, update_self]
    · rw [update_of_ne hq, hp]
  | cancel q => exact hp
  | other => exact hp

/-- A timer that lasts is in `timers_`, whatever the lambdas do. -/
theorem Account.run_apart (hb : ∀ p, b.lasts p → b.made p = none) (o : Task) (p : Ptr)
    (hp : (b.run o).lasts p) : (b.run o).made p = none := by
  cases o with
  | insert q w n =>
    rcases hp with hp | ⟨rfl, -⟩
    · exact run_made (hb p hp) _
    · exact update_self ..
  | cancel q => exact hb p hp.1
  | other => exact hb p hp

/-- **A cancellation does not come before the insertion of its timer**: where it is run, the
timer is in `timers_`, and no lambda behind it finds the timer made and not inserted. -/
theorem Ready.ordered (h : Ready b os) (hb : ∀ p, b.lasts p → b.made p = none)
    {before after : List Task} (hos : os = before ++ .cancel p :: after) (when interval : ℤ) :
    .insert p when interval ∉ after := by
  intro hmem
  obtain ⟨mid, post, rfl⟩ := List.append_of_mem hmem
  have henabled := h.enabled
  rw [hos, enabled_append, Enabled, enabled_append] at henabled
  obtain ⟨hbefore, hcancel, hmid, hinsert, -⟩ := henabled
  have hapart := hbefore.preserves (P := fun b => ∀ p, b.lasts p → b.made p = none) hb
    fun b o _ hb _ => Account.run_apart hb o
  have hnone := hmid.preserves (P := fun b => b.made p = none)
    (Account.run_made (hapart p hcancel) (.cancel p)) fun b o _ hb _ => Account.run_made hb o
  exact absurd (hnone.symm.trans hinsert) (Option.some_ne_none _).symm

end Waiting

/-! ### The steps of the loop and of its timers -/

section Parts

variable {l l' : EventLoop.State ι Task} {b : EventLoop.Action ι Task} {q q' : TimerQueue.State}
  {c : TimerQueue.Action} {now : ℤ}

/-- **What a step of the loop does to the tasks that wait**: it adds one at the end, takes
one from the front to execute it, or leaves them as they are. -/
theorem waiting_step [DecidableEq ι] (hl : EventLoop.Sound l) (hst : EventLoop.Step l b l') :
    (∃ w t, b = .push w t ∧ waiting l' = waiting l ++ [t]) ∨
      (b = .loop ∧ l.point = .running ∧ ∃ t, t ∈ l.tasks.head? ∧ waiting l = t :: waiting l') ∨
        waiting l' = waiting l := by
  cases hst with
  | @push w t hc => exact .inl ⟨w, t, rfl, (List.append_assoc ..).symm⟩
  | swap hp =>
    obtain ⟨ht, -⟩ := hl.idle hp nofun nofun nofun
    refine .inr (.inr ?_)
    change l.pending ++ [] = l.tasks ++ l.pending
    rw [ht, List.append_nil, List.nil_append]
  | @start t ts hp ht =>
    refine .inr (.inl ⟨rfl, hp, t, by rw [ht]; rfl, ?_⟩)
    change l.tasks ++ l.pending = t :: (ts ++ l.pending)
    rw [ht, List.cons_append]
  | _ => exact .inr (.inr rfl)

/-- **`handleRead` deletes no repeating timer**, and makes none: so the cancellation of one,
which waits in the queue of the loop, will find it. -/
theorem handleRead_keeps (hi : q.Inv) (hst : TimerQueue.Step q c q') (hc : Reads c) :
    (∀ p, (∃ t, q.heap p = some t ∧ t.repeats = true) →
        ∃ t, q'.heap p = some t ∧ t.repeats = true) ∧
      ∀ p, .created p ∈ q'.history ↔ .created p ∈ q.history := by
  cases hst with
  | add | cancel | destroy => exact hc.elim
  | beginRead | ret | endRead => exact ⟨fun _ h => h, fun _ => Iff.rfl⟩
  | @visit now e rest hp =>
    obtain ⟨-, heq⟩ := hi.visit_eq hp
    rw [heq]
    exact ⟨fun _ h => h, by simp [TimerQueue.State.record]⟩
  | @settle now p rest hp =>
    obtain ⟨t, ht, -, ⟨hr, heq⟩ | ⟨hr, heq⟩⟩ := hi.settle_eq hp
    · rw [heq]
      refine ⟨fun r h => ?_, fun _ => Iff.rfl⟩
      by_cases hrp : r = p
      · exact ⟨t.restart, by rw [hrp]; exact update_self .., hr⟩
      · obtain ⟨t', ht', hr'⟩ := h
        exact ⟨t', (update_of_ne hrp ..).trans ht', hr'⟩
    · rw [heq]
      refine ⟨fun r h => ?_, by simp⟩
      obtain ⟨t', ht', hr'⟩ := h
      have hrp : r ≠ p := by
        rintro rfl
        rw [ht] at ht'
        cases ht'
        rw [hr] at hr'
        cases hr'
      exact ⟨t', (update_of_ne hrp ..).trans ht', hr'⟩

end Parts

/-- What holds in every state. -/
structure Inv (s : State ι) : Prop where
  loop : EventLoop.Sound s.loop
  queue : s.queue.Inv
  here : s.queue.point ≠ .idle → ∃ active, s.loop.point = .handler active
  ready : Ready s.account (waiting s.loop)
  fresh : ∀ p t, s.made p = some t → p ≠ 0 ∧ .created p ∉ s.queue.history
  accounted : ∀ p, p ∈ s.allocated ↔ .created p ∈ s.queue.history ∨ s.made p ≠ none

/-- A loop without tasks has nothing to violate. -/
theorem Start.inv (h : Start s) : Inv s where
  loop := h.loop.sound (.inr h.entered)
  queue := by
    obtain ⟨actions, hrun⟩ := h.queue
    exact hrun.preserves inv_init fun _ _ _ hi hst => hi.step hst.1 hst.2
  here := fun hne => absurd h.idle hne
  ready := by
    rw [waiting, h.loop.tasks, h.pending]
    exact ⟨trivial, h.made⟩
  fresh := by
    intro p t ht
    rw [h.made] at ht
    cases ht
  accounted := by
    intro p
    rw [h.allocated, h.made, ne_self_iff_false, or_false]

/-- While the loop thread is not in a handler, `handleRead` is not on its way. -/
theorem Inv.idle {point : EventLoop.Point} (hi : Inv s) (hp : s.loop.point = point)
    (hne : ∀ active, point ≠ .handler active) : s.queue.point = .idle := by
  by_contra h
  obtain ⟨active, hactive⟩ := hi.here h
  exact hne active (hp.symm.trans hactive)

/-- **Cancelling a timer that is in the queue** is what `TimerQueue::cancelTimer` does: the
timer is erased and deleted at once. -/
theorem State.cancel_of_live {t : Timer} (ht : s.queue.heap p = some t) :
    s.cancel p = { s with queue := s.queue.cancelTimer p } := by
  rw [State.cancel, ht]

/-- **Inserting a timer that was made and not deleted** is what `addTimer` does, and it is
not on its way any more. -/
theorem State.insert_of_made {t : Timer} {when interval clock : ℤ} (ht : s.made p = some t) :
    s.insert p when interval clock =
      { s with
        queue := s.queue.addTimer p when interval clock
        made := update s.made p none } := by
  rw [State.insert, ht]

/-- A queued lambda of `addTimer` finds its timer, and that is not in the queue. -/
theorem Inv.insert_ready (hi : Inv s) {when interval : ℤ} {ts : List Task}
    (htasks : s.loop.tasks = .insert p when interval :: ts) :
    s.made p = some (.new when interval) ∧
      Ready (s.account.run (.insert p when interval)) (ts ++ s.loop.pending) := by
  have hready := hi.ready
  rw [waiting, htasks] at hready
  exact hready.tail

/-- A queued lambda of `cancelTimer` finds its timer in the queue. -/
theorem Inv.cancel_ready (hi : Inv s) {ts : List Task}
    (htasks : s.loop.tasks = .cancel p :: ts) :
    (∃ t, s.queue.heap p = some t) ∧
      Ready (s.account.run (.cancel p)) (ts ++ s.loop.pending) := by
  have hready := hi.ready
  rw [waiting, htasks] at hready
  obtain ⟨⟨t, ht, -⟩, hrest⟩ := hready.tail
  exact ⟨⟨t, ht⟩, hrest⟩

/-- What a new timer in the queue does to the account. -/
theorem account_addTimer (hi : s.queue.Inv) (hp : .created p ∉ s.queue.history)
    (when interval clock : ℤ) (made : Ptr → Option Timer) (q : Ptr)
    (hq : s.account.lasts q ∨ q = p ∧ 0 < interval) :
    ({ s with queue := s.queue.addTimer p when interval clock, made := made } :
      State ι).account.lasts q := by
  obtain ⟨fd, heq⟩ := hi.addTimer_eq hp when interval clock
  change ∃ t, (s.queue.addTimer p when interval clock).heap q = some t ∧ t.repeats = true
  rw [heq]
  by_cases hqp : q = p
  · refine ⟨.new when interval, by rw [hqp]; exact update_self .., ?_⟩
    refine decide_eq_true (hq.elim ?_ And.right)
    rintro ⟨t, ht, -⟩
    rw [hqp, TimerQueue.Inv.dead_of_fresh hi hp] at ht
    cases ht
  · obtain ⟨t, ht, hr⟩ := hq.resolve_right fun h => hqp h.1
    exact ⟨t, (update_of_ne hqp ..).trans ht, hr⟩

/-- **A cancellation that overtakes the insertion** deletes the timer, and the lambda that is
still queued inserts a pointer to nothing. -/
theorem overtaken {t : Timer} {when interval clock : ℤ} (ht : s.made p = some t)
    (hp : s.queue.heap p = none) (hnew : entry when p ∉ s.queue.timers) :
    entry when p ∈ ((s.cancel p).insert p when interval clock).queue.timers ∧
      ((s.cancel p).insert p when interval clock).queue.heap p = none := by
  have hcancel : s.cancel p = { s with made := update s.made p none } := by
    rw [State.cancel, hp, ht]
  have hmade : (s.cancel p).made p = none := by
    rw [hcancel]
    exact update_self ..
  obtain ⟨fd, heq⟩ := s.queue.addTimer_of_fresh p when interval clock hnew
  rw [State.insert, hmade, hcancel]
  refine ⟨?_, hp⟩
  change entry when p ∈ (s.queue.addTimer p when interval clock).timers
  rw [heq]
  exact Finset.mem_insert_self ..

section Steps

variable [DecidableEq ι]

/-- The loop makes a step, or none. -/
theorem Step.loop_step (hst : Step s a s') :
    s'.loop = s.loop ∨ ∃ b, EventLoop.Step s.loop b s'.loop := by
  cases hst with
  | loop h => exact .inr ⟨_, h⟩
  | addTimer hcall | cancelTimer hcall => exact .inr ⟨_, .push _ hcall⟩
  | runInsert hpoint htasks | runCancel hpoint htasks => exact .inr ⟨_, .start hpoint htasks⟩
  | @cancelTimerHere s p =>
    refine .inl ?_
    unfold State.cancel
    split <;> rfl
  | addTimerHere | handleRead => exact .inl rfl

/-- **The queue makes a careful step**, or none, whichever thread it is that goes on: its
functions are called by the loop thread only. -/
theorem Inv.queue_step (hi : Inv s) (hst : Step s a s') (hc : Proper s a) :
    s'.queue = s.queue ∨ ∃ b, TimerQueue.Step s.queue b s'.queue ∧ Careful s.queue b := by
  cases hst with
  | loop | addTimer | cancelTimer => exact .inl rfl
  | addTimerHere hcall huser hp hfresh =>
    refine .inr ⟨_, .add _ _ _ _ huser hp fun h => hfresh ?_, nofun⟩
    exact (hi.accounted _).2 (.inl h)
  | cancelTimerHere hcall huser =>
    obtain ⟨hlive, hpending, -⟩ := hc
    obtain ⟨t, ht⟩ := Option.ne_none_iff_exists'.1 hlive
    rw [State.cancel_of_live ht]
    refine .inr ⟨_, .cancel _ huser hlive, fun p hp => ?_⟩
    cases hp
    exact hpending
  | runInsert hpoint htasks =>
    obtain ⟨hmade, -⟩ := hi.insert_ready htasks
    obtain ⟨hp, hfresh⟩ := hi.fresh _ _ hmade
    rw [State.insert_of_made hmade]
    exact .inr ⟨_, .add _ _ _ _ (.inl (hi.idle hpoint nofun)) hp hfresh, nofun⟩
  | runCancel hpoint htasks =>
    obtain ⟨⟨t, ht⟩, -⟩ := hi.cancel_ready htasks
    have hidle := hi.idle hpoint nofun
    rw [State.cancel_of_live ht]
    refine .inr ⟨_, .cancel _ (.inl hidle) (ht ▸ Option.some_ne_none t), fun p _ hp => ?_⟩
    rw [hidle] at hp
    cases hp
  | handleRead hpoint h ha =>
    refine .inr ⟨_, h, fun p hp => ?_⟩
    rw [hp] at ha
    exact ha.elim

/-- **Every proper step keeps the invariant**, of the queue, of the loop and of the tasks
between the two. -/
theorem Inv.step (hi : Inv s) (hst : Step s a s') (hc : Proper s a) : Inv s' := by
  have hloop : EventLoop.Sound s'.loop := by
    rcases hst.loop_step with h | ⟨b, h⟩
    · exact h ▸ hi.loop
    · exact hi.loop.step h
  have hqueue : s'.queue.Inv := by
    rcases hi.queue_step hst hc with h | ⟨b, h, hb⟩
    · exact h ▸ hi.queue
    · exact hi.queue.step h hb
  cases hst with
  | @loop a loop h hpush hstart hread =>
    refine ⟨hloop, hqueue, fun hne => (hi.here hne).imp fun _ h => (hread hne).trans h, ?_,
      hi.fresh, hi.accounted⟩
    change Ready s.account (waiting loop)
    rcases waiting_step hi.loop h with ⟨w, t, rfl, heq⟩ | ⟨rfl, hp, t, ht, heq⟩ | heq
    · rw [heq, hpush w t rfl]
      exact hi.ready.other
    · have hready := hi.ready
      rw [heq, hstart rfl hp t ht] at hready
      exact hready.tail.2
    · rw [heq]
      exact hi.ready
  | @addTimer i p when interval hcall hp hfresh =>
    have hnew : .created p ∉ s.queue.history ∧ s.made p = none := by
      rw [hi.accounted, not_or, not_not] at hfresh
      exact hfresh
    refine ⟨hloop, hqueue, hi.here, ?_, fun q t ht => ?_, fun q => ?_⟩
    · change Ready _ (s.loop.tasks ++ (s.loop.pending ++ [_]))
      rw [← List.append_assoc]
      exact hi.ready.insert hnew.2 when interval
    · by_cases hq : q = p
      · rw [hq]
        exact ⟨hp, hnew.1⟩
      · exact hi.fresh q t ((update_of_ne hq ..).symm.trans ht)
    · change q ∈ s.allocated ++ [p] ↔ _ ∨ update s.made p _ q ≠ none
      by_cases hq : q = p
      · simp [hq]
      · rw [List.mem_append, List.mem_singleton, or_iff_left hq, update_of_ne hq]
        exact hi.accounted q
  | @addTimerHere p when interval clock hcall huser hp hfresh =>
    have hnew : .created p ∉ s.queue.history ∧ s.made p = none := by
      rw [hi.accounted, not_or, not_not] at hfresh
      exact hfresh
    have haccount := account_addTimer hi.queue hnew.1 when interval clock s.made
    obtain ⟨fd, heq⟩ := hi.queue.addTimer_eq hnew.1 when interval clock
    refine ⟨hloop, hqueue, ?_, hi.ready.mono rfl fun q _ hq => haccount q (.inl hq), ?_, ?_⟩
    · rw [heq]
      exact hi.here
    · intro q t ht
      have hqp : q ≠ p := by
        rintro rfl
        exact absurd (hnew.2.symm.trans ht) (Option.some_ne_none t).symm
      rw [heq]
      refine ⟨(hi.fresh q t ht).1, ?_⟩
      simpa [hqp] using (hi.fresh q t ht).2
    · intro q
      rw [heq]
      simp only [List.mem_append, List.mem_singleton, hi.accounted, Event.created.injEq]
      exact or_right_comm
  | @cancelTimer i p hcall =>
    obtain ⟨⟨t, ht, hr⟩, hnot⟩ := hc
    refine ⟨hloop, hqueue, hi.here, ?_, hi.fresh, hi.accounted⟩
    change Ready s.account (s.loop.tasks ++ (s.loop.pending ++ [_]))
    rw [← List.append_assoc]
    exact hi.ready.cancel (ht.imp (fun h => ⟨t, h, hr⟩) fun h => ⟨t, h, hr⟩) hnot
  | @cancelTimerHere p hcall huser =>
    obtain ⟨hlive, -, hnot⟩ := hc
    obtain ⟨t, ht⟩ := Option.ne_none_iff_exists'.1 hlive
    have hcancel := State.cancelTimer_of_live ht (hi.queue.valid p t ht)
    rw [State.cancel_of_live ht, hcancel] at hloop hqueue ⊢
    refine ⟨hloop, hqueue, hi.here, hi.ready.mono rfl fun q hq hlasts => ?_, ?_, ?_⟩
    · have hqp : q ≠ p := fun h => hnot (h ▸ hq)
      exact hlasts.imp fun t h => ⟨(update_of_ne hqp ..).trans h.1, h.2⟩
    · simpa using hi.fresh
    · simpa using hi.accounted
  | @runInsert p when interval clock ts hpoint htasks =>
    obtain ⟨hmade, hready⟩ := hi.insert_ready htasks
    obtain ⟨hp, hfresh⟩ := hi.fresh p _ hmade
    have hidle := hi.idle hpoint nofun
    have haccount := account_addTimer hi.queue hfresh when interval clock (update s.made p none)
    obtain ⟨fd, heq⟩ := hi.queue.addTimer_eq hfresh when interval clock
    rw [State.insert_of_made hmade] at hloop hqueue ⊢
    refine ⟨hloop, hqueue, ?_, hready.mono rfl fun q _ hq => haccount q hq, ?_, ?_⟩
    · rw [heq]
      exact fun hne => absurd hidle hne
    · intro q t ht
      have hqp : q ≠ p := by
        rintro rfl
        exact absurd ((update_self ..).symm.trans ht) (Option.some_ne_none t).symm
      have hmade' := (update_of_ne hqp ..).symm.trans ht
      rw [heq]
      refine ⟨(hi.fresh q t hmade').1, ?_⟩
      simpa [hqp] using (hi.fresh q t hmade').2
    · intro q
      rw [heq]
      by_cases hqp : q = p
      · simp [hqp, hi.accounted, hmade]
      · simp [hqp, hi.accounted]
  | @runCancel p ts hpoint htasks =>
    obtain ⟨⟨t, ht⟩, hready⟩ := hi.cancel_ready htasks
    have hidle := hi.idle hpoint nofun
    have hcancel := State.cancelTimer_of_live ht (hi.queue.valid p t ht)
    rw [State.cancel_of_live ht, hcancel] at hloop hqueue ⊢
    refine ⟨hloop, hqueue, fun hne => absurd hidle hne, hready.mono rfl fun q _ hlasts => ?_,
      ?_, ?_⟩
    · exact hlasts.1.imp fun t h => ⟨(update_of_ne hlasts.2 ..).trans h.1, h.2⟩
    · simpa using hi.fresh
    · simpa using hi.accounted
  | @handleRead a queue active hpoint h ha =>
    obtain ⟨hkeeps, hhistory⟩ := handleRead_keeps hi.queue h ha
    refine ⟨hloop, hqueue, fun _ => ⟨active, hpoint⟩,
      hi.ready.mono rfl fun q _ hq => hkeeps q hq, fun q t ht => ?_, fun q => ?_⟩
    · rw [hhistory]
      exact hi.fresh q t ht
    · rw [hhistory]
      exact hi.accounted q

/-- The runs of proper steps. -/
abbrev Runs (s₀ : State ι) : List (Act ι) → State ι → Prop :=
  Run (fun s a s' => Step s a s' ∧ Proper s a) s₀

variable {s₀ : State ι}

/-- What holds between two steps holds in every run of proper steps. -/
theorem inv_of_run (h : Start s₀) (hrun : Runs s₀ as s) : Inv s :=
  hrun.preserves h.inv fun _ _ _ hi hst => hi.step hst.1 hst.2

omit [DecidableEq ι] in
/-- A timer that is in the queue has been inserted. -/
theorem Inv.apart (hi : Inv s) (p : Ptr) (hp : s.account.lasts p) : s.account.made p = none := by
  obtain ⟨t, ht, -⟩ := hp
  by_contra hne
  obtain ⟨t', ht'⟩ := Option.ne_none_iff_exists'.1 hne
  rw [TimerQueue.Inv.dead_of_fresh hi.queue (hi.fresh p t' ht').2] at ht
  cases ht

/-- **Timers can be used from any thread.**  As long as the callers see to what they have to,
no timer is accessed that has been deleted, each is deleted at most once, no callback starts
behind its cancellation, and no assertion fails; and among the tasks that wait, the
cancellation of a timer does not come before its insertion. -/
theorem timers_sound (h : Start s₀) (hrun : Runs s₀ as s) :
    SoundTimers s.queue ∧ s.queue.point ≠ .aborted ∧
      ∀ before p after when interval, waiting s.loop = before ++ .cancel p :: after →
        .insert p when interval ∉ after := by
  have hi := inv_of_run h hrun
  refine ⟨hi.queue.soundTimers, hi.queue.safe.2, fun before p after when interval hw => ?_⟩
  exact hi.ready.ordered hi.apart hw when interval

/-- What is on its way arrives: in the loop, and for the descriptor. -/
structure OnTheWay (s : State ι) : Prop extends Inv s where
  wakeful : EventLoop.Wakeful s.loop
  remembers : Remembers s.queue

omit [DecidableEq ι] in
/-- At the beginning nothing is on its way, the loop does not sleep, and the descriptor
remembers its timers. -/
theorem Start.onTheWay (h : Start s) : OnTheWay s where
  toInv := h.inv
  wakeful := ⟨by rw [h.entered]; exact nofun, fun hne => absurd h.pending hne⟩
  remembers := by
    obtain ⟨actions, hrun⟩ := h.queue
    exact hrun.preserves (P := Remembers) ⟨nofun, nofun⟩ fun _ _ _ hi hst => hi.step hst.1

/-- Every proper step keeps the three together. -/
theorem OnTheWay.step (h : OnTheWay s) (hst : Step s a s') (hc : Proper s a) : OnTheWay s' where
  toInv := h.toInv.step hst hc
  wakeful := by
    rcases hst.loop_step with heq | ⟨b, hb⟩
    · exact heq ▸ h.wakeful
    · exact h.wakeful.step h.loop hb
  remembers := by
    rcases h.toInv.queue_step hst hc with heq | ⟨b, hb, -⟩
    · exact heq ▸ h.remembers
    · exact h.remembers.step hb

omit [DecidableEq ι] in
/-- **Nothing waits for a loop thread that sleeps**: no timer has been made that is not
inserted yet, unless a caller is still inside `queueInLoop`. -/
theorem OnTheWay.made_none (h : OnTheWay s)
    (hsleep : s.loop.point = .polling ∧ s.loop.counter = 0)
    (hout : ∀ i k, s.loop.stage (some i) ≠ .queued k ∧ s.loop.stage (some i) ≠ .woken k) (p : Ptr) :
    s.made p = none := by
  have hpending : s.loop.pending = [] := by
    by_contra hne
    exact h.wakeful.not_lostWakeup ⟨hsleep, hout, hne⟩
  have htasks := (h.loop.idle hsleep.1 nofun nofun nofun).1
  have hsettled := h.ready.settled p
  rw [waiting, htasks, hpending] at hsettled
  exact hsettled

/-- **Every timer is inserted before the loop thread sleeps.**  When it is blocked in `poll`
and no other thread is in `queueInLoop`, each timer that any thread asked for has been deleted,
or is live with its entry in `timers_`, and the descriptor is armed for it. -/
theorem timers_inserted (h : Start s₀) (hrun : Runs s₀ as s)
    (hsleep : s.loop.point = .polling ∧ s.loop.counter = 0)
    (hout : ∀ i k, s.loop.stage (some i) ≠ .queued k ∧ s.loop.stage (some i) ≠ .woken k)
    (hp : p ∈ s.allocated) :
    .deleted p ∈ s.queue.history ∨ ∃ t, s.queue.heap p = some t ∧
      entry t.when p ∈ s.queue.timers ∧ ArmedFor s.queue.timerfd t.when := by
  have hi : OnTheWay s :=
    hrun.preserves h.onTheWay fun _ _ _ hi hst => hi.step hst.1 hst.2
  have hidle := hi.idle hsleep.1 nofun
  have hcreated : p ∈ (↑(createdOf s.queue.history) : Multiset Ptr) := by
    have hor := (hi.accounted p).1 hp
    rw [hi.made_none hsleep hout p, ne_self_iff_false, or_false] at hor
    exact Multiset.mem_coe.2 (mem_createdOf.2 hor)
  rw [hi.queue.ledger.conserved, Multiset.mem_add, Multiset.mem_coe, mem_deletedOf,
    ← hi.queue.ledger.live_iff] at hcreated
  refine hcreated.imp_right fun hlive => ?_
  obtain ⟨t, ht⟩ := Option.ne_none_iff_exists'.1 hlive
  have hentry : entry t.when p ∈ s.queue.timers :=
    TimerQueue.Inv.entry_mem hi.queue ht (by rw [hidle]; exact List.not_mem_nil)
  obtain ⟨first, hfirst, hmin⟩ := s.queue.timers.exists_min_image id ⟨_, hentry⟩
  refine ⟨t, ht, hentry, (hi.remembers.armed hidle first hfirst hmin).mono ?_⟩
  exact Entry.when_le (hmin _ hentry)

end Steps

/-! ### A timer that another thread asks for -/

/-- The loop is entered, and there is no timer. -/
def freshTimers : State Unit :=
  ⟨⟨.entered, fun _ => .outside, false, false, 0, [], [], [], [], [], []⟩, init, fun _ => none, []⟩

/-- A loop that is entered, with an empty queue of timers. -/
theorem start_freshTimers : Start freshTimers where
  loop := {
    own := rfl
    doing := rfl
    tasks := rfl
    ordered := rfl
    numbered := by
      rintro w k (h | h)
      · cases h
      · cases h
    completed := nofun
    owed := rfl }
  entered := rfl
  pending := rfl
  queue := ⟨[], .nil⟩
  idle := rfl
  made := fun _ => rfl
  allocated := fun p => by simp [freshTimers, init]

/-- The call of `addTimer` has returned. -/
def timerAsked : State Unit :=
  let loop := { freshTimers.loop with point := .polling }.push (some ()) (.insert 1 5 7)
  { freshTimers with
    loop := (loop.wake (some ()) 0).ret (some ()) 0
    made := update freshTimers.made 1 (some (.new 5 7))
    allocated := [1] }

/-- The loop thread has run the lambda, and sleeps again. -/
def timerInserted : State Unit :=
  { timerAsked.insert 1 5 7 0 with
    loop :=
      { timerAsked.loop with
        point := .polling
        counter := 0
        pending := []
        executed := [.insert 1 5 7] } }

/-- **A run that inserts a timer of another thread**: it is pushed, the loop is woken up and
runs the lambda. -/
theorem runs_timerInserted : ∃ as, Runs freshTimers as timerInserted := by
  have hmove : ∀ {s : State Unit} {loop : EventLoop.State Unit Task},
      EventLoop.Step s.loop .loop loop → (s.loop.point = .running → s.loop.tasks = []) →
        s.queue.point = .idle →
          Step s (.loop .loop) { s with loop := loop } ∧ Proper s (.loop .loop) := by
    intro s loop h hrunning hidle
    refine ⟨.loop h nofun (fun _ hp t ht => ?_) fun hne => absurd hidle hne, trivial⟩
    rw [hrunning hp] at ht
    cases ht
  have hcall : ∀ {s : State Unit} {loop : EventLoop.State Unit Task} {b},
      EventLoop.Step s.loop b loop → (∀ w t, b ≠ .push w t) → b ≠ .loop →
        s.queue.point = .idle → Step s (.loop b) { s with loop := loop } ∧ Proper s (.loop b) :=
    fun h hpush hloop hidle => ⟨.loop h (fun w t hb => absurd hb (hpush w t))
      (fun hb => absurd hb hloop) fun hne => absurd hidle hne, trivial⟩
  have hentered : Runs freshTimers [] freshTimers := .nil
  have hcleared := hentered.snoc (hmove (.clearQuit rfl) nofun rfl)
  have hpolling := hcleared.snoc (hmove (.iterate rfl rfl) nofun rfl)
  have hpushed := hpolling.snoc
    ⟨@Step.addTimer _ _ _ () 1 5 7 ⟨rfl, nofun⟩ (by decide) List.not_mem_nil, trivial⟩
  have hwoken := hpushed.snoc (hcall (.wake (w := some ()) (k := 0) rfl) nofun nofun rfl)
  have hasked := hwoken.snoc (hcall (.ret (w := some ()) (k := 0) rfl) nofun nofun rfl)
  have hpolled := hasked.snoc (hmove (.poll [.wakeup] rfl fun _ => by decide) nofun rfl)
  have hdrained := hpolled.snoc (hmove (.drain rfl) nofun rfl)
  have hswapping := hdrained.snoc (hmove (.doPendingTasks rfl) nofun rfl)
  have hswapped := hswapping.snoc (hmove (.swap rfl) nofun rfl)
  have hraised := hswapped.snoc (hmove (.raise rfl) nofun rfl)
  have hrun := hraised.snoc ⟨@Step.runInsert _ _ _ 1 5 7 0 [] rfl rfl, trivial⟩
  have hfinished := hrun.snoc (hmove (.finish rfl rfl) nofun rfl)
  have hlowered := hfinished.snoc (hmove (.lower rfl rfl) (fun _ => rfl) rfl)
  exact ⟨_, hlowered.snoc (hmove (.iterate rfl rfl) nofun rfl)⟩

/-- The thread asks for it to be cancelled. -/
def timerCancelled : State Unit :=
  { timerInserted with loop := timerInserted.loop.push (some ()) (.cancel 1) }

/-- The hypotheses of `timers_sound` are satisfiable: the timer is cancelled by the thread that
asked for it. -/
theorem timers_sound_timerCancelled :
    SoundTimers timerCancelled.queue ∧ timerCancelled.queue.point ≠ .aborted ∧
      ∀ before p after when interval, waiting timerCancelled.loop = before ++ .cancel p :: after →
        .insert p when interval ∉ after := by
  obtain ⟨as, hrun⟩ := runs_timerInserted
  have hcancel : Step timerInserted (.cancelTimer () 1) timerCancelled := .cancelTimer ⟨rfl, nofun⟩
  refine timers_sound start_freshTimers (hrun.snoc ⟨hcancel, ⟨.new 5 7, .inr ?_, rfl⟩, ?_⟩)
  · decide
  · exact List.not_mem_nil

/-- The hypotheses of `timers_inserted` are satisfiable: the timer is in the queue. -/
theorem timers_inserted_timerInserted :
    .deleted 1 ∈ timerInserted.queue.history ∨ ∃ t, timerInserted.queue.heap 1 = some t ∧
      entry t.when 1 ∈ timerInserted.queue.timers ∧
        ArmedFor timerInserted.queue.timerfd t.when := by
  obtain ⟨as, hrun⟩ := runs_timerInserted
  refine timers_inserted start_freshTimers hrun ⟨rfl, rfl⟩ (fun i k => ?_) List.mem_cons_self
  change EventLoop.Stage.outside ≠ _ ∧ EventLoop.Stage.outside ≠ _
  exact ⟨nofun, nofun⟩

end TimerThreads
end BearRpc
