/-
# The timer queue

`src/RPC/bearTCP/TimerQueue.cc` and `src/RPC/bearTCP/Timer.h`.  A `Timer` is a
heap object behind a raw pointer; `timers_` is an ordered set of pairs of a time
and a pointer.  All operations run on the loop thread.

`handleRead` moves the expired entries out of `timers_` and walks over them; the
callback it runs may add timers and cancel timers, and is a sequence of steps of
its own between `start` and `ret`.  `cancelTimer` deletes its timer at once.  An
access to a timer that has been deleted is undefined behaviour, and leads to the
point `dangling`; a failed assertion leads to `aborted`.

A pointer is never used again for another timer, so the heap is the set of live
timers.  Times are in nanoseconds; the clock readings are part of the steps.
-/

import BearRpc.Theory.Transition
import Mathlib.Data.Finset.Sort
import Mathlib.Data.Prod.Lex

namespace BearRpc

open Theory

/-- `class Timer`, without its callback. -/
structure Timer where
  when : ℤ
  interval : ℤ
  canceled : Bool
  deriving DecidableEq, Repr

namespace Timer

/-- `Timer(callback, when, interval)` -/
def new (when interval : ℤ) : Timer := ⟨when, interval, false⟩

/-- `repeat()`: the constructor sets `repeat_` to this. -/
def repeats (t : Timer) : Bool := 0 < t.interval

def expired (t : Timer) (now : ℤ) : Bool := t.when ≤ now

/-- `restart()` behind its assertion -/
def restart (t : Timer) : Timer := { t with when := t.when + t.interval }

/-- `cancel()` behind its assertion -/
def cancel (t : Timer) : Timer := { t with canceled := true }

end Timer

namespace TimerQueue

/-- `Timer *`; `nullptr` is 0. -/
abbrev Ptr := ℕ

/-- `typedef std::pair<Timestamp, Timer*> Entry`, ordered as pairs are. -/
abbrev Entry := ℤ ×ₗ Ptr

/-- `{when, timer}` -/
def entry (when : ℤ) (p : Ptr) : Entry := toLex (when, p)

/-- `e.first` -/
def Entry.when (e : Entry) : ℤ := (ofLex e).1

/-- `e.second` -/
def Entry.timer (e : Entry) : Ptr := (ofLex e).2

/-- Where the loop thread is. -/
inductive Point where
  /-- outside `handleRead` -/
  | idle
  /-- at the head of the loop of `handleRead`, with the entries to come -/
  | walking (now : ℤ) (rest : List Entry)
  /-- in the callback of a timer -/
  | running (now : ℤ) (p : Ptr) (rest : List Entry)
  /-- behind the callback -/
  | returned (now : ℤ) (p : Ptr) (rest : List Entry)
  /-- the destructor has run -/
  | destroyed
  /-- a deleted timer was accessed -/
  | dangling
  /-- an assertion has failed -/
  | aborted

/-- What happens to timers. -/
inductive Event where
  | created (p : Ptr)
  | started (p : Ptr)
  | cancelled (p : Ptr)
  | deleted (p : Ptr)
  deriving DecidableEq, Repr

/-- What `timerfdSet` passed: the clock reading it is relative to, and the
`tv_sec` and `tv_nsec` of the timespec. -/
structure Armed where
  clock : ℤ
  sec : ℤ
  nsec : ℤ
  deriving DecidableEq, Repr

/-- The timer queue, the heap of its timers and their history. -/
structure State where
  point : Point
  heap : Ptr → Option Timer
  /-- `timers_` -/
  timers : Finset Entry
  /-- the setting of `timerfd_`, until it has expired and been read -/
  timerfd : Option Armed
  history : List Event

/-- The queue behind its constructor. -/
def init : State := ⟨.idle, fun _ => none, ∅, none, []⟩

/-- `durationFromNow(when)` and `timerfdSet(timerfd_, when)`: at least a
millisecond. -/
def timerfdSet (when clock : ℤ) : Armed :=
  let ns := if when - clock < 1000000 then 1000000 else when - clock
  ⟨clock, ns / 1000000000, ns % 1000000000⟩

/-- The deadline that was set. -/
def Armed.deadline (a : Armed) : ℤ := a.clock + a.sec * 1000000000 + a.nsec

/-- `timerfdRead(timerfd_)`: an expiry that is read is gone. -/
def timerfdRead (a : Option Armed) (now : ℤ) : Option Armed := a.filter fun a => now < a.deadline

section Operations

variable (s : State)

/-- `timers_.begin()->first` -/
def firstWhen : Option ℤ := ((s.timers.sort (· ≤ ·)).head?).map Entry.when

/-- An event is recorded. -/
def State.record (e : Event) : State := { s with history := s.history ++ [e] }

/-- `*p` is overwritten. -/
def State.store (p : Ptr) (t : Timer) : State :=
  { s with heap := Function.update s.heap p (some t) }

/-- `delete p` -/
def State.delete (p : Ptr) : State :=
  match s.heap p with
  | none => { s with point := .dangling }
  | some _ => { s with heap := Function.update s.heap p none }.record (.deleted p)

/-- `addTimer(cb, when, interval)`, with `new` giving the pointer `p` -/
def State.addTimer (p : Ptr) (when interval clock : ℤ) : State :=
  let s := (s.store p (.new when interval)).record (.created p)
  if entry when p ∈ s.timers then
    { s with point := .aborted }
  else
    let s := { s with timers := insert (entry when p) s.timers }
    if ∀ e ∈ s.timers, entry when p ≤ e then
      { s with timerfd := some (timerfdSet when clock) }
    else
      s

/-- `cancelTimer(timer)` -/
def State.cancelTimer (p : Ptr) : State :=
  match s.heap p with
  | none => { s with point := .dangling }
  | some t =>
    if t.canceled then
      { s with point := .aborted }
    else
      let s := (s.store p t.cancel).record (.cancelled p)
      { s with timers := s.timers.erase (entry t.when p) }.delete p

/-- `getExpired(now)`: the entries before `(now + 1ns, nullptr)`, in order. -/
def getExpired (now : ℤ) : List Entry := (s.timers.filter (· < entry (now + 1) 0)).sort (· ≤ ·)

/-- `handleRead()` up to its loop -/
def State.beginRead (now : ℤ) : State :=
  { s with
    timerfd := timerfdRead s.timerfd now
    timers := s.timers.filter (¬ · < entry (now + 1) 0)
    point := .walking now (getExpired s now) }

/-- The body of the loop up to `timer->run()` -/
def State.visit (now : ℤ) (e : Entry) (rest : List Entry) : State :=
  match s.heap e.timer with
  | none => { s with point := .dangling }
  | some t =>
    if t.expired now then
      if t.canceled then
        { s with point := .returned now e.timer rest }
      else
        { s with point := .running now e.timer rest }.record (.started e.timer)
    else
      { s with point := .aborted }

/-- The body of the loop behind `timer->run()` -/
def State.settle (now : ℤ) (p : Ptr) (rest : List Entry) : State :=
  match s.heap p with
  | none => { s with point := .dangling }
  | some t =>
    if !t.canceled && t.repeats then
      let s := s.store p t.restart
      { s with timers := insert (entry t.restart.when p) s.timers, point := .walking now rest }
    else
      { s with point := .walking now rest }.delete p

/-- `handleRead()` behind its loop -/
def State.endRead (clock : ℤ) : State :=
  { s with
    point := .idle
    timerfd := match firstWhen s with
      | none => s.timerfd
      | some when => some (timerfdSet when clock) }

/-- The loop of `~TimerQueue` over `timers_` -/
def State.deleteAll (s : State) : List Entry → State
  | [] => s
  | e :: es => (s.delete e.timer).deleteAll es

/-- `~TimerQueue()` -/
def State.destroy : State :=
  { s with point := .destroyed, timers := ∅ }.deleteAll (s.timers.sort (· ≤ ·))

/-- Code of the user runs, on the loop thread. -/
def State.UserRuns : Prop := s.point = .idle ∨ ∃ now p rest, s.point = .running now p rest

end Operations

/-- What the loop thread does. -/
inductive Action where
  | add (p : Ptr) (when interval clock : ℤ)
  | cancel (p : Ptr)
  | beginRead (now : ℤ)
  | visit
  | ret
  | settle
  | endRead (clock : ℤ)
  | destroy
  deriving DecidableEq, Repr

/-- The steps of the loop thread.  The user cancels live timers only; a cancelled
timer, and a one-shot timer whose callback has returned, are live no more. -/
inductive Step : State → Action → State → Prop
  | add {s} (p : Ptr) (when interval clock : ℤ) : s.UserRuns → p ≠ 0 → .created p ∉ s.history →
      Step s (.add p when interval clock) (s.addTimer p when interval clock)
  | cancel {s} (p : Ptr) : s.UserRuns → s.heap p ≠ none → Step s (.cancel p) (s.cancelTimer p)
  | beginRead {s} (now : ℤ) : s.point = .idle → Step s (.beginRead now) (s.beginRead now)
  | visit {s now e rest} : s.point = .walking now (e :: rest) → Step s .visit (s.visit now e rest)
  | ret {s now p rest} : s.point = .running now p rest →
      Step s .ret { s with point := .returned now p rest }
  | settle {s now p rest} : s.point = .returned now p rest → Step s .settle (s.settle now p rest)
  | endRead {s now} (clock : ℤ) : s.point = .walking now [] →
      Step s (.endRead clock) (s.endRead clock)
  | destroy {s} : s.point = .idle → Step s .destroy s.destroy

/-! ### The operations on live timers -/

variable {s : State} {p : Ptr} {e : Entry} {rest : List Entry} {t : Timer}
  {now when interval clock : ℤ}

@[simp] theorem entry_when (when : ℤ) (p : Ptr) : (entry when p).when = when := rfl

@[simp] theorem entry_timer (when : ℤ) (p : Ptr) : (entry when p).timer = p := rfl

/-- An entry is a pair of a time and a pointer, so it is determined by what `first` and
`second` of the pair in `timers_` are. -/
theorem Entry.eq_entry (e : Entry) : e = entry e.when e.timer := rfl

/-- Deleting a live timer frees its address and records the deletion; nothing else of the
queue is touched. -/
theorem State.delete_of_live (h : s.heap p = some t) :
    s.delete p = { s with heap := Function.update s.heap p none }.record (.deleted p) := by
  rw [delete, h]

/-- `delete` leaves the descriptor armed as it is, whether or not the timer was live. -/
@[simp] theorem State.delete_timerfd (s : State) (p : Ptr) : (s.delete p).timerfd = s.timerfd := by
  unfold State.delete
  split <;> rfl

/-- `delete` does not erase the entry of the timer: that has to be done before, or `timers_`
keeps a pointer to nothing. -/
@[simp] theorem State.delete_timers (s : State) (p : Ptr) : (s.delete p).timers = s.timers := by
  unfold State.delete
  split <;> rfl

/-- A `delete` either leaves the control point alone or, on a pointer to nothing, ends in a
dangling access. -/
theorem State.delete_point (s : State) (p : Ptr) :
    (s.delete p).point = s.point ∨ (s.delete p).point = .dangling := by
  unfold State.delete
  split
  · exact .inr rfl
  · exact .inl rfl

/-- The same for the loop of the destructor over all entries: one dangling pointer among
them is enough. -/
theorem State.deleteAll_point (s : State) (es : List Entry) :
    (s.deleteAll es).point = s.point ∨ (s.deleteAll es).point = .dangling := by
  induction es generalizing s with
  | nil => exact .inl rfl
  | cons e es ih =>
    rcases ih (s.delete e.timer) with h | h
    · exact (s.delete_point e.timer).imp h.trans h.trans
    · exact .inr h

/-- The destructor leaves the descriptor as it is; it is closed afterwards. -/
theorem State.deleteAll_timerfd (s : State) (es : List Entry) :
    (s.deleteAll es).timerfd = s.timerfd := by
  induction es generalizing s with
  | nil => rfl
  | cons e es ih => exact (ih _).trans (s.delete_timerfd e.timer)

/-- **The callback of an expired timer is started** when the loop of `handleRead` visits a
live entry that is due and not cancelled: this is the branch in which no assertion fails. -/
theorem State.visit_of_live (h : s.heap e.timer = some t) (hexp : t.when ≤ now)
    (hc : t.canceled = false) : s.visit now e rest =
      { s with point := .running now e.timer rest }.record (.started e.timer) := by
  simp [visit, h, Timer.expired, hexp, hc]

/-- Behind the callback of a repeating timer, it is restarted with its next time and put
back into `timers_`. -/
theorem State.settle_of_repeats (h : s.heap p = some t) (hc : t.canceled = false)
    (hr : t.repeats = true) : s.settle now p rest =
      { s.store p t.restart with
        timers := insert (entry t.restart.when p) s.timers, point := .walking now rest } := by
  simp only [settle, h, hc, hr]
  rfl

/-- Behind the callback of a timer that does not repeat, it is deleted; its entry has been
erased with the batch. -/
theorem State.settle_of_oneShot (h : s.heap p = some t) (hr : t.repeats = false) :
    s.settle now p rest = { s with point := .walking now rest }.delete p := by
  simp only [settle, h, hr, Bool.and_false]
  rfl

/-- `cancelTimer` on a live timer that has not been cancelled marks it, erases its entry and
deletes it at once. -/
theorem State.cancelTimer_of_live (h : s.heap p = some t) (hc : t.canceled = false) :
    s.cancelTimer p = { s with
      heap := Function.update s.heap p none
      timers := s.timers.erase (entry t.when p)
      history := s.history ++ [.cancelled p] ++ [.deleted p] } := by
  simp [cancelTimer, h, hc, delete, store, record]

/-- **What `getExpired` takes out**: the entries below `(now + 1ns, nullptr)`, which are
those whose time is `now` or earlier, whatever their pointers are. -/
theorem getExpired_eq (s : State) (now : ℤ) (e : Entry) :
    e ∈ getExpired s now ↔ e ∈ s.timers ∧ e < entry (now + 1) 0 := by
  rw [getExpired, Finset.mem_sort, Finset.mem_filter]

/-- **The batch is what has expired**: the entry that the search is bounded by has the time
behind now and the least pointer, so it stands behind every timer that is due. -/
theorem lt_entry_iff (e : Entry) (now : ℤ) : e < entry (now + 1) 0 ↔ e.when ≤ now := by
  change toLex (e.when, e.timer) < toLex (now + 1, 0) ↔ e.when ≤ now
  rw [Prod.Lex.toLex_lt_toLex]
  constructor
  · rintro (h | ⟨-, h⟩)
    · omega
    · exact absurd h (Nat.not_lt_zero _)
  · intro h
    exact .inl (by omega)

end TimerQueue
end BearRpc
