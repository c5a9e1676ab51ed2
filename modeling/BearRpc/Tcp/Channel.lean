/-
# Channels and the poller

`Channel` (`src/RPC/bearTCP/Channel.h` and `Channel.cc`) and
`EPoller::updateChannel` (`EPoller.cc`, lines 44 to 71) over the interest list that
the kernel keeps for `epollfd_`.

A channel knows its registration twice, in `events_` and in `polling`, and the
kernel a third time.  `Synced` says that the three agree.  From a state in which
they do, a change of `events_` fails the assertion of `updateChannel` if it goes
from no events to none, and else puts the new mask in all three places
(`Synced.mutate`).

`::epoll_ctl` is modelled with the two errors that depend on the list, `EEXIST` and
`ENOENT`; the code logs an error and goes on.
-/

import Mathlib.Logic.Function.Basic
import Mathlib.Data.BitVec

namespace BearRpc

open Function

/-- `unsigned events_` and `uint32_t events` -/
abbrev Mask := BitVec 32

def EPOLLIN : Mask := 0x001
def EPOLLPRI : Mask := 0x002
def EPOLLOUT : Mask := 0x004
def EPOLLERR : Mask := 0x008
def EPOLLHUP : Mask := 0x010
def EPOLLRDHUP : Mask := 0x2000

/-- `mask & bits`, as a condition. -/
def Mask.Has (mask bits : Mask) : Prop := mask &&& bits ≠ 0

instance (mask bits : Mask) : Decidable (mask.Has bits) := inferInstanceAs (Decidable (_ ≠ _))

/-- The callbacks of a channel. -/
inductive Callback where
  | close
  | error
  | read
  | write
  deriving DecidableEq, Repr

/-- `class Channel` -/
structure Channel where
  fd : ℤ
  polling : Bool
  tied : Bool
  events : Mask
  revents : Mask
  handlingEvents : Bool
  /-- the callbacks that are set -/
  isSet : Callback → Bool

/-- `Channel::Channel` -/
def Channel.init (fd : ℤ) : Channel := ⟨fd, false, false, 0, 0, false, fun _ => false⟩

/-- `isNoneEvents()` -/
def Channel.isNoneEvents (channel : Channel) : Bool := channel.events == 0

/-- `struct epoll_event` -/
structure EpollEvent (κ : Type) where
  events : Mask
  ptr : κ

/-- The interest list of `epollfd_`, by descriptor. -/
abbrev InterestList (κ : Type) := ℤ → Option (EpollEvent κ)

/-- The channels by address, and what the kernel has of them. -/
structure EPoller (κ : Type) where
  channel : κ → Channel
  interest : InterestList κ

/-- `EPOLL_CTL_ADD`, `EPOLL_CTL_MOD` and `EPOLL_CTL_DEL` -/
inductive EpollOp where
  | add
  | mod
  | del
  deriving DecidableEq, Repr

variable {κ : Type} [DecidableEq κ]

/-- `::epoll_ctl(epollfd_, op, fd, &ee)`, `none` for -1: what is added must not be
in the list, what is modified or deleted must be. -/
def epollCtl (interest : InterestList κ) (op : EpollOp) (fd : ℤ) (ee : EpollEvent κ) :
    Option (InterestList κ) :=
  match op, interest fd with
  | .add, none => some (update interest fd (some ee))
  | .mod, some _ => some (update interest fd (some ee))
  | .del, some _ => some (update interest fd none)
  | _, _ => none

namespace EPoller

/-- An assignment to members of the channel. -/
def setChannel (s : EPoller κ) (c : κ) (f : Channel → Channel) : EPoller κ :=
  { s with channel := update s.channel c (f (s.channel c)) }

/-- `EPoller::updateChannel(op, channel)`: an error is logged. -/
def control (s : EPoller κ) (op : EpollOp) (c : κ) : EPoller κ :=
  match epollCtl s.interest op (s.channel c).fd ⟨(s.channel c).events, c⟩ with
  | some interest => { s with interest := interest }
  | none => s

/-- `EPoller::updateChannel(channel)`, `none` for the failed assertion. -/
def updateChannel (s : EPoller κ) (c : κ) : Option (EPoller κ) :=
  if (s.channel c).polling = false then
    if (s.channel c).isNoneEvents then none
    else some ((s.setChannel c fun channel => { channel with polling := true }).control .add c)
  else if (s.channel c).isNoneEvents = false then
    some (s.control .mod c)
  else
    some ((s.setChannel c fun channel => { channel with polling := false }).control .del c)

/-- A change of `events_`, and `update()`. -/
def mutate (f : Mask → Mask) (s : EPoller κ) (c : κ) : Option (EPoller κ) :=
  (s.setChannel c fun channel => { channel with events := f channel.events }).updateChannel c

/-- `channel.enableRead()` -/
def enableRead : EPoller κ → κ → Option (EPoller κ) :=
  mutate fun events => events ||| (EPOLLIN ||| EPOLLPRI)

/-- `channel.enableWrite()` -/
def enableWrite : EPoller κ → κ → Option (EPoller κ) := mutate fun events => events ||| EPOLLOUT

/-- `channel.disableRead()` -/
def disableRead : EPoller κ → κ → Option (EPoller κ) := mutate fun events => events &&& ~~~EPOLLIN

/-- `channel.disableWrite()` -/
def disableWrite : EPoller κ → κ → Option (EPoller κ) := mutate fun events => events &&& ~~~EPOLLOUT

/-- `channel.disableAll()` -/
def disableAll : EPoller κ → κ → Option (EPoller κ) := mutate fun _ => 0

/-- `EventLoop::removeChannel(channel)` -/
def removeChannel : EPoller κ → κ → Option (EPoller κ) := disableAll

/-- **The channels and the kernel agree**, and no two channels share a descriptor. -/
structure Synced (s : EPoller κ) : Prop where
  distinct : Injective fun c => (s.channel c).fd
  polling : ∀ c, (s.channel c).polling = decide ((s.channel c).events ≠ 0)
  interest : ∀ c, s.interest (s.channel c).fd =
    if (s.channel c).events = 0 then none else some ⟨(s.channel c).events, c⟩

/-- The mask `m` for the channel `c`, in all three places. -/
def put (s : EPoller κ) (c : κ) (m : Mask) : EPoller κ where
  channel := update s.channel c { s.channel c with events := m, polling := decide (m ≠ 0) }
  interest := update s.interest (s.channel c).fd (if m = 0 then none else some ⟨m, c⟩)

variable {s s' : EPoller κ} {c d : κ} {m : Mask} {f : Mask → Mask}

/-- A change of the events a channel asks for does not change its descriptor. -/
@[simp] theorem put_fd (s : EPoller κ) (c d : κ) (m : Mask) :
    ((s.put c m).channel d).fd = (s.channel d).fd := by
  by_cases h : d = c
  · subst h
    simp [put]
  · simp [put, h]

/-- The channel then has these events, and is polled exactly if there are any. -/
theorem put_channel_self (s : EPoller κ) (c : κ) (m : Mask) :
    (s.put c m).channel c = { s.channel c with events := m, polling := decide (m ≠ 0) } :=
  update_self ..

/-- The other channels stay as they are. -/
theorem put_channel_of_ne (s : EPoller κ) (m : Mask) (h : d ≠ c) :
    (s.put c m).channel d = s.channel d :=
  update_of_ne h _ _

/-- The kernel then has the descriptor registered for these events, or not at all where
there are none. -/
theorem put_interest_self (s : EPoller κ) (c : κ) (m : Mask) :
    (s.put c m).interest (s.channel c).fd = if m = 0 then none else some ⟨m, c⟩ :=
  update_self ..

/-- The descriptors of the others keep their registration. -/
theorem Synced.put_interest_of_ne (h : Synced s) (m : Mask) (hd : d ≠ c) :
    (s.put c m).interest (s.channel d).fd = s.interest (s.channel d).fd :=
  update_of_ne (fun hfd => hd (h.distinct hfd)) _ _

/-- **A change of the events keeps the kernel in step** with the channels: `updateChannel`
makes the call of `epoll_ctl` that the change asks for. -/
theorem Synced.put (h : Synced s) (c : κ) (m : Mask) : Synced (s.put c m) := by
  refine ⟨?_, fun d => ?_, fun d => ?_⟩
  · simpa only [put_fd] using h.distinct
  · by_cases hd : d = c
    · rw [hd, put_channel_self]
    · rw [put_channel_of_ne s m hd]
      exact h.polling d
  · rw [put_fd]
    by_cases hd : d = c
    · rw [hd, put_channel_self, put_interest_self]
    · rw [put_channel_of_ne s m hd, h.put_interest_of_ne m hd]
      exact h.interest d

/-- `update()`, after the assignment to `events_` that left `m`. -/
theorem Synced.updateChannel (h : Synced s) (c : κ) (m : Mask) :
    (s.setChannel c fun channel => { channel with events := m }).updateChannel c =
      if (s.channel c).events = 0 ∧ m = 0 then none else some (s.put c m) := by
  have hpolling := h.polling c
  have hinterest := h.interest c
  by_cases he : (s.channel c).events = 0
  · rw [if_pos he] at hinterest
    replace he : (s.channel c).events = 0#32 := he
    by_cases hm : m = 0#32
    · simp [EPoller.updateChannel, setChannel, Channel.isNoneEvents, hpolling, he, hm]
    · simp [EPoller.updateChannel, setChannel, control, epollCtl, Channel.isNoneEvents, EPoller.put,
        hpolling, hinterest, he, hm]
  · rw [if_neg he] at hinterest
    replace he : (s.channel c).events ≠ 0#32 := he
    by_cases hm : m = 0#32
    · simp [EPoller.updateChannel, setChannel, control, epollCtl, Channel.isNoneEvents, EPoller.put,
        hpolling, hinterest, he, hm]
    · simp [EPoller.updateChannel, setChannel, control, epollCtl, Channel.isNoneEvents, EPoller.put,
        hpolling, hinterest, he, hm]

/-- **What a change of `events_` does**, where poller and kernel are in step: the mask is
set and passed on to `epoll_ctl`, or an assertion fails, which is the case if the channel
asked for nothing and still does. -/
theorem Synced.mutate (h : Synced s) (f : Mask → Mask) (c : κ) :
    s.mutate f c = if (s.channel c).events = 0 ∧ f (s.channel c).events = 0 then none
      else some (s.put c (f (s.channel c).events)) :=
  h.updateChannel c (f (s.channel c).events)

/-- A channel that was off is switched on. -/
theorem Synced.mutate_or (h : Synced s) (hoff : (s.channel c).events = 0) (hm : m ≠ 0) :
    s.mutate (fun events => events ||| m) c = some (s.put c m) := by
  have hor : (0 : Mask) ||| m = m := BitVec.zero_or
  rw [h.mutate, hoff, hor, if_neg fun hand => hm hand.2]

/-- A channel that is on is removed. -/
theorem Synced.removeChannel (h : Synced s) (hon : (s.channel c).events ≠ 0) :
    s.removeChannel c = some (s.put c 0) := by
  rw [EPoller.removeChannel, disableAll, h.mutate, if_neg fun hand => hon hand.1]

/-- **A channel that is off cannot be removed**: `removeChannel` calls `disableAll`, and
`updateChannel` has an assertion that a channel it is given is not without events before and
after. -/
theorem Synced.removeChannel_of_off (h : Synced s) (hoff : (s.channel c).events = 0) :
    s.removeChannel c = none := by
  rw [EPoller.removeChannel, disableAll, h.mutate, if_pos ⟨hoff, rfl⟩]

/-- The same registrations: other members of channels may differ. -/
structure Alike (s t : EPoller κ) : Prop where
  interest : t.interest = s.interest
  fd : ∀ c, (t.channel c).fd = (s.channel c).fd
  polling : ∀ c, (t.channel c).polling = (s.channel c).polling
  events : ∀ c, (t.channel c).events = (s.channel c).events

omit [DecidableEq κ] in
/-- A poller is like itself. -/
theorem Alike.refl (s : EPoller κ) : Alike s s :=
  ⟨rfl, fun _ => rfl, fun _ => rfl, fun _ => rfl⟩

omit [DecidableEq κ] in
/-- Whether the kernel is in step depends on what two pollers that are alike have in common.
-/
theorem Alike.synced (h : Alike s s') (hsync : Synced s) : Synced s' := by
  refine ⟨?_, fun c => ?_, fun c => ?_⟩
  · simpa only [h.fd] using hsync.distinct
  · rw [h.polling, h.events]
    exact hsync.polling c
  · rw [h.interest, h.fd, h.events]
    exact hsync.interest c

/-- Writing a field of one channel leaves the others as they are. -/
theorem setChannel_of_ne (s : EPoller κ) (f : Channel → Channel) (h : d ≠ c) :
    (s.setChannel c f).channel d = s.channel d :=
  update_of_ne h _ _

/-- The channel itself has the field that was written. -/
theorem setChannel_self (s : EPoller κ) (c : κ) (f : Channel → Channel) :
    (s.setChannel c f).channel c = f (s.channel c) :=
  update_self ..

/-- An assignment to members that are not about the registration. -/
theorem alike_setChannel (s : EPoller κ) (c : κ) {f : Channel → Channel}
    (hf : ∀ ch, (f ch).fd = ch.fd ∧ (f ch).polling = ch.polling ∧ (f ch).events = ch.events) :
    Alike s (s.setChannel c f) := by
  have hall (d : κ) : ((s.setChannel c f).channel d).fd = (s.channel d).fd ∧
      ((s.setChannel c f).channel d).polling = (s.channel d).polling ∧
      ((s.setChannel c f).channel d).events = (s.channel d).events := by
    by_cases hd : d = c
    · rw [hd, setChannel_self]
      exact hf _
    · rw [setChannel_of_ne s f hd]
      exact ⟨rfl, rfl, rfl⟩
  exact ⟨rfl, fun d => (hall d).1, fun d => (hall d).2.1, fun d => (hall d).2.2⟩

omit [DecidableEq κ] in
/-- Two pollers that are like a third are alike, so runs of steps that change nothing that
counts can be put together. -/
theorem Alike.trans {t : EPoller κ} (h : Alike s s') (h' : Alike s' t) : Alike s t :=
  ⟨h'.interest.trans h.interest, fun c => (h'.fd c).trans (h.fd c),
    fun c => (h'.polling c).trans (h.polling c), fun c => (h'.events c).trans (h.events c)⟩

end EPoller
end BearRpc
