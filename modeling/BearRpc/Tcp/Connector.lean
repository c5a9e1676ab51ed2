/-
# Connecting

`Connector::start` and `Connector::handleWrite`
(`src/RPC/bearTCP/Connector.cc`, lines 41 to 87) on the event loop.

`handleWrite` begins by removing the channel.  From the loop that is as it should
be: the channel was registered by `enableWrite`.  But `start` calls it too, when
`::connect` returns at once, and then the channel was never registered:
`disableAll` goes from no events to none, and the assertion of
`EPoller::updateChannel` fails.  So the outcome is reported as it should be exactly
when `::connect` returns -1 with `EINPROGRESS` (`correct_iff`).

`channel_` is a private member: on its own events other code does nothing to it.
-/

import BearRpc.Tcp.Dispatch

namespace BearRpc

open Theory

def EINPROGRESS : ℤ := 115

namespace Connector

/-- What `::connect` returns. -/
inductive ConnectResult where
  | ok
  | fail (errno : ℤ)
  deriving DecidableEq, Repr

/-- What `::getsockopt(SOL_SOCKET, SO_ERROR)` gives: a value, or -1 with an errno
that is set. -/
inductive SockError where
  | value (err : ℤ)
  | fail (errno : ℤ) (set : errno ≠ 0)

/-- `if (ret == 0) errno = err;` -/
def SockError.errno : SockError → ℤ
  | value err => err
  | fail errno _ => errno

/-- A call of `newConnectionCallback_` or of `errorCallback_`. -/
inductive Report (A : Type) where
  | newConnection (sockfd : ℤ) (localAddr peer : A)
  | error

/-- A connector on its loop; `reports` are the callbacks called so far. -/
structure State (κ A : Type) where
  loop : Dispatch.State κ
  connected : Bool
  started : Bool
  newConnectionCallback : Bool
  errorCallback : Bool
  reports : List (Report A)

/-- A step of the loop, or `handleWrite` called by it, with what `::getsockopt` and
`::getsockname` give. -/
inductive Label (κ A : Type) where
  | loop (l : Dispatch.Label κ)
  | write (so : SockError) (localAddr : A)

variable {κ A : Type} [DecidableEq κ] (c : κ) (peer : A)

/-- The end of `handleWrite`, behind the removal of the channel. -/
def report (s : State κ A) (so : SockError) (localAddr : A) : State κ A :=
  if so.errno ≠ 0 then
    if s.errorCallback then { s with reports := s.reports ++ [.error] } else s
  else if s.newConnectionCallback then
    { s with
      connected := true
      reports := s.reports ++ [.newConnection (s.loop.poller.channel c).fd localAddr peer] }
  else s

/-- `Connector::handleWrite`, `none` for a failed assertion. -/
def handleWrite (s : State κ A) (so : SockError) (localAddr : A) : Option (State κ A) :=
  if s.started = false then none
  else
    (s.loop.poller.removeChannel c).map fun poller =>
      report c peer { s with loop := { s.loop with poller := poller } } so localAddr

/-- `Connector::start`, `none` for a failed assertion. -/
def start (s : State κ A) (r : ConnectResult) (so : SockError) (localAddr : A) :
    Option (State κ A) :=
  if s.started then none
  else
    let s := { s with started := true }
    match r with
    | .fail errno =>
      if errno ≠ EINPROGRESS then handleWrite c peer s so localAddr
      else
        (s.loop.poller.enableWrite c).map fun poller =>
          { s with loop := { s.loop with poller := poller } }
    | .ok => handleWrite c peer s so localAddr

/-- The steps behind `start()`. -/
inductive Step : State κ A → Label κ A → State κ A → Prop
  /-- other code does nothing to `channel_` -/
  | loop {s l loop} : Dispatch.Step s.loop l loop → l ≠ .invoke c .write →
      (∀ m, l ≠ .call c m) →
      (loop.poller.channel c).tied = (s.loop.poller.channel c).tied →
      (loop.poller.channel c).isSet = (s.loop.poller.channel c).isSet →
      Step s (.loop l) { s with loop := loop }
  | write {s loop so localAddr t} : Dispatch.Step s.loop (.invoke c .write) loop →
      handleWrite c peer { s with loop := loop } so localAddr = some t →
      Step s (.write so localAddr) t

/-- A connector just constructed, its callbacks set. -/
structure Fresh (s : State κ A) : Prop where
  synced : s.loop.poller.Synced
  orderly : s.loop.point.Orderly
  channel : s.loop.poller.channel c =
    { Channel.init (s.loop.poller.channel c).fd with isSet := fun cb => cb == .write }
  not_in_batch : ∀ cb, ¬ s.loop.point.Turn c cb
  connected : s.connected = false
  started : s.started = false
  callbacks : s.newConnectionCallback = true ∧ s.errorCallback = true
  reports : s.reports = []

/-! ### What a connector should do -/

/-- The connect succeeded: at once, or later, as `SO_ERROR` tells. -/
def Succeeded : ConnectResult → SockError → Prop
  | .ok, _ => True
  | .fail errno, .value err => errno = EINPROGRESS ∧ err = 0
  | .fail _, .fail _ _ => False

/-- A poll has returned the channel as writable. -/
def Served (ls : List (Label κ A)) : Prop :=
  ∃ events rev, .loop (.poll events) ∈ ls ∧ (c, rev) ∈ events ∧ rev.Has EPOLLOUT

/-- The calls of `handleWrite` by the loop. -/
def writes (ls : List (Label κ A)) : List (SockError × A) :=
  ls.filterMap fun
    | .write so localAddr => some (so, localAddr)
    | .loop _ => none

/-- Every call of `handleWrite`; `start` makes one unless the connect is in
progress. -/
def handled (r : ConnectResult) (so : SockError) (localAddr : A) (ls : List (Label κ A)) :
    List (SockError × A) :=
  if r = .fail EINPROGRESS then writes ls else (so, localAddr) :: writes ls

/-- **The outcome is reported once and correctly**, or not yet: then the channel
has not been returned as writable, or its callback is due. -/
inductive Outcome (r : ConnectResult) (s : State κ A) (ls : List (Label κ A))
    (calls : List (SockError × A)) : Prop
  | pending (none : calls = []) (quiet : s.reports = []) (connected : s.connected = false)
      (due : Served c ls → s.loop.Due c .write)
  | connected {so : SockError} {localAddr : A} (once : calls = [(so, localAddr)])
      (succeeded : Succeeded r so) (connected : s.connected = true)
      (reported : s.reports = [.newConnection (s.loop.poller.channel c).fd localAddr peer])
      (removed : ¬ s.loop.poller.Registered c)
  | failed {so : SockError} {localAddr : A} (once : calls = [(so, localAddr)])
      (failed : ¬ Succeeded r so) (connected : s.connected = false)
      (reported : s.reports = [.error]) (removed : ¬ s.loop.poller.Registered c)

/-- **The connector is correct** where `::connect` returns `r`: no assertion fails,
in `start` or later, and in every run the outcome is reported once and correctly. -/
structure Correct (r : ConnectResult) (s₀ : State κ A) : Prop where
  starts : ∀ so localAddr, ∃ s₁, start c peer s₀ r so localAddr = some s₁
  continues : ∀ so localAddr s₁ ls s loop, start c peer s₀ r so localAddr = some s₁ →
    Run (Step c peer) s₁ ls s → Dispatch.Step s.loop (.invoke c .write) loop →
    ∀ so' localAddr', ∃ t, handleWrite c peer { s with loop := loop } so' localAddr' = some t
  outcome : ∀ so localAddr s₁ ls s, start c peer s₀ r so localAddr = some s₁ →
    Run (Step c peer) s₁ ls s → Outcome c peer r s ls (handled r so localAddr ls)

open EPoller

variable {c peer} {s s₀ t : State κ A} {r : ConnectResult} {so : SockError} {localAddr : A}
  {ls : List (Label κ A)}

/-! ### One call -/

/-- What `handleWrite` leaves of a connector that had not reported. -/
def reported (c : κ) (peer : A) (s : State κ A) (so : SockError) (localAddr : A) : State κ A :=
  { s with
    loop := { s.loop with poller := s.loop.poller.put c 0 }
    connected := decide (so.errno = 0)
    reports := s.reports ++ [if so.errno = 0 then
      .newConnection (s.loop.poller.channel c).fd localAddr peer else .error] }

/-- `handleWrite` on a channel that is registered. -/
theorem handleWrite_of_on (hsync : s.loop.poller.Synced) (hstarted : s.started = true)
    (hcallbacks : s.newConnectionCallback = true ∧ s.errorCallback = true)
    (hconnected : s.connected = false) (hon : (s.loop.poller.channel c).events ≠ 0)
    (so : SockError) (localAddr : A) :
    handleWrite c peer s so localAddr = some (reported c peer s so localAddr) := by
  rw [handleWrite, if_neg (by simp [hstarted]), hsync.removeChannel hon, Option.map_some,
    Option.some.injEq]
  by_cases herrno : so.errno = 0
  · simp [report, reported, herrno, hcallbacks.1]
  · simp [report, reported, herrno, hcallbacks.2, hconnected]

/-- **`handleWrite` on a channel that was never registered** fails an assertion: it removes
the channel before it looks at the outcome. -/
theorem handleWrite_of_off (hsync : s.loop.poller.Synced)
    (hoff : (s.loop.poller.channel c).events = 0) (so : SockError) (localAddr : A) :
    handleWrite c peer s so localAddr = none := by
  rw [handleWrite, hsync.removeChannel_of_off hoff]
  split <;> rfl

omit [DecidableEq κ] in
/-- The channel of a new connector asks for nothing yet. -/
theorem Fresh.off (h₀ : Fresh c s) : (s.loop.poller.channel c).events = 0 := by
  rw [h₀.channel]
  rfl

/-- Whatever `::connect` returns at once, `start` fails an assertion. -/
theorem start_of_immediate (h₀ : Fresh c s₀) (hr : r ≠ .fail EINPROGRESS) (so : SockError)
    (localAddr : A) : start c peer s₀ r so localAddr = none := by
  have hsync : ({ s₀ with started := true } : State κ A).loop.poller.Synced := h₀.synced
  rw [start, if_neg (by simp [h₀.started])]
  cases r with
  | ok => exact handleWrite_of_off hsync h₀.off so localAddr
  | fail errno =>
    have hne : errno ≠ EINPROGRESS := fun h => hr (by rw [h])
    dsimp only
    rw [if_pos hne]
    exact handleWrite_of_off hsync h₀.off so localAddr

/-- The connect is in progress: the channel is registered for writing. -/
theorem start_of_inProgress (h₀ : Fresh c s₀) (so : SockError) (localAddr : A) :
    start c peer s₀ (.fail EINPROGRESS) so localAddr =
      some { s₀ with
        started := true
        loop := { s₀.loop with poller := s₀.loop.poller.put c EPOLLOUT } } := by
  have henable : s₀.loop.poller.enableWrite c = some (s₀.loop.poller.put c EPOLLOUT) :=
    h₀.synced.mutate_or h₀.off (by decide)
  rw [start, if_neg (by simp [h₀.started])]
  simp only [ne_eq, not_true_eq_false, if_false, henable, Option.map_some]

/-! ### The run -/

/-- What holds of the connector after `start`. -/
structure Started (c : κ) (s : State κ A) : Prop where
  synced : s.loop.poller.Synced
  orderly : s.loop.point.Orderly
  started : s.started = true
  untied : (s.loop.poller.channel c).tied = false
  isSet : (s.loop.poller.channel c).isSet .write = true
  callbacks : s.newConnectionCallback = true ∧ s.errorCallback = true

/-- **Where the connector is**: the connect is in progress, or its outcome has been
reported and the channel is gone from the list and from the batch. -/
inductive Phase (c : κ) (peer : A) (s : State κ A) (ls : List (Label κ A)) : Prop
  | connecting (none : writes ls = []) (on : (s.loop.poller.channel c).events ≠ 0)
      (connected : s.connected = false) (reports : s.reports = [])
      (due : Served c ls → s.loop.Due c .write)
  | done {so : SockError} {localAddr : A} (once : writes ls = [(so, localAddr)])
      (off : (s.loop.poller.channel c).events = 0) (gone : ∀ cb, ¬ s.loop.point.Turn c cb)
      (connected : s.connected = decide (so.errno = 0))
      (reports : s.reports = [if so.errno = 0 then
        .newConnection (s.loop.poller.channel c).fd localAddr peer else .error])

variable {l : Dispatch.Label κ} {lp : Dispatch.State κ}

/-- A step of the loop that leaves the callbacks of the channel alone leaves a connector
that was started. -/
theorem Started.loop (h : Started c s) (hstep : Dispatch.Step s.loop l lp)
    (htied : (lp.poller.channel c).tied = (s.loop.poller.channel c).tied)
    (hset : (lp.poller.channel c).isSet = (s.loop.poller.channel c).isSet) :
    Started c { s with loop := lp } := by
  refine ⟨(hstep.effect h.synced).synced h.synced, hstep.orderly h.orderly, h.started, ?_, ?_,
    h.callbacks⟩
  · exact htied.trans h.untied
  · rw [← h.isSet]
    exact congrFun hset .write

omit [DecidableEq κ] in
/-- A step of the loop is no call of `handleWrite`. -/
theorem writes_loop (ls : List (Label κ A)) (l : Dispatch.Label κ) :
    writes (ls ++ [.loop l]) = writes ls := by
  simp [writes]

omit [DecidableEq κ] in
/-- A call of `handleWrite` is the last so far. -/
theorem writes_write (ls : List (Label κ A)) (so : SockError) (localAddr : A) :
    writes (ls ++ [.write so localAddr]) = writes ls ++ [(so, localAddr)] := by
  simp [writes]

/-- **A poll that returns the channel as writable makes its callback due**, and due it
stays, whatever the other channels of the loop do, until it is invoked. -/
theorem due_of_served (h : Started c s) (hstep : Dispatch.Step s.loop l lp)
    (hl : l ≠ .invoke c .write) (due : Served c ls → s.loop.Due c .write)
    (hserved : Served c (ls ++ [.loop l])) : lp.Due c .write := by
  obtain ⟨events, rev, hmem, hrev, hout⟩ := hserved
  rcases List.mem_append.1 hmem with hmem | hmem
  · exact hstep.due h.synced (due ⟨events, rev, hmem, hrev, hout⟩) h.untied h.isSet hl
  · have hl : l = .poll events := by
      have heq := List.mem_singleton.1 hmem
      cases heq
      rfl
    subst hl
    cases hstep with
    | poll _ _ _ hnd =>
      refine ⟨List.mem_map.2 ⟨_, hrev, rfl⟩, ?_⟩
      rw [Channel.selects, Dispatch.revents_setRevents hnd hrev, decide_eq_true_iff]
      exact hout

/-- A step of the loop. -/
theorem Phase.loop (h : Started c s) (hphase : Phase c peer s ls)
    (hstep : Dispatch.Step s.loop l lp) (hl : l ≠ .invoke c .write)
    (hcall : ∀ m, l ≠ .call c m) : Phase c peer { s with loop := lp } (ls ++ [.loop l]) := by
  have heff := hstep.effect h.synced
  obtain ⟨hfd, hevents⟩ := heff.frame hcall
  cases hphase with
  | connecting none on connected reports due =>
    refine .connecting ((writes_loop ls l).trans none) ?_ connected reports ?_
    · exact fun hoff => on (hevents ▸ hoff)
    · exact due_of_served h hstep hl due
  | done once off gone connected reports =>
    refine .done ((writes_loop ls l).trans once) (hevents.trans off) ?_ connected ?_
    · exact heff.not_turn h.synced off gone
    · rw [reports, hfd]

/-- **The loop calls `handleWrite`**, once: the channel is removed, the outcome is reported
to one of the two callbacks, and behind that the channel is never due again. -/
theorem Phase.write (h : Started c s) (hphase : Phase c peer s ls)
    (hstep : Dispatch.Step s.loop (.invoke c .write) lp) (so : SockError) (localAddr : A) :
    ∃ t, handleWrite c peer { s with loop := lp } so localAddr = some t ∧ Started c t ∧
      Phase c peer t (ls ++ [.write so localAddr]) := by
  cases hphase with
  | done once off gone connected reports =>
    exact absurd (Dispatch.due_of_invoke hstep).turn (gone .write)
  | connecting none on connected reports due =>
    have hpoller : lp.poller = s.loop.poller := Dispatch.invoke_poller hstep
    have h' : Started c { s with loop := lp } :=
      h.loop hstep (by rw [hpoller]) (by rw [hpoller])
    have hon : (lp.poller.channel c).events ≠ 0 := by rwa [hpoller]
    have hgone : ∀ cb, ¬ lp.point.Turn c cb := fun cb =>
      Dispatch.turn_of_invoke_write h.orderly hstep
    refine ⟨_, handleWrite_of_on h'.synced h'.started h'.callbacks connected hon so localAddr,
      ⟨h'.synced.put c 0, h'.orderly, h'.started, ?_, ?_, h'.callbacks⟩, ?_⟩
    · exact (congrArg Channel.tied (put_channel_self lp.poller c 0)).trans h'.untied
    · exact (congrArg (Channel.isSet · .write) (put_channel_self lp.poller c 0)).trans h'.isSet
    · have honce : writes (ls ++ [.write so localAddr]) = [(so, localAddr)] := by
        rw [writes_write, none, List.nil_append]
      refine .done honce ?_ ?_ rfl ?_
      · exact congrArg Channel.events (put_channel_self lp.poller c 0)
      · exact hgone
      · simp only [reported, reports, List.nil_append, put_fd]

/-- **The run behind a connect in progress**: in every state of it the connector either
waits, with its channel registered for writing, or has reported the outcome and is done. -/
theorem phase_run {s₁ : State κ A} (h₀ : Fresh c s₀)
    (hstart : start c peer s₀ (.fail EINPROGRESS) so localAddr = some s₁)
    (hrun : Run (Step c peer) s₁ ls s) : Started c s ∧ Phase c peer s ls := by
  rw [start_of_inProgress h₀, Option.some.injEq] at hstart
  subst hstart
  induction hrun with
  | nil =>
    have hput := put_channel_self s₀.loop.poller c EPOLLOUT
    refine ⟨⟨h₀.synced.put c _, h₀.orderly, rfl, ?_, ?_, h₀.callbacks⟩,
      .connecting rfl ?_ h₀.connected h₀.reports ?_⟩
    · rw [hput, h₀.channel]
      rfl
    · rw [hput, h₀.channel]
      rfl
    · rw [hput]
      exact (by decide : EPOLLOUT ≠ 0)
    · rintro ⟨_, _, hmem, -⟩
      cases hmem
  | snoc _ hstep ih =>
    obtain ⟨h, hphase⟩ := ih
    cases hstep with
    | loop hstep hl hcall htied hset =>
      exact ⟨h.loop hstep htied hset, hphase.loop h hstep hl hcall⟩
    | write hstep hwrite =>
      obtain ⟨t, ht, hgood⟩ := hphase.write h hstep _ _
      rw [ht, Option.some.injEq] at hwrite
      exact hwrite ▸ hgood

/-- A connection in progress has succeeded if the error of its socket is 0. -/
theorem succeeded_iff (so : SockError) : Succeeded (.fail EINPROGRESS) so ↔ so.errno = 0 := by
  cases so with
  | value err => exact and_iff_right rfl
  | fail errno set => exact iff_of_false id set

omit [DecidableEq κ] in
/-- **Where a connector stands tells how its connection came out**, for the calls of
`handleWrite` made so far. -/
theorem Phase.outcome (h : Started c s) (hphase : Phase c peer s ls) :
    Outcome c peer (.fail EINPROGRESS) s ls (writes ls) := by
  cases hphase with
  | connecting none on connected reports due => exact .pending none reports connected due
  | @done so localAddr once off gone connected reports =>
    have hremoved : ¬ s.loop.poller.Registered c := fun hreg =>
      (h.synced.registered_iff c).1 hreg off
    by_cases herrno : so.errno = 0
    · refine .connected once ((succeeded_iff so).2 herrno) ?_ ?_ hremoved
      · rw [connected, decide_eq_true_iff]
        exact herrno
      · rw [reports, if_pos herrno]
    · refine .failed once (fun hs => herrno ((succeeded_iff so).1 hs)) ?_ ?_ hremoved
      · rw [connected, decide_eq_false_iff_not]
        exact herrno
      · rw [reports, if_neg herrno]

/-- **When the connector is correct.** For every result of `::connect` and every later run
of the loop, no assertion fails and the outcome is reported once and correctly, if and only
if the connect is in progress when `::connect` returns: where it succeeds or fails at once,
`start` calls `handleWrite` itself, which removes a channel that was never added. -/
theorem correct_iff (h₀ : Fresh c s₀) (peer : A) (r : ConnectResult) :
    Correct c peer r s₀ ↔ r = .fail EINPROGRESS := by
  constructor
  · intro h
    by_contra hr
    obtain ⟨s₁, hs₁⟩ := h.starts (.value 0) peer
    rw [start_of_immediate h₀ hr] at hs₁
    cases hs₁
  · rintro rfl
    refine ⟨fun so localAddr => ⟨_, start_of_inProgress h₀ so localAddr⟩, ?_, ?_⟩
    · intro so localAddr s₁ ls s lp hstart hrun hstep so' localAddr'
      obtain ⟨h, hphase⟩ := phase_run h₀ hstart hrun
      obtain ⟨t, ht, -⟩ := hphase.write h hstep so' localAddr'
      exact ⟨t, ht⟩
    · intro so localAddr s₁ ls s hstart hrun
      obtain ⟨h, hphase⟩ := phase_run h₀ hstart hrun
      rw [handled, if_pos rfl]
      exact hphase.outcome h

/-- A connector on a loop of its own, before `loop()`. -/
def oneConnector : State Unit Unit where
  loop :=
    { poller :=
        { channel := fun _ => { Channel.init 5 with isSet := fun cb => cb == .write }
          interest := fun _ => none }
      expired := fun _ => false
      point := .outside }
  connected := false
  started := false
  newConnectionCallback := true
  errorCallback := true
  reports := []

/-- A loop with one connector on it, just constructed. -/
theorem fresh_oneConnector : Fresh () oneConnector :=
  ⟨⟨fun _ _ _ => rfl, fun _ => rfl, fun _ => rfl⟩, trivial, rfl, fun _ h => h, rfl, rfl,
    ⟨rfl, rfl⟩, rfl⟩

/-- The hypothesis of `correct_iff` is satisfiable: a loop with one connector on it, just
constructed, whose connect is in progress. -/
theorem correct_iff_oneConnector : Fresh () oneConnector ∧
    (Correct () () (.fail EINPROGRESS) oneConnector ↔
      ConnectResult.fail EINPROGRESS = .fail EINPROGRESS) :=
  ⟨fresh_oneConnector, correct_iff fresh_oneConnector () (.fail EINPROGRESS)⟩

/-- **A connect that succeeds at once** fails an assertion: `handleWrite` disables a channel
that has no events, which `updateChannel` does not allow. -/
theorem not_correct_ok : ¬ Correct () () .ok oneConnector := by
  intro h
  obtain ⟨s₁, hs₁⟩ := h.starts (.value 0) ()
  cases hs₁

end Connector
end BearRpc
