/-
# Dispatching a batch of events

`EventLoop::loop` (`Eventloop.cc`, lines 62 to 75) from the side of the channels:
`EPoller::poll` (`EPoller.cc`, lines 24 to 42) collects `activeChannels_`, and
`Channel::handleEvents` with `handleEventsWithGuard` (`Channel.cc`, lines 21 to 56)
goes through the callbacks of each.

Code of the user runs before `loop()`, in the callbacks and in the pending tasks.  It
calls whatever it likes on any channel: it switches events on and off, removes
channels, sets callbacks, ties channels to owners and lets owners go (`expired`).
`removeChannel` is `disableAll`, so both are the one label.  The rest of the loop is
the subject of `BearRpc.Tcp.EventLoop`.

Nothing in the loop asks whether a channel of the batch is still registered.  So a
removed channel still gets the callbacks that are `Due` in the batch at hand, and no
others before it is switched on and polled again (`removed_silent`).
-/

import BearRpc.Tcp.Interest

namespace BearRpc

open Theory

/-- The tests of `handleEventsWithGuard` on `revents_`. -/
def Channel.selects (channel : Channel) : Callback → Bool
  | .close => channel.revents.Has EPOLLHUP ∧ ¬ channel.revents.Has EPOLLIN
  | .error => channel.revents.Has EPOLLERR
  | .read => channel.revents.Has (EPOLLIN ||| EPOLLPRI ||| EPOLLRDHUP)
  | .write => channel.revents.Has EPOLLOUT

/-- Which callbacks a channel selects depends on `revents_` alone, so it does not change
while the others are switched on or off. -/
theorem Channel.selects_congr {channel channel' : Channel} (h : channel.revents = channel'.revents)
    (cb : Callback) : channel.selects cb = channel'.selects cb := by
  cases cb <;> simp only [selects, h]

/-- The order of the tests. -/
def Callback.tests : List Callback := [.close, .error, .read, .write]

/-- `handleEvents` tests for every callback there is. -/
theorem Callback.mem_tests (cb : Callback) : cb ∈ Callback.tests := by
  cases cb <;> decide

namespace Dispatch

/-- Where the loop thread is. -/
inductive Point (κ : Type) where
  /-- before `loop()`; code of the user -/
  | outside
  /-- in `poller_.poll(activeChannels_)` -/
  | polling
  /-- before `handleEvents()` of the first of the remaining channels -/
  | handling (active : List κ)
  /-- in `handleEventsWithGuard()` of `c`, before the first of the remaining tests -/
  | guarded (c : κ) (tests : List Callback) (active : List κ)
  /-- in a callback of `c`; code of the user -/
  | inCallback (c : κ) (tests : List Callback) (active : List κ)
  /-- in `doPendingTasks()`; code of the user -/
  | tasks

/-- Code of the user runs on the loop thread. -/
def Point.User {κ : Type} : Point κ → Prop
  | .outside | .inCallback .. | .tasks => True
  | _ => False

structure State (κ : Type) where
  poller : EPoller κ
  /-- the owner in `tie_` is gone -/
  expired : κ → Bool
  point : Point κ

/-- What happens in a step. -/
inductive Label (κ : Type) where
  /-- `poll` returns with these channels and their `revents` -/
  | poll (events : List (κ × Mask))
  | invoke (c : κ) (cb : Callback)
  | call (c : κ) (m : Mutator)
  | other

variable {κ : Type} [DecidableEq κ]

/-- `channel->setRevents(events_[i].events)`, for what `epoll_wait` returned. -/
def setRevents (poller : EPoller κ) (events : List (κ × Mask)) : EPoller κ :=
  events.foldl (fun p e => p.setChannel e.1 fun channel => { channel with revents := e.2 }) poller

/-- The steps of the loop thread. -/
inductive Step : State κ → Label κ → State κ → Prop
  | loop {s} : s.point = .outside → Step s .other { s with point := .polling }
  /-- the kernel reports what is in its list, each descriptor once -/
  | poll {s} (events : List (κ × Mask)) : s.point = .polling →
      (∀ e ∈ events, s.poller.Registered e.1) →
      (events.map Prod.fst).Nodup →
      Step s (.poll events)
        { s with
          poller := setRevents s.poller events
          point := .handling (events.map Prod.fst) }
  /-- `tie_.lock()` gives a null pointer -/
  | skip {s c active} : s.point = .handling (c :: active) →
      (s.poller.channel c).tied = true → s.expired c = true →
      Step s .other { s with point := .handling active }
  | enter {s c active} : s.point = .handling (c :: active) →
      ((s.poller.channel c).tied = true → s.expired c = false) →
      Step s .other
        { s with
          poller := s.poller.setChannel c fun channel => { channel with handlingEvents := true }
          point := .guarded c Callback.tests active }
  | pass {s c cb tests active} : s.point = .guarded c (cb :: tests) active →
      ((s.poller.channel c).selects cb && (s.poller.channel c).isSet cb) = false →
      Step s .other { s with point := .guarded c tests active }
  | invoke {s c cb tests active} : s.point = .guarded c (cb :: tests) active →
      ((s.poller.channel c).selects cb && (s.poller.channel c).isSet cb) = true →
      Step s (.invoke c cb) { s with point := .inCallback c tests active }
  | back {s c tests active} : s.point = .inCallback c tests active →
      Step s .other { s with point := .guarded c tests active }
  | leave {s c active} : s.point = .guarded c [] active →
      Step s .other
        { s with
          poller := s.poller.setChannel c fun channel => { channel with handlingEvents := false }
          point := .handling active }
  | doPendingTasks {s} : s.point = .handling [] → Step s .other { s with point := .tasks }
  | iterate {s} : s.point = .tasks → Step s .other { s with point := .polling }
  /-- `while (!quit_)` ends -/
  | quit {s} : s.point = .tasks → Step s .other { s with point := .outside }
  | call {s c m poller} : s.point.User → s.poller.call c m = some poller →
      Step s (.call c m) { s with poller := poller }
  | setCallback {s} (c : κ) (isSet : Callback → Bool) : s.point.User →
      Step s .other
        { s with poller := s.poller.setChannel c fun channel => { channel with isSet := isSet } }
  | tie {s} (c : κ) : s.point.User →
      Step s .other
        { s with
          poller := s.poller.setChannel c fun channel => { channel with tied := true }
          expired := Function.update s.expired c false }
  | expire {s} (c : κ) : s.point.User →
      Step s .other { s with expired := Function.update s.expired c true }

/-- The turn of the callback `cb` of `c` is still to come in the batch. -/
def Point.Turn (point : Point κ) (c : κ) (cb : Callback) : Prop :=
  match point with
  | .handling active => c ∈ active
  | .guarded d tests active | .inCallback d tests active => d = c ∧ cb ∈ tests ∨ c ∈ active
  | _ => False

/-- **The callback `cb` of `c` is due in the batch**: its turn is still to come, and
the `revents_` of the batch select it. -/
structure State.Due (s : State κ) (c : κ) (cb : Callback) : Prop where
  turn : s.point.Turn c cb
  selected : (s.poller.channel c).selects cb = true

/-- After a call that switches the channel on, a poll returns it. -/
def Repolled (c : κ) (ls : List (Label κ)) : Prop :=
  ∃ ls₁ m ls₂ events ls₃, ls = ls₁ ++ .call c m :: (ls₂ ++ .poll events :: ls₃) ∧
    Mutator.disables m = false ∧ c ∈ events.map Prod.fst

/-- The batch at hand is still the same. -/
def NoPoll (ls : List (Label κ)) : Prop := ∀ events, .poll events ∉ ls

/-- A call that switches the channel on. -/
def SwitchedOn (c : κ) (ls : List (Label κ)) : Prop :=
  ∃ ls₁ m ls₂, ls = ls₁ ++ .call c m :: ls₂ ∧ Mutator.disables m = false

/-- The channels and the kernel agree when `loop()` is called. -/
structure Initial (s : State κ) : Prop where
  synced : s.poller.Synced
  outside : s.point = .outside

open EPoller

variable {s t u v s₀ : State κ} {c d : κ} {cb : Callback} {l : Label κ} {ls : List (Label κ)}

/-! ### What a step does -/

/-- `poll` writes `revents_` and nothing else of a channel, so the kernel is as much in step
with the channels as before. -/
theorem alike_setRevents (poller : EPoller κ) (events : List (κ × Mask)) :
    Alike poller (setRevents poller events) := by
  induction events generalizing poller with
  | nil => exact .refl poller
  | cons e events ih =>
    have hset : Alike poller
        (poller.setChannel e.1 fun channel => { channel with revents := e.2 }) :=
      alike_setChannel poller e.1 fun _ => ⟨rfl, rfl, rfl⟩
    exact hset.trans (ih _)

/-- No callback becomes due. -/
structure Later (s t : State κ) : Prop where
  turn : ∀ c cb, t.point.Turn c cb → s.point.Turn c cb
  revents : ∀ c, (t.poller.channel c).revents = (s.poller.channel c).revents

omit [DecidableEq κ] in
/-- A callback that is due later in the loop over the active channels is due now, as the
loop goes forward only. -/
theorem Later.due (h : Later s t) (hdue : t.Due c cb) : s.Due c cb := by
  refine ⟨h.turn c cb hdue.turn, ?_⟩
  rw [← Channel.selects_congr (h.revents c)]
  exact hdue.selected

/-- **What a step does**: a poll brings a new batch of channels that are switched
on, a call changes one registration, and nothing else changes any. -/
inductive Effect (s : State κ) : Label κ → State κ → Prop
  | poll {events : List (κ × Mask)} {t : State κ}
      (registered : ∀ e ∈ events, s.poller.Registered e.1) (alike : Alike s.poller t.poller)
      (point : t.point = .handling (events.map Prod.fst)) :
      Effect s (.poll events) t
  | call {c : κ} {m : Mutator} {t : State κ}
      (put : t.poller = s.poller.put c (Mutator.mask m (s.poller.channel c).events))
      (fires : ¬ ((s.poller.channel c).events = 0 ∧
        Mutator.mask m (s.poller.channel c).events = 0))
      (later : Later s t) : Effect s (.call c m) t
  | other {l : Label κ} {t : State κ} (alike : Alike s.poller t.poller) (later : Later s t)
      (label : l = .other ∨ ∃ c cb, l = .invoke c cb) : Effect s l t

/-- A change of a channel that leaves its `revents_` alone leaves those of all channels
alone. -/
theorem revents_setChannel (poller : EPoller κ) (c d : κ) {f : Channel → Channel}
    (hf : ∀ ch, (f ch).revents = ch.revents) :
    ((poller.setChannel c f).channel d).revents = (poller.channel d).revents := by
  by_cases hd : d = c
  · rw [hd, setChannel_self, hf]
  · rw [setChannel_of_ne poller f hd]

/-- A step of the loop thread that leaves the channels. -/
theorem Effect.move (hpoller : t.poller = s.poller)
    (turn : ∀ c cb, t.point.Turn c cb → s.point.Turn c cb) : Effect s .other t := by
  refine .other ?_ ⟨turn, fun c => ?_⟩ (.inl rfl)
  · rw [hpoller]
    exact .refl _
  · rw [hpoller]

/-- An assignment to members that are neither about the registration nor about the
batch. -/
theorem Effect.setChannel {f : Channel → Channel} (hpoller : t.poller = s.poller.setChannel c f)
    (hf : ∀ ch, (f ch).fd = ch.fd ∧ (f ch).polling = ch.polling ∧ (f ch).events = ch.events ∧
      (f ch).revents = ch.revents)
    (turn : ∀ d cb, t.point.Turn d cb → s.point.Turn d cb) : Effect s .other t := by
  refine .other ?_ ⟨turn, fun d => ?_⟩ (.inl rfl)
  · rw [hpoller]
    exact alike_setChannel _ _ fun ch => ⟨(hf ch).1, (hf ch).2.1, (hf ch).2.2.1⟩
  · rw [hpoller]
    exact revents_setChannel _ c d fun ch => (hf ch).2.2.2

/-- Every step has one of these effects, as long as the kernel is in step with the
channels. -/
theorem Step.effect (h : s.poller.Synced) (hstep : Step s l t) : Effect s l t := by
  cases hstep with
  | loop hp | doPendingTasks hp | iterate hp | quit hp =>
    exact .move rfl fun _ _ hturn => hturn.elim
  | poll events hp hreg _ => exact .poll hreg (alike_setRevents _ _) rfl
  | skip hp _ _ =>
    refine .move rfl fun d cb hturn => ?_
    rw [hp]
    exact List.mem_cons_of_mem _ hturn
  | enter hp _ =>
    refine .setChannel (f := fun channel => { channel with handlingEvents := true }) rfl
      (fun _ => ⟨rfl, rfl, rfl, rfl⟩) fun d cb hturn => ?_
    rw [hp]
    rcases hturn with ⟨rfl, -⟩ | hturn
    · exact List.mem_cons_self
    · exact List.mem_cons_of_mem _ hturn
  | pass hp _ =>
    refine .move rfl fun d cb hturn => ?_
    rw [hp]
    exact hturn.imp_left fun ⟨hd, hcb⟩ => ⟨hd, List.mem_cons_of_mem _ hcb⟩
  | @invoke c cb tests active hp _ =>
    refine .other (.refl _) ⟨fun d cb hturn => ?_, fun _ => rfl⟩ (.inr ⟨_, _, rfl⟩)
    rw [hp]
    exact hturn.imp_left fun ⟨hd, hcb⟩ => ⟨hd, List.mem_cons_of_mem _ hcb⟩
  | back hp =>
    refine .move rfl fun d cb hturn => ?_
    rw [hp]
    exact hturn
  | leave hp =>
    refine .setChannel (f := fun channel => { channel with handlingEvents := false }) rfl
      (fun _ => ⟨rfl, rfl, rfl, rfl⟩) fun d cb hturn => ?_
    rw [hp]
    exact .inr hturn
  | @call c m poller _ hcall =>
    rw [call_eq_mutate, h.mutate] at hcall
    by_cases hnone : (s.poller.channel c).events = 0 ∧
        Mutator.mask m (s.poller.channel c).events = 0
    · rw [if_pos hnone] at hcall
      cases hcall
    · rw [if_neg hnone, Option.some.injEq] at hcall
      subst hcall
      refine .call rfl hnone ⟨fun _ _ hturn => hturn, fun d => ?_⟩
      by_cases hd : d = c
      · rw [hd, put_channel_self]
      · rw [put_channel_of_ne _ _ hd]
  | setCallback c isSet _ =>
    exact .setChannel (f := fun channel => { channel with isSet := isSet }) rfl
      (fun _ => ⟨rfl, rfl, rfl, rfl⟩) fun _ _ hturn => hturn
  | tie c _ =>
    exact .setChannel (f := fun channel => { channel with tied := true }) rfl
      (fun _ => ⟨rfl, rfl, rfl, rfl⟩) fun _ _ hturn => hturn
  | expire c _ =>
    exact .move rfl fun _ _ hturn => hturn

/-- None of these puts the kernel out of step with the channels. -/
theorem Effect.synced (h : s.poller.Synced) (heff : Effect s l t) : t.poller.Synced := by
  cases heff with
  | poll _ alike _ => exact alike.synced h
  | call put _ _ =>
    rw [put]
    exact h.put _ _
  | other alike _ _ => exact alike.synced h

/-- Nobody but its own calls changes the registration of a channel. -/
theorem Effect.frame (heff : Effect s l t) (hl : ∀ m, l ≠ .call c m) :
    (t.poller.channel c).fd = (s.poller.channel c).fd ∧
      (t.poller.channel c).events = (s.poller.channel c).events := by
  cases heff with
  | poll _ alike _ => exact ⟨alike.fd c, alike.events c⟩
  | @call d m _ put _ _ =>
    have hd : c ≠ d := fun hd => hl m (by rw [hd])
    rw [put, put_channel_of_ne _ _ hd]
    exact ⟨rfl, rfl⟩
  | other alike _ _ => exact ⟨alike.fd c, alike.events c⟩

/-- A channel that is off is not returned, and out of the batch it stays out. -/
theorem Effect.not_turn (hsync : s.poller.Synced) (heff : Effect s l t)
    (off : (s.poller.channel c).events = 0) (gone : ∀ cb, ¬ s.point.Turn c cb) (cb : Callback) :
    ¬ t.point.Turn c cb := by
  intro hturn
  cases heff with
  | poll registered _ point =>
    rw [point] at hturn
    obtain ⟨e, he, rfl⟩ := List.mem_map.1 hturn
    exact (hsync.registered_iff _).1 (registered e he) off
  | call _ _ later => exact gone cb (later.turn c cb hturn)
  | other _ later _ => exact gone cb (later.turn c cb hturn)

/-- So the kernel is in step with the channels in every run from a state in which it was. -/
theorem Initial.run_synced (h₀ : Initial s₀) (hrun : Run Step s₀ ls s) : s.poller.Synced :=
  hrun.preserves h₀.synced fun _ _ _ h hstep => (hstep.effect h).synced h

/-! ### A removed channel -/

omit [DecidableEq κ] in
/-- A channel that was polled again since stays so. -/
theorem Repolled.concat (h : Repolled c ls) (l : Label κ) : Repolled c (ls ++ [l]) := by
  obtain ⟨ls₁, m, ls₂, events, ls₃, rfl, hm, hc⟩ := h
  exact ⟨ls₁, m, ls₂, events, ls₃ ++ [l], by simp, hm, hc⟩

omit [DecidableEq κ] in
/-- A channel that was switched on since stays so. -/
theorem SwitchedOn.concat (h : SwitchedOn c ls) (l : Label κ) : SwitchedOn c (ls ++ [l]) := by
  obtain ⟨ls₁, m, ls₂, rfl, hm⟩ := h
  exact ⟨ls₁, m, ls₂ ++ [l], by simp, hm⟩

omit [DecidableEq κ] in
/-- A channel that was switched on and is reported by the next `poll` has been polled again:
this is the only way for its callbacks to become due anew. -/
theorem SwitchedOn.repolled (h : SwitchedOn c ls) {events : List (κ × Mask)}
    (hc : c ∈ events.map Prod.fst) : Repolled c (ls ++ [.poll events]) := by
  obtain ⟨ls₁, m, ls₂, rfl, hm⟩ := h
  exact ⟨ls₁, m, ls₂, events, [], by simp, hm, hc⟩

omit [DecidableEq κ] in
/-- A step that is no `poll` adds none. -/
theorem NoPoll.concat (h : NoPoll ls) (hl : ∀ events, l ≠ .poll events) : NoPoll (ls ++ [l]) := by
  intro events hmem
  rcases List.mem_append.1 hmem with hmem | hmem
  · exact h events hmem
  · exact hl events (List.mem_singleton.1 hmem).symm

/-- What is known of the channel `c` after it was removed in the state `s` and `ls`
was done since. -/
inductive Removed (s : State κ) (c : κ) (ls : List (Label κ)) (u : State κ) : Prop
  | repolled (h : Repolled c ls)
  | silent (off : (u.poller.channel c).events ≠ 0 → SwitchedOn c ls)
      (due : ∀ cb, u.Due c cb → s.Due c cb ∧ NoPoll ls)

/-- A call that takes interest away leaves none where there was none. -/
theorem mask_zero {m : Mutator} (hm : m.disables = true) : m.mask 0 = 0 := by
  cases m with
  | enableRead | enableWrite => cases hm
  | disableRead | disableWrite | disableAll => rfl

/-- **What a step does to a removed channel**: it is not registered again unless something
asks for it, and it is invoked only while it is due from the batch in which it was removed.
-/
theorem Removed.step (hsync : u.poller.Synced) (h : Removed s c ls u) (heff : Effect u l v) :
    Removed s c (ls ++ [l]) v := by
  cases h with
  | repolled h => exact .repolled (h.concat l)
  | silent off due =>
    cases heff with
    | @poll events _ registered alike point =>
      by_cases hc : c ∈ events.map Prod.fst
      · obtain ⟨e, he, rfl⟩ := List.mem_map.1 hc
        exact .repolled ((off ((hsync.registered_iff _).1 (registered e he))).repolled hc)
      · refine .silent (fun hne => ?_) fun cb hdue => ?_
        · rw [alike.events] at hne
          exact (off hne).concat _
        · have hturn := hdue.turn
          rw [point] at hturn
          exact absurd hturn hc
    | @call d m _ put fires later =>
      refine .silent (fun hne => ?_) fun cb hdue => ?_
      · rw [put] at hne
        by_cases hd : c = d
        · subst hd
          by_cases hon : (u.poller.channel c).events = 0
          · refine ⟨ls, m, [], rfl, ?_⟩
            rw [← Bool.not_eq_true]
            intro hm
            rw [hon] at fires
            exact fires ⟨rfl, mask_zero hm⟩
          · exact (off hon).concat _
        · rw [put_channel_of_ne _ _ hd] at hne
          exact (off hne).concat _
      · obtain ⟨hs, hno⟩ := due cb (later.due hdue)
        exact ⟨hs, hno.concat (by rintro events ⟨⟩)⟩
    | other alike later label =>
      refine .silent (fun hne => ?_) fun cb hdue => ?_
      · rw [alike.events] at hne
        exact (off hne).concat _
      · obtain ⟨hs, hno⟩ := due cb (later.due hdue)
        refine ⟨hs, hno.concat ?_⟩
        rcases label with rfl | ⟨c, cb, rfl⟩ <;> rintro events ⟨⟩

/-- Right after it was removed. -/
theorem removed_nil (heff : Effect s (.call c .disableAll) t) : Removed s c [] t := by
  cases heff with
  | call put fires later =>
    refine .silent (fun hne => ?_) fun cb hdue => ⟨later.due hdue, fun _ => List.not_mem_nil⟩
    rw [put, put_channel_self] at hne
    exact absurd rfl hne
  | other _ _ label =>
    rcases label with hl | ⟨_, _, hl⟩ <;> cases hl

/-- A callback that is invoked was due. -/
theorem due_of_invoke (hstep : Step u (.invoke c cb) v) : u.Due c cb := by
  cases hstep with
  | invoke hp hsel =>
    refine ⟨?_, (Bool.and_eq_true_iff.1 hsel).1⟩
    rw [hp]
    exact .inl ⟨rfl, List.mem_cons_self⟩

/-- **After `removeChannel`**, over any run of further steps: a poll has returned the channel
again, after it was switched on, or what is due of it was due when it was removed and is of
the same batch. -/
theorem removed_run {pre mid : List (Label κ)} (h₀ : Initial s₀) (hpre : Run Step s₀ pre s)
    (hremove : Step s (.call c .disableAll) t) (hmid : Run Step t mid u) : Removed s c mid u := by
  have hs : s.poller.Synced := h₀.run_synced hpre
  induction hmid with
  | nil => exact removed_nil (hremove.effect hs)
  | snoc hrun hstep ih =>
    have hsync := h₀.run_synced ((hpre.snoc hremove).trans hrun)
    exact ih.step hsync (hstep.effect hsync)

/-- **A removed channel is silent but for what is due**: a callback invoked after
the removal was due in the batch at hand, or the channel was switched on again and
then returned by a poll. -/
theorem removed_silent {pre mid : List (Label κ)} (h₀ : Initial s₀) (hpre : Run Step s₀ pre s)
    (hremove : Step s (.call c .disableAll) t) (hmid : Run Step t mid u)
    (hinvoke : Step u (.invoke c cb) v) : Repolled c mid ∨ s.Due c cb ∧ NoPoll mid := by
  cases removed_run h₀ hpre hremove hmid with
  | repolled h => exact .inl h
  | silent _ due => exact .inr (due cb (due_of_invoke hinvoke))

/-! ### The course of a batch -/

/-- A batch holds a channel once, and the tests come in their order. -/
def Point.Orderly : Point κ → Prop
  | .handling active => active.Nodup
  | .guarded c tests active | .inCallback c tests active =>
    tests <:+ Callback.tests ∧ c ∉ active ∧ active.Nodup
  | _ => True

/-- The loop goes through the active channels and through the tests of each in order, and no
step changes that. -/
theorem Step.orderly (hstep : Step s l t) (h : s.point.Orderly) : t.point.Orderly := by
  cases hstep with
  | loop _ | doPendingTasks _ | iterate _ | quit _ => trivial
  | poll events _ _ hnd => exact hnd
  | skip hp _ _ =>
    rw [hp] at h
    exact (List.nodup_cons.1 h).2
  | enter hp _ =>
    rw [hp] at h
    exact ⟨List.suffix_refl _, List.nodup_cons.1 h⟩
  | pass hp _ | invoke hp _ =>
    rw [hp] at h
    exact ⟨(List.suffix_cons _ _).trans h.1, h.2⟩
  | back hp =>
    rw [hp] at h
    exact h
  | leave hp =>
    rw [hp] at h
    exact h.2.2
  | call _ _ | setCallback _ _ _ | tie _ _ | expire _ _ => exact h

/-- Invoking a callback is not yet a change of the poller: what the callback does with it
are steps of their own. -/
theorem invoke_poller (hstep : Step s (.invoke c cb) t) : t.poller = s.poller := by
  cases hstep with
  | invoke _ _ => rfl

/-- The write callback comes last. -/
theorem turn_of_invoke_write (h : s.point.Orderly) (hstep : Step s (.invoke c .write) t) :
    ¬ t.point.Turn c cb := by
  cases hstep with
  | @invoke _ _ tests active hp _ =>
    rw [hp] at h
    obtain ⟨hsuffix, hc, -⟩ := h
    have hnil : tests = [] := by
      have htails := (List.mem_tails _ _).2 hsuffix
      simpa [Callback.tests] using htails
    rintro (⟨-, hcb⟩ | hcb)
    · rw [hnil] at hcb
      cases hcb
    · exact hc hcb

/-- The turn of a callback comes, where the channel is not tied and the callback is
set. -/
theorem Step.turn (hstep : Step s l t) (hdue : s.Due c cb)
    (untied : (s.poller.channel c).tied = false) (isSet : (s.poller.channel c).isSet cb = true)
    (hl : l ≠ .invoke c cb) : t.point.Turn c cb := by
  have hfires : ((s.poller.channel c).selects cb && (s.poller.channel c).isSet cb) = true :=
    Bool.and_eq_true_iff.2 ⟨hdue.selected, isSet⟩
  have turn := hdue.turn
  cases hstep with
  | loop hp | poll _ hp _ _ | doPendingTasks hp | iterate hp | quit hp =>
    rw [hp] at turn
    first | exact turn.elim | exact absurd turn List.not_mem_nil
  | skip hp tied _ =>
    rw [hp] at turn
    refine (List.mem_cons.1 turn).resolve_left ?_
    rintro rfl
    rw [untied] at tied
    cases tied
  | enter hp _ =>
    rw [hp] at turn
    exact (List.mem_cons.1 turn).imp_left fun hc => ⟨hc.symm, cb.mem_tests⟩
  | pass hp hno =>
    rw [hp] at turn
    refine turn.imp_left fun ⟨hd, hcb⟩ => ⟨hd, (List.mem_cons.1 hcb).resolve_left ?_⟩
    rintro rfl
    subst hd
    rw [hfires] at hno
    cases hno
  | invoke hp _ =>
    rw [hp] at turn
    refine turn.imp_left fun ⟨hd, hcb⟩ => ⟨hd, (List.mem_cons.1 hcb).resolve_left ?_⟩
    rintro rfl
    subst hd
    exact hl rfl
  | back hp =>
    rw [hp] at turn
    exact turn
  | leave hp =>
    rw [hp] at turn
    exact turn.resolve_left fun ⟨_, hcb⟩ => absurd hcb List.not_mem_nil
  | call _ _ | setCallback _ _ _ | tie _ _ | expire _ _ => exact turn

/-- **What is due stays due until it is invoked**: other callbacks of the batch do not take
it away, since nothing clears `revents_` on the way. -/
theorem Step.due (hsync : s.poller.Synced) (hstep : Step s l t) (hdue : s.Due c cb)
    (untied : (s.poller.channel c).tied = false) (isSet : (s.poller.channel c).isSet cb = true)
    (hl : l ≠ .invoke c cb) : t.Due c cb := by
  refine ⟨hstep.turn hdue untied isSet hl, ?_⟩
  have hrevents : (t.poller.channel c).revents = (s.poller.channel c).revents := by
    cases hstep.effect hsync with
    | poll _ _ _ =>
      have turn := hdue.turn
      cases hstep with
      | poll _ hp _ _ =>
        rw [hp] at turn
        exact turn.elim
    | call _ _ later => exact later.revents c
    | other _ later _ => exact later.revents c
  rw [Channel.selects_congr hrevents]
  exact hdue.selected

/-- A channel that `poll` does not report keeps its old `revents_`. -/
theorem revents_setRevents_of_not_mem {events : List (κ × Mask)}
    (hc : c ∉ events.map Prod.fst) (poller : EPoller κ) :
    ((setRevents poller events).channel c).revents = (poller.channel c).revents := by
  induction events generalizing poller with
  | nil => rfl
  | cons e events ih =>
    rw [List.map_cons, List.mem_cons, not_or] at hc
    have hset := setChannel_of_ne poller (fun channel => { channel with revents := e.2 }) hc.1
    rw [← hset]
    exact ih hc.2 _

/-- One that it reports gets exactly the events that were reported, as it is reported once.
-/
theorem revents_setRevents {events : List (κ × Mask)} {rev : Mask}
    (hnd : (events.map Prod.fst).Nodup) (hmem : (c, rev) ∈ events) (poller : EPoller κ) :
    ((setRevents poller events).channel c).revents = rev := by
  induction events generalizing poller with
  | nil => cases hmem
  | cons e events ih =>
    rw [List.map_cons, List.nodup_cons] at hnd
    rcases List.mem_cons.1 hmem with rfl | hmem
    · have hrest := revents_setRevents_of_not_mem hnd.1
        (poller.setChannel c fun channel => { channel with revents := rev })
      rw [setChannel_self] at hrest
      exact hrest
    · exact ih hnd.2 hmem _

/-- Two channels that are read, with the descriptors 5 and 6. -/
def twoChannels : State Bool where
  poller :=
    { channel := fun c =>
        { Channel.init (if c then 6 else 5) with
          polling := true
          events := EPOLLIN ||| EPOLLPRI
          isSet := fun cb => cb == .read }
      interest := fun fd =>
        if fd = 5 then some ⟨EPOLLIN ||| EPOLLPRI, false⟩
        else if fd = 6 then some ⟨EPOLLIN ||| EPOLLPRI, true⟩
        else none }
  expired := fun _ => false
  point := .outside

/-- Two channels that the kernel knows, with a loop about to poll. -/
theorem initial_twoChannels : Initial twoChannels := by
  refine ⟨⟨?_, fun c => ?_, fun c => ?_⟩, rfl⟩
  · rintro (_ | _) (_ | _) h
    · rfl
    · exact absurd h (by decide)
    · exact absurd h (by decide)
    · rfl
  · cases c <;> rfl
  · cases c <;> rfl

/-- Both are registered. -/
theorem registered_twoChannels (c : Bool) : twoChannels.poller.Registered c := by
  cases c <;> rfl

/-- A poll returns both channels, and the read callback of the first removes the
second. -/
theorem exists_removal_in_batch : ∃ pre s t mid u v, Run Step twoChannels pre s ∧
    Step s (.call true .disableAll) t ∧ Run Step t mid u ∧ Step u (.invoke true .read) v ∧
    ∀ l ∈ mid, l = .other := by
  have hstart : Run Step twoChannels [] twoChannels := .nil
  have hpoll := (hstart.snoc (.loop rfl)).snoc
    (.poll [(false, EPOLLIN), (true, EPOLLIN)] rfl (fun e _ => registered_twoChannels e.1)
      (by decide))
  have hpre := (((hpoll.snoc (.enter rfl fun _ => rfl)).snoc (.pass rfl rfl)).snoc
    (.pass rfl rfl)).snoc (.invoke rfl rfl)
  refine ⟨_, _, _, _, _, _, hpre, .call trivial rfl, (((((Run.nil.snoc (.back rfl)).snoc
    (.pass rfl rfl)).snoc (.leave rfl)).snoc (.enter rfl fun _ => rfl)).snoc (.pass rfl rfl)).snoc
    (.pass rfl rfl), .invoke rfl rfl, ?_⟩
  simp

/-- The hypotheses of `removed_silent` are satisfiable: two channels of one batch, of which
the second is removed while it is due. -/
theorem removed_silent_twoChannels : ∃ pre s t mid u v, Run Step twoChannels pre s ∧
    Step s (.call true .disableAll) t ∧ Run Step t mid u ∧ Step u (.invoke true .read) v ∧
    (Repolled true mid ∨ s.Due true .read ∧ NoPoll mid) := by
  obtain ⟨pre, s, t, mid, u, v, hpre, hremove, hmid, hinvoke, -⟩ := exists_removal_in_batch
  exact ⟨pre, s, t, mid, u, v, hpre, hremove, hmid, hinvoke,
    removed_silent initial_twoChannels hpre hremove hmid hinvoke⟩

/-- **A removed channel is not silent at once**: one that is removed by a callback of the
same batch still has its own invoked later in that batch. -/
theorem not_silent : ¬ ∀ (s₀ s t u v : State Bool) (pre mid : List (Label Bool)) (c : Bool)
    (cb : Callback), Initial s₀ → Run Step s₀ pre s → Step s (.call c .disableAll) t →
      Run Step t mid u → Step u (.invoke c cb) v → Repolled c mid := by
  intro h
  obtain ⟨pre, s, t, mid, u, v, hpre, hremove, hmid, hinvoke, hother⟩ := exists_removal_in_batch
  obtain ⟨ls₁, m, ls₂, events, ls₃, rfl, -⟩ :=
    h _ s t u v pre mid true .read initial_twoChannels hpre hremove hmid hinvoke
  exact absurd (hother (.call true m) (by simp)) (by rintro ⟨⟩)

end Dispatch
end BearRpc
