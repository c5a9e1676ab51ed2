/-
# The interest list and the calls that were made

The five calls that change `events_` (`Channel.h`, lines 50 to 59), in any order
and on any number of channels of one loop.

A call is permitted if it does not take interest away from a channel that is not
registered; then no assertion fails (`Synced.exists_call`) and the channels and the
kernel stay in agreement (`synced_run`), whatever the masks are.

What the masks should be is a matter of the history: `Reading` and `Writing` look
at the last call that touches reading or writing.  `enableRead` sets `EPOLLIN` and
`EPOLLPRI`, but `disableRead` clears only `EPOLLIN`.  So the list mirrors the history
as long as `disableRead` is not called where reading is on (`mirrored_iff`).
-/

import BearRpc.Tcp.Channel
import BearRpc.Theory.Transition
import BearRpc.Theory.Log

namespace BearRpc

open Theory

/-- The calls of `Channel` that change `events_`. -/
inductive Mutator where
  | enableRead
  | enableWrite
  | disableRead
  | disableWrite
  | disableAll
  deriving DecidableEq, Repr

namespace Mutator

/-- The call takes interest away. -/
def disables : Mutator → Bool
  | enableRead | enableWrite => false
  | disableRead | disableWrite | disableAll => true

def affectsRead : Mutator → Bool
  | enableRead | disableRead | disableAll => true
  | enableWrite | disableWrite => false

def affectsWrite : Mutator → Bool
  | enableWrite | disableWrite | disableAll => true
  | enableRead | disableRead => false

/-- What the call does to `events_`. -/
def mask : Mutator → Mask → Mask
  | enableRead, events => events ||| (EPOLLIN ||| EPOLLPRI)
  | enableWrite, events => events ||| EPOLLOUT
  | disableRead, events => events &&& ~~~EPOLLIN
  | disableWrite, events => events &&& ~~~EPOLLOUT
  | disableAll, _ => 0

end Mutator

/-- The last call that touches reading is `enableRead`. -/
def Reading (history : List Mutator) : Prop :=
  (history.filter Mutator.affectsRead).getLast? = some .enableRead

/-- The last call that touches writing is `enableWrite`. -/
def Writing (history : List Mutator) : Prop :=
  (history.filter Mutator.affectsWrite).getLast? = some .enableWrite

instance (history : List Mutator) : Decidable (Reading history) :=
  inferInstanceAs (Decidable (_ = _))

instance (history : List Mutator) : Decidable (Writing history) :=
  inferInstanceAs (Decidable (_ = _))

namespace EPoller

variable {κ : Type} [DecidableEq κ]

/-- The call on the channel `c`. -/
def call (s : EPoller κ) (c : κ) : Mutator → Option (EPoller κ)
  | .enableRead => s.enableRead c
  | .enableWrite => s.enableWrite c
  | .disableRead => s.disableRead c
  | .disableWrite => s.disableWrite c
  | .disableAll => s.disableAll c

/-- The kernel has the channel in its list. -/
def Registered (s : EPoller κ) (c : κ) : Prop := (s.interest (s.channel c).fd).isSome = true

/-- A permitted call. -/
inductive Step (s : EPoller κ) : κ × Mutator → EPoller κ → Prop
  | intro {c : κ} {m : Mutator} {t : EPoller κ} (permitted : m.disables = true → s.Registered c)
      (returns : s.call c m = some t) : Step s (c, m) t

/-- Channels just constructed, with descriptors of their own. -/
structure Fresh (s : EPoller κ) : Prop where
  distinct : Function.Injective fun c => (s.channel c).fd
  constructed : ∀ c, s.channel c = Channel.init (s.channel c).fd
  unregistered : ∀ c, s.interest (s.channel c).fd = none

/-- **The list mirrors the calls that were made.** -/
structure Mirrors (s : EPoller κ) (calls : List (κ × Mutator)) : Prop where
  registered : ∀ c, s.Registered c ↔ Reading (valuesOf c calls) ∨ Writing (valuesOf c calls)
  polling : ∀ c, (s.channel c).polling = true ↔ s.Registered c
  mask : ∀ c ee, s.interest (s.channel c).fd = some ee → ee.ptr = c ∧
    (ee.events.Has EPOLLIN ↔ Reading (valuesOf c calls)) ∧
    (ee.events.Has EPOLLPRI ↔ Reading (valuesOf c calls)) ∧
    (ee.events.Has EPOLLOUT ↔ Writing (valuesOf c calls))

/-- **Along the calls, the list mirrors them**: no permitted call fails an
assertion, each leaves the other channels alone, and after each the list is as it
should be. -/
structure Mirrored (s₀ : EPoller κ) (calls : List (κ × Mutator)) : Prop where
  returns : ∀ pre post s, calls = pre ++ post → Run Step s₀ pre s →
    ∀ c m, (Mutator.disables m = true → s.Registered c) → ∃ t, s.call c m = some t
  frame : ∀ pre post s, calls = pre ++ post → Run Step s₀ pre s →
    ∀ c m t, Step s (c, m) t → ∀ d, d ≠ c → t.channel d = s.channel d ∧
      t.interest (s.channel d).fd = s.interest (s.channel d).fd
  mirrors : ∀ pre post s, calls = pre ++ post → Run Step s₀ pre s → Mirrors s pre

variable {s s' s₀ : EPoller κ} {c d : κ} {m : Mutator} {calls : List (κ × Mutator)}

/-! ### The registration, whatever the masks -/

omit [DecidableEq κ] in
/-- A poller without registrations is in step with channels that want nothing. -/
theorem Fresh.synced (h : Fresh s) : Synced s := by
  refine ⟨h.distinct, fun c => ?_, fun c => ?_⟩
  · rw [h.constructed c]
    rfl
  · rw [h.unregistered c, h.constructed c]
    rfl

/-- Each of the five functions writes the mask it makes of the events. -/
theorem call_eq_mutate (s : EPoller κ) (c : κ) (m : Mutator) : s.call c m = s.mutate m.mask c := by
  cases m <;> rfl

omit [DecidableEq κ] in
/-- **The kernel knows a channel exactly while it asks for something**, where the two are in
step: a mask without events takes the channel out of the list. -/
theorem Synced.registered_iff (h : Synced s) (c : κ) :
    s.Registered c ↔ (s.channel c).events ≠ 0 := by
  rw [Registered, h.interest c]
  by_cases he : (s.channel c).events = 0
  · simp only [he, if_true, Option.isSome_none, Bool.false_eq_true, ne_eq, not_true_eq_false]
  · simp only [he, if_false, Option.isSome_some, ne_eq, not_false_eq_true]

/-- What a permitted call does. -/
theorem Synced.step (h : Synced s) (hstep : Step s (c, m) s') :
    s' = s.put c (m.mask (s.channel c).events) := by
  cases hstep with
  | intro permitted returns =>
    rw [call_eq_mutate, h.mutate] at returns
    by_cases hnone : (s.channel c).events = 0 ∧ m.mask (s.channel c).events = 0
    · rw [if_pos hnone] at returns
      cases returns
    · rw [if_neg hnone, Option.some.injEq] at returns
      exact returns.symm

/-- **No permitted call fails an assertion**: the calls that disable something are made on
channels that are registered. -/
theorem Synced.exists_call (h : Synced s) (permitted : m.disables = true → s.Registered c) :
    ∃ s', s.call c m = some s' := by
  rw [call_eq_mutate, h.mutate]
  refine ⟨_, if_neg ?_⟩
  rintro ⟨he, hm⟩
  cases m with
  | enableRead =>
    rw [he] at hm
    exact absurd hm (by decide)
  | enableWrite =>
    rw [he] at hm
    exact absurd hm (by decide)
  | disableRead | disableWrite | disableAll => exact (h.registered_iff c).1 (permitted rfl) he

/-- A permitted call is a step. -/
theorem Synced.step_put (h : Synced s) (permitted : m.disables = true → s.Registered c) :
    Step s (c, m) (s.put c (m.mask (s.channel c).events)) := by
  obtain ⟨t, ht⟩ := h.exists_call permitted
  have hstep : Step s (c, m) t := .intro permitted ht
  rwa [← h.step hstep]

/-- They stay in step in every run of permitted calls. -/
theorem synced_run (h₀ : Fresh s₀) (hrun : Run Step s₀ calls s) : Synced s :=
  hrun.preserves h₀.synced fun s l t h hstep => by
    obtain ⟨c, m⟩ := l
    rw [h.step hstep]
    exact h.put c _

/-- A call leaves the other channels alone. -/
theorem Synced.frame (h : Synced s) (hstep : Step s (c, m) s') (hd : d ≠ c) :
    s'.channel d = s.channel d ∧ s'.interest (s.channel d).fd = s.interest (s.channel d).fd := by
  rw [h.step hstep]
  exact ⟨put_channel_of_ne s _ hd, h.put_interest_of_ne _ hd⟩

/-! ### The masks -/

/-- The mask of a channel, by what it should be interested in. -/
def maskOf (read write : Bool) : Mask :=
  (if read then EPOLLIN ||| EPOLLPRI else 0) ||| if write then EPOLLOUT else 0

/-- A mask is empty only if neither is wanted. -/
theorem maskOf_ne_zero_iff (read write : Bool) :
    maskOf read write ≠ 0 ↔ read = true ∨ write = true := by
  revert read write
  decide

/-- Reading asks for `EPOLLIN` and `EPOLLPRI`, writing for `EPOLLOUT`. -/
theorem has_maskOf (read write : Bool) : ((maskOf read write).Has EPOLLIN ↔ read = true) ∧
    ((maskOf read write).Has EPOLLPRI ↔ read = true) ∧
    ((maskOf read write).Has EPOLLOUT ↔ write = true) := by
  revert read write
  decide

/-- The mask that the history asks for. -/
def wanted (history : List Mutator) : Mask :=
  maskOf (decide (Reading history)) (decide (Writing history))

/-- **Who wants to read** is told by the last call that is about reading: `disableAll` is
one, and the calls about writing are none. -/
theorem reading_concat (h : List Mutator) (m : Mutator) :
    Reading (h ++ [m]) ↔ m = .enableRead ∨ m.affectsRead = false ∧ Reading h := by
  cases m <;> simp [Reading, List.filter_append, Mutator.affectsRead]

/-- **Who wants to write** is told by the last call that is about writing; `disableAll` is
one, and the calls about reading are none. -/
theorem writing_concat (h : List Mutator) (m : Mutator) :
    Writing (h ++ [m]) ↔ m = .enableWrite ∨ m.affectsWrite = false ∧ Writing h := by
  cases m <;> simp [Writing, List.filter_append, Mutator.affectsWrite]

/-- **Every call but one does what it should**: the exception is `disableRead` where reading
is on, which leaves a bit of it behind. -/
theorem mask_wanted {h : List Mutator} (hok : m = .disableRead → ¬ Reading h) :
    m.mask (wanted h) = wanted (h ++ [m]) := by
  simp only [wanted, reading_concat, writing_concat]
  by_cases hr : Reading h
  · have hm : m ≠ .disableRead := fun hm => hok hm hr
    by_cases hw : Writing h <;> cases m <;> simp_all [Mutator.affectsRead, Mutator.affectsWrite] <;>
      decide
  · by_cases hw : Writing h <;> cases m <;> simp_all [Mutator.affectsRead, Mutator.affectsWrite] <;>
      decide

/-- `disableRead` leaves `EPOLLPRI` where it was. -/
theorem has_pri_disableRead (events : Mask) (h : events.Has EPOLLPRI) :
    (Mutator.disableRead.mask events).Has EPOLLPRI := by
  intro hz
  refine h ?_
  rw [← hz, Mutator.mask, BitVec.and_assoc]
  congr 1

/-- Every mask is what the history asks for. -/
def Wanted (calls : List (κ × Mutator)) (s : EPoller κ) : Prop :=
  ∀ c, (s.channel c).events = wanted (valuesOf c calls)

/-- `disableRead` was not called where reading was on. -/
def NoDisableRead (calls : List (κ × Mutator)) : Prop :=
  ∀ pre c post, calls = pre ++ (c, .disableRead) :: post → ¬ Reading (valuesOf c pre)

/-- A further call stands at the end of the calls of its own channel and leaves the others'
lists alone. -/
theorem valuesOf_concat (calls : List (κ × Mutator)) (c d : κ) (m : Mutator) :
    valuesOf d (calls ++ [(c, m)]) =
      if d = c then valuesOf d calls ++ [m] else valuesOf d calls := by
  by_cases hd : d = c
  · subst hd
    rw [if_pos rfl, valuesOf_append]
    exact congrArg _ (valuesOf_map_self [m])
  · have hnone : valuesOf d [(c, m)] = [] := valuesOf_map_of_ne (Ne.symm hd) [m]
    rw [if_neg hd, valuesOf_append, hnone, List.append_nil]

/-- A sequence without `disableRead` has none in its beginning. -/
theorem NoDisableRead.of_append {pre post : List (κ × Mutator)} (h : NoDisableRead (pre ++ post)) :
    NoDisableRead pre := by
  rintro pre' c post' rfl
  exact h pre' c (post' ++ post) (by rw [List.append_assoc, List.cons_append])

/-- One call, on masks as they should be. -/
theorem Wanted.step (hsync : Synced s) (h : Wanted calls s) (hstep : Step s (c, m) s')
    (hok : m = .disableRead → ¬ Reading (valuesOf c calls)) : Wanted (calls ++ [(c, m)]) s' := by
  intro d
  rw [hsync.step hstep, valuesOf_concat]
  by_cases hd : d = c
  · subst hd
    rw [put_channel_self, if_pos rfl, h d]
    exact mask_wanted hok
  · rw [put_channel_of_ne s _ hd, if_neg hd]
    exact h d

/-- **Without `disableRead`, every channel asks for what is wanted of it**, after every run
of permitted calls. -/
theorem wanted_run (h₀ : Fresh s₀) (hrun : Run Step s₀ calls s) (hno : NoDisableRead calls) :
    Wanted calls s := by
  induction hrun with
  | nil =>
    intro c
    rw [h₀.constructed c, valuesOf_nil]
    exact (by decide : (0 : Mask) = wanted [])
  | @snoc ls s l t hls hstep ih =>
    obtain ⟨c, m⟩ := l
    refine (ih hno.of_append).step (synced_run h₀ hls) hstep ?_
    rintro rfl
    exact hno ls c [] rfl

/-- Masks as they should be mirror the calls. -/
theorem Wanted.mirrors (hsync : Synced s) (h : Wanted calls s) : Mirrors s calls := by
  refine ⟨fun c => ?_, fun c => ?_, fun c ee hee => ?_⟩
  · rw [hsync.registered_iff, h c, wanted, maskOf_ne_zero_iff, decide_eq_true_iff,
      decide_eq_true_iff]
  · rw [hsync.registered_iff, hsync.polling c, decide_eq_true_iff]
  · rw [hsync.interest c] at hee
    by_cases he : (s.channel c).events = 0
    · rw [if_pos he] at hee
      cases hee
    · rw [if_neg he, Option.some.injEq] at hee
      subst hee
      refine ⟨rfl, ?_⟩
      rw [h c]
      simpa only [wanted, decide_eq_true_iff] using
        has_maskOf (decide (Reading (valuesOf c calls))) (decide (Writing (valuesOf c calls)))

/-- **`disableRead` where reading is on** leaves the channel registered for `EPOLLPRI`: the
kernel watches for something that nobody asks for any more. -/
theorem Mirrors.not_of_disableRead (h : Mirrors s calls) (hsync : Synced s)
    (hstep : Step s (c, .disableRead) s') (hreading : Reading (valuesOf c calls)) :
    ¬ Mirrors s' (calls ++ [(c, .disableRead)]) := by
  intro hafter
  have hne : (s.channel c).events ≠ 0 :=
    (hsync.registered_iff c).1 ((h.registered c).2 (.inl hreading))
  have hpri : (s.channel c).events.Has EPOLLPRI :=
    (h.mask c ⟨(s.channel c).events, c⟩ (by rw [hsync.interest c, if_neg hne])).2.2.1.2 hreading
  have hleft := has_pri_disableRead _ hpri
  have hne' : Mutator.disableRead.mask (s.channel c).events ≠ 0 := by
    intro hz
    rw [hz] at hleft
    exact hleft (by decide)
  have hentry : s'.interest (s'.channel c).fd =
      some ⟨Mutator.disableRead.mask (s.channel c).events, c⟩ := by
    rw [hsync.step hstep, put_fd, put_interest_self, if_neg hne']
  have hbad := (hafter.mask c _ hentry).2.2.1.1 hleft
  rw [valuesOf_concat, if_pos rfl, reading_concat] at hbad
  rcases hbad with hbad | ⟨hbad, -⟩
  · cases hbad
  · cases hbad

/-- **When the kernel's list mirrors the calls.** After every permitted sequence of calls on
any number of channels, the kernel watches exactly what was asked for, if and only if
`disableRead` is not called where reading is on: it takes `EPOLLIN` away and leaves
`EPOLLPRI`, which `enableRead` has added. -/
theorem mirrored_iff (h₀ : Fresh s₀) (hrun : Run Step s₀ calls s) :
    Mirrored s₀ calls ↔ NoDisableRead calls := by
  constructor
  · rintro hmir pre c post rfl hreading
    obtain ⟨t, t', hpre, hstep, -⟩ := hrun.split
    have hbefore : Mirrors t pre := hmir.mirrors _ _ _ rfl hpre
    have hafter : Mirrors t' (pre ++ [(c, .disableRead)]) :=
      hmir.mirrors _ post _ (by rw [List.append_assoc]; rfl) (hpre.snoc hstep)
    exact hbefore.not_of_disableRead (synced_run h₀ hpre) hstep hreading hafter
  · intro hno
    refine ⟨?_, ?_, ?_⟩
    · rintro pre post t rfl hpre c m permitted
      exact (synced_run h₀ hpre).exists_call permitted
    · rintro pre post t rfl hpre c m t' hstep d hd
      exact (synced_run h₀ hpre).frame hstep hd
    · rintro pre post t rfl hpre
      exact (wanted_run h₀ hpre hno.of_append).mirrors (synced_run h₀ hpre)

/-- One channel, just constructed. -/
def oneChannel : EPoller Unit := ⟨fun _ => Channel.init 5, fun _ => none⟩

/-- A poller with one channel that nobody has touched. -/
theorem fresh_oneChannel : Fresh oneChannel :=
  ⟨fun _ _ _ => rfl, fun _ => rfl, fun _ => rfl⟩

/-- Reading is switched on. -/
theorem step_enableRead :
    Step oneChannel ((), .enableRead) (oneChannel.put () (EPOLLIN ||| EPOLLPRI)) :=
  fresh_oneChannel.synced.step_put fun h => absurd h (by decide)

/-- The hypotheses of `mirrored_iff` are satisfiable: one channel, on which reading is
enabled. -/
theorem mirrored_iff_oneChannel : Fresh oneChannel ∧
    Run Step oneChannel [((), .enableRead)] (oneChannel.put () (EPOLLIN ||| EPOLLPRI)) ∧
    (Mirrored oneChannel [((), .enableRead)] ↔ NoDisableRead [((), Mutator.enableRead)]) :=
  ⟨fresh_oneChannel, .single step_enableRead,
    mirrored_iff fresh_oneChannel (.single step_enableRead)⟩

/-- **`disableRead` does not undo `enableRead`**: the channel stays registered, though
neither reading nor writing is on. -/
theorem not_mirrors_disableRead : ∃ s, Fresh oneChannel ∧
    Run Step oneChannel [((), .enableRead), ((), .disableRead)] s ∧ s.Registered () ∧
    ¬ Reading (valuesOf () [((), Mutator.enableRead), ((), Mutator.disableRead)]) ∧
    ¬ Writing (valuesOf () [((), Mutator.enableRead), ((), Mutator.disableRead)]) := by
  have hsync := fresh_oneChannel.synced.put () (EPOLLIN ||| EPOLLPRI)
  have hsecond : Step (oneChannel.put () (EPOLLIN ||| EPOLLPRI)) ((), .disableRead)
      ((oneChannel.put () (EPOLLIN ||| EPOLLPRI)).put () EPOLLPRI) :=
    hsync.step_put fun _ => (hsync.registered_iff ()).2 (by decide)
  refine ⟨_, fresh_oneChannel, (Run.single step_enableRead).snoc hsecond, ?_, by decide, by decide⟩
  exact ((hsync.put () EPOLLPRI).registered_iff ()).2 (by decide)

end EPoller
end BearRpc
