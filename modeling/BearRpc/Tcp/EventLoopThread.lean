/-
# A loop on a thread of its own

`EventLoopThread::startLoop`, `~EventLoopThread` and `runInThread`
(`src/RPC/bearTCP/EventLoopThread.cc`) with `CountDownLatch`, around the loop of
`BearRpc.Tcp.EventLoop`.

`runInThread` publishes its loop and counts the latch down before it calls
`loop()`, and `loop()` begins with `quit_ = false`.  A call of `quit` in between is
undone (`undone_or_lost`): the wake-up it wrote is drained by the first iteration,
and the owner waits in `join` for a loop that sleeps (`not_quitKept_early`).  A call
behind that assignment is kept (`quitKept_of_run`).
-/

import BearRpc.Tcp.EventLoop
import Mathlib.Data.Int.Notation

namespace BearRpc

open Theory Function

namespace EventLoopThread

/-- Where the owner is. -/
inductive Owner where
  /-- before `startLoop()` -/
  | constructed
  /-- in `latch_.wait()`, before the test of `count_` -/
  | waiting
  /-- in `cond_.wait(lock)` -/
  | sleeping
  /-- `startLoop()` has returned the loop -/
  | started
  /-- in `~EventLoopThread()`, before the test of `loop_` -/
  | destroying
  /-- before the call `loop_->quit()` -/
  | found
  /-- in `loop_->quit()` -/
  | quitting
  /-- in `thread_.join()` -/
  | joining
  | joined
  /-- has called a loop that does not exist any more -/
  | dangling
  deriving DecidableEq, Repr

/-- `startLoop()` has returned. -/
def Owner.Started : Owner → Prop
  | .constructed | .waiting | .sleeping => False
  | _ => True

/-- Where `thread_` is, in `runInThread()`. -/
inductive Runner where
  /-- the thread does not exist -/
  | absent
  /-- before `loop_ = &loop` -/
  | built
  /-- before `latch_.count()` -/
  | published
  /-- before `loop.loop()`, and in it -/
  | counted
  /-- before `loop_ = nullptr` -/
  | returned
  /-- the thread has ended, and its loop with it -/
  | ended
  deriving DecidableEq, Repr

/-- The two threads, with the threads `ι` that use the loop and its tasks `τ`. -/
structure State (ι τ : Type) where
  owner : Owner
  runner : Runner
  /-- `loop_ != nullptr` -/
  published : Bool
  /-- `count_` of the latch -/
  count : ℤ
  loop : EventLoop.State ι τ
  /-- a call of `quit` has set `quit_` -/
  asked : Bool

/-- What happens: a step of the two threads around the loop, or one of the loop. -/
inductive Action (ι τ : Type) where
  | control
  | loop (a : EventLoop.Action ι τ)

variable {ι τ : Type}

/-- A constructed loop. -/
def constructedLoop : EventLoop.State ι τ :=
  ⟨.before, fun _ => .outside, false, false, 0, [], [], [], [], [], []⟩

/-- A constructed `EventLoopThread`. -/
def init : State ι τ := ⟨.constructed, .absent, false, 1, constructedLoop, false⟩

/-- The thread that takes a step of the loop. -/
def actor : EventLoop.Action ι τ → Option ι
  | .push w _ | .wake w | .ret w | .quitBegin w | .quitSet w | .quitWake w => w
  | .loop => none

/-- The step sets `quit_`. -/
def setsQuit : EventLoop.Action ι τ → Bool
  | .quitSet _ => true
  | _ => false

/-- The step is one of `quit`, behind its assertion. -/
def inQuit : EventLoop.Action ι τ → Bool
  | .quitSet _ | .quitWake _ => true
  | _ => false

namespace State

variable (s : State ι τ)

/-- The loop goes on to `l`. -/
def next (a : EventLoop.Action ι τ) (l : EventLoop.State ι τ) : State ι τ :=
  { s with loop := l, asked := s.asked || setsQuit a }

/-- `latch_.count()` -/
def countDown : State ι τ :=
  { s with
    runner := .counted
    count := s.count - 1
    owner := if s.count - 1 ≤ 0 ∧ s.owner = .sleeping then .waiting else s.owner }

end State

variable [DecidableEq ι]

/-- The steps.  The owner is the thread `o` of the loop. -/
inductive Step (o : ι) : State ι τ → Action ι τ → State ι τ → Prop
  /-- `startLoop()`, up to `latch_.wait()` -/
  | startLoop {s} : s.owner = .constructed →
      Step o s .control { s with owner := .waiting, runner := .built }
  | awake {s} : s.owner = .waiting → s.count ≤ 0 → Step o s .control { s with owner := .started }
  | sleep {s} : s.owner = .waiting → 0 < s.count → Step o s .control { s with owner := .sleeping }
  /-- a spurious wake-up -/
  | spurious {s} : s.owner = .sleeping → Step o s .control { s with owner := .waiting }
  /-- `~EventLoopThread()` is called -/
  | destroy {s} : s.owner = .started → s.loop.stage (some o) = .outside →
      Step o s .control { s with owner := .destroying }
  /-- `loop_ != nullptr` -/
  | found {s} : s.owner = .destroying → s.published = true →
      Step o s .control { s with owner := .found }
  | notFound {s} : s.owner = .destroying → s.published = false →
      Step o s .control { s with owner := .joining }
  /-- `loop_` is called behind the end of the loop -/
  | dangle {s} : s.owner = .found ∨ s.owner = .quitting → s.runner = .ended →
      Step o s .control { s with owner := .dangling }
  /-- `quit()` is called -/
  | callQuit {s l} : s.owner = .found → s.runner ≠ .ended →
      EventLoop.Step s.loop (.quitBegin (some o)) l →
        Step o s (.loop (.quitBegin (some o)))
          { s.next (.quitBegin (some o)) l with owner := .quitting }
  /-- a step of the owner in `quit()` -/
  | inQuit {s a l} : s.owner = .quitting → s.runner ≠ .ended → actor a = some o → inQuit a = true →
      EventLoop.Step s.loop a l → Step o s (.loop a) (s.next a l)
  /-- `quit()` has returned -/
  | quitDone {s} : s.owner = .quitting → s.loop.stage (some o) = .outside →
      Step o s .control { s with owner := .joining }
  | join {s} : s.owner = .joining → s.runner = .ended →
      Step o s .control { s with owner := .joined }
  /-- `loop_ = &loop` -/
  | publish {s} : s.runner = .built →
      Step o s .control { s with runner := .published, published := true }
  | countDown {s} : s.runner = .published → Step o s .control s.countDown
  /-- `loop()` returns -/
  | leave {s} : s.runner = .counted → s.loop.point = .returned →
      Step o s .control { s with runner := .returned }
  /-- `loop_ = nullptr`, and the loop is destroyed -/
  | unpublish {s} : s.runner = .returned →
      Step o s .control { s with runner := .ended, published := false }
  /-- a step of the loop thread, in `loop()` -/
  | own {s a l} : s.runner = .counted → actor a = none → (s.loop.point = .before → a = .loop) →
      EventLoop.Step s.loop a l → Step o s (.loop a) (s.next a l)
  /-- a step of another thread; the owner uses the loop until it destroys it -/
  | other {s a l i} : s.owner.Started → s.runner ≠ .ended → (i = o → s.owner = .started) →
      actor a = some i → EventLoop.Step s.loop a l → Step o s (.loop a) (s.next a l)

/-! ### Calls of `quit` -/

/-- The owner waits in `thread_.join()` for a loop that sleeps, and nothing is going
to wake it. -/
structure LostQuit (s : State ι τ) : Prop where
  joining : s.owner = .joining
  counted : s.runner = .counted
  polling : s.loop.point = .polling
  quit : s.loop.quit = false
  counter : s.loop.counter = 0

/-- **A call of `quit` is kept**: `quit_` is true from then on, and the owner does
not wait for a loop that sleeps. -/
structure QuitKept (s : State ι τ) : Prop where
  quit : s.asked = true → s.loop.quit = true
  awake : s.asked = true → ¬ LostQuit s

/-- `loop()` has not come to its assignment `quit_ = false` yet. -/
def Early (p : EventLoop.Point) : Prop := p = .before ∨ p = .entered

/-- If the step sets `quit_`, `loop()` has made its assignment to it. -/
def OnTime (s : State ι τ) : Action ι τ → Prop
  | .control => True
  | .loop a => setsQuit a = true → ¬ Early s.loop.point

/-- What a call of `quit` on time leaves. -/
def Kept (s : State ι τ) : Prop :=
  s.asked = true → s.loop.quit = true ∧ ¬ Early s.loop.point

variable {s s' s₀ : State ι τ} {o : ι} {a : Action ι τ} {as : List (Action ι τ)}
  {l l' : EventLoop.State ι τ} {b : EventLoop.Action ι τ}

omit [DecidableEq ι] in
theorem Kept.quitKept (h : Kept s) : QuitKept s :=
  ⟨fun ha => (h ha).1, fun ha hl => absurd ((h ha).1.symm.trans hl.quit) nofun⟩

/-- A step of the loop behind the assignment leaves `quit_` set. -/
theorem quit_of_step (h : EventLoop.Step l b l') (hq : l.quit = true ∨ setsQuit b = true)
    (hp : ¬ Early l.point) : l'.quit = true ∧ ¬ Early l'.point := by
  have hkeep : setsQuit b = false → l.quit = true := fun hb =>
    hq.resolve_right (by rw [hb]; exact nofun)
  cases h with
  | push | wake | ret | quitBegin | quitWake => exact ⟨hkeep rfl, hp⟩
  | quitSet => exact ⟨rfl, hp⟩
  | enter hb => exact absurd (.inl hb) hp
  | clearQuit hb => exact absurd (.inr hb) hp
  | _ => exact ⟨hkeep rfl, by rintro (h | h) <;> cases h⟩

/-- The loop goes on, with the calls on time. -/
theorem Kept.next (h : Kept s) (hst : EventLoop.Step s.loop b l)
    (ht : setsQuit b = true → ¬ Early s.loop.point) : Kept (s.next b l) := by
  intro ha
  rcases Bool.or_eq_true_iff.1 ha with ha | hb
  · exact quit_of_step hst (.inl (h ha).1) (h ha).2
  · exact quit_of_step hst (.inr hb) (ht hb)

/-- **Calls on time are kept by every step**: once `quit_` has been set behind the
assignment of `loop()`, nothing sets it back. -/
theorem Kept.step (h : Kept s) (hst : Step o s a s') (ht : OnTime s a) : Kept s' := by
  cases hst with
  | callQuit _ _ hl => exact h.next hl ht
  | inQuit _ _ _ _ hl => exact h.next hl ht
  | own _ _ _ hl => exact h.next hl ht
  | other _ _ _ _ hl => exact h.next hl ht
  | _ => exact h

/-- **No call of `quit` is lost**, in every run in which none sets `quit_` before `loop()`
has made its own assignment to it: `quit_` is true from then on, and the owner does not wait
for a loop that sleeps. -/
theorem quitKept_of_run (hrun : Run (fun s a s' => Step o s a s' ∧ OnTime s a) init as s) :
    QuitKept s := by
  have hkept : Kept s :=
    hrun.preserves (P := fun s => Kept s) nofun fun _ _ _ h hst => h.step hst.1 hst.2
  exact hkept.quitKept

/-- The loop has been published, and the owner has it. -/
theorem run_started : Run (fun s a s' => Step () s a s' ∧ OnTime s a)
    (init : State Unit Unit) (List.replicate 4 .control)
    ⟨.started, .counted, true, 0, constructedLoop, false⟩ :=
  (((Run.nil.snoc ⟨.startLoop rfl, trivial⟩).snoc ⟨.publish rfl, trivial⟩).snoc
    ⟨.countDown rfl, trivial⟩).snoc ⟨.awake rfl (by decide), trivial⟩

/-- The hypotheses of `quitKept_of_run` are satisfiable: the loop sleeps when `quit`
is called. -/
theorem quitKept_of_run_joining : ∃ (as : List (Action Unit Unit)) (s : State Unit Unit),
    Run (fun s a s' => Step () s a s' ∧ OnTime s a) init as s ∧ s.owner = .joining ∧
      s.asked = true ∧ QuitKept s := by
  have henter := run_started.snoc ⟨.own rfl rfl (fun _ => rfl) (.enter rfl rfl), nofun⟩
  have hclear := henter.snoc ⟨.own rfl rfl nofun (.clearQuit rfl), nofun⟩
  have hpoll := hclear.snoc ⟨.own rfl rfl nofun (.iterate rfl rfl), nofun⟩
  have hfound := (hpoll.snoc ⟨.destroy rfl rfl, trivial⟩).snoc ⟨.found rfl rfl, trivial⟩
  have hcall := hfound.snoc ⟨.callQuit rfl nofun (.quitBegin ⟨rfl, nofun⟩ rfl), nofun⟩
  have hset := hcall.snoc ⟨.inQuit rfl nofun rfl rfl (.quitSet rfl), fun _ => by
    rintro (h | h) <;> cases h⟩
  have hwake := hset.snoc ⟨.inQuit rfl nofun rfl rfl (.quitWake rfl), nofun⟩
  have hdone := hwake.snoc ⟨.quitDone rfl rfl, trivial⟩
  exact ⟨_, _, hdone, rfl, rfl, quitKept_of_run hdone⟩

/-- **`~EventLoopThread` waits for ever** if it calls `quit` before the other thread has
entered `loop()`, which then sets `quit_` to false and polls. -/
theorem not_quitKept_early :
    ¬ ∀ (as : List (Action Unit Unit)) (s : State Unit Unit), Run (Step ()) init as s →
      QuitKept s := by
  intro h
  have hstarted := run_started.mono fun _ _ _ hst => hst.1
  have hfound := (hstarted.snoc (.destroy rfl rfl)).snoc (.found rfl rfl)
  have hset := (hfound.snoc (.callQuit rfl nofun (.quitBegin ⟨rfl, nofun⟩ rfl))).snoc
    (.inQuit rfl nofun rfl rfl (.quitSet rfl))
  have hdone := (hset.snoc (.inQuit rfl nofun rfl rfl (.quitWake rfl))).snoc (.quitDone rfl rfl)
  have hclear := (hdone.snoc (.own rfl rfl (fun _ => rfl) (.enter rfl rfl))).snoc
    (.own rfl rfl nofun (.clearQuit rfl))
  -- the first iteration, which reads the wake-up of `quit`
  have hpoll := (hclear.snoc (.own rfl rfl nofun (.iterate rfl rfl))).snoc
    (.own rfl rfl nofun (.poll [.wakeup] rfl fun _ => Nat.one_pos))
  have hswap := ((hpoll.snoc (.own rfl rfl nofun (.drain rfl))).snoc
    (.own rfl rfl nofun (.doPendingTasks rfl))).snoc (.own rfl rfl nofun (.swap rfl))
  have hlower := (hswap.snoc (.own rfl rfl nofun (.raise rfl))).snoc
    (.own rfl rfl nofun (.lower rfl rfl))
  have hsleep := hlower.snoc (.own rfl rfl nofun (.iterate rfl rfl))
  exact (h _ _ hsleep).awake rfl ⟨rfl, rfl, rfl, rfl, rfl⟩

/-- A call of `quit` has set `quit_` before `loop()` clears it. -/
structure Undone (s : State ι τ) : Prop where
  asked : s.asked = true
  early : Early s.loop.point

/-- The step that leaves such a state is the assignment. -/
theorem Undone.step (h : Undone s) (hst : Step o s a s') : Undone s' ∨ ¬ QuitKept s' := by
  have hnext : ∀ {b l}, EventLoop.Step s.loop b l →
      Undone (s.next b l) ∨ l.quit = false ∧ (s.next b l).asked = true := by
    intro b l hl
    have hask : (s.next b l).asked = true := Bool.or_eq_true_iff.2 (.inl h.asked)
    have hearly := h.early
    cases hl with
    | push | wake | ret | quitBegin | quitSet | quitWake => exact .inl ⟨hask, hearly⟩
    | enter => exact .inl ⟨hask, .inr rfl⟩
    | clearQuit => exact .inr ⟨rfl, hask⟩
    | iterate hp | leave hp | poll _ hp _ | drain hp | handle hp | handled hp | doPendingTasks hp
    | swap hp | raise hp | start hp | finish hp | lower hp =>
      rcases hearly with he | he <;> rw [hp] at he <;> cases he
  have hlost : ∀ {t : State ι τ}, t.loop.quit = false ∧ t.asked = true → ¬ QuitKept t :=
    fun ht hk => absurd (ht.1.symm.trans (hk.quit ht.2)) nofun
  cases hst with
  | callQuit _ _ hl => exact (hnext hl).imp (fun hu => ⟨hu.asked, hu.early⟩) hlost
  | inQuit _ _ _ _ hl => exact (hnext hl).imp_right hlost
  | own _ _ _ hl => exact (hnext hl).imp_right hlost
  | other _ _ _ _ hl => exact (hnext hl).imp_right hlost
  | _ => exact .inl ⟨h.asked, h.early⟩

/-- **A call that is too early is undone**: no run goes past the beginning of
`loop()` without a state in which the call is lost. -/
theorem undone_or_lost (h : Undone s₀) (hrun : Run (Step o) s₀ as s) :
    Undone s ∨ ∃ as₁ as₂ t, as = as₁ ++ as₂ ∧ Run (Step o) s₀ as₁ t ∧ Run (Step o) t as₂ s ∧
      ¬ QuitKept t := by
  induction hrun with
  | nil => exact .inl h
  | @snoc as s a s' hrun hst ih =>
    rcases ih with hu | ⟨as₁, as₂, t, rfl, h₁, h₂, ht⟩
    · refine (hu.step hst).imp_right fun hlost => ?_
      exact ⟨as ++ [a], [], s', (List.append_nil _).symm, hrun.snoc hst, .nil, hlost⟩
    · exact .inr ⟨as₁, as₂ ++ [a], t, List.append_assoc .., h₁, h₂.snoc hst, ht⟩

end EventLoopThread
end BearRpc
