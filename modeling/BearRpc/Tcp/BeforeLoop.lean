/-
# Tasks queued before the loop starts

`EventLoop::queueInLoop` before `EventLoop::loop` is called
(`src/RPC/bearTCP/Eventloop.cc`, lines 62 to 75 and 101 to 123), and what becomes of
these tasks.

On the loop's own thread `queueInLoop` writes to the eventfd only in a pending task.
The comment over this test has the loop thread woken "if we are in loop thread && doing
pending task", because it then polls before it looks at `pendingTasks_` again.  But
`loop()` polls first as well.  So a task queued before it, on its own thread, lies in
`pendingTasks_` while `poll` blocks, unless some other thread queued one, too: its
wake-up is for all (`not_stranded_iff`).
-/

import BearRpc.Tcp.Wakeup

namespace BearRpc

open Theory Function

namespace EventLoop

variable {ι τ : Type} [DecidableEq ι]

/-- An event loop just constructed. -/
def constructed : State ι τ := ⟨.before, fun _ => .outside, false, false, 0, [], [], [], [], [], []⟩

/-- A step of `queueInLoop`. -/
def Action.Queues : Action ι τ → Prop
  | .push _ _ | .wake _ | .ret _ => True
  | _ => False

/-- **The first `n` tasks are stranded**: the loop thread is blocked in `poll`, the
counter is zero, one of them is still in `pendingTasks_`, and no other thread is
about to write to the eventfd for one of them. -/
structure Stranded (n : ℕ) (s : State ι τ) : Prop where
  blocked : s.point = .polling ∧ s.counter = 0
  pending : s.taken < n
  outside : ∀ i k, s.stage (some i) = .queued k → n ≤ k

/-- No task was queued on the loop's own thread, or one on another. -/
def WokenUp (as : List (Action ι τ)) : Prop :=
  (∀ t, .push none t ∉ as) ∨ ∃ i t, .push (some i) t ∈ as

variable {s s' s₁ : State ι τ} {a : Action ι τ} {as : List (Action ι τ)} {n : ℕ}

/-! ### Before the loop -/

omit [DecidableEq ι] in
theorem quiet_constructed : Quiet (constructed : State ι τ) where
  own := rfl
  doing := rfl
  tasks := rfl
  ordered := rfl
  numbered := by
    rintro w k (h | h)
    · cases h
    · cases h
  completed := nofun
  owed := rfl

/-- What the calls `as` of `queueInLoop` before `loop()` lead to. -/
structure Prelude (as : List (Action ι τ)) (s : State ι τ) : Prop where
  point : s.point = .before
  doing : s.doing = false
  taken : s.executed = [] ∧ s.tasks = []
  pushed : s.pushed ≠ [] ↔ ∃ w t, .push w t ∈ as
  /-- without a call of another thread, nobody writes to the eventfd -/
  alone : (∀ i t, .push (some i) t ∉ as) → s.counter = 0 ∧ ∀ i, s.stage (some i) = .outside
  /-- with one, somebody has or will -/
  woken : ∀ i t, .push (some i) t ∈ as → 0 < s.counter ∨ ∃ j k, s.stage (some j) = .queued k

omit [DecidableEq ι] in
theorem prelude_constructed : Prelude [] (constructed : State ι τ) where
  point := rfl
  doing := rfl
  taken := ⟨rfl, rfl⟩
  pushed := by simp [constructed]
  alone := fun _ => ⟨rfl, fun _ => rfl⟩
  woken := fun _ _ h => absurd h List.not_mem_nil

/-- A thread other than `w` keeps its stage. -/
theorem queued_of_update {w : Option ι} {j : ι} {k : ℕ} {st : Stage} (hw : some j ≠ w)
    (hk : s.stage (some j) = .queued k) : update s.stage w st (some j) = .queued k := by
  rwa [update_of_ne hw]

omit [DecidableEq ι] in
/-- A step that pushes nothing. -/
theorem Prelude.of_step (h : Prelude as s) (ha : ∀ w t, a ≠ .push w t)
    (point : s'.point = s.point) (doing : s'.doing = s.doing)
    (taken : s'.executed = s.executed ∧ s'.tasks = s.tasks) (pushed : s'.pushed = s.pushed)
    (alone : s.counter = 0 → (∀ i, s.stage (some i) = .outside) →
      s'.counter = 0 ∧ ∀ i, s'.stage (some i) = .outside)
    (woken : (0 < s.counter ∨ ∃ j k, s.stage (some j) = .queued k) →
      0 < s'.counter ∨ ∃ j k, s'.stage (some j) = .queued k) : Prelude (as ++ [a]) s' := by
  have hmem (w : Option ι) (t : τ) : .push w t ∈ as ++ [a] ↔ .push w t ∈ as := by
    rw [List.mem_append, List.mem_singleton]
    exact or_iff_left (ha w t).symm
  refine ⟨point.trans h.point, doing.trans h.doing, ?_, ?_, fun hno => ?_, fun i t hin => ?_⟩
  · exact ⟨taken.1.trans h.taken.1, taken.2.trans h.taken.2⟩
  · simp only [pushed, hmem]
    exact h.pushed
  · obtain ⟨hcounter, hout⟩ := h.alone fun i t hin => hno i t ((hmem (some i) t).2 hin)
    exact alone hcounter hout
  · exact woken (h.woken i t ((hmem (some i) t).1 hin))

/-- One step of a call. -/
theorem Prelude.step (h : Prelude as s) (hstep : Step s a s') (ha : a.Queues) :
    Prelude (as ++ [a]) s' := by
  cases hstep with
  | @push w t hc =>
    refine ⟨h.point, h.doing, h.taken, ?_, fun hno => ?_, fun i t' hmem => ?_⟩
    · exact iff_of_true (List.append_ne_nil_of_right_ne_nil _ (List.cons_ne_nil _ _))
        ⟨w, t, List.mem_append_right _ (List.mem_singleton_self _)⟩
    · obtain ⟨hcounter, hout⟩ := h.alone fun i t' hmem => hno i t' (List.mem_append_left _ hmem)
      refine ⟨hcounter, fun i => ?_⟩
      have hne : some i ≠ w := by
        rintro rfl
        exact hno i t (List.mem_append_right _ (List.mem_singleton_self _))
      exact (update_of_ne hne _ _).trans (hout i)
    · rcases List.mem_append.1 hmem with hmem | hmem
      · rcases h.woken i t' hmem with hpos | ⟨j, k, hk⟩
        · exact .inl hpos
        · refine .inr ⟨j, k, queued_of_update ?_ hk⟩
          rintro rfl
          rw [hc.1] at hk
          cases hk
      · have heq := List.mem_singleton.1 hmem
        cases heq
        exact .inr ⟨i, s.pushed.length, update_self ..⟩
  | @wake w k hw =>
    refine h.of_step (fun _ _ heq => by cases heq) rfl rfl ⟨rfl, rfl⟩ rfl
      (fun hcounter hout => ?_) fun hwoken => ?_
    · -- another thread has pushed nothing, so this one is the loop thread
      have hnone : w = none := by
        cases w with
        | none => rfl
        | some i =>
          rw [hout i] at hw
          cases hw
      subst hnone
      have hstage (i : ι) : (s.wake none k).stage (some i) = s.stage (some i) :=
        update_of_ne (Option.some_ne_none i) (.woken k) s.stage
      refine ⟨?_, fun i => (hstage i).trans (hout i)⟩
      change s.wakeup none s.doing = 0
      rw [State.wakeup, h.doing, if_neg (by simp)]
      exact hcounter
    · rcases hwoken with hpos | ⟨j, k', hk'⟩
      · exact .inl (Nat.lt_of_lt_of_le hpos (s.counter_le_wakeup w s.doing))
      · by_cases hj : some j = w
        · have hw' : w ≠ none := hj ▸ Option.some_ne_none j
          exact .inl (s.wakeup_pos (.inl hw'))
        · exact .inr ⟨j, k', queued_of_update hj hk'⟩
  | @ret w k hw =>
    refine h.of_step (fun _ _ heq => by cases heq) rfl rfl ⟨rfl, rfl⟩ rfl
      (fun hcounter hout => ?_) fun hwoken => ?_
    · refine ⟨hcounter, fun i => ?_⟩
      by_cases hi : some i = w
      · rw [← hi]
        exact update_self ..
      · exact (update_of_ne hi _ _).trans (hout i)
    · rcases hwoken with hpos | ⟨j, k', hk'⟩
      · exact .inl hpos
      · refine .inr ⟨j, k', queued_of_update ?_ hk'⟩
        rintro rfl
        rw [hw] at hk'
        cases hk'
  | _ => exact ha.elim

/-- **Before the loop**, in every run in which tasks are only queued: all of them are
pending, and if another thread was among those that queued one, somebody has written to the
descriptor or will; otherwise nobody does. -/
theorem prelude_run (hrun : Run Step constructed as s) (has : ∀ a ∈ as, a.Queues) :
    Prelude as s := by
  induction hrun with
  | nil => exact prelude_constructed
  | snoc _ hstep ih =>
    exact (ih fun a ha => has a (List.mem_append_left _ ha)).step hstep
      (has _ (List.mem_append_right _ (List.mem_singleton_self _)))

/-! ### Behind `loop()` -/

/-- One of the first `n` tasks that is not taken out yet will be: the counter is
positive, or a thread is about to make it so, or the swap comes before the next
poll. -/
structure Covered (n : ℕ) (s : State ι τ) : Prop where
  pushed : n ≤ s.pushed.length
  covered : s.taken < n →
    0 < s.counter ∨ (∃ i k, s.stage (some i) = .queued k ∧ k < n) ∨ s.point.Polled

omit [DecidableEq ι] in
theorem Covered.not_stranded (h : Covered n s) : ¬ Stranded n s := by
  rintro ⟨⟨hp, hc⟩, htaken, hout⟩
  rcases h.covered htaken with hpos | ⟨i, k, hk, hlt⟩ | hb
  · omega
  · have hle := hout i k hk
    omega
  · rw [hp] at hb
    exact hb

/-- A step of a thread that was not about to write to the eventfd. -/
theorem Covered.call (h : Covered n s) {w : Option ι} {st : Stage}
    (hw : ∀ k, s.stage w ≠ .queued k) (hstage : s'.stage = update s.stage w st)
    (hpoint : s'.point = s.point) (hcounter : s.counter ≤ s'.counter) (htaken : s'.taken = s.taken)
    (hpushed : s.pushed.length ≤ s'.pushed.length) : Covered n s' := by
  refine ⟨Nat.le_trans h.pushed hpushed, fun hlt => ?_⟩
  rw [htaken] at hlt
  rcases h.covered hlt with hpos | ⟨i, k, hk, hkn⟩ | hb
  · exact .inl (Nat.lt_of_lt_of_le hpos hcounter)
  · refine .inr (.inl ⟨i, k, ?_, hkn⟩)
    rw [hstage]
    refine queued_of_update ?_ hk
    rintro rfl
    exact hw k hk
  · exact .inr (.inr (hpoint ▸ hb))

omit [DecidableEq ι] in
/-- A step of the loop thread that takes no task out. -/
theorem Covered.move (h : Covered n s) (hb : ¬ s.point.Polled) (hstage : s'.stage = s.stage)
    (hcounter : s'.counter = s.counter) (htaken : s'.taken = s.taken)
    (hpushed : s'.pushed = s.pushed) : Covered n s' := by
  refine ⟨hpushed ▸ h.pushed, fun hlt => ?_⟩
  rw [htaken] at hlt
  rw [hcounter, hstage]
  rcases h.covered hlt with hpos | hq | hb'
  · exact .inl hpos
  · exact .inr (.inl hq)
  · exact absurd hb' hb

/-- **Every step keeps the first tasks covered**: as long as they wait, the loop has them
taken or will be woken up for them. -/
theorem Covered.step (h : Covered n s) (hs : Sound s) (hst : Step s a s') : Covered n s' := by
  cases hst with
  | push t hc =>
    refine h.call (by rw [hc.1]; rintro _ ⟨⟩) rfl rfl (Nat.le_refl _) rfl ?_
    simp [State.push]
  | @wake w k hw =>
    refine ⟨h.pushed, fun hlt => ?_⟩
    rcases h.covered hlt with hpos | ⟨i, k', hk', hkn⟩ | hb
    · exact .inl (Nat.lt_of_lt_of_le hpos (s.counter_le_wakeup w s.doing))
    · by_cases hi : some i = w
      · have hw' : w ≠ none := hi ▸ Option.some_ne_none i
        exact .inl (s.wakeup_pos (.inl hw'))
      · exact .inr (.inl ⟨i, k', queued_of_update hi hk', hkn⟩)
    · exact .inr (.inr hb)
  | ret hw | quitSet hw =>
    exact h.call (by rw [hw]; rintro _ ⟨⟩) rfl rfl (Nat.le_refl _) rfl (Nat.le_refl _)
  | quitBegin hc _ =>
    exact h.call (by rw [hc.1]; rintro _ ⟨⟩) rfl rfl (Nat.le_refl _) rfl (Nat.le_refl _)
  | quitWake hw =>
    exact h.call (by rw [hw]; rintro _ ⟨⟩) rfl rfl (s.counter_le_wakeup _ false) rfl (Nat.le_refl _)
  | poll _ _ _ => exact ⟨h.pushed, fun _ => .inr (.inr trivial)⟩
  | drain _ | handle _ | handled _ _ | doPendingTasks _ =>
    exact ⟨h.pushed, fun _ => .inr (.inr trivial)⟩
  | swap hp =>
    -- all that was pushed is taken out
    have ht : s.tasks = [] := (hs.idle hp (by decide) (by decide) (by decide)).1
    have hlen : s.pushed.length = s.executed.length + s.pending.length := by
      rw [hs.ordered, ht, List.append_nil, List.length_append]
    refine ⟨h.pushed, fun hlt => ?_⟩
    have hpushed := h.pushed
    change s.executed.length + s.pending.length < n at hlt
    omega
  | start hp ht =>
    refine h.move (by rw [hp]; rintro ⟨⟩) rfl rfl ?_ rfl
    simp only [State.taken, State.start, ht, List.length_append, List.length_cons, List.length_nil]
    omega
  | enter hp _ | clearQuit hp | iterate hp _ | leave hp _ | raise hp | finish hp _ | lower hp _ =>
    exact h.move (by rw [hp]; rintro ⟨⟩) rfl rfl rfl rfl

/-- The other threads in `queueInLoop` have pushed none of the first `n` tasks. -/
structure Later (n : ℕ) (s : State ι τ) : Prop where
  pushed : n ≤ s.pushed.length
  queued : ∀ i k, s.stage (some i) = .queued k → n ≤ k

theorem Later.update (h : Later n s) {w : Option ι} {st : Stage}
    (hst : ∀ k, st = .queued k → n ≤ k) (i : ι) (k : ℕ)
    (hk : update s.stage w st (some i) = .queued k) : n ≤ k := by
  by_cases hi : some i = w
  · rw [← hi, update_self] at hk
    exact hst k hk
  · rw [update_of_ne hi] at hk
    exact h.queued i k hk

theorem Later.step (h : Later n s) (hst : Step s a s') : Later n s' := by
  cases hst with
  | push t _ =>
    refine ⟨?_, h.update fun k hk => ?_⟩
    · exact Nat.le_trans h.pushed (by simp [State.push])
    · cases hk
      exact h.pushed
  | wake _ | ret _ | quitBegin _ _ | quitSet _ | quitWake _ => exact ⟨h.pushed, h.update nofun⟩
  | _ => exact ⟨h.pushed, h.queued⟩

/-- **Without a call of another thread** the loop sleeps on the tasks of its own:
`queueInLoop` wakes it up only if it is running or if the caller is another thread, and the
loop polls first. -/
theorem Prelude.exists_stranded (h : Prelude as s₁) (hown : s₁.stage none = .outside)
    (hno : ¬ WokenUp as) : ∃ bs s, Run Step s₁ (.loop :: bs) s ∧ Stranded s₁.pushed.length s := by
  rw [WokenUp, not_or, not_forall] at hno
  obtain ⟨⟨t, ht⟩, hothers⟩ := hno
  obtain ⟨hcounter, hout⟩ := h.alone fun i t' hmem => hothers ⟨i, t', hmem⟩
  have hne : s₁.pushed ≠ [] := h.pushed.2 ⟨none, t, not_not.1 ht⟩
  have hrun := ((Run.single (Step.enter h.point hown)).snoc (.clearQuit rfl)).snoc
    (.iterate rfl rfl)
  refine ⟨_, _, hrun, ⟨rfl, hcounter⟩, ?_, fun i k hk => ?_⟩
  · change s₁.executed.length + s₁.tasks.length < s₁.pushed.length
    rw [h.taken.1, h.taken.2]
    exact List.length_pos_iff.2 hne
  · rw [hout i] at hk
    cases hk

omit [DecidableEq ι] in
/-- With one, every task is covered when `loop()` is called. -/
theorem Prelude.covered (h : Prelude as s₁) (hs : Sound s₁) (hwoken : WokenUp as) :
    Covered s₁.pushed.length s₁ := by
  refine ⟨Nat.le_refl _, fun hlt => ?_⟩
  have hne : s₁.pushed ≠ [] := List.length_pos_iff.1 (Nat.zero_lt_of_lt hlt)
  have hother : ∃ i t, .push (some i) t ∈ as := by
    rcases hwoken with hnone | hother
    · obtain ⟨w, t, hmem⟩ := h.pushed.1 hne
      cases w with
      | none => exact absurd hmem (hnone t)
      | some i => exact ⟨i, t, hmem⟩
    · exact hother
  obtain ⟨i, t, hmem⟩ := hother
  rcases h.woken i t hmem with hpos | ⟨j, k, hk⟩
  · exact .inl hpos
  · exact .inr (.inl ⟨j, k, hk, hs.numbered _ k (.inl hk)⟩)

/-- **When the tasks queued before `loop()` are not stranded**: none was queued on
the loop's own thread, or one on another.  If all calls have returned when `loop()`
is called, then no other thread is ever about to write to the eventfd for one of
these tasks. -/
theorem not_stranded_iff (hpre : Run Step constructed as s₁) (has : ∀ a ∈ as, a.Queues)
    (hown : s₁.stage none = .outside) :
    ((∀ bs s, Run Step s₁ (.loop :: bs) s → ¬ Stranded s₁.pushed.length s) ↔ WokenUp as) ∧
      ((∀ w, s₁.stage w = .outside) → ∀ bs s, Run Step s₁ bs s →
        ∀ i k, s.stage (some i) = .queued k → s₁.pushed.length ≤ k) := by
  have hs₁ : Sound s₁ := sound_of_run quiet_constructed (.inl rfl) hpre
  have hprelude := prelude_run hpre has
  refine ⟨⟨?_, ?_⟩, ?_⟩
  · intro hall
    by_contra hno
    obtain ⟨bs, s, hrun, hstranded⟩ := hprelude.exists_stranded hown hno
    exact hall bs s hrun hstranded
  · intro hwoken bs s hrun
    have hinv : Sound s ∧ Covered s₁.pushed.length s :=
      hrun.preserves (P := fun s => Sound s ∧ Covered s₁.pushed.length s)
        ⟨hs₁, hprelude.covered hs₁ hwoken⟩ fun _ _ _ h hst => ⟨h.1.step hst, h.2.step h.1 hst⟩
    exact hinv.2.not_stranded
  · intro hout bs s hrun
    have hlater : Later s₁.pushed.length s₁ := by
      refine ⟨Nat.le_refl _, fun i k hk => ?_⟩
      rw [hout] at hk
      cases hk
    exact (hrun.preserves hlater fun _ _ _ h hst => h.step hst).queued

/-- A call of `queueInLoop` from beginning to end, before `loop()`. -/
theorem exists_queued (w : Option Unit) : ∃ s₁ : State Unit Unit,
    Run Step constructed [.push w (), .wake w, .ret w] s₁ ∧ s₁.stage none = .outside ∧
      s₁.point = .before ∧ s₁.counter = (if w = none then 0 else 1) ∧ s₁.pending = [()] := by
  have hpush : Run Step (constructed : State Unit Unit) [.push w ()] (constructed.push w ()) :=
    .single (.push () ⟨rfl, fun _ => trivial⟩)
  refine ⟨_, (hpush.snoc (.wake (update_self ..))).snoc (.ret (update_self ..)), ?_, rfl, ?_, rfl⟩
  · cases w with
    | none => rfl
    | some i => rfl
  · cases w with
    | none => rfl
    | some i => rfl

/-- A task queued on another thread is not stranded. -/
theorem not_stranded_iff_otherThread : ∃ s₁ : State Unit Unit,
    Run Step constructed [.push (some ()) (), .wake (some ()), .ret (some ())] s₁ ∧
    s₁.stage none = .outside ∧
    ((∀ bs s, Run Step s₁ (.loop :: bs) s → ¬ Stranded s₁.pushed.length s) ↔
      WokenUp [.push (some ()) (), .wake (some ()), (.ret (some ()) : Action Unit Unit)]) ∧
    ((∀ w, s₁.stage w = .outside) → ∀ bs s, Run Step s₁ bs s →
      ∀ i k, s.stage (some i) = .queued k → s₁.pushed.length ≤ k) := by
  obtain ⟨s₁, hpre, hown, -⟩ := exists_queued (some ())
  refine ⟨s₁, hpre, hown, not_stranded_iff hpre ?_ hown⟩
  rintro a ha
  simp only [List.mem_cons, List.not_mem_nil, or_false] at ha
  rcases ha with rfl | rfl | rfl <;> trivial

/-- **A task queued on the loop's own thread is stranded**: `poll` blocks on an empty
eventfd while the task is in `pendingTasks_`. -/
theorem stranded_ownThread : ∃ s₁ s : State Unit Unit,
    Run Step constructed [.push none (), .wake none, .ret none] s₁ ∧
    s₁.stage none = .outside ∧ Run Step s₁ [.loop, .loop, .loop] s ∧ s.point = .polling ∧
    s.counter = 0 ∧ s.pending = [()] := by
  obtain ⟨s₁, hpre, hown, hpoint, hcounter, hpending⟩ := exists_queued none
  exact ⟨s₁, _, hpre, hown, ((Run.single (Step.enter hpoint hown)).snoc (.clearQuit rfl)).snoc
    (.iterate rfl rfl), rfl, hcounter, hpending⟩

end EventLoop
end BearRpc
