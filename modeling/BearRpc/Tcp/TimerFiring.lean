/-
# Which timers fire

`TimerQueue::getExpired` and `handleRead` (`src/RPC/bearTCP/TimerQueue.cc`, lines 105
to 139) with `Timer::restart` (`Timer.h`, lines 24 to 28).

The key `(now + 1ns, nullptr)` is behind every entry that is due at `now` and before
every other one.  What the callbacks do meanwhile concerns other timers, so one
`handleRead` fires exactly the timers that were due, each once and in the order of
their times (`Reading.fires`).
-/

import BearRpc.Tcp.TimerOwnership

namespace BearRpc

open Theory Function

namespace TimerQueue

/-- The callbacks started, in order. -/
def startedOf (h : List Event) : List Ptr :=
  h.filterMap fun | .started p => some p | _ => none

/-- The entries of a timer. -/
def entriesOf (timers : Finset Entry) (p : Ptr) : Finset Entry := timers.filter (·.timer = p)

/-- The timer `p` is `t` and has one entry. -/
def Pending (s : State) (p : Ptr) (t : Timer) : Prop :=
  s.heap p = some t ∧ entriesOf s.timers p = {entry t.when p}

/-- The timer `p` is no more, and has no entry. -/
def Gone (s : State) (p : Ptr) : Prop := s.heap p = none ∧ entriesOf s.timers p = ∅

/-- The timers of the batch at `now`. -/
def batch (s : State) (now : ℤ) : List Ptr := (getExpired s now).map Entry.timer

/-- **What one `handleRead` does** between `s` and `s'`, if its callbacks do what is
among `acts`. -/
structure Fires (now : ℤ) (acts : List Action) (s s' : State) : Prop where
  /-- the callbacks of the timers due, each once and in the order of their times -/
  ran : ∃ ps, startedOf s'.history = startedOf s.history ++ ps ∧ ps.Nodup ∧
    (∀ p, p ∈ ps ↔ ∃ t, s.heap p = some t ∧ t.when ≤ now) ∧
      ps.Pairwise fun p q => ∀ t u, s.heap p = some t → s.heap q = some u → t.when ≤ u.when
  oneShot : ∀ p t, s.heap p = some t → t.when ≤ now → t.repeats = false → Gone s' p
  repeating : ∀ p t, s.heap p = some t → t.when ≤ now → t.repeats = true →
    Pending s' p { t with when := t.when + t.interval }
  unchanged : ∀ p t, s.heap p = some t → now < t.when → .cancel p ∉ acts → Pending s' p t
  added : ∀ p when interval clock, .add p when interval clock ∈ acts → .cancel p ∉ acts →
    Pending s' p (.new when interval)
  cancelled : ∀ p, .cancel p ∈ acts → Gone s' p
  absent : ∀ p, s.heap p = none → (∀ when interval clock, .add p when interval clock ∉ acts) →
    Gone s' p
  key : ∀ e ∈ s'.timers, ∃ t, s'.heap e.timer = some t ∧ t.when = e.when

variable {s s' x x' : State} {a : Action} {acts past : List Action} {p q : Ptr} {e : Entry}
  {rest : List Entry} {t : Timer} {now when interval clock : ℤ} {point : Point}
  {heap : Ptr → Option Timer} {timers : Finset Entry} {h : List Event}

/-- The callbacks started, in a history continued, are those of the first part and then
those of the second. -/
@[simp] theorem startedOf_append (h h' : List Event) :
    startedOf (h ++ h') = startedOf h ++ startedOf h' := List.filterMap_append

/-- A callback was started if the history says so. -/
theorem mem_startedOf : p ∈ startedOf h ↔ .started p ∈ h := by
  simp only [startedOf, List.mem_filterMap]
  constructor
  · rintro ⟨e, he, hp⟩
    cases e <;> cases hp
    exact he
  · exact fun hp => ⟨_, hp, rfl⟩

/-! ### What a step does -/

/-- What a timer is behind its callback. -/
def settled (t : Timer) : Option Timer := if t.repeats = true then some t.restart else none

/-- **What a careful step does** to the heap, the batch and the history. -/
inductive Effect (s : State) : Action → State → Prop
  | add {s' : State} (p : Ptr) (when interval clock : ℤ) (fresh : .created p ∉ s.history)
      (heap : s'.heap = update s.heap p (some (.new when interval))) (point : s'.point = s.point)
      (history : s'.history = s.history ++ [.created p]) : Effect s (.add p when interval clock) s'
  | cancel {s' : State} (p : Ptr) (live : s.heap p ≠ none) (heap : s'.heap = update s.heap p none)
      (point : s'.point = s.point)
      (history : s'.history = s.history ++ [.cancelled p, .deleted p]) :
      Effect s (.cancel p) s'
  | beginRead {s' : State} (now : ℤ) (idle : s.point = .idle) (heap : s'.heap = s.heap)
      (point : s'.point = .walking now (getExpired s now)) (history : s'.history = s.history) :
      Effect s (.beginRead now) s'
  | visit {s' : State} {now : ℤ} {e : Entry} {rest : List Entry}
      (walking : s.point = .walking now (e :: rest)) (live : s.heap e.timer ≠ none)
      (heap : s'.heap = s.heap) (point : s'.point = .running now e.timer rest)
      (history : s'.history = s.history ++ [.started e.timer]) : Effect s .visit s'
  | ret {s' : State} {now : ℤ} {p : Ptr} {rest : List Entry}
      (running : s.point = .running now p rest) (heap : s'.heap = s.heap)
      (point : s'.point = .returned now p rest) (history : s'.history = s.history) :
      Effect s .ret s'
  | settle {s' : State} {now : ℤ} {p : Ptr} {rest : List Entry} {t : Timer}
      (returned : s.point = .returned now p rest) (live : s.heap p = some t)
      (heap : s'.heap = update s.heap p (settled t)) (point : s'.point = .walking now rest)
      (history : ∃ h, s'.history = s.history ++ h ∧ startedOf h = []) : Effect s .settle s'
  | endRead {s' : State} {now : ℤ} (clock : ℤ) (walking : s.point = .walking now [])
      (heap : s'.heap = s.heap) (point : s'.point = .idle) (history : s'.history = s.history) :
      Effect s (.endRead clock) s'
  | destroy {s' : State} (idle : s.point = .idle) (point : s'.point = .destroyed) :
      Effect s .destroy s'

/-- The destructor does not fail. -/
theorem State.Inv.destroyed (hi : s.Inv) (hp : s.point = .idle) : s.destroy.point = .destroyed :=
  (State.deleteAll_point _ _).resolve_right (TimerQueue.Inv.destroy hi hp).safe.1

/-- **Every careful step has one of these effects**, as long as the queue is in order: the
invariant tells that the timers it touches are alive. -/
theorem State.Inv.effect (hi : s.Inv) (hst : Step s a s') (hc : Careful s a) : Effect s a s' := by
  cases hst with
  | add p when interval clock hu hp hfresh =>
    obtain ⟨fd, heq⟩ := hi.addTimer_eq hfresh when interval clock
    rw [heq]
    exact .add p when interval clock hfresh rfl rfl rfl
  | cancel p hu hp =>
    obtain ⟨t, ht⟩ := Option.ne_none_iff_exists'.1 hp
    rw [State.cancelTimer_of_live ht (hi.valid p t ht)]
    exact .cancel p hp rfl rfl (List.append_assoc ..)
  | beginRead now hp => exact .beginRead now hp rfl rfl rfl
  | visit hp =>
    obtain ⟨hlive, heq⟩ := hi.visit_eq hp
    rw [heq]
    exact .visit hp hlive rfl rfl rfl
  | ret hp => exact .ret hp rfl rfl rfl
  | settle hp =>
    obtain ⟨t, ht, -, ⟨hr, heq⟩ | ⟨hr, heq⟩⟩ := hi.settle_eq hp
    · rw [heq]
      refine .settle hp ht ?_ rfl ⟨[], (List.append_nil _).symm, rfl⟩
      rw [settled, if_pos hr]
      rfl
    · rw [heq]
      refine .settle hp ht ?_ rfl ⟨[.deleted _], rfl, rfl⟩
      rw [settled, hr]
      rfl
  | endRead clock hp => exact .endRead clock hp rfl rfl rfl
  | destroy hp => exact .destroy hp (hi.destroyed hp)

/-! ### One `handleRead` -/

/-- The timer whose callback has been started last. -/
def Point.current : Point → List Ptr
  | .running _ p _ => [p]
  | .returned _ p _ => [p]
  | _ => []

/-- The timer that the user adds or cancels. -/
def Action.subject : Action → Option Ptr
  | .add p _ _ _ => some p
  | .cancel p => some p
  | _ => none

/-- The timer that `addTimer` made of `p`. -/
def addedAs (acts : List Action) (p : Ptr) : Option Timer :=
  acts.findSome? fun
    | .add q when interval _ => if q = p then some (.new when interval) else none
    | _ => none

/-- What has become of a timer: `pending` is what is left of the batch at `now`. -/
def becomes (s : State) (now : ℤ) (acts : List Action) (pending : List Ptr) (p : Ptr) :
    Option Timer :=
  if .cancel p ∈ acts then none
  else
    match s.heap p with
    | none => addedAs acts p
    | some t => if p ∈ batch s now ∧ p ∉ pending then settled t else some t

/-- **What holds while `handleRead` runs**, entered in `s` and with the steps `acts` of
its loop and its callbacks. -/
structure Reading (s : State) (now : ℤ) (acts : List Action) (x : State) : Prop where
  inv : x.Inv
  walks : ∃ rest, x.point.batch = some (now, rest)
  place : ∃ done, batch s now = done ++ x.point.pending ∧
    startedOf x.history = startedOf s.history ++ done ++ x.point.current
  heap : x.heap = becomes s now acts x.point.pending
  history : s.history <+: x.history
  outside : ∀ p, .cancel p ∈ acts → p ∉ batch s now
  added : ∀ p when interval clock, .add p when interval clock ∈ acts →
    s.heap p = none ∧ addedAs acts p = some (.new when interval)
  known : ∀ a ∈ acts, ∀ p, a.subject = some p → .created p ∈ x.history

/-- The timer that was made at an address is the first that was made there. -/
theorem addedAs_append (acts acts' : List Action) (p : Ptr) :
    addedAs (acts ++ acts') p = (addedAs acts p).or (addedAs acts' p) :=
  List.findSome?_append

/-- None was made if no action is about the address. -/
theorem addedAs_eq_none (h : ∀ a ∈ acts, a.subject ≠ some p) : addedAs acts p = none := by
  refine List.findSome?_eq_none_iff.2 fun a ha => ?_
  split
  · next q when interval clock =>
    refine if_neg ?_
    rintro rfl
    exact h _ ha rfl
  · rfl

/-- What becomes of a timer depends on the steps that concern it. -/
theorem becomes_append {pending pending' : List Ptr} (ha : a.subject ≠ some p)
    (hp : p ∈ pending' ↔ p ∈ pending) :
    becomes s now (acts ++ [a]) pending' p = becomes s now acts pending p := by
  have hadd : addedAs (acts ++ [a]) p = addedAs acts p := by
    have hone : addedAs [a] p = none := addedAs_eq_none fun b hb => by
      rw [List.mem_singleton.1 hb]
      exact ha
    rw [addedAs_append, hone, Option.or_none]
  have hcancel : .cancel p ∈ acts ++ [a] ↔ .cancel p ∈ acts := by
    rw [List.mem_append, List.mem_singleton]
    refine or_iff_left ?_
    rintro rfl
    exact ha rfl
  simp only [becomes, hadd, hcancel, hp]

/-- A step that concerns the timer `p` only, and leaves `made` of it. -/
theorem update_becomes {pending pending' : List Ptr} {made : Option Timer}
    (hp : becomes s now (acts ++ [a]) pending' p = made)
    (hothers : ∀ q, q ≠ p → a.subject ≠ some q ∧ (q ∈ pending' ↔ q ∈ pending)) :
    update (becomes s now acts pending) p made = becomes s now (acts ++ [a]) pending' := by
  funext q
  by_cases hq : q = p
  · rw [hq, update_self, hp]
  · obtain ⟨ha, hpending⟩ := hothers q hq
    rw [update_of_ne hq, becomes_append ha hpending]

/-- The timers of the batch are the live ones that are due. -/
theorem State.Inv.mem_batch (hi : s.Inv) (hidle : s.point = .idle) :
    p ∈ batch s now ↔ ∃ t, s.heap p = some t ∧ t.when ≤ now := by
  have hi' : TimerQueue.Inv s.point s.heap s.timers s.history := hi
  rw [hidle] at hi'
  constructor
  · intro hp
    obtain ⟨e, he, rfl⟩ := List.mem_map.1 hp
    obtain ⟨hmem, hlt⟩ := (getExpired_eq s now e).1 he
    obtain ⟨t, ht, hwhen⟩ := hi.key e hmem
    exact ⟨t, ht, hwhen ▸ (lt_entry_iff e now).1 hlt⟩
  · rintro ⟨t, ht, hle⟩
    have he := hi'.entry_mem ht List.not_mem_nil
    refine List.mem_map.2 ⟨entry t.when p, (getExpired_eq s now _).2 ⟨he, ?_⟩, rfl⟩
    exact (lt_entry_iff _ now).2 hle

/-- A batch holds no timer twice, as `timers_` does not. -/
theorem State.Inv.nodup_batch (hi : s.Inv) (hidle : s.point = .idle) (now : ℤ) :
    (batch s now).Nodup := by
  have hread : (s.beginRead now).Inv := TimerQueue.Inv.beginRead hi hidle now
  exact TimerQueue.Inv.pending_nodup hread

/-- **`handleRead` begins**: the batch has been taken from `timers_`, and nothing has been
done about it yet. -/
theorem State.Inv.reading (hi : s.Inv) (hidle : s.point = .idle) (now : ℤ) :
    Reading s now [] (s.beginRead now) where
  inv := TimerQueue.Inv.beginRead hi hidle now
  walks := ⟨_, rfl⟩
  place := ⟨[], rfl, by rw [List.append_nil]; exact (List.append_nil _).symm⟩
  heap := by
    funext p
    have hnone : ¬ (p ∈ batch s now ∧ p ∉ batch s now) := fun h => h.2 h.1
    change s.heap p = becomes s now [] (batch s now) p
    simp only [becomes, List.not_mem_nil, if_false, hnone]
    cases s.heap p <;> rfl
  history := List.prefix_refl _
  outside := nofun
  added := nofun
  known := nofun

/-- A step that concerns no timer and leaves the heap. -/
theorem Reading.heap_append (hr : Reading s now acts x) (ha : a.subject = none)
    {pending : List Ptr} (hp : pending = x.point.pending) :
    x.heap = becomes s now (acts ++ [a]) pending := by
  rw [hr.heap, hp]
  exact funext fun p => (becomes_append (by rw [ha]; exact nofun) Iff.rfl).symm

/-- What a step has to keep. -/
theorem Reading.of_step (hr : Reading s now acts x) (hinv : x'.Inv)
    (walks : ∃ rest, x'.point.batch = some (now, rest))
    (place : ∃ done, batch s now = done ++ x'.point.pending ∧
      startedOf x'.history = startedOf s.history ++ done ++ x'.point.current)
    (heap : x'.heap = becomes s now (acts ++ [a]) x'.point.pending)
    (history : x.history <+: x'.history) (hout : ∀ p, a = .cancel p → p ∉ batch s now)
    (added : ∀ p when interval clock, a = .add p when interval clock →
      s.heap p = none ∧ addedAs acts p = none)
    (known : ∀ p, a.subject = some p → .created p ∈ x'.history) :
    Reading s now (acts ++ [a]) x' where
  inv := hinv
  walks := walks
  place := place
  heap := heap
  history := hr.history.trans history
  outside := fun p hp => (List.mem_append.1 hp).elim (hr.outside p)
    fun hp => hout p (List.mem_singleton.1 hp).symm
  added := by
    intro p when interval clock hmem
    rw [addedAs_append]
    rcases List.mem_append.1 hmem with hmem | hmem
    · obtain ⟨hdead, heq⟩ := hr.added p when interval clock hmem
      rw [heq]
      exact ⟨hdead, rfl⟩
    · have ha := (List.mem_singleton.1 hmem).symm
      obtain ⟨hdead, hnone⟩ := added p when interval clock ha
      rw [hnone, ha]
      exact ⟨hdead, by simp [addedAs]⟩
  known := by
    intro b hb p hp
    rcases List.mem_append.1 hb with hb | hb
    · exact history.subset (hr.known b hb p hp)
    · rw [List.mem_singleton.1 hb] at hp
      exact known p hp

/-- **Every step of `handleRead` and of its callbacks** keeps the account of what has been
started, put back and deleted, as long as no callback cancels a timer of the batch. -/
theorem Reading.step (hr : Reading s now acts x) (hi : s.Inv) (hidle : s.point = .idle)
    (hst : Step x a x') (hend : ∀ clock, a ≠ .endRead clock)
    (hout : ∀ p, a = .cancel p → p ∉ batch s now) : Reading s now (acts ++ [a]) x' := by
  obtain ⟨done, hbatch, hstarted⟩ := hr.place
  obtain ⟨rest₀, hwalks⟩ := hr.walks
  have hcareful : Careful x a := fun p hp hmem =>
    hout p hp (hbatch ▸ List.mem_append_right _ hmem)
  have hinv := hr.inv.step hst hcareful
  have hkeep : ∀ h, x'.history = x.history ++ h → x.history <+: x'.history := fun h heq =>
    heq ▸ List.prefix_append _ _
  cases hr.inv.effect hst hcareful with
  | add p when interval clock fresh heap point history =>
    have hdead : s.heap p = none :=
      TimerQueue.Inv.dead_of_fresh hi fun hc => fresh (hr.history.subset hc)
    have hnone : addedAs acts p = none :=
      addedAs_eq_none fun b hb hsub => fresh (hr.known b hb p hsub)
    have hself : addedAs [.add p when interval clock] p = some (.new when interval) := by
      simp [addedAs]
    refine hr.of_step hinv ⟨rest₀, point ▸ hwalks⟩ ⟨done, point ▸ hbatch, ?_⟩ ?_
      (hkeep _ history) nofun ?_ ?_
    · rw [history, startedOf_append, point, hstarted]
      exact List.append_nil _
    · have hnot : .cancel p ∉ acts ++ [.add p when interval clock] := fun hmem =>
        fresh (hr.known _ ((List.mem_append.1 hmem).resolve_right (by simp)) p rfl)
      rw [heap, point, hr.heap]
      refine update_becomes ?_ fun q hq => ⟨by rintro ⟨⟩; exact hq rfl, Iff.rfl⟩
      rw [becomes, if_neg hnot, hdead]
      dsimp only
      rw [addedAs_append, hnone, hself]
      rfl
    · rintro q w i c ⟨⟩
      exact ⟨hdead, hnone⟩
    · rintro q ⟨⟩
      rw [history]
      exact List.mem_append_right _ (List.mem_singleton_self _)
  | cancel p live heap point history =>
    refine hr.of_step hinv ⟨rest₀, point ▸ hwalks⟩ ⟨done, point ▸ hbatch, ?_⟩ ?_
      (hkeep _ history) hout nofun ?_
    · rw [history, startedOf_append, point, hstarted]
      exact List.append_nil _
    · have hmem : .cancel p ∈ acts ++ [.cancel p] :=
        List.mem_append_right _ (List.mem_singleton_self _)
      rw [heap, point, hr.heap]
      refine update_becomes ?_ fun q hq => ⟨by rintro ⟨⟩; exact hq rfl, Iff.rfl⟩
      rw [becomes, if_pos hmem]
    · rintro q ⟨⟩
      rw [history]
      refine List.mem_append_left _ ?_
      by_contra hnot
      exact live (TimerQueue.Inv.dead_of_fresh hr.inv hnot)
  | beginRead now' idle => rw [idle] at hwalks; cases hwalks
  | @visit x' now' e rest walking live heap point history =>
    rw [walking] at hwalks hbatch hstarted
    cases hwalks
    refine hr.of_step hinv ⟨rest, by rw [point]; rfl⟩ ⟨done, by rw [point]; exact hbatch, ?_⟩ ?_
      (hkeep _ history) nofun nofun nofun
    · rw [history, startedOf_append, hstarted, point]
      exact congrArg (· ++ [e.timer]) (List.append_nil _)
    · rw [heap]
      refine hr.heap_append rfl ?_
      rw [point, walking]
      rfl
  | @ret x' now' p rest running heap point history =>
    rw [running] at hwalks hbatch hstarted
    cases hwalks
    refine hr.of_step hinv ⟨rest₀, by rw [point]; rfl⟩ ⟨done, by rw [point]; exact hbatch, ?_⟩ ?_
      (hkeep [] (by rw [history, List.append_nil])) nofun nofun nofun
    · rw [history, hstarted, point]
      rfl
    · rw [heap]
      refine hr.heap_append rfl ?_
      rw [point, running]
      rfl
  | @settle x' now' p rest t returned live heap point history =>
    rw [returned] at hwalks hbatch hstarted
    cases hwalks
    obtain ⟨h, history, hnone⟩ := history
    have hpb : p ∈ batch s now := hbatch ▸ List.mem_append_right _ (List.mem_cons_self ..)
    have hnot : .cancel p ∉ acts := fun hmem => hr.outside p hmem hpb
    have hnd := hi.nodup_batch hidle now
    rw [hbatch, List.nodup_append] at hnd
    have hrest : p ∉ rest₀.map Entry.timer := (List.nodup_cons.1 hnd.2.1).1
    obtain ⟨t', ht', -⟩ := (hi.mem_batch hidle).1 hpb
    refine hr.of_step hinv ⟨rest₀, by rw [point]; rfl⟩ ⟨done ++ [p], ?_, ?_⟩ ?_
      (hkeep h history) nofun nofun nofun
    · rw [point, hbatch, List.append_assoc]
      rfl
    · rw [history, startedOf_append, hnone, hstarted, point]
      simp [Point.current]
    · -- the timer was as the batch found it
      rw [hr.heap, becomes, if_neg hnot, ht', returned] at live
      dsimp only at live
      rw [if_neg fun hand => hand.2 (List.mem_cons_self ..)] at live
      have hnot' : .cancel p ∉ acts ++ [.settle] := fun hmem =>
        hnot ((List.mem_append.1 hmem).resolve_right (by simp))
      rw [heap, point, hr.heap, returned]
      refine update_becomes ?_ fun q hq => ⟨(Option.some_ne_none q).symm, ?_⟩
      · rw [becomes, if_neg hnot', ht']
        dsimp only
        rw [if_pos ⟨hpb, hrest⟩, Option.some.inj live]
      · exact ⟨List.mem_cons_of_mem _, fun hmem => (List.mem_cons.1 hmem).resolve_left hq⟩
  | endRead clock => exact absurd rfl (hend clock)
  | destroy idle => rw [idle] at hwalks; cases hwalks

/-- What holds while `handleRead` runs, after any of its steps. -/
theorem reading_of_run (hi : s.Inv) (hidle : s.point = .idle)
    (hrun : Run Step s (.beginRead now :: acts) x) (hend : ∀ clock, .endRead clock ∉ acts)
    (hout : ∀ p, .cancel p ∈ acts → p ∉ batch s now) : Reading s now acts x := by
  obtain ⟨y, hbegin, hrun⟩ := hrun.of_cons
  have hy : y = s.beginRead now := by
    cases hbegin
    rfl
  rw [hy] at hrun
  have hrun' := hrun.restrict (P := fun a => (∀ clock, a ≠ .endRead clock) ∧
    ∀ p, a = .cancel p → p ∉ batch s now) fun a ha =>
      ⟨fun clock heq => hend clock (heq ▸ ha), fun p heq => hout p (heq ▸ ha)⟩
  refine hrun'.invariant ?_ ?_
  · exact hi.reading hidle now
  · intro acts x a x' ih hst
    exact ih.step hi hidle hst.1 hst.2.1 hst.2.2

/-- At rest a live timer has one entry. -/
theorem State.Inv.pending (hi : s.Inv) (hidle : s.point = .idle) (ht : s.heap p = some t) :
    Pending s p t := by
  have hi' : TimerQueue.Inv s.point s.heap s.timers s.history := hi
  rw [hidle] at hi'
  have hmem := hi'.entry_mem ht List.not_mem_nil
  refine ⟨ht, Finset.ext fun e => ?_⟩
  rw [entriesOf, Finset.mem_filter, Finset.mem_singleton]
  constructor
  · rintro ⟨he, rfl⟩
    exact hi'.entry_unique he hmem rfl
  · rintro rfl
    exact ⟨hmem, rfl⟩

/-- A timer that has been deleted has no entry anywhere. -/
theorem State.Inv.gone (hi : s.Inv) (hdead : s.heap p = none) : Gone s p := by
  refine ⟨hdead, Finset.filter_eq_empty_iff.2 fun e he heq => ?_⟩
  obtain ⟨t, ht, -⟩ := hi.key e he
  rw [heq, hdead] at ht
  cases ht

/-- The batch is in the order of the times. -/
theorem State.Inv.sorted_batch (hi : s.Inv) : (batch s now).Pairwise fun p q =>
    ∀ t u, s.heap p = some t → s.heap q = some u → t.when ≤ u.when := by
  rw [batch, List.pairwise_map]
  refine List.Pairwise.imp_of_mem ?_ (Finset.pairwise_sort _ _)
  intro e e' he he' hle t u ht hu
  obtain ⟨t', ht', hwhen⟩ := hi.key e ((getExpired_eq s now e).1 he).1
  obtain ⟨u', hu', hwhen'⟩ := hi.key e' ((getExpired_eq s now e').1 he').1
  rw [ht] at ht'
  rw [hu] at hu'
  cases ht'
  cases hu'
  rw [hwhen, hwhen']
  exact Prod.Lex.monotone_fst _ _ hle

/-- **`handleRead` has done what it should**: each timer of the batch has been started once,
in their order, and then put back or deleted, and the others are where they were. -/
theorem Reading.fires (hr : Reading s now acts x) (hi : s.Inv) (hidle : s.point = .idle)
    (hst : Step x (.endRead clock) s') : Fires now acts s s' := by
  have hinv := hr.inv.step hst nofun
  have hdue : ∀ p t, s.heap p = some t → t.when ≤ now → p ∈ batch s now :=
    fun p t ht hle => (hi.mem_batch hidle).2 ⟨t, ht, hle⟩
  cases hst with
  | @endRead now' _ hp =>
    obtain ⟨done, hbatch, hstarted⟩ := hr.place
    have hheap := hr.heap
    rw [hp] at hbatch hstarted hheap
    rw [show (Point.walking now' []).current = [] from rfl, List.append_nil] at hstarted
    rw [show (Point.walking now' []).pending = [] from rfl, List.append_nil] at hbatch
    have hdone : ∀ p t, s.heap p = some t → .cancel p ∉ acts →
        x.heap p = if p ∈ batch s now then settled t else some t := by
      intro p t ht hnot
      rw [hheap, becomes, if_neg hnot, ht]
      exact if_congr (and_iff_left List.not_mem_nil) rfl rfl
    refine ⟨⟨batch s now, ?_, hi.nodup_batch hidle now, fun p => hi.mem_batch hidle,
      hi.sorted_batch⟩, fun p t ht hle hone => ?_, fun p t ht hle hrep => ?_,
      fun p t ht hlt hnot => ?_, fun p when interval clock hadd hnot => ?_, fun p hcancel => ?_,
      fun p hdead hnot => ?_, hinv.key⟩
    · rw [hbatch]
      exact hstarted
    · refine hinv.gone ((hdone p t ht ?_).trans ?_)
      · exact fun hcancel => hr.outside p hcancel (hdue p t ht hle)
      · rw [if_pos (hdue p t ht hle), settled, hone]
        rfl
    · refine hinv.pending rfl ((hdone p t ht ?_).trans ?_)
      · exact fun hcancel => hr.outside p hcancel (hdue p t ht hle)
      · rw [if_pos (hdue p t ht hle), settled, if_pos hrep]
        rfl
    · refine hinv.pending rfl ((hdone p t ht hnot).trans (if_neg fun hmem => ?_))
      obtain ⟨t', ht', hle⟩ := (hi.mem_batch hidle).1 hmem
      rw [ht] at ht'
      cases ht'
      omega
    · obtain ⟨hdead, heq⟩ := hr.added p when interval clock hadd
      refine hinv.pending rfl ?_
      change x.heap p = _
      rw [hheap, becomes, if_neg hnot, hdead]
      exact heq
    · refine hinv.gone ?_
      change x.heap p = _
      rw [hheap, becomes, if_pos hcancel]
    · refine hinv.gone ?_
      change x.heap p = _
      rw [hheap, becomes]
      split
      · rfl
      · next hcancel =>
        rw [hdead]
        refine addedAs_eq_none fun a ha hsub => ?_
        cases a with
        | add q w i c =>
          cases hsub
          exact hnot w i c ha
        | cancel q =>
          cases hsub
          exact hcancel ha
        | _ => cases hsub

end TimerQueue
end BearRpc
