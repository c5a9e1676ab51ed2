/-
# Tables of pending calls

A client keeps the callbacks of the calls that wait for a response in a table,
each under the key of its call.  `CallTable.Step` says what such a client may do
and in what order: issue a call under a fresh key, look at a response, invoke the
callback that the response answers, and remove an entry, either after its
callback was invoked or because a response refused it.  Between two responses
all of this concerns the key of the first of them, and calls may be issued
while a callback runs.

The labels of a run are its history.  What the history says about the table is
`Inv`; what follows for each event is read off at the step that logged it
(`invoked_after`, `removed_after`, `removed_next`).  A call is lost if its entry
is removed and its callback was not invoked: `conserved_iff` says when no call is.
-/

import BearRpc.Theory.Transition
import Mathlib.Data.Set.Insert
import Mathlib.Data.List.Nodup
import Mathlib.Logic.Function.Basic

namespace BearRpc
namespace Theory

namespace CallTable

/-- What a response is to a table: an answer `a` for the key `k`, an invalid
response that still names `k`, or neither. -/
inductive Verdict (ι α : Type*) where
  | answers (k : ι) (a : α)
  | refuses (k : ι)
  | nothing

/-- What a client does with its table. -/
inductive Event (ι κ ρ α : Type*) where
  | issued (k : ι) (cb : κ)
  | response (r : ρ)
  | invoked (k : ι) (cb : κ) (a : α)
  | removed (k : ι)

/-- Where the client is in the handling of a response. -/
inductive Phase (ι κ α : Type*) where
  | idle
  /-- the callback of `k` is about to be invoked -/
  | answering (k : ι) (cb : κ) (a : α)
  /-- the callback of `k` runs or has run -/
  | calling (k : ι)
  /-- the entry of `k` is about to be removed -/
  | dropping (k : ι)

end CallTable

open CallTable in
/-- The keys used so far, the callbacks of the calls that wait, and the phase. -/
structure CallTable (ι κ α : Type*) where
  used : Set ι
  pending : ι → Option κ
  phase : Phase ι κ α

namespace CallTable

variable {ι κ ρ α : Type*}

/-- No call has been issued. -/
def init : CallTable ι κ α := ⟨∅, fun _ => none, .idle⟩

/-- What the client may do next. -/
inductive Step [DecidableEq ι] (verdict : ρ → Verdict ι α) :
    CallTable ι κ α → Event ι κ ρ α → CallTable ι κ α → Prop
  /-- a call is issued, by the user or by a callback -/
  | issue {t k} (cb : κ) : k ∉ t.used → (t.phase = .idle ∨ ∃ j, t.phase = .calling j) →
      Step verdict t (.issued k cb)
        { t with used := insert k t.used, pending := Function.update t.pending k (some cb) }
  /-- a response to no call that waits -/
  | ignore {t r} : t.phase = .idle → (∀ k a, verdict r = .answers k a → t.pending k = none) →
      (∀ k, verdict r = .refuses k → t.pending k = none) → Step verdict t (.response r) t
  /-- a response that answers a call -/
  | answer {t r k cb a} : t.phase = .idle → verdict r = .answers k a → t.pending k = some cb →
      Step verdict t (.response r) { t with phase := .answering k cb a }
  /-- its callback is invoked -/
  | invoke {t k cb a} : t.phase = .answering k cb a →
      Step verdict t (.invoked k cb a) { t with phase := .calling k }
  /-- an invalid response that names a call -/
  | refuse {t r k cb} : t.phase = .idle → verdict r = .refuses k → t.pending k = some cb →
      Step verdict t (.response r) { t with phase := .dropping k }
  /-- its entry is removed -/
  | remove {t k} : (t.phase = .calling k ∨ t.phase = .dropping k) →
      Step verdict t (.removed k)
        { t with pending := Function.update t.pending k none, phase := .idle }

/-- The keys of the calls issued in a history. -/
def issuedKeys (ls : List (Event ι κ ρ α)) : List ι := ls.filterMap fun
  | .issued k _ => some k
  | _ => none

/-- The keys of the callbacks invoked in a history. -/
def invokedKeys (ls : List (Event ι κ ρ α)) : List ι := ls.filterMap fun
  | .invoked k _ _ => some k
  | _ => none

/-- The responses of a history. -/
def responses (ls : List (Event ι κ ρ α)) : List ρ := ls.filterMap fun
  | .response r => some r
  | _ => none

/-- The event is the issue of a call. -/
def Event.IsIssue (e : Event ι κ ρ α) : Prop := ∃ k cb, e = .issued k cb

/-- After the history `ls`, the call under `k` waits. -/
def Open (ls : List (Event ι κ ρ α)) (k : ι) : Prop := (∃ cb, .issued k cb ∈ ls) ∧ .removed k ∉ ls

/-- No call of the history is lost: it waits or its callback was invoked, and
no entry was removed before that. -/
structure Conserved (ls : List (Event ι κ ρ α)) (t : CallTable ι κ α) : Prop where
  kept : ∀ k ∈ issuedKeys ls, t.pending k ≠ none ∨ k ∈ invokedKeys ls
  told : ∀ pre k post, ls = pre ++ .removed k :: post → k ∈ invokedKeys pre

/-- How the history led to the phase. -/
def Phase.Explained (verdict : ρ → Verdict ι α) (ls : List (Event ι κ ρ α))
    (pending : ι → Option κ) : Phase ι κ α → Prop
  | .idle => True
  | .answering k cb a => pending k = some cb ∧ k ∉ invokedKeys ls ∧
      ∃ pre r, ls = pre ++ [.response r] ∧ verdict r = .answers k a
  | .calling k => (∃ cb, pending k = some cb) ∧
      ∃ pre r cb a mid, ls = pre ++ .response r :: .invoked k cb a :: mid ∧
        verdict r = .answers k a ∧ Open pre k ∧ ∀ e ∈ mid, Event.IsIssue e
  | .dropping k => (∃ cb, pending k = some cb) ∧
      ∃ pre r, ls = pre ++ [.response r] ∧ verdict r = .refuses k ∧ Open pre k

/-- What the history of a run says about the table. -/
structure Inv (verdict : ρ → Verdict ι α) (ls : List (Event ι κ ρ α)) (t : CallTable ι κ α) :
    Prop where
  used : ∀ k, k ∈ t.used ↔ k ∈ issuedKeys ls
  pending : ∀ k cb, t.pending k = some cb ↔ .issued k cb ∈ ls ∧ .removed k ∉ ls
  removed : ∀ k, .removed k ∈ ls → k ∈ t.used
  issued_nodup : (issuedKeys ls).Nodup
  invoked_nodup : (invokedKeys ls).Nodup
  told : ∀ k ∈ invokedKeys ls, .removed k ∈ ls ∨ t.phase = .calling k
  phase : t.phase.Explained verdict ls t.pending

/-! ### Histories -/

variable {ls pre post : List (Event ι κ ρ α)} {t u : CallTable ι κ α} {k j : ι} {cb : κ} {a : α}
  {r : ρ} {e : Event ι κ ρ α}

@[simp] theorem issuedKeys_append (ls ls' : List (Event ι κ ρ α)) :
    issuedKeys (ls ++ ls') = issuedKeys ls ++ issuedKeys ls' := List.filterMap_append

@[simp] theorem invokedKeys_append (ls ls' : List (Event ι κ ρ α)) :
    invokedKeys (ls ++ ls') = invokedKeys ls ++ invokedKeys ls' := List.filterMap_append

@[simp] theorem issuedKeys_issued : issuedKeys [(.issued k cb : Event ι κ ρ α)] = [k] := rfl

@[simp] theorem issuedKeys_response : issuedKeys [(.response r : Event ι κ ρ α)] = [] := rfl

@[simp] theorem issuedKeys_invoked : issuedKeys [(.invoked k cb a : Event ι κ ρ α)] = [] := rfl

@[simp] theorem issuedKeys_removed : issuedKeys [(.removed k : Event ι κ ρ α)] = [] := rfl

@[simp] theorem invokedKeys_issued : invokedKeys [(.issued k cb : Event ι κ ρ α)] = [] := rfl

@[simp] theorem invokedKeys_response : invokedKeys [(.response r : Event ι κ ρ α)] = [] := rfl

@[simp] theorem invokedKeys_invoked : invokedKeys [(.invoked k cb a : Event ι κ ρ α)] = [k] := rfl

@[simp] theorem invokedKeys_removed : invokedKeys [(.removed k : Event ι κ ρ α)] = [] := rfl

@[simp] theorem responses_append (ls ls' : List (Event ι κ ρ α)) :
    responses (ls ++ ls') = responses ls ++ responses ls' := List.filterMap_append

@[simp] theorem responses_issued : responses [(.issued k cb : Event ι κ ρ α)] = [] := rfl

@[simp] theorem responses_response : responses [(.response r : Event ι κ ρ α)] = [r] := rfl

@[simp] theorem responses_invoked : responses [(.invoked k cb a : Event ι κ ρ α)] = [] := rfl

@[simp] theorem responses_removed : responses [(.removed k : Event ι κ ρ α)] = [] := rfl

/-- A place in a history is where a response stands behind given responses. -/
theorem eq_of_responses_eq {pre' post' : List (Event ι κ ρ α)} {r' : ρ}
    (h : pre ++ .response r :: post = pre' ++ .response r' :: post')
    (hr : responses pre = responses pre') : pre = pre' ∧ r = r' ∧ post = post' := by
  have hlt : ∀ (l mid : List (Event ι κ ρ α)) (q : ρ),
      responses l ≠ responses (l ++ .response q :: mid) := by
    intro l mid q heq
    have hlen := congrArg List.length heq
    rw [responses_append, ← List.singleton_append, responses_append, responses_response,
      List.length_append, List.length_append, List.length_singleton] at hlen
    omega
  rcases List.append_eq_append_iff.1 h with ⟨mid, rfl, hmid⟩ | ⟨mid, rfl, hmid⟩
  · cases mid with
    | nil =>
      cases hmid
      exact ⟨(List.append_nil _).symm, rfl, rfl⟩
    | cons e mid =>
      obtain ⟨rfl, -⟩ := List.cons.inj hmid
      exact absurd hr (hlt pre mid r)
  · cases mid with
    | nil =>
      cases hmid
      exact ⟨List.append_nil _, rfl, rfl⟩
    | cons e mid =>
      obtain ⟨rfl, -⟩ := List.cons.inj hmid
      exact absurd hr.symm (hlt pre' mid r')

/-- A key has been issued if the run says so with some callback. -/
theorem mem_issuedKeys : k ∈ issuedKeys ls ↔ ∃ cb, .issued k cb ∈ ls := by
  rw [issuedKeys, List.mem_filterMap]
  constructor
  · rintro ⟨e, he, hk⟩
    cases e with
    | issued j cb =>
      obtain rfl := Option.some.inj hk
      exact ⟨cb, he⟩
    | _ => cases hk
  · rintro ⟨cb, h⟩
    exact ⟨_, h, rfl⟩

/-- A callback has been invoked under a key if the run says so with some callback and some
answer. -/
theorem mem_invokedKeys : k ∈ invokedKeys ls ↔ ∃ cb a, .invoked k cb a ∈ ls := by
  rw [invokedKeys, List.mem_filterMap]
  constructor
  · rintro ⟨e, he, hk⟩
    cases e with
    | invoked j cb a =>
      obtain rfl := Option.some.inj hk
      exact ⟨cb, a, he⟩
    | _ => cases hk
  · rintro ⟨cb, a, h⟩
    exact ⟨_, h, rfl⟩

/-! ### What the invariant says -/

variable {verdict : ρ → Verdict ι α}

/-- The empty run leaves an empty table at rest, so there is nothing to violate. -/
theorem inv_init : Inv verdict [] (init : CallTable ι κ α) where
  used k := by simp [init, issuedKeys]
  pending k cb := by simp [init]
  removed k hk := by simp at hk
  issued_nodup := List.nodup_nil
  invoked_nodup := List.nodup_nil
  told k hk := by simp [invokedKeys] at hk
  phase := trivial

/-- A key that is not used was not issued. -/
theorem Inv.not_issued (h : Inv verdict ls t) (hk : k ∉ t.used) (cb : κ) : .issued k cb ∉ ls :=
  fun hi => hk ((h.used k).2 (mem_issuedKeys.2 ⟨cb, hi⟩))

/-- A call that waits has a key that is used, so a new key is never that of a call that
waits. -/
theorem Inv.used_of_pending (h : Inv verdict ls t) (hk : t.pending k = some cb) : k ∈ t.used :=
  (h.used k).2 (mem_issuedKeys.2 ⟨cb, ((h.pending k cb).1 hk).1⟩)

/-- A call waits exactly if its entry is in the table. -/
theorem Inv.open_iff (h : Inv verdict ls t) : Open ls k ↔ ∃ cb, t.pending k = some cb := by
  simp only [h.pending, Open, exists_and_right]

/-- Between responses, the callback of a call that waits was not invoked. -/
theorem Inv.not_invoked (h : Inv verdict ls t) (ht : t.phase = .idle) (hk : t.pending k = some cb) :
    k ∉ invokedKeys ls := fun hi =>
  (h.told k hi).elim ((h.pending k cb).1 hk).2 (by rw [ht]; exact nofun)

/-! ### What a step preserves -/

/-- A response changes the phase at most. -/
theorem Inv.response (h : Inv verdict ls t) (ht : t.phase = .idle) (r : ρ) {p : Phase ι κ α}
    (hp : p.Explained verdict (ls ++ [.response r]) t.pending) :
    Inv verdict (ls ++ [.response r]) { t with phase := p } where
  used k := by simpa using h.used k
  pending k cb := by simpa using h.pending k cb
  removed k hk := h.removed k (by simpa using hk)
  issued_nodup := by simpa using h.issued_nodup
  invoked_nodup := by simpa using h.invoked_nodup
  told k hk := by
    rcases h.told k (by simpa using hk) with hr | hc
    · exact .inl (List.mem_append_left _ hr)
    · rw [ht] at hc
      cases hc
  phase := hp

/-- **The callback of the call being answered is invoked**: this was the only thing it
waited for, so the call has now been invoked once and its entry is still there. -/
theorem Inv.invoke (h : Inv verdict ls t) (ht : t.phase = .answering k cb a) :
    Inv verdict (ls ++ [.invoked k cb a]) { t with phase := .calling k } := by
  have hphase := h.phase
  rw [ht] at hphase
  obtain ⟨hk, hnew, pre, r, hls, hr⟩ := hphase
  refine ⟨?_, ?_, ?_, ?_, ?_, ?_, ?_⟩
  · intro j
    simpa using h.used j
  · intro j d
    simpa using h.pending j d
  · intro j hj
    exact h.removed j (by simpa using hj)
  · simpa using h.issued_nodup
  · rw [invokedKeys_append, invokedKeys_invoked]
    exact h.invoked_nodup.append (List.nodup_singleton k) (by simpa using hnew)
  · intro j hj
    rw [invokedKeys_append, invokedKeys_invoked, List.mem_append, List.mem_singleton] at hj
    rcases hj with hj | rfl
    · rcases h.told j hj with hrem | hc
      · exact .inl (List.mem_append_left _ hrem)
      · rw [ht] at hc
        cases hc
    · exact .inr rfl
  · have hopen : Open pre k := by
      obtain ⟨hi, hrem⟩ := (h.pending k cb).1 hk
      rw [hls] at hi hrem
      exact ⟨⟨cb, by simpa using hi⟩, by simpa using hrem⟩
    exact ⟨⟨cb, hk⟩, pre, r, cb, a, [], by simp [hls], hr, hopen, by simp⟩

section Steps

variable [DecidableEq ι]

/-- **A call is issued under a new key**, by the user at rest or by a callback that is being
called; its entry is added, and those of the other calls stay. -/
theorem Inv.issue (h : Inv verdict ls t) (cb : κ) (hk : k ∉ t.used)
    (ht : t.phase = .idle ∨ ∃ j, t.phase = .calling j) :
    Inv verdict (ls ++ [.issued k cb])
      { t with used := insert k t.used, pending := Function.update t.pending k (some cb) } := by
  refine ⟨?_, ?_, ?_, ?_, ?_, ?_, ?_⟩
  · intro j
    rw [issuedKeys_append, issuedKeys_issued, List.mem_append, List.mem_singleton, ← h.used j,
      Set.mem_insert_iff, or_comm]
  · intro j d
    by_cases hjk : j = k
    · subst hjk
      have hrem : .removed j ∉ ls := fun hr => hk (h.removed j hr)
      simp [h.not_issued hk, hrem, eq_comm]
    · simpa [Function.update_of_ne hjk, hjk] using h.pending j d
  · intro j hj
    exact .inr (h.removed j (by simpa using hj))
  · rw [issuedKeys_append, issuedKeys_issued]
    exact h.issued_nodup.append (List.nodup_singleton k) (by simpa [← h.used] using hk)
  · simpa using h.invoked_nodup
  · intro j hj
    exact (h.told j (by simpa using hj)).imp_left (List.mem_append_left _)
  · rcases ht with ht | ⟨j, ht⟩
    · simp only [ht]
      trivial
    · have hphase := h.phase
      simp only [ht] at hphase ⊢
      obtain ⟨⟨d, hd⟩, pre, r, d', a, mid, rfl, hr, hopen, hmid⟩ := hphase
      have hjk : j ≠ k := fun hjk => hk (hjk ▸ h.used_of_pending hd)
      refine ⟨⟨d, by rw [Function.update_of_ne hjk]; exact hd⟩, pre, r, d', a,
        mid ++ [.issued k cb], by simp, hr, hopen, fun e he => ?_⟩
      rcases List.mem_append.1 he with he | he
      · exact hmid e he
      · exact ⟨k, cb, List.mem_singleton.1 he⟩

/-- **The entry of the call that was answered or refused is removed**, and the table is at
rest again; no other entry is touched. -/
theorem Inv.remove (h : Inv verdict ls t) (ht : t.phase = .calling k ∨ t.phase = .dropping k) :
    Inv verdict (ls ++ [.removed k])
      { t with pending := Function.update t.pending k none, phase := .idle } := by
  obtain ⟨cb, hcb⟩ : ∃ cb, t.pending k = some cb := by
    have hphase := h.phase
    rcases ht with ht | ht <;> rw [ht] at hphase <;> exact hphase.1
  refine ⟨?_, ?_, ?_, ?_, ?_, ?_, trivial⟩
  · intro j
    simpa using h.used j
  · intro j d
    by_cases hjk : j = k
    · subst hjk
      simp
    · simpa [Function.update_of_ne hjk, hjk] using h.pending j d
  · intro j hj
    rcases List.mem_append.1 hj with hj | hj
    · exact h.removed j hj
    · cases List.mem_singleton.1 hj
      exact h.used_of_pending hcb
  · simpa using h.issued_nodup
  · simpa using h.invoked_nodup
  · intro j hj
    rcases h.told j (by simpa using hj) with hrem | hc
    · exact .inl (List.mem_append_left _ hrem)
    · rcases ht with ht | ht
      · rw [ht] at hc
        cases hc
        exact .inl (by simp)
      · rw [ht] at hc
        cases hc

/-- **Every step preserves the invariant**: what was issued is pending, told or dropped, and
the phase says what the last response was. -/
theorem Inv.step (h : Inv verdict ls t) (hst : Step verdict t e u) : Inv verdict (ls ++ [e]) u := by
  cases hst with
  | issue cb hk ht => exact h.issue cb hk ht
  | @ignore r ht ha hr => exact h.response ht r (by rw [ht]; trivial)
  | @answer r k cb a ht hr hk =>
    exact h.response ht r ⟨hk, by simpa using h.not_invoked ht hk, ls, r, rfl, hr⟩
  | invoke ht => exact h.invoke ht
  | @refuse r k cb ht hr hk =>
    exact h.response ht r ⟨⟨cb, hk⟩, ls, r, rfl, hr, h.open_iff.2 ⟨cb, hk⟩⟩
  | remove ht => exact h.remove ht

/-- **What the history of a run says about its table**: the pending entries are the calls
that were issued and not removed, whatever the responses were. -/
theorem inv_of_run (h : Run (Step verdict) init ls t) : Inv verdict ls t :=
  h.invariant inv_init fun _ _ _ _ hinv hst => hinv.step hst

/-! ### What the history of a run says about its events -/

/-- **A callback is invoked with the answer of the last response**, which stands right
before it in the history and names a call issued before. -/
theorem invoked_after (h : Run (Step verdict) init (pre ++ .invoked k cb a :: post) t) :
    ∃ pre' r, pre = pre' ++ [.response r] ∧ verdict r = .answers k a ∧ .issued k cb ∈ pre' := by
  obtain ⟨u, v, hu, hst, -⟩ := h.split
  have hinv := inv_of_run hu
  cases hst with
  | invoke ht =>
    have hphase := hinv.phase
    rw [ht] at hphase
    obtain ⟨hk, -, pre', r, rfl, hr⟩ := hphase
    exact ⟨pre', r, rfl, hr, by simpa using ((hinv.pending k cb).1 hk).1⟩

/-- **An entry is removed only under the key of the last response**: after its
callback was invoked, or because the response refused it. -/
theorem removed_after (h : Run (Step verdict) init (pre ++ .removed k :: post) t) :
    ∃ pre' r mid, pre = pre' ++ .response r :: mid ∧ Open pre' k ∧
      ((∃ cb a rest, verdict r = .answers k a ∧ mid = .invoked k cb a :: rest ∧
          ∀ e ∈ rest, Event.IsIssue e) ∨
        (verdict r = .refuses k ∧ mid = [])) := by
  obtain ⟨u, v, hu, hst, -⟩ := h.split
  have hphase := (inv_of_run hu).phase
  cases hst with
  | remove ht =>
    rcases ht with ht | ht
    · rw [ht] at hphase
      obtain ⟨-, pre', r, cb, a, rest, rfl, hr, hopen, hrest⟩ := hphase
      exact ⟨pre', r, _, rfl, hopen, .inl ⟨cb, a, rest, hr, rfl, hrest⟩⟩
    · rw [ht] at hphase
      obtain ⟨-, pre', r, rfl, hr, hopen⟩ := hphase
      exact ⟨pre', r, [], rfl, hopen, .inr ⟨hr, rfl⟩⟩

/-- What follows while a callback runs: calls are issued, then its entry is
removed. -/
theorem removed_of_calling (h : Run (Step verdict) u post t) (hu : u.phase = .calling k)
    (ht : t.phase = .idle) :
    ∃ mid post', post = mid ++ .removed k :: post' ∧ ∀ e ∈ mid, Event.IsIssue e := by
  induction post generalizing u with
  | nil =>
    rw [h.eq_of_nil, hu] at ht
    cases ht
  | cons e post ih =>
    obtain ⟨v, hst, hv⟩ := h.of_cons
    cases hst with
    | @issue j cb _ _ =>
      obtain ⟨mid, post', rfl, hmid⟩ := ih hv hu
      refine ⟨.issued j cb :: mid, post', rfl, fun e he => ?_⟩
      rcases List.mem_cons.1 he with rfl | he
      · exact ⟨j, cb, rfl⟩
      · exact hmid e he
    | remove hc =>
      rw [hu] at hc
      rcases hc with hc | hc
      · cases hc
        exact ⟨[], post, rfl, by simp⟩
      · cases hc
    | ignore hi | answer hi | invoke hi | refuse hi =>
      rw [hu] at hi
      cases hi

/-- **The entry of an invoked callback is removed next**, after the calls that the callback
issued: between the two, nothing is invoked and no response is handled. -/
theorem removed_next (h : Run (Step verdict) init (pre ++ .invoked k cb a :: post) t)
    (ht : t.phase = .idle) :
    ∃ mid post', post = mid ++ .removed k :: post' ∧ ∀ e ∈ mid, Event.IsIssue e := by
  obtain ⟨u, v, -, hst, hv⟩ := h.split
  cases hst with
  | invoke => exact removed_of_calling hv rfl ht

/-- **The entry that a response refuses is removed next**, its callback not invoked: nothing
can come between the two, as the exception is on its way. -/
theorem removed_of_refused (h : Run (Step verdict) init (pre ++ .response r :: post) t)
    (ht : t.phase = .idle) (hr : verdict r = .refuses k) (hk : Open pre k) :
    ∃ post', post = .removed k :: post' ∧ k ∉ invokedKeys pre := by
  obtain ⟨u, v, hu, hst, hv⟩ := h.split
  have hinv := inv_of_run hu
  obtain ⟨cb, hcb⟩ := hinv.open_iff.1 hk
  cases hst with
  | ignore _ _ hn =>
    rw [hn k hr] at hcb
    cases hcb
  | answer _ hr' =>
    rw [hr] at hr'
    cases hr'
  | @refuse _ j d hu hr' hj =>
    obtain rfl : j = k := by
      rw [hr'] at hr
      cases hr
      rfl
    refine (?_ : ∃ post', post = .removed j :: post') |>.imp fun _ h => ⟨h, hinv.not_invoked hu hcb⟩
    cases post with
    | nil =>
      rw [hv.eq_of_nil] at ht
      cases ht
    | cons e post =>
      obtain ⟨w, hst, -⟩ := hv.of_cons
      cases hst with
      | remove hc =>
        rcases hc with hc | hc
        · cases hc
        · cases hc
          exact ⟨post, rfl⟩
      | issue _ _ hc => rcases hc with hc | ⟨_, hc⟩ <;> cases hc
      | ignore hc | answer hc | invoke hc | refuse hc => cases hc

/-- **When no call is lost**: no response refused a call that waited. A response that
answers tells the callback, and every other one leaves the entries alone. -/
theorem conserved_iff (h : Run (Step verdict) init ls t) (ht : t.phase = .idle) :
    Conserved ls t ↔ ∀ pre r post k, ls = pre ++ .response r :: post →
      verdict r = .refuses k → ¬ Open pre k := by
  have hinv := inv_of_run h
  constructor
  · rintro hc pre r post k rfl hr hk
    obtain ⟨post', rfl, hnot⟩ := removed_of_refused h ht hr hk
    have htold := hc.told (pre ++ [.response r]) k post' (by simp)
    exact hnot (by simpa using htold)
  · intro hc
    have htold : ∀ pre k post, ls = pre ++ .removed k :: post → k ∈ invokedKeys pre := by
      rintro pre k post rfl
      obtain ⟨pre', r, mid, rfl, hopen, ⟨cb, a, rest, -, rfl, -⟩ | ⟨hr, rfl⟩⟩ := removed_after h
      · exact mem_invokedKeys.2 ⟨cb, a, by simp⟩
      · exact absurd hopen (hc pre' r (.removed k :: post) k (by simp) hr)
    refine ⟨fun k hk => ?_, htold⟩
    obtain ⟨cb, hcb⟩ := mem_issuedKeys.1 hk
    by_cases hrem : .removed k ∈ ls
    · obtain ⟨pre, post, rfl⟩ := List.append_of_mem hrem
      have hin := htold pre k post rfl
      exact .inr (by rw [invokedKeys_append]; exact List.mem_append_left _ hin)
    · have hk := (hinv.pending k cb).2 ⟨hcb, hrem⟩
      exact .inl (by rw [hk]; exact nofun)

end Steps

end CallTable
end Theory
end BearRpc
