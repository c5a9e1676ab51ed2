/-
# The shared response of a batch

`ThreadSafeBatchResponse` (`bearTcpServer.cc`, lines 232 to 264) under
`RpcServer::handleBatchRequests`.  Every callback of the batch holds a reference
to one `ThreadSafeData`; the destructor of the data hands the array of responses
to `done`.

The system has the thread that runs `handleBatchRequests` (`Handler`) and, on
any threads, the procedures with their copies of the callback.  A holder of a
copy may copy it again, call it with a response, or drop it.  Each call of
`addResponse` is one step, the mutex being correct, and so is each change of the
reference count with the destructor call it may cause.  A step is labelled with
the response that it passes to `addResponse`, if it passes one.

`done_called_once` says when and with what `done` has been called, in every state of
every run.
-/

import BearRpc.Server.Batch
import BearRpc.Theory.Transition
import Mathlib.Data.List.ReduceOption

namespace BearRpc

open Theory RpcServer BaseServer

namespace ThreadSafeBatchResponse

variable {P N : Type}

/-- Where the thread in `handleBatchRequests` is. -/
inductive Handler where
  /-- before the iteration for the first of the remaining elements -/
  | loop (rest : List Json)
  /-- in a procedure, holding the callback it was called with -/
  | inCall (rest : List Json)
  /-- in a catch clause -/
  | caught (e : RpcException)
  /-- behind the loop and the catch clauses -/
  | leaving
  /-- returned, and its own reference released -/
  | left

/-- The references the thread holds: its own and the one in its callback. -/
def Handler.refs : Handler → ℕ
  | .inCall _ => 2
  | .left => 0
  | _ => 1

/-- The batch while it is processed. -/
structure State where
  handler : Handler
  /-- the copies of callbacks in the hands of procedures -/
  copies : ℕ
  /-- `use_count()` of `data_` -/
  refs : ℕ
  /-- `data_->responses` -/
  responses : List Json
  /-- the arrays `done` was called with -/
  calls : List (List Json)

/-- The construction of `responses` in `handleBatchRequests`; an empty batch has
been refused before. -/
def start (requests : List Json) : Option State :=
  if requests.length = 0 then none else some ⟨.loop requests, 0, 1, [], []⟩

/-- A reference is released; with the last one `~ThreadSafeData` calls `done`. -/
def State.release (s : State) : State :=
  if s.refs = 1 then { s with refs := 0, calls := s.calls ++ [s.responses] }
  else { s with refs := s.refs - 1 }

/-- `addResponse(response)` -/
def State.addResponse (s : State) (response : Json) : State :=
  { s with responses := s.responses ++ [response] }

/-- Someone holds a callback: a procedure its copy, or the handler the one it
passes to the procedure it is in. -/
def State.Held (s : State) : Prop := 0 < s.copies ∨ ∃ rest, s.handler = .inCall rest

/-- The steps of the threads. -/
inductive Step (services : ServiceList P N) : State → Option Json → State → Prop
  /-- the loop is over -/
  | finish {s} : s.handler = .loop [] → Step services s none { s with handler := .leaving }
  /-- a notify procedure is called and returns -/
  | notify {s v rest n} : s.handler = .loop (v :: rest) → dispatch services v = .ok (.notify n) →
      Step services s none { s with handler := .loop rest }
  /-- a notify procedure throws -/
  | notifyThrows {s v rest n} (e : RpcException) : s.handler = .loop (v :: rest) →
      dispatch services v = .ok (.notify n) → Step services s none { s with handler := .caught e }
  /-- an element is refused -/
  | refuse {s v rest e} : s.handler = .loop (v :: rest) → dispatch services v = .error e →
      Step services s none { s with handler := .caught e }
  /-- a procedure is called with a callback -/
  | call {s v rest p} : s.handler = .loop (v :: rest) → dispatch services v = .ok (.answer p) →
      Step services s none { s with handler := .inCall rest, refs := s.refs + 1 }
  /-- the procedure returns, and the callback it was called with is destroyed -/
  | returns {s rest} : s.handler = .inCall rest →
      Step services s none { s with handler := .loop rest }.release
  /-- the procedure throws, and the callback is destroyed on the way -/
  | throws {s rest} (e : RpcException) : s.handler = .inCall rest →
      Step services s none { s with handler := .caught e }.release
  /-- `catch (RequestException &e)` -/
  | catchRequest {s e} : s.handler = .caught (.request e) →
      Step services s (some (wrapException e))
        ({ s with handler := .leaving }.addResponse (wrapException e))
  /-- `catch (NotifyException &e)` -/
  | catchNotify {s e} : s.handler = .caught (.notify e) →
      Step services s none { s with handler := .leaving }
  /-- the thread returns and its own `responses` is destroyed -/
  | leave {s} : s.handler = .leaving → Step services s none { s with handler := .left }.release
  /-- a callback is copied -/
  | copy {s} : s.Held →
      Step services s none { s with copies := s.copies + 1, refs := s.refs + 1 }
  /-- a callback is called -/
  | invoke {s} (response : Json) : s.Held →
      Step services s (some response) (s.addResponse response)
  /-- a copy of a callback is destroyed -/
  | drop {s} : 0 < s.copies → Step services s none { s with copies := s.copies - 1 }.release

/-- The responses passed to `addResponse` in a run. -/
def added (ls : List (Option Json)) : List Json := ls.reduceOption

/-- What holds in every state of a run. -/
structure Inv (ls : List (Option Json)) (s : State) : Prop where
  /-- the reference count counts the references -/
  refs : s.refs = s.copies + s.handler.refs
  /-- no response is lost -/
  responses : s.responses = added ls
  /-- the destructor has run exactly if there is no reference -/
  calls : s.calls = if s.refs = 0 then [s.responses] else []

variable {services : ServiceList P N} {requests : List Json} {ls : List (Option Json)}
  {s s₀ t : State} {l : Option Json}

/-- A call of a procedure's `done` that brings no response adds none to the batch. -/
theorem added_concat_none (ls : List (Option Json)) : added (ls ++ [none]) = added ls :=
  (List.reduceOption_append ..).trans (List.append_nil _)

/-- The response that was added now is the last. -/
theorem added_concat_some (ls : List (Option Json)) (r : Json) :
    added (ls ++ [some r]) = added ls ++ [r] := List.reduceOption_append ..

/-- A new batch: the handler holds the only reference, and `done` has not been called. -/
theorem inv_start (h : start requests = some s) : Inv [] s := by
  unfold start at h
  split_ifs at h with hr
  cases h
  exact ⟨rfl, rfl, rfl⟩

/-- Until the handler has left, it holds a reference. -/
theorem Handler.refs_pos {pc : Handler} (h : pc ≠ .left) : 0 < pc.refs := by
  cases pc with
  | left => exact absurd rfl h
  | _ => simp [refs]

/-- Until it has returned, the thread holds a reference. -/
theorem Inv.refs_pos (h : Inv ls s) (hs : s.handler ≠ .left) : 0 < s.refs := by
  have := Handler.refs_pos hs
  rw [h.refs]
  omega

/-- Whoever holds a callback holds a reference. -/
theorem Inv.refs_pos_of_held (h : Inv ls s) (hs : s.Held) : 0 < s.refs := by
  rcases hs with hc | ⟨rest, hh⟩
  · rw [h.refs]
    omega
  · exact h.refs_pos (by rw [hh]; exact nofun)

/-- **While a reference is held**, the destructor has not called `done`: it runs when the
last one is given up, the one of the handler included. -/
theorem Inv.calls_nil (h : Inv ls s) (hpos : 0 < s.refs) : s.calls = [] := by
  rw [h.calls, if_neg (by omega)]

/-- The thread moves on, with as many references as before. -/
theorem Inv.move (h : Inv ls s) {pc : Handler} (ht : pc.refs = s.handler.refs) :
    Inv (ls ++ [none]) { s with handler := pc } :=
  ⟨by rw [ht]; exact h.refs, by rw [added_concat_none]; exact h.responses, h.calls⟩

/-- A new reference is made from one that is there. -/
theorem Inv.acquire (h : Inv ls s) (hpos : 0 < s.refs) {pc : Handler} {copies : ℕ}
    (ht : copies + pc.refs = s.copies + s.handler.refs + 1) :
    Inv (ls ++ [none]) { s with handler := pc, copies := copies, refs := s.refs + 1 } := by
  refine ⟨?_, by rw [added_concat_none]; exact h.responses, ?_⟩
  · rw [h.refs, ht]
  · rw [if_neg (Nat.succ_ne_zero _)]
    exact h.calls_nil hpos

/-- A reference is released; with the last one, `done` is called. -/
theorem Inv.release (h : Inv ls s) {pc : Handler} {copies : ℕ}
    (ht : copies + pc.refs + 1 = s.copies + s.handler.refs) :
    Inv (ls ++ [none]) { s with handler := pc, copies := copies }.release := by
  have hrefs := h.refs
  have hcalls := h.calls_nil (by omega)
  have hresp : s.responses = added (ls ++ [none]) := by rw [added_concat_none]; exact h.responses
  unfold State.release
  split_ifs with hlast
  · dsimp only at hlast
    exact ⟨by dsimp only; omega, hresp, by rw [hcalls]; rfl⟩
  · dsimp only at hlast
    exact ⟨by dsimp only; omega, hresp, by rw [if_neg (by dsimp only; omega)]; exact hcalls⟩

/-- A response that is added while somebody holds a reference stands behind the others, and
`done` has still not been called. -/
theorem Inv.addResponse (h : Inv ls s) (hpos : 0 < s.refs) {pc : Handler}
    (ht : pc.refs = s.handler.refs) (r : Json) :
    Inv (ls ++ [some r]) ({ s with handler := pc }.addResponse r) := by
  refine ⟨by rw [State.addResponse, ht]; exact h.refs, ?_, ?_⟩
  · rw [added_concat_some, ← h.responses]
    rfl
  · rw [State.addResponse, if_neg (by dsimp only; omega)]
    exact h.calls_nil hpos

/-- **Every step preserves the invariant**, whichever of the procedures answers next and
whether the handler is still in its loop. -/
theorem Inv.step (h : Inv ls s) (hst : Step services s l t) : Inv (ls ++ [l]) t := by
  cases hst with
  | finish hh | notify hh | notifyThrows _ hh | refuse hh | catchNotify hh =>
    exact h.move (by rw [hh]; rfl)
  | call hh => exact h.acquire (h.refs_pos (by rw [hh]; exact nofun)) (by rw [hh]; rfl)
  | copy hheld => exact h.acquire (h.refs_pos_of_held hheld) (by omega)
  | returns hh | throws _ hh | leave hh => exact h.release (by rw [hh]; rfl)
  | drop hpos => exact h.release (by omega)
  | catchRequest hh =>
    exact h.addResponse (h.refs_pos (by rw [hh]; exact nofun)) (by rw [hh]; rfl) _
  | invoke r hheld => exact h.addResponse (h.refs_pos_of_held hheld) rfl r

/-- **When `done` is called, and with what.**  In every state of every run: if
the thread has left `handleBatchRequests` and no copy of a callback is left,
`done` has been called once, with exactly the responses passed to `addResponse`;
before that it has not been called. -/
theorem done_called_once (services : ServiceList P N) (hstart : start requests = some s₀)
    (hrun : Run (Step services) s₀ ls s) :
    (s.handler = .left ∧ s.copies = 0 → s.calls = [added ls]) ∧
      (¬ (s.handler = .left ∧ s.copies = 0) → s.calls = []) := by
  have hinv : Inv ls s := hrun.invariant (inv_start hstart) fun _ _ _ _ h hst => h.step hst
  have hrefs := hinv.refs
  constructor
  · rintro ⟨hh, hc⟩
    rw [hh, hc, Handler.refs] at hrefs
    rw [hinv.calls, if_pos hrefs, hinv.responses]
  · intro hlive
    refine hinv.calls_nil ?_
    by_cases hh : s.handler = .left
    · have hc : s.copies ≠ 0 := fun hc => hlive ⟨hh, hc⟩
      omega
    · exact hinv.refs_pos hh

/-- A batch of one request. -/
def oneStart : State := ⟨.loop [oneRequest], 0, 1, [], []⟩

/-- Its end, with one response. -/
def oneEnd (r : Json) : State := ⟨.left, 0, 0, [r], [[r]]⟩

/-- A procedure keeps a copy of its callback, and calls it after the thread has
returned. -/
theorem run_oneStart (r : Json) : Run (Step oneService) oneStart
    [none, none, none, none, none, some r, none] (oneEnd r) :=
  ((((((Run.nil.snoc (.call rfl rfl)).snoc (.copy (.inr ⟨[], rfl⟩))).snoc (.returns rfl)).snoc
    (.finish rfl)).snoc (.leave rfl)).snoc (.invoke r (.inl Nat.one_pos))).snoc (.drop Nat.one_pos)

/-- The hypotheses of `done_called_once` are satisfiable. -/
theorem done_called_once_oneStart :
    ((oneEnd .null).handler = .left ∧ (oneEnd .null).copies = 0 →
        (oneEnd .null).calls = [added [none, none, none, none, none, some .null, none]]) ∧
      (¬ ((oneEnd .null).handler = .left ∧ (oneEnd .null).copies = 0) →
        (oneEnd .null).calls = []) :=
  done_called_once oneService (show start [oneRequest] = some oneStart from rfl)
    (run_oneStart .null)

/-! ### The sequential batch is one of the runs -/

/-- The batch `b` of the sequential model, with no copy of a callback kept. -/
structure Matches (b : Batch N) (s : State) : Prop where
  refs : s.refs = 1
  copies : s.copies = 0
  calls : s.calls = []
  responses : s.responses = b.responses.map Prod.snd

/-- Where the handler is does not matter to the batch it works on. -/
theorem Matches.move {b : Batch N} (h : Matches b s) (pc : Handler) :
    Matches b { s with handler := pc } := ⟨h.refs, h.copies, h.calls, h.responses⟩

/-- One iteration with procedures that call their callback at once and keep no
copy of it. -/
theorem synchronous_element (services : ServiceList P N) (result : P → Json → Json) {v : Json}
    {vs : List Json} {b : Batch N} (hh : s.handler = .loop (v :: vs)) (hm : Matches b s) :
    (∃ b' ls t, handleElement services result v b = .ok () b' ∧ Run (Step services) s ls t ∧
      t.handler = .loop vs ∧ Matches b' t) ∨
    ∃ e ls t, handleElement services result v b = .error (.thrown e) b ∧
      Run (Step services) s ls t ∧ t.handler = .caught e ∧ Matches b t := by
  rw [handleElement_eq]
  rcases hd : dispatch services v with e | ⟨p⟩ | ⟨n⟩
  · exact .inr ⟨e, _, _, rfl, .single (.refuse hh hd), rfl, hm.move _⟩
  · have hcall := Run.single (Step.call hh hd)
    have hinvoke := hcall.snoc (Step.invoke (UserCallback.call v (result p v)) (.inr ⟨vs, rfl⟩))
    refine .inl ⟨_, _, _, rfl, hinvoke.snoc (.returns rfl), ?_⟩
    have hlast : ¬ s.refs + 1 = 1 := by rw [hm.refs]; decide
    simp only [State.release, State.addResponse, hlast, if_false]
    exact ⟨trivial, hm.refs, hm.copies, hm.calls, by simp [hm.responses]⟩
  · exact .inl ⟨_, _, _, rfl, .single (.notify hh hd), rfl, hm.refs, hm.copies, hm.calls,
      hm.responses⟩

/-- **The loop of `handleBatchRequests` with procedures that answer at once** is a run of
the interleaved model, up to the place where it leaves or throws. -/
theorem synchronous_loop (services : ServiceList P N) (result : P → Json → Json) (vs : List Json)
    {b : Batch N} (hh : s.handler = .loop vs) (hm : Matches b s) :
    (∃ b' ls t, batchLoop services result vs b = .ok () b' ∧ Run (Step services) s ls t ∧
      t.handler = .leaving ∧ Matches b' t) ∨
    ∃ e b' ls t, batchLoop services result vs b = .error (.thrown e) b' ∧
      Run (Step services) s ls t ∧ t.handler = .caught e ∧ Matches b' t := by
  induction vs generalizing b s with
  | nil => exact .inl ⟨b, _, _, rfl, .single (.finish hh), rfl, hm.move _⟩
  | cons v vs ih =>
    rw [batchLoop_cons]
    rcases synchronous_element services result hh hm with
      ⟨b', ls, t, he, hrun, ht, hm'⟩ | ⟨e, ls, t, he, hrun, ht, hm'⟩
    · rw [he]
      rcases ih ht hm' with ⟨b'', ls', u, hl, hrun', hu⟩ | ⟨e, b'', ls', u, hl, hrun', hu⟩
      · exact .inl ⟨b'', _, u, hl, hrun.trans hrun', hu⟩
      · exact .inr ⟨e, b'', _, u, hl, hrun.trans hrun', hu⟩
    · rw [he]
      exact .inr ⟨e, b, ls, t, rfl, hrun, ht, hm'⟩

/-- The thread returns, and nobody holds a copy of a callback. -/
theorem Matches.leave {b : Batch N} (h : Matches b s) (hh : s.handler = .leaving) :
    ∃ t, Run (Step services) s [none] t ∧ t.handler = .left ∧
      t.calls = [b.responses.map Prod.snd] := by
  refine ⟨_, .single (.leave hh), ?_⟩
  simp only [State.release, h.refs, if_true, h.calls, h.responses, List.nil_append]
  exact ⟨trivial, trivial⟩

/-- **The sequential `handleBatchRequests` is a run of the threads**: where every
procedure calls its callback at once and keeps no copy, `done` is called with the
responses of the sequential model. -/
theorem exists_synchronous_run (services : ServiceList P N) (result : P → Json → Json)
    (hne : requests ≠ []) :
    ∃ b s₀ ls s, handleBatchRequests services result requests .init = .ok () b ∧
      start requests = some s₀ ∧ Run (Step services) s₀ ls s ∧ s.handler = .left ∧
        s.calls = [b.responses.map Prod.snd] := by
  have hstart : start requests = some ⟨.loop requests, 0, 1, [], []⟩ :=
    if_neg fun h => hne (List.length_eq_zero_iff.1 h)
  have hm : Matches (Batch.init : Batch N) ⟨.loop requests, 0, 1, [], []⟩ := ⟨rfl, rfl, rfl, rfl⟩
  rw [handleBatchRequests_eq hne]
  rcases synchronous_loop services result requests rfl hm with
    ⟨b, ls, t, hl, hrun, ht, hb⟩ | ⟨e | e, b, ls, t, hl, hrun, ht, hb⟩
  · obtain ⟨u, hrun', hu, hcalls⟩ := hb.leave ht
    exact ⟨b, _, _, u, by rw [hl], hstart, hrun.trans hrun', hu, hcalls⟩
  · have hb' : Matches { b with responses := b.responses ++ [(b.i, wrapException e)] }
        ({ t with handler := .leaving }.addResponse (wrapException e)) :=
      ⟨hb.refs, hb.copies, hb.calls, by simp [State.addResponse, hb.responses]⟩
    obtain ⟨u, hrun', hu, hcalls⟩ := hb'.leave rfl
    exact ⟨_, _, _, u, by rw [hl]; rfl, hstart, (hrun.snoc (.catchRequest ht)).trans hrun', hu,
      hcalls⟩
  · obtain ⟨u, hrun', hu, hcalls⟩ := (hb.move .leaving).leave rfl
    exact ⟨b, _, _, u, by rw [hl]; rfl, hstart, (hrun.snoc (.catchNotify ht)).trans hrun', hu,
      hcalls⟩

end ThreadSafeBatchResponse
end BearRpc
