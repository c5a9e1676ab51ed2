/-
# Batch requests

`RpcServer::handleBatchRequests` (`bearTcpServer.cc`, lines 322 to 358) with the
two kinds of response object, the one a procedure gives its `UserCallback`
(`utils.h`) and the one `wrapException` makes of an exception.  A procedure `p`
answers a request `v` once, with the result `result p v`; `ThreadSafeBatchResponse`
and the order of the answers are the subject of `BearRpc.Server.BatchResponse`.

One `try` block surrounds the whole loop, so the first element that fails ends
it.  An element is processed as the others leave it alone (`Processed`) if a
notification that names a procedure is invoked once and answered never, and
every other element is answered once.  `processed_iff` says for which batches
this holds of every element.
-/

import BearRpc.Server.Requests
import BearRpc.Connection
import BearRpc.Theory.Log

namespace BearRpc

open Theory

/-- `UserCallback::operator()`: the response to `request` with a result. -/
def UserCallback.call (request result : Json) : Json :=
  ((Json.object []).addMember "jsonrpc" (.string "2.0")).addMember "id" (request.get "id")
    |>.addMember "result" result

/-- `BaseServer::wrapException` -/
def BaseServer.wrapException (e : RequestException) : Json :=
  let value := (Json.object []).addMember "code" (.int32 e.err.asCode)
    |>.addMember "message" (.string e.err.asString)
    |>.addMember "data" (.string e.detail)
  ((Json.object []).addMember "jsonrpc" (.string "2.0")).addMember "error" value
    |>.addMember "id" e.id

namespace RpcServer

open BaseServer

variable {P N : Type} (services : ServiceList P N) (result : P → Json → Json)

/-- The procedure an element of a batch is dispatched to. -/
inductive Call (P N : Type) where
  | answer (procedure : P)
  | notify (procedure : N)

/-- The body of the loop of `handleBatchRequests`, up to the invocation. -/
def dispatch (request : Json) : Except RpcException (Call P N) :=
  if !request.isObject then
    throw (.request ⟨.invalidRequest, .null, "request should be json object"⟩)
  else if isNotify request then
    (handleSingleNotify services request).map .notify
  else
    ((handleSingleRequest services request).mapError .request).map .answer

/-- A batch: the loop counter, the notify procedures invoked and the responses
added, each with the element they belong to. -/
structure Batch (N : Type) where
  i : ℕ
  notified : List (ℕ × N)
  responses : List (ℕ × Json)

/-- The batch before the loop. -/
def Batch.init : Batch N := ⟨0, [], []⟩

/-- `responses.addResponse(response)`, for the element at hand. -/
def addResponse (response : Json) : CppM RpcException (Batch N) Unit :=
  modify fun b => { b with responses := b.responses ++ [(b.i, response)] }

/-- One iteration of the loop. -/
def handleElement (request : Json) : CppM RpcException (Batch N) Unit := do
  match dispatch services request with
  | .error e => throw (.thrown e)
  | .ok (.notify n) => modify fun b => { b with notified := b.notified ++ [(b.i, n)] }
  | .ok (.answer p) => addResponse (UserCallback.call request (result p request))
  modify fun b => { b with i := b.i + 1 }

/-- The loop of `handleBatchRequests`. -/
def batchLoop : List Json → CppM RpcException (Batch N) Unit
  | [] => pure ()
  | request :: requests => do
    handleElement services result request
    batchLoop requests

/-- The catch clauses: a `RequestException` becomes a response. -/
def onException : Abrupt RpcException → CppM RpcException (Batch N) Unit
  | .thrown (.request e) => addResponse (wrapException e)
  | .thrown (.notify _) => pure ()
  | e => throw e

/-- `RpcServer::handleBatchRequests` on the elements of the array. -/
def handleBatchRequests (requests : List Json) : CppM RpcException (Batch N) Unit := do
  if requests.length = 0 then
    throw (.thrown (.request ⟨.invalidRequest, .null, "batch request is empty"⟩))
  try
    batchLoop services result requests
  catch e =>
    onException e

/-! ### What a batch should do -/

/-- A JSON object without an id. -/
def IsNotification (v : Json) : Prop := v.isObject = true ∧ isNotify v = true

/-- `w` answers `v`: it is the answer of its procedure, or an error object with
its id, null if it has no usable one. -/
def Answers (v w : Json) : Prop :=
  (∃ p, AcceptedRequest services v p ∧ w = UserCallback.call v (result p v)) ∨
    (∀ p, ¬ AcceptedRequest services v p) ∧ ∃ err d, w = wrapException ⟨err, usableId v, d⟩

/-- The element `v`, for which the procedures `ns` were invoked and the
responses `ws` were added, was processed as if it were alone. -/
def Processed (v : Json) (ns : List N) (ws : List Json) : Prop :=
  (IsNotification v ∧ ws = [] ∧ ∀ n, AcceptedNotify services v n → ns = [n]) ∨
    ¬ IsNotification v ∧ ∃ w, ws = [w] ∧ Answers services result v w

/-- `v` is dispatched to a procedure. -/
def Accepted (v : Json) : Prop :=
  (IsNotification v ∧ ∃ n, AcceptedNotify services v n) ∨ ∃ p, AcceptedRequest services v p

/-- The batches in which no element suffers from another: all are accepted, or
the first that is not does not raise a `RequestException` for a notification,
and only notifications that are not accepted follow it. -/
inductive Undisturbed (vs : List Json) : Prop
  | accepted (h : ∀ v ∈ vs, Accepted services v)
  | failed {pre post : List Json} {v : Json} (split : vs = pre ++ v :: post)
      (before : ∀ u ∈ pre, Accepted services u) (first : ¬ Accepted services v)
      (quiet : IsNotification v → ¬ RaisesRequest services v)
      (after : ∀ u ∈ post, IsNotification u ∧ ¬ Accepted services u)

variable {services result} {v : Json} {p : P} {n : N}

/-- A request that is accepted has an id, so it is no notification. -/
theorem AcceptedRequest.not_isNotification (h : AcceptedRequest services v p) :
    ¬ IsNotification v := by
  rintro ⟨-, hn⟩
  obtain ⟨valid⟩ := h
  obtain ⟨w, hw, -⟩ := valid.has_id
  rw [isNotify, hw] at hn
  cases hn

/-- Only an object has members. -/
theorem isObject_of_findMember {key : String} {w : Json} (h : v.findMember key = some w) :
    v.isObject = true := by
  cases v <;> first | rfl | cases h

/-- A value that is no object has no members to be found. -/
theorem findMember_of_not_object {key : String} (h : ¬ v.isObject = true) :
    v.findMember key = none := by
  cases hw : v.findMember key with
  | none => rfl
  | some w => exact absurd (isObject_of_findMember hw) h

/-- A request that is accepted is an object. -/
theorem AcceptedRequest.isObject (h : AcceptedRequest services v p) : v.isObject = true := by
  obtain ⟨valid⟩ := h
  exact isObject_of_findMember valid.has_version

/-- **An object without an id** is handled as a notification, so that what it invokes is
told to nobody. -/
theorem dispatch_of_isNotification (h : IsNotification v) :
    dispatch services v = (handleSingleNotify services v).map .notify := by
  simp [dispatch, h.1, h.2]

/-- **An object with one** is handled as a request, and a `RequestException` is answered,
with the id that the exception carries. -/
theorem dispatch_of_isObject (ho : v.isObject = true) (hn : ¬ IsNotification v) :
    dispatch services v = ((handleSingleRequest services v).mapError .request).map .answer := by
  simp [dispatch, ho, Bool.eq_false_iff.2 fun h => hn ⟨ho, h⟩]

/-- Where there is no id, an error response has a null one. -/
theorem usableId_of_findMember (h : v.findMember "id" = none) : usableId v = .null := by
  rw [usableId, h]

/-- **What an element that is not accepted raises**: a `NotifyException`, for a
notification alone, or a `RequestException` with the id of the element. -/
theorem dispatch_of_not_accepted (h : ¬ Accepted services v) :
    (IsNotification v ∧ ¬ RaisesRequest services v ∧
      ∃ e, dispatch services v = .error (.notify e)) ∨
    (IsNotification v → RaisesRequest services v) ∧
      ∃ err d, dispatch services v = .error (.request ⟨err, usableId v, d⟩) := by
  by_cases hn : IsNotification v
  · rw [dispatch_of_isNotification hn]
    rcases handleSingleNotify_cases services v with ⟨n, h₁⟩ | h₁ | ⟨e, he⟩
    · exact absurd (.inl ⟨hn, n, h₁⟩) h
    · obtain ⟨err, d, he⟩ := handleSingleNotify_of_raises h₁
      refine .inr ⟨fun _ => h₁, err, d, ?_⟩
      rw [he, usableId_of_findMember (Option.isNone_iff_eq_none.1 hn.2)]
      rfl
    · refine .inl ⟨hn, fun h₁ => ?_, e, by rw [he]; rfl⟩
      obtain ⟨err, d, hr⟩ := handleSingleNotify_of_raises h₁
      rw [hr] at he
      cases he
  refine .inr ⟨fun h₁ => absurd h₁ hn, ?_⟩
  by_cases ho : v.isObject = true
  · rw [dispatch_of_isObject ho hn]
    rcases handleSingleRequest_cases services v with ⟨p, h₁⟩ | ⟨err, d, he⟩
    · exact absurd (.inr ⟨p, h₁⟩) h
    · exact ⟨err, d, by rw [he]; rfl⟩
  · refine ⟨.invalidRequest, "request should be json object", ?_⟩
    rw [usableId_of_findMember (findMember_of_not_object ho), dispatch, if_pos (by simpa using ho)]
    rfl

/-! ### The loop -/

/-- What the loop has done with the elements `pre`. -/
structure Progress (services : ServiceList P N) (result : P → Json → Json) (pre : List Json)
    (b : Batch N) : Prop where
  counter : b.i = pre.length
  notified_lt : ∀ e ∈ b.notified, e.1 < b.i
  responses_lt : ∀ e ∈ b.responses, e.1 < b.i
  processed : ∀ j v, pre[j]? = some v →
    Processed services result v (valuesOf j b.notified) (valuesOf j b.responses)

/-- Before the first element, nothing is answered and nothing is refused. -/
theorem progress_init : Progress services result [] (Batch.init : Batch N) :=
  ⟨rfl, by simp [Batch.init], by simp [Batch.init], by simp⟩

variable {pre : List Json} {b : Batch N}

/-- Nothing was done for the elements to come. -/
theorem Progress.nothing (h : Progress services result pre b) {j : ℕ} (hj : pre.length ≤ j) :
    valuesOf j b.notified = [] ∧ valuesOf j b.responses = [] := by
  rw [← h.counter] at hj
  constructor
  · exact valuesOf_eq_nil fun e he => Nat.ne_of_lt (Nat.lt_of_lt_of_le (h.notified_lt e he) hj)
  · exact valuesOf_eq_nil fun e he => Nat.ne_of_lt (Nat.lt_of_lt_of_le (h.responses_lt e he) hj)

/-- An element processed leaves the others as they were. -/
theorem Progress.concat (h : Progress services result pre b) {ns : List N} {ws : List Json}
    (hv : Processed services result v ns ws) : Progress services result (pre ++ [v])
      ⟨b.i + 1, b.notified ++ ns.map fun n => (b.i, n),
       b.responses ++ ws.map fun w => (b.i, w)⟩ := by
  have hnone := h.nothing le_rfl
  obtain ⟨counter, notified_lt, responses_lt, processed⟩ := h
  refine ⟨by simp [counter], ?_, ?_, fun j u hu => ?_⟩
  · intro e he
    rcases List.mem_append.1 he with he | he
    · exact Nat.lt_succ_of_lt (notified_lt e he)
    · obtain ⟨n, -, rfl⟩ := List.mem_map.1 he
      exact Nat.lt_succ_self _
  · intro e he
    rcases List.mem_append.1 he with he | he
    · exact Nat.lt_succ_of_lt (responses_lt e he)
    · obtain ⟨w, -, rfl⟩ := List.mem_map.1 he
      exact Nat.lt_succ_self _
  · rcases Nat.lt_trichotomy j pre.length with hj | rfl | hj
    · rw [List.getElem?_append_left hj] at hu
      have hne : b.i ≠ j := by omega
      simpa [valuesOf_map_of_ne hne] using processed j u hu
    · rw [List.getElem?_concat_length] at hu
      cases hu
      rw [valuesOf_append, valuesOf_append, hnone.1, hnone.2, counter, valuesOf_map_self,
        valuesOf_map_self]
      exact hv
    · rw [List.getElem?_eq_none (by rw [List.length_append, List.length_singleton]; omega)] at hu
      cases hu

/-- One iteration of the loop. -/
theorem handleElement_eq (services : ServiceList P N) (result : P → Json → Json) (v : Json)
    (b : Batch N) : handleElement services result v b =
      match dispatch services v with
      | .error e => .error (.thrown e) b
      | .ok (.notify n) => .ok () ⟨b.i + 1, b.notified ++ [(b.i, n)], b.responses⟩
      | .ok (.answer p) =>
        .ok () ⟨b.i + 1, b.notified, b.responses ++ [(b.i, UserCallback.call v (result p v))]⟩ := by
  simp only [handleElement, bind]
  rcases dispatch services v with e | ⟨p⟩ | ⟨n⟩ <;> rfl

/-- The loop over a batch handles one element and goes on unless an exception left it. -/
theorem batchLoop_cons (services : ServiceList P N) (result : P → Json → Json) (v : Json)
    (vs : List Json) (b : Batch N) : batchLoop services result (v :: vs) b =
      match handleElement services result v b with
      | .ok _ b' => batchLoop services result vs b'
      | .error e b' => .error e b' := by
  simp only [batchLoop, bind, EStateM.bind]
  cases handleElement services result v b <;> rfl

/-- An accepted notification names one procedure. -/
theorem AcceptedNotify.unique {m : N} (h : AcceptedNotify services v n)
    (h' : AcceptedNotify services v m) : n = m := by
  have hok := handleSingleNotify_of_accepted h
  rw [handleSingleNotify_of_accepted h'] at hok
  cases hok
  rfl

/-- **One iteration on an accepted element** goes on to the next one, with one more
procedure invoked or one more response promised. -/
theorem handleElement_of_accepted (h : Progress services result pre b) (hv : Accepted services v) :
    ∃ b', handleElement services result v b = .ok () b' ∧
      Progress services result (pre ++ [v]) b' := by
  rcases hv with ⟨hn, n, h₁⟩ | ⟨p, h₁⟩
  · have hd : dispatch services v = .ok (.notify n) := by
      rw [dispatch_of_isNotification hn, handleSingleNotify_of_accepted h₁]
      rfl
    have hp : Processed services result v [n] [] :=
      .inl ⟨hn, rfl, fun m hm => by rw [h₁.unique hm]⟩
    exact ⟨_, by rw [handleElement_eq, hd]; simp, h.concat hp⟩
  · have hd : dispatch services v = .ok (.answer p) := by
      rw [dispatch_of_isObject h₁.isObject h₁.not_isNotification,
        handleSingleRequest_of_accepted h₁]
      rfl
    have hp : Processed services result v [] [UserCallback.call v (result p v)] :=
      .inr ⟨h₁.not_isNotification, _, rfl, .inl ⟨p, h₁, rfl⟩⟩
    exact ⟨_, by rw [handleElement_eq, hd]; simp, h.concat hp⟩

variable (result) in
/-- A run of accepted elements goes through. -/
theorem batchLoop_of_accepted {vs : List Json} (h : Progress services result pre b)
    (hvs : ∀ v ∈ vs, Accepted services v) (rest : List Json) :
    ∃ b', batchLoop services result (vs ++ rest) b = batchLoop services result rest b' ∧
      Progress services result (pre ++ vs) b' := by
  induction vs generalizing pre b with
  | nil => exact ⟨b, rfl, by rwa [List.append_nil]⟩
  | cons v vs ih =>
    obtain ⟨b₁, hb₁, h₁⟩ := handleElement_of_accepted h (hvs v (by simp))
    obtain ⟨b₂, hb₂, h₂⟩ := ih h₁ fun u hu => hvs u (by simp [hu])
    refine ⟨b₂, ?_, by simpa using h₂⟩
    rw [← hb₂, List.cons_append, batchLoop_cons, hb₁]

/-- The loop of a batch that is not empty, and the catch clauses behind it. -/
theorem handleBatchRequests_eq {vs : List Json} (hne : vs ≠ []) (b : Batch N) :
    handleBatchRequests services result vs b =
      match batchLoop services result vs b with
      | .ok _ b' => .ok () b'
      | .error e b' => onException e b' := by
  rw [Ne, ← List.length_eq_zero_iff] at hne
  simp only [handleBatchRequests, hne, if_false, bind, tryCatch, tryCatchThe,
    MonadExceptOf.tryCatch, EStateM.tryCatch, EStateM.Backtrackable.restore, EStateM.dummyRestore]
  cases batchLoop services result vs b <;> rfl

variable (result) in
/-- **A batch of accepted elements** comes to its end, and each of them has been processed
as if it were alone. -/
theorem handleBatchRequests_of_accepted {vs : List Json} (hne : vs ≠ [])
    (hvs : ∀ v ∈ vs, Accepted services v) :
    ∃ b, handleBatchRequests services result vs .init = .ok () b ∧
      Progress services result vs b := by
  obtain ⟨b, hb, hp⟩ := batchLoop_of_accepted result progress_init hvs []
  rw [List.append_nil] at hb
  exact ⟨b, by rw [handleBatchRequests_eq hne, hb]; rfl, hp⟩

variable (result) in
/-- **A batch with an element that is not accepted**: the elements before it are
processed, those behind it are not looked at, and the element itself is answered
with an error object unless it raised a `NotifyException`. -/
theorem handleBatchRequests_of_first (post : List Json) (hpre : ∀ u ∈ pre, Accepted services u)
    (hv : ¬ Accepted services v) :
    ∃ b ws, Progress services result pre b ∧
      handleBatchRequests services result (pre ++ v :: post) .init =
        .ok () { b with responses := b.responses ++ ws.map fun w => (b.i, w) } ∧
      ((IsNotification v ∧ ¬ RaisesRequest services v ∧ ws = []) ∨
        (IsNotification v → RaisesRequest services v) ∧
          ∃ err d, ws = [wrapException ⟨err, usableId v, d⟩]) := by
  obtain ⟨b, hb, hp⟩ := batchLoop_of_accepted result progress_init hpre (v :: post)
  rw [List.nil_append] at hp
  have hne : pre ++ v :: post ≠ [] := by simp
  rcases dispatch_of_not_accepted hv with ⟨hn, hr, e, he⟩ | ⟨hr, err, d, he⟩
  · refine ⟨b, [], hp, ?_, .inl ⟨hn, hr, rfl⟩⟩
    rw [handleBatchRequests_eq hne, hb, batchLoop_cons, handleElement_eq, he]
    simp [onException, pure, EStateM.pure]
  · refine ⟨b, _, hp, ?_, .inr ⟨hr, err, d, rfl⟩⟩
    rw [handleBatchRequests_eq hne, hb, batchLoop_cons, handleElement_eq, he]
    simp [onException, addResponse, modify_run]

variable (services result) in
/-- A batch that is not empty raises nothing. -/
theorem handleBatchRequests_returns {vs : List Json} (hne : vs ≠ []) :
    ∃ b, handleBatchRequests services result vs .init = .ok () b := by
  by_cases hvs : ∀ v ∈ vs, Accepted services v
  · obtain ⟨b, hb, -⟩ := handleBatchRequests_of_accepted result hne hvs
    exact ⟨b, hb⟩
  · simp only [not_forall, exists_prop] at hvs
    obtain ⟨pre, v, post, rfl, hv, hpre⟩ := exists_first hvs
    obtain ⟨b, ws, -, hb, -⟩ := handleBatchRequests_of_first result post
      (fun u hu => not_not.1 (hpre u hu)) hv
    exact ⟨_, hb⟩

/-- An element for which nothing was done was processed only if it is a
notification that is not accepted. -/
theorem Processed.of_nil (h : Processed services result v [] []) :
    IsNotification v ∧ ¬ Accepted services v := by
  rcases h with ⟨hn, -, hall⟩ | ⟨-, w, hw, -⟩
  · refine ⟨hn, ?_⟩
    rintro (⟨-, n, h⟩ | ⟨p, h⟩)
    · cases hall n h
    · exact h.not_isNotification hn
  · cases hw

/-- A notification that is not accepted needs nothing to be done. -/
theorem processed_nil (hn : IsNotification v) (h : ¬ Accepted services v) :
    Processed services result v [] [] :=
  .inl ⟨hn, rfl, fun n hn' => absurd (.inl ⟨hn, n, hn'⟩) h⟩

/-- What was done for an element that is not accepted is right unless it is a
notification that raised a `RequestException`. -/
theorem processed_of_not_accepted {ws : List Json} (h : ¬ Accepted services v)
    (hws : (IsNotification v ∧ ¬ RaisesRequest services v ∧ ws = []) ∨
      (IsNotification v → RaisesRequest services v) ∧
        ∃ err d, ws = [wrapException ⟨err, usableId v, d⟩]) :
    Processed services result v [] ws ↔ (IsNotification v → ¬ RaisesRequest services v) := by
  constructor
  · intro hp hn hr
    rcases hws with ⟨-, hnr, -⟩ | ⟨-, err, d, rfl⟩
    · exact hnr hr
    · rcases hp with ⟨-, hnil, -⟩ | ⟨hn', -⟩
      · cases hnil
      · exact hn' hn
  · intro hq
    rcases hws with ⟨hn, -, rfl⟩ | ⟨hr, err, d, rfl⟩
    · exact processed_nil hn h
    · refine .inr ⟨fun hn => hq hn (hr hn), _, rfl,
        .inr ⟨fun p hp => h (.inr ⟨p, hp⟩), err, d, rfl⟩⟩

/-- What was done under the index of the first element that is not accepted, and
behind it. -/
theorem Progress.first (hp : Progress services result pre b) (ws : List Json) {j : ℕ}
    (hj : pre.length ≤ j) : valuesOf j b.notified = [] ∧
      valuesOf j (b.responses ++ ws.map fun w => (b.i, w)) = if j = pre.length then ws else [] := by
  obtain ⟨hnotified, hresponses⟩ := hp.nothing hj
  refine ⟨hnotified, ?_⟩
  rw [valuesOf_append, hresponses, hp.counter, List.nil_append]
  split_ifs with h
  · rw [h, valuesOf_map_self]
  · exact valuesOf_map_of_ne (Ne.symm h) ws

/-- The elements behind one. -/
theorem getElem?_behind {α : Type*} (pre post : List α) (u : α) (k : ℕ) :
    (pre ++ u :: post)[pre.length + (k + 1)]? = post[k]? := by
  rw [List.getElem?_append_right (by omega), Nat.add_sub_cancel_left, List.getElem?_cons_succ]

/-- A batch with every element processed is undisturbed. -/
theorem undisturbed_of_processed {vs : List Json} {b : Batch N}
    (hb : handleBatchRequests services result vs .init = .ok () b)
    (hall : ∀ j u, vs[j]? = some u →
      Processed services result u (valuesOf j b.notified) (valuesOf j b.responses)) :
    Undisturbed services vs := by
  by_cases hvs : ∀ u ∈ vs, Accepted services u
  · exact .accepted hvs
  simp only [not_forall, exists_prop] at hvs
  obtain ⟨pre, u, post, rfl, hu, hpre⟩ := exists_first hvs
  have hpre' : ∀ w ∈ pre, Accepted services w := fun w hw => not_not.1 (hpre w hw)
  obtain ⟨b₀, ws, hp, hb₀, hws⟩ := handleBatchRequests_of_first result post hpre' hu
  rw [hb₀] at hb
  cases hb
  refine .failed rfl hpre' hu ?_ fun w hw => ?_
  · have hat := hall pre.length u (by simp)
    obtain ⟨hnotified, hresponses⟩ := hp.first ws le_rfl
    rw [hnotified, hresponses, if_pos rfl] at hat
    exact (processed_of_not_accepted hu hws).1 hat
  · obtain ⟨k, hk⟩ := List.getElem?_of_mem hw
    have hat := hall _ w ((getElem?_behind pre post u k).trans hk)
    obtain ⟨hnotified, hresponses⟩ := hp.first ws (Nat.le_add_right pre.length (k + 1))
    rw [hnotified, hresponses, if_neg (by omega)] at hat
    exact hat.of_nil

/-- An undisturbed batch has every element processed. -/
theorem processed_of_undisturbed {vs : List Json} (hne : vs ≠ []) (h : Undisturbed services vs) :
    ∃ b, handleBatchRequests services result vs .init = .ok () b ∧ ∀ j u, vs[j]? = some u →
      Processed services result u (valuesOf j b.notified) (valuesOf j b.responses) := by
  rcases h with hvs | @⟨pre, post, u, rfl, hpre, hu, hquiet, hpost⟩
  · obtain ⟨b, hb, hp⟩ := handleBatchRequests_of_accepted result hne hvs
    exact ⟨b, hb, hp.processed⟩
  obtain ⟨b, ws, hp, hb, hws⟩ := handleBatchRequests_of_first result post hpre hu
  refine ⟨_, hb, fun j w hw => ?_⟩
  rcases Nat.lt_trichotomy j pre.length with hj | rfl | hj
  · rw [List.getElem?_append_left hj] at hw
    rw [valuesOf_append, hp.counter, valuesOf_map_of_ne (Nat.ne_of_gt hj), List.append_nil]
    exact hp.processed j w hw
  · obtain ⟨hnotified, hresponses⟩ := hp.first ws le_rfl
    rw [List.getElem?_append_right le_rfl, Nat.sub_self] at hw
    cases hw
    rw [hnotified, hresponses, if_pos rfl]
    exact (processed_of_not_accepted hu hws).2 hquiet
  · obtain ⟨k, rfl⟩ := Nat.exists_eq_add_of_lt hj
    obtain ⟨hnotified, hresponses⟩ := hp.first ws (Nat.le_add_right pre.length (k + 1))
    have hmem : w ∈ post := List.mem_of_getElem? ((getElem?_behind pre post u k).symm.trans hw)
    rw [Nat.add_assoc, hnotified, hresponses, if_neg (by omega)]
    exact processed_nil (hpost w hmem).1 (hpost w hmem).2

/-- **Which batches have every element processed as if it were alone.** For every batch with
an element and every table of services: the call returns, and each element, at its place,
has had its procedure invoked or its request answered, if and only if no element suffers
from another; an exception that is not caught inside the loop ends the batch, and the
elements behind it are not looked at. -/
theorem processed_iff (services : ServiceList P N) (result : P → Json → Json) (v : Json)
    (vs : List Json) :
    (∃ b, handleBatchRequests services result (v :: vs) .init = .ok () b ∧
      ∀ j u, (v :: vs)[j]? = some u →
        Processed services result u (valuesOf j b.notified) (valuesOf j b.responses)) ↔
      Undisturbed services (v :: vs) := by
  constructor
  · rintro ⟨b, hb, hall⟩
    exact undisturbed_of_processed hb hall
  · exact processed_of_undisturbed (List.cons_ne_nil v vs)

/-- **The batch `[null, null]` gets no response for its second element**: the first is
refused by an exception that ends the whole batch. -/
theorem not_processed_nulls :
    ¬ ∃ b, handleBatchRequests (∅ : ServiceList Unit Unit) (fun _ v => v) [.null, .null] .init =
        .ok () b ∧
      ∀ j u, [Json.null, .null][j]? = some u → Processed (∅ : ServiceList Unit Unit)
        (fun _ v => v) u (valuesOf j b.notified) (valuesOf j b.responses) := by
  rintro ⟨b, hb, hall⟩
  cases hb
  have hat : Processed (∅ : ServiceList Unit Unit) (fun _ v => v) .null [] [] := hall 1 .null rfl
  exact absurd hat.of_nil.1.1 (by decide)

end RpcServer
end BearRpc
