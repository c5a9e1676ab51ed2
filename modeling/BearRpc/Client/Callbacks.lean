/-
# Calls and callbacks of the client

`bearTcpClinet.cc` and `bearTcpClinet.h`, lines 33 to 75 and 110 to 157: the
counter `id_`, the table `callbacks_`, and the functions that change them.
`callbacks_` is a `std::unordered_map` from `int64_t` to callbacks; `id_` is an
integer, and `id_++` fails where the `int64_t` of the source would overflow.

A callback is a value of an arbitrary type; what it does when it is invoked may
depend on all that has happened.  It may issue calls and notifications, and it
does not throw.  The calls are put into `callbacks_` between the `find` and the
`callbacks_.erase(it)` of `handleSingleResponse`, and if the table is rehashed on
the way, `it` is invalid and erasing through it undefined.

The state keeps the history of what happened, which the code itself does not
store: the calls issued, the responses handled, the callbacks invoked and the
entries removed.
-/

import BearRpc.Client.Framing
import BearRpc.Client.Responses
import BearRpc.Theory.CallTable
import BearRpc.Theory.UnorderedMap

namespace BearRpc

open Theory

namespace BaseClient

/-- The arguments of a `ResponseCallback`. -/
structure Reply where
  value : Json
  isError : Bool
  isTimeout : Bool

/-- What has happened in a client with callbacks in `κ`. -/
abbrev History (κ : Type) := List (CallTable.Event ℤ κ Json Reply)

/-- What a callback may do with the client it is invoked by. -/
inductive Action (κ : Type) where
  | call (json : Json) (cb : κ)
  | notify (json : Json)

/-- The action issues a call. -/
def Action.isCall {κ : Type} : Action κ → Bool
  | .call _ _ => true
  | .notify _ => false

/-- The JSON library fails on the call, which is no object. -/
def Action.isRefused {κ : Type} (codec : Codec) : Action κ → Bool
  | .call json _ => codec.refuses json
  | .notify _ => false

/-- `class BaseClient`, with the bytes it has sent and its history. -/
structure State (κ : Type) where
  id : ℤ
  callbacks : UnorderedMap ℤ κ
  sent : List Bytes
  history : History κ

variable {κ : Type}

/-- A new client. -/
def State.init (growth : Growth) : State κ := ⟨0, .empty growth, [], []⟩

/-- The callback under an id. -/
def State.findCallback (s : State κ) (id : ℤ) : Option κ := s.callbacks.lookup id

/-- The state with one more event. -/
def State.record (s : State κ) (e : CallTable.Event ℤ κ Json Reply) : State κ :=
  { s with history := s.history ++ [e] }

/-- Add to the history. -/
def log (e : CallTable.Event ℤ κ Json Reply) : CppM ResponseException (State κ) Unit := fun s =>
  .ok () (s.record e)

/-- `conn->send(message)` -/
def send (message : Bytes) : CppM ResponseException (State κ) Unit := fun s =>
  .ok () { s with sent := s.sent ++ [message] }

/-- `id_++`, on an `int64_t`. -/
def incrementId : CppM ResponseException (State κ) Unit := fun s =>
  if s.id < 2 ^ 63 - 1 then .ok () { s with id := s.id + 1 } else .error .overflow s

/-- `callbacks_[id] = cb` -/
def setCallback (growth : Growth) (id : ℤ) (cb : κ) : CppM ResponseException (State κ) Unit :=
  fun s => .ok () ({ s with callbacks := s.callbacks.set growth id cb }.record (.issued id cb))

/-- `callbacks_.erase(id)` -/
def eraseCallback (id : ℤ) : CppM ResponseException (State κ) Unit := fun s =>
  if id ∈ s.callbacks then
    .ok () ({ s with callbacks := s.callbacks.erase id }.record (.removed id))
  else .ok () s

/-- `callbacks_.erase(it)`, undefined if `it` is invalid. -/
def eraseAt (it : UnorderedMap.Iterator ℤ) : CppM ResponseException (State κ) Unit := fun s =>
  match s.callbacks.eraseAt it with
  | some callbacks => .ok () ({ s with callbacks := callbacks }.record (.removed it.key))
  | none => .error .undefined s

section Programs

variable (codec : Codec) (growth : Growth) (react : History κ → κ → Reply → List (Action κ))

/-- `BaseClient::sendCall` -/
def sendCall (call : Json) (cb : κ) : CppM ResponseException (State κ) Unit := do
  let id := (← get).id
  match codec.addMember call "id" (.int64 (Int64.ofInt id)) with
  | none => throw .library
  | some call =>
    setCallback growth id cb
    incrementId
    send (sendRequest codec call)

/-- `BaseClient::sendNotify` -/
def sendNotify (notify : Json) : CppM ResponseException (State κ) Unit :=
  send (sendRequest codec notify)

/-- An action of a callback. -/
def perform : Action κ → CppM ResponseException (State κ) Unit
  | .call json cb => sendCall codec growth json cb
  | .notify json => sendNotify codec json

/-- `it->second(value, isError, isTimeout)` -/
def invoke (id : ℤ) (cb : κ) (reply : Reply) : CppM ResponseException (State κ) Unit := do
  log (.invoked id cb reply)
  (react (← get).history cb reply).forM (perform codec growth)

/-- `BaseClient::handleSingleResponse` -/
def handleSingleResponse (response : Json) : CppM ResponseException (State κ) Unit := do
  log (.response response)
  match validateResponse codec response with
  | .error e => throw e
  | .ok () =>
    -- behind these checks the response is an object
    let id := (response.get "id").getInt32.toInt
    match (← get).callbacks.find id with
    | none => return
    | some (it, cb) =>
      match response.findMember "result" with
      | some result => invoke codec growth react id cb ⟨result, false, false⟩
      | none =>
        match response.findMember "error" with
        | some error => invoke codec growth react id cb ⟨error, true, false⟩
        | none => throw .assertion
      eraseAt it

/-- `BaseClient::handleResponse` -/
def handleResponse (json : Bytes) : CppM ResponseException (State κ) Unit :=
  match codec.parse json with
  | .error err => throw (.thrown ⟨err, none⟩)
  | .ok (.object members) => handleSingleResponse codec growth react (.object members)
  | .ok (.array responses) =>
    if responses.length = 0 then throw (.thrown ⟨"batch response is empty", none⟩)
    else responses.forM (handleSingleResponse codec growth react)
  | .ok _ => throw (.thrown ⟨"response should be json object or array", none⟩)

/-- `BaseClient::onMessage`: the entry of an exception with an id is erased. -/
def onMessage : CppM ResponseException (Connection (State κ)) Unit := fun c =>
  match handleMessage codec.parse (handleResponse codec growth react) c with
  | .error (.thrown e) c' =>
    match e.id with
    | some id => Connection.onPeer (eraseCallback id.toInt) c'
    | none => .ok () c'
  | res => res

/-- What the user of a client and its connection do. -/
inductive Op (κ : Type) where
  | sendCall (call : Json) (cb : κ)
  | sendNotify (notify : Json)
  | onMessage (data : Bytes)

/-- An operation; data that arrive are appended to the buffer before the
message callback runs. -/
def Op.run : Op κ → CppM ResponseException (Connection (State κ)) Unit
  | .sendCall call cb => Connection.onPeer (BaseClient.sendCall codec growth call cb)
  | .sendNotify notify => Connection.onPeer (BaseClient.sendNotify codec notify)
  | .onMessage data => do
    Connection.append data
    BaseClient.onMessage codec growth react

/-- An operation that returns. -/
def Step (c : Connection (State κ)) (op : Op κ) (c' : Connection (State κ)) : Prop :=
  op.run codec growth react c = .ok () c'

/-- A new client on a new connection. -/
def start : Connection (State κ) := Connection.init (State.init growth)

end Programs

@[simp] theorem State.record_id (s : State κ) (e) : (s.record e).id = s.id := rfl

@[simp] theorem State.record_callbacks (s : State κ) (e) :
    (s.record e).callbacks = s.callbacks := rfl

@[simp] theorem State.record_findCallback (s : State κ) (e) (k : ℤ) :
    (s.record e).findCallback k = s.findCallback k := rfl

@[simp] theorem State.record_history (s : State κ) (e) :
    (s.record e).history = s.history ++ [e] := rfl

variable {codec : Codec} {growth : Growth} {react : History κ → κ → Reply → List (Action κ)}
  {s s' : State κ} {cb : κ} {r : Json} {n : Int32} {k : ℤ} {c : Connection (State κ)} {text : Bytes}
  {a : Reply} {acts : List (Action κ)}

/-! ### Calls -/

/-- What is left of the state behind a call: its entry, its bytes and its event. -/
def State.issue (s : State κ) (growth : Growth) (cb : κ) (message : Bytes) : State κ :=
  ⟨s.id + 1, s.callbacks.set growth s.id cb, s.sent ++ [message], s.history ++ [.issued s.id cb]⟩

/-- A call whose value takes the id is sent while ids last. -/
theorem sendCall_of_room {call w : Json}
    (hw : codec.addMember call "id" (.int64 (Int64.ofInt s.id)) = some w)
    (h : s.id < 2 ^ 63 - 1) (cb : κ) :
    sendCall codec growth call cb s = .ok () (s.issue growth cb (sendRequest codec w)) := by
  simp only [sendCall, bind, EStateM.bind, get_run, hw, setCallback, incrementId, State.record,
    if_pos h, send]
  rfl

/-- When they do not, its entry has been made. -/
theorem sendCall_of_full {call w : Json}
    (hw : codec.addMember call "id" (.int64 (Int64.ofInt s.id)) = some w)
    (h : ¬ s.id < 2 ^ 63 - 1) (cb : κ) :
    sendCall codec growth call cb s = .error .overflow
      ({ s with callbacks := s.callbacks.set growth s.id cb }.record (.issued s.id cb)) := by
  simp only [sendCall, bind, EStateM.bind, get_run, hw, setCallback, incrementId, State.record,
    if_neg h]

/-- **How `sendCall` ends**: it sends the call under the next id, or the ids are used up,
when the entry has been made already, or the JSON library fails on a value that is no
object. -/
theorem sendCall_cases (codec : Codec) (growth : Growth) (call : Json) (cb : κ) (s : State κ) :
    (∃ message, codec.refuses call = false ∧ s.id < 2 ^ 63 - 1 ∧
      sendCall codec growth call cb s = .ok () (s.issue growth cb message)) ∨
    (¬ s.id < 2 ^ 63 - 1 ∧ sendCall codec growth call cb s = .error .overflow
      ({ s with callbacks := s.callbacks.set growth s.id cb }.record (.issued s.id cb))) ∨
    (codec.refuses call = true ∧ sendCall codec growth call cb s = .error .library s) := by
  cases hw : codec.addMember call "id" (.int64 (Int64.ofInt s.id)) with
  | none =>
    refine .inr (.inr ⟨Codec.addMember_eq_none_iff.1 hw, ?_⟩)
    simp only [sendCall, bind, EStateM.bind, get_run, hw]
    rfl
  | some w =>
    have haccepted : codec.refuses call = false := by
      rw [← Bool.not_eq_true, ← Codec.addMember_eq_none_iff, hw]
      exact nofun
    by_cases h : s.id < 2 ^ 63 - 1
    · exact .inl ⟨_, haccepted, h, sendCall_of_room hw h cb⟩
    · exact .inr (.inl ⟨h, sendCall_of_full hw h cb⟩)

/-- The history goes on from `pre`, and no callback has been invoked since. -/
def Continues (pre : History κ) (s : State κ) : Prop :=
  ∃ rest, s.history = pre ++ rest ∧ CallTable.invokedKeys rest = []

/-- Events that are no invocation leave it so. -/
theorem Continues.record {pre : History κ} {e : CallTable.Event ℤ κ Json Reply}
    (h : Continues pre s) (he : CallTable.invokedKeys [e] = []) : Continues pre (s.record e) := by
  obtain ⟨rest, hs, hrest⟩ := h
  exact ⟨rest ++ [e], by simp [hs], by simp [hrest, he]⟩

/-- **What a callback does invokes no callback**, also where a call of it fails: it sends
calls and notifications, and nothing is read on the way. -/
theorem forM_perform_continues (acts : List (Action κ)) (pre : History κ) :
    Triple (Continues pre) (acts.forM (perform codec growth)) (fun _ => Continues pre)
      fun _ => Continues pre := by
  refine Triple.forM fun act _ s hs => ?_
  cases act with
  | call json cb =>
    rw [perform]
    rcases sendCall_cases codec growth json cb s with ⟨message, -, -, h⟩ | ⟨-, h⟩ | ⟨-, h⟩
      <;> rw [h]
    · exact hs.record (e := .issued s.id cb) rfl
    · exact hs.record (e := .issued s.id cb) rfl
    · exact hs
  | notify json => exact hs

/-- **How `callbacks_.erase(it)` ends**: the entry is gone, or the iterator was not valid
any more and everything may happen. -/
theorem eraseAt_cases (it : UnorderedMap.Iterator ℤ) (s : State κ) :
    eraseAt it s = .ok ()
      ({ s with callbacks := s.callbacks.erase it.key }.record (.removed it.key)) ∨
    eraseAt it s = .error .undefined s := by
  by_cases hvalid : s.callbacks.Valid it
  · exact .inl (by simp only [eraseAt, UnorderedMap.eraseAt_of_valid hvalid])
  · exact .inr (by simp only [eraseAt, UnorderedMap.eraseAt_of_not_valid hvalid])

/-- Erasing through an iterator invokes no callback, defined or not. -/
theorem eraseAt_continues (pre : History κ) (it : UnorderedMap.Iterator ℤ) :
    Triple (Continues pre) (eraseAt it : CppM _ (State κ) Unit) (fun _ => Continues pre)
      fun _ => Continues pre := by
  intro s hs
  rcases eraseAt_cases it s with h | h <;> rw [h]
  · exact hs.record (e := .removed it.key) rfl
  · exact hs

/-! ### Responses -/

/-- What a response hands to the callback: its result, or its error if it has no
result. -/
inductive Carries (r : Json) : Reply → Prop
  | result {v} : r.findMember "result" = some v → Carries r ⟨v, false, false⟩
  | error {e} : r.findMember "result" = none → r.findMember "error" = some e →
      Carries r ⟨e, true, false⟩

/-- A well-formed response carries something. -/
theorem WellFormed.exists_carries (h : WellFormed r) : ∃ a, Carries r a := by
  cases hr : r.findMember "result" with
  | some v => exact ⟨_, .result hr⟩
  | none =>
    rcases h.answer with ⟨v, hv⟩ | ⟨e, he⟩
    · rw [hr] at hv
      cases hv
    · exact ⟨_, .error hr he⟩

/-- The three kinds of responses. -/
theorem response_cases (r : Json) : (∃ n a, Identified r n ∧ WellFormed r ∧ Carries r a) ∨
    (∃ n, Identified r n ∧ ¬ WellFormed r) ∨ ∀ n, ¬ Identified r n := by
  by_cases hid : ∃ n, Identified r n
  · obtain ⟨n, hid⟩ := hid
    by_cases h : WellFormed r
    · obtain ⟨a, ha⟩ := h.exists_carries
      exact .inl ⟨n, a, hid, h, ha⟩
    · exact .inr (.inl ⟨n, hid, h⟩)
  · exact .inr (.inr (not_exists.1 hid))

/-- A response that is refused changes nothing but the history. -/
theorem handleSingleResponse_of_error {e : Abrupt ResponseException}
    (h : validateResponse codec r = .error e) :
    handleSingleResponse codec growth react r s = .error e (s.record (.response r)) := by
  simp only [handleSingleResponse, h]
  rfl

/-- An id is in `callbacks_` if a callback is found under it. -/
theorem mem_callbacks_iff : k ∈ s.callbacks ↔ ∃ cb, s.findCallback k = some cb :=
  UnorderedMap.mem_iff_exists

/-- A response to no call that waits does nothing. -/
theorem handleSingleResponse_of_unknown (hid : Identified r n) (h : WellFormed r)
    (hn : s.findCallback n.toInt = none) :
    handleSingleResponse codec growth react r s = .ok () (s.record (.response r)) := by
  have hget : (r.get "id").getInt32 = n := by rw [Json.get_of_findMember hid.id, Json.getInt32]
  have hfind : s.callbacks.find n.toInt = none := UnorderedMap.find_eq_none_iff.2 hn
  simp only [handleSingleResponse, validateResponse_of_wellFormed hid h, hget, bind, EStateM.bind,
    log, get_run, State.record_callbacks, hfind]
  rfl

/-- **A response to a call that waits**: its callback is invoked and its entry
erased, through the iterator that was found before. -/
theorem handleSingleResponse_of_known (hid : Identified r n) (h : WellFormed r)
    (ha : Carries r a) (hn : s.findCallback n.toInt = some cb) :
    handleSingleResponse codec growth react r s =
      (invoke codec growth react n.toInt cb a >>=
        fun _ => eraseAt ⟨n.toInt, s.callbacks.rehashes⟩) (s.record (.response r)) := by
  have hget : (r.get "id").getInt32 = n := by rw [Json.get_of_findMember hid.id, Json.getInt32]
  have hfind : s.callbacks.find n.toInt = some (⟨n.toInt, s.callbacks.rehashes⟩, cb) :=
    UnorderedMap.find_eq_some_iff.2 ⟨hn, rfl⟩
  simp only [handleSingleResponse, validateResponse_of_wellFormed hid h, hget, bind, EStateM.bind,
    log, get_run, State.record_callbacks, hfind]
  cases ha with
  | result hv =>
    simp only [hv]
    rfl
  | error hr he =>
    simp only [hr, he]
    rfl

/-- **The callback of a call that waits is invoked**, with what the response
carries, before anything else happens and once, also where a call that it issues
fails or outgrows the table. -/
theorem handleSingleResponse_invokes (hid : Identified r n) (h : WellFormed r)
    (ha : Carries r a) (hn : s.findCallback n.toInt = some cb) :
    Ends (fun _ => Continues (s.history ++ [.response r, .invoked n.toInt cb a]))
      (fun _ => Continues (s.history ++ [.response r, .invoked n.toInt cb a]))
      (handleSingleResponse codec growth react r s) := by
  rw [handleSingleResponse_of_known hid h ha hn]
  refine Ends.bind ?_ fun _ => eraseAt_continues _ _
  refine forM_perform_continues _ _ ((s.record (.response r)).record (.invoked n.toInt cb a)) ?_
  exact ⟨[], by simp, rfl⟩

/-! ### Frames -/

/-- A response that is no batch. -/
theorem handleResponse_of_object (hparse : codec.parse text = .ok r) (hr : r.isObject = true)
    (s : State κ) : handleResponse codec growth react text s =
      handleSingleResponse codec growth react r s := by
  rw [handleResponse, hparse]
  cases r <;> first | rfl | cases hr

variable (growth react) in
/-- A frame arrives at an empty buffer. -/
theorem handleMessage_arrived (hp : ReadsDecimals codec.parse)
    (ht : text.length + 2 < kMaxMessageLen)
    (hc : c.buffer.readable = []) :
    ∃ b₀ b, Connection.append (ε := ResponseException) (frame text) c =
        .ok () { c with buffer := b₀ } ∧
      handleMessage codec.parse (handleResponse codec growth react) { c with buffer := b₀ } =
        Connection.outcome
          (Connection.serve (handleResponse codec growth react) (.frame (text ++ kCRLF)) c.peer).2
          ⟨b, c.calls ++ [text ++ kCRLF],
            (Connection.serve (handleResponse codec growth react) (.frame (text ++ kCRLF))
              c.peer).1⟩ := by
  obtain ⟨b₀, hb₀, hr⟩ := Connection.append_eq (ε := ResponseException) c (frame text)
  rw [hc, List.nil_append] at hr
  obtain ⟨b, -, hb⟩ := handleMessage_frame hp ht (c := { c with buffer := b₀ }) hr
  exact ⟨b₀, b, hb₀, hb⟩

/-- A frame is handled. -/
theorem step_of_ok (hp : ReadsDecimals codec.parse) (ht : text.length + 2 < kMaxMessageLen)
    (hc : c.buffer.readable = [])
    (h : handleResponse codec growth react (text ++ kCRLF) c.peer = .ok () s) :
    ∃ c', Step codec growth react c (.onMessage (frame text)) c' ∧ c'.peer = s := by
  obtain ⟨b₀, b, hb₀, hb⟩ := handleMessage_arrived growth react hp ht hc
  refine ⟨⟨b, c.calls ++ [text ++ kCRLF], s⟩, ?_, rfl⟩
  simp only [Connection.serve, h, Connection.outcome] at hb
  simp only [Step, Op.run, bind, EStateM.bind, hb₀, onMessage, hb]

/-- A frame is refused with the id of an entry, which is erased. -/
theorem step_of_thrown {msg : String} {n : Int32} (hp : ReadsDecimals codec.parse)
    (ht : text.length + 2 < kMaxMessageLen) (hc : c.buffer.readable = [])
    (h : handleResponse codec growth react (text ++ kCRLF) c.peer =
      .error (.thrown ⟨msg, some n⟩) s)
    (hn : n.toInt ∈ s.callbacks) :
    ∃ c', Step codec growth react c (.onMessage (frame text)) c' ∧
      c'.peer = { s with callbacks := s.callbacks.erase n.toInt }.record (.removed n.toInt) := by
  obtain ⟨b₀, b, hb₀, hb⟩ := handleMessage_arrived growth react hp ht hc
  refine ⟨⟨b, c.calls ++ [text ++ kCRLF], _⟩, ?_, rfl⟩
  simp only [Connection.serve, h, Connection.outcome] at hb
  simp only [Step, Op.run, bind, EStateM.bind, hb₀, onMessage, hb, Connection.onPeer, eraseCallback,
    if_pos hn]
  rfl

/-- A frame on which the handler fails otherwise ends the operation with it. -/
theorem run_of_abrupt {e : Abrupt ResponseException} (hp : ReadsDecimals codec.parse)
    (ht : text.length + 2 < kMaxMessageLen) (hc : c.buffer.readable = [])
    (h : handleResponse codec growth react (text ++ kCRLF) c.peer = .error e s)
    (he : ∀ x, e ≠ .thrown x) :
    ∃ c', (Op.onMessage (frame text)).run codec growth react c = .error e c' ∧ c'.peer = s := by
  obtain ⟨b₀, b, hb₀, hb⟩ := handleMessage_arrived growth react hp ht hc
  refine ⟨⟨b, c.calls ++ [text ++ kCRLF], s⟩, ?_, rfl⟩
  simp only [Connection.serve, h, Connection.outcome] at hb
  simp only [Op.run, bind, EStateM.bind, hb₀, onMessage, hb]
  cases e with
  | thrown x => exact absurd rfl (he x)
  | assertion | library | overflow | undefined | outOfFuel => rfl

end BaseClient
end BearRpc
