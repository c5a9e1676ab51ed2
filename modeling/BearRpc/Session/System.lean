/-
# A client and a server on one connection

The bytes a client sends travel to the server and are handed over in chunks of any
size; the requests among them are answered by their procedures, each once,
whenever it likes and in any order; the responses travel back in chunks of any
size.  Meanwhile the user issues calls and notifications, and callbacks issue more
of them (`Step`).  `conn->send` and the way through TCP are the two queues of
bytes; nothing else is assumed of the network.

Both receive loops read what has arrived of a stream of frames
(`Simulates.arrived`), so the state of a session is described by lists of calls
(`Inv`): what the client has sent is handled or under way, and the calls handled
wait for their procedure, or their response is under way, or they have been told.
That every step keeps this is shown in `BearRpc.Session.Correct`, for runs in which
the server accepts what is sent and the ids stay below `2 ^ 31`.  Whatever is sent,
the client keeps a table of pending calls (`Step.sound`) and ids only grow
(`Step.grows`).
-/

import BearRpc.Session.Calls
import BearRpc.Server.OnMessage

namespace BearRpc
namespace Session

open Theory CallTable BaseClient RpcServer

/-- A client and a server, and what is under way between them. -/
structure System (κ N : Type) where
  client : Connection (State κ)
  server : Connection (FrameLog N)
  /-- bytes on their way to the server -/
  toServer : Bytes
  /-- responses that procedures have not yet given to `done` -/
  answers : List Json
  /-- bytes on their way to the client -/
  toClient : Bytes

/-- What can happen next. -/
inductive Move (κ : Type) where
  | act (action : Action κ)
  | toServer (chunk : Bytes)
  | answer (response : Json)
  | toClient (chunk : Bytes)

variable {κ P N : Type}

/-- A new session. -/
def System.init (growth : Growth) : System κ N := ⟨start growth, Connection.init [], [], [], []⟩

/-- What a client has sent between two states. -/
def written (c c' : Connection (State κ)) : Bytes := (c'.peer.sent.drop c.peer.sent.length).flatten

/-- The responses to the frames a server has handled between two states. -/
def raised (c c' : Connection (FrameLog N)) : List Json :=
  (c'.peer.drop c.peer.length).flatMap fun f => f.2.sent

section Steps

variable (codec : Codec) (growth : Growth) (services : ServiceList P N)
  (result : P → Json → Json) (react : History κ → κ → Reply → List (Action κ))

/-- A step of a session. -/
inductive Step : System κ N → Move κ → System κ N → Prop
  /-- the user calls `sendCall` or `sendNotify` -/
  | act {s action c} : Connection.onPeer (perform codec growth action) s.client = .ok () c →
      Step s (.act action) { s with client := c, toServer := s.toServer ++ written s.client c }
  /-- a chunk arrives at the server -/
  | toServer {s chunk rest c} : s.toServer = chunk ++ rest →
      Connection.deliver (RpcServer.onMessage services result codec.parse) [chunk] s.server =
        .ok () c →
      Step s (.toServer chunk)
        { s with server := c, toServer := rest, answers := s.answers ++ raised s.server c }
  /-- a procedure calls `done` -/
  | answer {s pre response post} : s.answers = pre ++ response :: post →
      Step s (.answer response) { s with
        answers := pre ++ post
        toClient := s.toClient ++ BaseServer.sendResponse codec response }
  /-- a chunk arrives at the client -/
  | toClient {s chunk rest c} : s.toClient = chunk ++ rest →
      BaseClient.Step codec growth react s.client (.onMessage chunk) c →
      Step s (.toClient chunk)
        { s with client := c, toClient := rest, toServer := s.toServer ++ written s.client c }

/-- The frame of what is sent, as the server reads it. -/
def Sent.item (m : Sent P N) : Item := .frame (codec.write m.value ++ kCRLF)

/-- The frame of the response to a call, as the client reads it. -/
def Call.item (c : Call P) : Item := .frame (codec.write (c.response result) ++ kCRLF)

/-- What the server records of what is sent. -/
def Sent.entry (m : Sent P N) : Bytes × Frame N :=
  (codec.write m.value ++ kCRLF,
    match m with
    | .call c => ⟨[], [c.response result]⟩
    | .notify _ n => ⟨[n], []⟩)

/-- The server has handled `before`, `after` is on its way to it; of the calls
handled, `waiting` wait for their procedure, the responses to `coming` are on their
way to the client, and `heard` have been told. -/
structure Inv (before after : List (Sent P N)) (waiting heard coming : List (Call P))
    (s : System κ N) : Prop where
  told : Told codec growth services result .idle (before ++ after) heard s.client.peer
  log : s.server.peer = before.map (Sent.entry codec result)
  handed : s.server.calls = before.map fun m => codec.write m.value ++ kCRLF
  requests : (BaseServer.rules codec.parse).grammar.Parses
    (s.server.buffer.readable ++ s.toServer) (after.map (Sent.item codec)) []
  server_waits : (BaseServer.rules codec.parse).front s.server.buffer.readable = .more
  answers : s.answers = waiting.map (Call.response result)
  balance : (waiting ++ (heard ++ coming)).Perm (calls before)
  responses : (BaseClient.rules codec.parse).grammar.Parses
    (s.client.buffer.readable ++ s.toClient) (coming.map (Call.item codec result)) []
  client_waits : (BaseClient.rules codec.parse).front s.client.buffer.readable = .more

end Steps

variable {codec : Codec} {growth : Growth} {services : ServiceList P N}
  {result : P → Json → Json} {react : History κ → κ → Reply → List (Action κ)} {limit a : ℤ}
  {before after : List (Sent P N)} {waiting heard coming : List (Call P)}
  {s s' : System κ N} {m : Sent P N} {c : Call P} {move : Move κ}

theorem inv_init : Inv codec growth services result ([] : List (Sent P N)) [] [] [] []
    (System.init growth : System κ N) where
  told :=
    { tracks := tracks_init
      sent_eq := rfl
      served := by simp
      issued := rfl
      ids := by simp [calls]
      responses_eq := rfl
      invoked := rfl
      known := by simp }
  log := rfl
  handed := rfl
  requests := by
    have hnil : (System.init growth : System κ N).server.buffer.readable = [] :=
      Connection.readable_init ([] : FrameLog N)
    rw [hnil]
    exact .nil _
  server_waits := by
    have hnil : (System.init growth : System κ N).server.buffer.readable = [] :=
      Connection.readable_init ([] : FrameLog N)
    rw [hnil]
    exact FrameRules.front_nil _
  answers := rfl
  balance := .nil
  responses := by
    have hnil : (System.init growth : System κ N).client.buffer.readable = [] :=
      Connection.readable_init (State.init growth : State κ)
    rw [hnil]
    exact .nil _
  client_waits := by
    have hnil : (System.init growth : System κ N).client.buffer.readable = [] :=
      Connection.readable_init (State.init growth : State κ)
    rw [hnil]
    exact FrameRules.front_nil _

/-! ### What the server does with a frame -/

theorem Sent.Served.short (h : m.Served codec services result) :
    (codec.write m.value).length + 2 < BaseServer.kMaxMessageLen := by
  cases m with
  | call c => exact h.request.short
  | notify json n => exact h.request.short

/-- The response of a procedure is not null, so it is sent. -/
theorem sent_response (c : Call P) :
    (⟨[], [c.response result]⟩ : Frame N).sent = [c.response result] := rfl

/-- **A frame the server accepts is recorded with its procedure**: the entry says what was
invoked and what has to be answered, and nothing is thrown. -/
theorem serve_entry (h : m.Served codec services result) (log : FrameLog N) :
    Connection.serve (handleFrame services result codec.parse) (m.item codec) log =
      (log ++ [m.entry codec result], none) := by
  have hhandle : handleRequest services result codec.parse (codec.write m.value ++ kCRLF) ⟨[], []⟩ =
      .ok () (m.entry codec result).2 := by
    cases m with
    | call c =>
      have hparse : codec.parse (codec.write c.value ++ kCRLF) = .ok c.value.reread :=
        h.request.faithful
      obtain ⟨ms, hms⟩ := exists_object h.accepted.isObject
      have hn : isNotify c.value.reread = false :=
        Bool.eq_false_iff.2 fun hn => h.accepted.not_isNotification ⟨h.accepted.isObject, hn⟩
      simp only [handleRequest, Sent.value, hparse, hms]
      rw [← hms, if_neg (by rw [hn]; exact Bool.false_ne_true),
        handleSingleRequest_of_accepted h.accepted]
      rfl
    | notify json n =>
      have hparse : codec.parse (codec.write json ++ kCRLF) = .ok json.reread := h.request.faithful
      obtain ⟨ms, hms⟩ := exists_object h.notification.1
      simp only [handleRequest, Sent.value, hparse, hms]
      rw [← hms, if_pos h.notification.2, handleSingleNotify_of_accepted h.accepted]
      rfl
  simp only [Sent.item, Connection.serve, handleFrame, hhandle]
  rfl

/-- The stream of what is sent. -/
theorem parses_sent (hp : ReadsDecimals codec.parse) {sent : List (Sent P N)}
    (hs : ∀ m ∈ sent, m.Served codec services result) :
    (BaseServer.rules codec.parse).grammar.Parses
      (sent.map fun m => sendRequest codec m.value).flatten (sent.map (Sent.item codec)) [] := by
  have hshort : ∀ t ∈ sent.map fun m => codec.write m.value,
      t.length + 2 < BaseServer.kMaxMessageLen := by
    intro t ht
    obtain ⟨m, hm, rfl⟩ := List.mem_map.1 ht
    exact (hs m hm).short
  have hall := (BaseServer.rules codec.parse).parses_frames hp
    (show BaseServer.kMaxMessageLen ≤ 2 ^ 31 by decide) hshort []
  rw [List.append_nil, List.map_map, List.map_map] at hall
  exact hall

/-- The stream of one response. -/
theorem parses_response (hp : ReadsDecimals codec.parse) (h : c.Served codec services result) :
    (BaseClient.rules codec.parse).grammar.Parses
      (BaseServer.sendResponse codec (c.response result)) [c.item codec result] [] :=
  (BaseClient.rules codec.parse).parses_frame hp
    (show BaseClient.kMaxMessageLen ≤ 2 ^ 31 by decide) h.response.short

/-! ### What each step keeps -/

/-- What the client has sent since. -/
theorem written_eq {c c' : Connection (State κ)} {sent more : List (Sent P N)}
    (h : c.peer.sent = sent.map fun m => sendRequest codec m.value)
    (h' : c'.peer.sent = (sent ++ more).map fun m => sendRequest codec m.value) :
    written c c' = (more.map fun m => sendRequest codec m.value).flatten := by
  rw [written, h, h', List.map_append, List.drop_left]

/-- **The client has acted**, and what it sent is on its way. -/
theorem Inv.client (h : Inv codec growth services result before after waiting heard coming s)
    (hp : ReadsDecimals codec.parse) {now rest : List (Call P)} {more : List (Sent P N)}
    {d : Connection (State κ)} {q : Bytes}
    (hcoming : coming = now ++ rest)
    (htold : Told codec growth services result .idle
      (before ++ after ++ more) (heard ++ now) d.peer)
    (hpar : (BaseClient.rules codec.parse).grammar.Parses (d.buffer.readable ++ q)
      (rest.map (Call.item codec result)) [])
    (hwait : (BaseClient.rules codec.parse).front d.buffer.readable = .more) :
    Inv codec growth services result before (after ++ more) waiting (heard ++ now) rest
      { s with client := d, toClient := q, toServer := s.toServer ++ written s.client d } where
  told := by rwa [List.append_assoc] at htold
  log := h.log
  handed := h.handed
  requests := by
    have hmore : ∀ m ∈ more, m.Served codec services result := fun m hm =>
      htold.served m (List.mem_append_right _ hm)
    rw [written_eq h.told.sent_eq htold.sent_eq, ← List.append_assoc, List.map_append]
    exact (h.requests.append _).trans (parses_sent hp hmore)
  server_waits := h.server_waits
  answers := h.answers
  balance := by
    have hb := h.balance
    rwa [hcoming, ← List.append_assoc heard] at hb
  responses := hpar
  client_waits := hwait

/-- Ids only grow. -/
theorem handleResponse_grows (json : Bytes) :
    Triple (fun x => a < x.id) (handleResponse codec growth react json) (fun _ x => a < x.id)
      fun _ x => a < x.id := by
  intro x h
  unfold handleResponse
  cases codec.parse json with
  | error err => exact h
  | ok response =>
    cases response with
    | object members => exact handleSingleResponse_grows _ x h
    | array responses =>
      dsimp only
      split_ifs
      · exact h
      · exact Triple.forM (fun r _ => handleSingleResponse_grows r) x h
    | _ => exact h

theorem onMessage_grows : Triple (fun c => a < c.peer.id)
    (BaseClient.onMessage codec growth react : CppM _ (Connection (State κ)) Unit)
    (fun _ c => a < c.peer.id) fun _ c => a < c.peer.id := by
  intro c hc
  have hsim : ∀ c : Connection (State κ), Connection.Simulates
      (receiver codec.parse (handleResponse codec growth react)) c
      (handleMessage codec.parse (handleResponse codec growth react) c) := handleMessage_simulates
  have hmessage := Connection.triple_of_simulates (E := fun _ (x : State κ) => a < x.id) hsim rfl
    handleResponse_grows (fun _ _ _ _ hx _ => hx) c hc
  unfold BaseClient.onMessage
  cases hres : handleMessage codec.parse (handleResponse codec growth react) c with
  | ok u c' =>
    rw [hres] at hmessage
    exact hmessage
  | error e c' =>
    rw [hres] at hmessage
    cases e with
    | thrown e =>
      obtain ⟨msg, _ | n⟩ := e
      · exact hmessage
      · obtain ⟨y, hy, hid, -⟩ := eraseCallback_id (x := c'.peer) n.toInt
        show Ends _ _ (Connection.onPeer (eraseCallback n.toInt) c')
        simp only [Connection.onPeer, hy]
        show a < y.id
        rw [hid]
        exact hmessage
    | assertion | library | overflow | undefined | outOfFuel => exact hmessage

/-- **No step takes an id back**: the counter of the client is where it was, or further on.
-/
theorem Step.grows (h : Step codec growth services result react s move s')
    (hs : a < s.client.peer.id) : a < s'.client.peer.id := by
  cases h with
  | @act action d hd =>
    have hperform : Triple (fun x : State κ => a < x.id) (perform codec growth action)
        (fun _ x => a < x.id) fun _ x => a < x.id := perform_grows action
    exact (Connection.onPeer_triple hperform).of_ok hs hd
  | toServer => exact hs
  | answer => exact hs
  | @toClient chunk rest d _ hd =>
    have hop : Triple (fun c : Connection (State κ) => a < c.peer.id)
        (Op.run codec growth react (.onMessage chunk)) (fun _ c => a < c.peer.id)
        fun _ c => a < c.peer.id :=
      (Connection.append_triple (P := fun x : State κ => a < x.id) chunk).bind
        fun _ => onMessage_grows
    exact hop.of_ok hs hd

/-- **The client keeps a table of pending calls** through every step, also the ones of the
server and of the network, which leave it alone. -/
theorem Step.sound (h : Step codec growth services result react s move s')
    (hs : Sound codec growth react s.client.peer) : Sound codec growth react s'.client.peer := by
  cases h with
  | @act action d hd =>
    have hop : ∃ op : Op κ, op.run codec growth react s.client = .ok () d := by
      cases action with
      | call json cb => exact ⟨.sendCall json cb, hd⟩
      | notify json => exact ⟨.sendNotify json, hd⟩
    obtain ⟨op, hop⟩ := hop
    exact (Op.run_triple codec growth react op).of_ok hs hop
  | toServer => exact hs
  | answer => exact hs
  | @toClient chunk rest d _ hd =>
    exact (Op.run_triple codec growth react (.onMessage chunk)).of_ok hs hd

end Session
end BearRpc
