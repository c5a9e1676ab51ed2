/-
# What a session guarantees

In every run of a session in which the server accepts what the client sends, all
texts fit the limits of their readers, and the ids stay below `2 ^ 31`: no chunk
makes the server fail, and none the client as long as its table has room for the calls
of its callbacks; requests are handled once and in order, a callback is told the
result of its own call and at most once, and no call is lost.  When nothing is under
way any more, every call has been told (`correct_of_run`).
-/

import BearRpc.Session.System

namespace BearRpc
namespace Session

open Theory CallTable BaseClient RpcServer

variable {κ P N : Type}

/-- What holds in every state of a session. -/
structure Correct (codec : Codec) (growth : Growth) (services : ServiceList P N)
    (result : P → Json → Json) (react : History κ → κ → Reply → List (Action κ)) (limit : ℤ)
    (s : System κ N) : Prop where
  /-- whatever arrives at the server, it is served -/
  serves : ∀ chunk rest, s.toServer = chunk ++ rest → ∃ c,
    Connection.deliver (RpcServer.onMessage services result codec.parse) [chunk] s.server = .ok () c
  /-- whatever arrives at the client, it is heard, unless callbacks issue calls beyond
  the limit or without room in the table -/
  hears : ∀ chunk rest, s.toClient = chunk ++ rest → ∃ o c,
    (Op.onMessage chunk).run codec growth react s.client = Connection.outcome o c ∧
      (c.peer.id ≤ limit → Roomy codec growth react c.peer.history → o = none)
  /-- the texts the client has sent are handed over once, in order -/
  handed : ∃ texts rest : List Bytes, s.client.peer.sent = (texts ++ rest).map frame ∧
    s.server.calls = texts.map (· ++ kCRLF)
  /-- a notification handed over has invoked its procedure, once -/
  notified : ∀ (j : ℕ) body f v, s.server.peer[j]? = some (body, f) → codec.parse body = .ok v →
    isNotify v = true → ∃ n, AcceptedNotify services v n ∧ f = ⟨[n], []⟩
  /-- a callback is told the result of the procedure its call names -/
  told : ∀ k cb a, .invoked k cb a ∈ s.client.peer.history →
    .issued k cb ∈ s.client.peer.history ∧ ∃ json p,
      sendRequest codec (numbered k json) ∈ s.client.peer.sent ∧
        AcceptedRequest services (numbered k json).reread p ∧
          a = ⟨(result p (numbered k json).reread).reread, false, false⟩
  /-- and at most once -/
  once : (invokedKeys s.client.peer.history).Nodup
  /-- a call waits, or it has been told -/
  kept : ∀ k ∈ issuedKeys s.client.peer.history,
    (k ∈ s.client.peer.callbacks ↔ k ∉ invokedKeys s.client.peer.history)
  /-- and it has been told once nothing is under way -/
  settled : s.toServer = [] → s.answers = [] → s.toClient = [] →
    ∀ k ∈ issuedKeys s.client.peer.history, k ∈ invokedKeys s.client.peer.history

variable {codec : Codec} {growth : Growth} {services : ServiceList P N}
  {result : P → Json → Json} {react : History κ → κ → Reply → List (Action κ)} {limit a : ℤ}
  {before after : List (Sent P N)} {waiting heard coming : List (Call P)}
  {s s' : System κ N} {m : Sent P N} {c : Call P} {move : Move κ} {moves : List (Move κ)}

/-! ### The server -/

/-- What the frames among `is` that have been handled left in the log. -/
def Logged (codec : Codec) (result : P → Json → Json) (before after : List (Sent P N))
    (is : List Item) (log : FrameLog N) : Prop :=
  ∃ now rest, after = now ++ rest ∧ is = now.map (Sent.item codec) ∧
    log = (before ++ now).map (Sent.entry codec result)

/-- One more frame is handled. -/
theorem Logged.next {is ks : List Item} {i : Item} {log log' : FrameLog N}
    {o : Option (Abrupt RpcException)} (hserved : ∀ m ∈ after, m.Served codec services result)
    (h : Logged codec result before after is log)
    (his : after.map (Sent.item codec) = is ++ i :: ks)
    (hi : Connection.serve (handleFrame services result codec.parse) i log = (log', o)) :
    o = none ∧ Logged codec result before after (is ++ [i]) log' := by
  obtain ⟨now, rest, rfl, rfl, rfl⟩ := h
  cases rest with
  | nil =>
    rw [List.append_nil] at his
    exact absurd his (by simp)
  | cons m rest =>
    rw [List.map_append, List.append_cancel_left_eq, List.map_cons, List.cons.injEq] at his
    obtain ⟨rfl, -⟩ := his
    rw [serve_entry (hserved m (by simp))] at hi
    cases hi
    exact ⟨rfl, now ++ [m], rest, by simp, by simp, by simp⟩

/-- Of what the server records, the responses to calls are sent. -/
theorem flatMap_entry (sent : List (Sent P N)) :
    (sent.map (Sent.entry codec result)).flatMap (fun f => f.2.sent) =
      (calls sent).map (Call.response result) := by
  induction sent with
  | nil => rfl
  | cons m sent ih =>
    rw [List.map_cons, List.flatMap_cons, ih]
    cases m with
    | call c => exact congrArg (· ++ _) (sent_response c)
    | notify json n => rfl

theorem bodies_items (sent : List (Sent P N)) :
    bodies (sent.map (Sent.item codec)) = sent.map fun m => codec.write m.value ++ kCRLF := by
  induction sent with
  | nil => rfl
  | cons m sent ih => exact congrArg (_ :: ·) ih

/-- **A chunk arrives at the server**: the frames it completes are handled. -/
theorem Inv.receive (h : Inv codec growth services result before after waiting heard coming s)
    {chunk rest : Bytes} (hq : s.toServer = chunk ++ rest) : ∃ now later d, after = now ++ later ∧
    Connection.deliver (RpcServer.onMessage services result codec.parse) [chunk] s.server =
      .ok () d ∧
    Inv codec growth services result (before ++ now) later (waiting ++ calls now) heard coming
      { s with server := d, toServer := rest, answers := s.answers ++ raised s.server d } := by
  have hserved : ∀ m ∈ after, m.Served codec services result := fun m hm =>
    h.told.served m (List.mem_append_right _ hm)
  obtain ⟨b, hb, hr⟩ := Connection.append_eq (ε := RpcException) s.server chunk
  have hpar := h.requests
  rw [hq, ← List.append_assoc, ← hr] at hpar
  have hnil : (BaseServer.rules codec.parse).front [] = .more := FrameRules.front_nil _
  rcases (onMessage_simulates services result codec.parse { s.server with buffer := b }).arrived
    (J := Logged codec result before after) (E := fun _ _ => False) hnil hpar
    (by
      intro i hi
      obtain ⟨m, -, rfl⟩ := List.mem_map.1 hi
      exact fun hblank => Item.noConfusion hblank)
    ⟨[], after, rfl, rfl, by rw [List.append_nil]; exact h.log⟩
    (fun js i ks x y o hjs hx hi => by
      obtain ⟨rfl, hy⟩ := hx.next hserved hjs hi
      exact ⟨fun _ => hy, nofun⟩) with
    ⟨_, _, _, hfalse⟩ | ⟨js, ks, d, hjs, hd, ⟨now, later, rfl, rfl, hlog⟩, hcalls, hpar', hwait⟩
  · exact hfalse.elim
  obtain rfl : ks = later.map (Sent.item codec) := by
    rw [List.map_append, List.append_cancel_left_eq] at hjs
    exact hjs.symm
  refine ⟨now, later, d, rfl, ?_, ?_⟩
  · simp only [Connection.deliver, bind, EStateM.bind, hb, hd]
    rfl
  have hraised : raised s.server d = (calls now).map (Call.response result) := by
    rw [raised, h.log, hlog, List.map_append, List.drop_left, flatMap_entry]
  exact
    { told := by
        have htold := h.told
        rwa [← List.append_assoc] at htold
      log := hlog
      handed := by rw [hcalls, bodies_items, List.map_append, ← h.handed]
      requests := hpar'
      server_waits := hwait
      answers := by rw [h.answers, hraised, List.map_append]
      balance := by
        rw [calls_append, List.append_assoc]
        refine .trans ?_ (h.balance.append_right _)
        rw [List.append_assoc waiting]
        exact List.perm_append_comm.append_left waiting
      responses := h.responses
      client_waits := h.client_waits }

/-- **A procedure answers**, whichever of those that have been invoked is next: its response
goes to the client in a frame, behind those on their way. -/
theorem Inv.respond (h : Inv codec growth services result before after waiting heard coming s)
    (hp : ReadsDecimals codec.parse) {pre post : List Json} {response : Json}
    (ha : s.answers = pre ++ response :: post) : ∃ waiting' coming',
    Inv codec growth services result before after waiting' heard coming'
      { s with
        answers := pre ++ post
        toClient := s.toClient ++ BaseServer.sendResponse codec response } := by
  have hw := h.answers
  rw [ha] at hw
  obtain ⟨wp, ws, rfl, rfl, hws⟩ := List.map_eq_append_iff.1 hw.symm
  obtain ⟨c, wq, rfl, rfl, rfl⟩ := List.map_eq_cons_iff.1 hws
  have hc : c ∈ calls (before ++ after) := by
    rw [calls_append]
    exact List.mem_append_left _ (h.balance.subset (by simp))
  exact ⟨wp ++ wq, coming ++ [c],
    { told := h.told
      log := h.log
      handed := h.handed
      requests := h.requests
      server_waits := h.server_waits
      answers := by rw [List.map_append]
      balance := by
        have hlast : wp ++ wq ++ (heard ++ (coming ++ [c])) =
            wp ++ wq ++ (heard ++ coming) ++ [c] := by
          simp only [List.append_assoc]
        rw [hlast]
        refine (List.perm_append_singleton c _).trans (.trans ?_ h.balance)
        exact (List.perm_middle.append_right _).symm
      responses := by
        rw [← List.append_assoc, List.map_append]
        exact (h.responses.append _).trans (parses_response hp (h.told.served_of_mem hc))
      client_waits := h.client_waits }⟩

/-! ### The client -/

/-- The responses among `is` have been heard, if the ids stay within the limit. -/
def Heard (codec : Codec) (growth : Growth) (services : ServiceList P N)
    (result : P → Json → Json) (limit : ℤ) (base : List (Sent P N))
    (heard coming : List (Call P)) (is : List Item) (x : State κ) : Prop :=
  ∃ now rest, coming = now ++ rest ∧ is = now.map (Call.item codec result) ∧
    ToldFrom codec growth services result limit .idle base (heard ++ now) x

/-- The response to a call that is served is an object. -/
theorem Call.Served.isObject (h : c.Served codec services result) (h₀ : 0 ≤ c.id)
    (hk : c.id < 2 ^ 31) : (c.response result).reread.isObject = true := by
  rw [Call.response, reread_call (h.id_eq h₀ hk)]
  rfl

/-- One more response is heard. -/
theorem Heard.next {base : List (Sent P N)} {is ks : List Item} {i : Item} {x y : State κ}
    {o : Option (Abrupt ResponseException)} (hlim : limit ≤ 2 ^ 31)
    (hreact : ∀ h cb a, ∀ action ∈ react h cb a, Admissible codec services result limit action)
    (hserved : ∀ c ∈ coming, c ∈ calls base ∧ c.Served codec services result ∧ 0 ≤ c.id ∧
      c.id < 2 ^ 31)
    (hnd : (heard ++ coming).Nodup)
    (h : Heard codec growth services result limit base heard coming is x)
    (his : coming.map (Call.item codec result) = is ++ i :: ks)
    (hi : Connection.serve (handleResponse codec growth react) i x = (y, o)) :
    (o = none → Heard codec growth services result limit base heard coming (is ++ [i]) y) ∧
      ∀ e, o = some e → limit < y.id ∨ e = .undefined := by
  obtain ⟨now, rest, rfl, rfl, htold⟩ := h
  cases rest with
  | nil =>
    rw [List.append_nil] at his
    exact absurd his (by simp)
  | cons c rest =>
    rw [List.map_append, List.append_cancel_left_eq, List.map_cons, List.cons.injEq] at his
    obtain ⟨rfl, -⟩ := his
    obtain ⟨hc, hs, h₀, hk⟩ := hserved c (by simp)
    have hnew : c ∉ heard ++ now := by
      rw [← List.append_assoc, List.nodup_append] at hnd
      exact fun hmem => hnd.2.2 c hmem c (List.mem_cons_self ..) rfl
    have hhandle : handleResponse codec growth react (codec.write (c.response result) ++ kCRLF) x =
        handleSingleResponse codec growth react (c.response result).reread x :=
      handleResponse_of_object hs.response.faithful (hs.isObject h₀ hk) x
    have hends := handleSingleResponse_told hlim hreact hc hnew x htold
    simp only [Call.item, Connection.serve, hhandle] at hi
    cases hres : handleSingleResponse codec growth react (c.response result).reread x with
    | ok _ z =>
      rw [hres] at hi hends
      cases hi
      rw [List.append_assoc] at hends
      exact ⟨fun _ => ⟨now ++ [c], rest, by simp, by simp, hends⟩, fun _ h => (by cases h)⟩
    | error e z =>
      rw [hres] at hi hends
      cases hi
      refine ⟨fun h => (by cases h), fun _ h => ?_⟩
      cases h
      exact hends

/-- The calls of a session are told apart. -/
theorem Inv.nodup (h : Inv codec growth services result before after waiting heard coming s) :
    (heard ++ coming).Nodup := by
  have hnd := h.told.tracks.inv.issued_nodup
  rw [h.told.issued, calls_append, List.map_append, List.nodup_append] at hnd
  have hall : (waiting ++ (heard ++ coming)).Nodup :=
    h.balance.nodup_iff.2 (List.Nodup.of_map _ hnd.1)
  exact (List.nodup_append.1 hall).2.1

theorem Inv.known (h : Inv codec growth services result before after waiting heard coming s)
    (hc : c ∈ waiting ++ (heard ++ coming)) : c ∈ calls (before ++ after) := by
  rw [calls_append]
  exact List.mem_append_left _ (h.balance.subset hc)

/-- **A chunk arrives at the client**: the responses it completes are heard, unless the
ids leave the limit or an entry is erased through an invalid iterator. -/
theorem Inv.hear (h : Inv codec growth services result before after waiting heard coming s)
    (hp : ReadsDecimals codec.parse) (hlim : limit ≤ 2 ^ 31)
    (hreact : ∀ h cb a, ∀ action ∈ react h cb a, Admissible codec services result limit action)
    {chunk rest : Bytes} (hq : s.toClient = chunk ++ rest) : ∃ o d,
    (Op.onMessage chunk).run codec growth react s.client = Connection.outcome o d ∧
      (limit < d.peer.id ∨ o = some .undefined ∨ o = none ∧ ∃ more heard' coming',
        Inv codec growth services result before (after ++ more) waiting heard' coming'
          { s with
            client := d
            toClient := rest
            toServer := s.toServer ++ written s.client d }) := by
  have hserved : ∀ c ∈ coming, c ∈ calls (before ++ after) ∧ c.Served codec services result ∧
      0 ≤ c.id ∧ c.id < 2 ^ 31 := by
    intro c hc
    have hmem : c ∈ calls (before ++ after) := h.known (by simp [hc])
    exact ⟨hmem, h.told.served_of_mem hmem, h.told.ids c hmem⟩
  obtain ⟨b, hb, hr⟩ := Connection.append_eq (ε := ResponseException) s.client chunk
  have hpar := h.responses
  rw [hq, ← List.append_assoc, ← hr] at hpar
  have hnil : (BaseClient.rules codec.parse).front [] = .more := FrameRules.front_nil _
  have hsim : Connection.Simulates (receiver codec.parse (handleResponse codec growth react))
      { s.client with buffer := b }
      (handleMessage codec.parse (handleResponse codec growth react)
        { s.client with buffer := b }) :=
    handleMessage_simulates _
  have hrun : (Op.onMessage chunk).run codec growth react s.client =
      BaseClient.onMessage codec growth react { s.client with buffer := b } := by
    simp only [Op.run, bind, EStateM.bind, hb]
  rw [hrun]
  rcases hsim.arrived (J := Heard codec growth services result limit (before ++ after) heard coming)
    (E := fun e x => limit < x.id ∨ e = .undefined) hnil hpar (fun _ _ => id)
    ⟨[], coming, rfl, rfl, fun _ => ⟨[], by
      rw [List.append_nil, List.append_nil]
      exact h.told⟩⟩
    (fun js i ks x y o hjs hx hi => hx.next hlim hreact hserved h.nodup hjs hi) with
    ⟨e, d, hfail, hcause⟩ | ⟨js, ks, d, hjs, hok, ⟨now, later, rfl, rfl, htold⟩, -, hpar', hwait⟩
  · -- what `onMessage` does with an exception does not bring the ids back
    simp only [BaseClient.onMessage, hfail]
    cases e with
    | thrown e =>
      have hlong : limit < d.peer.id := hcause.resolve_right (by simp)
      obtain ⟨msg, _ | n⟩ := e
      · exact ⟨none, d, rfl, .inl hlong⟩
      · obtain ⟨y, hy, hid, -⟩ := eraseCallback_id (x := d.peer) n.toInt
        refine ⟨none, { d with peer := y }, ?_, .inl (hid ▸ hlong)⟩
        simp only [Connection.onPeer, hy]
        rfl
    | undefined => exact ⟨some .undefined, d, rfl, .inr (.inl rfl)⟩
    | assertion | library | overflow | outOfFuel =>
      exact ⟨some _, d, rfl, .inl (hcause.resolve_right (by simp))⟩
  · simp only [BaseClient.onMessage, hok]
    refine ⟨none, d, rfl, ?_⟩
    by_cases hid : d.peer.id ≤ limit
    · obtain rfl : ks = later.map (Call.item codec result) := by
        rw [List.map_append, List.append_cancel_left_eq] at hjs
        exact hjs.symm
      obtain ⟨more, hm⟩ := htold hid
      exact .inr (.inr ⟨rfl, more, heard ++ now, later, h.client hp rfl hm hpar' hwait⟩)
    · exact .inl (not_le.1 hid)

/-! ### Runs -/

/-- Within the limit, there are lists that describe the state. -/
def Described (codec : Codec) (growth : Growth) (services : ServiceList P N)
    (result : P → Json → Json) (limit : ℤ) (s : System κ N) : Prop :=
  s.client.peer.id ≤ limit →
    ∃ (before after : List (Sent P N)) (waiting heard coming : List (Call P)),
      Inv codec growth services result before after waiting heard coming s

/-- **Every step keeps the description**, whoever makes it: the user, a chunk that comes to
either side, a procedure that answers. -/
theorem Described.step (h : Described codec growth services result limit s)
    (hp : ReadsDecimals codec.parse) (hlim : limit ≤ 2 ^ 31)
    (hreact : ∀ h cb a, ∀ action ∈ react h cb a, Admissible codec services result limit action)
    (hmove : ∀ action, move = .act action → Admissible codec services result limit action)
    (hst : Step codec growth services result react s move s') :
    Described codec growth services result limit s' := by
  intro hid
  have hs : s.client.peer.id ≤ limit := not_lt.1 fun hlt => absurd (hst.grows hlt) (not_lt.2 hid)
  obtain ⟨before, after, waiting, heard, coming, hinv⟩ := h hs
  cases hst with
  | @act action d hd =>
    have htriple : Triple
        (ToldFrom codec growth services result limit .idle (before ++ after) heard)
        (perform codec growth action)
        (fun _ => ToldFrom codec growth services result limit .idle (before ++ after) heard)
        fun _ y => limit < y.id := perform_told hlim (.inl rfl) (hmove action rfl)
    obtain ⟨more, hm⟩ := (Connection.onPeer_triple htriple).of_ok (fun _ => ⟨[], by
      rw [List.append_nil]
      exact hinv.told⟩) hd hid
    have hbuffer : d.buffer = s.client.buffer := by
      simp only [Connection.onPeer] at hd
      cases hres : perform codec growth action s.client.peer with
      | ok _ y =>
        rw [hres] at hd
        cases hd
        rfl
      | error e y =>
        rw [hres] at hd
        cases hd
    have hresponses := hinv.responses
    have hwait := hinv.client_waits
    rw [← hbuffer] at hresponses hwait
    exact ⟨before, after ++ more, waiting, heard ++ [], coming,
      hinv.client hp (List.nil_append _).symm (by rwa [List.append_nil]) hresponses hwait⟩
  | @toServer chunk rest d hq hd =>
    obtain ⟨now, later, d', rfl, hd', hinv'⟩ := hinv.receive hq
    rw [hd] at hd'
    cases hd'
    exact ⟨_, _, _, _, _, hinv'⟩
  | answer ha =>
    obtain ⟨waiting', coming', hinv'⟩ := hinv.respond hp ha
    exact ⟨_, _, _, _, _, hinv'⟩
  | @toClient chunk rest d hq hd =>
    obtain ⟨o, d', hrun, hcase⟩ := hinv.hear hp hlim hreact hq
    obtain ⟨rfl, rfl⟩ := outcome_inj ((show _ = Connection.outcome none d from hd).symm.trans hrun)
    rcases hcase with hlong | ⟨⟨⟩⟩ | ⟨-, more, heard', coming', hinv'⟩
    · exact absurd hid (not_le.2 hlong)
    · exact ⟨_, _, _, _, _, hinv'⟩

/-! ### What the description says -/

/-- A state that is described is correct. -/
theorem Inv.correct (h : Inv codec growth services result before after waiting heard coming s)
    (hsound : Sound codec growth react s.client.peer) (hp : ReadsDecimals codec.parse)
    (hlim : limit ≤ 2 ^ 31)
    (hreact : ∀ h cb a, ∀ action ∈ react h cb a, Admissible codec services result limit action) :
    Correct codec growth services result react limit s where
  serves chunk rest hq := by
    obtain ⟨now, later, d, -, hd, -⟩ := h.receive hq
    exact ⟨d, hd⟩
  hears chunk rest hq := by
    obtain ⟨o, d, hrun, hcase⟩ := h.hear hp hlim hreact hq
    refine ⟨o, d, hrun, fun hid hroomy => ?_⟩
    rcases hcase with hlong | rfl | ⟨rfl, -⟩
    · exact absurd hid (not_le.2 hlong)
    · have hkept := (Op.run_triple codec growth react (.onMessage chunk)).of_error hsound hrun
      exact absurd hroomy hkept
    · rfl
  handed := by
    refine ⟨before.map fun m => codec.write m.value, after.map fun m => codec.write m.value, ?_, ?_⟩
    · rw [h.told.sent_eq, ← List.map_append, List.map_map]
      rfl
    · rw [h.handed, List.map_map]
      rfl
  notified j body f v hj hparse hn := by
    rw [h.log, List.getElem?_map, Option.map_eq_some_iff] at hj
    obtain ⟨m, hm, hentry⟩ := hj
    have hserved := h.told.served m (List.mem_append_left _ (List.mem_of_getElem? hm))
    cases m with
    | call c =>
      have hbody : codec.write c.value ++ kCRLF = body := congrArg Prod.fst hentry
      have hfaithful := hserved.request.faithful
      rw [Codec.Faithful, hbody, hparse] at hfaithful
      cases hfaithful
      exact absurd ⟨hserved.accepted.isObject, hn⟩ hserved.accepted.not_isNotification
    | notify json n =>
      have hbody : codec.write json ++ kCRLF = body := congrArg Prod.fst hentry
      have hfaithful := hserved.request.faithful
      rw [Codec.Faithful, hbody, hparse] at hfaithful
      cases hfaithful
      exact ⟨n, hserved.accepted, (congrArg Prod.snd hentry).symm⟩
  told k cb a hin := by
    obtain ⟨pre, post, hls⟩ := List.append_of_mem hin
    have hrun := h.told.tracks.run
    rw [hls] at hrun
    obtain ⟨pre', r, rfl, hr, hissued⟩ := invoked_after hrun
    obtain ⟨d, hd, -, hv⟩ := h.told.exists_of_response (r := r) (by rw [hls]; simp)
    rw [hv] at hr
    cases hr
    have hmem : d ∈ calls (before ++ after) := h.told.known d hd
    refine ⟨by rw [hls]; simp [hissued], d.json, d.procedure, ?_, ?_, rfl⟩
    · rw [h.told.sent_eq]
      exact List.mem_map.2 ⟨.call d, mem_calls.1 hmem, rfl⟩
    · exact (h.told.served_of_mem hmem).accepted
  once := h.told.tracks.inv.invoked_nodup
  kept k hk := by
    rw [mem_callbacks_iff]
    constructor
    · rintro ⟨cb, hcb⟩
      exact h.told.tracks.inv.not_invoked rfl hcb
    · intro hnot
      exact Option.ne_none_iff_exists'.1 ((h.told.conserved.kept k hk).resolve_right hnot)
  settled hs ha hc k hk := by
    have hreq := h.requests
    rw [hs, List.append_nil] at hreq
    obtain rfl : after = [] := List.map_eq_nil_iff.1 (hreq.of_more h.server_waits).1
    have hres := h.responses
    rw [hc, List.append_nil] at hres
    obtain rfl : coming = [] := List.map_eq_nil_iff.1 (hres.of_more h.client_waits).1
    have hans := h.answers
    rw [ha] at hans
    obtain rfl : waiting = [] := List.map_eq_nil_iff.1 hans.symm
    have hb := h.balance
    rw [List.nil_append, List.append_nil] at hb
    rw [h.told.issued, List.append_nil] at hk
    rw [h.told.invoked]
    exact (hb.map Call.id).mem_iff.2 hk

/-- **A session is correct.**  Over every run of a client and a server on one
connection, with chunks of any size, procedures that answer in any order and
callbacks that issue more calls: if the server accepts what the client sends and
reads its texts back, the client reads the responses back, both stay within the
limits of their readers, and no more than `limit` calls are issued. -/
theorem correct_of_run (hp : ReadsDecimals codec.parse)
    (h : Run (Step codec growth services result react) (System.init growth) moves s)
    (hlim : limit ≤ 2 ^ 31) (hids : s.client.peer.id ≤ limit)
    (hacts : ∀ action, .act action ∈ moves → Admissible codec services result limit action)
    (hreact : ∀ h cb a, ∀ action ∈ react h cb a, Admissible codec services result limit action) :
    Correct codec growth services result react limit s := by
  have hrun := h.restrict (P := fun move => ∀ action, move = .act action →
    Admissible codec services result limit action) fun move hmove action hm =>
      hacts action (hm ▸ hmove)
  have hdescribed : Described codec growth services result limit s := by
    refine hrun.preserves ?_ fun x move y hx hstep => ?_
    · exact fun _ => ⟨[], [], [], [], [], inv_init⟩
    · exact hx.step hp hlim hreact hstep.2 hstep.1
  have hsound : Sound codec growth react s.client.peer :=
    h.preserves (P := fun s => Sound codec growth react s.client.peer) sound_init
      fun _ _ _ hs hstep => hstep.sound hs
  obtain ⟨before, after, waiting, heard, coming, hinv⟩ := hdescribed hids
  exact hinv.correct hsound hp hlim hreact

/-! ### One call, there and back -/

/-- The call of the procedure `m` of the service `s`, without parameters. -/
def callValue : Json := .object [("jsonrpc", .string "2.0"), ("method", .string "s.m")]

/-- The text of this call under the id 0. -/
def callText : Bytes :=
  "\x7b\"jsonrpc\":\"2.0\",\"method\":\"s.m\",\"id\":0\x7d".toUTF8.toList

/-- A codec for this call and the response to it. -/
def callCodec : Codec where
  parse line :=
    if line = callText ++ kCRLF then .ok (numbered 0 callValue).reread
    else (responseCodec "2.0").parse line
  write v := if (v.findMember "method").isSome then callText else responseText "2.0"
  nonObject := .asserting

theorem readsDecimals_callCodec : ReadsDecimals callCodec.parse := by
  intro n h₀ h₁
  have hne : decimal n ++ kCRLF ≠ callText ++ kCRLF := by
    intro h
    have hhead : callText.head? = some 123 := by decide +kernel
    rw [← List.append_cancel_right h] at hhead
    obtain ⟨c, hc, hcv⟩ := List.mem_map.1 (List.mem_of_mem_head? hhead)
    obtain ⟨-, h₂, h₃⟩ := toNat_of_mem_toDigits hc
    have h₄ : (UInt8.ofNat c.toNat).toNat = 123 := by rw [hcv]; rfl
    omega
  simp only [callCodec, if_neg hne]
  exact readsDecimals_responseCodec (by decide +kernel) n h₀ h₁

/-- A procedure whose result is null. -/
def nullResult : Unit → Json → Json := fun _ _ => .null

theorem served_callValue :
    (Call.mk 0 callValue ()).Served callCodec oneService nullResult where
  request := ⟨if_pos rfl, by decide +kernel⟩
  accepted := handleSingleRequest_eq_ok_iff.1 rfl
  response := ⟨by
    have hne : responseText "2.0" ++ kCRLF ≠ callText ++ kCRLF := by decide +kernel
    exact (if_neg hne).trans (if_pos rfl), by decide +kernel⟩

/-- The call is sent, served, answered and told. -/
theorem run_callValue : ∃ s : System Unit Unit,
    Run (Step callCodec thirteen oneService nullResult quiet) (System.init thirteen)
      [.act (.call callValue ()), .toServer (frame callText),
        .answer ((Call.mk 0 callValue ()).response nullResult),
        .toClient (frame (responseText "2.0"))] s ∧
      s.client.peer.id = 1 ∧ s.client.peer.history = [.issued 0 (), .response (responseValue "2.0"),
        .invoked 0 () ⟨.null, false, false⟩, .removed 0] := by
  let c : Call Unit := ⟨0, callValue, ()⟩
  let x : State Unit := (State.init thirteen).issue thirteen ()
    (sendRequest callCodec (numbered 0 callValue))
  let s₁ : System Unit Unit :=
    ⟨Connection.init x, Connection.init [], [] ++ written (start thirteen) (Connection.init x),
      [], []⟩
  have hact : Step callCodec thirteen oneService nullResult quiet (System.init thirteen)
      (.act (.call callValue ())) s₁ := .act rfl
  have hr : s₁.client.buffer.readable = [] := Connection.readable_init x
  have htold : Told callCodec thirteen oneService nullResult .idle
      ([.call c] : List (Sent Unit Unit)) []
      x := inv_init.told.issue (.inl rfl) (by decide) () callValue served_callValue
  have h₁ : Inv callCodec thirteen oneService nullResult [] [.call c] [] [] [] s₁ :=
    inv_init.client readsDecimals_callCodec (List.nil_append _).symm htold
      (by rw [hr]; exact .nil _) (by rw [hr]; exact FrameRules.front_nil _)
  -- the server has the call
  have hto : s₁.toServer = frame callText ++ [] := rfl
  obtain ⟨now, later, d, hnow, hd, h₂⟩ := h₁.receive hto
  have hreq := h₂.requests
  rw [List.append_nil] at hreq
  obtain rfl : later = [] := List.map_eq_nil_iff.1 (hreq.of_more h₂.server_waits).1
  obtain rfl : now = [.call c] := by simpa using hnow.symm
  -- its response arrives at a client with an empty buffer
  have hhandle : ∃ y, handleResponse callCodec thirteen quiet (responseText "2.0" ++ kCRLF) x =
        .ok () y ∧ y.id = 1 ∧ y.history = [.issued 0 (), .response (responseValue "2.0"),
          .invoked 0 () ⟨.null, false, false⟩, .removed 0] := by
    refine ⟨_, (handleResponse_of_object served_callValue.response.faithful rfl x).trans rfl, ?_⟩
    exact ⟨rfl, rfl⟩
  obtain ⟨y, hy, hid, hhist⟩ := hhandle
  obtain ⟨e, he, rfl⟩ := step_of_ok readsDecimals_callCodec (by decide +kernel) hr hy
  let s₂ : System Unit Unit :=
    { s₁ with server := d, toServer := [], answers := [] ++ raised s₁.server d }
  have hserve : Step callCodec thirteen oneService nullResult quiet s₁
      (.toServer (frame callText)) s₂ := .toServer hto hd
  have hans : s₂.answers = [] ++ c.response nullResult :: [] := h₂.answers
  let s₃ : System Unit Unit := { s₂ with
    answers := [] ++ []
    toClient := s₂.toClient ++ BaseServer.sendResponse callCodec (c.response nullResult) }
  have hanswer : Step callCodec thirteen oneService nullResult quiet s₂
      (.answer (c.response nullResult)) s₃ := .answer hans
  have hwrite : callCodec.write (c.response nullResult) = responseText "2.0" := by decide +kernel
  have hback : s₃.toClient = frame (responseText "2.0") ++ [] := by
    rw [← hwrite, List.append_nil]
    rfl
  exact ⟨_, .snoc (.snoc (.snoc (.single hact) hserve) hanswer) (.toClient hback he), hid, hhist⟩

/-- The hypotheses of `correct_of_run` are satisfiable. -/
theorem correct_of_run_callValue : ∃ s : System Unit Unit, s.client.peer.history =
      [.issued 0 (), .response (responseValue "2.0"), .invoked 0 () ⟨.null, false, false⟩,
        .removed 0] ∧ Correct callCodec thirteen oneService nullResult quiet 1 s := by
  obtain ⟨s, hrun, hid, hhist⟩ := run_callValue
  have hadmissible : Admissible callCodec oneService nullResult 1 (.call callValue ()) := by
    refine ⟨rfl, fun k h₀ hk => ?_⟩
    obtain rfl : k = 0 := by omega
    exact ⟨(), served_callValue⟩
  refine ⟨s, hhist, correct_of_run readsDecimals_callCodec hrun (by decide) (by omega) ?_ ?_⟩
  · intro action hmem
    obtain rfl : action = .call callValue () := by simpa using hmem
    exact hadmissible
  · exact fun _ _ _ _ hmem => absurd hmem List.not_mem_nil

end Session
end BearRpc
