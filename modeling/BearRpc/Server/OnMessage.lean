/-
# `BaseServer::onMessage` of an `RpcServer`

`RpcServer::handleRequest` (`bearTcpServer.cc`, lines 274 to 295) behind
`BaseServer::handleMessage`.  The callback `done` that `handleMessage` makes for
a frame sends every response but null; a connection records for each body handed
over what became of it (`Frame`).

`onMessage` has no `try` block, so every exception of a handler leaves it; in the
client, `BaseClient::onMessage` catches them.  A stream is served well (`Robust`)
if `onMessage` returns on every chunk of every cut of it and each frame that
needs an answer gets the one it is owed.  `robust_iff` says which streams are:
those whose frames raise no exception, and in which no frame that needs an answer
stands behind an empty line.
-/

import BearRpc.Server.Batch
import BearRpc.Server.Segmentation

namespace BearRpc

open Theory Connection

namespace RpcServer

open BaseServer

variable {P N : Type} (services : ServiceList P N) (result : P → Json → Json)
  (parse : Bytes → Except String Json)

/-- What became of a frame: the notify procedures invoked, and the responses
given to its callback `done`. -/
structure Frame (N : Type) where
  notified : List N
  done : List Json

/-- The frames of a connection, with their bodies. -/
abbrev FrameLog (N : Type) := List (Bytes × Frame N)

/-- The responses sent for a frame: the callback drops a null response. -/
def Frame.sent (f : Frame N) : List Json := f.done.filter fun response => !response.isNull

/-- `done(response)` -/
def done (response : Json) : CppM RpcException (Frame N) Unit :=
  modify fun f => { f with done := f.done ++ [response] }

/-- Invoke notify procedures. -/
def invoke (ns : List N) : CppM RpcException (Frame N) Unit :=
  modify fun f => { f with notified := f.notified ++ ns }

/-- `RpcServer::handleRequest` -/
def handleRequest (json : Bytes) : CppM RpcException (Frame N) Unit :=
  match parse json with
  | .error text => throw (.thrown (.request ⟨.parseError, .null, text⟩))
  | .ok request =>
    match request with
    | .object _ =>
      if isNotify request then
        match handleSingleNotify services request with
        | .ok n => invoke [n]
        | .error e => throw (.thrown e)
      else
        match handleSingleRequest services request with
        | .ok p => done (UserCallback.call request (result p request))
        | .error e => throw (.thrown (.request e))
    | .array requests =>
      match handleBatchRequests services result requests .init with
      | .ok _ b => do
        invoke (b.notified.map Prod.snd)
        done (.array (b.responses.map Prod.snd))
      | .error e _ => throw e
    | _ => throw (.thrown (.request ⟨.invalidRequest, .null,
        "request should be json object or array"⟩))

/-- The call of `handleRequest` in `handleMessage`, with a fresh callback. -/
def handleFrame (json : Bytes) : CppM RpcException (FrameLog N) Unit := fun log =>
  match handleRequest services result parse json ⟨[], []⟩ with
  | .ok _ f => .ok () (log ++ [(json, f)])
  | .error e f => .error e (log ++ [(json, f)])

/-- `BaseServer::onMessage` -/
def onMessage : CppM RpcException (Connection (FrameLog N)) Unit :=
  handleMessage parse (handleFrame services result parse)

/-- The body needs an answer: it is a request with an id of a permitted type, or
it is no JSON object or array. -/
inductive NeedsAnswer (body : Bytes) : Prop
  | request {v w : Json} (parsed : parse body = .ok v) (id : v.findMember "id" = some w)
      (permitted : w.getType ∈ idTypes)
  | refused (h : ∀ v, parse body = .ok v → v.getType ≠ .object ∧ v.getType ≠ .array)

/-- `w` is the answer the body is owed. -/
inductive Owed (body : Bytes) (w : Json) : Prop
  | request {v : Json} (parsed : parse body = .ok v) (object : v.getType = .object)
      (answer : Answers services result v w)
  | refused (h : ∀ v, parse body = .ok v → v.getType ≠ .object ∧ v.getType ≠ .array)
      (answer : ∃ err d, w = wrapException ⟨err, .null, d⟩)

/-- **What the server owes its clients**, however the stream is cut: `onMessage`
returns on every chunk, and each complete frame of the stream that needs an
answer gets exactly one, the one it is owed. -/
def Robust (stream : Bytes) : Prop :=
  ∀ chunks, Cut stream chunks → ∃ c : Connection (FrameLog N),
    deliver (onMessage services result parse) chunks (init []) = .ok () c ∧
      ∀ is r, (rules parse).grammar.Parses stream is r →
        ∀ (j : ℕ) (body : Bytes), (bodies is)[j]? = some body → NeedsAnswer parse body →
          ∃ (f : Frame N) (w : Json), c.peer[j]? = some (body, f) ∧ f.sent = [w] ∧
            Owed services result parse body w

/-- The body is an accepted request, an accepted notification or an array with
an element. -/
inductive Served (body : Bytes) : Prop
  | object {v : Json} (parsed : parse body = .ok v) (accepted : Accepted services v)
  | array {v : Json} {vs : List Json} (parsed : parse body = .ok (.array (v :: vs)))

/-- The stream is read to an incomplete frame, every frame before it is served,
and no frame that needs an answer follows an empty line. -/
def WellBehaved (stream : Bytes) : Prop :=
  ∃ is r, (rules parse).grammar.Parses stream is r ∧ (rules parse).front r = .more ∧
    (∀ body, .frame body ∈ is → Served services parse body) ∧
      ∀ pre post, is = pre ++ .blank :: post →
        ∀ body, .frame body ∈ post → ¬ NeedsAnswer parse body

variable {services result parse} {body : Bytes} {stream : Bytes}

theorem exists_object {v : Json} (h : v.isObject = true) : ∃ ms, v = .object ms := by
  cases v <;> first | exact ⟨_, rfl⟩ | cases h

/-- A body that is no request, but an object or an array, needs no answer. -/
theorem not_needsAnswer {v : Json} (parsed : parse body = .ok v)
    (h : v.getType = .object ∨ v.getType = .array) (hid : v.findMember "id" = none) :
    ¬ NeedsAnswer parse body := by
  rintro (⟨parsed', id, -⟩ | hr)
  · rw [parsed] at parsed'
    cases parsed'
    rw [hid] at id
    cases id
  · exact h.elim (hr v parsed).1 (hr v parsed).2

variable (result) in
/-- A frame that is served raises nothing, and is answered where it has to be. -/
theorem handleRequest_of_served (h : Served services parse body) :
    ∃ f : Frame N, handleRequest services result parse body ⟨[], []⟩ = .ok () f ∧
      (NeedsAnswer parse body → ∃ w, f.sent = [w] ∧ Owed services result parse body w) := by
  rcases h with @⟨v, parsed, ⟨hn, n, h⟩ | ⟨p, h⟩⟩ | @⟨v, vs, parsed⟩
  · obtain ⟨ms, rfl⟩ := exists_object hn.1
    have hid : (Json.object ms).findMember "id" = none := Option.isNone_iff_eq_none.1 hn.2
    refine ⟨⟨[n], []⟩, ?_, fun ha => absurd ha (not_needsAnswer parsed (.inl rfl) hid)⟩
    simp only [handleRequest, parsed, hn.2, if_true, handleSingleNotify_of_accepted h]
    rfl
  · obtain ⟨ms, rfl⟩ := exists_object h.isObject
    have hn : isNotify (.object ms) = false :=
      Bool.eq_false_iff.2 fun hn => h.not_isNotification ⟨rfl, hn⟩
    refine ⟨⟨[], [UserCallback.call (.object ms) (result p (.object ms))]⟩, ?_, fun _ => ?_⟩
    · simp only [handleRequest, parsed, hn, handleSingleRequest_of_accepted h]
      rfl
    · exact ⟨_, rfl, .request parsed rfl (.inl ⟨p, h, rfl⟩)⟩
  · obtain ⟨b, hb⟩ := handleBatchRequests_returns services result (List.cons_ne_nil v vs)
    refine ⟨⟨b.notified.map Prod.snd, [.array (b.responses.map Prod.snd)]⟩, ?_,
      fun ha => absurd ha (not_needsAnswer parsed (.inr rfl) rfl)⟩
    simp only [handleRequest, parsed, hb]
    rfl

variable (result) in
/-- A frame that is not served raises an exception. -/
theorem handleRequest_of_not_served (h : ¬ Served services parse body) (f : Frame N) :
    ∃ e, handleRequest services result parse body f = .error e f := by
  unfold handleRequest
  cases parsed : parse body with
  | error text => exact ⟨_, rfl⟩
  | ok v =>
    cases v with
    | object ms =>
      dsimp only
      by_cases hn : isNotify (.object ms) = true
      · rw [if_pos hn]
        cases hs : handleSingleNotify services (.object ms) with
        | ok n =>
          exact absurd (.object parsed (.inl ⟨⟨rfl, hn⟩, n, handleSingleNotify_eq_ok_iff.1 hs⟩)) h
        | error e => exact ⟨_, rfl⟩
      · rw [if_neg hn]
        cases hs : handleSingleRequest services (.object ms) with
        | ok p => exact absurd (.object parsed (.inr ⟨p, handleSingleRequest_eq_ok_iff.1 hs⟩)) h
        | error e => exact ⟨_, rfl⟩
    | array vs =>
      cases vs with
      | nil => exact ⟨_, rfl⟩
      | cons v vs => exact absurd (.array parsed) h
    | _ => exact ⟨_, rfl⟩

/-- The record of a frame. -/
def record (services : ServiceList P N) (result : P → Json → Json)
    (parse : Bytes → Except String Json) (body : Bytes) : Bytes × Frame N :=
  match handleRequest services result parse body ⟨[], []⟩ with
  | .ok _ f => (body, f)
  | .error _ f => (body, f)

/-- A connection records the frames it has handed over. -/
theorem foldl_serve (is : List Item) (log : FrameLog N) :
    is.foldl (fun z i => (serve (handleFrame services result parse) i z).1) log =
      log ++ (bodies is).map (record services result parse) := by
  induction is generalizing log with
  | nil => simp
  | cons i is ih =>
    rw [List.foldl_cons, ih]
    cases i with
    | blank => rfl
    | frame body =>
      rw [bodies_frame, List.map_cons, List.append_cons]
      simp only [serve, handleFrame, record]
      cases handleRequest services result parse body ⟨[], []⟩ <;> rfl

/-- A frame that does not fail is served. -/
theorem served_of_serve {log : FrameLog N}
    (h : (serve (handleFrame services result parse) (.frame body) log).2 = none) :
    Served services parse body := by
  by_contra hn
  obtain ⟨e, he⟩ := handleRequest_of_not_served result hn ⟨[], []⟩
  simp only [serve, handleFrame, he] at h
  cases h

theorem serve_of_served (h : Served services parse body) (log : FrameLog N) :
    (serve (handleFrame services result parse) (.frame body) log).2 = none := by
  obtain ⟨f, hf, -⟩ := handleRequest_of_served result h
  simp only [serve, handleFrame, hf]

variable (services result parse) in
theorem onMessage_simulates (c : Connection (FrameLog N)) :
    Simulates (receiver parse (handleFrame services result parse)) c
      (onMessage services result parse c) :=
  handleMessage_simulates c

variable (result) in
/-- A frame served and recorded got the answer it is owed. -/
theorem record_answered (h : Served services parse body) (ha : NeedsAnswer parse body) :
    ∃ f w, record services result parse body = (body, f) ∧ f.sent = [w] ∧
      Owed services result parse body w := by
  obtain ⟨f, hf, hsent⟩ := handleRequest_of_served result h
  obtain ⟨w, hw, ho⟩ := hsent ha
  exact ⟨f, w, by rw [record, hf], hw, ho⟩

/-- **A frame that needs an answer does not stay in the buffer**, if none stands
behind an empty line: of a stream that reads as `hs` and `ks` the connection has
handled `hs`. -/
theorem handled_of_needsAnswer {chunks : List Bytes} {hs ks : List Item} {q r : Bytes}
    {log : FrameLog N} {j : ℕ}
    (hfeed : (receiver parse (handleFrame services result parse)).Feed [] [] chunks hs q log none)
    (his : (rules parse).grammar.Parses chunks.flatten (hs ++ ks) r)
    (hr : (rules parse).grammar.Settled r)
    (hlast : ∀ pre post, hs ++ ks = pre ++ .blank :: post →
      ∀ body, .frame body ∈ post → ¬ NeedsAnswer parse body)
    (hj : (bodies (hs ++ ks))[j]? = some body) (ha : NeedsAnswer parse body) :
    (bodies hs)[j]? = some body := by
  rw [bodies_append] at hj
  rcases Nat.lt_or_ge j (bodies hs).length with hlt | hge
  · rwa [List.getElem?_append_left hlt] at hj
  rw [List.getElem?_append_right hge] at hj
  have hin : .frame body ∈ ks := mem_bodies.1 (List.mem_of_getElem? hj)
  rcases hfeed.settled_or_pause PrefixGrammar.settled_nil with hset | ⟨i, hi, rfl⟩
  · have hparses := hfeed.parses
    rw [List.nil_append] at hparses
    have hall := (hparses.unique his hset hr).1
    rw [List.self_eq_append_right] at hall
    rw [hall] at hin
    cases hin
  · obtain ⟨pre, post, rfl⟩ := List.append_of_mem hi
    exact absurd ha (hlast pre (post ++ ks) (by simp) body (List.mem_append_right _ hin))

/-- **A well-behaved stream is served well**: no frame of it raises an exception that is let
out, and none that needs an answer stands where the loop does not come to it. -/
theorem robust_of_wellBehaved (h : WellBehaved services parse stream) :
    Robust services result parse stream := by
  obtain ⟨is, r, his, hr, hserved, hlast⟩ := h
  intro chunks hcut
  have hrs := PrefixGrammar.settled_of_more (g := (rules parse).grammar) hr
  obtain ⟨hs, q, y, o, c, hfeed, rfl, rfl, -, hres⟩ :=
    deliver_feed (onMessage_simulates services result parse) chunks (init [])
  rw [readable_init, peer_init] at hfeed
  have hret : o = none := by
    refine hfeed.returns (by rwa [← hcut.1] at his) hr fun i hi z => ?_
    cases i with
    | blank => rfl
    | frame body => exact serve_of_served (hserved body hi) z
  subst hret
  refine ⟨c, hres, fun is' r' his' j body hj ha => ?_⟩
  -- the frame is one of the whole reading, and what was handled is a part of it
  obtain ⟨ls, rfl, -⟩ := his'.continues his hrs
  have hfp := hfeed.parses
  rw [List.nil_append, hcut.1] at hfp
  obtain ⟨ks, hks, -⟩ := hfp.continues his hrs
  have hbody : (bodies (is' ++ ls))[j]? = some body := by
    rw [bodies_append]
    exact List.getElem?_append_left (List.getElem?_eq_some_iff.1 hj).1 ▸ hj
  have hmem : .frame body ∈ is' ++ ls := mem_bodies.1 (List.mem_of_getElem? hbody)
  have hhandled : (bodies hs)[j]? = some body := by
    rw [hks] at his hlast hbody
    rw [← hcut.1] at his
    exact handled_of_needsAnswer hfeed his hrs hlast hbody ha
  obtain ⟨f, w, hrec, hsent, howed⟩ := record_answered result (hserved body hmem) ha
  refine ⟨f, w, ?_, hsent, howed⟩
  rw [hfeed.handled.1]
  simp only [receiver, foldl_serve, List.nil_append, List.getElem?_map, hhandled, Option.map_some,
    hrec]

/-- **A stream that is served well is well-behaved.**  Byte by byte, the server
reads all of it; in one chunk, it reads to the first empty line. -/
theorem wellBehaved_of_robust (h : Robust services result parse stream) :
    WellBehaved services parse stream := by
  obtain ⟨is, r, his, hrs⟩ := PrefixGrammar.exists_parses (rules parse).grammar stream
  obtain ⟨c, hc, -⟩ := h _ (cut_singletons stream)
  obtain ⟨hs, hfeed, -⟩ := feed_of_deliver (onMessage_simulates services result parse) hc
  have hfp := hfeed.parses
  rw [List.nil_append, (cut_singletons stream).1] at hfp
  have hmore : (rules parse).front c.buffer.readable = .more := by
    rcases hfeed.settled_of_singletons (.inl rfl) with hnil | hmore
    · rw [hnil]
      exact FrameRules.front_nil _
    · exact hmore
  obtain ⟨rfl, rfl⟩ := hfp.unique his (PrefixGrammar.settled_of_more hmore) hrs
  refine ⟨hs, _, his, hmore, fun body hbody => ?_, ?_⟩
  · obtain ⟨log, hlog⟩ := hfeed.handled.2 _ hbody
    exact served_of_serve hlog
  · rintro pre post rfl body hbody ha
    have hne : stream ≠ [] := by
      rintro rfl
      have hlen := his.length_le
      simp at hlen
    obtain ⟨d, hd, hall⟩ := h _ (cut_single hne)
    obtain ⟨ks, hfd, -⟩ := feed_of_deliver (onMessage_simulates services result parse) hd
    have hpre := hfd.receive.prefix_of_pause his rfl
    have hle : (bodies ks).length ≤ (bodies pre).length := by
      obtain ⟨ls, hls⟩ := hpre
      have hcount := congrArg (fun is => (bodies is).length) hls
      simp at hcount
      omega
    obtain ⟨k, hk, hkb⟩ := List.getElem_of_mem (mem_bodies.2 hbody)
    have hj : (bodies (pre ++ .blank :: post))[(bodies pre).length + k]? = some body := by
      rw [bodies_append, bodies_blank, List.getElem?_append_right (by omega),
        Nat.add_sub_cancel_left, List.getElem?_eq_getElem hk, hkb]
    obtain ⟨f, w, hpeer, -⟩ := hall _ _ his _ body hj ha
    rw [hfd.handled.1] at hpeer
    simp only [receiver, foldl_serve, List.nil_append] at hpeer
    have hlt := (List.getElem?_eq_some_iff.1 hpeer).1
    rw [List.length_map] at hlt
    omega

/-- **Which streams the server serves well.** However a stream is cut into chunks,
`onMessage` returns on each of them and every complete frame that needs an answer gets the
one it is owed, if and only if the stream is well behaved: the frames are ones that
`handleRequest` ends without an exception (`BaseServer::onMessage` has no `try`), and none
that needs an answer stands behind an empty line. -/
theorem robust_iff (services : ServiceList P N) (result : P → Json → Json)
    (parse : Bytes → Except String Json) (stream : Bytes) :
    Robust services result parse stream ↔ WellBehaved services parse stream :=
  ⟨wellBehaved_of_robust, robust_of_wellBehaved⟩

/-- A frame with the text `{`. -/
def braceFrame : Bytes := [51, 13, 10, 123, 13, 10]

/-- **One malformed frame, and an exception leaves `onMessage`**: the body is an opening
brace alone, which is no JSON, and what the parser throws goes through the callback of the
connection. -/
theorem not_robust_braceFrame :
    ¬ Robust (∅ : ServiceList Unit Unit) (fun _ v => v) readDecimalLine braceFrame := by
  intro h
  obtain ⟨is, r, his, hr, hserved, -⟩ := wellBehaved_of_robust h
  have hframe : (rules readDecimalLine).grammar.Parses (frame [123]) [.frame [123, 13, 10]] [] :=
    (rules readDecimalLine).parses_frame readsDecimals_readDecimalLine
      (show kMaxMessageLen ≤ 2 ^ 31 by decide) (show 1 + 2 < kMaxMessageLen by decide)
  rw [show frame [123] = braceFrame by decide] at hframe
  obtain ⟨ks, rfl, -⟩ := hframe.continues his (PrefixGrammar.settled_of_more hr)
  have herror : readDecimalLine [123, 13, 10] = .error "invalid value" := rfl
  rcases hserved [123, 13, 10] (by simp) with ⟨parsed, -⟩ | ⟨parsed⟩
  · rw [herror] at parsed
    cases parsed
  · rw [herror] at parsed
    cases parsed

end RpcServer
end BearRpc
