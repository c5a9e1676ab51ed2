/-
# Frames from one side to the other

What `BaseClient::sendRequest` puts on the wire is read by
`BaseServer::handleMessage`, and what `BaseServer::sendResponse` puts there by
`BaseClient::handleMessage`, however TCP cuts the stream into chunks.  Both
directions rest on `deliver_frames`: a receive loop that nothing pauses and
nothing fails hands over every text of a stream of frames, once and in order,
and leaves its buffer empty.

The two sides do not agree on how long a text may be.  Every request below the
server's limit arrives (`requests_delivered`).  The client's own limit is 65536
bytes, and it takes all responses exactly when each of them is below it
(`responses_delivered_iff`).
-/

import BearRpc.Server.Framing
import BearRpc.Client.Framing

namespace BearRpc

open Theory Connection

section Frames

variable {ε σ : Type} {R : Receiver UInt8 Item σ (Abrupt ε)} {F : FrameRules (Abrupt ε)}
  {onMessage : CppM ε (Connection σ) Unit} {handle : Bytes → CppM ε σ Unit}

@[simp] theorem bodies_map_frame (texts : List Bytes) :
    bodies (texts.map fun t => .frame (t ++ kCRLF)) = texts.map (· ++ kCRLF) := by
  induction texts with
  | nil => rfl
  | cons t texts ih => rw [List.map_cons, bodies_frame, ih, List.map_cons]

/-- **Every text of a stream of frames is handed over, once and in order**, however the
stream is cut: to a handler that does not fail, by a loop that does not pause, with texts
below the limit. -/
theorem deliver_frames (hsim : ∀ c, Simulates R c (onMessage c)) (hF : R.grammar = F.grammar)
    (hR : R.handle = serve handle) (hpause : ∀ body, ¬ R.pause (.frame body))
    (hp : ReadsDecimals F.parse) (hlim : F.limit ≤ 2 ^ 31) {texts : List Bytes}
    (ht : ∀ t ∈ texts, t.length + 2 < F.limit)
    (hh : ∀ t ∈ texts, ∀ x, ∃ y, handle (t ++ kCRLF) x = .ok () y) {chunks : List Bytes}
    (hc : chunks.flatten = (texts.map frame).flatten) (x : σ) :
    ∃ c, deliver onMessage chunks (init x) = .ok () c ∧ c.calls = texts.map (· ++ kCRLF) ∧
      c.buffer.readable = [] := by
  obtain ⟨is, r, y, o, c, hfeed, hr, -, hcalls, hres⟩ := deliver_feed hsim chunks (init x)
  have hparse := F.parses_frames hp hlim ht []
  rw [List.append_nil, ← hc, ← hF] at hparse
  rw [readable_init] at hfeed
  obtain ⟨rfl, rfl, rfl⟩ := hfeed.eq_of_smooth PrefixGrammar.settled_nil hparse
    (by rw [hF]; exact F.front_nil)
    (by
      intro i hi
      obtain ⟨t, -, rfl⟩ := List.mem_map.1 hi
      exact hpause _)
    (by
      intro i hi z
      obtain ⟨t, htm, rfl⟩ := List.mem_map.1 hi
      obtain ⟨y, hy⟩ := hh t htm z
      rw [hR, serve, hy])
  exact ⟨c, hres, by rw [hcalls, bodies_map_frame, calls_init, List.nil_append], hr⟩

/-- **A text that reaches the limit is refused**: of a stream with such a frame
no connection has every text handed over. -/
theorem not_deliver_frames (hsim : ∀ c, Simulates R c (onMessage c)) (hF : R.grammar = F.grammar)
    (hp : ReadsDecimals F.parse) (hlim : F.limit ≤ 2 ^ 31) {texts : List Bytes}
    (hsize : ∀ t ∈ texts, t.length + 2 < 2 ^ 31) (hlong : ∃ t ∈ texts, F.limit ≤ t.length + 2)
    {chunks : List Bytes} (hc : chunks.flatten = (texts.map frame).flatten) {x : σ}
    {c : Connection σ} (hres : deliver onMessage chunks (init x) = .ok () c) :
    c.calls ≠ texts.map (· ++ kCRLF) := by
  intro hall
  obtain ⟨is, hfeed, hcalls⟩ := feed_of_deliver hsim hres
  obtain ⟨pre, t, post, rfl, htl, hpre⟩ := exists_first hlong
  -- the reading stops at the first text that is too long, at the latest
  have hparse := F.parses_frames hp hlim (fun t' h => Nat.lt_of_not_le (hpre t' h))
    (frame t ++ (post.map frame).flatten)
  have hbad := F.front_frame hp (hsize t (by simp)) (post.map frame).flatten
  rw [if_pos htl] at hbad
  have hread := hfeed.parses
  rw [List.nil_append, hc, hF, List.map_append, List.flatten_append, List.map_cons,
    List.flatten_cons] at hread
  obtain ⟨ks, hks, -⟩ := hread.continues hparse (PrefixGrammar.settled_of_bad hbad)
  rw [hall] at hcalls
  have h₁ := congrArg List.length hcalls
  have h₂ := congrArg (fun is => (bodies is).length) hks
  simp only [List.length_map, List.length_append, List.length_cons, bodies_append,
    bodies_map_frame] at h₁ h₂
  omega

end Frames

/-- **Every request arrives.**  The frames of any sequence of requests with
texts below the server's limit, cut into chunks in any way: each chunk is
appended to the buffer and `handleMessage` returns, `handleRequest` has been
called once for each request, in order, with its text and `"\r\n"`, and no byte
is left. -/
theorem requests_delivered {σ : Type} (codec : Codec) (hp : ReadsDecimals codec.parse)
    (values : List Json)
    (hsize : ∀ v ∈ values, (codec.write v).length + 2 < 100 * 1024 * 1024)
    (handleRequest : Bytes → CppM RpcException σ Unit)
    (hh : ∀ v ∈ values, ∀ x, ∃ y, handleRequest (codec.write v ++ kCRLF) x = .ok () y)
    (chunks : List Bytes)
    (hc : chunks.flatten = (values.map (BaseClient.sendRequest codec)).flatten) (x : σ) :
    ∃ c, deliver (BaseServer.handleMessage codec.parse handleRequest) chunks (init x) = .ok () c ∧
      c.calls = values.map (fun v => codec.write v ++ kCRLF) ∧ c.buffer.readableBytes = 0 := by
  have hframes : values.map (BaseClient.sendRequest codec) =
      (values.map codec.write).map frame := by
    rw [List.map_map]
    rfl
  obtain ⟨c, hres, hcalls, hr⟩ := deliver_frames
    (F := BaseServer.rules codec.parse) BaseServer.handleMessage_simulates rfl rfl
    (fun _ h => Item.noConfusion h) hp
    (show BaseServer.kMaxMessageLen ≤ 2 ^ 31 by decide)
    (by
      intro t ht
      obtain ⟨v, hv, rfl⟩ := List.mem_map.1 ht
      exact hsize v hv)
    (by
      intro t ht
      obtain ⟨v, hv, rfl⟩ := List.mem_map.1 ht
      exact hh v hv)
    (by rw [hc, hframes]) x
  refine ⟨c, hres, ?_, by rw [← Buffer.length_readable, hr, List.length_nil]⟩
  rw [hcalls, List.map_map]
  rfl

/-- The hypotheses of `requests_delivered` are satisfiable: two `null` texts, cut
inside the first length line and inside the second body. -/
theorem requests_delivered_null :
    ∃ c, deliver (BaseServer.handleMessage readDecimalLine idle)
        [[54, 13], [10, 110, 117, 108, 108, 13, 10, 54, 13, 10, 110], [117, 108, 108, 13, 10]]
        (init ()) = .ok () c ∧
      c.calls = [[110, 117, 108, 108, 13, 10], [110, 117, 108, 108, 13, 10]] ∧
        c.buffer.readableBytes = 0 :=
  requests_delivered ⟨readDecimalLine, fun _ => [110, 117, 108, 108], .asserting⟩
    readsDecimals_readDecimalLine [.null, .null]
    (fun _ _ => show 4 + 2 < 100 * 1024 * 1024 by decide) idle (fun _ _ _ => ⟨(), rfl⟩) _
    (by decide) ()

/-- **The client takes all responses exactly when each is below its limit.**
The frames of any sequence of responses whose length fits the `Int32` of the
length line, cut into chunks in any way: `handleMessage` returns on every chunk,
hands every text with its `"\r\n"` to `handleResponse` once and in order, and
leaves no byte, if and only if every text is shorter than `65536 - 2` bytes. -/
theorem responses_delivered_iff {σ : Type} (codec : Codec) (hp : ReadsDecimals codec.parse)
    (responses : List Json) (hsize : ∀ v ∈ responses, (codec.write v).length + 2 < 2 ^ 31)
    (handleResponse : Bytes → CppM ResponseException σ Unit)
    (hh : ∀ v ∈ responses, ∀ x, ∃ y, handleResponse (codec.write v ++ kCRLF) x = .ok () y)
    (chunks : List Bytes)
    (hc : chunks.flatten = (responses.map (BaseServer.sendResponse codec)).flatten) (x : σ) :
    (∃ c, deliver (BaseClient.handleMessage codec.parse handleResponse) chunks (init x) =
        .ok () c ∧ c.calls = responses.map (fun v => codec.write v ++ kCRLF) ∧
          c.buffer.readableBytes = 0) ↔
      ∀ v ∈ responses, (codec.write v).length + 2 < 65536 := by
  have hframes : responses.map (BaseServer.sendResponse codec) =
      (responses.map codec.write).map frame := by
    rw [List.map_map]
    rfl
  have hlim : BaseClient.kMaxMessageLen ≤ 2 ^ 31 := by decide
  rw [hframes] at hc
  constructor
  · rintro ⟨c, hres, hcalls, -⟩
    by_contra hlong
    simp only [not_forall, not_lt] at hlong
    obtain ⟨v, hv, hvl⟩ := hlong
    refine not_deliver_frames (F := BaseClient.rules codec.parse)
      BaseClient.handleMessage_simulates rfl hp hlim ?_
      ⟨codec.write v, List.mem_map_of_mem hv, hvl⟩ hc hres ?_
    · intro t ht
      obtain ⟨v, hv, rfl⟩ := List.mem_map.1 ht
      exact hsize v hv
    · rw [hcalls, List.map_map]
      rfl
  · intro hsmall
    obtain ⟨c, hres, hcalls, hr⟩ := deliver_frames
      (F := BaseClient.rules codec.parse) BaseClient.handleMessage_simulates rfl rfl
      (fun _ => id) hp hlim
      (by
        intro t ht
        obtain ⟨v, hv, rfl⟩ := List.mem_map.1 ht
        exact hsmall v hv)
      (by
        intro t ht
        obtain ⟨v, hv, rfl⟩ := List.mem_map.1 ht
        exact hh v hv)
      hc x
    refine ⟨c, hres, ?_, by rw [← Buffer.length_readable, hr, List.length_nil]⟩
    rw [hcalls, List.map_map]
    rfl

/-- The text of the JSON string of `n` letters `a`. -/
def stringText (n : ℕ) : Bytes := 34 :: List.replicate n 97 ++ [34]

@[simp] theorem length_stringText (n : ℕ) : (stringText n).length = n + 2 := by
  simp [stringText]

/-- The hypotheses of `responses_delivered_iff` are satisfiable: a string of two
letters, delivered at once. -/
theorem responses_delivered_string :
    (∃ c, deliver (BaseClient.handleMessage readDecimalLine idle)
        [[54, 13, 10, 34, 97, 97, 34, 13, 10]] (init ()) = .ok () c ∧
          c.calls = [[34, 97, 97, 34, 13, 10]] ∧ c.buffer.readableBytes = 0) ↔
      ∀ v ∈ [Json.string "aa"], ((fun _ => stringText 2) v).length + 2 < 65536 :=
  responses_delivered_iff ⟨readDecimalLine, fun _ => stringText 2, .asserting⟩
    readsDecimals_readDecimalLine [.string "aa"] (fun _ _ => show 4 + 2 < 2 ^ 31 by decide)
    idle (fun _ _ _ => ⟨(), rfl⟩) _
    (by decide) ()

/-- A string of 65532 letters or more is not taken. -/
theorem not_deliver_string {n : ℕ} (h₁ : 65532 ≤ n) (h₂ : n + 4 < 2 ^ 31) (v : Json) :
    ¬ ∃ c, deliver (BaseClient.handleMessage readDecimalLine idle)
        [BaseServer.sendResponse ⟨readDecimalLine, fun _ => stringText n, .asserting⟩ v]
        (init ()) = .ok () c ∧
      c.calls = [stringText n ++ kCRLF] ∧ c.buffer.readableBytes = 0 := by
  rintro ⟨c, hres, hcalls, -⟩
  have hsize : ∀ t ∈ [stringText n], t.length + 2 < 2 ^ 31 := by
    intro t ht
    rw [List.mem_singleton.1 ht, length_stringText]
    omega
  have hlong : ∃ t ∈ [stringText n], BaseClient.kMaxMessageLen ≤ t.length + 2 :=
    ⟨_, List.mem_singleton_self _, by
      rw [length_stringText]
      unfold BaseClient.kMaxMessageLen
      omega⟩
  exact not_deliver_frames (F := BaseClient.rules readDecimalLine)
    BaseClient.handleMessage_simulates rfl readsDecimals_readDecimalLine
    (show BaseClient.kMaxMessageLen ≤ 2 ^ 31 by decide) hsize hlong rfl hres hcalls

/-- **The string of 65532 letters is refused.**  Its frame, which `sendResponse`
puts on the wire with the length 65536, fits the `Int32` of the length line, but
`handleMessage` does not hand it over. -/
theorem string_refused :
    (stringText 65532).length + 2 < 2 ^ 31 ∧
      ¬ ∃ c, deliver (BaseClient.handleMessage readDecimalLine idle)
          [BaseServer.sendResponse ⟨readDecimalLine, fun _ => stringText 65532, .asserting⟩
            (.string (String.ofList (List.replicate 65532 'a')))] (init ()) = .ok () c ∧
        c.calls = [stringText 65532 ++ kCRLF] ∧ c.buffer.readableBytes = 0 :=
  ⟨by rw [length_stringText]; decide, not_deliver_string (by decide) (by decide) _⟩

end BearRpc
