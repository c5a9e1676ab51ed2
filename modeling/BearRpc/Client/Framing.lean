/-
# `BaseClient::handleMessage`

`src/RPC/bearTcpClinet.h`, lines 77 to 108, with `handleResponse` as a
parameter.  The loop differs from the server's in three places: the limit
`kMaxMessageLen` is `65536`, an empty line is a length line like any other, and
a line that is no positive `Int32` is dropped before the exception is thrown.
As there, `fuel` cuts the loop off and the readable bytes bound what it needs.
-/

import BearRpc.Framing

namespace BearRpc

open Theory

namespace BaseClient

variable {σ : Type}

/-- `kMaxMessageLen` of `bearTcpClinet.h`. -/
def kMaxMessageLen : ℕ := 65536

/-- The exception for a length line that is no positive `Int32`. -/
def invalidLength : Abrupt ResponseException := .thrown ⟨"invalid message length", none⟩

/-- The exception for a body of `kMaxMessageLen` bytes or more. -/
def messageTooLong : Abrupt ResponseException := .thrown ⟨"message is too long", none⟩

/-- The loop of `handleMessage`, `fuel` iterations of it. -/
def handleMessageLoop (parse : Bytes → Except String Json)
    (handleResponse : Bytes → CppM ResponseException σ Unit) :
    ℕ → CppM ResponseException (Connection σ) Unit
  | 0 => throw .outOfFuel
  | fuel + 1 => do
    let buffer := (← get).buffer
    match buffer.findCRLF with
    | none => return
    | some crlf =>
      let headerLen := crlf - buffer.peek + 2
      match readHeader parse (buffer.bytesAt buffer.peek headerLen) with
      | none =>
        Connection.retrieve headerLen
        throw invalidLength
      | some bodyLen =>
        if kMaxMessageLen ≤ bodyLen then
          throw messageTooLong
        else if buffer.readableBytes < headerLen + bodyLen then
          return
        else
          Connection.takeFrame handleResponse headerLen bodyLen
          handleMessageLoop parse handleResponse fuel

/-- `BaseClient::handleMessage` -/
def handleMessage (parse : Bytes → Except String Json)
    (handleResponse : Bytes → CppM ResponseException σ Unit) :
    CppM ResponseException (Connection σ) Unit := fun c =>
  handleMessageLoop parse handleResponse (c.buffer.readableBytes + 1) c

/-- `BaseClient::sendRequest`: the bytes given to `conn->send`. -/
def sendRequest (codec : Codec) (request : Json) : Bytes := frame (codec.write request)

/-- The frames `handleMessage` reads: there are no empty lines, and a line in
error is dropped. -/
def rules (parse : Bytes → Except String Json) : FrameRules (Abrupt ResponseException) where
  parse := parse
  limit := kMaxMessageLen
  emptyLines := false
  dropsLine := true
  invalidLength := invalidLength
  tooLong := messageTooLong

/-- `handleMessage` as a receive loop, which nothing pauses. -/
def receiver (parse : Bytes → Except String Json)
    (handleResponse : Bytes → CppM ResponseException σ Unit) :
    Receiver UInt8 Item σ (Abrupt ResponseException) where
  grammar := (rules parse).grammar
  pause := fun _ => False
  handle := Connection.serve handleResponse

variable {parse : Bytes → Except String Json}
  {handleResponse : Bytes → CppM ResponseException σ Unit}

theorem handleMessageLoop_simulates (fuel : ℕ) (c : Connection σ)
    (hfuel : c.buffer.readableBytes < fuel) :
    Connection.Simulates (receiver parse handleResponse) c
      (handleMessageLoop parse handleResponse fuel c) := by
  induction fuel generalizing c with
  | zero => omega
  | succ fuel ih =>
    have hlen := c.buffer.length_readable
    simp only [handleMessageLoop, bind, EStateM.bind, get_run, Buffer.findCRLF_eq]
    cases hs : search kCRLF c.buffer.readable with
    | none =>
      exact Connection.simulates_more (by simp [receiver, FrameRules.grammar, FrameRules.front, hs])
    | some k =>
      have hk := FrameRules.search_le_length hs
      have hfront := (rules parse).front_of_search hs
      rw [if_neg (by simp [rules]), show (rules parse).parse = parse from rfl] at hfront
      simp only [Option.map_some, Nat.add_sub_cancel_left]
      rw [Buffer.bytesAt_peek (show k + 2 ≤ c.buffer.readableBytes by omega)]
      cases hh : readHeader parse (c.buffer.readable.take (k + 2)) with
      | none =>
        obtain ⟨b, hb, hr⟩ := Connection.retrieve_eq (ε := ResponseException) (c := c)
          (show k + 2 ≤ c.buffer.readableBytes by omega)
        rw [hh] at hfront
        simp only [EStateM.bind, hb]
        exact Connection.simulates_bad hfront hr
      | some len =>
        rw [hh] at hfront
        simp only [FrameRules.body, hlen, show (rules parse).limit = kMaxMessageLen from rfl]
          at hfront
        dsimp only
        split_ifs at hfront ⊢ with hlim hshort
        · exact Connection.simulates_bad hfront rfl
        · exact Connection.simulates_more hfront
        · refine Connection.simulates_takeFrame rfl (fun _ => id) hfront
            (Nat.not_lt.1 hshort) fun c' hc' => ih c' ?_
          rw [← Buffer.length_readable, hc', List.length_drop]
          omega

/-- **`handleMessage` is the receive loop over its frames**: it never runs out
of iterations and no assertion of the buffer fails. -/
theorem handleMessage_simulates (c : Connection σ) :
    Connection.Simulates (receiver parse handleResponse) c
      (handleMessage parse handleResponse c) :=
  handleMessageLoop_simulates _ c (Nat.lt_succ_self _)

/-- The exceptions of the loop itself carry no id. -/
theorem thrown_of_bad {s : Bytes} {n : ℕ} {e : Abrupt ResponseException}
    (h : (rules parse).front s = .bad n e) : ∃ msg, e = .thrown ⟨msg, none⟩ := by
  rcases (rules parse).front_eq_bad h with rfl | rfl
  · exact ⟨_, rfl⟩
  · exact ⟨_, rfl⟩

/-- **One frame in the buffer**: its body is handed over, and the buffer is left empty,
whether the handler returns or throws. -/
theorem handleMessage_frame (hp : ReadsDecimals parse) {text : Bytes}
    (ht : text.length + 2 < kMaxMessageLen) {c : Connection σ}
    (hc : c.buffer.readable = frame text) :
    ∃ b, b.readable = [] ∧ handleMessage parse handleResponse c = Connection.outcome
      (Connection.serve handleResponse (.frame (text ++ kCRLF)) c.peer).2
      ⟨b, c.calls ++ [text ++ kCRLF],
        (Connection.serve handleResponse (.frame (text ++ kCRLF)) c.peer).1⟩ := by
  have hsim : Connection.Simulates (receiver parse handleResponse) c
      (handleMessage parse handleResponse c) := handleMessage_simulates c
  obtain ⟨is, r, y, o, c', hrec, hr, hy, hcalls, hres⟩ := hsim
  have hfront : (rules parse).front (frame text) =
      .item (frame text).length (.frame (text ++ kCRLF)) := by
    have h := (rules parse).front_frame hp (Nat.lt_trans ht (by decide)) []
    rw [if_neg (show ¬ (rules parse).limit ≤ text.length + 2 from Nat.not_le.2 ht)] at h
    rwa [List.append_nil] at h
  rw [hc] at hrec
  obtain ⟨rfl, rfl, hh⟩ := hrec.of_single hfront
    (by rw [List.drop_length]; exact (rules parse).front_nil)
  have hserve : Connection.serve handleResponse (.frame (text ++ kCRLF)) c.peer = (y, o) := hh
  rw [List.drop_length] at hr
  refine ⟨c'.buffer, hr, ?_⟩
  rw [hres, hserve]
  obtain ⟨b, calls, peer⟩ := c'
  simp only at hy hcalls
  rw [hy, hcalls]
  rfl

end BaseClient
end BearRpc
