/-
# `BaseServer::handleMessage`

`src/RPC/bearTcpServer.cc`, lines 59 to 104, with the `handleRequest` of the
protocol class (`convert()`) as a parameter.  The loop is cut off after `fuel`
iterations; every iteration that does not leave it takes bytes off the buffer,
so one more than the readable bytes is enough, and `handleMessage` starts with
that many.

`handleMessage_simulates` is the specification of the loop: it is a receive loop
over the grammar of `rules`, in which an empty line ends the run.
-/

import BearRpc.Framing

namespace BearRpc

open Theory

namespace BaseServer

variable {σ : Type}

/-- `kMaxMessageLen` of `bearTcpServer.cc`. -/
def kMaxMessageLen : ℕ := 100 * 1024 * 1024

/-- The exception for a length line that is no positive `Int32`. -/
def invalidLength : Abrupt RpcException :=
  .thrown (.request ⟨.invalidRequest, .null, "invalid message length"⟩)

/-- The exception for a body of `kMaxMessageLen` bytes or more. -/
def messageTooLong : Abrupt RpcException :=
  .thrown (.request ⟨.invalidRequest, .null, "message is too long"⟩)

/-- The loop of `handleMessage`, `fuel` iterations of it. -/
def handleMessageLoop (parse : Bytes → Except String Json)
    (handleRequest : Bytes → CppM RpcException σ Unit) :
    ℕ → CppM RpcException (Connection σ) Unit
  | 0 => throw .outOfFuel
  | fuel + 1 => do
    let buffer := (← get).buffer
    match buffer.findCRLF with
    | none => return
    | some crlf =>
      if crlf = buffer.peek then
        Connection.retrieve 2
      else
        let headerLen := crlf - buffer.peek + 2
        match readHeader parse (buffer.bytesAt buffer.peek headerLen) with
        | none => throw invalidLength
        | some jsonLen =>
          if kMaxMessageLen ≤ jsonLen then
            throw messageTooLong
          else if buffer.readableBytes < headerLen + jsonLen then
            return
          else
            Connection.takeFrame handleRequest headerLen jsonLen
            handleMessageLoop parse handleRequest fuel

/-- `BaseServer::handleMessage` -/
def handleMessage (parse : Bytes → Except String Json)
    (handleRequest : Bytes → CppM RpcException σ Unit) :
    CppM RpcException (Connection σ) Unit := fun c =>
  handleMessageLoop parse handleRequest (c.buffer.readableBytes + 1) c

/-- `BaseServer::sendResponse`: the bytes given to `conn->send`. -/
def sendResponse (codec : Codec) (response : Json) : Bytes := frame (codec.write response)

/-- The frames `handleMessage` reads: empty lines are skipped, a line in error
stays in the buffer. -/
def rules (parse : Bytes → Except String Json) : FrameRules (Abrupt RpcException) where
  parse := parse
  limit := kMaxMessageLen
  emptyLines := true
  dropsLine := false
  invalidLength := invalidLength
  tooLong := messageTooLong

/-- `handleMessage` as a receive loop: an empty line ends the run. -/
def receiver (parse : Bytes → Except String Json)
    (handleRequest : Bytes → CppM RpcException σ Unit) :
    Receiver UInt8 Item σ (Abrupt RpcException) where
  grammar := (rules parse).grammar
  pause := (· = .blank)
  handle := Connection.serve handleRequest

variable {parse : Bytes → Except String Json} {handleRequest : Bytes → CppM RpcException σ Unit}

/-- **The loop is the receive loop of its rules**, as long as its fuel is more than the
unread bytes: every turn that goes on takes a byte at least. -/
theorem handleMessageLoop_simulates (fuel : ℕ) (c : Connection σ)
    (hfuel : c.buffer.readableBytes < fuel) :
    Connection.Simulates (receiver parse handleRequest) c
      (handleMessageLoop parse handleRequest fuel c) := by
  induction fuel generalizing c with
  | zero => omega
  | succ fuel ih =>
    have hlen := c.buffer.length_readable
    simp only [handleMessageLoop, bind, EStateM.bind, get_run, Buffer.findCRLF_eq]
    cases hs : search kCRLF c.buffer.readable with
    | none =>
      exact Connection.simulates_more
        (by simp [receiver, FrameRules.grammar, FrameRules.front, hs])
    | some k =>
      have hk := FrameRules.search_le_length hs
      have hpeek : (c.buffer.peek + k = c.buffer.peek) ↔ k = 0 := by omega
      have hfront := (rules parse).front_of_search hs
      simp only [Option.map_some, hpeek, Nat.add_sub_cancel_left]
      by_cases hk₀ : k = 0
      · -- an empty line: the code takes it off and leaves the loop
        subst hk₀
        obtain ⟨b, hb, hr⟩ := Connection.retrieve_eq (ε := RpcException) (c := c)
          (show 2 ≤ c.buffer.readableBytes by omega)
        rw [if_pos rfl, hb]
        exact ⟨[.blank], _, _, none, { c with buffer := b },
          .pause ((rules parse).front_item_of_blank hs rfl) rfl rfl, hr, rfl, by simp, rfl⟩
      · rw [if_neg fun h => hk₀ h.1] at hfront
        rw [if_neg hk₀, Buffer.bytesAt_peek (show k + 2 ≤ c.buffer.readableBytes by omega)]
        cases hh : readHeader parse (c.buffer.readable.take (k + 2)) with
        | none =>
          rw [show (rules parse).parse = parse from rfl, hh] at hfront
          exact Connection.simulates_bad hfront rfl
        | some len =>
          rw [show (rules parse).parse = parse from rfl, hh] at hfront
          simp only [FrameRules.body, hlen, show (rules parse).limit = kMaxMessageLen from rfl]
            at hfront
          dsimp only
          split_ifs at hfront ⊢ with hlim hshort
          · exact Connection.simulates_bad hfront rfl
          · exact Connection.simulates_more hfront
          · refine Connection.simulates_takeFrame rfl (fun _ h => Item.noConfusion h) hfront
              (Nat.not_lt.1 hshort) fun c' hc' => ih c' ?_
            rw [← Buffer.length_readable, hc', List.length_drop]
            omega

/-- **`handleMessage` is the receive loop over its frames**: it never runs out
of iterations and no assertion of the buffer fails. -/
theorem handleMessage_simulates (c : Connection σ) :
    Connection.Simulates (receiver parse handleRequest) c (handleMessage parse handleRequest c) :=
  handleMessageLoop_simulates _ c (Nat.lt_succ_self _)

end BaseServer
end BearRpc
