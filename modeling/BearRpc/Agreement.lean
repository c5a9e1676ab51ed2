/-
# Server and client agree on response objects

The server makes a response object in two places: a procedure answers through its
`UserCallback` (`utils.h`, lines 38 to 60), and `wrapException` makes one of a
`RequestException` (`bearTcpServer.cc`, lines 106 to 117).  The client takes a
response with exactly three members, an `Int32` id, the version `2.0`, and a result
or an error object.

`responses_understood` says that the two sides fit together: whatever a request
with an `Int32` id is answered with, the client takes it for an answer to the
call with that id, and tells its callback so.
-/

import BearRpc.Server.Batch
import BearRpc.Client.Callbacks

namespace BearRpc

open BaseClient BaseServer RpcServer

/-- The client takes `w` for an answer to the call `n`: it has this id, it is
valid, whatever the JSON library does with values that are no objects, and handling
it in any state in which the call waits invokes the callback of the call with `a`, and
no other. -/
structure Understood (n : Int32) (w : Json) (a : Reply) : Prop where
  id : w.findMember "id" = some (.int32 n)
  valid : ∀ codec, validateResponse codec w = .ok ()
  handled : ∀ {κ : Type} (codec : Codec) (growth : Theory.Growth)
    (react : History κ → κ → Reply → List (Action κ)) (s : State κ) (cb : κ),
    s.findCallback n.toInt = some cb →
      Theory.Ends (fun _ => Continues (s.history ++ [.response w, .invoked n.toInt cb a]))
        (fun _ => Continues (s.history ++ [.response w, .invoked n.toInt cb a]))
        (handleSingleResponse codec growth react w s)

/-- The error object that `wrapException` puts into its response. -/
def errorObject (e : RequestException) : Json :=
  .object [("code", .int32 e.err.asCode), ("message", .string e.err.asString),
    ("data", .string e.detail)]

variable {P N : Type} {v w : Json} {n : Int32} {a : Reply}

/-- What the client accepts, it understands. -/
theorem understood_of_wellFormed (hid : Identified w n) (hw : WellFormed w) (ha : Carries w a) :
    Understood n w a where
  id := hid.id
  valid _ := validateResponse_of_wellFormed hid hw
  handled _ _ _ _ _ hcb := handleSingleResponse_invokes hid hw ha hcb

/-- The answer of a procedure. -/
theorem understood_call (hid : v.findMember "id" = some (.int32 n)) (x : Json) :
    Understood n (UserCallback.call v x) ⟨x, false, false⟩ := by
  have hget : v.get "id" = .int32 n := Json.get_of_findMember hid
  have hcall : UserCallback.call v x =
      .object [("jsonrpc", .string "2.0"), ("id", .int32 n), ("result", x)] := by
    rw [UserCallback.call, hget]
    rfl
  rw [hcall]
  exact understood_of_wellFormed ⟨rfl, rfl⟩ ⟨rfl, .inl ⟨x, rfl⟩⟩ (.result rfl)

/-- The response made of an exception with an `Int32` id. -/
theorem understood_wrapException {e : RequestException} (hid : e.id = .int32 n) :
    Understood n (wrapException e) ⟨errorObject e, true, false⟩ := by
  have hwrap : wrapException e =
      .object [("jsonrpc", .string "2.0"), ("error", errorObject e), ("id", .int32 n)] := by
    rw [wrapException, hid]
    rfl
  rw [hwrap]
  exact understood_of_wellFormed ⟨rfl, rfl⟩ ⟨rfl, .inr ⟨_, rfl⟩⟩ (.error rfl rfl)

/-- **Every exception thrown on the way carries the id of the request**, if it has one of 32
bits: the id is read from the request before anything in it can be refused. -/
theorem id_of_handleSingleRequest (services : ServiceList P N)
    (hid : v.findMember "id" = some (.int32 n)) {e : RequestException}
    (he : handleSingleRequest services v = .error e) : e.id = .int32 n := by
  rcases handleSingleRequest_cases services v with ⟨p, hp⟩ | ⟨err, d, hd⟩
  · rw [handleSingleRequest_of_accepted hp] at he
    cases he
  · rw [hd] at he
    cases he
    exact usableId_eq hid (show ValueType.int32 ∈ idTypes by decide)

/-- **Server and client agree on response objects.**  For a request with an
`Int32` id, however `handleSingleRequest` ends: if it reaches a procedure, the
client understands every answer of the procedure as its result, and if it
throws, the client understands the response made of the exception as its error. -/
theorem responses_understood (services : ServiceList P N)
    (hid : v.findMember "id" = some (.int32 n)) :
    (∀ p, handleSingleRequest services v = .ok p → ∀ x,
      Understood n (UserCallback.call v x) ⟨x, false, false⟩) ∧
    ∀ e, handleSingleRequest services v = .error e →
      Understood n (wrapException e) ⟨errorObject e, true, false⟩ :=
  ⟨fun _ _ x => understood_call hid x,
    fun _ he => understood_wrapException (id_of_handleSingleRequest services hid he)⟩

/-- The hypothesis of `responses_understood` is satisfiable. -/
theorem responses_understood_oneRequest :
    (∀ p, handleSingleRequest oneService oneRequest = .ok p → ∀ x,
      Understood 1 (UserCallback.call oneRequest x) ⟨x, false, false⟩) ∧
    ∀ e, handleSingleRequest oneService oneRequest = .error e →
      Understood 1 (wrapException e) ⟨errorObject e, true, false⟩ :=
  responses_understood oneService rfl

end BearRpc
