/-
# The exceptions of the RPC layer

`src/RPC/RPCException.h`: the error codes with their texts, and the exception
types thrown by the server (`RequestException`, `NotifyException`) and by the
client (`ResponseException`).
-/

import BearRpc.Json

namespace BearRpc

/-- `enum Error`, wrapped by `RpcError`. -/
inductive RpcError where
  | parseError
  | invalidRequest
  | methodNotFound
  | invalidParams
  | internalError
  deriving DecidableEq, Repr

namespace RpcError

/-- `RpcError::asString` -/
def asString : RpcError → String
  | parseError => "Parse error"
  | invalidRequest => "Invalid request"
  | methodNotFound => "Method not found"
  | invalidParams => "Invalid params"
  | internalError => "Internal error"

/-- `RpcError::asCode` -/
def asCode : RpcError → Int32
  | parseError => -32700
  | invalidRequest => -32600
  | methodNotFound => -32601
  | invalidParams => -32602
  | internalError => -32603

end RpcError

/-- `class RequestException`; constructed without an id it holds a null one. -/
structure RequestException where
  err : RpcError
  id : Json
  detail : String

/-- `class NotifyException` -/
structure NotifyException where
  err : RpcError
  detail : String

/-- What the request handlers of the server throw. -/
inductive RpcException where
  | request (e : RequestException)
  | notify (e : NotifyException)

/-- `class ResponseException`, with its id where it has one. -/
structure ResponseException where
  msg : String
  id : Option Int32
  deriving DecidableEq, Repr

/-- How a call of the modelled code can end without returning: an exception, a
failed assertion, one of the JSON library, signed overflow, the use of an iterator
that has been invalidated, or a loop cut off before its end. -/
inductive Abrupt (ε : Type) where
  | thrown (e : ε)
  | assertion
  | library
  | overflow
  | undefined
  | outOfFuel

end BearRpc
