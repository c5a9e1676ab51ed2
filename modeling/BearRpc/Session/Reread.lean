/-
# Values on the other side

A value is written by one side of a connection and read by the other.  The JSON
library reads an integer literal as `TYPE_INT32` where it fits 32 bits and as
`TYPE_INT64` otherwise, whatever type it was written from; so what arrives is
`reread` of what was sent.  `sendCall` writes its id from an `int64_t`, and the
server finds an `Int32` there as long as ids are short (`reread_numbered`).

A codec is `Faithful` to a value if it reads its text back in this sense.
-/

import BearRpc.Server.Grammar
import BearRpc.Server.Batch
import BearRpc.Client.Callbacks

namespace BearRpc

namespace Json

mutual

/-- What is read where `v` was written. -/
def reread : Json → Json
  | .null => .null
  | .bool b => .bool b
  | .int32 n => .int32 n
  | .int64 n => ofInteger n.toInt
  | .double bits => .double bits
  | .string s => .string s
  | .array values => .array (rereadValues values)
  | .object members => .object (rereadMembers members)

/-- The elements of an array. -/
def rereadValues : List Json → List Json
  | [] => []
  | v :: vs => v.reread :: rereadValues vs

/-- The members of an object. -/
def rereadMembers : List (String × Json) → List (String × Json)
  | [] => []
  | m :: ms => rereadMember m :: rereadMembers ms

/-- A member keeps its name. -/
def rereadMember : String × Json → String × Json
  | (key, v) => (key, v.reread)

end

/-- Members are read one by one; none is lost, and none is renamed. -/
theorem rereadMembers_eq_map (ms : List (String × Json)) :
    rereadMembers ms = ms.map fun m => (m.1, m.2.reread) := by
  induction ms with
  | nil => rfl
  | cons m ms ih =>
    obtain ⟨key, v⟩ := m
    rw [rereadMembers, ih]
    rfl

/-- The members of two lists one after the other are read in that order. -/
@[simp] theorem rereadMembers_append (ms ns : List (String × Json)) :
    rereadMembers (ms ++ ns) = rereadMembers ms ++ rereadMembers ns := by
  simp only [rereadMembers_eq_map, List.map_append]

/-- A member that was added is read as the last one. -/
theorem reread_addMember (v w : Json) (key : String) :
    (v.addMember key w).reread = .object (rereadMembers v.members ++ [(key, w.reread)]) := by
  rw [addMember, reread, rereadMembers_append]
  rfl

end Json

/-- The text of `v` is read as `v` on the other side. -/
def Codec.Faithful (codec : Codec) (v : Json) : Prop :=
  codec.parse (codec.write v ++ kCRLF) = .ok v.reread

namespace BaseClient

open RpcServer

variable {P N : Type} {services : ServiceList P N} {json : Json} {k : ℤ} {p : P}

/-- The request that `sendCall` makes of `call` under the id `k`. -/
def numbered (k : ℤ) (call : Json) : Json := call.addMember "id" (.int64 (Int64.ofInt k))

/-- **The id on the other side** is the one the client has given, if it has 32
bits and the server accepts the request: no member of the call itself may be
named `id`. -/
theorem reread_numbered (h₀ : 0 ≤ k) (hk : k < 2 ^ 31)
    (h : AcceptedRequest services (numbered k json).reread p) :
    (numbered k json).reread.findMember "id" = some (.int32 (Int32.ofInt k)) := by
  have htoInt : (Int64.ofInt k).toInt = k := Int64.toInt_ofInt_of_le (by omega) (by omega)
  have hid : Json.reread (.int64 (Int64.ofInt k)) = .int32 (Int32.ofInt k) := by
    rw [Json.reread, htoInt, Json.ofInteger, if_pos ⟨by omega, hk⟩]
  rw [numbered, Json.reread_addMember, hid] at h ⊢
  refine (Json.findMember_eq_some_iff (acceptedRequest_iff_grammatical.1 h).fields.nodup).2 ?_
  exact List.mem_append_right _ (List.mem_singleton_self _)

/-- The answer of a procedure on the other side. -/
theorem reread_call {v : Json} {n : Int32} (hid : v.findMember "id" = some (.int32 n)) (x : Json) :
    (UserCallback.call v x).reread =
      .object [("jsonrpc", .string "2.0"), ("id", .int32 n), ("result", x.reread)] := by
  rw [UserCallback.call, Json.get_of_findMember hid]
  rfl

/-- The client finds the id and the result in it. -/
theorem identified_call {v : Json} {n : Int32} (hid : v.findMember "id" = some (.int32 n))
    (x : Json) : Identified (UserCallback.call v x).reread n ∧
      WellFormed (UserCallback.call v x).reread ∧
        Carries (UserCallback.call v x).reread ⟨x.reread, false, false⟩ := by
  rw [reread_call hid]
  exact ⟨⟨rfl, rfl⟩, ⟨rfl, .inl ⟨_, rfl⟩⟩, .result rfl⟩

end BaseClient
end BearRpc
