/-
# The grammar of requests

`RpcServer::handleSingleRequest` (`bearTcpServer.cc`, lines 297 to 320) with the
invocation at its end, and the request objects for which it happens.

`validateRequest` never looks for a member it does not know, nor for one that
comes twice.  It counts the members and compares with the fields it has found:
three or four different names in a list of three or four are the whole list
(`perm_of_subset`), so the count excludes both at once (`validRequest_iff`).

The body of `Procedure::invoke` is missing from the source, so it is a parameter
that may change the state and throw as it likes.  An invocation is recorded in
`Invocations`, and leaves in `rest` what one run of the body leaves.
-/

import BearRpc.Server.Requests
import BearRpc.Connection

namespace BearRpc
namespace RpcServer

variable {P N σ : Type}

/-- The invocations of procedures so far, and whatever else there is. -/
structure Invocations (P σ : Type) where
  invoked : List (P × Json)
  rest : σ

/-- `it->second->invoke(request, done)` -/
def invokeProcedure (body : P → Json → CppM RequestException σ Unit) (procedure : P)
    (request : Json) : CppM RequestException (Invocations P σ) Unit := fun c =>
  match body procedure request c.rest with
  | .ok () rest => .ok () ⟨c.invoked ++ [(procedure, request)], rest⟩
  | .error e rest => .error e ⟨c.invoked ++ [(procedure, request)], rest⟩

/-- `RpcServer::handleSingleRequest`, with the invocation it ends in. -/
def invokeSingleRequest (services : ServiceList P N)
    (body : P → Json → CppM RequestException σ Unit) (request : Json) :
    CppM RequestException (Invocations P σ) Unit :=
  match handleSingleRequest services request with
  | .ok procedure => invokeProcedure body procedure request
  | .error e => throw (.thrown e)

/-- The names of the members, in any order, each once and nothing else. -/
def RequestFields (ms : List (String × Json)) : Prop :=
  (ms.map Prod.fst).Perm ["jsonrpc", "method", "id"] ∨
    (ms.map Prod.fst).Perm ["jsonrpc", "method", "id", "params"]

/-- The object with the members `ms` is a request for the procedure `p`. -/
structure Grammatical (services : ServiceList P N) (ms : List (String × Json)) (p : P) :
    Prop where
  fields : RequestFields ms
  version : ("jsonrpc", .string "2.0") ∈ ms
  id : ∃ w, ("id", w) ∈ ms ∧ w.getType ∈ [.string, .null, .int32, .int64]
  method : ∃ (s m : String) (service : RpcService P N), ("method", .string (s ++ "." ++ m)) ∈ ms ∧
    '.' ∉ s.toList ∧ services.lookup s = some service ∧ m ≠ "" ∧
    service.procedureReturn.lookup m = some p

variable {services : ServiceList P N} {ms : List (String × Json)} {p : P} {method : String}

/-! ### Counting the members -/

/-- Different names that are all there, and no more places than names. -/
theorem perm_of_subset {names fields : List String} (hnd : fields.Nodup) (hsub : fields ⊆ names)
    (hlen : names.length = fields.length) : names.Perm fields :=
  ((List.subperm_of_subset hnd hsub).perm_of_length_le (Nat.le_of_eq hlen)).symm

/-- What `findMember` finds is a member. -/
theorem mem_of_findMember {key : String} {w : Json}
    (h : (Json.object ms).findMember key = some w) : (key, w) ∈ ms := by
  obtain ⟨m, hm, rfl⟩ := Option.map_eq_some_iff.1 h
  have hname : m.1 = key := by simpa using List.find?_some hm
  rw [← hname]
  exact List.mem_of_find?_eq_some hm

/-- A member's name is among the names. -/
theorem mem_names {key : String} {w : Json} (h : (key, w) ∈ ms) : key ∈ ms.map Prod.fst :=
  List.mem_map.2 ⟨_, h, rfl⟩

/-- The four fields of the protocol have different names, so a request that has just these
holds none of them twice. -/
theorem RequestFields.nodup (h : RequestFields ms) : (ms.map Prod.fst).Nodup := by
  rcases h with h | h
  · exact h.nodup_iff.2 (by decide)
  · exact h.nodup_iff.2 (by decide)

/-- `findMember` finds parameters if there is a member with that name, of whatever type. -/
theorem hasParams_iff : hasParams (.object ms) = true ↔ "params" ∈ ms.map Prod.fst := by
  rw [hasParams, ← Option.not_isNone, Bool.not_eq_true', ← Bool.not_eq_true,
    Option.isNone_iff_eq_none, Json.findMember_eq_none_iff, not_not]

/-- The size of an object counts its members, names that come twice included. -/
theorem getSize_eq : (Json.object ms).getSize = (ms.map Prod.fst).length :=
  (List.length_map _).symm

/-- A request has as many members as fields were found. -/
theorem RequestFields.getSize (h : RequestFields ms) :
    (Json.object ms).getSize = 3 + (hasParams (.object ms)).toNat := by
  rw [getSize_eq]
  rcases h with h | h
  · have hno : hasParams (.object ms) = false := by
      rw [← Bool.not_eq_true, hasParams_iff, h.mem_iff]
      decide
    rw [h.length_eq, hno]
    rfl
  · have hyes : hasParams (.object ms) = true := by
      rw [hasParams_iff, h.mem_iff]
      decide
    rw [h.length_eq, hyes]
    rfl

/-- **The count excludes what is unknown and what is repeated**: `findMember` has found the
three members, and with `params`, if it is there, they are all there is. -/
theorem requestFields_of_getSize {u v w : Json} (hu : ("jsonrpc", u) ∈ ms)
    (hv : ("method", v) ∈ ms) (hw : ("id", w) ∈ ms)
    (hsize : (Json.object ms).getSize = 3 + (hasParams (.object ms)).toNat) :
    RequestFields ms := by
  have hlen : (ms.map Prod.fst).length = 3 + (hasParams (.object ms)).toNat := by
    rw [← getSize_eq, hsize]
  have hsub : ["jsonrpc", "method", "id"] ⊆ ms.map Prod.fst := by
    simp only [List.cons_subset, mem_names hu, mem_names hv, mem_names hw, List.nil_subset,
      and_self]
  cases hp : hasParams (.object ms) with
  | false =>
    rw [hp] at hlen
    exact .inl (perm_of_subset (by decide) hsub hlen)
  | true =>
    rw [hp] at hlen
    refine .inr (perm_of_subset (by decide) ?_ hlen)
    exact List.append_subset.2 ⟨hsub, List.cons_subset.2 ⟨hasParams_iff.1 hp, List.nil_subset _⟩⟩

/-! ### The grammar -/

/-- **What `validateRequest` accepts of an object**, by its members: no others than these,
none twice, and each of the type that the protocol asks for. -/
theorem validRequest_iff : ValidRequest (.object ms) method ↔
    RequestFields ms ∧ ("jsonrpc", .string "2.0") ∈ ms ∧
      (∃ w, ("id", w) ∈ ms ∧ w.getType ∈ idTypes) ∧ ("method", .string method) ∈ ms ∧
      method ≠ "rpc." := by
  constructor
  · rintro ⟨⟨w, hw, ht⟩, hv, hm, hne, hsize⟩
    have hfields := requestFields_of_getSize (mem_of_findMember hv) (mem_of_findMember hm)
      (mem_of_findMember hw) hsize
    exact ⟨hfields, mem_of_findMember hv, ⟨w, mem_of_findMember hw, ht⟩, mem_of_findMember hm, hne⟩
  · rintro ⟨hfields, hv, ⟨w, hw, ht⟩, hm, hne⟩
    have find {key : String} {x : Json} (h : (key, x) ∈ ms) :
        (Json.object ms).findMember key = some x :=
      (Json.findMember_eq_some_iff hfields.nodup).2 h
    exact ⟨⟨w, find hw, ht⟩, find hv, find hm, hne, hfields.getSize⟩

/-- The name kept for internal use has no method in it. -/
theorem append_ne_internal {s m : String} (dot : '.' ∉ s.toList) (named : m ≠ "") :
    s ++ "." ++ m ≠ "rpc." := by
  intro h
  have hlen : findDot (s ++ "." ++ m) = some s.length := findDot_append dot
  have hm : removePrefix (s ++ "." ++ m) (s.length + 1) = m := removePrefix_append s m
  rw [h] at hlen hm
  have hthree : s.length = 3 := by
    have hdot : findDot "rpc." = some 3 := by decide
    rw [hdot, Option.some.injEq] at hlen
    exact hlen.symm
  rw [hthree] at hm
  exact named (by rw [← hm]; decide)

/-- **The checks of the server are the grammar.**  An object reaches a procedure through the
checks of `validateRequest` and the two lookups exactly if it is a request of the grammar
for that procedure. -/
theorem acceptedRequest_iff_grammatical :
    AcceptedRequest services (.object ms) p ↔ Grammatical services ms p := by
  constructor
  · rintro ⟨valid, dot, registered, named, procedure⟩
    obtain ⟨hfields, hv, hid, hm, -⟩ := validRequest_iff.1 valid
    exact ⟨hfields, hv, hid, _, _, _, hm, dot, registered, named, procedure⟩
  · rintro ⟨hfields, hv, hid, s, m, service, hm, dot, registered, named, procedure⟩
    have valid : ValidRequest (.object ms) (s ++ "." ++ m) :=
      validRequest_iff.2 ⟨hfields, hv, hid, hm, append_ne_internal dot named⟩
    exact .intro valid dot registered named procedure

/-! ### The invocation -/

variable (body : P → Json → CppM RequestException σ Unit)

/-- The state a call ends in, whichever way it ends. -/
def finalState {ε τ : Type} : EStateM.Result ε τ Unit → τ
  | .ok _ s => s
  | .error _ s => s

/-- Whether or not the procedure raises an exception, it has been invoked once, with the
request itself. -/
theorem finalState_invokeProcedure (request : Json) (c : Invocations P σ) :
    (finalState (invokeProcedure body p request c)).invoked = c.invoked ++ [(p, request)] := by
  rw [invokeProcedure]
  cases body p request c.rest <;> rfl

/-- A request of the grammar gets through to its procedure, which is all that is left to do.
-/
theorem invokeSingleRequest_of_grammatical (h : Grammatical services ms p) :
    invokeSingleRequest services body (.object ms) = invokeProcedure body p (.object ms) := by
  rw [invokeSingleRequest, handleSingleRequest_of_accepted (acceptedRequest_iff_grammatical.2 h)]

/-- **An invocation ends as the body does**, run once: with what the body leaves of the
state if it returns, and with its exception if it throws. -/
theorem invokeProcedure_ends (request : Json) (c : Invocations P σ) :
    (∀ rest, body p request c.rest = .ok () rest →
      invokeProcedure body p request c = .ok () ⟨c.invoked ++ [(p, request)], rest⟩) ∧
    ∀ e rest, body p request c.rest = .error e rest →
      invokeProcedure body p request c = .error e ⟨c.invoked ++ [(p, request)], rest⟩ := by
  refine ⟨fun rest h => ?_, fun e rest h => ?_⟩
  · rw [invokeProcedure, h]
  · rw [invokeProcedure, h]

/-- Any other object ends in an exception before a procedure has been invoked, and leaves
the state as it is. -/
theorem invokeSingleRequest_of_not (h : ¬ ∃ p, Grammatical services ms p)
    (c : Invocations P σ) :
    ∃ e, invokeSingleRequest services body (.object ms) c = .error (.thrown e) c := by
  rcases handleSingleRequest_cases services (.object ms) with ⟨p, hp⟩ | ⟨err, d, hd⟩
  · exact absurd ⟨p, acceptedRequest_iff_grammatical.1 hp⟩ h
  · exact ⟨⟨err, usableId (.object ms), d⟩, by rw [invokeSingleRequest, hd]; rfl⟩

/-- **A request invokes a procedure exactly when it is in the grammar**: then it
invokes the one it names, once, ending as its body does and with what that
leaves, and otherwise it throws a `RequestException` and leaves everything as it
was. -/
theorem invokeSingleRequest_iff_grammatical (services : ServiceList P N)
    (ms : List (String × Json)) (c : Invocations P σ) :
    (∀ p, (finalState (invokeSingleRequest services body (.object ms) c)).invoked =
        c.invoked ++ [(p, .object ms)] ↔ Grammatical services ms p) ∧
      (∀ p, Grammatical services ms p →
        (∀ rest, body p (.object ms) c.rest = .ok () rest →
          invokeSingleRequest services body (.object ms) c =
            .ok () ⟨c.invoked ++ [(p, .object ms)], rest⟩) ∧
        ∀ e rest, body p (.object ms) c.rest = .error e rest →
          invokeSingleRequest services body (.object ms) c =
            .error e ⟨c.invoked ++ [(p, .object ms)], rest⟩) ∧
      ((∃ p, Grammatical services ms p) ∨
        ∃ e, invokeSingleRequest services body (.object ms) c = .error (.thrown e) c) := by
  refine ⟨fun p => ⟨fun h => ?_, fun h => ?_⟩, fun p h => ?_, ?_⟩
  · by_cases hg : ∃ q, Grammatical services ms q
    · obtain ⟨q, hq⟩ := hg
      rw [invokeSingleRequest_of_grammatical body hq, finalState_invokeProcedure] at h
      obtain rfl : q = p := by simpa using h
      exact hq
    · obtain ⟨e, he⟩ := invokeSingleRequest_of_not body hg c
      rw [he] at h
      exact absurd h (by simp [finalState])
  · rw [invokeSingleRequest_of_grammatical body h, finalState_invokeProcedure]
  · rw [invokeSingleRequest_of_grammatical body h]
    exact invokeProcedure_ends body (.object ms) c
  · by_cases hg : ∃ q, Grammatical services ms q
    · exact .inl hg
    · exact .inr (invokeSingleRequest_of_not body hg c)

/-- The grammar is satisfiable. -/
example : Grammatical oneService
    [("jsonrpc", .string "2.0"), ("method", .string "s.m"), ("id", .int32 1)] () :=
  acceptedRequest_iff_grammatical.1 (handleSingleRequest_eq_ok_iff.1 rfl)

end RpcServer
end BearRpc
