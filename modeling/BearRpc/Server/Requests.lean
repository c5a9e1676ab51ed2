/-
# Requests and notifications

`bearTcpServer.cc`, lines 144 to 229, 297 to 320 and 360 to 423: the service
table, the validators with the field checks they share, and how a request or a
notification finds its procedure.

`Procedure::invoke` has no body in the source.  A procedure is a parameter of
the model (`P` for those that return, `N` for those that are notified), and
`handleSingleRequest` and `handleSingleNotify` return the procedure that the
code invokes with the request, or the exception thrown on the way to it.

`AcceptedRequest` and `AcceptedNotify` state which objects reach a procedure,
without the order in which the code checks them.  `handleSingleRequest_cases`
and `handleSingleNotify_cases` say all that the two handlers do: an accepted
object reaches its procedure, every other request is refused with its own id,
and a notification is refused with a `RequestException` exactly when it
`RaisesRequest`.
-/

import BearRpc.RPCException
import Mathlib.Data.List.AList

namespace BearRpc
namespace RpcServer

variable {P N : Type}

/-- `class RpcService`: the procedures by name. -/
structure RpcService (P N : Type) where
  procedureReturn : AList fun _ : String => P
  procedureNotify : AList fun _ : String => N

/-- `RpcServer::ServiceList`: the services by name. -/
abbrev ServiceList (P N : Type) := AList fun _ : String => RpcService P N

/-- `checkValueType<types...>(type)` -/
def checkValueType : List ValueType → ValueType → Except RequestException Unit
  | [], _ => throw ⟨.invalidRequest, .null, "bad type of at least one field"⟩
  | dst :: rest, type => if dst = type then pure () else checkValueType rest type

/-- `findValue<types...>(request, key)` -/
def findValue (types : List ValueType) (request : Json) (key : String) :
    Except RequestException Json :=
  match request.findMember key with
  | none => throw ⟨.invalidRequest, .null, "missing at least one field"⟩
  | some value => do
    checkValueType types value.getType
    return value

/-- `findValue<types...>(request, id, key)`: the exception gets the id. -/
def findValueWithId (types : List ValueType) (request id : Json) (key : String) :
    Except RequestException Json :=
  (findValue types request key).mapError fun e => ⟨e.err, id, e.detail⟩

/-- `isNotify(request)` -/
def isNotify (request : Json) : Bool := (request.findMember "id").isNone

/-- `hasParams(request)` -/
def hasParams (request : Json) : Bool := (request.findMember "params").isSome

/-- The types a request id may have. -/
def idTypes : List ValueType := [.string, .null, .int32, .int64]

/-- `RpcServer::validateRequest` -/
def validateRequest (request : Json) : Except RequestException Unit := do
  let id ← findValue idTypes request "id"
  let version ← findValueWithId [.string] request id "jsonrpc"
  if version.getStringView ≠ "2.0" then
    throw ⟨.invalidRequest, id, "jsonrpc version is unknown/unsupported"⟩
  let method ← findValueWithId [.string] request id "method"
  if method.getStringView = "rpc." then
    throw ⟨.methodNotFound, id, "method name is internal use"⟩
  if request.getSize ≠ 3 + (hasParams request).toNat then
    throw ⟨.invalidRequest, id, "unexpected field"⟩

/-- `RpcServer::validateNotify` -/
def validateNotify (request : Json) : Except RpcException Unit := do
  let version ← (findValue [.string] request "jsonrpc").mapError .request
  if version.getStringView ≠ "2.0" then
    throw (.notify ⟨.invalidRequest, "jsonrpc version is unknown/unsupported"⟩)
  let method ← (findValue [.string] request "method").mapError .request
  if method.getStringView = "rpc." then
    throw (.notify ⟨.methodNotFound, "method name is internal use"⟩)
  if request.getSize ≠ 2 + (hasParams request).toNat then
    throw (.notify ⟨.invalidRequest, "unexpected field"⟩)

/-- `methodName.find('.')` -/
def findDot (methodName : String) : Option ℕ := methodName.toList.idxOf? '.'

/-- `methodName.substr(0, pos)` -/
def substr (methodName : String) (pos : ℕ) : String := .ofList (methodName.toList.take pos)

/-- `methodName` after `remove_prefix(n)`. -/
def removePrefix (methodName : String) (n : ℕ) : String := .ofList (methodName.toList.drop n)

/-- `RpcService::callProcedureReturn`: the procedure invoked. -/
def callProcedureReturn (service : RpcService P N) (methodName : String) (request : Json) :
    Except RequestException P :=
  match service.procedureReturn.lookup methodName with
  | none => throw ⟨.methodNotFound, request.get "id", "method not found"⟩
  | some procedure => return procedure

/-- `RpcService::callProcedureNotify`: the procedure invoked. -/
def callProcedureNotify (service : RpcService P N) (methodName : String) :
    Except RpcException N :=
  match service.procedureNotify.lookup methodName with
  | none => throw (.notify ⟨.methodNotFound, "method not found"⟩)
  | some procedure => return procedure

variable (services : ServiceList P N)

/-- `services_.find(serviceName)` -/
def findService (serviceName : String) : Option (RpcService P N) := services.lookup serviceName

/-- `RpcServer::handleSingleRequest`: the procedure invoked with the request. -/
def handleSingleRequest (request : Json) : Except RequestException P := do
  validateRequest request
  let id := request.get "id"
  let methodName := (request.get "method").getStringView
  match findDot methodName with
  | none => throw ⟨.invalidRequest, id, "missing service name in method"⟩
  | some pos =>
    match findService services (substr methodName pos) with
    | none => throw ⟨.methodNotFound, id, "service not found"⟩
    | some service =>
      let methodName := removePrefix methodName (pos + 1)
      if methodName.length = 0 then
        throw ⟨.invalidRequest, id, "missing method name in method"⟩
      else
        callProcedureReturn service methodName request

/-- `RpcServer::handleSingleNotify`: the procedure invoked with the request. -/
def handleSingleNotify (request : Json) : Except RpcException N := do
  validateNotify request
  let methodName := (request.get "method").getStringView
  match findDot methodName with
  | none => throw (.notify ⟨.invalidRequest, "missing service name in method"⟩)
  | some pos =>
    if pos = 0 then
      throw (.notify ⟨.invalidRequest, "missing service name in method"⟩)
    else
      match findService services (substr methodName pos) with
      | none => throw (.request ⟨.methodNotFound, .null, "service not found"⟩)
      | some service =>
        let methodName := removePrefix methodName (pos + 1)
        if methodName.length = 0 then
          throw (.request ⟨.invalidRequest, .null, "missing method name in method"⟩)
        else
          callProcedureNotify service methodName

/-! ### Which objects reach a procedure -/

/-- `v` passes `validateRequest`, and `method` is the text of its method. -/
structure ValidRequest (v : Json) (method : String) : Prop where
  has_id : ∃ w, v.findMember "id" = some w ∧ w.getType ∈ idTypes
  has_version : v.findMember "jsonrpc" = some (.string "2.0")
  has_method : v.findMember "method" = some (.string method)
  not_internal : method ≠ "rpc."
  no_other_field : v.getSize = 3 + (hasParams v).toNat

/-- `v` passes `validateNotify`, and `method` is the text of its method. -/
structure ValidNotify (v : Json) (method : String) : Prop where
  has_version : v.findMember "jsonrpc" = some (.string "2.0")
  has_method : v.findMember "method" = some (.string method)
  not_internal : method ≠ "rpc."
  no_other_field : v.getSize = 2 + (hasParams v).toNat

/-- The request `v` names the procedure `p`. -/
inductive AcceptedRequest (v : Json) (p : P) : Prop
  | intro {s m : String} {service : RpcService P N} (valid : ValidRequest v (s ++ "." ++ m))
      (dot : '.' ∉ s.toList) (registered : findService services s = some service) (named : m ≠ "")
      (procedure : service.procedureReturn.lookup m = some p)

/-- The notification `v` names the procedure `n`, of a service with a name. -/
inductive AcceptedNotify (v : Json) (n : N) : Prop
  | intro {s m : String} {service : RpcService P N} (valid : ValidNotify v (s ++ "." ++ m))
      (dot : '.' ∉ s.toList) (nonempty : s ≠ "")
      (registered : findService services s = some service)
      (named : m ≠ "") (procedure : service.procedureNotify.lookup m = some n)

/-- The notification `v` is refused with a `RequestException`: its version or
its method is no string, its service is unknown or its method has no name. -/
inductive RaisesRequest (v : Json) : Prop
  | version (h : ∀ s, v.findMember "jsonrpc" ≠ some (.string s))
  | method (version : v.findMember "jsonrpc" = some (.string "2.0"))
      (h : ∀ s, v.findMember "method" ≠ some (.string s))
  | name {s m : String} (valid : ValidNotify v (s ++ "." ++ m)) (dot : '.' ∉ s.toList)
      (nonempty : s ≠ "") (h : findService services s = none ∨ m = "")

/-- The id of a request where it has a permitted type, and null otherwise. -/
def usableId (v : Json) : Json :=
  match v.findMember "id" with
  | some w => if w.getType ∈ idTypes then w else .null
  | none => .null

/-! ### The field checks -/

variable {services} {v w : Json} {key method : String} {types : List ValueType} {p : P} {n : N}

/-- A type among those that are allowed passes the check. -/
theorem checkValueType_of_mem {type : ValueType} (h : type ∈ types) :
    checkValueType types type = .ok () := by
  induction types with
  | nil => cases h
  | cons dst rest ih =>
    by_cases hd : dst = type
    · simp [checkValueType, hd, pure, Except.pure]
    · rw [checkValueType, if_neg hd]
      exact ih ((List.mem_cons.1 h).resolve_left (Ne.symm hd))

/-- Any other type is refused as an invalid request, with a null id, whatever the request's
own id is. -/
theorem checkValueType_of_not_mem {type : ValueType} (h : type ∉ types) :
    ∃ d, checkValueType types type = .error ⟨.invalidRequest, .null, d⟩ := by
  induction types with
  | nil => exact ⟨_, rfl⟩
  | cons dst rest ih =>
    rw [List.mem_cons, not_or] at h
    rw [checkValueType, if_neg (Ne.symm h.1)]
    exact ih h.2

/-- A field that is there and has an allowed type is found. -/
theorem findValue_of_mem (hw : v.findMember key = some w) (ht : w.getType ∈ types) :
    findValue types v key = .ok w := by
  simp only [findValue, hw, checkValueType_of_mem ht]
  rfl

/-- **A field that is missing or has another type is refused**, in both cases as an invalid
request with a null id; only the detail tells them apart. -/
theorem findValue_of_not (h : ∀ w, v.findMember key = some w → w.getType ∉ types) :
    ∃ d, findValue types v key = .error ⟨.invalidRequest, .null, d⟩ := by
  cases hw : v.findMember key with
  | none => exact ⟨_, by simp only [findValue, hw]; rfl⟩
  | some w =>
    obtain ⟨d, hd⟩ := checkValueType_of_not_mem (h w hw)
    exact ⟨d, by simp only [findValue, hw, hd]; rfl⟩

/-- A field that has to be a string. -/
theorem findValue_string {s : String} (h : v.findMember key = some (.string s)) :
    findValue [.string] v key = .ok (.string s) :=
  findValue_of_mem h (by simp [Json.getType])

/-- The same for the fields that have to be strings: one that is missing is refused like one
of another type. -/
theorem findValue_not_string (h : ∀ s, v.findMember key ≠ some (.string s)) :
    ∃ d, findValue [.string] v key = .error ⟨.invalidRequest, .null, d⟩ := by
  refine findValue_of_not fun w hw ht => ?_
  exact h w.getStringView (by rw [hw, ← Json.getType_eq_string (List.mem_singleton.1 ht)])

/-- The id that an error response repeats is the one of the request, if that has a type that
an id may have. -/
theorem usableId_eq (hw : v.findMember "id" = some w) (ht : w.getType ∈ idTypes) :
    usableId v = w := by
  rw [usableId, hw]
  exact if_pos ht

/-! ### The validators -/

/-- Every request with the four fields in order passes `validateRequest`. -/
theorem validateRequest_of_valid (h : ValidRequest v method) : validateRequest v = .ok () := by
  obtain ⟨w, hw, ht⟩ := h.has_id
  simp [validateRequest, findValueWithId, findValue_of_mem hw ht, findValue_string h.has_version,
    findValue_string h.has_method, Except.mapError, bind, Except.bind, Json.getStringView,
    h.not_internal, h.no_other_field, pure, Except.pure]

/-- **`validateRequest` accepts the valid requests** and refuses every other
object with the id of the request, or null where it has no usable one. -/
theorem validateRequest_cases (v : Json) : (∃ method, ValidRequest v method) ∨
    ∃ err d, validateRequest v = .error ⟨err, usableId v, d⟩ := by
  by_cases hid : ∃ w, v.findMember "id" = some w ∧ w.getType ∈ idTypes
  swap
  · obtain ⟨d, hd⟩ := @findValue_of_not v "id" idTypes fun w hw ht => hid ⟨w, hw, ht⟩
    have hnull : usableId v = .null := by
      unfold usableId
      split
      · exact if_neg fun ht => hid ⟨_, ‹_›, ht⟩
      · rfl
    exact .inr ⟨.invalidRequest, d, by simp [validateRequest, hd, hnull, bind, Except.bind]⟩
  obtain ⟨w, hw, ht⟩ := hid
  rw [usableId_eq hw ht]
  simp only [validateRequest, findValueWithId, findValue_of_mem hw ht, bind, Except.bind]
  by_cases hv : ∃ s, v.findMember "jsonrpc" = some (.string s)
  swap
  · obtain ⟨d, hd⟩ := findValue_not_string fun s hs => hv ⟨s, hs⟩
    exact .inr ⟨.invalidRequest, d, by simp only [hd, Except.mapError]⟩
  obtain ⟨version, hv⟩ := hv
  by_cases hm : ∃ s, v.findMember "method" = some (.string s)
  swap
  · obtain ⟨d, hd⟩ := findValue_not_string fun s hs => hm ⟨s, hs⟩
    simp only [findValue_string hv, hd, Except.mapError, Json.getStringView]
    split_ifs
    · exact .inr ⟨_, _, rfl⟩
    · exact .inr ⟨_, _, rfl⟩
  obtain ⟨method, hm⟩ := hm
  simp only [findValue_string hv, findValue_string hm, Except.mapError, Json.getStringView]
  by_cases h₁ : version = "2.0"
  swap
  · exact .inr ⟨_, _, if_pos h₁⟩
  rw [if_neg (not_not.2 h₁)]
  by_cases h₂ : method = "rpc."
  · exact .inr ⟨_, _, if_pos h₂⟩
  by_cases h₃ : v.getSize = 3 + (hasParams v).toNat
  · exact .inl ⟨method, ⟨w, hw, ht⟩, h₁ ▸ hv, hm, h₂, h₃⟩
  · exact .inr ⟨.invalidRequest, "unexpected field", by simp [h₂, h₃]; rfl⟩

/-- Every notification with its fields in order passes `validateNotify`. -/
theorem validateNotify_of_valid (h : ValidNotify v method) : validateNotify v = .ok () := by
  simp [validateNotify, findValue_string h.has_version, findValue_string h.has_method,
    Except.mapError, bind, Except.bind, Json.getStringView, h.not_internal, h.no_other_field,
    pure, Except.pure]

/-- A notification without a version is refused by a `RequestException`, not a
`NotifyException`: the checks of fields throw the former. -/
theorem validateNotify_of_version (h : ∀ s, v.findMember "jsonrpc" ≠ some (.string s)) :
    ∃ err d, validateNotify v = .error (.request ⟨err, .null, d⟩) := by
  obtain ⟨d, hd⟩ := findValue_not_string h
  exact ⟨.invalidRequest, d, by simp only [validateNotify, hd, Except.mapError, bind, Except.bind]⟩

/-- A notification whose version is right but whose method is no string is refused by a
`RequestException`, too. -/
theorem validateNotify_of_method (hv : v.findMember "jsonrpc" = some (.string "2.0"))
    (h : ∀ s, v.findMember "method" ≠ some (.string s)) :
    ∃ err d, validateNotify v = .error (.request ⟨err, .null, d⟩) := by
  obtain ⟨d, hd⟩ := findValue_not_string h
  refine ⟨.invalidRequest, d, ?_⟩
  simp only [validateNotify, findValue_string hv, hd, Except.mapError, bind, Except.bind,
    Json.getStringView]
  rfl

/-- **What `validateNotify` does**: a notification with a field missing or of the
wrong type is refused with a `RequestException`, one with the wrong contents
with a `NotifyException`. -/
theorem validateNotify_cases (v : Json) : (∃ method, ValidNotify v method) ∨
    (∀ s, v.findMember "jsonrpc" ≠ some (.string s)) ∨
    (v.findMember "jsonrpc" = some (.string "2.0") ∧
      ∀ s, v.findMember "method" ≠ some (.string s)) ∨
    ∃ e, validateNotify v = .error (.notify e) := by
  by_cases hv : ∃ s, v.findMember "jsonrpc" = some (.string s)
  swap
  · exact .inr (.inl fun s hs => hv ⟨s, hs⟩)
  obtain ⟨version, hv⟩ := hv
  by_cases h₁ : version = "2.0"
  swap
  · refine .inr (.inr (.inr ⟨⟨.invalidRequest, "jsonrpc version is unknown/unsupported"⟩, ?_⟩))
    simp only [validateNotify, findValue_string hv, Except.mapError, bind, Except.bind,
      Json.getStringView]
    exact if_pos h₁
  subst h₁
  by_cases hm : ∃ s, v.findMember "method" = some (.string s)
  swap
  · exact .inr (.inr (.inl ⟨hv, fun s hs => hm ⟨s, hs⟩⟩))
  obtain ⟨method, hm⟩ := hm
  by_cases h₂ : method = "rpc."
  · refine .inr (.inr (.inr ⟨⟨.methodNotFound, "method name is internal use"⟩, ?_⟩))
    simp only [validateNotify, findValue_string hv, findValue_string hm, Except.mapError, bind,
      Except.bind, Json.getStringView]
    exact if_pos h₂
  by_cases h₃ : v.getSize = 2 + (hasParams v).toNat
  · exact .inl ⟨method, hv, hm, h₂, h₃⟩
  · refine .inr (.inr (.inr ⟨⟨.invalidRequest, "unexpected field"⟩, ?_⟩))
    simp only [validateNotify, findValue_string hv, findValue_string hm, Except.mapError, bind,
      Except.bind, Json.getStringView]
    simp [h₂, h₃]
    rfl

/-! ### The name of the method -/

/-- **The dot that is found** is the one between service and method, as long as the name of
the service has none: `find` looks for the first. -/
theorem findDot_append {s m : String} (h : '.' ∉ s.toList) :
    findDot (s ++ "." ++ m) = some s.length := by
  have hsplit : (s ++ "." ++ m).toList = s.toList ++ '.' :: m.toList := by simp
  rw [findDot, hsplit, ← String.length_toList]
  generalize s.toList = l at h
  induction l with
  | nil => simp [List.idxOf?_cons]
  | cons c l ih =>
    rw [List.mem_cons, not_or] at h
    rw [List.cons_append, List.idxOf?_cons, if_neg (by simpa using Ne.symm h.1), ih h.2]
    rfl

/-- What stands before it is the name of the service. -/
theorem substr_append (s m : String) : substr (s ++ "." ++ m) s.length = s := by
  rw [substr, String.toList_append, String.toList_append, List.append_assoc,
    ← String.length_toList, List.take_left, String.ofList_toList]

/-- What stands behind it is the name of the method, which may have dots itself. -/
theorem removePrefix_append (s m : String) : removePrefix (s ++ "." ++ m) (s.length + 1) = m := by
  have hlen : s.length + 1 = (s ++ ".").toList.length := by simp [String.length_toList]
  rw [removePrefix, String.toList_append, hlen, List.drop_left, String.ofList_toList]

/-- A text without a dot, or cut at its first dot. -/
theorem dot_cases (method : String) : findDot method = none ∨
    ∃ s m, method = s ++ "." ++ m ∧ '.' ∉ s.toList := by
  by_cases h : '.' ∈ method.toList
  · obtain ⟨l, r, hl, hn⟩ := List.eq_append_cons_of_mem h
    refine .inr ⟨.ofList l, .ofList r, ?_, by rwa [String.toList_ofList]⟩
    rw [← String.toList_inj]
    simp [hl]
  · exact .inl (List.idxOf?_eq_none_iff.2 h)

/-- A name has no letters only if it is empty. -/
theorem length_eq_zero_iff {m : String} : m.length = 0 ↔ m = "" := by
  rw [← String.length_toList, List.length_eq_zero_iff, ← String.toList_inj]
  rfl

/-! ### The handlers -/

/-- A field that was found to be a string is read as one. -/
theorem getStringView_get {s : String} (h : v.findMember key = some (.string s)) :
    (v.get key).getStringView = s := by
  rw [Json.get_of_findMember h]
  rfl

/-- A procedure that is registered under the name is the one that is called. -/
theorem callProcedureReturn_of_lookup {service : RpcService P N} {m : String}
    (h : service.procedureReturn.lookup m = some p) : callProcedureReturn service m v = .ok p := by
  rw [callProcedureReturn, h]
  rfl

/-- A procedure without a result that is registered under the name is the one that is
called. -/
theorem callProcedureNotify_of_lookup {service : RpcService P N} {m : String}
    (h : service.procedureNotify.lookup m = some n) : callProcedureNotify service m = .ok n := by
  rw [callProcedureNotify, h]
  rfl

/-- An accepted request reaches its procedure. -/
theorem handleSingleRequest_of_accepted (h : AcceptedRequest services v p) :
    handleSingleRequest services v = .ok p := by
  obtain ⟨valid, dot, registered, named, procedure⟩ := h
  simp only [handleSingleRequest, validateRequest_of_valid valid, bind, Except.bind,
    getStringView_get valid.has_method, findDot_append dot, substr_append, registered,
    removePrefix_append, length_eq_zero_iff, named, if_false,
    callProcedureReturn_of_lookup procedure]

/-- **Every request that is not accepted is refused with its own id**, or with null where it
has none of a type that can be used. -/
theorem handleSingleRequest_cases (services : ServiceList P N) (v : Json) :
    (∃ p, AcceptedRequest services v p) ∨
      ∃ err d, handleSingleRequest services v = .error ⟨err, usableId v, d⟩ := by
  rcases validateRequest_cases v with ⟨method, valid⟩ | ⟨err, d, hd⟩
  swap
  · exact .inr ⟨err, d, by simp only [handleSingleRequest, hd, bind, Except.bind]⟩
  obtain ⟨w, hw, ht⟩ := valid.has_id
  rw [usableId_eq hw ht]
  simp only [handleSingleRequest, validateRequest_of_valid valid, bind, Except.bind,
    getStringView_get valid.has_method, Json.get_of_findMember hw]
  rcases dot_cases method with hnone | ⟨s, m, rfl, dot⟩
  · rw [hnone]
    exact .inr ⟨_, _, rfl⟩
  simp only [findDot_append dot, substr_append, removePrefix_append]
  cases registered : findService services s with
  | none => exact .inr ⟨_, _, rfl⟩
  | some service =>
    by_cases named : m = ""
    · exact .inr ⟨_, _, if_pos (length_eq_zero_iff.2 named)⟩
    simp only [length_eq_zero_iff, named, if_false, callProcedureReturn]
    cases procedure : service.procedureReturn.lookup m with
    | none =>
      exact .inr ⟨.methodNotFound, "method not found", by rw [Json.get_of_findMember hw]; rfl⟩
    | some p => exact .inl ⟨p, valid, dot, registered, named, procedure⟩

/-- **Which requests reach a procedure**: the accepted ones, that is those that are valid
and name a service and one of its procedures. -/
theorem handleSingleRequest_eq_ok_iff :
    handleSingleRequest services v = .ok p ↔ AcceptedRequest services v p := by
  refine ⟨fun h => ?_, handleSingleRequest_of_accepted⟩
  rcases handleSingleRequest_cases services v with ⟨q, hq⟩ | ⟨err, d, hd⟩
  · rw [handleSingleRequest_of_accepted hq] at h
    cases h
    exact hq
  · rw [hd] at h
    cases h

/-- An accepted notification reaches its procedure. -/
theorem handleSingleNotify_of_accepted (h : AcceptedNotify services v n) :
    handleSingleNotify services v = .ok n := by
  obtain ⟨valid, dot, nonempty, registered, named, procedure⟩ := h
  simp only [handleSingleNotify, validateNotify_of_valid valid, bind, Except.bind,
    getStringView_get valid.has_method, findDot_append dot, substr_append, registered,
    removePrefix_append, length_eq_zero_iff, nonempty, named, if_false,
    callProcedureNotify_of_lookup procedure]

/-- **What makes a notification throw a `RequestException`** does so: this is the exception
for which `handleRequest` sends a response although nobody waits for one. -/
theorem handleSingleNotify_of_raises (h : RaisesRequest services v) :
    ∃ err d, handleSingleNotify services v = .error (.request ⟨err, .null, d⟩) := by
  cases h with
  | version h =>
    obtain ⟨err, d, hd⟩ := validateNotify_of_version h
    exact ⟨err, d, by simp only [handleSingleNotify, hd, bind, Except.bind]⟩
  | method version h =>
    obtain ⟨err, d, hd⟩ := validateNotify_of_method version h
    exact ⟨err, d, by simp only [handleSingleNotify, hd, bind, Except.bind]⟩
  | @name s m valid dot nonempty h =>
    simp only [handleSingleNotify, validateNotify_of_valid valid, bind, Except.bind,
      getStringView_get valid.has_method, findDot_append dot, substr_append, removePrefix_append,
      length_eq_zero_iff, nonempty, if_false]
    cases registered : findService services s with
    | none => exact ⟨_, _, rfl⟩
    | some service =>
      have hm : m = "" := h.resolve_left (by rw [registered]; exact Option.some_ne_none _)
      exact ⟨_, _, if_pos hm⟩

/-- **What becomes of a notification**: it reaches its procedure, it is refused
with a `RequestException`, or it is refused with a `NotifyException`. -/
theorem handleSingleNotify_cases (services : ServiceList P N) (v : Json) :
    (∃ n, AcceptedNotify services v n) ∨ RaisesRequest services v ∨
      ∃ e, handleSingleNotify services v = .error (.notify e) := by
  rcases validateNotify_cases v with ⟨method, valid⟩ | h | ⟨hv, h⟩ | ⟨e, he⟩
  · simp only [handleSingleNotify, validateNotify_of_valid valid, bind, Except.bind,
      getStringView_get valid.has_method]
    rcases dot_cases method with hnone | ⟨s, m, rfl, dot⟩
    · rw [hnone]
      exact .inr (.inr ⟨_, rfl⟩)
    simp only [findDot_append dot, substr_append, removePrefix_append, length_eq_zero_iff]
    by_cases nonempty : s = ""
    · exact .inr (.inr ⟨_, if_pos nonempty⟩)
    cases registered : findService services s with
    | none => exact .inr (.inl (.name valid dot nonempty (.inl registered)))
    | some service =>
      by_cases named : m = ""
      · exact .inr (.inl (.name valid dot nonempty (.inr named)))
      simp only [nonempty, named, if_false, callProcedureNotify]
      cases procedure : service.procedureNotify.lookup m with
      | none => exact .inr (.inr ⟨_, rfl⟩)
      | some n => exact .inl ⟨n, valid, dot, nonempty, registered, named, procedure⟩
  · exact .inr (.inl (.version h))
  · exact .inr (.inl (.method hv h))
  · exact .inr (.inr ⟨e, by simp only [handleSingleNotify, he, bind, Except.bind]⟩)

/-- **Which notifications reach a procedure**: the accepted ones; a service with the empty
name has none. -/
theorem handleSingleNotify_eq_ok_iff :
    handleSingleNotify services v = .ok n ↔ AcceptedNotify services v n := by
  refine ⟨fun h => ?_, handleSingleNotify_of_accepted⟩
  rcases handleSingleNotify_cases services v with ⟨q, hq⟩ | hr | ⟨e, he⟩
  · rw [handleSingleNotify_of_accepted hq] at h
    cases h
    exact hq
  · obtain ⟨err, d, hd⟩ := handleSingleNotify_of_raises hr
    rw [hd] at h
    cases h
  · rw [he] at h
    cases h

/-- A service table with the service `s` and its method `m`. -/
def oneService : ServiceList Unit Unit :=
  (∅ : ServiceList Unit Unit).insert "s"
    ⟨(∅ : AList fun _ : String => Unit).insert "m" (), ∅⟩

/-- The request for it with the id 1. -/
def oneRequest : Json :=
  .object [("jsonrpc", .string "2.0"), ("method", .string "s.m"), ("id", .int32 1)]

/-- `AcceptedRequest` is satisfiable. -/
example : AcceptedRequest oneService oneRequest () :=
  handleSingleRequest_eq_ok_iff.1 rfl

end RpcServer
end BearRpc
