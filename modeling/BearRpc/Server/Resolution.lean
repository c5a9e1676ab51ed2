/-
# The two ways a method name is resolved

`RpcServer::handleSingleRequest` and `RpcServer::handleSingleNotify`
(`bearTcpServer.cc`, lines 297 to 320 and 360 to 423) up to the call on the
service, and `RpcServer::addService` (lines 267 to 271), which builds the table.

The two validate with copies of one validator and cut the method name with
copies of one splitter.  The notify path also tests `pos == 0`; the request path
does not.  A service may be registered under the empty name, and then the same
object reaches it with an id and not without (`resolve_alike_iff`).
-/

import BearRpc.Server.Grammar

namespace BearRpc
namespace RpcServer

variable {P N : Type}

/-- `RpcServer::addService`, `none` for the failed assertion. -/
def addService (services : ServiceList P N) (serviceName : String) (service : RpcService P N) :
    Option (ServiceList P N) :=
  if findService services serviceName = none then some (services.insert serviceName service)
  else none

/-- The tables that calls of `addService` build. -/
inductive Built : ServiceList P N → Prop
  | empty : Built ∅
  | add {services services' : ServiceList P N} {s : String} {service : RpcService P N}
      (h : Built services) (add : addService services s service = some services') : Built services'

/-- The call on the service at the end of both handlers: `it->second`, found
under `serviceName`, and what is left of the method name. -/
structure Target (P N : Type) where
  serviceName : String
  service : RpcService P N
  methodName : String

variable (services : ServiceList P N)

/-- `RpcServer::handleSingleRequest` up to `service->callProcedureReturn`. -/
def resolveRequest (request : Json) : Except RequestException (Target P N) := do
  validateRequest request
  let id := request.get "id"
  let methodName := (request.get "method").getStringView
  match findDot methodName with
  | none => throw ⟨.invalidRequest, id, "missing service name in method"⟩
  | some pos =>
    let serviceName := substr methodName pos
    match findService services serviceName with
    | none => throw ⟨.methodNotFound, id, "service not found"⟩
    | some service =>
      let methodName := removePrefix methodName (pos + 1)
      if methodName.length = 0 then
        throw ⟨.invalidRequest, id, "missing method name in method"⟩
      else
        return ⟨serviceName, service, methodName⟩

/-- `RpcServer::handleSingleNotify` up to `service->callProcedureNotify`. -/
def resolveNotify (request : Json) : Except RpcException (Target P N) := do
  validateNotify request
  let methodName := (request.get "method").getStringView
  match findDot methodName with
  | none => throw (.notify ⟨.invalidRequest, "missing service name in method"⟩)
  | some pos =>
    if pos = 0 then
      throw (.notify ⟨.invalidRequest, "missing service name in method"⟩)
    else
      let serviceName := substr methodName pos
      match findService services serviceName with
      | none => throw (.request ⟨.methodNotFound, .null, "service not found"⟩)
      | some service =>
        let methodName := removePrefix methodName (pos + 1)
        if methodName.length = 0 then
          throw (.request ⟨.invalidRequest, .null, "missing method name in method"⟩)
        else
          return ⟨serviceName, service, methodName⟩

/-- The target is what the method text `s.m` names. -/
structure Names (services : ServiceList P N) (t : Target P N) : Prop where
  dot : '.' ∉ t.serviceName.toList
  registered : findService services t.serviceName = some t.service
  named : t.methodName ≠ ""

/-- The text of the method that names the target. -/
def Target.method (t : Target P N) : String := t.serviceName ++ "." ++ t.methodName

variable {services} {t : Target P N} {v : Json} {method : String}

/-! ### The table -/

/-- Every table is built by `addService`, so the names in it are arbitrary. -/
theorem built (services : ServiceList P N) : Built services := by
  refine AList.insertRec Built.empty (fun s service services hs ih => ?_) services
  refine .add ih (?_ : addService services s service = _)
  exact if_pos (AList.lookup_eq_none.2 hs)

/-! ### The handlers end in the call on the service -/

/-- A request is handled by resolving its method and then calling the procedure with a
result. -/
theorem handleSingleRequest_eq (services : ServiceList P N) (v : Json) :
    handleSingleRequest services v =
      (resolveRequest services v).bind fun t => callProcedureReturn t.service t.methodName v := by
  simp only [handleSingleRequest, resolveRequest, bind, Except.bind]
  cases validateRequest v with
  | error e => rfl
  | ok =>
    cases findDot (v.get "method").getStringView with
    | none => rfl
    | some pos =>
      dsimp only
      cases findService services (substr (v.get "method").getStringView pos) with
      | none => rfl
      | some service =>
        dsimp only
        split <;> rfl

/-- A notification is handled by resolving its method in the same way and then calling the
procedure without one. -/
theorem handleSingleNotify_eq (services : ServiceList P N) (v : Json) :
    handleSingleNotify services v =
      (resolveNotify services v).bind fun t => callProcedureNotify t.service t.methodName := by
  simp only [handleSingleNotify, resolveNotify, bind, Except.bind]
  cases validateNotify v with
  | error e => rfl
  | ok =>
    cases findDot (v.get "method").getStringView with
    | none => rfl
    | some pos =>
      dsimp only
      by_cases hpos : pos = 0
      · rw [if_pos hpos, if_pos hpos]
        rfl
      rw [if_neg hpos, if_neg hpos]
      cases findService services (substr (v.get "method").getStringView pos) with
      | none => rfl
      | some service =>
        dsimp only
        split <;> rfl

/-! ### What each path resolves -/

/-- **Where a request goes**: to the service in front of the first dot and the method behind
it, if the request is valid and both are there. -/
theorem resolveRequest_eq_ok_iff :
    resolveRequest services v = .ok t ↔ ValidRequest v t.method ∧ Names services t := by
  constructor
  · intro h
    rcases validateRequest_cases v with ⟨method, valid⟩ | ⟨err, d, hd⟩
    swap
    · simp only [resolveRequest, hd, bind, Except.bind] at h
      cases h
    simp only [resolveRequest, validateRequest_of_valid valid, bind, Except.bind,
      getStringView_get valid.has_method] at h
    rcases dot_cases method with hnone | ⟨s, m, rfl, dot⟩
    · rw [hnone] at h
      cases h
    simp only [findDot_append dot, substr_append, removePrefix_append, length_eq_zero_iff] at h
    cases registered : findService services s with
    | none =>
      rw [registered] at h
      cases h
    | some service =>
      rw [registered] at h
      by_cases named : m = ""
      · simp only [named, if_true] at h
        cases h
      · simp only [named, if_false] at h
        cases h
        exact ⟨valid, dot, registered, named⟩
  · rintro ⟨valid, dot, registered, named⟩
    rw [Target.method] at valid
    simp only [resolveRequest, validateRequest_of_valid valid, bind, Except.bind,
      getStringView_get valid.has_method, findDot_append dot, substr_append, registered,
      removePrefix_append, length_eq_zero_iff, named, if_false]
    rfl

/-- What `validateNotify` lets pass is valid. -/
theorem exists_validNotify {u : Unit} (h : validateNotify v = .ok u) :
    ∃ method, ValidNotify v method := by
  rcases validateNotify_cases v with hvalid | hv | ⟨hv, hm⟩ | ⟨e, he⟩
  · exact hvalid
  · obtain ⟨err, d, he⟩ := validateNotify_of_version hv
    cases he.symm.trans h
  · obtain ⟨err, d, he⟩ := validateNotify_of_method hv hm
    cases he.symm.trans h
  · cases he.symm.trans h

/-- **Where a notification goes**: not to the service with the empty name, since the
position of the dot must not be 0 here, but otherwise where a request goes. -/
theorem resolveNotify_eq_ok_iff : resolveNotify services v = .ok t ↔
    ValidNotify v t.method ∧ Names services t ∧ t.serviceName ≠ "" := by
  constructor
  · intro h
    have hvalid : ∃ method, ValidNotify v method := by
      cases hok : validateNotify v with
      | ok => exact exists_validNotify hok
      | error e =>
        simp only [resolveNotify, hok, bind, Except.bind] at h
        cases h
    obtain ⟨method, valid⟩ := hvalid
    simp only [resolveNotify, validateNotify_of_valid valid, bind, Except.bind,
      getStringView_get valid.has_method] at h
    rcases dot_cases method with hnone | ⟨s, m, rfl, dot⟩
    · rw [hnone] at h
      cases h
    simp only [findDot_append dot, substr_append, removePrefix_append, length_eq_zero_iff] at h
    by_cases nonempty : s = ""
    · simp only [nonempty, if_true] at h
      cases h
    rw [if_neg nonempty] at h
    cases registered : findService services s with
    | none =>
      rw [registered] at h
      cases h
    | some service =>
      rw [registered] at h
      by_cases named : m = ""
      · simp only [named, if_true] at h
        cases h
      · simp only [named, if_false] at h
        cases h
        exact ⟨valid, ⟨dot, registered, named⟩, nonempty⟩
  · rintro ⟨valid, ⟨dot, registered, named⟩, nonempty⟩
    rw [Target.method] at valid
    simp only [resolveNotify, validateNotify_of_valid valid, bind, Except.bind,
      getStringView_get valid.has_method, findDot_append dot, substr_append, registered,
      removePrefix_append, length_eq_zero_iff, named, nonempty, if_false]
    rfl

/-! ### The id member is all that differs -/

section WithId

variable {ms : List (String × Json)} {id : Json}

/-- A member that was added is found if there was none with the name before. -/
theorem findMember_addMember {key : String} {w : Json} :
    ((Json.object ms).addMember key w).findMember key =
      ((Json.object ms).findMember key).or (some w) := by
  simp only [Json.addMember, Json.findMember, Json.members, List.find?_append]
  cases ms.find? fun m => m.1 == key <;> simp

/-- Members with another name are found as before. -/
theorem findMember_addMember_of_ne {key other : String} {w : Json} (h : other ≠ key) :
    ((Json.object ms).addMember key w).findMember other = (Json.object ms).findMember other := by
  have hne : (key == other) = false := by simpa using h.symm
  simp [Json.addMember, Json.findMember, Json.members, List.find?_append, hne]

/-- **The two validators agree**, once the request has its id: what they ask of the other
members is the same. -/
theorem validRequest_addMember_iff (hms : "id" ∉ ms.map Prod.fst) (hid : id.getType ∈ idTypes) :
    ValidRequest ((Json.object ms).addMember "id" id) method ↔ ValidNotify (.object ms) method := by
  have hnone : (Json.object ms).findMember "id" = none := Json.findMember_eq_none_iff.2 hms
  have hsome : ((Json.object ms).addMember "id" id).findMember "id" = some id := by
    rw [findMember_addMember, hnone, Option.none_or]
  have hversion : ((Json.object ms).addMember "id" id).findMember "jsonrpc" =
      (Json.object ms).findMember "jsonrpc" := findMember_addMember_of_ne (by decide)
  have hmethod : ((Json.object ms).addMember "id" id).findMember "method" =
      (Json.object ms).findMember "method" := findMember_addMember_of_ne (by decide)
  have hparams : hasParams ((Json.object ms).addMember "id" id) = hasParams (.object ms) := by
    rw [hasParams, findMember_addMember_of_ne (by decide)]
    rfl
  have hsize : ((Json.object ms).addMember "id" id).getSize = (Json.object ms).getSize + 1 := by
    simp [Json.addMember, Json.getSize, Json.members]
  constructor
  · rintro ⟨-, hv, hm, hne, hcount⟩
    refine ⟨hversion ▸ hv, hmethod ▸ hm, hne, ?_⟩
    rw [hparams, hsize] at hcount
    omega
  · rintro ⟨hv, hm, hne, hcount⟩
    refine ⟨⟨id, hsome, hid⟩, hversion.trans hv, hmethod.trans hm, hne, ?_⟩
    rw [hparams, hsize]
    omega

/-- The notification is valid, its method is a dot and a name, and a service is
registered under the empty name. -/
inductive Nameless (services : ServiceList P N) (v : Json) : Prop
  | intro {m : String} {service : RpcService P N} (valid : ValidNotify v ("." ++ m))
      (named : m ≠ "") (registered : findService services "" = some service)

/-- The service with the empty name: its methods begin with the dot. -/
theorem empty_method (m : String) : "" ++ "." ++ m = "." ++ m := by simp

/-- **When the request path and the notify path resolve names alike**: the
object does not name a method of a service with the empty name. -/
theorem resolve_alike_iff (services : ServiceList P N) (hms : "id" ∉ ms.map Prod.fst)
    (hid : id.getType ∈ idTypes) :
    (∀ t, resolveNotify services (.object ms) = .ok t ↔
        resolveRequest services ((Json.object ms).addMember "id" id) = .ok t) ↔
      ¬ Nameless services (.object ms) := by
  have request (t : Target P N) :
      resolveRequest services ((Json.object ms).addMember "id" id) = .ok t ↔
        ValidNotify (.object ms) t.method ∧ Names services t := by
    rw [resolveRequest_eq_ok_iff, validRequest_addMember_iff hms hid]
  constructor
  · rintro halike ⟨valid, named, registered⟩
    rename_i m service
    have hreq : resolveRequest services ((Json.object ms).addMember "id" id) =
        .ok ⟨"", service, m⟩ := by
      refine (request _).2 ⟨?_, List.not_mem_nil, registered, named⟩
      rwa [Target.method, empty_method]
    exact (resolveNotify_eq_ok_iff.1 ((halike _).2 hreq)).2.2 rfl
  · intro hno t
    rw [request, resolveNotify_eq_ok_iff]
    refine ⟨fun ⟨valid, names, _⟩ => ⟨valid, names⟩, fun ⟨valid, names⟩ => ⟨valid, names, ?_⟩⟩
    intro hempty
    obtain ⟨serviceName, service, methodName⟩ := t
    obtain rfl : serviceName = "" := hempty
    refine hno ⟨?_, names.named, names.registered⟩
    rwa [Target.method, empty_method] at valid

/-- The paths agree on a method of a service with a name. -/
theorem resolve_alike_iff_oneService :
    "id" ∉ ([("jsonrpc", .string "2.0"), ("method", .string "s.m")] :
        List (String × Json)).map Prod.fst ∧ (Json.int32 1).getType ∈ idTypes ∧
      ((∀ t, resolveNotify oneService
            (.object [("jsonrpc", .string "2.0"), ("method", .string "s.m")]) = .ok t ↔
          resolveRequest oneService ((Json.object
            [("jsonrpc", .string "2.0"), ("method", .string "s.m")]).addMember "id" (.int32 1)) =
            .ok t) ↔
        ¬ Nameless oneService
          (.object [("jsonrpc", .string "2.0"), ("method", .string "s.m")])) :=
  ⟨by decide, by decide, resolve_alike_iff oneService (by decide) (by decide)⟩

/-- A service with the method `m`, registered under the empty name. -/
def namelessService : RpcService Unit Unit :=
  ⟨(∅ : AList fun _ : String => Unit).insert "m" (),
    (∅ : AList fun _ : String => Unit).insert "m" ()⟩

/-- **The paths differ on `.m`**: the request reaches the service with the empty
name, the notification is refused. -/
theorem not_resolve_alike_nameless : ¬ ∀ (services : ServiceList Unit Unit)
    (ms : List (String × Json)) (id : Json), Built services → "id" ∉ ms.map Prod.fst →
      id.getType ∈ idTypes → ∀ t, resolveNotify services (.object ms) = .ok t ↔
        resolveRequest services ((Json.object ms).addMember "id" id) = .ok t := by
  intro h
  have hadd : addService (∅ : ServiceList Unit Unit) "" namelessService =
      some ((∅ : ServiceList Unit Unit).insert "" namelessService) := rfl
  have hreq : resolveRequest ((∅ : ServiceList Unit Unit).insert "" namelessService)
      ((Json.object [("jsonrpc", .string "2.0"), ("method", .string ".m")]).addMember "id"
        (.int32 1)) = .ok ⟨"", namelessService, "m"⟩ := rfl
  have hnot := (h _ _ _ (.add .empty hadd) (by decide) (by decide) _).2 hreq
  cases hnot

end WithId

end RpcServer
end BearRpc
