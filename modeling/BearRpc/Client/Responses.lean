/-
# Responses as the client checks them

`bearTcpClinet.h`, lines 9 to 31 and 159 to 180: `BaseClient::validateResponse`
and the field checks it uses.  (The source calls them `findValue`, and defines
them as `ClinetfindValue`.)

A response is accepted if it is `Identified` and `WellFormed`.  Of the others,
those without an `Int32` id are refused without one
(`validateResponse_of_not_identified`), and those with one are refused with it
(`validateResponse_of_not_wellFormed`).  A response may be any value, as an element
of a batch is not looked at before; whether the library survives one that is no
object is up to the library.
-/

import BearRpc.RPCException

namespace BearRpc
namespace BaseClient

section Checks

variable (codec : Codec)

/-- `ClinetfindValue(value, key, type)` -/
def clinetFindValue (value : Json) (key : String) (type : ValueType) :
    Except (Abrupt ResponseException) Json :=
  match codec.findMember value key with
  | none => throw .library
  | some none => throw (.thrown ⟨"missing at least one field", none⟩)
  | some (some v) =>
    if v.getType ≠ type then throw (.thrown ⟨"bad type of at least one field", none⟩)
    else return v

/-- `ClinetfindValue(value, key, type, id)`: the exception gets the id. -/
def clinetFindValueWithId (value : Json) (key : String) (type : ValueType) (id : Int32) :
    Except (Abrupt ResponseException) Json :=
  (clinetFindValue codec value key type).mapError fun
    | .thrown e => .thrown ⟨e.msg, some id⟩
    | e => e

/-- `BaseClient::validateResponse` -/
def validateResponse (response : Json) : Except (Abrupt ResponseException) Unit := do
  if codec.getSize response ≠ 3 then
    throw (.thrown ⟨"response should have exactly 3 field(jsonrpc, error/result, id)", none⟩)
  let id := (← clinetFindValue codec response "id" .int32).getInt32
  let version := (← clinetFindValueWithId codec response "jsonrpc" .string id).getStringView
  if version ≠ "2.0" then
    throw (.thrown ⟨"unknown json rpc version", some id⟩)
  match codec.findMember response "result" with
  | none => throw .library
  | some (some _) => return
  | some none => let _ ← clinetFindValueWithId codec response "error" .object id

end Checks

/-- The response has three members, and the first named `id` is `n`. -/
structure Identified (r : Json) (n : Int32) : Prop where
  size : r.getSize = 3
  id : r.findMember "id" = some (.int32 n)

/-- The response has the version and a result or an error object. -/
structure WellFormed (r : Json) : Prop where
  version : r.findMember "jsonrpc" = some (.string "2.0")
  answer : (∃ v, r.findMember "result" = some v) ∨ ∃ e, r.findMember "error" = some (.object e)

variable {codec : Codec} {r v w : Json} {key : String} {type : ValueType} {n : Int32}

/-- A response with an id is an object. -/
theorem Identified.isObject (h : Identified r n) : r.isObject = true := by
  have hid := h.id
  cases r <;> first | rfl | simp [Json.findMember, Json.members] at hid

/-- In an object, the library finds what is there. -/
theorem findMember_of_isObject (h : v.isObject = true) (key : String) :
    codec.findMember v key = some (v.findMember key) := if_pos h

/-- A member of the type asked for is found. -/
theorem clinetFindValue_of_type (h : v.findMember key = some w) (ht : w.getType = type) :
    clinetFindValue codec v key type = .ok w := by
  simp only [clinetFindValue, Codec.findMember_of_some h]
  exact if_neg (not_not.2 ht)

/-- Without such a member, the value is refused, unless the library fails. -/
theorem clinetFindValue_of_not (codec : Codec)
    (h : ∀ w, v.findMember key = some w → w.getType ≠ type) :
    (∃ msg, clinetFindValue codec v key type = .error (.thrown ⟨msg, none⟩)) ∨
      clinetFindValue codec v key type = .error .library := by
  unfold clinetFindValue
  cases hw : v.findMember key with
  | none =>
    rcases codec.findMember_of_none hw with hf | hf <;> rw [hf]
    · exact .inl ⟨_, rfl⟩
    · exact .inr rfl
  | some w =>
    rw [Codec.findMember_of_some hw]
    exact .inl ⟨_, if_pos (h w hw)⟩

/-- An object without such a member is refused. -/
theorem clinetFindValue_of_isObject (codec : Codec) (ho : v.isObject = true)
    (h : ∀ w, v.findMember key = some w → w.getType ≠ type) :
    ∃ msg, clinetFindValue codec v key type = .error (.thrown ⟨msg, none⟩) := by
  simp only [clinetFindValue, findMember_of_isObject ho]
  cases hw : v.findMember key with
  | none => exact ⟨_, rfl⟩
  | some w => exact ⟨_, if_pos (h w hw)⟩

/-- With the id at hand, a member of the type asked for is found as well. -/
theorem clinetFindValueWithId_of_type (h : v.findMember key = some w) (ht : w.getType = type) :
    clinetFindValueWithId codec v key type n = .ok w := by
  rw [clinetFindValueWithId, clinetFindValue_of_type h ht]
  rfl

/-- A field of an object that has the wrong type, or is missing, is refused with
the id. -/
theorem clinetFindValueWithId_cases (codec : Codec) (ho : v.isObject = true) (key : String)
    (type : ValueType) (n : Int32) : (∃ w, v.findMember key = some w ∧ w.getType = type) ∨
      ∃ msg, clinetFindValueWithId codec v key type n = .error (.thrown ⟨msg, some n⟩) := by
  by_cases h : ∃ w, v.findMember key = some w ∧ w.getType = type
  · exact .inl h
  · obtain ⟨msg, hmsg⟩ := clinetFindValue_of_isObject codec ho
      fun w hw ht => h ⟨w, hw, ht⟩
    exact .inr ⟨msg, by rw [clinetFindValueWithId, hmsg]; rfl⟩

/-- The checks behind the one of the id. -/
theorem validateResponse_of_identified (hid : Identified r n) :
    validateResponse codec r =
      (clinetFindValueWithId codec r "jsonrpc" .string n).bind fun version =>
        if version.getStringView ≠ "2.0" then .error (.thrown ⟨"unknown json rpc version", some n⟩)
        else if (r.findMember "result").isSome then .ok ()
        else (clinetFindValueWithId codec r "error" .object n).bind fun _ => .ok () := by
  have hn : clinetFindValue codec r "id" .int32 = .ok (.int32 n) :=
    clinetFindValue_of_type hid.id rfl
  have hsize : codec.getSize r = 3 := (Codec.getSize_of_isObject hid.isObject).trans hid.size
  simp only [validateResponse, hsize, hn, findMember_of_isObject hid.isObject, bind, Except.bind,
    Json.getInt32, ne_eq, not_true_eq_false, if_false]
  rcases clinetFindValueWithId codec r "jsonrpc" .string n with e | version
  · rfl
  · dsimp only
    by_cases hv : version.getStringView = "2.0"
    · rw [if_neg (not_not.2 hv), if_neg (not_not.2 hv)]
      cases r.findMember "result" <;> rfl
    · rw [if_pos hv, if_pos hv]
      rfl

/-- **What `validateResponse` accepts**: three members, the version, an id of 32 bits, and a
result, or else an error that is an object. -/
theorem validateResponse_of_wellFormed (hid : Identified r n) (h : WellFormed r) :
    validateResponse codec r = .ok () := by
  have hversion : clinetFindValueWithId codec r "jsonrpc" .string n = .ok (.string "2.0") :=
    clinetFindValueWithId_of_type h.version rfl
  rw [validateResponse_of_identified hid, hversion]
  rcases h.answer with ⟨v, hv⟩ | ⟨e, he⟩
  · simp [Except.bind, Json.getStringView, hv]
  · have herror : clinetFindValueWithId codec r "error" .object n = .ok (.object e) :=
      clinetFindValueWithId_of_type he rfl
    simp [Except.bind, Json.getStringView, herror]

/-- A response without an `Int32` id is refused without an id, unless the library
fails on it. -/
theorem validateResponse_of_not_identified (codec : Codec) (h : ∀ n, ¬ Identified r n) :
    (∃ msg, validateResponse codec r = .error (.thrown ⟨msg, none⟩)) ∨
      validateResponse codec r = .error .library := by
  by_cases hs : codec.getSize r = 3
  swap
  · exact .inl ⟨_, by simp only [validateResponse, hs, ne_eq, not_false_eq_true, if_true]; rfl⟩
  have hid : ∀ w, r.findMember "id" = some w → w.getType ≠ .int32 := by
    intro w hw ht
    rw [Json.getType_eq_int32 ht] at hw
    have hobject : r.isObject = true := by
      cases r <;> first | rfl | simp [Json.findMember, Json.members] at hw
    exact h w.getInt32 ⟨(Codec.getSize_of_isObject hobject).symm.trans hs, hw⟩
  rcases clinetFindValue_of_not codec hid with ⟨msg, hmsg⟩ | hlib
  · exact .inl ⟨msg, by simp [validateResponse, hs, hmsg, bind, Except.bind]⟩
  · exact .inr (by simp [validateResponse, hs, hlib, bind, Except.bind])

/-- An object without one is refused without an id. -/
theorem validateResponse_of_isObject (codec : Codec) (ho : r.isObject = true)
    (h : ∀ n, ¬ Identified r n) :
    ∃ msg, validateResponse codec r = .error (.thrown ⟨msg, none⟩) := by
  by_cases hs : codec.getSize r = 3
  swap
  · exact ⟨_, by simp only [validateResponse, hs, ne_eq, not_false_eq_true, if_true]; rfl⟩
  have hid : ∀ w, r.findMember "id" = some w → w.getType ≠ .int32 := fun w hw ht =>
    h w.getInt32 ⟨(Codec.getSize_of_isObject ho).symm.trans hs,
      by rw [hw, ← Json.getType_eq_int32 ht]⟩
  obtain ⟨msg, hmsg⟩ := clinetFindValue_of_isObject codec ho hid
  exact ⟨msg, by simp [validateResponse, hs, hmsg, bind, Except.bind]⟩

/-- A response with an `Int32` id that is not well formed is refused with it. -/
theorem validateResponse_of_not_wellFormed (codec : Codec) (hid : Identified r n)
    (h : ¬ WellFormed r) :
    ∃ msg, validateResponse codec r = .error (.thrown ⟨msg, some n⟩) := by
  rw [validateResponse_of_identified hid]
  rcases clinetFindValueWithId_cases codec hid.isObject "jsonrpc" .string n with
    ⟨w, hw, ht⟩ | ⟨msg, hmsg⟩
  swap
  · exact ⟨msg, by rw [hmsg]; rfl⟩
  rw [clinetFindValueWithId_of_type hw ht]
  by_cases hv : w.getStringView = "2.0"
  swap
  · exact ⟨_, if_pos hv⟩
  have hversion : r.findMember "jsonrpc" = some (.string "2.0") := by
    rw [hw, Json.getType_eq_string ht, hv]
  have hresult : r.findMember "result" = none := by
    by_contra hr
    exact h ⟨hversion, .inl (Option.ne_none_iff_exists'.1 hr)⟩
  rcases clinetFindValueWithId_cases codec hid.isObject "error" .object n with
    ⟨e, he, het⟩ | ⟨msg, hmsg⟩
  · cases e with
    | object ms => exact absurd ⟨hversion, .inr ⟨ms, he⟩⟩ h
    | _ => cases het
  · exact ⟨msg, by simp [Except.bind, hv, hresult, hmsg]⟩

end BaseClient
end BearRpc
