/-
# JSON values

The part of the JSON library (`jackson/Value.h`, `jackson/Document.h`) that the
RPC code calls.  A value has one of eight types; an object keeps its members in
order and may hold a name twice, `getSize` counts all of them, and `findMember`
and `operator[]` give the first with the name.  `getStringView`, `getInt32` and
the functions for members are only called where the type has been checked; what
they give for other values here means nothing.

The library itself is not part of the repository, so two things are parameters of
the model (`Codec`).  One is parsing and writing: a text is read as a value or as
a parse error, whose text `parseErrorStr` gives.  The other is what the library
does where it is handed a value that is no object and nobody has looked: the client
asks the elements of a batch for members, and adds one to whatever its user calls
with (`NonObject`).
-/

import BearRpc.Buffer
import Mathlib.Algebra.Ring.Int.Defs

namespace BearRpc

/-- `json::ValueType` -/
inductive ValueType where
  | null
  | bool
  | int32
  | int64
  | double
  | string
  | array
  | object
  deriving DecidableEq, Repr

/-- `json::Value`.  A double is held as its bit pattern. -/
inductive Json where
  | null
  | bool (b : Bool)
  | int32 (n : Int32)
  | int64 (n : Int64)
  | double (bits : UInt64)
  | string (s : String)
  | array (values : List Json)
  | object (members : List (String × Json))

namespace Json

/-- `getType()` -/
def getType : Json → ValueType
  | null => .null
  | bool _ => .bool
  | int32 _ => .int32
  | int64 _ => .int64
  | double _ => .double
  | string _ => .string
  | array _ => .array
  | object _ => .object

/-- `isNull()` -/
def isNull (v : Json) : Bool := v.getType == .null

/-- `isObject()` -/
def isObject (v : Json) : Bool := v.getType == .object

/-- `getSize()` on an array or an object: the number of elements or members. -/
def getSize : Json → ℕ
  | array values => values.length
  | object members => members.length
  | _ => 0

/-- The members of an object. -/
def members : Json → List (String × Json)
  | object members => members
  | _ => []

/-- `findMember(key)` on an object: the value of the first member with the name,
`none` for `memberEnd()`. -/
def findMember (v : Json) (key : String) : Option Json :=
  (v.members.find? fun m => m.1 == key).map Prod.snd

/-- `operator[](key)` on an object with that member. -/
def get (v : Json) (key : String) : Json := (v.findMember key).getD null

/-- `addMember(key, value)` on an object. -/
def addMember (v : Json) (key : String) (value : Json) : Json :=
  object (v.members ++ [(key, value)])

/-- `getStringView()` on a string. -/
def getStringView : Json → String
  | string s => s
  | _ => ""

/-- `getInt32()` on an `Int32`. -/
def getInt32 : Json → Int32
  | int32 n => n
  | _ => 0

/-- The value an integer literal is read as: `TYPE_INT32` when it fits 32 bits
and `TYPE_INT64` otherwise. -/
def ofInteger (n : ℤ) : Json :=
  if -2 ^ 31 ≤ n ∧ n < 2 ^ 31 then int32 (Int32.ofInt n) else int64 (Int64.ofInt n)

/-- `operator[]` gives the member that `findMember` finds. -/
theorem get_of_findMember {v w : Json} {key : String} (h : v.findMember key = some w) :
    v.get key = w := by
  rw [get, h, Option.getD_some]

/-- A value of the type of strings is the string that `getStringView` gives. -/
theorem getType_eq_string {v : Json} (h : v.getType = .string) : v = .string v.getStringView := by
  cases v <;> first | rfl | cases h

/-- A value of the type of 32-bit integers is the integer that `getInt32` gives. -/
theorem getType_eq_int32 {v : Json} (h : v.getType = .int32) : v = .int32 v.getInt32 := by
  cases v <;> first | rfl | cases h

/-- In an object without repeated names, `findMember` finds what is there. -/
theorem findMember_eq_some_iff {ms : List (String × Json)} {key : String} {v : Json}
    (hnd : (ms.map Prod.fst).Nodup) :
    (object ms).findMember key = some v ↔ (key, v) ∈ ms := by
  induction ms with
  | nil => simp [findMember, members]
  | cons m ms ih =>
    obtain ⟨name, w⟩ := m
    rw [List.map_cons, List.nodup_cons] at hnd
    simp only [findMember, members, List.find?_cons, List.mem_cons, Prod.mk.injEq] at ih ⊢
    by_cases hname : name = key
    · subst hname
      have hnot : (name, v) ∉ ms := fun h => hnd.1 (List.mem_map.2 ⟨_, h, rfl⟩)
      simp [hnot, eq_comm]
    · have hne : (name == key) = false := by simpa using hname
      rw [hne]
      simp [ih hnd.2, Ne.symm hname]

/-- `findMember` finds nothing exactly if no member has the name. -/
theorem findMember_eq_none_iff {ms : List (String × Json)} {key : String} :
    (object ms).findMember key = none ↔ key ∉ ms.map Prod.fst := by
  simp only [findMember, members, Option.map_eq_none_iff, List.find?_eq_none, List.mem_map,
    not_exists, not_and, beq_iff_eq]

end Json

/-- What the JSON library does with a value of another type where an object is
expected.  Such a value has no members, so `findMember` does not find any: it returns
`memberEnd()`, or an assertion of the library fails. -/
structure NonObject where
  /-- `getSize()` of a value that is neither an array nor an object. -/
  getSize : Json → ℕ
  /-- Whether `findMember(key)` returns. -/
  findMember : Json → String → Bool
  /-- What `addMember(key, value)` makes of the value; `none` where an assertion
  of the library fails. -/
  addMember : Json → Option (String → Json → Json)

/-- A library that asserts that there is an object. -/
def NonObject.asserting : NonObject where
  getSize _ := 1
  findMember _ _ := false
  addMember _ := none

/-- What the RPC code uses of the JSON library beyond values and objects. -/
structure Codec where
  /-- `Document::parse`: the value read, or the text of the parse error. -/
  parse : Bytes → Except String Json
  /-- `Value::writeTo` a `StringWriteStream`. -/
  write : Json → Bytes
  /-- Where the value is no object. -/
  nonObject : NonObject

namespace Codec

variable (codec : Codec)

/-- `getSize()` -/
def getSize : Json → ℕ
  | .array values => values.length
  | .object members => members.length
  | v => codec.nonObject.getSize v

/-- `findMember(key)`; the outer `none` stands for an assertion of the library that
fails, the inner one for `memberEnd()`. -/
def findMember (v : Json) (key : String) : Option (Option Json) :=
  if v.isObject then some (v.findMember key)
  else if codec.nonObject.findMember v key then some none
  else none

/-- `addMember(key, value)`; `none` stands for an assertion of the library that
fails. -/
def addMember (v : Json) (key : String) (value : Json) : Option Json :=
  if v.isObject then some (v.addMember key value)
  else (codec.nonObject.addMember v).map fun f => f key value

/-- `addMember` fails on the value. -/
def refuses (v : Json) : Bool := !v.isObject && (codec.nonObject.addMember v).isNone

variable {codec} {v w : Json} {key : String}

/-- A member is found in an object. -/
theorem findMember_of_some (h : v.findMember key = some w) :
    codec.findMember v key = some (some w) := by
  have hobject : v.isObject = true := by
    cases v <;> first | rfl | simp [Json.findMember, Json.members] at h
  rw [findMember, if_pos hobject, h]

/-- Where no member is found, the library says so or fails. -/
theorem findMember_of_none (codec : Codec) (h : v.findMember key = none) :
    codec.findMember v key = some none ∨ codec.findMember v key = none := by
  unfold findMember
  split_ifs
  · exact .inl (congrArg some h)
  · exact .inl rfl
  · exact .inr rfl

/-- A member is added to an object. -/
theorem addMember_of_isObject (codec : Codec) (h : v.isObject = true) (key : String)
    (value : Json) :
    codec.addMember v key value = some (v.addMember key value) := if_pos h

/-- `addMember` fails on what it refuses, and on nothing else. -/
theorem addMember_eq_none_iff {value : Json} :
    codec.addMember v key value = none ↔ codec.refuses v = true := by
  unfold addMember refuses
  cases v.isObject <;> simp

/-- The size of an object is the number of its members, whatever the library does
with other values. -/
theorem getSize_of_isObject (h : v.isObject = true) : codec.getSize v = v.getSize := by
  cases v <;> first | rfl | cases h

end Codec

end BearRpc
