/-
# Integers in a buffer

`appendInt64`, `readInt64`, `peekInt64`, `prependInt64`, `retrieveInt64` and their siblings
for 32, 16 and 8 bits (`src/RPC/bearTCP/Buffer.h`, lines 91 to 101 and 160 to 267), on a
host with any byte order.

Each of them puts the big-endian encoding of its value behind or before the readable bytes,
or takes it away in front; those for 8 bits leave the byte order out.  So a buffer is a
queue of integers of mixed widths (`integers_survive`), wherever its bytes lie in the
vector.
-/

import BearRpc.Buffer
import BearRpc.Theory.ByteOrder
import Mathlib.Data.List.Induction
import Mathlib.Data.List.Infix

namespace BearRpc

open Theory FixedWidth

namespace Buffer

variable (host : Endian) (b : Buffer)

section

variable {α : Type} [FixedWidth α]

/-- `appendInt64` and those of its siblings that use `htobe` -/
def appendInt (x : α) : Option Buffer := b.append (memory host (htobe host x))

/-- `peekInt64` and those of its siblings that use `betoh` -/
def peekInt (α : Type) [FixedWidth α] : Option α :=
  if size α ≤ b.readableBytes then
    some (betoh host (ofMemory host α (b.bytesAt b.peek (size α))))
  else
    none

/-- `prependInt64` and those of its siblings that use `htobe` -/
def prependInt (x : α) : Option Buffer := b.prepend (memory host (htobe host x))

/-- `readInt64` and its siblings, with what they call -/
def readInt (peek : Option α) (retrieve : Option Buffer) : Option (α × Buffer) := do
  let result ← peek
  let b ← retrieve
  some (result, b)

end

def appendInt64 (x : Int64) : Option Buffer := b.appendInt host x

def appendInt32 (x : Int32) : Option Buffer := b.appendInt host x

def appendInt16 (x : Int16) : Option Buffer := b.appendInt host x

/-- `append(&x, sizeof x)` -/
def appendInt8 (x : Int8) : Option Buffer := b.append (memory host x)

def peekInt64 : Option Int64 := b.peekInt host Int64

def peekInt32 : Option Int32 := b.peekInt host Int32

def peekInt16 : Option Int16 := b.peekInt host Int16

/-- `int8_t x = *peek()` -/
def peekInt8 : Option Int8 :=
  if size Int8 ≤ b.readableBytes then some (ofMemory host Int8 (b.bytesAt b.peek 1)) else none

def retrieveInt64 : Option Buffer := b.retrieve (size Int64)

def retrieveInt32 : Option Buffer := b.retrieve (size Int32)

def retrieveInt16 : Option Buffer := b.retrieve (size Int16)

def retrieveInt8 : Option Buffer := b.retrieve (size Int8)

def readInt64 : Option (Int64 × Buffer) := readInt (b.peekInt64 host) b.retrieveInt64

def readInt32 : Option (Int32 × Buffer) := readInt (b.peekInt32 host) b.retrieveInt32

def readInt16 : Option (Int16 × Buffer) := readInt (b.peekInt16 host) b.retrieveInt16

def readInt8 : Option (Int8 × Buffer) := readInt (b.peekInt8 host) b.retrieveInt8

def prependInt64 (x : Int64) : Option Buffer := b.prependInt host x

def prependInt32 (x : Int32) : Option Buffer := b.prependInt host x

def prependInt16 (x : Int16) : Option Buffer := b.prependInt host x

/-- `prepend(&x, sizeof x)` -/
def prependInt8 (x : Int8) : Option Buffer := b.prepend (memory host x)

/-! ### What they do to the readable bytes -/

section

variable {host b} {α : Type} [FixedWidth α] {x : α} {y : Int8} {rest : Bytes}

/-- Appending an integer is appending its bytes in the order of the wire. -/
theorem appendInt_eq : b.appendInt host x = b.append (encode x) := by
  rw [appendInt, memory_htobe]

/-- Putting one in front is putting these bytes in front. -/
theorem prependInt_eq : b.prependInt host x = b.prepend (encode x) := by
  rw [prependInt, memory_htobe]

/-- The order of one byte does not matter. -/
theorem appendInt8_eq : b.appendInt8 host y = b.append (encode y) := by
  rw [appendInt8, memory_byte rfl]

/-- An integer of one byte is put in front without a conversion, and it is its own encoding.
-/
theorem prependInt8_eq : b.prependInt8 host y = b.prepend (encode y) := by
  rw [prependInt8, memory_byte rfl]

/-- The first bytes are those of an integer. -/
theorem bytesAt_encode (h : b.readable = encode x ++ rest) :
    size α ≤ b.readableBytes ∧ b.bytesAt b.peek (size α) = encode x := by
  have hle : size α ≤ b.readableBytes := by
    rw [← length_readable, h, List.length_append, length_encode]
    exact Nat.le_add_right _ _
  refine ⟨hle, ?_⟩
  rw [bytesAt_peek hle, h]
  exact List.take_left' length_encode

/-- **Reading an integer that stands at the front** gives it back, on hosts of either order:
the bytes on the wire are in network order, and both conversions are the same permutation.
-/
theorem peekInt_eq (h : b.readable = encode x ++ rest) : b.peekInt host α = some x := by
  obtain ⟨hle, hbytes⟩ := bytesAt_encode h
  rw [peekInt, if_pos hle, hbytes, betoh_ofMemory]

/-- An integer of one byte that stands at the front is given back without a conversion. -/
theorem peekInt8_eq (h : b.readable = encode y ++ rest) : b.peekInt8 host = some y := by
  obtain ⟨hle, hbytes⟩ := bytesAt_encode h
  have hbyte : b.bytesAt b.peek 1 = encode y := hbytes
  rw [peekInt8, if_pos hle, hbyte, ofMemory_byte rfl]

/-- **An integer is taken away** after a look at it, and returned as `f` of it; what stands
behind it is left in the buffer. -/
theorem readInt_readable {β : Type} (f : α → β) (h : b.readable = encode x ++ rest)
    {peek : Option α} (hpeek : peek = some x) :
    ∃ b', (readInt peek (b.retrieve (size α))).map (fun (x, b) => (f x, b)) = some (f x, b') ∧
      b'.readable = rest := by
  obtain ⟨b', hb', hr⟩ := retrieve_readable (bytesAt_encode h).1
  refine ⟨b', ?_, ?_⟩
  · rw [hpeek, hb']
    rfl
  · rw [hr, h]
    exact List.drop_left' length_encode

end

/-! ### Integers of mixed widths -/

/-- The types of the integers. -/
inductive Width where
  | int8
  | int16
  | int32
  | int64
  deriving DecidableEq, Repr

/-- A value of one of these types. -/
inductive Value where
  | int8 (x : Int8)
  | int16 (x : Int16)
  | int32 (x : Int32)
  | int64 (x : Int64)
  deriving DecidableEq

/-- `sizeof` -/
def Width.size : Width → ℕ
  | int8 => FixedWidth.size Int8
  | int16 => FixedWidth.size Int16
  | int32 => FixedWidth.size Int32
  | int64 => FixedWidth.size Int64

namespace Value

def width : Value → Width
  | int8 _ => .int8
  | int16 _ => .int16
  | int32 _ => .int32
  | int64 _ => .int64

/-- The big-endian encoding. -/
def encode : Value → Bytes
  | int8 x => FixedWidth.encode x
  | int16 x => FixedWidth.encode x
  | int32 x => FixedWidth.encode x
  | int64 x => FixedWidth.encode x

/-- An integer takes as many bytes as its type has. -/
@[simp] theorem length_encode (v : Value) : v.encode.length = v.width.size := by
  cases v <;> exact FixedWidth.length_encode

end Value

/-- The call of `appendInt8`, `appendInt16`, … for a value. -/
def appendValue : Value → Option Buffer
  | .int8 x => b.appendInt8 host x
  | .int16 x => b.appendInt16 host x
  | .int32 x => b.appendInt32 host x
  | .int64 x => b.appendInt64 host x

/-- The call of `prependInt8`, `prependInt16`, … for a value. -/
def prependValue : Value → Option Buffer
  | .int8 x => b.prependInt8 host x
  | .int16 x => b.prependInt16 host x
  | .int32 x => b.prependInt32 host x
  | .int64 x => b.prependInt64 host x

/-- The call of `readInt8`, `readInt16`, … for a width. -/
def readValue : Width → Option (Value × Buffer)
  | .int8 => (b.readInt8 host).map fun (x, b) => (.int8 x, b)
  | .int16 => (b.readInt16 host).map fun (x, b) => (.int16 x, b)
  | .int32 => (b.readInt32 host).map fun (x, b) => (.int32 x, b)
  | .int64 => (b.readInt64 host).map fun (x, b) => (.int64 x, b)

section

variable {b} {v : Value} {rest : Bytes}

/-- An integer can always be appended, and its encoding then stands behind what was there.
-/
theorem appendValue_readable (b : Buffer) (v : Value) :
    ∃ b', b.appendValue host v = some b' ∧ b'.readable = b.readable ++ v.encode := by
  have happend : b.appendValue host v = b.append v.encode := by
    cases v with
    | int8 x => exact appendInt8_eq
    | int16 x => exact appendInt_eq
    | int32 x => exact appendInt_eq
    | int64 x => exact appendInt_eq
  rw [happend]
  exact append_readable b v.encode

/-- It can be put in front where the space for its bytes is free, and its encoding then
stands before what was there. -/
theorem prependValue_readable (h : v.width.size ≤ b.prependableBytes) :
    ∃ b', b.prependValue host v = some b' ∧ b'.readable = v.encode ++ b.readable := by
  have hprepend : b.prependValue host v = b.prepend v.encode := by
    cases v with
    | int8 x => exact prependInt8_eq
    | int16 x => exact prependInt_eq
    | int32 x => exact prependInt_eq
    | int64 x => exact prependInt_eq
  rw [hprepend]
  exact prepend_readable (v.length_encode.trans_le h)

/-- **The first value is read**, if its width is asked for: the same integer comes back, and
the bytes behind it are left. -/
theorem readValue_readable (h : b.readable = v.encode ++ rest) :
    ∃ b', b.readValue host v.width = some (v, b') ∧ b'.readable = rest := by
  cases v with
  | int8 x => exact readInt_readable Value.int8 h (peekInt8_eq h)
  | int16 x => exact readInt_readable Value.int16 h (peekInt_eq h)
  | int32 x => exact readInt_readable Value.int32 h (peekInt_eq h)
  | int64 x => exact readInt_readable Value.int64 h (peekInt_eq h)

end

/-! ### Runs -/

/-- A call for a value or a width. -/
inductive IntOp where
  | append (v : Value)
  | read (w : Width)
  deriving DecidableEq

/-- A call, with the buffer and what the reads have returned before. -/
def callInt (s : Buffer × List Value) : IntOp → Option (Buffer × List Value)
  | .append v => (s.1.appendValue host v).map fun b => (b, s.2)
  | .read w => (s.1.readValue host w).map fun (v, b) => (b, s.2 ++ [v])

/-- Calls one after another. -/
def callInts (calls : List IntOp) : Option (Buffer × List Value) :=
  calls.foldlM (callInt host) (b, [])

/-- The values that are appended. -/
def appended (calls : List IntOp) : List Value :=
  calls.filterMap fun
    | .append v => some v
    | .read _ => none

/-- The widths that are read. -/
def reads (calls : List IntOp) : List Width :=
  calls.filterMap fun
    | .append _ => none
    | .read w => some w

/-- The reads ask for the widths of the values in their order, and for none that has not
been appended before. -/
def InStep (calls : List IntOp) : Prop :=
  ∀ done, done <+: calls → reads done <+: (appended done).map Value.width

instance (calls : List IntOp) : Decidable (InStep calls) :=
  decidable_of_iff (∀ done ∈ calls.inits, reads done <+: (appended done).map Value.width)
    (forall_congr' fun done => imp_congr_left (List.mem_inits done calls))

section

variable {b} {calls done : List IntOp} {v : Value} {w : Width}

/-- Of the integers appended so far, the one appended now is the last. -/
theorem appended_concat_append : appended (done ++ [.append v]) = appended done ++ [v] :=
  List.filterMap_append ..

/-- Reading appends none. -/
theorem appended_concat_read : appended (done ++ [.read w]) = appended done :=
  (List.filterMap_append ..).trans (List.append_nil _)

/-- Of the reads so far, appending is none. -/
theorem reads_concat_append : reads (done ++ [.append v]) = reads done :=
  (List.filterMap_append ..).trans (List.append_nil _)

/-- The one made now is the last. -/
theorem reads_concat_read : reads (done ++ [.read w]) = reads done ++ [w] :=
  List.filterMap_append ..

/-- A list of widths in step with the values, and one width more. -/
theorem exists_next {ws : List Width} {vs : List Value}
    (h : ws ++ [w] <+: vs.map Value.width) :
    ∃ v, v.width = w ∧ vs.take (ws.length + 1) = vs.take ws.length ++ [v] ∧
      vs.drop ws.length = v :: vs.drop (ws.length + 1) := by
  obtain ⟨rest, hrest⟩ := h
  have hlt : ws.length < vs.length := by
    rw [← List.length_map Value.width, ← hrest, List.length_append, List.length_append]
    exact Nat.lt_of_lt_of_le (Nat.lt_succ_self _) (Nat.le_add_right _ _)
  refine ⟨vs[ws.length], ?_, List.take_succ_eq_append_getElem hlt,
    List.drop_eq_getElem_cons hlt⟩
  have hget : (vs.map Value.width)[ws.length]? = some w := by
    rw [← hrest, List.append_assoc, List.getElem?_append_right le_rfl, Nat.sub_self]
    rfl
  rw [List.getElem?_map, List.getElem?_eq_getElem hlt] at hget
  exact Option.some.inj hget

/-- **The queue of integers.**  After any calls in step, the reads have returned the first
values, and the buffer has the encodings of the other ones. -/
theorem callInts_readable (hb : b.readable = []) (hstep : InStep calls) (hdone : done <+: calls) :
    ∃ b', callInts host b done = some (b', (appended done).take (reads done).length) ∧
      b'.readable = ((appended done).drop (reads done).length).flatMap Value.encode := by
  induction done using List.reverseRecOn with
  | nil => exact ⟨b, rfl, hb⟩
  | append_singleton done call ih =>
    have hbefore : done <+: calls := (List.prefix_append done [call]).trans hdone
    obtain ⟨b₁, hcalls, hreadable⟩ := ih hbefore
    have hrun : callInts host b (done ++ [call]) =
        callInt host (b₁, (appended done).take (reads done).length) call := by
      rw [callInts, List.foldlM_append]
      change (callInts host b done).bind _ = _
      rw [hcalls, Option.bind_some, List.foldlM_cons]
      exact bind_pure _
    have hle : (reads done).length ≤ (appended done).length := by
      rw [← List.length_map Value.width]
      exact (hstep done hbefore).length_le
    rw [hrun]
    cases call with
    | append v =>
      obtain ⟨b₂, happend, hr⟩ := appendValue_readable host b₁ v
      rw [appended_concat_append, reads_concat_append, List.take_append_of_le_length hle,
        List.drop_append_of_le_length hle]
      refine ⟨b₂, congrArg (Option.map _) happend, ?_⟩
      rw [hr, hreadable, List.flatMap_append, List.flatMap_singleton]
    | read w =>
      have hnext := hstep _ hdone
      rw [reads_concat_read, appended_concat_read] at hnext
      obtain ⟨v, rfl, htake, hdrop⟩ := exists_next hnext
      rw [hdrop, List.flatMap_cons] at hreadable
      obtain ⟨b₂, hread, hr⟩ := readValue_readable host hreadable
      rw [appended_concat_read, reads_concat_read, List.length_append, List.length_singleton,
        htake]
      exact ⟨b₂, congrArg (Option.map _) hread, hr⟩

/-- **A value put before the others** is read at once, and the buffer is as it was, if there
was room in front for its bytes. -/
theorem readValue_prependValue (h : v.width.size ≤ b.prependableBytes) :
    ∃ b₁ b₂, b.prependValue host v = some b₁ ∧ b₁.readValue host v.width = some (v, b₂) ∧
      b₂.readable = b.readable := by
  obtain ⟨b₁, hprepend, hr₁⟩ := prependValue_readable host h
  obtain ⟨b₂, hread, hr₂⟩ := readValue_readable host hr₁
  exact ⟨b₁, b₂, hprepend, hread, hr₂⟩

end

/-- **Integers survive the buffer.**  From a buffer without readable bytes, calls that read
the widths that have been appended return the values in their order, and what is readable
in between is the big-endian encoding of the values that have not been read.  An integer
that is put before the readable bytes is read in front of them, and leaves them as they
were. -/
theorem integers_survive (host : Endian) (b : Buffer) :
    (∀ calls, b.readable = [] → InStep calls → ∀ done, done <+: calls →
      ∃ b', callInts host b done = some (b', (appended done).take (reads done).length) ∧
        b'.readable = ((appended done).drop (reads done).length).flatMap Value.encode) ∧
    ∀ v : Value, v.width.size ≤ b.prependableBytes →
      ∃ b₁ b₂, b.prependValue host v = some b₁ ∧ b₁.readValue host v.width = some (v, b₂) ∧
        b₂.readable = b.readable :=
  ⟨fun _ hb hstep _ hdone => callInts_readable host hb hstep hdone,
    fun _ h => readValue_prependValue host h⟩

/-- Two values, the first of them negative, and a read in front. -/
def twoValues : List IntOp := [.append (.int16 (-2)), .append (.int8 5), .read .int16]

/-- The hypotheses of `integers_survive` are satisfiable. -/
theorem integers_survive_twoValues :
    (∃ b', callInts .little (new 4) twoValues = some (b', [.int16 (-2)]) ∧ b'.readable = [5]) ∧
    ∃ b₁ b₂, (new 4).prependValue .little (.int64 (-1)) = some b₁ ∧
      b₁.readValue .little .int64 = some (.int64 (-1), b₂) ∧ b₂.readable = [] :=
  ⟨(integers_survive .little (new 4)).1 twoValues (readable_new 4) (by decide) twoValues
      (List.prefix_refl _),
    (integers_survive .little (new 4)).2 (.int64 (-1)) le_rfl⟩

end Buffer
end BearRpc
