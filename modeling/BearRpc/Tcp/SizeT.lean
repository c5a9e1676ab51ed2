/-
# The buffer in machine arithmetic

`src/RPC/bearTCP/Buffer.h`, lines 75 to 158 and 261 to 292, and
`src/RPC/bearTCP/Buffer.cc`, statement by statement: the three members hold any
values, every `size_t` expression is checked for wrapping, every copy for the
bounds of the vector, and a vector does not grow past its `max_size()`.

`BearRpc.Buffer` has the same operations on natural numbers, on buffers that
carry the order of their indices.  The two agree (`append_eq` and its siblings):
on the members of a `Buffer` whose vector fits, an operation of this file fails
an assertion exactly where that one does, fails to grow exactly where the vector
would be too long, and otherwise does the same.  So nothing wraps and nothing is
accessed out of bounds.
-/

import BearRpc.Buffer

namespace BearRpc

/-- What can go wrong in an operation of `Buffer`. -/
inductive Fault where
  /-- an `assert` fails -/
  | assertion
  /-- a `size_t` expression wraps -/
  | wrap
  /-- a copy leaves the vector -/
  | outOfBounds
  /-- `std::length_error` of a vector that would pass `max_size()` -/
  | lengthError
  deriving DecidableEq, Repr

namespace SizeT

/-- `a + b` -/
def add (a b : ℕ) : Except Fault ℕ := if a + b < 2 ^ 64 then .ok (a + b) else .error .wrap

/-- `a - b` -/
def sub (a b : ℕ) : Except Fault ℕ := if b ≤ a then .ok (a - b) else .error .wrap

/-- `assert(p)` -/
def assert (p : Prop) [Decidable p] : Except Fault Unit :=
  if p then .ok () else .error .assertion

/-- `max_size()` of a `std::vector<char>` -/
def maxSize : ℕ := 2 ^ 63 - 1

variable {a b : ℕ} {p : Prop} [Decidable p]

/-- A sum below `2 ^ 64` does not wrap around. -/
theorem add_eq (h : a + b < 2 ^ 64) : add a b = .ok (a + b) := if_pos h

/-- A difference that is not negative does not wrap around. -/
theorem sub_eq (h : b ≤ a) : sub a b = .ok (a - b) := if_pos h

/-- An assertion that is true does nothing. -/
theorem assert_eq (h : p) : assert p = .ok () := if_pos h

/-- One that is false ends the program. -/
theorem assert_eq_error (h : ¬ p) : assert p = .error .assertion := if_neg h

@[simp] theorem ok_bind {α β : Type} (x : α) (f : α → Except Fault β) :
    (Except.ok x >>= f) = f x := rfl

@[simp] theorem error_bind {α β : Type} (e : Fault) (f : α → Except Fault β) :
    (Except.error e >>= f) = .error e := rfl

end SizeT

open SizeT

/-- The members of `class Buffer`. -/
@[ext] structure RawBuffer where
  buffer : Bytes
  readerIndex : ℕ
  writerIndex : ℕ
  deriving DecidableEq, Repr

namespace RawBuffer

open Buffer (kCheapPrepend Readv sizeofExtrabuf)

variable (b : RawBuffer)

def readableBytes : Except Fault ℕ := sub b.writerIndex b.readerIndex

def writableBytes : Except Fault ℕ := sub b.buffer.length b.writerIndex

def prependableBytes : ℕ := b.readerIndex

def peek : ℕ := b.readerIndex

def beginWrite : ℕ := b.writerIndex

/-- `Buffer(size_t initialSize)` -/
def new (initialSize : ℕ) : Except Fault RawBuffer := do
  let size ← add kCheapPrepend initialSize
  if size ≤ maxSize then
    let b : RawBuffer := ⟨List.replicate size 0, kCheapPrepend, kCheapPrepend⟩
    assert ((← b.readableBytes) = 0)
    assert ((← b.writableBytes) = initialSize)
    assert (b.prependableBytes = kCheapPrepend)
    return b
  else
    .error .lengthError

/-- `buffer_.resize(n)` for a larger `n` -/
def resize (n : ℕ) : Except Fault RawBuffer :=
  if n ≤ maxSize then .ok { b with buffer := Buffer.resize b.buffer n } else .error .lengthError

/-- The `len` bytes at offset `p`, to be copied. -/
def load (p len : ℕ) : Except Fault Bytes :=
  if p + len ≤ b.buffer.length then .ok ((b.buffer.drop p).take len) else .error .outOfBounds

/-- `std::copy` of `data` to offset `p` -/
def store (p : ℕ) (data : Bytes) : Except Fault RawBuffer :=
  if p + data.length ≤ b.buffer.length then
    .ok { b with buffer := Buffer.overwrite b.buffer p data }
  else
    .error .outOfBounds

def retrieveAll : RawBuffer :=
  { b with readerIndex := kCheapPrepend, writerIndex := kCheapPrepend }

def retrieve (len : ℕ) : Except Fault RawBuffer := do
  assert (len ≤ (← b.readableBytes))
  if len < (← b.readableBytes) then
    return { b with readerIndex := ← add b.readerIndex len }
  else
    return b.retrieveAll

def retrieveUntil (last : ℕ) : Except Fault RawBuffer := do
  assert (b.peek ≤ last)
  assert (last ≤ b.beginWrite)
  b.retrieve (← sub last b.peek)

def retrieveAsString (len : ℕ) : Except Fault (Bytes × RawBuffer) := do
  assert (len ≤ (← b.readableBytes))
  let result ← b.load b.peek len
  return (result, ← b.retrieve len)

def makeSpace (len : ℕ) : Except Fault RawBuffer := do
  if (← add (← b.writableBytes) b.prependableBytes) < (← add len kCheapPrepend) then
    b.resize (← add b.writerIndex len)
  else
    assert (kCheapPrepend < b.readerIndex)
    let readable ← b.readableBytes
    let b ← b.store kCheapPrepend (← b.load b.readerIndex readable)
    let b := { b with readerIndex := kCheapPrepend }
    let b := { b with writerIndex := ← add b.readerIndex readable }
    assert (readable = (← b.readableBytes))
    return b

def ensureWritableBytes (len : ℕ) : Except Fault RawBuffer := do
  let b ← if (← b.writableBytes) < len then b.makeSpace len else pure b
  assert (len ≤ (← b.writableBytes))
  return b

def hasWritten (len : ℕ) : Except Fault RawBuffer := do
  assert (len ≤ (← b.writableBytes))
  return { b with writerIndex := ← add b.writerIndex len }

def append (data : Bytes) : Except Fault RawBuffer := do
  let b ← b.ensureWritableBytes data.length
  let b ← b.store b.beginWrite data
  b.hasWritten data.length

def prepend (data : Bytes) : Except Fault RawBuffer := do
  assert (data.length ≤ b.prependableBytes)
  let b := { b with readerIndex := ← sub b.readerIndex data.length }
  b.store b.readerIndex data

/-- `readFd(int fd, int *savedErrno)`: what it returns, `*savedErrno` and the
buffer behind it.  Of the bytes delivered, `vec[0]` takes as many as it has room
for. -/
def readFd (savedErrno : ℕ) : Readv → Except Fault (ℤ × ℕ × RawBuffer)
  | .failed errno => .ok (-1, errno, b)
  | .delivered bytes => do
    let writable ← b.writableBytes
    let b ← b.store b.writerIndex (bytes.take writable)
    let n := bytes.length
    if n ≤ writable then
      return (n, savedErrno, { b with writerIndex := ← add b.writerIndex n })
    else
      let b := { b with writerIndex := b.buffer.length }
      let _ ← sub n writable
      return (n, savedErrno, ← b.append (bytes.drop writable))

end RawBuffer

namespace Buffer

variable {b : Buffer} {len last : ℕ} {data : Bytes}

/-- The members of a buffer. -/
def raw (b : Buffer) : RawBuffer := ⟨b.buffer, b.readerIndex, b.writerIndex⟩

/-- The vector is no longer than a vector can be. -/
def Fits (b : Buffer) : Prop := b.buffer.length ≤ maxSize

/-- The outcome of an operation on natural numbers, as the machine has it. -/
def outcome : Option Buffer → Except Fault RawBuffer
  | none => .error .assertion
  | some b => if b.buffer.length ≤ maxSize then .ok b.raw else .error .lengthError

/-- An operation that keeps the size of the vector. -/
theorem outcome_some {b' : Buffer} (h : b.Fits) (hsize : b'.buffer.length = b.buffer.length) :
    outcome (some b') = .ok b'.raw := if_pos (hsize ▸ h)

/-- On a buffer whose indices are in order, `readableBytes()` does not wrap around and is
what the model says. -/
theorem raw_readableBytes (b : Buffer) : b.raw.readableBytes = .ok b.readableBytes :=
  sub_eq b.reader_le_writer

/-- The same for `writableBytes()`. -/
theorem raw_writableBytes (b : Buffer) : b.raw.writableBytes = .ok b.writableBytes :=
  sub_eq b.writer_le_size

/-- A buffer that fits is far from the largest `size_t`, so that sums of two of its numbers
do not wrap around. -/
theorem Fits.lt (h : b.Fits) : b.buffer.length < 2 ^ 63 := Nat.lt_of_le_of_lt h (by decide)

/-- **The constructor in machine arithmetic** makes the buffer of the model, for every size
a vector can have. -/
theorem new_eq {initialSize : ℕ} (hmax : initialSize ≤ maxSize) :
    RawBuffer.new initialSize = outcome (some (new initialSize)) := by
  have hadd : add kCheapPrepend initialSize = .ok (kCheapPrepend + initialSize) := by
    refine add_eq ?_
    unfold maxSize at hmax
    unfold kCheapPrepend
    omega
  have hsize : (new initialSize).buffer.length = kCheapPrepend + initialSize :=
    List.length_replicate
  have hreadable : (new initialSize).readableBytes = 0 := Nat.sub_self _
  have hwritable : (new initialSize).writableBytes = initialSize := by
    rw [writableBytes, hsize]
    exact Nat.add_sub_cancel_left _ _
  rw [RawBuffer.new, hadd, ok_bind, outcome, hsize]
  split_ifs
  · change ((new initialSize).raw.readableBytes >>= _) = _
    rw [raw_readableBytes, ok_bind, assert_eq hreadable, ok_bind]
    change ((new initialSize).raw.writableBytes >>= _) = _
    rw [raw_writableBytes, ok_bind, assert_eq hwritable, ok_bind]
    rfl
  · rfl

/-- **`retrieve` in machine arithmetic** is that of the model, its assertion included, for a
buffer whose vector is no longer than a vector can be. -/
theorem retrieve_eq (h : b.Fits) : b.raw.retrieve len = outcome (b.retrieve len) := by
  have hw := b.writer_le_size
  have hlt := h.lt
  simp only [RawBuffer.retrieve, retrieve, raw_readableBytes, ok_bind]
  by_cases hle : len ≤ b.readableBytes
  swap
  · rw [assert_eq_error hle, if_neg hle, error_bind]
    rfl
  rw [assert_eq hle, if_pos hle, ok_bind]
  by_cases hless : len < b.readableBytes
  · have hadd : b.readerIndex + len < 2 ^ 64 := by unfold readableBytes at hless; omega
    rw [if_pos hless, dif_pos hless, outcome_some h (by rfl)]
    dsimp only [raw]
    rw [add_eq hadd]
    rfl
  · rw [if_neg hless, dif_neg hless, outcome_some h (by rfl)]
    rfl

/-- **`retrieveUntil` in machine arithmetic** is that of the model: the pointer difference
it takes for a length is one, or the assertion fails in both. -/
theorem retrieveUntil_eq (h : b.Fits) :
    b.raw.retrieveUntil last = outcome (b.retrieveUntil last) := by
  rw [RawBuffer.retrieveUntil, retrieveUntil]
  by_cases hfirst : b.peek ≤ last
  swap
  · rw [if_neg fun hand => hfirst hand.1]
    exact congrArg (· >>= _) (assert_eq_error hfirst)
  by_cases hlast : last ≤ b.beginWrite
  swap
  · rw [if_neg fun hand => hlast hand.2]
    rw [show assert (b.raw.peek ≤ last) = .ok () from assert_eq hfirst, ok_bind]
    exact congrArg (· >>= _) (assert_eq_error hlast)
  rw [if_pos ⟨hfirst, hlast⟩, ← retrieve_eq h,
    show assert (b.raw.peek ≤ last) = .ok () from assert_eq hfirst, ok_bind,
    show assert (last ≤ b.raw.beginWrite) = .ok () from assert_eq hlast, ok_bind,
    show sub last b.raw.peek = .ok (last - b.peek) from sub_eq hfirst, ok_bind]

/-- **`retrieveAsString` in machine arithmetic** is that of the model, if no more is asked
for than there is: it makes its string before it checks the length. -/
theorem retrieveAsString_eq (h : b.Fits) (hle : len ≤ b.readableBytes) :
    b.raw.retrieveAsString len =
      (outcome (b.retrieve len)).map fun b' => (b.bytesAt b.peek len, b') := by
  have hr := b.reader_le_writer
  have hw := b.writer_le_size
  have hload : b.raw.load b.raw.peek len = .ok (b.bytesAt b.peek len) := by
    refine if_pos ?_
    unfold readableBytes at hle
    dsimp only [RawBuffer.peek, raw]
    omega
  simp only [RawBuffer.retrieveAsString, raw_readableBytes, ok_bind, assert_eq hle, hload,
    retrieve_eq h]
  cases outcome (b.retrieve len) <;> rfl

/-- **`hasWritten` in machine arithmetic** is that of the model: the sum with the index does
not wrap, since the assertion bounds it by the length of the vector. -/
theorem hasWritten_eq (h : b.Fits) : b.raw.hasWritten len = outcome (b.hasWritten len) := by
  have hw := b.writer_le_size
  have hlt := h.lt
  simp only [RawBuffer.hasWritten, hasWritten, raw_writableBytes, ok_bind]
  by_cases hle : len ≤ b.writableBytes
  · have hadd : b.writerIndex + len < 2 ^ 64 := by unfold writableBytes at hle; omega
    rw [assert_eq hle, ok_bind, dif_pos hle, outcome_some h (by rfl)]
    dsimp only [raw]
    rw [add_eq hadd]
    rfl
  · rw [assert_eq_error hle, error_bind, dif_neg hle]
    rfl

/-- Copying into the free part does not resize the vector. -/
theorem length_copyToWrite (hd : data.length ≤ b.writableBytes) :
    (b.copyToWrite data hd).buffer.length = b.buffer.length := by
  have hw := b.writer_le_size
  exact length_overwrite (by unfold writableBytes at hd; omega)

/-- A copy behind the readable bytes stays in the vector. -/
theorem store_beginWrite (hd : data.length ≤ b.writableBytes) :
    b.raw.store b.raw.beginWrite data = .ok (b.copyToWrite data hd).raw := by
  have hw := b.writer_le_size
  refine if_pos ?_
  unfold writableBytes at hd
  dsimp only [RawBuffer.beginWrite, raw]
  omega

/-- **`makeSpace` in machine arithmetic** is that of the model: the sum of the indices does
not wrap as long as what is to be written is no longer than a vector can be. -/
theorem makeSpace_eq (h : b.Fits) (hlen : b.writableBytes < len) (hmax : len ≤ maxSize) :
    b.raw.makeSpace len = outcome (b.makeSpace len hlen) := by
  have hr := b.reader_le_writer
  have hw := b.writer_le_size
  have hlt := h.lt
  have hmax' : len < 2 ^ 63 := Nat.lt_of_le_of_lt hmax (by decide)
  have hroom : add b.writableBytes b.prependableBytes =
      .ok (b.writableBytes + b.prependableBytes) := by
    refine add_eq ?_
    unfold writableBytes prependableBytes
    omega
  have hneed : add len kCheapPrepend = .ok (len + kCheapPrepend) :=
    add_eq (by unfold kCheapPrepend; omega)
  simp only [RawBuffer.makeSpace, raw_writableBytes, ok_bind]
  rw [show add b.writableBytes b.raw.prependableBytes = _ from hroom, ok_bind, hneed, ok_bind,
    makeSpace]
  by_cases hgrow : b.writableBytes + b.prependableBytes < len + kCheapPrepend
  · have hadd : add b.raw.writerIndex len = .ok (b.writerIndex + len) :=
      add_eq (by dsimp only [raw]; omega)
    have hsize : (resize b.buffer (b.writerIndex + len)).length = b.writerIndex + len :=
      length_resize (by unfold writableBytes at hlen; omega)
    rw [if_pos hgrow, if_pos hgrow, hadd, ok_bind, outcome, hsize]
    rfl
  rw [if_neg hgrow, if_neg hgrow]
  have hfront : kCheapPrepend < b.readerIndex := by
    unfold prependableBytes at hgrow
    omega
  have hload : b.raw.load b.raw.readerIndex b.readableBytes = .ok b.readable := by
    refine if_pos ?_
    dsimp only [raw, readableBytes]
    omega
  have hfit : kCheapPrepend + b.readable.length ≤ b.buffer.length := by
    rw [length_readable, readableBytes]
    omega
  have hstore : b.raw.store kCheapPrepend b.readable =
      .ok { b.raw with buffer := overwrite b.buffer kCheapPrepend b.readable } := if_pos hfit
  have hwriter : add kCheapPrepend b.readableBytes = .ok (kCheapPrepend + b.readableBytes) := by
    refine add_eq ?_
    unfold kCheapPrepend readableBytes
    omega
  have hsub : sub (kCheapPrepend + b.readableBytes) kCheapPrepend = .ok b.readableBytes := by
    rw [sub_eq (Nat.le_add_right _ _), Nat.add_sub_cancel_left]
  rw [dif_pos hfront, outcome_some h (length_overwrite hfit),
    show assert (kCheapPrepend < b.raw.readerIndex) = .ok () from assert_eq hfront, ok_bind,
    raw_readableBytes, ok_bind, hload, ok_bind, hstore, ok_bind]
  dsimp only [RawBuffer.readableBytes]
  rw [hwriter, ok_bind, hsub, ok_bind, assert_eq rfl, ok_bind]
  rfl

/-- **`ensureWritableBytes` in machine arithmetic** is that of the model; it makes space
only if there is too little. -/
theorem ensureWritableBytes_eq (h : b.Fits) (hmax : len ≤ maxSize) :
    b.raw.ensureWritableBytes len = outcome (b.ensureWritableBytes len) := by
  simp only [RawBuffer.ensureWritableBytes, ensureWritableBytes, raw_writableBytes, ok_bind]
  by_cases hlen : b.writableBytes < len
  · obtain ⟨b', hb', -, hl⟩ := makeSpace_readable hlen
    rw [if_pos hlen, dif_pos hlen, makeSpace_eq h hlen hmax, hb', Option.filter_some_pos (by simpa)]
    by_cases hfit : b'.Fits
    · rw [outcome_some hfit rfl, ok_bind, raw_writableBytes, ok_bind, assert_eq hl, ok_bind]
      rfl
    · rw [show outcome (some b') = .error .lengthError from if_neg hfit, error_bind]
  · rw [if_neg hlen, dif_neg hlen, Option.filter_some_pos (by simpa using hlen), outcome_some h rfl]
    change (Except.ok b.raw >>= _) = _
    rw [ok_bind, raw_writableBytes, ok_bind, assert_eq (Nat.not_lt.1 hlen), ok_bind]
    rfl

/-- **`append` in machine arithmetic** is that of the model, for data no longer than a
vector can be. -/
theorem append_eq (h : b.Fits) (hmax : data.length ≤ maxSize) :
    b.raw.append data = outcome (b.append data) := by
  obtain ⟨b₁, hb₁, -, hl⟩ := ensureWritableBytes_readable b data.length
  rw [RawBuffer.append, ensureWritableBytes_eq h hmax, append, hb₁]
  simp only [dif_pos hl]
  by_cases hfit : b₁.Fits
  · have hfit' : (b₁.copyToWrite data hl).Fits := by rw [Fits, length_copyToWrite]; exact hfit
    rw [outcome_some hfit rfl, ok_bind, store_beginWrite hl, ok_bind, hasWritten_eq hfit']
  · rw [show outcome (some b₁) = .error .lengthError from if_neg hfit, error_bind, hasWritten,
      dif_pos (by rw [writableBytes_copyToWrite]; exact hl), outcome]
    exact (if_neg (by rw [length_copyToWrite]; exact hfit)).symm

/-- **`prepend` in machine arithmetic** is that of the model: the subtraction does not wrap
behind the assertion. -/
theorem prepend_eq (h : b.Fits) : b.raw.prepend data = outcome (b.prepend data) := by
  have hr := b.reader_le_writer
  have hw := b.writer_le_size
  rw [RawBuffer.prepend, prepend]
  by_cases hle : data.length ≤ b.prependableBytes
  · have hroom : b.readerIndex - data.length + data.length ≤ b.buffer.length := by
      unfold prependableBytes at hle
      omega
    have hsub : sub b.raw.readerIndex data.length = .ok (b.readerIndex - data.length) := sub_eq hle
    rw [show assert (data.length ≤ b.raw.prependableBytes) = .ok () from assert_eq hle, ok_bind,
      hsub, ok_bind, dif_pos hle, outcome_some h (length_overwrite hroom)]
    exact if_pos hroom
  · rw [show assert (data.length ≤ b.raw.prependableBytes) = _ from assert_eq_error hle,
      error_bind, dif_neg hle]
    rfl

/-- **`readFd` in machine arithmetic** is that of the model, for as many bytes as the two
buffers of `readv` can take. -/
theorem readFd_eq (h : b.Fits) (savedErrno : ℕ) (hd : data.length ≤ b.iovLen) :
    b.raw.readFd savedErrno (.delivered data) =
      (outcome (b.readFd (.delivered data))).map fun b' => ((data.length : ℤ), savedErrno, b') := by
  have hw := b.writer_le_size
  have hlt := h.lt
  rw [RawBuffer.readFd, raw_writableBytes, ok_bind, readFd]
  by_cases hle : data.length ≤ b.writableBytes
  · have hadd : add b.writerIndex data.length = .ok (b.writerIndex + data.length) :=
      add_eq (by unfold writableBytes at hle; omega)
    have hfit : (b.copyToWrite data hle).Fits := by rw [Fits, length_copyToWrite]; exact h
    rw [dif_pos hle, List.take_of_length_le hle,
      show b.raw.store b.raw.writerIndex data = _ from store_beginWrite hle, ok_bind, if_pos hle,
      hasWritten, dif_pos (by rw [writableBytes_copyToWrite]; exact hle),
      outcome_some hfit (by rfl),
      show add (b.copyToWrite data hle).raw.writerIndex data.length = _ from hadd]
    rfl
  · have htake := List.length_take_le b.writableBytes data
    have hfit : (b.copyToWrite _ htake).writeToEnd.Fits := by
      rw [Fits, show (b.copyToWrite _ htake).writeToEnd.buffer = (b.copyToWrite _ htake).buffer
        from rfl, length_copyToWrite]
      exact h
    have hmax : (data.drop b.writableBytes).length ≤ maxSize := by
      rw [List.length_drop]
      unfold iovLen sizeofExtrabuf at hd
      unfold maxSize
      split_ifs at hd
      · omega
      · omega
    rw [show b.raw.store b.raw.writerIndex (data.take b.writableBytes) = _ from
        store_beginWrite htake, ok_bind, dif_neg hle, if_neg hle, ← append_eq hfit hmax,
      sub_eq (Nat.le_of_lt (Nat.not_le.1 hle)), ok_bind]
    change (RawBuffer.append (b.copyToWrite _ htake).writeToEnd.raw _ >>= _) = _
    cases (b.copyToWrite _ htake).writeToEnd.raw.append (data.drop b.writableBytes) <;> rfl

end Buffer
end BearRpc
