/-
# The connection buffer

`src/RPC/bearTCP/Buffer.h`: a `std::vector<char>` with a reader index and a
writer index.  The readable bytes lie in `[readerIndex_, writerIndex_)`, the
bytes before them can take a prefix, the bytes after them are written to.

A `Buffer` carries the order of its indices, and that the vector holds the
cheap-prepend area, so no operation can build one that breaks them.  An
operation with an `assert` returns `none` where the assertion fails.  Pointers
into the vector are offsets from `begin()`, and `size_t` values are natural
numbers: the fields keep every difference the code takes non-negative.

Each operation is described by what it does to the readable bytes:
`append` puts bytes behind them (`append_readable`), `retrieve` takes bytes
away in front (`retrieve_readable`), and under the stated precondition no
assertion fails.
-/

import BearRpc.Theory.Search
import Mathlib.Algebra.Ring.Nat

namespace BearRpc

open Theory

/-- Bytes, as a `char` array or a `std::string` holds them. -/
abbrev Bytes := List UInt8

/-- `Buffer::kCRLF` without its terminating zero: `"\r\n"`. -/
def kCRLF : Bytes := [13, 10]

/-- `class Buffer`, with the invariant of its indices. -/
@[ext] structure Buffer where
  /-- `std::vector<char> buffer_` -/
  buffer : Bytes
  /-- `size_t readerIndex_` -/
  readerIndex : ℕ
  /-- `size_t writerIndex_` -/
  writerIndex : ℕ
  reader_le_writer : readerIndex ≤ writerIndex
  writer_le_size : writerIndex ≤ buffer.length
  cheapPrepend_le_size : 8 ≤ buffer.length
  deriving DecidableEq, Repr

namespace Buffer

/-- `kCheapPrepend` -/
def kCheapPrepend : ℕ := 8

/-- `kInitialSize` -/
def kInitialSize : ℕ := 1024

/-- `std::copy` of `data` to offset `p` of a vector that has room for it. -/
def overwrite (v : Bytes) (p : ℕ) (data : Bytes) : Bytes :=
  v.take p ++ data ++ v.drop (p + data.length)

/-- Overwriting bytes inside a vector does not change its size. -/
theorem length_overwrite {v : Bytes} {p : ℕ} {data : Bytes} (h : p + data.length ≤ v.length) :
    (overwrite v p data).length = v.length := by
  simp only [overwrite, List.length_append, List.length_take, List.length_drop]
  omega

/-- What stands before and in the overwritten part is the old front and the new data. -/
theorem take_overwrite {v : Bytes} {p : ℕ} {data : Bytes} (h : p ≤ v.length) :
    (overwrite v p data).take (p + data.length) = v.take p ++ data :=
  List.take_left' (by rw [List.length_append, List.length_take, Nat.min_eq_left h])

/-- `std::vector::resize` to a larger size: the new bytes are zero. -/
def resize (v : Bytes) (n : ℕ) : Bytes := v ++ List.replicate (n - v.length) 0

/-- A vector that is resized has the size asked for. -/
theorem length_resize {v : Bytes} {n : ℕ} (h : v.length ≤ n) : (resize v n).length = n := by
  simp only [resize, List.length_append, List.length_replicate]
  omega

/-- `Buffer(size_t initialSize)` -/
def new (initialSize : ℕ) : Buffer where
  buffer := List.replicate (kCheapPrepend + initialSize) 0
  readerIndex := kCheapPrepend
  writerIndex := kCheapPrepend
  reader_le_writer := le_rfl
  writer_le_size := by simp
  cheapPrepend_le_size := by simp [kCheapPrepend]

variable (b : Buffer)

def readableBytes : ℕ := b.writerIndex - b.readerIndex

def writableBytes : ℕ := b.buffer.length - b.writerIndex

def prependableBytes : ℕ := b.readerIndex

/-- `peek()`: the offset of the first readable byte. -/
def peek : ℕ := b.readerIndex

/-- `beginWrite()`: the offset behind the last readable byte. -/
def beginWrite : ℕ := b.writerIndex

/-- The `len` bytes of the vector from offset `p` on. -/
def bytesAt (p len : ℕ) : Bytes := (b.buffer.drop p).take len

/-- The readable bytes, those of `[peek(), beginWrite())`. -/
def readable : Bytes := b.bytesAt b.peek b.readableBytes

/-- `findCRLF()`: the offset of the first `"\r\n"` among the readable bytes. -/
def findCRLF : Option ℕ :=
  (search kCRLF (b.bytesAt b.peek (b.beginWrite - b.peek))).map (b.peek + ·)

/-- `retrieveAll()` -/
def retrieveAll : Buffer :=
  { b with
    readerIndex := kCheapPrepend
    writerIndex := kCheapPrepend
    reader_le_writer := le_rfl
    writer_le_size := b.cheapPrepend_le_size }

/-- `retrieve(size_t len)` -/
def retrieve (len : ℕ) : Option Buffer :=
  if len ≤ b.readableBytes then
    if h : len < b.readableBytes then
      some { b with
        readerIndex := b.readerIndex + len
        reader_le_writer := by unfold readableBytes at h; omega }
    else
      some b.retrieveAll
  else
    none

/-- `retrieveUntil(const char *end)` -/
def retrieveUntil (last : ℕ) : Option Buffer :=
  if b.peek ≤ last ∧ last ≤ b.beginWrite then b.retrieve (last - b.peek) else none

/-- `retrieveAsString(size_t len)` -/
def retrieveAsString (len : ℕ) : Option (Bytes × Buffer) :=
  if len ≤ b.readableBytes then
    (b.retrieve len).map fun b' => (b.bytesAt b.peek len, b')
  else
    none

/-- `hasWritten(size_t len)` -/
def hasWritten (len : ℕ) : Option Buffer :=
  if h : len ≤ b.writableBytes then
    some { b with
      writerIndex := b.writerIndex + len
      reader_le_writer := le_trans b.reader_le_writer (Nat.le_add_right _ _)
      writer_le_size := by have := b.writer_le_size; unfold writableBytes at h; omega }
  else
    none

/-- `makeSpace(size_t len)`, called where fewer than `len` bytes are writable:
the vector grows, or the readable bytes move to the front. -/
def makeSpace (len : ℕ) (hlen : b.writableBytes < len) : Option Buffer :=
  if b.writableBytes + b.prependableBytes < len + kCheapPrepend then
    some { b with
      buffer := resize b.buffer (b.writerIndex + len)
      writer_le_size := by
        have := b.writer_le_size
        unfold writableBytes at hlen
        rw [length_resize (by omega)]
        omega
      cheapPrepend_le_size := by
        have := b.writer_le_size
        have := b.cheapPrepend_le_size
        unfold writableBytes at hlen
        rw [length_resize (by omega)]
        omega }
  else if h : kCheapPrepend < b.readerIndex then
    have hroom : kCheapPrepend + b.readable.length ≤ b.buffer.length := by
      have := b.writer_le_size
      have := b.reader_le_writer
      simp only [readable, bytesAt, peek, readableBytes, List.length_take, List.length_drop]
      omega
    some {
      buffer := overwrite b.buffer kCheapPrepend b.readable
      readerIndex := kCheapPrepend
      writerIndex := kCheapPrepend + b.readableBytes
      reader_le_writer := Nat.le_add_right _ _
      writer_le_size := by
        have := b.writer_le_size
        have := b.reader_le_writer
        rw [length_overwrite hroom]
        unfold readableBytes
        omega
      cheapPrepend_le_size := by rw [length_overwrite hroom]; exact b.cheapPrepend_le_size }
  else
    none

/-- `ensureWritableBytes(size_t len)` -/
def ensureWritableBytes (len : ℕ) : Option Buffer :=
  let b' := if h : b.writableBytes < len then b.makeSpace len h else some b
  b'.filter fun b' => len ≤ b'.writableBytes

/-- `std::copy(data, data + len, beginWrite())` with room for `data`. -/
def copyToWrite (data : Bytes) (h : data.length ≤ b.writableBytes) : Buffer :=
  have hroom : b.writerIndex + data.length ≤ b.buffer.length := by
    have := b.writer_le_size; unfold writableBytes at h; omega
  { b with
    buffer := overwrite b.buffer b.writerIndex data
    writer_le_size := by rw [length_overwrite hroom]; exact b.writer_le_size
    cheapPrepend_le_size := by rw [length_overwrite hroom]; exact b.cheapPrepend_le_size }

/-- `append(const char *data, size_t len)` -/
def append (data : Bytes) : Option Buffer :=
  match b.ensureWritableBytes data.length with
  | none => none
  | some b' =>
    if h : data.length ≤ b'.writableBytes then
      (b'.copyToWrite data h).hasWritten data.length
    else
      none

/-- `prepend(const void *data, size_t len)` -/
def prepend (data : Bytes) : Option Buffer :=
  if h : data.length ≤ b.prependableBytes then
    have hroom : b.readerIndex - data.length + data.length ≤ b.buffer.length := by
      have := b.reader_le_writer
      have := b.writer_le_size
      unfold prependableBytes at h
      omega
    some {
      buffer := overwrite b.buffer (b.readerIndex - data.length) data
      readerIndex := b.readerIndex - data.length
      writerIndex := b.writerIndex
      reader_le_writer := le_trans (Nat.sub_le _ _) b.reader_le_writer
      writer_le_size := by rw [length_overwrite hroom]; exact b.writer_le_size
      cheapPrepend_le_size := by rw [length_overwrite hroom]; exact b.cheapPrepend_le_size }
  else
    none

/-- What `readv` did: it failed with an `errno`, or it delivered bytes, the
first ones to `vec[0]` and the rest to `vec[1]`. -/
inductive Readv where
  | failed (errno : ℕ)
  | delivered (bytes : Bytes)

/-- `sizeof extrabuf` -/
def sizeofExtrabuf : ℕ := 65536

/-- The total length of the `iovcnt` buffers that `readFd` passes to `readv`. -/
def iovLen : ℕ :=
  if b.writableBytes < sizeofExtrabuf then b.writableBytes + sizeofExtrabuf else b.writableBytes

/-- The buffer with all of its vector written. -/
def writeToEnd : Buffer :=
  { b with
    writerIndex := b.buffer.length
    reader_le_writer := le_trans b.reader_le_writer b.writer_le_size
    writer_le_size := le_rfl }

/-- `readFd(int fd, int *savedErrno)`: the buffer behind it. -/
def readFd : Readv → Option Buffer
  | .failed _ => some b
  | .delivered bytes =>
    if h : bytes.length ≤ b.writableBytes then
      (b.copyToWrite bytes h).hasWritten bytes.length
    else
      (b.copyToWrite (bytes.take b.writableBytes) (List.length_take_le _ _)).writeToEnd.append
        (bytes.drop b.writableBytes)

/-! ### What the operations do to the readable bytes -/

/-- The unread bytes are as many as `readableBytes()` says. -/
@[simp] theorem length_readable : b.readable.length = b.readableBytes := by
  have := b.reader_le_writer
  have := b.writer_le_size
  simp only [readable, bytesAt, peek, readableBytes, List.length_take, List.length_drop]
  omega

/-- A new buffer has none. -/
@[simp] theorem readable_new (n : ℕ) : (new n).readable = [] := by
  simp [readable, bytesAt, readableBytes, new]

/-- A buffer from which all were taken has none. -/
@[simp] theorem readable_retrieveAll : b.retrieveAll.readable = [] := by
  simp [readable, bytesAt, readableBytes, retrieveAll]

variable {b}

/-- The unread bytes stand between the two indices. -/
theorem readable_eq : b.readable = (b.buffer.take b.writerIndex).drop b.readerIndex := by
  rw [readable, bytesAt, readableBytes, peek, List.drop_take]

/-- The first unread bytes are the bytes of memory from `peek()` on, as the functions that
are given a pointer see them. -/
theorem bytesAt_peek {len : ℕ} (h : len ≤ b.readableBytes) :
    b.bytesAt b.peek len = b.readable.take len := by
  rw [readable, bytesAt, bytesAt, List.take_take, Nat.min_eq_left h]

/-- `findCRLF` looks at the readable bytes alone. -/
theorem findCRLF_eq : b.findCRLF = (search kCRLF b.readable).map (b.peek + ·) := rfl

/-- **`retrieve` takes the first `len` readable bytes away**, and its assertion
holds when there are as many. -/
theorem retrieve_readable {len : ℕ} (h : len ≤ b.readableBytes) :
    ∃ b', b.retrieve len = some b' ∧ b'.readable = b.readable.drop len := by
  unfold retrieve
  rw [if_pos h]
  split_ifs with hlt
  · refine ⟨_, rfl, ?_⟩
    rw [readable_eq, readable_eq, List.drop_drop]
  · refine ⟨_, rfl, ?_⟩
    rw [readable_retrieveAll, List.drop_eq_nil_of_le]
    rw [length_readable]
    omega

/-- `retrieveAsString` returns the bytes it takes away. -/
theorem retrieveAsString_readable {len : ℕ} (h : len ≤ b.readableBytes) :
    ∃ b', b.retrieveAsString len = some (b.readable.take len, b') ∧
      b'.readable = b.readable.drop len := by
  obtain ⟨b', hb', hr⟩ := retrieve_readable h
  refine ⟨b', ?_, hr⟩
  rw [retrieveAsString, if_pos h, hb', Option.map_some, bytesAt_peek h]

/-- `makeSpace` makes room for `len` bytes, keeps the readable ones, and its
assertion `kCheapPrepend < readerIndex_` holds. -/
theorem makeSpace_readable {len : ℕ} (hlen : b.writableBytes < len) :
    ∃ b', b.makeSpace len hlen = some b' ∧ b'.readable = b.readable ∧ len ≤ b'.writableBytes := by
  have hr := b.reader_le_writer
  have hw := b.writer_le_size
  unfold writableBytes at hlen
  unfold makeSpace
  split_ifs with hgrow hpre
  · refine ⟨_, rfl, ?_, ?_⟩
    · rw [readable_eq, readable_eq]
      dsimp only
      rw [resize, List.take_append_of_le_length hw]
    · simp only [writableBytes]
      rw [length_resize (by omega)]
      omega
  · have hroom : kCheapPrepend + b.readable.length ≤ b.buffer.length := by
      rw [length_readable, readableBytes]
      omega
    have hcheap : kCheapPrepend ≤ b.buffer.length := by omega
    refine ⟨_, rfl, ?_, ?_⟩
    · rw [readable_eq]
      dsimp only
      rw [← length_readable, take_overwrite hcheap]
      exact List.drop_left' (by rw [List.length_take, Nat.min_eq_left hcheap])
    · unfold writableBytes prependableBytes at hgrow
      simp only [writableBytes, readableBytes]
      rw [length_overwrite hroom]
      omega
  · unfold writableBytes prependableBytes at hgrow
    omega

/-- **Making room always succeeds**, leaves the unread bytes as they are, and there is as
much room as was asked for. -/
theorem ensureWritableBytes_readable (b : Buffer) (len : ℕ) :
    ∃ b', b.ensureWritableBytes len = some b' ∧ b'.readable = b.readable ∧
      len ≤ b'.writableBytes := by
  unfold ensureWritableBytes
  split_ifs with h
  · obtain ⟨b', hb', hr, hl⟩ := makeSpace_readable h
    exact ⟨b', by simp [hb', hl], hr, hl⟩
  · exact ⟨b, by simp [Nat.not_lt.1 h], rfl, Nat.not_lt.1 h⟩

/-- Copying data into the free part does not move `writerIndex_`, so as much room as before
is left until `hasWritten` is called. -/
@[simp] theorem writableBytes_copyToWrite {data : Bytes} (h : data.length ≤ b.writableBytes) :
    (b.copyToWrite data h).writableBytes = b.writableBytes := by
  have hw := b.writer_le_size
  have hroom : b.writerIndex + data.length ≤ b.buffer.length := by
    unfold writableBytes at h; omega
  simp [writableBytes, copyToWrite, length_overwrite hroom]

/-- Bytes written behind the readable ones are the last of them. -/
theorem take_copyToWrite {data : Bytes} (h : data.length ≤ b.writableBytes) :
    ((b.copyToWrite data h).buffer.take (b.writerIndex + data.length)).drop b.readerIndex =
      b.readable ++ data := by
  have hr := b.reader_le_writer
  have hw := b.writer_le_size
  rw [readable_eq]
  dsimp only [copyToWrite]
  rw [take_overwrite hw]
  exact List.drop_append_of_le_length (by rw [List.length_take]; omega)

/-- **`hasWritten` behind a copy puts the bytes behind the readable ones**, for data that
fit into the writable part. -/
theorem hasWritten_readable {data : Bytes} (h : data.length ≤ b.writableBytes) :
    ∃ b', (b.copyToWrite data h).hasWritten data.length = some b' ∧
      b'.readable = b.readable ++ data := by
  unfold hasWritten
  rw [dif_pos (by rw [writableBytes_copyToWrite]; exact h)]
  refine ⟨_, rfl, ?_⟩
  rw [← take_copyToWrite h, readable_eq]
  rfl

/-- **`append` puts the bytes behind the readable ones**, whatever the state of
the buffer, and no assertion fails. -/
theorem append_readable (b : Buffer) (data : Bytes) :
    ∃ b', b.append data = some b' ∧ b'.readable = b.readable ++ data := by
  obtain ⟨b₁, hb₁, hr₁, hl₁⟩ := ensureWritableBytes_readable b data.length
  obtain ⟨b₂, hb₂, hr₂⟩ := hasWritten_readable hl₁
  refine ⟨b₂, ?_, by rw [hr₂, hr₁]⟩
  simp only [append, hb₁, hl₁, dite_true, hb₂]

/-- `retrieveUntil` takes the bytes before `last` away. -/
theorem retrieveUntil_readable {last : ℕ} (h : b.peek ≤ last) (h' : last ≤ b.beginWrite) :
    ∃ b', b.retrieveUntil last = some b' ∧ b'.readable = b.readable.drop (last - b.peek) := by
  have hlen : last - b.peek ≤ b.readableBytes := by
    unfold beginWrite at h'; unfold readableBytes peek; omega
  rw [retrieveUntil, if_pos ⟨h, h'⟩]
  exact retrieve_readable hlen

/-- **`prepend` puts the bytes before the readable ones**, for data that fit into the space
in front of them. -/
theorem prepend_readable {data : Bytes} (h : data.length ≤ b.prependableBytes) :
    ∃ b', b.prepend data = some b' ∧ b'.readable = data ++ b.readable := by
  have hr := b.reader_le_writer
  have hw := b.writer_le_size
  rw [prepend, dif_pos h]
  unfold prependableBytes at h
  refine ⟨_, rfl, ?_⟩
  have hback : b.readerIndex - data.length + data.length = b.readerIndex := by omega
  have hlen : (b.buffer.take (b.readerIndex - data.length)).length =
      b.readerIndex - data.length := by
    rw [List.length_take]
    omega
  rw [readable, readable]
  dsimp only [bytesAt, peek, readableBytes]
  rw [overwrite, hback, List.append_assoc, List.drop_left' hlen]
  have hcount : b.writerIndex - (b.readerIndex - data.length) =
      data.length + (b.writerIndex - b.readerIndex) := by omega
  rw [hcount, List.take_length_add_append]

/-- **`readFd` puts what was delivered behind the readable bytes**, and nothing when `readv`
failed: what does not fit into the vector comes from the second buffer. -/
theorem readFd_delivered (b : Buffer) (bytes : Bytes) :
    ∃ b', b.readFd (.delivered bytes) = some b' ∧ b'.readable = b.readable ++ bytes := by
  have hw := b.writer_le_size
  simp only [readFd]
  split_ifs with h
  · exact hasWritten_readable h
  have hvec : (bytes.take b.writableBytes).length = b.writableBytes := by
    rw [List.length_take]
    omega
  have hroom : b.writerIndex + (bytes.take b.writableBytes).length = b.buffer.length := by
    rw [hvec]
    unfold writableBytes
    omega
  have hle := List.length_take_le b.writableBytes bytes
  obtain ⟨b', hb', hr⟩ := append_readable (b.copyToWrite _ hle).writeToEnd
    (bytes.drop b.writableBytes)
  have hfull : (b.copyToWrite _ hle).writeToEnd.readable =
      b.readable ++ bytes.take b.writableBytes := by
    rw [← take_copyToWrite hle, readable_eq]
    dsimp only [writeToEnd]
    rw [hroom]
    dsimp only [copyToWrite]
    rw [length_overwrite (Nat.le_of_eq hroom)]
  exact ⟨b', hb', by rw [hr, hfull, List.append_assoc, List.take_append_drop]⟩

end Buffer
end BearRpc
