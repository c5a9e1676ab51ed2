/-
# `Buffer` is a byte deque

`src/RPC/bearTCP/Buffer.h`, lines 75 to 158 and 261 to 292, and
`src/RPC/bearTCP/Buffer.cc`, lines 14 to 37: the operations of any number of
buffers in any order, in machine arithmetic.

Abstractly a buffer is the list of its readable bytes: bytes are added at the
tail or, by `prepend`, at the head, and removed from the head (`spec`).
`refines_deque` says that the buffers do just that, whatever sequence of
operations is called, as long as each is called under the precondition it
asserts and does not grow a vector past its `max_size()` (`Permitted`).  What an
operation grows the vector to is a matter of its indices (`grownTo`).
-/

import BearRpc.Tcp.SizeT
import BearRpc.Theory.Refinement
import Mathlib.Logic.Function.Basic

namespace BearRpc

open Theory SizeT Function

namespace RawBuffer

open Buffer (Readv kCheapPrepend sizeofExtrabuf)

/-- The bytes in `[readerIndex_, writerIndex_)`. -/
def contents (b : RawBuffer) : Bytes := (b.buffer.take b.writerIndex).drop b.readerIndex

/-- The total length of the buffers that `readFd` passes to `readv`. -/
def iovLen (b : RawBuffer) : ℕ :=
  if b.buffer.length - b.writerIndex < sizeofExtrabuf then
    b.buffer.length - b.writerIndex + sizeofExtrabuf
  else
    b.buffer.length - b.writerIndex

/-- The size of the vector behind `ensureWritableBytes(len)`: it grows if neither
the bytes behind the readable ones nor those before them are enough. -/
def grownTo (b : RawBuffer) (len : ℕ) : ℕ :=
  if b.buffer.length - b.writerIndex < len ∧
      b.buffer.length - b.writerIndex + b.readerIndex < len + kCheapPrepend then
    b.writerIndex + len
  else
    b.buffer.length

/-- The size of the vector behind a `readFd` that delivers `n` bytes: those that
`vec[0]` has no room for are appended to the full vector. -/
def readGrownTo (b : RawBuffer) (n : ℕ) : ℕ :=
  { b with writerIndex := b.buffer.length }.grownTo (n - (b.buffer.length - b.writerIndex))

variable {ι : Type} [DecidableEq ι]

/-- A call of an operation of the buffer `i`.  `write` is a copy to `beginWrite()`
with `hasWritten` behind it, and `retrieveUntil` gets a pointer `offset` bytes
behind `peek()`. -/
inductive Op (ι : Type) where
  | append (i : ι) (data : Bytes)
  | ensureWritableBytes (i : ι) (len : ℕ)
  | write (i : ι) (data : Bytes)
  | prepend (i : ι) (data : Bytes)
  | retrieve (i : ι) (len : ℕ)
  | retrieveUntil (i : ι) (offset : ℕ)
  | retrieveAll (i : ι)
  | retrieveAsString (i : ι) (len : ℕ)
  | swap (i j : ι)
  | readFd (i : ι) (result : Readv)

/-- A buffer gets a new value, where the operation did not fail. -/
def assign (s : ι → RawBuffer) (i : ι) (b : Except Fault RawBuffer) :
    Except Fault (Bytes × (ι → RawBuffer)) :=
  b.map fun b => ([], update s i b)

/-- What an operation does to the buffers, with the bytes it returns. -/
def step (s : ι → RawBuffer) : Op ι → Except Fault (Bytes × (ι → RawBuffer))
  | .append i data => assign s i ((s i).append data)
  | .ensureWritableBytes i len => assign s i ((s i).ensureWritableBytes len)
  | .write i data =>
    assign s i ((s i).store (s i).beginWrite data >>= fun b => b.hasWritten data.length)
  | .prepend i data => assign s i ((s i).prepend data)
  | .retrieve i len => assign s i ((s i).retrieve len)
  | .retrieveUntil i offset => assign s i ((s i).retrieveUntil ((s i).peek + offset))
  | .retrieveAll i => assign s i (.ok (s i).retrieveAll)
  | .retrieveAsString i len =>
    ((s i).retrieveAsString len).map fun (result, b) => (result, update s i b)
  | .swap i j => .ok ([], update (update s i (s j)) j (s i))
  | .readFd i result => assign s i (((s i).readFd 0 result).map fun (_, _, b) => b)

/-- The precondition an operation asserts; a length and the size that the vector is
grown to are at most `max_size()`, and `readv` delivers no more than it was asked
for. -/
def Permitted (s : ι → RawBuffer) : Op ι → Prop
  | .append i data => data.length ≤ maxSize ∧ (s i).grownTo data.length ≤ maxSize
  | .ensureWritableBytes i len => len ≤ maxSize ∧ (s i).grownTo len ≤ maxSize
  | .write i data => data.length ≤ (s i).buffer.length - (s i).writerIndex
  | .prepend i data => data.length ≤ (s i).prependableBytes
  | .retrieve i len => len ≤ (s i).writerIndex - (s i).readerIndex
  | .retrieveUntil i offset => (s i).peek + offset ≤ (s i).beginWrite
  | .retrieveAll _ => True
  | .retrieveAsString i len => len ≤ (s i).writerIndex - (s i).readerIndex
  | .swap _ _ => True
  | .readFd _ (.failed _) => True
  | .readFd i (.delivered bytes) =>
    bytes.length ≤ (s i).iovLen ∧ (s i).readGrownTo bytes.length ≤ maxSize

/-- What an operation does to the deques. -/
def spec (d : ι → Bytes) : Op ι → Bytes × (ι → Bytes)
  | .append i data => ([], update d i (d i ++ data))
  | .ensureWritableBytes _ _ => ([], d)
  | .write i data => ([], update d i (d i ++ data))
  | .prepend i data => ([], update d i (data ++ d i))
  | .retrieve i len => ([], update d i ((d i).drop len))
  | .retrieveUntil i offset => ([], update d i ((d i).drop offset))
  | .retrieveAll i => ([], update d i [])
  | .retrieveAsString i len => ((d i).take len, update d i ((d i).drop len))
  | .swap i j => ([], update (update d i (d j)) j (d i))
  | .readFd _ (.failed _) => ([], d)
  | .readFd i (.delivered bytes) => ([], update d i (d i ++ bytes))

/-- Each buffer has its indices in order and a vector that fits. -/
def Sound (s : ι → RawBuffer) : Prop := ∀ i, ∃ b : Buffer, b.Fits ∧ s i = b.raw

variable {s : ι → RawBuffer} {i j : ι} {b b' : Buffer}

/-- What a buffer of the model holds is what its bytes in memory hold between the two
indices. -/
@[simp] theorem contents_raw (b : Buffer) : b.raw.contents = b.readable := Buffer.readable_eq.symm

/-- An assignment to one buffer. -/
theorem Sound.update (h : Sound s) (hb : b.Fits) : Sound (update s i b.raw) := by
  intro k
  by_cases hk : k = i
  · exact ⟨b, hb, by rw [hk, update_self]⟩
  · rw [update_of_ne hk]
    exact h k

/-- Replacing one of several buffers replaces its contents and those of no other. -/
theorem contents_update (s : ι → RawBuffer) (i : ι) (b : RawBuffer) :
    (fun k => (update s i b k).contents) = update (fun k => (s k).contents) i b.contents := by
  funext k
  by_cases hk : k = i
  · subst hk
    simp
  · rw [update_of_ne hk, update_of_ne hk]

/-- An operation of one buffer that gives the deque `d`, in a vector that fits. -/
theorem assign_outcome (h : Sound s) {r : Except Fault RawBuffer} {o : Option Buffer}
    (hr : r = Buffer.outcome o) (ho : o = some b') {d : Bytes} (hd : b'.readable = d)
    (hfit : b'.Fits) :
    ∃ t, assign s i r = .ok ([], t) ∧ Sound t ∧
      (fun k => (t k).contents) = update (fun k => (s k).contents) i d := by
  subst hr ho hd
  refine ⟨update s i b'.raw, ?_, h.update hfit, ?_⟩
  · rw [assign, Buffer.outcome_some hfit rfl]
    rfl
  · rw [contents_update, contents_raw]

/-- Two buffers that are exchanged are both still in order. -/
theorem Sound.swap (h : Sound s) : Sound (Function.update (Function.update s i (s j)) j (s i)) := by
  obtain ⟨bi, hbi, hi⟩ := h i
  obtain ⟨bj, hbj, hj⟩ := h j
  rw [hi, hj]
  exact (h.update hbj).update hbi

/-! ### The sizes of the vectors -/

/-- Whether a vector is small enough depends on its size alone. -/
theorem fits_of_length_eq (hb : b.Fits) (h : b'.buffer.length = b.buffer.length) : b'.Fits := by
  rw [Buffer.Fits, h]
  exact hb

/-- What the vector holds does not matter. -/
theorem grownTo_congr {r r' : RawBuffer} {len : ℕ} (hbuffer : r.buffer.length = r'.buffer.length)
    (hreader : r.readerIndex = r'.readerIndex) (hwriter : r.writerIndex = r'.writerIndex) :
    r.grownTo len = r'.grownTo len := by
  rw [grownTo, grownTo, hbuffer, hreader, hwriter]

/-- Moving `writerIndex_` forward does not resize the vector. -/
theorem length_of_hasWritten {len : ℕ} (h : b.hasWritten len = some b') :
    b'.buffer.length = b.buffer.length := by
  unfold Buffer.hasWritten at h
  split_ifs at h
  cases h
  rfl

/-- Moving `readerIndex_` forward does not resize the vector. -/
theorem length_of_retrieve {len : ℕ} (h : b.retrieve len = some b') :
    b'.buffer.length = b.buffer.length := by
  unfold Buffer.retrieve at h
  split_ifs at h <;> (cases h; rfl)

/-- Taking the bytes up to a pointer does not resize the vector. -/
theorem length_of_retrieveUntil {last : ℕ} (h : b.retrieveUntil last = some b') :
    b'.buffer.length = b.buffer.length := by
  unfold Buffer.retrieveUntil at h
  split_ifs at h
  exact length_of_retrieve h

/-- Writing in front of the unread bytes does not resize the vector: the space for that is
reserved from the beginning. -/
theorem length_of_prepend {data : Bytes} (h : b.prepend data = some b') :
    b'.buffer.length = b.buffer.length := by
  have hr := b.reader_le_writer
  have hw := b.writer_le_size
  unfold Buffer.prepend at h
  split_ifs at h with hlen
  cases h
  unfold Buffer.prependableBytes at hlen
  exact Buffer.length_overwrite (by omega)

/-- **`makeSpace` grows the vector** as far as it says, and moves the bytes to the front
otherwise. -/
theorem length_of_makeSpace {len : ℕ} {hlen : b.writableBytes < len}
    (h : b.makeSpace len hlen = some b') : b'.buffer.length = b.raw.grownTo len := by
  have hr := b.reader_le_writer
  have hw := b.writer_le_size
  unfold Buffer.makeSpace at h
  unfold Buffer.writableBytes Buffer.prependableBytes at h
  unfold Buffer.writableBytes at hlen
  split_ifs at h with hgrow hfront
  · have hgrown : b.raw.grownTo len = b.writerIndex + len := if_pos ⟨hlen, hgrow⟩
    rw [hgrown]
    cases h
    exact Buffer.length_resize (by omega)
  · have hsame : b.raw.grownTo len = b.buffer.length := if_neg fun hand => hgrow hand.2
    rw [hsame]
    cases h
    refine Buffer.length_overwrite ?_
    rw [Buffer.length_readable, Buffer.readableBytes]
    omega

/-- **Making room resizes the vector** to what `grownTo` says: not at all where there is
room, or where moving the bytes to the front makes it. -/
theorem length_of_ensureWritableBytes {len : ℕ} (h : b.ensureWritableBytes len = some b') :
    b'.buffer.length = b.raw.grownTo len := by
  unfold Buffer.ensureWritableBytes at h
  split_ifs at h with hlen
  · exact length_of_makeSpace (Option.filter_eq_some_iff.1 h).1
  · cases (Option.filter_eq_some_iff.1 h).1
    exact (if_neg fun hand => hlen hand.1).symm

/-- Appending makes room for the data first, and then copies. -/
theorem length_of_append {data : Bytes} (h : b.append data = some b') :
    b'.buffer.length = b.raw.grownTo data.length := by
  unfold Buffer.append at h
  split at h
  · cases h
  · next b₁ hb₁ =>
    split_ifs at h with hlen
    rw [length_of_hasWritten h, Buffer.length_copyToWrite hlen, length_of_ensureWritableBytes hb₁]

/-- Reading from a descriptor fills the room there is, and then appends what has come in the
second buffer. -/
theorem length_of_readFd {bytes : Bytes} (h : b.readFd (.delivered bytes) = some b') :
    b'.buffer.length = b.raw.readGrownTo bytes.length := by
  have hw := b.writer_le_size
  simp only [Buffer.readFd] at h
  split_ifs at h with hlen
  · rw [length_of_hasWritten h, Buffer.length_copyToWrite hlen, readGrownTo, grownTo]
    refine (if_neg fun hand => ?_).symm
    unfold Buffer.writableBytes at hlen
    dsimp only [Buffer.raw] at hand
    omega
  · have hcopy := Buffer.length_copyToWrite (List.length_take_le b.writableBytes bytes)
    rw [length_of_append h, List.length_drop]
    exact grownTo_congr hcopy rfl hcopy

/-- **Every operation is the one of the deque**, on the readable bytes of the buffer it is
about, and leaves the other buffers alone. -/
theorem step_refines : Refines (step : (ι → RawBuffer) → _) spec (fun s k => (s k).contents) Sound
    Permitted (fun _ => False) := by
  refine fun s op hs hop => .inr ?_
  cases op with
  | append i data =>
    obtain ⟨b, hb, hi⟩ := hs i
    obtain ⟨b', hb', hr⟩ := Buffer.append_readable b data
    obtain ⟨hlen, hgrown⟩ := hop
    rw [hi, ← length_of_append hb'] at hgrown
    dsimp only [step, spec]
    rw [hi, contents_raw]
    exact assign_outcome hs (Buffer.append_eq hb hlen) hb' hr hgrown
  | ensureWritableBytes i len =>
    obtain ⟨b, hb, hi⟩ := hs i
    obtain ⟨b', hb', hr, -⟩ := Buffer.ensureWritableBytes_readable b len
    obtain ⟨hlen, hgrown⟩ := hop
    rw [hi, ← length_of_ensureWritableBytes hb'] at hgrown
    have hsame : update (fun k => (s k).contents) i b.readable = fun k => (s k).contents := by
      rw [← contents_raw, ← hi]
      exact update_eq_self i fun k => (s k).contents
    dsimp only [step, spec]
    rw [hi, ← hsame]
    exact assign_outcome hs (Buffer.ensureWritableBytes_eq hb hlen) hb' hr hgrown
  | write i data =>
    obtain ⟨b, hb, hi⟩ := hs i
    have hlen : data.length ≤ b.writableBytes := by
      rw [Permitted, hi] at hop
      exact hop
    obtain ⟨b', hb', hr⟩ := Buffer.hasWritten_readable hlen
    have hfit : (b.copyToWrite data hlen).Fits := by
      rw [Buffer.Fits, Buffer.length_copyToWrite]
      exact hb
    dsimp only [step, spec]
    rw [hi, contents_raw, Buffer.store_beginWrite hlen]
    exact assign_outcome hs (Buffer.hasWritten_eq hfit) hb' hr
      (fits_of_length_eq hfit (length_of_hasWritten hb'))
  | prepend i data =>
    obtain ⟨b, hb, hi⟩ := hs i
    have hlen : data.length ≤ b.prependableBytes := by
      rw [Permitted, hi] at hop
      exact hop
    obtain ⟨b', hb', hr⟩ := Buffer.prepend_readable hlen
    dsimp only [step, spec]
    rw [hi, contents_raw]
    exact assign_outcome hs (Buffer.prepend_eq hb) hb' hr
      (fits_of_length_eq hb (length_of_prepend hb'))
  | retrieve i len =>
    obtain ⟨b, hb, hi⟩ := hs i
    have hlen : len ≤ b.readableBytes := by
      rw [Permitted, hi] at hop
      exact hop
    obtain ⟨b', hb', hr⟩ := Buffer.retrieve_readable hlen
    dsimp only [step, spec]
    rw [hi, contents_raw]
    exact assign_outcome hs (Buffer.retrieve_eq hb) hb' hr
      (fits_of_length_eq hb (length_of_retrieve hb'))
  | retrieveUntil i offset =>
    obtain ⟨b, hb, hi⟩ := hs i
    have hlen : b.peek + offset ≤ b.beginWrite := by
      rw [Permitted, hi] at hop
      exact hop
    obtain ⟨b', hb', hr⟩ := Buffer.retrieveUntil_readable (Nat.le_add_right b.peek offset) hlen
    have hfit : b'.Fits := fits_of_length_eq hb (length_of_retrieveUntil hb')
    rw [Nat.add_sub_cancel_left] at hr
    dsimp only [step, spec]
    rw [hi, contents_raw]
    exact assign_outcome hs (Buffer.retrieveUntil_eq hb) hb' hr hfit
  | retrieveAll i =>
    obtain ⟨b, hb, hi⟩ := hs i
    dsimp only [step, spec]
    rw [hi]
    exact assign_outcome hs (Buffer.outcome_some hb (by rfl)).symm rfl b.readable_retrieveAll hb
  | retrieveAsString i len =>
    obtain ⟨b, hb, hi⟩ := hs i
    have hlen : len ≤ b.readableBytes := by
      rw [Permitted, hi] at hop
      exact hop
    obtain ⟨b', hb', hr⟩ := Buffer.retrieve_readable hlen
    obtain ⟨t, hok, ht⟩ := assign_outcome hs (Buffer.retrieve_eq hb) hb' hr
      (fits_of_length_eq hb (length_of_retrieve hb')) (i := i)
    dsimp only [step, spec]
    rw [hi, contents_raw, Buffer.retrieveAsString_eq hb hlen, ← Buffer.bytesAt_peek hlen]
    rw [Buffer.retrieve_eq hb, assign] at hok
    cases hout : Buffer.outcome (b.retrieve len) with
    | error e =>
      rw [hout] at hok
      cases hok
    | ok b₁ =>
      rw [hout] at hok
      refine ⟨t, ?_, ht⟩
      cases hok
      rfl
  | swap i j =>
    refine ⟨_, rfl, hs.swap, ?_⟩
    change (fun k => (update (update s i (s j)) j (s i) k).contents) = _
    rw [contents_update, contents_update]
    rfl
  | readFd i result =>
    obtain ⟨b, hb, hi⟩ := hs i
    cases result with
    | failed errno =>
      refine ⟨update s i b.raw, ?_, hs.update hb, ?_⟩
      · dsimp only [step]
        rw [hi]
        rfl
      · rw [← hi, update_eq_self]
        rfl
    | delivered bytes =>
      obtain ⟨hlen, hgrown⟩ := hop
      have hlen : bytes.length ≤ b.iovLen := by
        rw [hi] at hlen
        exact hlen
      obtain ⟨b', hb', hr⟩ := Buffer.readFd_delivered b bytes
      rw [hi, ← length_of_readFd hb'] at hgrown
      dsimp only [step, spec]
      rw [hi, contents_raw, Buffer.readFd_eq hb 0 hlen]
      refine assign_outcome hs ?_ hb' hr hgrown
      cases Buffer.outcome (b.readFd (.delivered bytes)) <;> rfl

/-- The constructor makes the buffer of `BearRpc.Buffer`, which fits, if its vector is not to
be too long. -/
theorem new_eq_ok {initialSize : ℕ} (hmax : kCheapPrepend + initialSize ≤ maxSize) :
    RawBuffer.new initialSize = .ok (Buffer.new initialSize).raw ∧
      (Buffer.new initialSize).Fits := by
  have hfit : (Buffer.new initialSize).Fits := by
    have hsize : (Buffer.new initialSize).buffer.length = kCheapPrepend + initialSize :=
      List.length_replicate
    rw [Buffer.Fits, hsize]
    exact hmax
  exact ⟨(Buffer.new_eq (by omega)).trans (if_pos hfit), hfit⟩

/-- **Buffers are byte deques.**  Any number of them can be constructed, of sizes a vector
can have.  After any sequence of operations on them, each called under its precondition, no
assertion has failed, no `size_t` expression has wrapped, no vector was too long and no byte
outside a vector was touched; every buffer has its indices in order, and holds exactly the
bytes of the deque, as do the strings returned. -/
theorem refines_deque {initialSize : ι → ℕ}
    (hmax : ∀ i, kCheapPrepend + initialSize i ≤ maxSize) :
    ∃ s₀, (∀ i, RawBuffer.new (initialSize i) = .ok (s₀ i)) ∧
      ∀ ops, Legal step Permitted s₀ ops →
        ∃ s, Theory.sequence step s₀ ops = .ok ((specSequence spec (fun _ => []) ops).1, s) ∧
          (∀ i, (s i).readerIndex ≤ (s i).writerIndex ∧
            (s i).writerIndex ≤ (s i).buffer.length) ∧
          ∀ i, (s i).contents = (specSequence spec (fun _ => []) ops).2 i := by
  refine ⟨fun i => (Buffer.new (initialSize i)).raw, fun i => (new_eq_ok (hmax i)).1,
    fun ops legal => ?_⟩
  have hsound : Sound fun i => (Buffer.new (initialSize i)).raw :=
    fun i => ⟨_, (new_eq_ok (hmax i)).2, rfl⟩
  have hempty : (fun i => (Buffer.new (initialSize i)).raw.contents) = fun _ => [] := by
    funext i
    rw [contents_raw, Buffer.readable_new]
  obtain ⟨s, hok, hs, habs⟩ :=
    (step_refines.sequence hsound legal).resolve_left fun ⟨_, hfalse, _⟩ => hfalse
  rw [hempty] at hok habs
  refine ⟨s, hok, fun i => ?_, congrFun habs⟩
  obtain ⟨b, -, hi⟩ := hs i
  rw [hi]
  exact ⟨b.reader_le_writer, b.writer_le_size⟩

/-- A buffer constructed with room for four bytes. -/
def roomForFour : RawBuffer := ⟨List.replicate 12 0, 8, 8⟩

/-- Five bytes arrive in it, one in `extrabuf`, and three of them are retrieved. -/
def fiveBytes : List (Op Unit) :=
  [.readFd () (.delivered [1, 2, 3, 4, 5]), .retrieveAsString () 3]

/-- The hypotheses of `refines_deque` are satisfiable: five bytes are appended to a buffer
with room for four, so that its vector grows. -/
theorem refines_deque_fiveBytes :
    ∃ s, Theory.sequence step (fun _ => roomForFour) fiveBytes =
        .ok ((specSequence spec (fun _ => []) fiveBytes).1, s) ∧
      (∀ i, (s i).readerIndex ≤ (s i).writerIndex ∧ (s i).writerIndex ≤ (s i).buffer.length) ∧
        ∀ i, (s i).contents = (specSequence spec (fun _ => []) fiveBytes).2 i := by
  have hmax : ∀ _ : Unit, kCheapPrepend + 4 ≤ maxSize := fun _ => by decide
  have hroom : RawBuffer.new 4 = .ok roomForFour := rfl
  obtain ⟨s₀, hnew, hall⟩ := refines_deque hmax
  obtain rfl : s₀ = fun _ => roomForFour :=
    funext fun i => Except.ok.inj ((hnew i).symm.trans hroom)
  refine hall fiveBytes ⟨⟨show 5 ≤ 65540 by decide, by decide⟩,
    fun b y hy => ⟨?_, fun _ _ _ => trivial⟩⟩
  cases hy
  exact show 3 ≤ 5 by decide

end RawBuffer
end BearRpc
