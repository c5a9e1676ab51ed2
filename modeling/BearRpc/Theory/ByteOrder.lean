/-
# The bytes of an integer

An integer of `n` bytes in the memory of a host, and the conversions between the order of
the host and the big-endian one (`htobe64`, `be64toh` and their siblings): both swap the
bytes on a little-endian host and do nothing on a big-endian one.

Behind `htobe` the memory has the big-endian encoding, whatever the host is
(`memory_htobe`), and `betoh` decodes it (`betoh_ofMemory`).  For one byte neither is
needed (`memory_byte`, `ofMemory_byte`).
-/

import Mathlib.Data.Nat.Digits.Defs

namespace BearRpc
namespace Theory

/-- The `n` bytes of `x`, the lowest first. -/
def bytesOf : ℕ → ℕ → List UInt8
  | 0, _ => []
  | n + 1, x => UInt8.ofNat x :: bytesOf n (x / 256)

/-- The number with these bytes, the lowest first. -/
def numberOf (l : List UInt8) : ℕ := Nat.ofDigits 256 (l.map UInt8.toNat)

variable {n x : ℕ} {l : List UInt8}

/-- A number is written with as many bytes as asked for, whether or not it needs them. -/
@[simp] theorem length_bytesOf : (bytesOf n x).length = n := by
  induction n generalizing x with
  | zero => rfl
  | succ n ih => exact congrArg (· + 1) ih

/-- The first byte counts least: the number is read from the low end. -/
theorem numberOf_cons {c : UInt8} : numberOf (c :: l) = c.toNat + 256 * numberOf l :=
  Nat.ofDigits_cons

/-- **Reading what was written gives the number back**, if it fits the bytes that were asked
for; otherwise what is beyond them is lost. -/
theorem numberOf_bytesOf (h : x < 256 ^ n) : numberOf (bytesOf n x) = x := by
  induction n generalizing x with
  | zero => exact (Nat.lt_one_iff.1 h).symm
  | succ n ih =>
    have hdiv : x / 256 < 256 ^ n := Nat.div_lt_of_lt_mul (by rwa [← Nat.pow_succ'])
    rw [bytesOf, numberOf_cons, ih hdiv]
    exact Nat.mod_add_div x 256

/-- **Writing what was read gives the bytes back**, with no condition: every list of bytes
is the way to write its number in so many bytes. -/
theorem bytesOf_numberOf (l : List UInt8) : bytesOf l.length (numberOf l) = l := by
  induction l with
  | nil => rfl
  | cons c l ih =>
    have hc : c.toNat < 256 := c.toNat_lt
    have hmod : (c.toNat + 256 * numberOf l) / 256 = numberOf l := by omega
    have hbyte : UInt8.ofNat (c.toNat + 256 * numberOf l) = c := by
      rw [← UInt8.toNat_inj, UInt8.toNat_ofNat']
      omega
    rw [numberOf_cons, List.length_cons, bytesOf, hmod, ih, hbyte]

/-- The number read from `n` bytes is below `256 ^ n`, so it fits a word of `8 * n` bits. -/
theorem numberOf_lt (l : List UInt8) : numberOf l < 256 ^ l.length := by
  rw [← List.length_map UInt8.toNat]
  refine Nat.ofDigits_lt_base_pow_length (by decide) fun d hd => ?_
  obtain ⟨c, -, rfl⟩ := List.mem_map.1 hd
  exact c.toNat_lt

/-! ### Words -/

/-- A word of `n` bytes. -/
abbrev Word (n : ℕ) := BitVec (8 * n)

/-- The bytes of a word, the lowest first. -/
def littleEndian (w : Word n) : List UInt8 := bytesOf n w.toNat

/-- The bytes of a word, the highest first. -/
def bigEndian (w : Word n) : List UInt8 := (littleEndian w).reverse

def ofLittleEndian (n : ℕ) (l : List UInt8) : Word n := BitVec.ofNat _ (numberOf l)

def ofBigEndian (n : ℕ) (l : List UInt8) : Word n := ofLittleEndian n l.reverse

/-- The bound of a word of `n` bytes, once counted in bits and once in bytes. -/
theorem two_pow_eight_mul (n : ℕ) : 2 ^ (8 * n) = 256 ^ n := Nat.pow_mul 2 8 n

/-- A word of `n` bytes is stored in `n` bytes. -/
@[simp] theorem length_littleEndian {w : Word n} : (littleEndian w).length = n := length_bytesOf

/-- In the other order as well. -/
@[simp] theorem length_bigEndian {w : Word n} : (bigEndian w).length = n := by
  rw [bigEndian, List.length_reverse, length_littleEndian]

/-- A word that is stored with the low byte first and loaded the same way is the same word.
-/
theorem ofLittleEndian_littleEndian (w : Word n) : ofLittleEndian n (littleEndian w) = w := by
  have hlt : w.toNat < 256 ^ n := two_pow_eight_mul n ▸ w.isLt
  rw [ofLittleEndian, littleEndian, numberOf_bytesOf hlt, BitVec.ofNat_toNat, BitVec.setWidth_eq]

/-- The bytes loaded and stored the same way are the same bytes, as long as there are as
many as the word has. -/
theorem littleEndian_ofLittleEndian (h : l.length = n) :
    littleEndian (ofLittleEndian n l) = l := by
  have hlt : numberOf l < 2 ^ (8 * n) := by
    rw [two_pow_eight_mul, ← h]
    exact numberOf_lt l
  rw [littleEndian, ofLittleEndian, BitVec.toNat_ofNat, Nat.mod_eq_of_lt hlt, ← h,
    bytesOf_numberOf]

/-- **The order on the wire loses nothing**: a word stored with the high byte first and
loaded the same way is the same word. -/
theorem ofBigEndian_bigEndian (w : Word n) : ofBigEndian n (bigEndian w) = w := by
  rw [ofBigEndian, bigEndian, List.reverse_reverse, ofLittleEndian_littleEndian]

/-! ### The order of the host -/

/-- The order of the bytes in memory. -/
inductive Endian where
  | little
  | big
  deriving DecidableEq, Repr

namespace Endian

/-- What memory has for a word. -/
def store (host : Endian) (w : Word n) : List UInt8 :=
  match host with
  | little => littleEndian w
  | big => bigEndian w

/-- The word that memory has. -/
def load (host : Endian) (n : ℕ) (l : List UInt8) : Word n :=
  match host with
  | little => ofLittleEndian n l
  | big => ofBigEndian n l

/-- The bytes of a little-endian host in the opposite order. -/
def swap (host : Endian) (w : Word n) : Word n :=
  match host with
  | little => ofBigEndian n (littleEndian w)
  | big => w

variable {host : Endian}

/-- Whatever the order of a host is, it loads what it has stored. -/
theorem load_store (w : Word n) : host.load n (host.store w) = w := by
  cases host with
  | little => exact ofLittleEndian_littleEndian w
  | big => exact ofBigEndian_bigEndian w

/-- **A swapped word in memory** is big-endian, whichever order the host has: a host of that
order swaps nothing. -/
theorem store_swap (w : Word n) : host.store (host.swap w) = bigEndian w := by
  cases host with
  | little =>
    refine littleEndian_ofLittleEndian ?_
    rw [List.length_reverse, length_littleEndian]
  | big => rfl

/-- **A big-endian word** is swapped behind memory: loaded from its bytes and swapped, it is
the word again on any host. -/
theorem swap_load_bigEndian (w : Word n) : host.swap (host.load n (bigEndian w)) = w := by
  cases host with
  | little =>
    have hlen : (bigEndian w).length = n := length_bigEndian
    change ofBigEndian n (littleEndian (ofLittleEndian n (bigEndian w))) = w
    rw [littleEndian_ofLittleEndian hlen, ofBigEndian_bigEndian]
  | big => exact ofBigEndian_bigEndian w

end Endian

/-! ### Integers -/

/-- A type of integers with as many bytes as `size`, given by its bit patterns. -/
class FixedWidth (α : Type) where
  size : ℕ
  toWord : α → Word size
  ofWord : Word size → α
  ofWord_toWord : ∀ x, ofWord (toWord x) = x
  toWord_ofWord : ∀ w, toWord (ofWord w) = w

instance : FixedWidth Int8 := ⟨1, Int8.toBitVec, .ofBitVec, fun _ => rfl, fun _ => rfl⟩
instance : FixedWidth Int16 := ⟨2, Int16.toBitVec, .ofBitVec, fun _ => rfl, fun _ => rfl⟩
instance : FixedWidth Int32 := ⟨4, Int32.toBitVec, .ofBitVec, fun _ => rfl, fun _ => rfl⟩
instance : FixedWidth Int64 := ⟨8, Int64.toBitVec, .ofBitVec, fun _ => rfl, fun _ => rfl⟩

namespace FixedWidth

variable {α : Type} [FixedWidth α] (host : Endian)

/-- The bytes of a variable. -/
def memory (x : α) : List UInt8 := host.store (toWord x)

/-- A variable with the given bytes. -/
def ofMemory (α : Type) [FixedWidth α] (l : List UInt8) : α := ofWord (host.load (size α) l)

/-- `htobe64` and its siblings -/
def htobe (x : α) : α := ofWord (host.swap (toWord x))

/-- `be64toh` and its siblings -/
def betoh (x : α) : α := ofWord (host.swap (toWord x))

/-- The big-endian encoding. -/
def encode (x : α) : List UInt8 := bigEndian (toWord x)

variable {host} {x : α}

/-- An integer is sent with as many bytes as its type has. -/
@[simp] theorem length_encode : (encode x).length = size α := length_bigEndian

/-- **`htobe` puts the bytes in the order of the wire**: the memory of its result on any
host is the big-endian encoding of the argument. -/
theorem memory_htobe : memory host (htobe host x) = encode x := by
  rw [memory, htobe, toWord_ofWord, Endian.store_swap, encode]

example : memory .little (htobe .little (-2 : Int16)) = [255, 254] := by decide

/-- **`betoh` takes them back**: applied to what a host reads from the bytes of the wire, it
gives the integer that was sent. -/
theorem betoh_ofMemory : betoh host (ofMemory host α (encode x)) = x := by
  rw [betoh, ofMemory, toWord_ofWord, encode, Endian.swap_load_bigEndian, ofWord_toWord]

/-- A list of one byte is its own reverse. -/
theorem memory_byte (h : size α = 1) : memory host x = encode x := by
  have hlen : (littleEndian (toWord x)).length = 1 := length_littleEndian.trans h
  obtain ⟨c, hc⟩ := List.length_eq_one_iff.1 hlen
  cases host with
  | little =>
    change littleEndian (toWord x) = (littleEndian (toWord x)).reverse
    rw [hc]
    rfl
  | big => rfl

/-- For integers of one byte there is nothing to swap, and the code calls neither function.
-/
theorem ofMemory_byte (h : size α = 1) : ofMemory host α (encode x) = x := by
  have hmem : memory host x = encode x := memory_byte h
  rw [← hmem, ofMemory, memory, Endian.load_store, ofWord_toWord]

end FixedWidth

end Theory
end BearRpc
