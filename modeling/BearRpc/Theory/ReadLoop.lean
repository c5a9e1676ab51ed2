/-
# Loops that read up to the end of a stream

`while (!stream.eof()) { stream >> variable; … }`, with records of one number or more.

A failed extraction neither takes anything nor sets `eofbit`.  So the loop ends if and
only if the text consists of numbers up to a last token, which may be anything that ends
with the text (`Readable`), and then after no more turns than there are characters
(`readLoop_isSome_iff`).

The loop looks at `eofbit` before it reads, and the end of the stream is found by reading
past it.  On a file of complete records it stores every record, and a phantom afterwards,
unless the last character of the file is the last digit of a record (`readLoop_file`).
-/

import BearRpc.Theory.IntStream
import Mathlib.Logic.Function.Iterate

namespace BearRpc
namespace Theory

open IntStream

section

variable {ρ σ : Type} (read : ρ → IntStream → ρ × IntStream) (store : σ → ρ → σ) (junk : ℕ → ρ)

/-- The loop, with fuel for its turns.  In the turn `i` the variables have the values
`junk i` before they are read. -/
def readLoop : ℕ → ℕ → σ → IntStream → Option σ
  | 0, _, acc, s => if s.eofbit = true then some acc else none
  | fuel + 1, i, acc, s =>
    if s.eofbit = true then some acc
    else
      let r := read (junk i) s
      readLoop fuel (i + 1) (store acc r.1) r.2

end

/-- **Numbers up to a last token.** -/
inductive Readable : List UInt8 → Prop where
  | last (t : Token) : Readable t.bytes
  | next (t : Token) (c : UInt8) (cs : List UInt8) : t.digits ≠ [] → InRange t.value →
    isDigit c = false → Readable (c :: cs) → Readable (t.bytes ++ c :: cs)

namespace IntStream

/-- The stream behind an extraction. -/
def next (s : IntStream) : IntStream := (extract 0 s).2

/-- `stream >> first >> second` -/
def extractPair (old : ℤ × ℤ) (s : IntStream) : (ℤ × ℤ) × IntStream :=
  let first := extract old.1 s
  let second := extract old.2 first.2
  ((first.1, second.1), second.2)

variable {s : IntStream} {k k' : ℕ} {content : List UInt8}

/-- How far a number is read does not depend on the variable it is read into. -/
theorem takeNumber_snd (old : ℤ) (l : List UInt8) : (takeNumber old l).2 = (takeNumber 0 l).2 := by
  cases l <;> rfl

/-- What is in the variable does not matter for the stream. -/
theorem extract_snd (old : ℤ) (s : IntStream) : (extract old s).2 = s.next := by
  rw [next, extract, extract]
  split
  · rfl
  · exact takeNumber_snd old _

/-- How far a pair is read does not depend on the variables it is read into. -/
theorem extractPair_snd (old : ℤ × ℤ) (s : IntStream) : (extractPair old s).2 = next^[2] s := by
  rw [extractPair, extract_snd, extract_snd]
  rfl

/-- Once the end of the file is reached, it stays reached, however often is read. -/
theorem eofbit_iterate (h : s.eofbit = true) (k : ℕ) : (next^[k] s).eofbit = true := by
  induction k generalizing s with
  | zero => exact h
  | succ k ih =>
    rw [Function.iterate_succ_apply]
    refine ih ?_
    rw [next, extract_of_eofbit h]
    exact h

/-- A read that has met the end is not taken back by further reads. -/
theorem eofbit_iterate_mono (h : (next^[k] s).eofbit = true) (hle : k ≤ k') :
    (next^[k'] s).eofbit = true := by
  rw [← Nat.sub_add_cancel hle, Function.iterate_add_apply]
  exact eofbit_iterate h _

/-- **A failed extraction is the last one** that changes anything: the stream takes nothing
any more, and neither bit is cleared. -/
theorem iterate_of_failbit (h : s.failbit = true) (k : ℕ) : next^[k] s = s := by
  have hnext : s.next = s := by rw [next, extract_of_failbit h]
  induction k with
  | zero => rfl
  | succ k ih => rw [Function.iterate_succ_apply, hnext, ih]

/-- **Extractions that find the end** have read the whole text, so it has numbers only, up
to its last token. -/
theorem readable_of_iterate (h : (next^[k] (opened content)).eofbit = true) :
    Readable content := by
  induction k generalizing content with
  | zero => cases h
  | succ k ih =>
    rw [Function.iterate_succ_apply] at h
    rcases extract_cases content 0 with ⟨-, t, rfl⟩ | ⟨heof, hfail⟩ |
      ⟨t, c, cs, rfl, hne, hrange, hc, hnext⟩
    · exact .last t
    · have hstuck : next^[k] (opened content).next = (opened content).next :=
        iterate_of_failbit hfail k
      rw [hstuck, next, heof] at h
      cases h
    · have hnext' : (opened (t.bytes ++ c :: cs)).next = opened (c :: cs) := hnext
      rw [hnext'] at h
      exact .next t c cs hne hrange hc (ih h)

/-- **A readable text** is read with one extraction for each character at most, or one in
all if it is empty. -/
theorem iterate_of_readable (h : Readable content) :
    (next^[max 1 content.length] (opened content)).eofbit = true := by
  induction h with
  | last t =>
    exact eofbit_iterate_mono (k := 1) (extract_token_eofbit t 0) (Nat.le_max_left ..)
  | next t c cs hne hrange hc _ ih =>
    have hr : NoDigit (c :: cs) := by
      rintro _ ⟨⟩
      exact hc
    have hnext : (opened (t.bytes ++ c :: cs)).next = opened (c :: cs) := by
      rw [next, extract_number hne hrange hr]
      rfl
    have hone : next^[1 + max 1 (c :: cs).length] (opened (t.bytes ++ c :: cs)) =
        next^[max 1 (c :: cs).length] (opened (c :: cs)) := by
      rw [Nat.add_comm, Function.iterate_succ_apply, hnext]
    refine eofbit_iterate_mono (hone ▸ ih) ?_
    have hpos : 0 < t.bytes.length := by
      rw [Token.bytes, List.length_append, List.length_append]
      have := List.length_pos_iff.2 hne
      omega
    simp only [List.length_append, List.length_cons]
    omega

end IntStream

/-! ### When the loop ends -/

section

variable {ρ σ : Type} {read : ρ → IntStream → ρ × IntStream} {store : σ → ρ → σ} {junk : ℕ → ρ}
  {fuel i j : ℕ} {acc : σ} {s : IntStream} {content : List UInt8}

/-- A loop that tests for the end in front of its reads does nothing there. -/
theorem readLoop_of_eofbit (h : s.eofbit = true) :
    readLoop read store junk fuel i acc s = some acc := by
  cases fuel with
  | zero => exact if_pos h
  | succ fuel => exact if_pos h

/-- A turn on a stream without flags. -/
theorem readLoop_opened : readLoop read store junk (fuel + 1) i acc (opened content) =
    readLoop read store junk fuel (i + 1) (store acc (read (junk i) (opened content)).1)
      (read (junk i) (opened content)).2 := rfl

/-- **The turns of the loop are extractions**, `j + 1` in each: it ends if and only if these
come to the end of the text. -/
theorem readLoop_isSome (hread : ∀ old s, (read old s).2 = next^[j + 1] s) :
    (readLoop read store junk fuel i acc s).isSome = true ↔
      (next^[(j + 1) * fuel] s).eofbit = true := by
  induction fuel generalizing i acc s with
  | zero =>
    rw [readLoop, Nat.mul_zero, Function.iterate_zero_apply]
    split
    · next heof => exact ⟨fun _ => heof, fun _ => rfl⟩
    · next heof => exact ⟨nofun, fun h => absurd h heof⟩
  | succ fuel ih =>
    rw [readLoop]
    split
    · next heof => exact ⟨fun _ => eofbit_iterate heof _, fun _ => rfl⟩
    · dsimp only
      rw [ih, hread, Nat.mul_succ, Function.iterate_add_apply _ _ (j + 1)]

/-- **The loop ends if and only if the text is readable**, and then with one turn for each
character at most. -/
theorem readLoop_isSome_iff (hread : ∀ old s, (read old s).2 = next^[j + 1] s) :
    ((∃ fuel, (readLoop read store junk fuel i acc (opened content)).isSome = true) ↔
      Readable content) ∧
    (Readable content → ∀ fuel, max 1 content.length ≤ fuel →
      (readLoop read store junk fuel i acc (opened content)).isSome = true) := by
  have hends : Readable content → ∀ fuel, max 1 content.length ≤ fuel →
      (readLoop read store junk fuel i acc (opened content)).isSome = true := by
    intro h fuel hfuel
    rw [readLoop_isSome hread]
    refine eofbit_iterate_mono (iterate_of_readable h) (hfuel.trans ?_)
    exact Nat.le_mul_of_pos_left fuel (Nat.succ_pos j)
  refine ⟨⟨fun ⟨fuel, h⟩ => ?_, fun h => ⟨_, hends h _ le_rfl⟩⟩, hends⟩
  rw [readLoop_isSome hread] at h
  exact readable_of_iterate h

end

/-! ### Files of records -/

/-- **How a record is read and written**: its text may stand in front of anything but a
digit, and it leaves `eofbit` set at the end of the text only. -/
structure Format (ρ κ : Type) where
  read : ρ → IntStream → ρ × IntStream
  bytes : κ → List UInt8
  value : κ → ρ
  bytes_ne : ∀ k, bytes k ≠ []
  read_bytes : ∀ old k rest, NoDigit rest →
    read old (opened (bytes k ++ rest)) = (value k, ⟨rest, rest.isEmpty, false⟩)
  read_blank : ∀ old l, (∀ c ∈ l, isSpace c = true) →
    read old (opened l) = (old, ⟨[], true, true⟩)

/-- A number in the range of `int`, without a sign. -/
structure Numeral extends Token where
  absent : sign = .absent
  digits_ne : digits ≠ []
  inRange : InRange toToken.value

/-- Two numbers with white space between them. -/
structure NumeralPair where
  first : Numeral
  second : Numeral
  apart : second.gap ≠ []

namespace Numeral

/-- A number is written with at least one digit. -/
theorem bytes_ne (n : Numeral) : n.bytes ≠ [] :=
  List.append_ne_nil_of_right_ne_nil _ (List.append_ne_nil_of_right_ne_nil _ n.digits_ne)

/-- **A number is read back** where no digit stands behind it: the numeral is the text of
its value, with white space in front. -/
theorem extract_bytes (n : Numeral) {old : ℤ} {rest : List UInt8} (hr : NoDigit rest) :
    extract old (opened (n.bytes ++ rest)) = (n.value, ⟨rest, rest.isEmpty, false⟩) :=
  extract_number n.digits_ne n.inRange hr

/-- White space in front is not a digit. -/
theorem noDigit_bytes {n : Numeral} (h : n.gap ≠ []) (rest : List UInt8) :
    NoDigit (n.bytes ++ rest) := by
  obtain ⟨c, cs, hgap⟩ := List.exists_cons_of_ne_nil h
  intro d hd
  rw [Token.bytes, hgap] at hd
  cases hd
  exact isDigit_of_isSpace (n.gap_space c (hgap ▸ List.mem_cons_self ..))

end Numeral

/-- One number for a record. -/
def numbers : Format ℤ Numeral where
  read := extract
  bytes := fun n => n.bytes
  value := fun n => n.value
  bytes_ne := Numeral.bytes_ne
  read_bytes := fun _ n _ => n.extract_bytes
  read_blank := fun _ _ => extract_blank

/-- Two numbers for a record. -/
def pairs : Format (ℤ × ℤ) NumeralPair where
  read := extractPair
  bytes := fun p => p.first.bytes ++ p.second.bytes
  value := fun p => (p.first.value, p.second.value)
  bytes_ne := fun p => List.append_ne_nil_of_left_ne_nil p.first.bytes_ne _
  read_bytes := fun old p rest hr => by
    have hne : p.second.bytes ++ rest ≠ [] :=
      List.append_ne_nil_of_left_ne_nil p.second.bytes_ne _
    have hstream : (⟨p.second.bytes ++ rest, (p.second.bytes ++ rest).isEmpty, false⟩ : IntStream) =
        opened (p.second.bytes ++ rest) := by
      rw [List.isEmpty_eq_false_iff.2 hne]
      rfl
    rw [extractPair, List.append_assoc,
      p.first.extract_bytes (Numeral.noDigit_bytes p.apart rest), hstream,
      p.second.extract_bytes hr]
  read_blank := fun old l h => by
    rw [extractPair, extract_blank h, extract_of_eofbit rfl]

/-- A file of complete records, with white space at its end. -/
structure RecordFile {ρ κ : Type} (F : Format ρ κ) where
  records : List κ
  trailing : List UInt8
  trailing_space : ∀ c ∈ trailing, isSpace c = true
  separated : ∀ k ∈ records.tail, NoDigit (F.bytes k)

namespace RecordFile

variable {ρ κ σ : Type} {F : Format ρ κ}

def text (f : RecordFile F) : List UInt8 := f.records.flatMap F.bytes ++ f.trailing

def values (f : RecordFile F) : List ρ := f.records.map F.value

/-- The file ends with the last digit of a record. -/
def Clean (f : RecordFile F) : Prop := f.records ≠ [] ∧ f.trailing = []

instance (f : RecordFile F) : Decidable f.Clean :=
  inferInstanceAs (Decidable (_ ∧ _))

/-- What the loop stores behind the records. -/
def phantom (f : RecordFile F) (junk : ℕ → ρ) : List ρ :=
  if f.Clean then [] else [junk f.records.length]

variable {store : σ → ρ → σ} {junk : ℕ → ρ} {ks : List κ} {blank : List UInt8} {i fuel : ℕ}
  {acc : σ}

/-- What begins with no digit begins so with anything behind it. -/
theorem noDigit_append {l l' : List UInt8} (hne : l ≠ []) (h : NoDigit l) : NoDigit (l ++ l') := by
  obtain ⟨c, cs, rfl⟩ := List.exists_cons_of_ne_nil hne
  exact h

/-- White space, or the text of records that do not start with a digit. -/
theorem noDigit_text (hsep : ∀ k ∈ ks, NoDigit (F.bytes k))
    (hblank : ∀ c ∈ blank, isSpace c = true) : NoDigit (ks.flatMap F.bytes ++ blank) := by
  cases ks with
  | nil =>
    intro c hc
    exact isDigit_of_isSpace (hblank c (List.mem_of_mem_head? hc))
  | cons k ks =>
    rw [List.flatMap_cons, List.append_assoc]
    exact noDigit_append (F.bytes_ne k) (hsep k (List.mem_cons_self ..))

/-- **The loop goes through the records**, and then through the white space: a file that
does not end with a digit has one turn more, which stores what the variables are left with.
-/
theorem readLoop_records (hsep : ∀ k ∈ ks.tail, NoDigit (F.bytes k))
    (hblank : ∀ c ∈ blank, isSpace c = true) (hfuel : ks.length < fuel) :
    readLoop F.read store junk fuel i acc (opened (ks.flatMap F.bytes ++ blank)) =
      some ((ks.map F.value ++
        if ks ≠ [] ∧ blank = [] then [] else [junk (i + ks.length)]).foldl store acc) := by
  induction ks generalizing fuel i acc with
  | nil =>
    obtain ⟨fuel, rfl⟩ : ∃ f, fuel = f + 1 := Nat.exists_eq_succ_of_ne_zero (by omega)
    rw [if_neg fun h => h.1 rfl, List.flatMap_nil, List.nil_append, readLoop_opened,
      F.read_blank _ _ hblank, readLoop_of_eofbit rfl]
    rfl
  | cons k ks ih =>
    obtain ⟨fuel, rfl⟩ : ∃ f, fuel = f + 1 := Nat.exists_eq_succ_of_ne_zero (by omega)
    have hstep : F.read (junk i) (opened ((k :: ks).flatMap F.bytes ++ blank)) = (F.value k,
        ⟨ks.flatMap F.bytes ++ blank, (ks.flatMap F.bytes ++ blank).isEmpty, false⟩) := by
      rw [List.flatMap_cons, List.append_assoc]
      exact F.read_bytes _ _ _ (noDigit_text hsep hblank)
    rw [readLoop_opened, hstep]
    by_cases hend : ks.flatMap F.bytes ++ blank = []
    · obtain ⟨hks, rfl⟩ := List.append_eq_nil_iff.1 hend
      have hnil : ks = [] := by
        cases ks with
        | nil => rfl
        | cons k' ks =>
          rw [List.flatMap_cons, List.append_eq_nil_iff] at hks
          exact absurd hks.1 (F.bytes_ne k')
      subst hnil
      rw [if_pos ⟨List.cons_ne_nil _ _, rfl⟩, readLoop_of_eofbit rfl]
      rfl
    · have hblank' : (ks ≠ [] ∧ blank = []) ↔ (k :: ks ≠ [] ∧ blank = []) := by
        refine and_congr_left fun hb => ⟨fun _ => List.cons_ne_nil _ _, fun _ hnil => hend ?_⟩
        rw [hnil, hb]
        rfl
      have hopened : (⟨ks.flatMap F.bytes ++ blank, (ks.flatMap F.bytes ++ blank).isEmpty,
          false⟩ : IntStream) = opened (ks.flatMap F.bytes ++ blank) := by
        rw [List.isEmpty_eq_false_iff.2 hend]
        rfl
      have hindex : i + 1 + ks.length = i + (k :: ks).length := by
        rw [List.length_cons]
        omega
      rw [hopened, ih (fun k' hk' => hsep k' (List.mem_of_mem_tail hk'))
        (Nat.lt_of_succ_lt_succ hfuel), hindex]
      simp only [hblank', List.map_cons, List.cons_append, List.foldl_cons]

/-- **The loop stores every record of the file**, and a phantom if the file does not end
with the last digit of a record. -/
theorem readLoop_file (f : RecordFile F) (hfuel : f.records.length < fuel) :
    readLoop F.read store junk fuel 0 acc (opened f.text) =
      some ((f.values ++ f.phantom junk).foldl store acc) := by
  rw [text, readLoop_records f.separated f.trailing_space hfuel, Nat.zero_add]
  rfl

/-- **A phantom is stored** behind every file that does not end with a digit, and behind no
other. -/
theorem append_phantom (f : RecordFile F) (junk : ℕ → ρ) :
    f.values ++ f.phantom junk = f.values ↔ f.Clean := by
  rw [List.append_right_eq_self, phantom]
  constructor
  · intro h
    by_contra hclean
    rw [if_neg hclean] at h
    cases h
  · exact fun h => if_pos h

end RecordFile

end Theory
end BearRpc
