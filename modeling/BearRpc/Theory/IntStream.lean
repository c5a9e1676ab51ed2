/-
# Integers from an input stream

`stream >> variable` for an `int`, as the C++ standard library does it in the classic
locale.  If a flag is set, nothing happens but that `failbit` is set.  Otherwise white space
is skipped, and a sign and digits are taken as long as there are any:

* without a character behind the white space, `eofbit` and `failbit` are set and the
  variable stays as it is;
* without a digit, or out of range, `failbit` is set and the variable gets 0 or the nearest
  bound;
* `eofbit` is set if the digits go up to the end.

What a token gives is `extract_append`, and `extract_cases` says what the text was if a
flag is set or not.
-/

import Mathlib.Algebra.Ring.Int.Defs
import Mathlib.Data.List.TakeWhile
import Mathlib.Data.Int.Notation

namespace BearRpc
namespace Theory

/-- `isspace`, in the classic locale -/
def isSpace (c : UInt8) : Bool := c = 32 ∨ 9 ≤ c ∧ c ≤ 13

/-- `isdigit` -/
def isDigit (c : UInt8) : Bool := 48 ≤ c ∧ c ≤ 57

/-- The number that digits stand for. -/
def natOf (digits : List UInt8) : ℕ := digits.foldl (fun n d => 10 * n + (d.toNat - 48)) 0

/-- A sign may be absent. -/
inductive Sign where
  | absent
  | plus
  | minus
  deriving DecidableEq, Repr

namespace Sign

def bytes : Sign → List UInt8
  | absent => []
  | plus => [43]
  | minus => [45]

def value (sign : Sign) (n : ℕ) : ℤ :=
  match sign with
  | minus => -n
  | _ => n

end Sign

/-- A number in the range of `int`. -/
def InRange (v : ℤ) : Prop := -2 ^ 31 ≤ v ∧ v ≤ 2 ^ 31 - 1

instance (v : ℤ) : Decidable (InRange v) := inferInstanceAs (Decidable (_ ∧ _))

/-- The text that has not been read, and the flags. -/
structure IntStream where
  rest : List UInt8
  eofbit : Bool
  failbit : Bool
  deriving DecidableEq, Repr

namespace IntStream

/-- A stream that has been opened, with its text. -/
def opened (content : List UInt8) : IntStream := ⟨content, false, false⟩

/-- Behind the sign: the digits are taken. -/
def takeDigits (sign : Sign) (l : List UInt8) : ℤ × IntStream :=
  let digits := l.takeWhile isDigit
  let rest := l.dropWhile isDigit
  let value := sign.value (natOf digits)
  if digits = [] then (0, ⟨rest, rest.isEmpty, true⟩)
  else if value < -2 ^ 31 then (-2 ^ 31, ⟨rest, rest.isEmpty, true⟩)
  else if 2 ^ 31 - 1 < value then (2 ^ 31 - 1, ⟨rest, rest.isEmpty, true⟩)
  else (value, ⟨rest, rest.isEmpty, false⟩)

/-- Behind the white space, with `old` in the variable. -/
def takeNumber (old : ℤ) : List UInt8 → ℤ × IntStream
  | [] => (old, ⟨[], true, true⟩)
  | c :: cs =>
    if c = 43 then takeDigits .plus cs
    else if c = 45 then takeDigits .minus cs
    else takeDigits .absent (c :: cs)

/-- `stream >> variable`, with `old` in the variable: its new value, and the stream. -/
def extract (old : ℤ) (s : IntStream) : ℤ × IntStream :=
  if s.eofbit = true ∨ s.failbit = true then (old, { s with failbit := true })
  else takeNumber old (s.rest.dropWhile isSpace)

end IntStream

/-- White space, a sign and digits. -/
structure Token where
  gap : List UInt8
  sign : Sign
  digits : List UInt8
  gap_space : ∀ c ∈ gap, isSpace c = true
  digits_digit : ∀ c ∈ digits, isDigit c = true

namespace Token

def bytes (t : Token) : List UInt8 := t.gap ++ (t.sign.bytes ++ t.digits)

def value (t : Token) : ℤ := t.sign.value (natOf t.digits)

end Token

/-- No digit comes first. -/
def NoDigit (l : List UInt8) : Prop := ∀ c ∈ l.head?, isDigit c = false

variable {old : ℤ} {s : IntStream} {t : Token} {sign : Sign} {c : UInt8}
  {l digits rest content : List UInt8}

namespace IntStream

/-! ### What a token gives -/

theorem split_digits (hd : ∀ c ∈ digits, isDigit c = true) (hr : NoDigit rest) :
    (digits ++ rest).takeWhile isDigit = digits ∧ (digits ++ rest).dropWhile isDigit = rest := by
  rw [List.takeWhile_append_of_pos hd, List.dropWhile_append_of_pos hd]
  cases rest with
  | nil => exact ⟨List.append_nil _, rfl⟩
  | cons c cs =>
    have hc : isDigit c = false := hr c rfl
    rw [List.takeWhile_cons, List.dropWhile_cons, hc]
    exact ⟨List.append_nil _, rfl⟩

/-- A digit is neither white space nor a sign. -/
theorem isDigit_eq (hc : isDigit c = true) : isSpace c = false ∧ c ≠ 43 ∧ c ≠ 45 := by
  simp only [isDigit, isSpace, decide_eq_true_eq, decide_eq_false_iff_not, UInt8.le_iff_toNat_le,
    ← UInt8.toNat_inj, ne_eq, UInt8.reduceToNat] at hc ⊢
  omega

/-- White space is not a digit. -/
theorem isDigit_of_isSpace (hc : isSpace c = true) : isDigit c = false := by
  by_contra hdigit
  rw [(isDigit_eq (by simpa using hdigit)).1] at hc
  cases hc

/-- Without a flag, white space is skipped. -/
theorem extract_opened : extract old (opened l) = takeNumber old (l.dropWhile isSpace) :=
  if_neg (by rintro (h | h) <;> cases h)

/-- **The white space and the sign** are taken, if anything is behind the white space; then
the digits decide. -/
theorem extract_append (hne : t.sign.bytes ++ t.digits ≠ []) :
    extract old (opened (t.bytes ++ rest)) = takeDigits t.sign (t.digits ++ rest) := by
  obtain ⟨gap, sign, digits, hgap, hdigits⟩ := t
  rw [extract_opened, Token.bytes, List.append_assoc, List.dropWhile_append_of_pos hgap]
  cases sign with
  | plus => rfl
  | minus => rfl
  | absent =>
    obtain ⟨c, cs, rfl⟩ := List.exists_cons_of_ne_nil hne
    obtain ⟨hspace, hplus, hminus⟩ := isDigit_eq (hdigits c (List.mem_cons_self ..))
    change takeNumber old ((c :: (cs ++ rest)).dropWhile isSpace) = _
    rw [List.dropWhile_cons, hspace]
    change (if c = 43 then _ else if c = 45 then _ else _) = _
    rw [if_neg hplus, if_neg hminus]
    rfl

/-- **A number in range** gets into the variable, and `eofbit` is set if nothing stands
behind its digits. -/
theorem extract_number (hne : t.digits ≠ []) (hrange : InRange t.value) (hr : NoDigit rest) :
    extract old (opened (t.bytes ++ rest)) = (t.value, ⟨rest, rest.isEmpty, false⟩) := by
  obtain ⟨htake, hdrop⟩ := split_digits t.digits_digit hr
  obtain ⟨hlow, hhigh⟩ := hrange
  rw [Token.value] at hlow hhigh ⊢
  rw [extract_append (List.append_ne_nil_of_right_ne_nil _ hne), takeDigits, htake, hdrop,
    if_neg hne, if_neg (Int.not_lt.2 hlow), if_neg (Int.not_lt.2 hhigh)]

/-- **White space only**: the variable stays as it is, and both bits are set, since the end
comes before any digit. -/
theorem extract_blank (h : ∀ c ∈ l, isSpace c = true) :
    extract old (opened l) = (old, ⟨[], true, true⟩) := by
  have hdrop : l.dropWhile isSpace = [] := List.dropWhile_eq_nil_iff.2 h
  rw [extract_opened, hdrop]
  rfl

/-- Whatever the digits are worth, `eofbit` is set if nothing is behind them. -/
theorem takeDigits_eofbit : (takeDigits sign l).2.eofbit = (l.dropWhile isDigit).isEmpty := by
  rw [takeDigits]
  split
  · rfl
  · split
    · rfl
    · split <;> rfl

/-- **A token up to the end of the text** sets `eofbit`, whether or not it is a number and
whatever its value. -/
theorem extract_token_eofbit (t : Token) (old : ℤ) :
    (extract old (opened t.bytes)).2.eofbit = true := by
  by_cases hnil : t.sign.bytes ++ t.digits = []
  · have hbytes : t.bytes = t.gap := by rw [Token.bytes, hnil, List.append_nil]
    rw [hbytes, extract_blank t.gap_space]
  · have hnone : NoDigit [] := nofun
    rw [← List.append_nil t.bytes, extract_append hnil, takeDigits_eofbit,
      (split_digits t.digits_digit hnone).2]
    rfl

/-- `eofbit` stays set. -/
theorem extract_of_eofbit (h : s.eofbit = true) :
    extract old s = (old, { s with failbit := true }) := if_pos (.inl h)

theorem extract_of_failbit (h : s.failbit = true) : extract old s = (old, s) := by
  rw [extract, if_pos (.inr h), ← h]

/-! ### What a text was -/

theorem noDigit_dropWhile (l : List UInt8) : NoDigit (l.dropWhile isDigit) := by
  intro c hc
  have hhead := List.head?_dropWhile_not isDigit l
  rw [hc] at hhead
  exact hhead

/-- A token with the given white space and sign, up to the last of its digits. -/
theorem exists_token_of_sign {gap : List UInt8} (hgap : ∀ c ∈ gap, isSpace c = true)
    (sign : Sign) (l : List UInt8) :
    ∃ (t : Token) (rest : List UInt8), gap ++ (sign.bytes ++ l) = t.bytes ++ rest ∧
      NoDigit rest ∧ takeDigits sign l = takeDigits t.sign (t.digits ++ rest) := by
  refine ⟨⟨gap, sign, l.takeWhile isDigit, hgap, fun c => List.mem_takeWhile_imp⟩,
    l.dropWhile isDigit, ?_, noDigit_dropWhile l, ?_⟩
  · rw [Token.bytes, List.append_assoc, List.append_assoc, List.takeWhile_append_dropWhile]
  · rw [List.takeWhile_append_dropWhile]

/-- The sign of a number, which may be absent. -/
theorem exists_sign (c : UInt8) (cs : List UInt8) : ∃ (sign : Sign) (l : List UInt8),
    c :: cs = sign.bytes ++ l ∧ ∀ old, takeNumber old (c :: cs) = takeDigits sign l := by
  by_cases hplus : c = 43
  · refine ⟨.plus, cs, ?_, fun _ => if_pos hplus⟩
    rw [hplus]
    rfl
  by_cases hminus : c = 45
  · refine ⟨.minus, cs, ?_, fun _ => (if_neg hplus).trans (if_pos hminus)⟩
    rw [hminus]
    rfl
  · exact ⟨.absent, c :: cs, rfl, fun _ => (if_neg hplus).trans (if_neg hminus)⟩

/-- **Every text starts with a token**, and an extraction takes it, unless the text has
white space only. -/
theorem exists_token (content : List UInt8) :
    (∀ c ∈ content, isSpace c = true) ∨
    ∃ (t : Token) (rest : List UInt8), content = t.bytes ++ rest ∧ NoDigit rest ∧
      ∀ old, extract old (opened content) = takeDigits t.sign (t.digits ++ rest) := by
  have hgap : ∀ c ∈ content.takeWhile isSpace, isSpace c = true := fun c =>
    List.mem_takeWhile_imp
  have hsplit : content.takeWhile isSpace ++ content.dropWhile isSpace = content :=
    List.takeWhile_append_dropWhile
  cases hl : content.dropWhile isSpace with
  | nil => exact .inl (List.dropWhile_eq_nil_iff.1 hl)
  | cons c cs =>
    rw [hl] at hsplit
    obtain ⟨sign, l, hsign, htake⟩ := exists_sign c cs
    obtain ⟨t, rest, hbytes, hr, hdigits⟩ := exists_token_of_sign hgap sign l
    refine .inr ⟨t, rest, ?_, hr, fun old => ?_⟩
    · rw [← hsplit, hsign]
      exact hbytes
    · rw [extract_opened, hl, htake, hdigits]

/-- **What an extraction says of the text**: it was a token up to its end, or it is at the
next character behind a number, or it failed in between. -/
theorem extract_cases (content : List UInt8) (old : ℤ) :
    ((extract old (opened content)).2.eofbit = true ∧ ∃ t : Token, content = t.bytes) ∨
    ((extract old (opened content)).2.eofbit = false ∧
      (extract old (opened content)).2.failbit = true) ∨
    ∃ (t : Token) (c : UInt8) (cs : List UInt8), content = t.bytes ++ c :: cs ∧
      t.digits ≠ [] ∧ InRange t.value ∧ isDigit c = false ∧
        (extract old (opened content)).2 = opened (c :: cs) := by
  rcases exists_token content with hblank | ⟨t, rest, hbytes, hr, hextract⟩
  · left
    rw [extract_blank hblank]
    refine ⟨rfl, ⟨content, .absent, [], hblank, nofun⟩, ?_⟩
    exact (List.append_nil content).symm
  · obtain ⟨htake, hdrop⟩ := split_digits t.digits_digit hr
    cases rest with
    | nil =>
      refine .inl ⟨?_, t, hbytes.trans (List.append_nil _)⟩
      rw [hextract, takeDigits_eofbit, hdrop]
      rfl
    | cons c cs =>
      right
      rw [hextract, takeDigits, htake, hdrop]
      split
      · exact .inl ⟨rfl, rfl⟩
      · next hne =>
        split
        · exact .inl ⟨rfl, rfl⟩
        · next hlow =>
          split
          · exact .inl ⟨rfl, rfl⟩
          · next hhigh =>
            exact .inr ⟨t, c, cs, hbytes, hne, ⟨Int.not_lt.1 hlow, Int.not_lt.1 hhigh⟩,
              hr c rfl, rfl⟩

end IntStream
end Theory
end BearRpc
