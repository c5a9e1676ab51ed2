/-
# Frames on the wire

Both sides send a JSON text `t` as a frame: the decimal length of `t` and its
`"\r\n"`, a `"\r\n"`, the text, a `"\r\n"` (`BaseServer::sendResponse` in
`bearTcpServer.cc`, `BaseClient::sendRequest` in `bearTcpClinet.h`).  Both read
the length line as a JSON text, which has to be a positive `Int32` (`readHeader`).

The two `handleMessage` loops differ in their limit, in the empty lines the
server skips and in the trash line the client drops.  `FrameRules` names these
differences, and `FrameRules.grammar` is the grammar of the frames under such
rules: more bytes never change what the front of the stream amounts to, so
`BearRpc.Theory.Receiver` applies to both loops.  A stream of frames within the
limit reads back as its texts (`FrameRules.parses_frames`).
-/

import BearRpc.Connection

namespace BearRpc

open Theory

/-- `std::to_string` of a `size_t`. -/
def decimal (n : ℕ) : Bytes := (Nat.toDigits 10 n).map fun c => UInt8.ofNat c.toNat

/-- The frame of a text. -/
def frame (text : Bytes) : Bytes := decimal (text.length + 2) ++ kCRLF ++ text ++ kCRLF

/-- The length announced by a length line, `none` where it is not a positive
`Int32`. -/
def readHeader (parse : Bytes → Except String Json) (line : Bytes) : Option ℕ :=
  match parse line with
  | .ok (.int32 n) => if n.toInt ≤ 0 then none else some n.toInt.toNat
  | _ => none

/-- The JSON library reads a decimal number followed by `"\r\n"` as that
`Int32`. -/
def ReadsDecimals (parse : Bytes → Except String Json) : Prop :=
  ∀ n : ℕ, 0 < n → n < 2 ^ 31 → parse (decimal n ++ kCRLF) = .ok (.int32 (Int32.ofInt n))

/-- **A length line is read back**: a positive number below `2 ^ 31`, written in decimal, is
the length that is read. -/
theorem readHeader_decimal {parse : Bytes → Except String Json} (hp : ReadsDecimals parse) {n : ℕ}
    (h₀ : 0 < n) (h₁ : n < 2 ^ 31) : readHeader parse (decimal n ++ kCRLF) = some n := by
  have hn : (Int32.ofInt n).toInt = n := Int32.toInt_ofInt_of_le (by omega) (by omega)
  simp only [readHeader, hp n h₀ h₁, hn]
  rw [if_neg (by omega), Int.toNat_natCast]

/-- The characters of a decimal number are `'0'` to `'9'`, of codes 48 to 57. -/
theorem toNat_of_mem_toDigits {n : ℕ} {c : Char} (hc : c ∈ Nat.toDigits 10 n) :
    48 ≤ c.toNat ∧ c.toNat ≤ 57 ∧ (UInt8.ofNat c.toNat).toNat = c.toNat := by
  have hd := Nat.isDigit_of_mem_toDigits (by decide) (by decide) hc
  rw [Char.isDigit, Bool.and_eq_true, decide_eq_true_iff, decide_eq_true_iff] at hd
  have h₁ : 48 ≤ c.toNat := hd.1
  have h₂ : c.toNat ≤ 57 := hd.2
  exact ⟨h₁, h₂, UInt8.toNat_ofNat_of_lt' (by simp [UInt8.size]; omega)⟩

/-- A decimal number holds no carriage return. -/
theorem cr_notMem_decimal (n : ℕ) : (13 : UInt8) ∉ decimal n := by
  rw [decimal, List.mem_map]
  rintro ⟨c, hc, h13⟩
  obtain ⟨h₁, h₂, h⟩ := toNat_of_mem_toDigits hc
  rw [h13] at h
  simp at h
  omega

/-- So a length line ends with its first `"\r\n"`. -/
theorem search_decimal (n : ℕ) (rest : Bytes) :
    search kCRLF (decimal n ++ kCRLF ++ rest) = some (decimal n).length := by
  have h := @search_of_not_mem _ _ 13 [10] _ (cr_notMem_decimal n) rest
  simpa [kCRLF] using h

/-- A number is written with a digit at least, so a length line is never taken for an empty
one. -/
theorem decimal_ne_nil (n : ℕ) : decimal n ≠ [] := by
  simp [decimal, Nat.toDigits_ne_nil]

/-- A reader of decimal length lines: an integer of 32 or of 64 bits, and an
error on every other text. -/
def readDecimalLine (line : Bytes) : Except String Json :=
  let digits := line.take (line.length - 2)
  if line.drop (line.length - 2) = kCRLF ∧ digits ≠ [] ∧ digits.all (fun b => 48 ≤ b ∧ b ≤ 57) then
    .ok (Json.ofInteger (Nat.ofDigitChars 10 (digits.map fun b => Char.ofNat b.toNat) 0))
  else
    .error "invalid value"

/-- `ReadsDecimals` is satisfiable. -/
theorem readsDecimals_readDecimalLine : ReadsDecimals readDecimalLine := by
  intro n h₀ h₁
  have hlen : (decimal n ++ kCRLF).length - 2 = (decimal n).length := by simp [kCRLF]
  have hall : (decimal n).all (fun b => 48 ≤ b ∧ b ≤ 57) = true := by
    rw [decimal, List.all_map, List.all_eq_true]
    intro c hc
    obtain ⟨h₁, h₂, h⟩ := toNat_of_mem_toDigits hc
    simp only [Function.comp_apply, decide_eq_true_eq, UInt8.le_iff_toNat_le, h]
    exact ⟨h₁, h₂⟩
  have hback : (decimal n).map (fun b => Char.ofNat b.toNat) = Nat.toDigits 10 n := by
    rw [decimal, List.map_map]
    refine (List.map_congr_left fun c hc => ?_).trans (List.map_id _)
    rw [Function.comp_apply, (toNat_of_mem_toDigits hc).2.2, Char.ofNat_toNat, id]
  have hread : readDecimalLine (decimal n ++ kCRLF) = .ok (Json.ofInteger n) := by
    unfold readDecimalLine
    simp only [hlen, List.drop_left, List.take_left, hback, hall, Nat.ofDigitChars_ten_toDigits]
    rw [if_pos ⟨trivial, decimal_ne_nil n, trivial⟩]
  rw [hread, Json.ofInteger, if_pos (by omega)]

/-- What distinguishes one framing loop from the other. -/
structure FrameRules (ξ : Type) where
  /-- `header.parse` -/
  parse : Bytes → Except String Json
  /-- `kMaxMessageLen` -/
  limit : ℕ
  /-- An empty line is skipped. -/
  emptyLines : Bool
  /-- An invalid length line is dropped from the buffer. -/
  dropsLine : Bool
  invalidLength : ξ
  tooLong : ξ

namespace FrameRules

variable {ξ : Type} (F : FrameRules ξ)

/-- What follows a length line of `k` bytes that announces `len` bytes. -/
def body (s : Bytes) (k len : ℕ) : Front Item ξ :=
  if F.limit ≤ len then .bad 0 F.tooLong
  else if s.length < k + len then .more
  else .item (k + len) (.frame ((s.drop k).take len))

/-- What stands at the front of `s`: no complete line yet, an empty line, or a
length line and what follows it. -/
def front (s : Bytes) : Front Item ξ :=
  match search kCRLF s with
  | none => .more
  | some k =>
    if k = 0 ∧ F.emptyLines then .item 2 .blank
    else
      match readHeader F.parse (s.take (k + 2)) with
      | none => .bad (if F.dropsLine then k + 2 else 0) F.invalidLength
      | some len => F.body s (k + 2) len

/-- **What stands at the front of a stream with a line** depends on that line: an empty one,
one that is no length, or the length of a body. -/
theorem front_of_search {s : Bytes} {k : ℕ} (h : search kCRLF s = some k) :
    F.front s = if k = 0 ∧ F.emptyLines then .item 2 .blank
      else match readHeader F.parse (s.take (k + 2)) with
        | none => .bad (if F.dropsLine then k + 2 else 0) F.invalidLength
        | some len => F.body s (k + 2) len := by
  rw [front, h]

/-- A line that was found lies within the stream. -/
theorem search_le_length {s : Bytes} {k : ℕ} (h : search kCRLF s = some k) :
    k + 2 ≤ s.length := search_le (by simp [kCRLF]) h

/-- A stream whose front is more than a missing line has a line. -/
theorem exists_search {s : Bytes} (h : F.front s ≠ .more) : ∃ k, search kCRLF s = some k := by
  cases hs : search kCRLF s with
  | none => rw [front, hs] at h; exact absurd rfl h
  | some k => exact ⟨k, rfl⟩

/-- The two errors of a stream. -/
theorem front_eq_bad {s : Bytes} {n : ℕ} {e : ξ} (h : F.front s = .bad n e) :
    e = F.invalidLength ∨ e = F.tooLong := by
  obtain ⟨k, hk⟩ := F.exists_search (s := s) (by rw [h]; exact nofun)
  rw [F.front_of_search hk] at h
  by_cases hb : k = 0 ∧ F.emptyLines
  · rw [if_pos hb] at h
    cases h
  · rw [if_neg hb] at h
    cases hr : readHeader F.parse (s.take (k + 2)) with
    | none =>
      rw [hr] at h
      cases h
      exact .inl rfl
    | some len =>
      simp only [hr, body] at h
      split_ifs at h
      cases h
      exact .inr rfl

/-- The cases in which a complete item stands at the front. -/
theorem front_eq_item {s : Bytes} {n : ℕ} {i : Item} (h : F.front s = .item n i) :
    ∃ k, search kCRLF s = some k ∧
      ((k = 0 ∧ F.emptyLines = true ∧ n = 2 ∧ i = .blank) ∨
        ∃ len, ¬ (k = 0 ∧ F.emptyLines = true) ∧ readHeader F.parse (s.take (k + 2)) = some len ∧
          len < F.limit ∧ n = k + 2 + len ∧ n ≤ s.length ∧
            i = .frame ((s.drop (k + 2)).take len)) := by
  obtain ⟨k, hk⟩ := F.exists_search (by rw [h]; exact nofun)
  refine ⟨k, hk, ?_⟩
  rw [F.front_of_search hk] at h
  by_cases hb : k = 0 ∧ F.emptyLines = true
  · rw [if_pos hb] at h
    cases h
    exact .inl ⟨hb.1, hb.2, rfl, rfl⟩
  · rw [if_neg hb] at h
    cases hr : readHeader F.parse (s.take (k + 2)) with
    | none => rw [hr] at h; cases h
    | some len =>
      rw [hr] at h
      simp only [body] at h
      split_ifs at h with h₁ h₂
      cases h
      exact .inr ⟨len, hb, rfl, by omega, rfl, by omega, rfl⟩

/-- **A frame that has arrived as a whole** is the item at the front, if its length is below
the limit; what stands behind it makes no difference. -/
theorem front_item_of_frame {s : Bytes} {k len : ℕ} (hk : search kCRLF s = some k)
    (hb : ¬ (k = 0 ∧ F.emptyLines = true)) (hr : readHeader F.parse (s.take (k + 2)) = some len)
    (hl : len < F.limit) (hn : k + 2 + len ≤ s.length) :
    F.front s = .item (k + 2 + len) (.frame ((s.drop (k + 2)).take len)) := by
  rw [F.front_of_search hk, if_neg hb, hr]
  simp only [body]
  rw [if_neg (by omega), if_neg (by omega)]

/-- An empty line at the front is an item of its own where the rules say so. -/
theorem front_item_of_blank {s : Bytes} (hk : search kCRLF s = some 0)
    (hb : F.emptyLines = true) : F.front s = .item 2 .blank := by
  rw [F.front_of_search hk, if_pos ⟨rfl, hb⟩]

/-- The cases in which the front of the stream is in error. -/
theorem front_bad_append {s : Bytes} {n : ℕ} {e : ξ} (t : Bytes) (h : F.front s = .bad n e) :
    F.front (s ++ t) = .bad n e := by
  obtain ⟨k, hk⟩ := F.exists_search (by rw [h]; exact nofun)
  have hle := search_le_length hk
  rw [F.front_of_search hk] at h
  rw [F.front_of_search (search_append (by simp [kCRLF]) hk t),
    List.take_append_of_le_length hle]
  by_cases hb : k = 0 ∧ F.emptyLines = true
  · rw [if_pos hb] at h
    cases h
  · rw [if_neg hb] at h ⊢
    cases hr : readHeader F.parse (s.take (k + 2)) with
    | none => rw [hr] at h; exact h
    | some len =>
      rw [hr] at h
      simp only [body] at h ⊢
      split_ifs at h ⊢
      exact h

/-- **The grammar of the frames.** -/
def grammar : PrefixGrammar UInt8 Item ξ where
  front := F.front
  item_pos h := by
    obtain ⟨k, -, ⟨-, -, rfl, -⟩ | ⟨len, -, -, -, rfl, -⟩⟩ := F.front_eq_item h <;> omega
  item_le h := by
    obtain ⟨k, hk, ⟨rfl, -, rfl, -⟩ | ⟨len, -, -, -, -, hn, -⟩⟩ := F.front_eq_item h
    · exact search_le_length hk
    · exact hn
  item_append {s n i} t h := by
    obtain ⟨k, hk, ⟨rfl, hb, rfl, rfl⟩ | ⟨len, hb, hr, hl, rfl, hn, rfl⟩⟩ := F.front_eq_item h
    · exact F.front_item_of_blank (search_append (by simp [kCRLF]) hk t) hb
    · have hle := search_le_length hk
      rw [F.front_item_of_frame (search_append (by simp [kCRLF]) hk t) hb
        (by rwa [List.take_append_of_le_length hle]) hl (by rw [List.length_append]; omega),
        List.drop_append_of_le_length hle,
        List.take_append_of_le_length (by rw [List.length_drop]; omega)]
  item_take {s n i} h := by
    obtain ⟨k, hk, ⟨rfl, hb, rfl, rfl⟩ | ⟨len, hb, hr, hl, rfl, hn, rfl⟩⟩ := F.front_eq_item h
    · exact F.front_item_of_blank (search_take (by simp [kCRLF]) hk (by simp [kCRLF])) hb
    · have hlen : (s.take (k + 2 + len)).length = k + 2 + len := by
        rw [List.length_take, Nat.min_eq_left hn]
      have hk' : search kCRLF (s.take (k + 2 + len)) = some k :=
        search_take (by simp [kCRLF]) hk
          (by simp only [kCRLF, List.length_cons, List.length_nil]; omega)
      rw [F.front_item_of_frame hk' hb
        (by rwa [List.take_take, Nat.min_eq_left (by omega)]) hl (Nat.le_of_eq hlen.symm),
        List.drop_take, Nat.add_sub_cancel_left, List.take_take, Nat.min_self]
  bad_append t h := F.front_bad_append t h

/-- Without a byte there is nothing to read yet. -/
@[simp] theorem front_nil : F.front [] = .more := by simp [front, search]

/-- **A frame at the front of a stream** is that frame, unless its text reaches the limit:
then the stream is in error there, and nothing of it is taken. -/
theorem front_frame (hp : ReadsDecimals F.parse) {text : Bytes} (ht : text.length + 2 < 2 ^ 31)
    (rest : Bytes) : F.front (frame text ++ rest) =
      if F.limit ≤ text.length + 2 then .bad 0 F.tooLong
      else .item (frame text).length (.frame (text ++ kCRLF)) := by
  set d := decimal (text.length + 2) with hd
  have hs : search kCRLF (frame text ++ rest) = some d.length := by
    rw [frame, List.append_assoc, List.append_assoc]
    exact search_decimal _ _
  have hd₀ : d.length ≠ 0 := by
    rw [Ne, List.length_eq_zero_iff]
    exact decimal_ne_nil _
  have htake : (frame text ++ rest).take (d.length + 2) = d ++ kCRLF := by
    rw [frame, List.append_assoc, List.append_assoc]
    exact List.take_left' (by simp [kCRLF, hd])
  have hdrop : (frame text ++ rest).drop (d.length + 2) = text ++ kCRLF ++ rest := by
    rw [frame, List.append_assoc, List.append_assoc, ← List.append_assoc text]
    exact List.drop_left' (by simp [kCRLF, hd])
  have hlen : (frame text).length = d.length + 2 + (text.length + 2) := by
    simp [frame, kCRLF, hd]
    omega
  rw [F.front_of_search hs, if_neg fun h => hd₀ h.1, htake,
    readHeader_decimal hp (by omega) (by omega)]
  simp only [body]
  rw [if_neg (show ¬ (frame text ++ rest).length < d.length + 2 + (text.length + 2) by
    rw [List.length_append]; omega), hdrop, ← hlen]
  congr 3
  exact List.take_left' (by simp [kCRLF])

/-- **A stream of frames reads back as its texts**, each with its `"\r\n"`, whatever stands
behind the last one and whatever bytes the texts have. -/
theorem parses_frames (hp : ReadsDecimals F.parse) (hlim : F.limit ≤ 2 ^ 31) {texts : List Bytes}
    (ht : ∀ t ∈ texts, t.length + 2 < F.limit) (rest : Bytes) :
    F.grammar.Parses ((texts.map frame).flatten ++ rest)
      (texts.map fun t => .frame (t ++ kCRLF)) rest := by
  induction texts with
  | nil => exact .nil _
  | cons t texts ih =>
    have htl := ht t (by simp)
    have hfront := F.front_frame hp (show t.length + 2 < 2 ^ 31 by omega)
      ((texts.map frame).flatten ++ rest)
    rw [if_neg (by omega)] at hfront
    rw [List.map_cons, List.flatten_cons, List.map_cons, List.append_assoc]
    refine .cons hfront ?_
    rw [List.drop_left]
    exact ih fun t' h => ht t' (by simp [h])

/-- A stream of one frame. -/
theorem parses_frame (hp : ReadsDecimals F.parse) (hlim : F.limit ≤ 2 ^ 31) {text : Bytes}
    (ht : text.length + 2 < F.limit) :
    F.grammar.Parses (frame text) [.frame (text ++ kCRLF)] [] := by
  have hall : ∀ t ∈ [text], t.length + 2 < F.limit := fun t h => List.mem_singleton.1 h ▸ ht
  simpa using F.parses_frames hp hlim hall []

end FrameRules
end BearRpc
