/-
# Data that arrive at the client

What stands in the buffer of a client, with the data that arrive, is a sequence of
pieces: a length line with the body it announces, however the number is written and the
body ends, or a line that is refused as it stands, because it is no length or announces
a body that is too long.  As long as none of them fails, `handleMessage` accepts one
after the other (`accept`); the first that fails ends it, and what stands behind is left
in the buffer (`run_pieces`).

The history tells what has been handled: the responses of the pieces in their order, up to
the first that fails (`Handles`).  What a response leads to stands right behind it.
-/

import BearRpc.Client.History

namespace BearRpc

open Theory CallTable

namespace BaseClient

/-- What a stream consists of: a length line and the body behind it, or a line that is
refused. -/
inductive Piece where
  | message (header body : Bytes)
  | refused (line : Bytes)

/-- The line at the front of a piece. -/
def Piece.header : Piece → Bytes
  | .message header _ => header
  | .refused line => line

/-- The bytes of a piece. -/
def Piece.bytes : Piece → Bytes
  | .message header body => header ++ kCRLF ++ body
  | .refused line => line ++ kCRLF

/-- What the line announces: the length of the body, or no length or one that is too
long. -/
def Piece.Announces (parse : Bytes → Except String Json) : Piece → Prop
  | .message header body => readHeader parse (header ++ kCRLF) = some body.length
  | .refused line => ∀ n, readHeader parse (line ++ kCRLF) = some n → kMaxMessageLen ≤ n

/-- The line ends with its first `"\r\n"`, and announces what follows. -/
structure Piece.IsCut (parse : Bytes → Except String Json) (p : Piece) : Prop where
  line : search kCRLF (p.header ++ kCRLF) = some p.header.length
  announces : p.Announces parse

section Pieces

variable {κ : Type} (codec : Codec) (growth : Growth)
  (react : History κ → κ → Reply → List (Action κ))

/-- The responses that `handleResponse` finds in a body. -/
def responsesIn (body : Bytes) : List Json :=
  match codec.parse body with
  | .ok (.object members) => [.object members]
  | .ok (.array responses) => responses
  | _ => []

/-- The responses in a piece. -/
def Piece.responses : Piece → List Json
  | .message _ body => responsesIn codec body
  | .refused _ => []

/-- What `handleMessage` does with a piece. -/
def accept : Piece → CppM ResponseException (State κ) Unit
  | .message _ body =>
    if kMaxMessageLen ≤ body.length then throw messageTooLong
    else handleResponse codec growth react body
  | .refused line =>
    match readHeader codec.parse (line ++ kCRLF) with
    | none => throw invalidLength
    | some _ => throw messageTooLong

end Pieces

/-- The history goes on from `pre` with events in `P`. -/
def Adds {κ : Type} (P : Event ℤ κ Json Reply → Prop) (pre : History κ) (s : State κ) : Prop :=
  ∃ rest, s.history = pre ++ rest ∧ ∀ e ∈ rest, P e

/-- The history goes on from `pre` with the responses `rs` and what they lead to, and so
not with an invocation. -/
def Hears {κ : Type} (rs : List Json) (pre : History κ) (s : State κ) : Prop :=
  ∃ rest, s.history = pre ++ rest ∧ CallTable.responses rest = rs ∧
    ∀ k cb a, rest.head? ≠ some (.invoked k cb a)

/-- The program handles the responses `rs`, in this order, as far as it gets. -/
def Handles {κ : Type} (rs : List Json) (x : CppM ResponseException (State κ) Unit) : Prop :=
  ∀ s, Ends (fun _ => Hears rs s.history) (fun _ t => ∃ rs', rs' <+: rs ∧ Hears rs' s.history t)
    (x s)

variable {κ : Type} {codec : Codec} {growth : Growth}
  {react : History κ → κ → Reply → List (Action κ)} {s t x y : State κ} {r : Json}
  {rs rs' : List Json} {P : Event ℤ κ Json Reply → Prop} {pre : History κ}
  {header body rest : Bytes} {pieces : List Piece} {p : Piece} {c d : Connection (State κ)}
  {data : Bytes} {m : CppM ResponseException (State κ) Unit}
  {f : Unit → CppM ResponseException (State κ) Unit}

/-! ### What is added to the history -/

theorem Adds.refl (s : State κ) : Adds P s.history s := ⟨[], by simp, by simp⟩

theorem Adds.record {e : Event ℤ κ Json Reply} (h : Adds P pre s) (he : P e) :
    Adds P pre (s.record e) := by
  obtain ⟨rest, hs, hall⟩ := h
  refine ⟨rest ++ [e], by simp [hs], fun d hd => ?_⟩
  rcases List.mem_append.1 hd with hd | hd
  · exact hall d hd
  · exact List.mem_singleton.1 hd ▸ he

/-- What a callback does is to issue calls, also where one of them fails. -/
theorem forM_perform_issues (hissue : ∀ k cb, P (.issued k cb)) (acts : List (Action κ)) :
    Triple (Adds P pre) (acts.forM (perform codec growth)) (fun _ => Adds P pre)
      fun _ => Adds P pre := by
  refine Triple.forM fun act _ s hs => ?_
  cases act with
  | call json cb =>
    rw [perform]
    rcases sendCall_cases codec growth json cb s with ⟨message, -, -, h⟩ | ⟨-, h⟩ | ⟨-, h⟩
      <;> rw [h]
    · exact hs.record (hissue s.id cb)
    · exact hs.record (hissue s.id cb)
    · exact hs
  | notify json => exact hs

theorem Hears.refl (s : State κ) : Hears [] s.history s := ⟨[], by simp, rfl, nofun⟩

/-- More is handled behind what has been handled. -/
theorem Hears.trans (h : Hears rs pre s) (h' : Hears rs' s.history t) :
    Hears (rs ++ rs') pre t := by
  obtain ⟨rest, hs, rfl, hhead⟩ := h
  obtain ⟨rest', ht, rfl, hhead'⟩ := h'
  refine ⟨rest ++ rest', by rw [ht, hs, List.append_assoc], responses_append _ _, ?_⟩
  cases rest with
  | nil => exact hhead'
  | cons e rest => exact hhead

/-- The removal of an entry is no response. -/
theorem Hears.removed (s : State κ) (k : ℤ) : Hears [] s.history (s.record (.removed k)) :=
  ⟨[.removed k], rfl, rfl, nofun⟩

/-- A response, and behind it events that are none. -/
theorem Adds.hears (h : Adds (fun e => ∀ r', e ≠ .response r') (pre ++ [.response r]) s) :
    Hears [r] pre s := by
  obtain ⟨rest, hs, hall⟩ := h
  refine ⟨.response r :: rest, by rw [hs, List.append_assoc]; rfl, ?_, nofun⟩
  have hnone : responses rest = [] := by
    refine List.filterMap_eq_nil_iff.2 fun e he => ?_
    cases e with
    | response r' => exact absurd rfl (hall _ he r')
    | _ => rfl
  rw [← List.singleton_append, responses_append, hnone, responses_response, List.append_nil]

/-- A response leads to events that are none. -/
theorem handleSingleResponse_adds (codec : Codec) (growth : Growth)
    (react : History κ → κ → Reply → List (Action κ)) (r : Json) (s : State κ) :
    Ends (fun _ => Adds (fun e => ∀ r', e ≠ .response r') (s.history ++ [.response r]))
      (fun _ => Adds (fun e => ∀ r', e ≠ .response r') (s.history ++ [.response r]))
      (handleSingleResponse codec growth react r s) := by
  have hlogged : Adds (fun e => ∀ r', e ≠ .response r') (s.history ++ [.response r])
      (s.record (.response r)) := .refl _
  rcases response_cases r with ⟨n, a, hid, hw, ha⟩ | ⟨n, hid, hw⟩ | hid
  · cases hn : s.findCallback n.toInt with
    | none =>
      rw [handleSingleResponse_of_unknown hid hw hn]
      exact hlogged
    | some cb =>
      rw [handleSingleResponse_of_known hid hw ha hn]
      refine Ends.bind (forM_perform_issues (fun _ _ => nofun) _
        ((s.record (.response r)).record (.invoked n.toInt cb a)) (hlogged.record nofun))
        fun _ t ht => ?_
      rcases eraseAt_cases ⟨n.toInt, s.callbacks.rehashes⟩ t with h | h <;> rw [h]
      · exact Adds.record (s := { t with callbacks := _ }) ht nofun
      · exact ht
  · obtain ⟨msg, hmsg⟩ := validateResponse_of_not_wellFormed codec hid hw
    rw [handleSingleResponse_of_error hmsg]
    exact hlogged
  · rcases validateResponse_of_not_identified codec hid with ⟨msg, hmsg⟩ | hlib
    · rw [handleSingleResponse_of_error hmsg]
      exact hlogged
    · rw [handleSingleResponse_of_error hlib]
      exact hlogged

/-! ### Which responses are handled -/

/-- If the program returns, it has handled all of them. -/
theorem Handles.of_ok (h : Handles rs m) {u : Unit} (hm : m s = .ok u t) :
    Hears rs s.history t := by
  have hs := h s
  rwa [hm] at hs

/-- If it fails, it has handled the first ones. -/
theorem Handles.of_error (h : Handles rs m) {e : Abrupt ResponseException}
    (hm : m s = .error e t) : ∃ rs', rs' <+: rs ∧ Hears rs' s.history t := by
  have hs := h s
  rwa [hm] at hs

/-- A program that fails at once handles none. -/
theorem Handles.throw (e : Abrupt ResponseException) :
    Handles rs (MonadExcept.throw e : CppM ResponseException (State κ) Unit) :=
  fun s => ⟨[], List.nil_prefix, .refl s⟩

/-- One program after the other. -/
theorem Handles.bind (h : Handles rs m) (hf : ∀ a, Handles rs' (f a)) :
    Handles (rs ++ rs') (m >>= f) := by
  intro s
  simp only [Bind.bind, EStateM.bind]
  cases hx : m s with
  | error e t =>
    obtain ⟨rs₀, hprefix, ht⟩ := h.of_error hx
    exact ⟨rs₀, hprefix.trans (List.prefix_append rs rs'), ht⟩
  | ok a t =>
    dsimp only
    cases hy : f a t with
    | error e u =>
      obtain ⟨rs₀, hprefix, hu⟩ := (hf a).of_error hy
      exact ⟨rs ++ rs₀, (List.prefix_append_right_inj rs).2 hprefix, (h.of_ok hx).trans hu⟩
    | ok b u => exact (h.of_ok hx).trans ((hf a).of_ok hy)

/-- **A loop handles the responses of its turns**, one turn after the other. -/
theorem Handles.forM {α : Type} {l : List α} {g : α → List Json}
    {f : α → CppM ResponseException (State κ) Unit} (h : ∀ b ∈ l, Handles (g b) (f b)) :
    Handles (l.flatMap g) (l.forM f) := by
  induction l with
  | nil => exact fun s => .refl s
  | cons b l ih =>
    exact (h b List.mem_cons_self).bind fun _ => ih fun c hc => h c (List.mem_cons_of_mem b hc)

/-- A response is handled, whatever becomes of it. -/
theorem handles_single (codec : Codec) (growth : Growth)
    (react : History κ → κ → Reply → List (Action κ)) (r : Json) :
    Handles [r] (handleSingleResponse codec growth react r) := by
  intro s
  have h := handleSingleResponse_adds codec growth react r s
  cases hres : handleSingleResponse codec growth react r s with
  | ok u t =>
    rw [hres] at h
    exact h.hears
  | error e t =>
    rw [hres] at h
    exact ⟨[r], List.prefix_refl _, h.hears⟩

theorem handles_list (codec : Codec) (growth : Growth)
    (react : History κ → κ → Reply → List (Action κ)) (rs : List Json) :
    Handles rs (rs.forM (handleSingleResponse codec growth react)) := by
  have h := Handles.forM (l := rs) fun r _ => handles_single codec growth react r
  rwa [List.flatMap_singleton'] at h

/-- The responses in a body are handled one after the other; a body without any is
refused. -/
theorem handleResponse_eq (codec : Codec) (growth : Growth)
    (react : History κ → κ → Reply → List (Action κ)) (body : Bytes) :
    (∃ msg, ∀ s, handleResponse codec growth react body s = .error (.thrown ⟨msg, none⟩) s) ∧
        responsesIn codec body = [] ∨
      ∀ s, handleResponse codec growth react body s =
        (responsesIn codec body).forM (handleSingleResponse codec growth react) s := by
  unfold handleResponse responsesIn
  cases codec.parse body with
  | error err => exact .inl ⟨⟨_, fun _ => rfl⟩, rfl⟩
  | ok v =>
    cases v with
    | object members =>
      refine .inr fun s => ?_
      rw [List.forM_eq_forM, List.forM_cons, List.forM_nil]
      exact (congrFun (bind_pure
        (handleSingleResponse codec growth react (.object members))) s).symm
    | array responses =>
      dsimp only
      by_cases hempty : responses.length = 0
      · rw [List.length_eq_zero_iff] at hempty
        subst hempty
        exact .inl ⟨⟨_, fun _ => rfl⟩, rfl⟩
      · rw [if_neg hempty]
        exact .inr fun _ => rfl
    | _ => exact .inl ⟨⟨_, fun _ => rfl⟩, rfl⟩

/-- A body is handled response by response. -/
theorem handles_body (codec : Codec) (growth : Growth)
    (react : History κ → κ → Reply → List (Action κ)) (body : Bytes) :
    Handles (responsesIn codec body) (handleResponse codec growth react body) := by
  intro s
  rcases handleResponse_eq codec growth react body with ⟨⟨msg, hres⟩, -⟩ | hres <;> rw [hres]
  · exact ⟨[], List.nil_prefix, .refl s⟩
  · exact handles_list codec growth react _ s

/-- **A piece is handled response by response**, and one without any fails. -/
theorem handles_accept (codec : Codec) (growth : Growth)
    (react : History κ → κ → Reply → List (Action κ)) (p : Piece) :
    Handles (p.responses codec) (accept codec growth react p) := by
  cases p with
  | refused line =>
    simp only [accept]
    cases readHeader codec.parse (line ++ kCRLF) <;> exact .throw _
  | message header body =>
    simp only [accept]
    split_ifs
    · exact .throw _
    · exact handles_body codec growth react body

/-- A piece is accepted from a sound state. -/
theorem accept_triple (p : Piece) :
    Triple (Sound codec growth react) (accept codec growth react p)
      (fun _ => Sound codec growth react) (Fails codec growth react) := by
  intro s hs
  cases p with
  | refused line =>
    simp only [accept]
    cases readHeader codec.parse (line ++ kCRLF) <;> exact hs
  | message header body =>
    simp only [accept]
    split_ifs
    · exact hs
    · exact handleResponse_triple codec growth react _ s hs

/-! ### The loop over the pieces -/

/-- The line at the front of a stream is the one of its first piece. -/
theorem Piece.IsCut.search_header (hcut : p.IsCut codec.parse) (rest : Bytes) :
    search kCRLF (p.bytes ++ rest) = some p.header.length ∧
      (p.bytes ++ rest).take (p.header.length + 2) = p.header ++ kCRLF := by
  obtain ⟨tail, htail⟩ : ∃ tail, p.bytes ++ rest = p.header ++ kCRLF ++ tail := by
    cases p with
    | message header body => exact ⟨body ++ rest, by simp [Piece.bytes, Piece.header]⟩
    | refused line => exact ⟨rest, rfl⟩
  rw [htail]
  exact ⟨search_append (by decide) hcut.line tail, List.take_left' (by simp [kCRLF])⟩

variable (growth react) in
/-- A line that is refused, or a message too long, is an error at the front of the stream;
another message is an item. -/
theorem front_piece (hcut : p.IsCut codec.parse) (rest : Bytes) :
    (∃ n e, (rules codec.parse).front (p.bytes ++ rest) = .bad n e ∧
        ∀ x : State κ, accept codec growth react p x = .error e x) ∨
      ∃ header body, p = .message header body ∧
        (rules codec.parse).front (p.bytes ++ rest) = .item p.bytes.length (.frame body) ∧
          accept codec growth react p = handleResponse codec growth react body := by
  obtain ⟨hsearch, htake⟩ := hcut.search_header rest
  have hblank : ¬ (p.header.length = 0 ∧ (rules codec.parse).emptyLines = true) := by simp [rules]
  have hfront := (rules codec.parse).front_of_search hsearch
  rw [if_neg hblank, htake] at hfront
  have hannounces := hcut.announces
  cases p with
  | refused line =>
    left
    rw [Piece.header] at hfront
    cases hread : readHeader codec.parse (line ++ kCRLF) with
    | none =>
      rw [show readHeader (rules codec.parse).parse (line ++ kCRLF) = none from hread] at hfront
      exact ⟨_, _, hfront, fun x => by simp only [accept, hread]; rfl⟩
    | some n =>
      have hlong : (rules codec.parse).limit ≤ n := hannounces n hread
      rw [show readHeader (rules codec.parse).parse (line ++ kCRLF) = some n from hread] at hfront
      simp only [FrameRules.body, if_pos hlong] at hfront
      exact ⟨_, _, hfront, fun x => by simp only [accept, hread]; rfl⟩
  | message header body =>
    have hread : readHeader (rules codec.parse).parse (header ++ kCRLF) = some body.length :=
      hannounces
    rw [Piece.header] at hsearch hblank htake hfront
    simp only [accept]
    by_cases hlong : kMaxMessageLen ≤ body.length
    · rw [hread] at hfront
      simp only [FrameRules.body, if_pos (show (rules codec.parse).limit ≤ body.length from hlong)]
        at hfront
      rw [if_pos hlong]
      exact .inl ⟨_, _, hfront, fun x => rfl⟩
    · have hlen : (Piece.message header body).bytes.length = header.length + 2 + body.length := by
        rw [Piece.bytes, List.length_append, List.length_append]
        rfl
      have hdrop : ((Piece.message header body).bytes ++ rest).drop (header.length + 2) =
          body ++ rest := by
        rw [Piece.bytes, List.append_assoc]
        exact List.drop_left' (by simp [kCRLF])
      have hitem := (rules codec.parse).front_item_of_frame hsearch hblank
        (by rw [htake]; exact hread) (Nat.not_le.1 hlong)
        (by rw [List.length_append, hlen]; exact Nat.le_add_right _ _)
      rw [hdrop, List.take_left' rfl, ← hlen] at hitem
      exact .inr ⟨header, body, rfl, hitem, if_neg hlong⟩

/-- **The receive loop accepts the pieces of its stream** one after the other: it fails
with the first that fails, and otherwise goes on behind them. -/
theorem receive_pieces (hcut : ∀ p ∈ pieces, p.IsCut codec.parse) {is : List Item} {q : Bytes}
    {o : Option (Abrupt ResponseException)}
    (h : (receiver codec.parse (handleResponse codec growth react)).Receive
      ((pieces.map Piece.bytes).flatten ++ rest) x is q y o) :
    (∃ e, pieces.forM (accept codec growth react) x = .error e y ∧ o = some e) ∨
      ∃ z js, pieces.forM (accept codec growth react) x = .ok () z ∧
        (receiver codec.parse (handleResponse codec growth react)).Receive rest z js q y o := by
  induction pieces generalizing x is with
  | nil => exact .inr ⟨x, is, rfl, h⟩
  | cons p pieces ih =>
    have hforM : (p :: pieces).forM (accept codec growth react) x =
        (accept codec growth react p >>= fun _ => pieces.forM (accept codec growth react)) x := rfl
    simp only [bind, EStateM.bind] at hforM
    rw [hforM]
    rw [List.map_cons, List.flatten_cons, List.append_assoc] at h
    rcases front_piece growth react (hcut p (by simp))
      ((pieces.map Piece.bytes).flatten ++ rest) with
      ⟨n, e, hfront, haccept⟩ | ⟨header, body, rfl, hfront, haccept⟩
    · obtain ⟨rfl, rfl⟩ := h.of_bad hfront
      rw [haccept]
      exact .inl ⟨e, rfl, rfl⟩
    · rw [haccept]
      rcases h.of_item hfront id with ⟨e, rfl, hh⟩ | ⟨z, js, hh, hrest⟩
      · have hres : handleResponse codec growth react body x = .error e y := by
          simp only [receiver, Connection.serve] at hh
          cases hr : handleResponse codec growth react body x <;> rw [hr] at hh <;>
            cases hh
          rfl
        rw [hres]
        exact .inl ⟨e, rfl, rfl⟩
      · have hres : handleResponse codec growth react body x = .ok () z := by
          simp only [receiver, Connection.serve] at hh
          cases hr : handleResponse codec growth react body x <;> rw [hr] at hh <;>
            cases hh
          rfl
        rw [hres]
        rw [List.drop_left] at hrest
        exact ih (fun p hmem => hcut p (List.mem_cons_of_mem _ hmem)) hrest

/-- What the handler in `onMessage` adds to the history is the removal of an entry. -/
theorem onMessage_handled {o : Option (Abrupt ResponseException)}
    (h : handleMessage codec.parse (handleResponse codec growth react) c = Connection.outcome o d) :
    ∃ o' d', onMessage codec growth react c = Connection.outcome o' d' ∧
      Hears [] d.peer.history d'.peer ∧ ((∀ e, o ≠ some (.thrown e)) → d'.peer = d.peer) := by
  unfold onMessage
  rw [h]
  cases o with
  | none => exact ⟨none, d, rfl, .refl _, fun _ => rfl⟩
  | some e =>
    cases e with
    | thrown e =>
      obtain ⟨msg, _ | n⟩ := e
      · exact ⟨none, d, rfl, .refl _, fun _ => rfl⟩
      · simp only [Connection.outcome, Connection.onPeer, eraseCallback]
        split_ifs
        · exact ⟨none, _, rfl, .removed { d.peer with callbacks := _ } n.toInt,
            fun he => absurd rfl (he _)⟩
        · exact ⟨none, d, rfl, .refl _, fun _ => rfl⟩
    | assertion => exact ⟨some .assertion, d, rfl, .refl _, fun _ => rfl⟩
    | library => exact ⟨some .library, d, rfl, .refl _, fun _ => rfl⟩
    | overflow => exact ⟨some .overflow, d, rfl, .refl _, fun _ => rfl⟩
    | undefined => exact ⟨some .undefined, d, rfl, .refl _, fun _ => rfl⟩
    | outOfFuel => exact ⟨some .outOfFuel, d, rfl, .refl _, fun _ => rfl⟩

/-- What the loop adds to the history comes from responses. -/
theorem receive_hears {s : Bytes} {is : List Item} {q : Bytes}
    {o : Option (Abrupt ResponseException)}
    (h : (receiver codec.parse (handleResponse codec growth react)).Receive s x is q y o) :
    ∃ rs, Hears rs x.history y := by
  have hbody : ∀ body, Triple (fun z => ∃ rs, Hears rs x.history z)
      (handleResponse codec growth react body) (fun _ z => ∃ rs, Hears rs x.history z)
      fun _ z => ∃ rs, Hears rs x.history z := by
    rintro body z ⟨rs, hz⟩
    have hbody := handles_body codec growth react body
    cases hx : handleResponse codec growth react body z with
    | ok u w => exact ⟨_, hz.trans (hbody.of_ok hx)⟩
    | error e w =>
      obtain ⟨rs', -, hw⟩ := hbody.of_error hx
      exact ⟨_, hz.trans hw⟩
  obtain ⟨hok, hfail⟩ := h.preserves (P := fun z => ∃ rs, Hears rs x.history z)
    (E := fun _ z => ∃ rs, Hears rs x.history z) ⟨[], .refl x⟩
    (fun i z w hz hh => (Connection.serve_ends hbody hz hh).1 rfl)
    (fun i z w e hz hh => (Connection.serve_ends hbody hz hh).2 e rfl) fun _ _ _ _ hz _ => hz
  cases o with
  | none => exact hok rfl
  | some e => exact hfail e rfl

variable (growth react) in
/-- **Data arrive that complete pieces**: the pieces are accepted one after the other up to
the first that fails. -/
theorem run_pieces (hcut : ∀ p ∈ pieces, p.IsCut codec.parse)
    (hdata : c.buffer.readable ++ data = (pieces.map Piece.bytes).flatten ++ rest) :
    ∃ o c', (Op.onMessage data).run codec growth react c = Connection.outcome o c' ∧
      ((∃ e z, pieces.forM (accept codec growth react) c.peer = .error e z ∧
          Hears [] z.history c'.peer ∧ ((∀ x, e ≠ .thrown x) → c'.peer = z)) ∨
        ∃ z rs, pieces.forM (accept codec growth react) c.peer = .ok () z ∧
          Hears rs z.history c'.peer) := by
  obtain ⟨b, hb, hr⟩ := Connection.append_eq (ε := ResponseException) c data
  have hsim : Connection.Simulates (receiver codec.parse (handleResponse codec growth react))
      { c with buffer := b }
      (handleMessage codec.parse (handleResponse codec growth react) { c with buffer := b }) :=
    handleMessage_simulates _
  obtain ⟨is, q, y, o, d, hrec, -, rfl, -, hres⟩ := hsim
  rw [hr, hdata] at hrec
  obtain ⟨o', d', hd', hhears, hsame⟩ := onMessage_handled hres
  refine ⟨o', d', ?_, ?_⟩
  · simp only [Op.run, bind, EStateM.bind, hb, hd']
  · rcases receive_pieces hcut hrec with ⟨e, hforM, rfl⟩ | ⟨z, js, hforM, hrest⟩
    · exact .inl ⟨e, d.peer, hforM, hhears, fun he => hsame fun x hx => he x (Option.some.inj hx)⟩
    · obtain ⟨rs, hrs⟩ := receive_hears hrest
      exact .inr ⟨z, _, hforM, hrs.trans hhears⟩

end BaseClient
end BearRpc
