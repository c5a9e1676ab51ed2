/-
# Which responses are answered

`id_` and the keys of `callbacks_` are of type `int64_t`, and `sendCall` sends `id_` as
it is.  `validateResponse` asks for an id of `TYPE_INT32`, and `ResponseException` keeps
an `int`.  The JSON library reads an integer as `TYPE_INT32` where it fits 32 bits and as
`TYPE_INT64` otherwise (`Json.ofInteger`), so a response to a call with a longer id is
not recognised.

`answered_iff` says what becomes of a response to a call that waits, when the data arrive
that complete it: its callback is invoked and its entry removed exactly if the id has 32
bits, the message is not too long, everything that stands before it in the buffer and in
its batch is handled without failing and leaves the call waiting, and the calls that its
callback issues get through and have room in the table.
-/

import BearRpc.Client.Arrival
import BearRpc.Client.Guarantees

namespace BearRpc

open Theory CallTable

namespace BaseClient

variable {κ : Type}

/-- A response to the call `k`, with the members of the protocol in any order,
and what it carries. -/
inductive RespondsTo (k : ℤ) : Json → Reply → Prop
  | result {ms v} : ms.Perm [("jsonrpc", .string "2.0"), ("id", .ofInteger k), ("result", v)] →
      RespondsTo k (.object ms) ⟨v, false, false⟩
  | error {ms e} : ms.Perm [("jsonrpc", .string "2.0"), ("id", .ofInteger k),
      ("error", .object e)] → RespondsTo k (.object ms) ⟨.object e, true, false⟩

/-- The data complete a message with the response `r` to the call `k`, alone or in a batch.
Before it stand the pieces `before` in the buffer and the responses `pre` in the batch. -/
structure Arrives (codec : Codec) (c : Connection (State κ)) (data : Bytes) (before : List Piece)
    (header body : Bytes) (pre : List Json) (r : Json) (k : ℤ) (a : Reply) : Prop where
  cut : ∀ p ∈ before ++ [Piece.message header body], p.IsCut codec.parse
  stream : ∃ rest, c.buffer.readable ++ data =
    ((before ++ [Piece.message header body]).map Piece.bytes).flatten ++ rest
  parsed : ∃ post, responsesIn codec body = pre ++ r :: post
  responds : RespondsTo k r a

/-- The library refuses none of the calls among the actions, the ids suffice for them, and the
table has room. -/
structure CallsFit (codec : Codec) (s : State κ) (acts : List (Action κ)) : Prop where
  accepted : ∀ act ∈ acts, act.isRefused codec = false
  ids : s.id + acts.countP Action.isCall < 2 ^ 63
  room : s.callbacks.size + acts.countP Action.isCall ≤ s.callbacks.room

section Answers

variable (codec : Codec) (growth : Growth) (react : History κ → κ → Reply → List (Action κ))

/-- What stands before a response is handled without failing, and `s` is the state then. -/
def Reached (before : List Piece) (pre : List Json) (x s : State κ) : Prop :=
  ∃ y, before.forM (accept codec growth react) x = .ok () y ∧
    pre.forM (handleSingleResponse codec growth react) y = .ok () s

/-- The data arrive, and for the response `r`, which comes behind the responses `earlier`, the
callback of `k` is invoked with `a` and its entry removed. -/
def Answered (c : Connection (State κ)) (data : Bytes) (earlier : List Json) (r : Json) (k : ℤ)
    (cb : κ) (a : Reply) : Prop :=
  ∃ o c' front back, (Op.onMessage data).run codec growth react c = Connection.outcome o c' ∧
    c'.peer.history = c.peer.history ++ front ++ .response r :: .invoked k cb a :: back ∧
      CallTable.responses front = earlier ∧ .removed k ∈ back ∧ (o = none → k ∉ c'.peer.callbacks)

end Answers

variable {codec : Codec} {growth : Growth} {react : History κ → κ → Reply → List (Action κ)}
  {s t x y : State κ} {ops : List (Op κ)} {c c' : Connection (State κ)}
  {data header body : Bytes} {k : ℤ} {cb : κ} {r : Json} {a : Reply} {before : List Piece}
  {pre earlier rs : List Json} {o o' : Option (Abrupt ResponseException)}
  {acts : List (Action κ)}

/-- A response has the members of the protocol. -/
theorem RespondsTo.findMember (h : RespondsTo k r a) :
    r.getSize = 3 ∧ r.findMember "id" = some (.ofInteger k) ∧
      r.findMember "jsonrpc" = some (.string "2.0") ∧ Carries r a ∧
        (a.isError = true → ∃ e, a.value = .object e) := by
  cases h with
  | @result ms v hms =>
    have hnd : (ms.map Prod.fst).Nodup := (hms.map Prod.fst).nodup_iff.2
      (show ["jsonrpc", "id", "result"].Nodup by decide)
    have hmem : ∀ key w, (Json.object ms).findMember key = some w ↔ (key, w) ∈ ms :=
      fun key w => Json.findMember_eq_some_iff hnd
    refine ⟨hms.length_eq, ?_, ?_, .result ?_, nofun⟩
    · simp [hmem, hms.mem_iff]
    · simp [hmem, hms.mem_iff]
    · simp [hmem, hms.mem_iff]
  | @error ms e hms =>
    have hnd : (ms.map Prod.fst).Nodup := (hms.map Prod.fst).nodup_iff.2
      (show ["jsonrpc", "id", "error"].Nodup by decide)
    have hmem : ∀ key w, (Json.object ms).findMember key = some w ↔ (key, w) ∈ ms :=
      fun key w => Json.findMember_eq_some_iff hnd
    refine ⟨hms.length_eq, ?_, ?_, .error ?_ ?_, fun _ => ⟨e, rfl⟩⟩
    · simp [hmem, hms.mem_iff]
    · simp [hmem, hms.mem_iff]
    · rw [Json.findMember_eq_none_iff, (hms.map Prod.fst).mem_iff]
      exact show "result" ∉ ["jsonrpc", "id", "error"] by decide
    · simp [hmem, hms.mem_iff]

/-- An id of 32 bits is read as an `Int32`. -/
theorem RespondsTo.identified (h : RespondsTo k r a) (h₀ : 0 ≤ k) (hk : k < 2 ^ 31) :
    Identified r (Int32.ofInt k) ∧ (Int32.ofInt k).toInt = k ∧ WellFormed r := by
  obtain ⟨hsize, hid, hversion, ha, herror⟩ := h.findMember
  rw [Json.ofInteger, if_pos ⟨by omega, hk⟩] at hid
  refine ⟨⟨hsize, hid⟩, Int32.toInt_ofInt_of_le (by omega) (by omega), hversion, ?_⟩
  cases ha with
  | result hv => exact .inl ⟨_, hv⟩
  | error _ he =>
    obtain ⟨e, rfl⟩ := herror rfl
    exact .inr ⟨e, he⟩

/-- A longer one is not. -/
theorem RespondsTo.not_identified (h : RespondsTo k r a) (hk : 2 ^ 31 ≤ k) (n : Int32) :
    ¬ Identified r n := by
  intro hn
  have hid := h.findMember.2.1
  rw [Json.ofInteger, if_neg (by omega), hn.id] at hid
  cases hid

theorem RespondsTo.isObject (h : RespondsTo k r a) : r.isObject = true := by
  cases h <;> rfl

/-! ### What stands before the response -/

/-- What stands before leaves a sound state. -/
theorem Reached.sound (h : Reached codec growth react before pre x s)
    (hx : Sound codec growth react x) : Sound codec growth react s := by
  obtain ⟨y, hy, hs⟩ := h
  have hbefore : Triple (Sound codec growth react) (before.forM (accept codec growth react)) _ _ :=
    .forM fun p _ => accept_triple p
  have hpre : Triple (Sound codec growth react)
      (pre.forM (handleSingleResponse codec growth react)) _ _ :=
    .forM fun r _ => handleSingleResponse_triple r
  exact hpre.of_ok (hbefore.of_ok hx hy) hs

variable (codec growth react) in
/-- What stands before the response is handled response by response. -/
theorem handles_before (before : List Piece) :
    Handles (before.flatMap (Piece.responses codec)) (before.forM (accept codec growth react)) :=
  .forM fun p _ => handles_accept codec growth react p

/-- Where the response is reached, the responses before it have been handled. -/
theorem Reached.hears (h : Reached codec growth react before pre x s) :
    Hears (before.flatMap (Piece.responses codec) ++ pre) x.history s := by
  obtain ⟨y, hy, hs⟩ := h
  exact ((handles_before codec growth react before).of_ok hy).trans
    ((handles_list codec growth react pre).of_ok hs)

theorem outcome_inj (h : Connection.outcome o c = Connection.outcome o' c') : o = o' ∧ c = c' := by
  cases o <;> cases o' <;> cases h <;> exact ⟨rfl, rfl⟩

variable (growth react) in
/-- The pieces up to the message, one after the other: those before it, and then its
responses unless it is too long. -/
theorem forM_accept_eq (harr : Arrives codec c data before header body pre r k a) (x : State κ) :
    ∃ post : List Json, (before ++ [Piece.message header body]).forM (accept codec growth react) x =
      (before.forM (accept codec growth react) >>= fun _ =>
        if kMaxMessageLen ≤ body.length then throw messageTooLong
        else pre.forM (handleSingleResponse codec growth react) >>= fun _ =>
          handleSingleResponse codec growth react r >>= fun _ =>
            post.forM (handleSingleResponse codec growth react)) x := by
  obtain ⟨post, hpost⟩ := harr.parsed
  have hmessage : accept codec growth react (.message header body) =
      if kMaxMessageLen ≤ body.length then throw messageTooLong
      else pre.forM (handleSingleResponse codec growth react) >>= fun _ =>
        handleSingleResponse codec growth react r >>= fun _ =>
          post.forM (handleSingleResponse codec growth react) := by
    simp only [accept]
    split_ifs
    · rfl
    · rcases handleResponse_eq codec growth react body with ⟨-, hnone⟩ | hres
      · rw [hpost] at hnone
        exact absurd hnone (by simp)
      · funext y
        rw [hres, hpost]
        simp only [List.forM_eq_forM, List.forM_append, List.forM_cons]
  refine ⟨post, ?_⟩
  rw [← hmessage]
  simp only [List.forM_eq_forM, List.forM_append, List.forM_cons, List.forM_nil, bind_pure_unit]

/-- **The response is reached**: it is handled, and what follows only adds to the history; where
handling it fails, `onMessage` at most removes an entry. -/
theorem run_reached (harr : Arrives codec c data before header body pre r k a)
    (hshort : body.length < kMaxMessageLen)
    (hreached : Reached codec growth react before pre c.peer s) :
    ∃ o c', (Op.onMessage data).run codec growth react c = Connection.outcome o c' ∧
      (∀ t, handleSingleResponse codec growth react r s = .ok () t →
        ∃ rs, Hears rs t.history c'.peer) ∧
      ∀ e t, handleSingleResponse codec growth react r s = .error e t →
        Hears [] t.history c'.peer ∧ ((∀ x, e ≠ .thrown x) → c'.peer = t) := by
  obtain ⟨rest, hstream⟩ := harr.stream
  obtain ⟨o, c', hrun, hout⟩ := run_pieces growth react harr.cut hstream
  obtain ⟨y, hbefore, hpre⟩ := hreached
  obtain ⟨post, hforM⟩ := forM_accept_eq growth react harr c.peer
  rw [if_neg (Nat.not_le.2 hshort)] at hforM
  simp only [bind, EStateM.bind, hbefore, hpre] at hforM
  rw [hforM] at hout
  refine ⟨o, c', hrun, fun t ht => ?_, fun e t ht => ?_⟩
  · rw [ht] at hout
    have hpost := handles_list codec growth react post
    obtain ⟨e, z, hz, hhears, -⟩ | ⟨z, rs, hz, hhears⟩ := hout
    · obtain ⟨rs', -, hrs⟩ := hpost.of_error hz
      exact ⟨_, hrs.trans hhears⟩
    · exact ⟨_, (hpost.of_ok hz).trans hhears⟩
  · rw [ht] at hout
    obtain ⟨_, _, ⟨⟩, hhears, hsame⟩ | ⟨_, _, ⟨⟩, -⟩ := hout
    exact ⟨hhears, hsame⟩

/-- **The response is not reached**: no more than the responses before it are handled. The data
end in an exception, and what is left of the message is dropped or stays in the buffer. -/
theorem run_unreached (harr : Arrives codec c data before header body pre r k a)
    (hnot : ¬ (body.length < kMaxMessageLen ∧
      ∃ s, Reached codec growth react before pre c.peer s)) :
    ∃ o c' rs, (Op.onMessage data).run codec growth react c = Connection.outcome o c' ∧
      rs <+: before.flatMap (Piece.responses codec) ++ pre ∧ Hears rs c.peer.history c'.peer := by
  obtain ⟨rest, hstream⟩ := harr.stream
  obtain ⟨o, c', hrun, hout⟩ := run_pieces growth react harr.cut hstream
  obtain ⟨post, hforM⟩ := forM_accept_eq growth react harr c.peer
  simp only [bind, EStateM.bind] at hforM
  -- wherever the pieces fail, the response has not been handled
  suffices hfail : ∃ e z rs, (before ++ [Piece.message header body]).forM
      (accept codec growth react) c.peer = .error e z ∧
        rs <+: before.flatMap (Piece.responses codec) ++ pre ∧ Hears rs c.peer.history z by
    obtain ⟨e, z, rs, hz, hprefix, hhears⟩ := hfail
    rw [hz] at hout
    obtain ⟨_, _, ⟨⟩, hmore, -⟩ | ⟨_, _, ⟨⟩, -⟩ := hout
    have hall := hhears.trans hmore
    rw [List.append_nil] at hall
    exact ⟨o, c', rs, hrun, hprefix, hall⟩
  have hbefore := handles_before codec growth react before
  rw [hforM]
  cases hy : before.forM (accept codec growth react) c.peer with
  | error e z =>
    obtain ⟨rs, hprefix, hrs⟩ := hbefore.of_error hy
    exact ⟨e, z, rs, rfl, hprefix.trans (List.prefix_append _ _), hrs⟩
  | ok u y =>
    by_cases hshort : body.length < kMaxMessageLen
    swap
    · rw [if_pos (not_lt.1 hshort)]
      exact ⟨messageTooLong, y, _, rfl, List.prefix_append _ _, hbefore.of_ok hy⟩
    rw [if_neg (Nat.not_le.2 hshort)]
    dsimp only
    cases hs : pre.forM (handleSingleResponse codec growth react) y with
    | error e z =>
      obtain ⟨rs, hprefix, hrs⟩ := (handles_list codec growth react pre).of_error hs
      exact ⟨e, z, _, by simp only [EStateM.bind, hs],
        (List.prefix_append_right_inj _).2 hprefix, (hbefore.of_ok hy).trans hrs⟩
    | ok v s => exact absurd ⟨hshort, s, y, hy, hs⟩ hnot

/-- The response is reached in one state. -/
theorem Reached.unique (h : Reached codec growth react before pre x s)
    (h' : Reached codec growth react before pre x t) : t = s := by
  obtain ⟨y, hy, hs⟩ := h
  obtain ⟨z, hz, ht⟩ := h'
  rw [hy] at hz
  cases hz
  rw [hs] at ht
  cases ht
  rfl

/-! ### The response itself -/

variable (codec growth react) in
/-- A response to a call with a longer id is refused. -/
theorem handleSingleResponse_of_long (hr : RespondsTo k r a) (hk : 2 ^ 31 ≤ k) (s : State κ) :
    ∃ msg, handleSingleResponse codec growth react r s =
      .error (.thrown ⟨msg, none⟩) (s.record (.response r)) := by
  obtain ⟨msg, hmsg⟩ :=
    validateResponse_of_isObject codec hr.isObject (hr.not_identified hk)
  exact ⟨msg, handleSingleResponse_of_error hmsg⟩

/-- **A response to a call with an id of 32 bits that waits**: the callback is invoked; if its
calls fit, its entry is removed, and otherwise nothing follows but calls. -/
theorem handleSingleResponse_of_short (h : Sound codec growth react s) (hr : RespondsTo k r a)
    (h₀ : 0 ≤ k) (hk : k < 2 ^ 31) (hcb : s.findCallback k = some cb)
    (hacts : s.reaction react r k cb a = acts) :
    (CallsFit codec s acts ∧ ∃ t rest, handleSingleResponse codec growth react r s = .ok () t ∧
        t.history = s.history ++ .response r :: .invoked k cb a :: (rest ++ [.removed k])) ∨
      (¬ CallsFit codec s acts ∧ ∃ e t rest,
        handleSingleResponse codec growth react r s = .error e t ∧ (∀ x, e ≠ .thrown x) ∧
          t.history = s.history ++ .response r :: .invoked k cb a :: rest ∧
            ∀ e ∈ rest, Event.IsIssue e) := by
  obtain ⟨hid, hn, hw⟩ := hr.identified h₀ hk
  have ha := hr.findMember.2.2.2.1
  rw [← hn] at hcb hacts ⊢
  have hstart : (s.invoked r (Int32.ofInt k).toInt cb a).history =
      s.history ++ [.response r, .invoked (Int32.ofInt k).toInt cb a] := by
    simp [State.invoked]
  rcases handleSingleResponse_known h hid hw ha hcb hacts with
    ⟨t, ht, haccepted, ⟨hroom, hres⟩ | ⟨hroom, hres⟩⟩ | ⟨e, t, hres, hforM, hfails, -⟩
  · obtain ⟨rest, hrest, -⟩ := ht.issues
    have hlt := ht.tracks.id_lt
    rw [ht.id_eq] at hlt
    refine .inl ⟨⟨haccepted, hlt, hroom⟩, _, rest, hres, ?_⟩
    rw [State.record_history, show _ = t.history from rfl, hrest, hstart]
    simp
  · obtain ⟨rest, hrest, hall⟩ := ht.issues
    refine .inr ⟨fun hfit => hroom hfit.room, _, t, rest, hres, nofun, ?_, hall⟩
    rw [hrest, hstart]
    simp
  · obtain ⟨rest, hrest, hall⟩ := (forM_perform_issues (P := Event.IsIssue)
      (fun j d => ⟨j, d, rfl⟩) acts).of_error (.refl _) hforM
    refine .inr ⟨fun hfit => ?_, e, t, rest, hres, ?_, ?_, hall⟩
    · obtain ⟨u, hu⟩ := forM_perform_returns codec growth acts
        (s.invoked r (Int32.ofInt k).toInt cb a) hfit.accepted hfit.ids
      rw [hu] at hforM
      cases hforM
    · rintro x rfl
      exact hfails
    · rw [hrest, hstart]
      simp

/-! ### When the response is answered -/

/-- Where only earlier responses have been handled, the response has not been answered. -/
theorem not_answered_of_unreached
    (hrun : (Op.onMessage data).run codec growth react c = Connection.outcome o c')
    (hrs : rs <+: earlier) (hhears : Hears rs c.peer.history c'.peer) :
    ¬ Answered codec growth react c data earlier r k cb a := by
  rintro ⟨o'', c'', front, back, hrun', hhist, hfront, -, -⟩
  obtain ⟨rfl, rfl⟩ := outcome_inj (hrun.symm.trans hrun')
  obtain ⟨rest, hrest, rfl, -⟩ := hhears
  rw [hrest, List.append_assoc, List.append_cancel_left_eq] at hhist
  have hcount : (CallTable.responses rest).length ≤ earlier.length := hrs.length_le
  rw [hhist, responses_append, hfront, ← List.singleton_append (x := CallTable.Event.response r),
    responses_append, responses_response, List.length_append, List.length_append,
    List.length_singleton] at hcount
  omega

/-- Where it has been handled and no invocation stands right behind it, it has not been answered
either. -/
theorem not_answered_of_hears
    (hrun : (Op.onMessage data).run codec growth react c = Connection.outcome o c')
    (hbefore : Hears earlier c.peer.history s)
    (hhears : Hears rs (s.history ++ [.response r]) c'.peer) :
    ¬ Answered codec growth react c data earlier r k cb a := by
  rintro ⟨o'', c'', front, back, hrun', hhist, hfront, -, -⟩
  obtain ⟨rfl, rfl⟩ := outcome_inj (hrun.symm.trans hrun')
  obtain ⟨front', hs, hfront', -⟩ := hbefore
  obtain ⟨rest, hrest, -, hhead⟩ := hhears
  rw [hrest, hs, List.append_assoc, List.append_assoc, List.append_assoc,
    List.append_cancel_left_eq] at hhist
  obtain ⟨-, -, htail⟩ := eq_of_responses_eq hhist (hfront'.trans hfront.symm)
  exact hhead k cb a (congrArg List.head? htail)

/-- Where the entry has not been removed, the response has not been answered. -/
theorem not_answered_of_notMem
    (hrun : (Op.onMessage data).run codec growth react c = Connection.outcome o c')
    (hmem : .removed k ∉ c'.peer.history) :
    ¬ Answered codec growth react c data earlier r k cb a := by
  rintro ⟨o'', c'', front, back, hrun', hhist, -, hback, -⟩
  obtain ⟨rfl, rfl⟩ := outcome_inj (hrun.symm.trans hrun')
  exact hmem (by rw [hhist]; simp [hback])

/-- **A response that is reached** is answered exactly if its id has 32 bits, its call waits
still, and the calls of its callback fit. -/
theorem answered_iff_of_reached (h : Run (Step codec growth react) (start growth) ops c)
    (hk : c.peer.findCallback k = some cb)
    (harr : Arrives codec c data before header body pre r k a)
    (hshort : body.length < kMaxMessageLen)
    (hreached : Reached codec growth react before pre c.peer s) :
    Answered codec growth react c data (before.flatMap (Piece.responses codec) ++ pre) r k cb a ↔
      k < 2 ^ 31 ∧ k ∈ s.callbacks ∧ CallsFit codec s (s.reaction react r k cb a) := by
  have hsound := sound_of_run h
  have h₀ : 0 ≤ k := (hsound.tracks.inv.used_of_pending hk).1
  have hs := hreached.sound hsound
  obtain ⟨front, hfront, hresponses, -⟩ := hreached.hears
  obtain ⟨o, c', hrun, hok, hfail⟩ := run_reached harr hshort hreached
  by_cases hk31 : k < 2 ^ 31
  swap
  · obtain ⟨msg, hres⟩ := handleSingleResponse_of_long codec growth react
      harr.responds (not_lt.1 hk31) s
    exact iff_of_false (not_answered_of_hears hrun hreached.hears (hfail _ _ hres).1)
      fun hcond => hk31 hcond.1
  by_cases hwaits : k ∈ s.callbacks
  swap
  · -- an earlier response has been taken for the answer
    obtain ⟨hid, hn, hw⟩ := harr.responds.identified h₀ hk31
    have hres : handleSingleResponse codec growth react r s = .ok () (s.record (.response r)) := by
      refine handleSingleResponse_of_unknown hid hw ?_
      rw [hn, ← Option.not_isSome_iff_eq_none, Option.isSome_iff_exists]
      exact fun hcb => hwaits (mem_callbacks_iff.2 hcb)
    obtain ⟨rs, hrs⟩ := hok _ hres
    exact iff_of_false (not_answered_of_hears hrun hreached.hears hrs) fun hcond => hwaits hcond.2.1
  have hcb : s.findCallback k = some cb := by
    obtain ⟨d, hd⟩ := mem_callbacks_iff.1 hwaits
    have hissued : .issued k cb ∈ s.history := by
      rw [hfront]
      exact List.mem_append_left _ ((hsound.tracks.inv.pending k cb).1 hk).1
    exact (hs.tracks.inv.pending k cb).2 ⟨hissued, ((hs.tracks.inv.pending k d).1 hd).2⟩
  rcases handleSingleResponse_of_short hs harr.responds h₀ hk31 hcb rfl with
    ⟨hfit, t, back, hres, hhist⟩ | ⟨hfit, e, t, back, hres, hthrown, hhist, hissues⟩
  · -- the callback is invoked and the entry removed, and what follows only adds to that
    refine iff_of_true ?_ ⟨hk31, hwaits, hfit⟩
    obtain ⟨rs, more, hmore, -⟩ := hok t hres
    have hfinal : c'.peer.history = c.peer.history ++ front ++
        .response r :: .invoked k cb a :: (back ++ [.removed k] ++ more) := by
      rw [hmore, hhist, hfront]
      simp
    refine ⟨o, c', front, back ++ [.removed k] ++ more, hrun, hfinal, hresponses, by simp, ?_⟩
    rintro rfl hmem
    have hsound' : Sound codec growth react c'.peer := sound_of_run (h.snoc hrun)
    obtain ⟨d, hd⟩ := mem_callbacks_iff.1 hmem
    exact ((hsound'.tracks.inv.pending k d).1 hd).2 (by rw [hfinal]; simp)
  · -- the callback is invoked, but does not get through, or its entry is not erased
    refine iff_of_false (not_answered_of_notMem hrun ?_) fun hcond => hfit hcond.2.2
    rw [(hfail e t hres).2 hthrown, hhist]
    simp only [List.mem_append, List.mem_cons, reduceCtorEq, false_or, not_or]
    refine ⟨((hs.tracks.inv.pending k cb).1 hcb).2, fun hmem => ?_⟩
    obtain ⟨j, d, hj⟩ := hissues _ hmem
    cases hj

/-- **Which responses are answered.**  In every reachable state of a client and for every call
`k` that waits: data arrive that complete a message with a response to it.  Its callback is
invoked with what the response carries, and its entry removed, exactly if the id has 32 bits,
the message is not too long, what stands before the response is handled without failing, and
then the call waits still, and the calls that the callback issues get through and have room in
the table. -/
theorem answered_iff (h : Run (Step codec growth react) (start growth) ops c)
    (hk : c.peer.findCallback k = some cb)
    (harr : Arrives codec c data before header body pre r k a) :
    Answered codec growth react c data (before.flatMap (Piece.responses codec) ++ pre) r k cb a ↔
      k < 2 ^ 31 ∧ body.length < kMaxMessageLen ∧
        ∃ s, Reached codec growth react before pre c.peer s ∧ k ∈ s.callbacks ∧
          CallsFit codec s (s.reaction react r k cb a) := by
  by_cases hreach : body.length < kMaxMessageLen ∧
      ∃ s, Reached codec growth react before pre c.peer s
  · obtain ⟨hshort, s, hs⟩ := hreach
    rw [answered_iff_of_reached h hk harr hshort hs]
    constructor
    · exact fun ⟨hk31, hfit⟩ => ⟨hk31, hshort, s, hs, hfit⟩
    · rintro ⟨hk31, -, t, ht, hfit⟩
      rw [hs.unique ht] at hfit
      exact ⟨hk31, hfit⟩
  · obtain ⟨o, c', rs, hrun, hprefix, hhears⟩ := run_unreached harr hreach
    refine iff_of_false (not_answered_of_unreached hrun hprefix hhears) ?_
    rintro ⟨-, hshort, s, hs, -⟩
    exact hreach ⟨hshort, s, hs⟩

/-- **The frame of a response** that arrives at an empty buffer: nothing stands before it,
and its length line is the decimal one that the server writes. -/
theorem arrives_frame {text : Bytes} (hp : ReadsDecimals codec.parse)
    (hlen : text.length + 2 < 2 ^ 31) (hbuffer : c.buffer.readable = [])
    (hparse : codec.parse (text ++ kCRLF) = .ok r) (hr : RespondsTo k r a) :
    Arrives codec c (frame text) [] (decimal (text.length + 2)) (text ++ kCRLF) [] r k a where
  cut p hmem := by
    obtain rfl : p = .message (decimal (text.length + 2)) (text ++ kCRLF) := by simpa using hmem
    refine ⟨(congrArg _ (List.append_nil _).symm).trans (search_decimal _ []), ?_⟩
    rw [Piece.Announces, readHeader_decimal hp (by omega) hlen, List.length_append]
    rfl
  stream := ⟨[], by simp [hbuffer, Piece.bytes, frame]⟩
  parsed := ⟨[], by
    rw [responsesIn, hparse]
    cases hr <;> rfl⟩
  responds := hr

/-- The response to the first call arrives. -/
theorem arrives_first : Arrives (responseCodec "2.0") (Connection.init (oneCall "2.0" ()))
    (frame (responseText "2.0")) [] (decimal ((responseText "2.0").length + 2))
    (responseText "2.0" ++ kCRLF) [] (responseValue "2.0") 0 ⟨.null, false, false⟩ :=
  arrives_frame (readsDecimals_responseCodec (by decide +kernel)) (by decide +kernel)
    (Connection.readable_init _) (if_pos rfl) (.result (.refl _))

/-- The hypotheses of `answered_iff` are satisfiable: the response to the first call. -/
theorem answered_iff_first :
    Answered (responseCodec "2.0") thirteen quiet (Connection.init (oneCall "2.0" ()))
        (frame (responseText "2.0")) [] (responseValue "2.0") 0 () ⟨.null, false, false⟩ ↔
      (0 : ℤ) < 2 ^ 31 ∧ (responseText "2.0" ++ kCRLF).length < kMaxMessageLen ∧
        ∃ s, Reached (responseCodec "2.0") thirteen quiet [] [] (oneCall "2.0" ()) s ∧
          0 ∈ s.callbacks ∧ CallsFit (responseCodec "2.0") s
            (s.reaction quiet (responseValue "2.0") 0 () ⟨.null, false, false⟩) :=
  answered_iff (Run.single (step_oneCall "2.0" quiet ())) rfl arrives_first

/-! ### A client that has lived long -/

/-- After `m` calls, all of them wait. -/
theorem run_calls (codec : Codec) (m : ℕ) (hm : m < 2 ^ 63) :
    ∃ c, Run (Step codec thirteen quiet) (start thirteen)
        (List.replicate m (.sendCall (.object []) ())) c ∧
      c.peer.id = m ∧ c.buffer.readable = [] ∧
        ∀ k : ℤ, 0 ≤ k → k < m → c.peer.findCallback k = some () := by
  induction m with
  | zero =>
    exact ⟨start thirteen, .nil, rfl, Connection.readable_init _,
      fun k h₀ h₁ => absurd h₁ (by simpa using h₀)⟩
  | succ m ih =>
    obtain ⟨c, hrun, hid, hbuffer, hall⟩ := ih (by omega)
    obtain ⟨s', hs', hid', hcallbacks⟩ : ∃ s',
        sendCall codec thirteen (.object []) () c.peer = .ok () s' ∧
          s'.id = c.peer.id + 1 ∧ s'.callbacks = c.peer.callbacks.set thirteen c.peer.id () :=
      ⟨_, sendCall_of_room rfl (by omega) _, rfl, rfl⟩
    have hstep : Step codec thirteen quiet c (.sendCall (.object []) ()) { c with peer := s' } := by
      simp only [Step, Op.run, Connection.onPeer, hs']
    refine ⟨{ c with peer := s' }, List.replicate_succ' ▸ hrun.snoc hstep, by simp [hid', hid],
      hbuffer, fun k h₀ h₁ => ?_⟩
    rw [State.findCallback, hcallbacks]
    by_cases hk : k = c.peer.id
    · rw [hk, UnorderedMap.lookup_set_self]
    · rw [UnorderedMap.lookup_set_of_ne hk]
      exact hall k h₀ (by push_cast at h₁; omega)

/-- The text of a response to the call `2 ^ 31`. -/
def longText : Bytes :=
  "\x7b\"jsonrpc\":\"2.0\",\"id\":2147483648,\"result\":null\x7d".toUTF8.toList

/-- Its value. -/
def longValue : Json :=
  .object [("jsonrpc", .string "2.0"), ("id", .ofInteger (2 ^ 31)), ("result", .null)]

/-- **A long-lived client ignores its responses**: after `2 ^ 31 + 1` calls, the
last of them waits, and its response is refused. -/
theorem not_answered_long : ¬ ∀ ops c data header body r k cb a,
    Run (Step (codecOf longText longValue) thirteen quiet) (start thirteen) ops c →
      c.peer.findCallback k = some cb →
        Arrives (codecOf longText longValue) c data [] header body [] r k a →
          Answered (codecOf longText longValue) thirteen quiet c data [] r k cb a := by
  intro hall
  obtain ⟨c, hrun, hid, hbuffer, hwait⟩ := run_calls (codecOf longText longValue) (2 ^ 31 + 1)
    (by decide)
  have hk := hwait (2 ^ 31) (by decide) (by decide)
  have harr : Arrives (codecOf longText longValue) c (frame longText) [] _ _ [] longValue
      (2 ^ 31) ⟨.null, false, false⟩ :=
    arrives_frame (readsDecimals_codecOf (by decide +kernel) _) (by decide +kernel) hbuffer
      (if_pos rfl) (.result (.refl _))
  have hanswered := hall _ c _ _ _ _ _ () _ hrun hk harr
  have hcond := (answered_iff_of_reached hrun hk harr (by decide +kernel)
    ⟨c.peer, rfl, rfl⟩).1 hanswered
  exact absurd hcond.1 (by decide)

end BaseClient
end BearRpc
