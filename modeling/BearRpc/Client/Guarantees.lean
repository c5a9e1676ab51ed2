/-
# What the client guarantees, and what it does not

A run of a client, with callbacks that do what they like and data of any kind,
keeps the table of pending calls in order as long as nothing is undefined: ids are
distinct, a callback is invoked at most once and only for a response with the id
of its own call, and handling a response touches no other entry
(`CallbacksCorrect`).

`handleSingleResponse` erases the entry of a callback through an iterator it found
before it invoked the callback.  Where the calls that the callback issued made the
table rehash, this is undefined behaviour.  `callbacks_correct_iff` says that nothing
else goes wrong: a run keeps its callbacks exactly if the table had room for the calls
of each callback.

A call can be lost in another way.  `onMessage` erases the entry named by an
exception with an id without invoking its callback, and such an exception is
thrown for a response that is otherwise invalid.  `noCallLost_iff` says that there
are no other ways.
-/

import BearRpc.Client.History

namespace BearRpc

open Theory CallTable

namespace BaseClient

variable {κ : Type}

/-- What the history says of calls, callbacks and entries. -/
structure CallbacksCorrect (s : State κ) : Prop where
  /-- the ids given to calls are distinct -/
  ids_distinct : (issuedKeys s.history).Nodup
  /-- the callback of a call is invoked at most once -/
  invoked_once : (invokedKeys s.history).Nodup
  /-- it is invoked while a response with the id of its call is handled, with what
  the response carries -/
  invoked : ∀ pre k cb a post, s.history = pre ++ .invoked k cb a :: post →
    ∃ pre' r n, pre = pre' ++ [.response r] ∧ r.findMember "id" = some (.int32 n) ∧
      n.toInt = k ∧ .issued k cb ∈ pre' ∧ Carries r a
  /-- its entry is erased when it has returned, and does not come back -/
  erased : ∀ pre k cb a post, s.history = pre ++ .invoked k cb a :: post →
    k ∉ s.callbacks ∧ ∃ mid post', post = mid ++ .removed k :: post' ∧ ∀ e ∈ mid, Event.IsIssue e
  /-- only the entry with the id of the response is erased while it is handled -/
  others : ∀ pre k post, s.history = pre ++ .removed k :: post →
    ∃ pre' r mid n, pre = pre' ++ .response r :: mid ∧ (∀ e ∈ mid, ∀ r', e ≠ .response r') ∧
      r.findMember "id" = some (.int32 n) ∧ n.toInt = k
  /-- what is not erased is there -/
  kept : ∀ k cb, .issued k cb ∈ s.history → .removed k ∉ s.history → s.findCallback k = some cb

/-- No call is lost: it waits or its callback was invoked once, and no entry is
erased before its callback was invoked. -/
structure NoCallLost (s : State κ) : Prop where
  kept : ∀ k ∈ issuedKeys s.history, k ∈ s.callbacks ∨ (invokedKeys s.history).count k = 1
  told : ∀ pre k post, s.history = pre ++ .removed k :: post → k ∈ invokedKeys pre

/-- Every response of the history that has three members and the id of a call that waits
is well formed. -/
def WellAnswered (h : History κ) : Prop :=
  ∀ pre r post n, h = pre ++ .response r :: post → Identified r n → Open pre n.toInt → WellFormed r

section Runs

variable (codec : Codec) (growth : Growth) (react : History κ → κ → Reply → List (Action κ))

/-- The operations `ops`, one after the other. -/
def Op.runs (ops : List (Op κ)) : CppM ResponseException (Connection (State κ)) Unit :=
  ops.forM (Op.run codec growth react)

/-- A state that the operations `ops` reach, after some or all of them. -/
def Reaches (ops : List (Op κ)) (d : Connection (State κ)) : Prop :=
  ∃ l l', ops = l ++ l' ∧ Run (Step codec growth react) (start growth) l d

/-- The operations `ops`, which end with `o`, return or end where the JSON library fails,
and callbacks are kept in every state reached. -/
structure CallbacksKept (ops : List (Op κ)) (o : Option (Abrupt ResponseException)) : Prop where
  returns : o = none ∨ o = some .library
  kept : ∀ d, Reaches codec growth react ops d → CallbacksCorrect d.peer

/-- The same, and no call is lost. -/
structure CallsKept (ops : List (Op κ)) (o : Option (Abrupt ResponseException)) : Prop where
  returns : o = none ∨ o = some .library
  kept : ∀ d, Reaches codec growth react ops d → NoCallLost d.peer

end Runs

variable {codec : Codec} {growth : Growth} {react : History κ → κ → Reply → List (Action κ)}
  {s : State κ} {ops : List (Op κ)} {c d : Connection (State κ)}
  {o : Option (Abrupt ResponseException)}

/-- A client that keeps its table keeps its callbacks. -/
theorem Tracks.callbacksCorrect (h : Tracks codec growth .idle s) : CallbacksCorrect s where
  ids_distinct := h.inv.issued_nodup
  invoked_once := h.inv.invoked_nodup
  invoked := by
    intro pre k cb a post hs
    have hrun := h.run
    rw [hs] at hrun
    obtain ⟨pre', r, rfl, hr, hi⟩ := invoked_after hrun
    obtain ⟨n, hid, -, hn, ha⟩ := verdict_eq_answers hr
    exact ⟨pre', r, n, rfl, hid.id, hn, hi, ha⟩
  erased := by
    intro pre k cb a post hs
    have hrun := h.run
    rw [hs] at hrun
    obtain ⟨mid, post', rfl, hmid⟩ := removed_next hrun rfl
    refine ⟨fun hk => ?_, mid, post', rfl, hmid⟩
    obtain ⟨cb', hcb⟩ := mem_callbacks_iff.1 hk
    exact ((h.inv.pending k cb').1 hcb).2 (by simp [hs])
  others := by
    intro pre k post hs
    have hrun := h.run
    rw [hs] at hrun
    obtain ⟨pre', r, mid, rfl, -, ⟨cb, a, rest, hr, rfl, hrest⟩ | ⟨hr, rfl⟩⟩ := removed_after hrun
    · obtain ⟨n, hid, -, hn, -⟩ := verdict_eq_answers hr
      refine ⟨pre', r, _, n, rfl, fun e he r' => ?_, hid.id, hn⟩
      rcases List.mem_cons.1 he with rfl | he
      · exact nofun
      · obtain ⟨j, d, rfl⟩ := hrest e he
        exact nofun
    · obtain ⟨n, hid, -, hn⟩ := verdict_eq_refuses_iff.1 hr
      exact ⟨pre', r, [], n, rfl, by simp, hid.id, hn⟩
  kept k cb hi hr := (h.inv.pending k cb).2 ⟨hi, hr⟩

/-! ### Operations one after the other -/

/-- The operations return exactly if they are a run. -/
theorem run_iff_runs : Run (Step codec growth react) c ops d ↔
    Op.runs codec growth react ops c = .ok () d := by
  induction ops generalizing c with
  | nil =>
    constructor
    · intro h
      rw [h.eq_of_nil]
      rfl
    · intro h
      cases h
      exact .nil
  | cons op ops ih =>
    have hruns : Op.runs codec growth react (op :: ops) c =
        (op.run codec growth react >>= fun _ => Op.runs codec growth react ops) c := rfl
    rw [hruns]
    simp only [bind, EStateM.bind]
    constructor
    · intro h
      obtain ⟨c', hst, hrest⟩ := h.of_cons
      rw [Step] at hst
      rw [hst]
      exact ih.1 hrest
    · intro h
      cases hres : op.run codec growth react c with
      | ok u c' =>
        rw [hres] at h
        exact (Run.single hres).trans (ih.2 h)
      | error e c' =>
        rw [hres] at h
        cases h

/-- What the operations keep, and where they may fail. -/
theorem runs_triple (ops : List (Op κ)) :
    Triple (fun c => Sound codec growth react c.peer) (Op.runs codec growth react ops)
      (fun _ c => Sound codec growth react c.peer) fun e c => Aborts codec growth react e c.peer :=
  Triple.forM fun op _ => Op.run_triple codec growth react op

/-- **How operations end**: they return, or fail in the library, and then there was room
for the calls of every callback, and there are ids left; or they run into undefined
behaviour, and there was no room; or the ids are used up. -/
theorem runs_cases (h : Op.runs codec growth react ops (start growth) = Connection.outcome o c) :
    (o = none ∨ o = some .library) ∧ Roomy codec growth react c.peer.history ∧
        ¬ Exhausted c.peer ∨
      o = some .undefined ∧ ¬ Roomy codec growth react c.peer.history ∨
        o = some .overflow ∧ Exhausted c.peer := by
  have hends : Ends _ _ (Op.runs codec growth react ops (start growth)) :=
    runs_triple ops (start growth) sound_init
  rw [h] at hends
  cases o with
  | none => exact .inl ⟨.inl rfl, hends.roomy, hends.tracks.not_exhausted⟩
  | some e =>
    cases e with
    | library => exact .inl ⟨.inr rfl, hends⟩
    | undefined => exact .inr (.inl ⟨rfl, hends⟩)
    | overflow => exact .inr (.inr ⟨rfl, hends⟩)
    | thrown | assertion | outOfFuel => exact hends.elim

/-- A state reached is sound. -/
theorem Reaches.sound (h : Reaches codec growth react ops d) : Sound codec growth react d.peer := by
  obtain ⟨l, l', -, hrun⟩ := h
  exact sound_of_run hrun

/-! ### One call and its response -/

/-- The text of a response of the version `v` to the call 0. -/
def responseText (v : String) : Bytes :=
  ("\x7b\"jsonrpc\":\"" ++ v ++ "\",\"id\":0,\"result\":null\x7d").toUTF8.toList

/-- Its value. -/
def responseValue (v : String) : Json :=
  .object [("jsonrpc", .string v), ("id", .int32 0), ("result", .null)]

/-- The text of a call without members. -/
def writeCall : Json → Bytes
  | .object [("id", .int64 n)] =>
    "\x7b\"id\":".toUTF8.toList ++ decimal n.toInt.toNat ++ "\x7d".toUTF8.toList
  | _ => []

/-- A codec that reads this text as this value, and writes calls without members. -/
def codecOf (text : Bytes) (value : Json) : Codec where
  parse line := if line = text ++ kCRLF then .ok value else readDecimalLine line
  write := writeCall
  nonObject := .asserting

theorem readsDecimals_codecOf {text : Bytes} (hhead : text.head? = some 123) (value : Json) :
    ReadsDecimals (codecOf text value).parse := by
  intro n h₀ h₁
  have hne : decimal n ++ kCRLF ≠ text ++ kCRLF := by
    intro h
    rw [← List.append_cancel_right h] at hhead
    obtain ⟨c, hc, hcv⟩ := List.mem_map.1 (List.mem_of_mem_head? hhead)
    obtain ⟨-, h₂, h₃⟩ := toNat_of_mem_toDigits hc
    have h₄ : (UInt8.ofNat c.toNat).toNat = 123 := by rw [hcv]; rfl
    omega
  simp only [codecOf, if_neg hne]
  exact readsDecimals_readDecimalLine n h₀ h₁

/-- A codec that reads the text of that response. -/
def responseCodec (v : String) : Codec := codecOf (responseText v) (responseValue v)

theorem readsDecimals_responseCodec {v : String} (hv : (responseText v).head? = some 123) :
    ReadsDecimals (responseCodec v).parse := readsDecimals_codecOf hv _

/-- Hash maps as in libstdc++: 13 buckets for the first element, then about twice as
many. -/
def thirteen : Growth where
  initial := 0
  next size _ := if size < 13 then 13 else 2 * size + 3
  lt_next size _ := by split <;> omega

/-- The client that has sent one call. -/
def oneCall (v : String) (cb : κ) : State κ :=
  ⟨1, (UnorderedMap.empty thirteen).set thirteen 0 cb,
    [sendRequest (responseCodec v) (.object [("id", .int64 0)])], [.issued 0 cb]⟩

/-- Callbacks that do nothing. -/
def quiet : History Unit → Unit → Reply → List (Action Unit) := fun _ _ _ => []

/-- One call is sent on a new connection. -/
theorem step_oneCall (v : String) (react : History κ → κ → Reply → List (Action κ)) (cb : κ) :
    Step (responseCodec v) thirteen react (start thirteen) (.sendCall (.object []) cb)
      (Connection.init (oneCall v cb)) :=
  rfl

theorem handleResponse_responseText (v : String)
    (react : History κ → κ → Reply → List (Action κ)) (s : State κ) :
    handleResponse (responseCodec v) thirteen react (responseText v ++ kCRLF) s =
      handleSingleResponse (responseCodec v) thirteen react (responseValue v) s :=
  handleResponse_of_object (if_pos rfl) rfl s

/-- The call is answered. -/
theorem run_answered : ∃ c, Run (Step (responseCodec "2.0") thirteen quiet) (start thirteen)
      [.sendCall (.object []) (), .onMessage (frame (responseText "2.0"))] c ∧
    c.peer.history = [.issued 0 (), .response (responseValue "2.0"),
      .invoked 0 () ⟨.null, false, false⟩, .removed 0] := by
  have hhandle : ∃ s, handleSingleResponse (responseCodec "2.0") thirteen quiet
      (responseValue "2.0") (oneCall "2.0" ()) = .ok () s ∧
        s.history = [.issued 0 (), .response (responseValue "2.0"),
          .invoked 0 () ⟨.null, false, false⟩, .removed 0] := ⟨_, rfl, rfl⟩
  obtain ⟨s, hs, hhist⟩ := hhandle
  rw [← handleResponse_responseText] at hs
  obtain ⟨c, hc, hpeer⟩ := step_of_ok (readsDecimals_responseCodec (by decide +kernel))
    (by decide +kernel) (Connection.readable_init _) hs
  exact ⟨c, (Run.single (step_oneCall _ _ _)).snoc hc, by rw [hpeer, hhist]⟩

/-- The response has the wrong version: the entry is erased, and nobody told. -/
theorem run_refused : ∃ c, Run (Step (responseCodec "1.0") thirteen quiet) (start thirteen)
      [.sendCall (.object []) (), .onMessage (frame (responseText "1.0"))] c ∧
    c.peer.history = [.issued 0 (), .response (responseValue "1.0"), .removed 0] := by
  have hhandle : handleSingleResponse (responseCodec "1.0") thirteen quiet (responseValue "1.0")
      (oneCall "1.0" ()) = .error (.thrown ⟨"unknown json rpc version", some 0⟩)
        ((oneCall "1.0" ()).record (.response (responseValue "1.0"))) := rfl
  rw [← handleResponse_responseText] at hhandle
  obtain ⟨c, hc, hpeer⟩ := step_of_thrown (readsDecimals_responseCodec (by decide +kernel))
    (by decide +kernel) (Connection.readable_init _) hhandle (by decide)
  exact ⟨c, (Run.single (step_oneCall _ _ _)).snoc hc, by rw [hpeer]; rfl⟩

/-- A callback that issues 13 calls, with callbacks that issue none. -/
def eager : History Bool → Bool → Reply → List (Action Bool) := fun _ cb _ =>
  if cb then List.replicate 13 (.call (.object []) false) else []

/-- **The callback of the only call issues 13 more**: the table is rehashed, and the
entry is erased through an invalid iterator. -/
theorem handleSingleResponse_eager : ∃ s, handleSingleResponse (responseCodec "2.0") thirteen
    eager (responseValue "2.0") (oneCall "2.0" true) = .error .undefined s ∧
      (issuedKeys s.history).length = 14 := by
  let acts : List (Action Bool) := List.replicate 13 (.call (.object []) false)
  let x : State Bool := (oneCall "2.0" true).invoked (responseValue "2.0") (0 : Int32).toInt true
    ⟨.null, false, false⟩
  have hsound : Sound (responseCodec "2.0") thirteen eager (oneCall "2.0" true) :=
    sound_of_run (Run.single (step_oneCall "2.0" eager true))
  have hid : Identified (responseValue "2.0") 0 := ⟨rfl, rfl⟩
  have ha : Carries (responseValue "2.0") ⟨.null, false, false⟩ := .result rfl
  have hfind : (oneCall "2.0" true).findCallback (0 : Int32).toInt = some true := rfl
  have hcalls : acts.countP Action.isCall = 13 := rfl
  have hx : x.id = 1 := rfl
  have hreaction : (oneCall "2.0" true).reaction eager (responseValue "2.0") (0 : Int32).toInt true
      ⟨.null, false, false⟩ = acts := rfl
  rcases handleSingleResponse_known hsound hid ⟨rfl, .inl ⟨_, rfl⟩⟩ ha hfind hreaction with
    ⟨t, ht, -, ⟨hroom, -⟩ | ⟨-, hres⟩⟩ | ⟨e, t, -, hfails, -⟩
  · exact absurd hroom (by decide)
  · refine ⟨t, hres, ?_⟩
    have hcount := ht.tracks.id_eq
    have hid : t.id = x.id + acts.countP Action.isCall := ht.id_eq
    rw [hcalls, hx] at hid
    omega
  · obtain ⟨u, hu⟩ := forM_perform_returns (responseCodec "2.0") thirteen acts x
      (fun act hact => by rw [List.eq_of_mem_replicate hact]; rfl) (by rw [hcalls, hx]; decide)
    rw [hu] at hfails
    cases hfails

/-- The run in which it does. -/
theorem runs_eager : ∃ c, Op.runs (responseCodec "2.0") thirteen eager
    [.sendCall (.object []) true, .onMessage (frame (responseText "2.0"))] (start thirteen) =
      .error .undefined c ∧ (issuedKeys c.peer.history).length = 14 := by
  obtain ⟨s, hs, hcount⟩ := handleSingleResponse_eager
  rw [← handleResponse_responseText] at hs
  obtain ⟨c, hc, rfl⟩ := run_of_abrupt (c := Connection.init (oneCall "2.0" true))
    (readsDecimals_responseCodec (by decide +kernel)) (by decide +kernel)
    (Connection.readable_init _) hs nofun
  have hcall : (Op.sendCall (.object []) true).run (responseCodec "2.0") thirteen eager
      (start thirteen) = .ok () (Connection.init (oneCall "2.0" true)) := step_oneCall _ _ _
  refine ⟨c, ?_, hcount⟩
  simp only [Op.runs, List.forM_eq_forM, List.forM_cons, bind, EStateM.bind, hcall, hc]

/-! ### Over all runs -/

/-- **When the client keeps calls and callbacks together.**  A sequence of `sendCall`,
`sendNotify` and `onMessage`, with data of any kind and callbacks that issue any number
of calls, returns, or ends where the JSON library fails, and the history is correct in
every state reached, exactly if the table had room for the calls of each callback. -/
theorem callbacks_correct_iff
    (h : Op.runs codec growth react ops (start growth) = Connection.outcome o c)
    (hids : (issuedKeys c.peer.history).length < 2 ^ 63) :
    CallbacksKept codec growth react ops o ↔ Roomy codec growth react c.peer.history := by
  constructor
  · rintro ⟨ho, -⟩
    rcases runs_cases h with ⟨-, hroomy, -⟩ | ⟨rfl, -⟩ | ⟨rfl, -⟩
    · exact hroomy
    · rcases ho with ho | ho <;> cases ho
    · rcases ho with ho | ho <;> cases ho
  · intro hroomy
    rcases runs_cases h with ⟨ho, -⟩ | ⟨-, hnot⟩ | ⟨-, hfull⟩
    · exact ⟨ho, fun d hd => hd.sound.tracks.callbacksCorrect⟩
    · exact absurd hroomy hnot
    · exact absurd hids (Nat.not_lt.2 hfull)

/-- The hypotheses of `callbacks_correct_iff` are satisfiable: a call is sent and
answered. -/
theorem callbacks_correct_iff_answered : ∃ c : Connection (State Unit),
    c.peer.history = [.issued 0 (), .response (responseValue "2.0"),
      .invoked 0 () ⟨.null, false, false⟩, .removed 0] ∧
    (CallbacksKept (responseCodec "2.0") thirteen quiet
        [.sendCall (.object []) (), .onMessage (frame (responseText "2.0"))] none ↔
      Roomy (responseCodec "2.0") thirteen quiet c.peer.history) := by
  obtain ⟨c, hrun, hhist⟩ := run_answered
  refine ⟨c, hhist, callbacks_correct_iff (run_iff_runs.1 hrun) ?_⟩
  rw [hhist]
  decide

/-- **A callback can break the table it is kept in**: the one of the only call issues 13
more, for which the table makes room, and the iterator to its own entry is not valid behind
that. -/
theorem not_callbacksKept_eager : ¬ ∀ ops o c,
    Op.runs (responseCodec "2.0") thirteen eager ops (start thirteen) = Connection.outcome o c →
      (issuedKeys c.peer.history).length < 2 ^ 63 →
        CallbacksKept (responseCodec "2.0") thirteen eager ops o := by
  intro hall
  obtain ⟨c, hruns, hcount⟩ := runs_eager
  rcases (hall _ (some .undefined) c hruns (by omega)).returns with h | h <;> cases h

/-- **When a state has lost no call**: of the responses handled before, every one with
the three members and the id of a call that waited was well formed. -/
theorem Sound.noCallLost_iff_wellAnswered (h : Sound codec growth react s) :
    NoCallLost s ↔ WellAnswered s.history := by
  have hidle := h.tracks
  have hconserved : NoCallLost s ↔ Conserved s.history (s.table .idle) := by
    have hkept : ∀ k, (k ∈ s.callbacks ↔ s.findCallback k ≠ none) ∧
        ((invokedKeys s.history).count k = 1 ↔ k ∈ invokedKeys s.history) := by
      refine fun k => ⟨by rw [mem_callbacks_iff, Option.ne_none_iff_exists'], fun hk => ?_, ?_⟩
      · exact List.count_pos_iff.1 (by omega)
      · exact List.count_eq_one_of_mem hidle.inv.invoked_nodup
    constructor
    · rintro ⟨hk, ht⟩
      exact ⟨fun k hi => (hk k hi).imp (hkept k).1.1 (hkept k).2.1, ht⟩
    · rintro ⟨hk, ht⟩
      exact ⟨fun k hi => (hk k hi).imp (hkept k).1.2 (hkept k).2.2, ht⟩
  rw [hconserved, conserved_iff hidle.run rfl]
  constructor
  · intro hc pre r post n hs hid hopen
    by_contra hw
    exact hc pre r post n.toInt hs (verdict_of_not_wellFormed hid hw) hopen
  · intro hc pre r post k hs hr hopen
    obtain ⟨n, hid, hw, rfl⟩ := verdict_eq_refuses_iff.1 hr
    exact hw (hc pre r post n hs hid hopen)

/-- **When no call is lost**: in a run that does not use up the ids, in which the table had
room for the calls of each callback, and no response with the three members and the id of a
call that waits was otherwise invalid. -/
theorem noCallLost_iff
    (h : Op.runs codec growth react ops (start growth) = Connection.outcome o c) :
    CallsKept codec growth react ops o ↔ (issuedKeys c.peer.history).length < 2 ^ 63 ∧
      Roomy codec growth react c.peer.history ∧
        ∀ d, Reaches codec growth react ops d → WellAnswered d.peer.history := by
  constructor
  · rintro ⟨ho, hkept⟩
    have hwell : ∀ d, Reaches codec growth react ops d → WellAnswered d.peer.history :=
      fun d hd => hd.sound.noCallLost_iff_wellAnswered.1 (hkept d hd)
    rcases runs_cases h with ⟨-, hroomy, hleft⟩ | ⟨rfl, -⟩ | ⟨rfl, -⟩
    · exact ⟨not_le.1 hleft, hroomy, hwell⟩
    · rcases ho with ho | ho <;> cases ho
    · rcases ho with ho | ho <;> cases ho
  · rintro ⟨hids, hroomy, hwell⟩
    rcases runs_cases h with ⟨ho, -⟩ | ⟨-, hnot⟩ | ⟨-, hfull⟩
    · exact ⟨ho, fun d hd => hd.sound.noCallLost_iff_wellAnswered.2 (hwell d hd)⟩
    · exact absurd hroomy hnot
    · exact absurd hids (Nat.not_lt.2 hfull)

/-- The hypothesis of `noCallLost_iff` is satisfiable: one call, and the response to it. -/
theorem noCallLost_iff_answered : ∃ c : Connection (State Unit),
    c.peer.history = [.issued 0 (), .response (responseValue "2.0"),
      .invoked 0 () ⟨.null, false, false⟩, .removed 0] ∧
    (CallsKept (responseCodec "2.0") thirteen quiet
        [.sendCall (.object []) (), .onMessage (frame (responseText "2.0"))] none ↔
      (issuedKeys c.peer.history).length < 2 ^ 63 ∧
        Roomy (responseCodec "2.0") thirteen quiet c.peer.history ∧
          ∀ d, Reaches (responseCodec "2.0") thirteen quiet
            [.sendCall (.object []) (), .onMessage (frame (responseText "2.0"))] d →
              WellAnswered d.peer.history) := by
  obtain ⟨c, hrun, hhist⟩ := run_answered
  exact ⟨c, hhist, noCallLost_iff (run_iff_runs.1 hrun)⟩

/-- **A call can be lost**: a response with the version `1.0` to the first call makes
`onMessage` erase its entry, and the callback is never told. -/
theorem not_noCallLost_oldVersion : ¬ ∀ c, Run (Step (responseCodec "1.0") thirteen quiet)
    (start thirteen) [.sendCall (.object []) (), .onMessage (frame (responseText "1.0"))] c →
      NoCallLost c.peer := by
  intro hall
  obtain ⟨c, hrun, hhist⟩ := run_refused
  have htold := (hall c hrun).told [.issued 0 (), .response (responseValue "1.0")] 0 []
    (by rw [hhist]; rfl)
  cases htold

end BaseClient
end BearRpc
