/-
# The client keeps a table of pending calls

What the client does is a run of `BearRpc.Theory.CallTable`: its history is the
run, the table is `callbacks_`, and the keys used are the ids below `id_`.
`Tracks` says so of a state.  The history also determines the hash map that
`callbacks_` is, with its buckets (`tableOf`), so it says whether the calls that a
callback issued had room in it (`Roomy`).

Each function of the client keeps both (`handleSingleResponse_triple`,
`onMessage_triple`), or fails for one of the reasons of `Aborts`: the ids are used
up, the JSON library fails on a value that is no object, or the calls of a callback
had no room and the iterator of its entry became invalid.  So both hold after every
sequence of operations that return (`sound_of_run`).
-/

import BearRpc.Client.Callbacks

namespace BearRpc

open Theory CallTable

namespace BaseClient

/-- What a response is to the table: the answer to a call, an invalid response
with an id, or neither. -/
def verdict (codec : Codec) (r : Json) : Verdict ℤ Reply :=
  match validateResponse codec r with
  | .ok () =>
    match r.findMember "result", r.findMember "error" with
    | some v, _ => .answers (r.get "id").getInt32.toInt ⟨v, false, false⟩
    | none, some e => .answers (r.get "id").getInt32.toInt ⟨e, true, false⟩
    | none, none => .nothing
  | .error (.thrown ⟨_, some n⟩) => .refuses n.toInt
  | .error _ => .nothing

variable {κ : Type} {codec : Codec} {r : Json} {n : Int32} {a : Reply} {k : ℤ}

/-- A valid response answers the call it names. -/
theorem verdict_of_wellFormed (hid : Identified r n) (h : WellFormed r) (ha : Carries r a) :
    verdict codec r = .answers n.toInt a := by
  have hget : (r.get "id").getInt32 = n := by rw [Json.get_of_findMember hid.id, Json.getInt32]
  cases ha with
  | result hv => simp only [verdict, validateResponse_of_wellFormed hid h, hv, hget]
  | error hr he => simp only [verdict, validateResponse_of_wellFormed hid h, hr, he, hget]

/-- An invalid one that names a call is refused. -/
theorem verdict_of_not_wellFormed (hid : Identified r n) (h : ¬ WellFormed r) :
    verdict codec r = .refuses n.toInt := by
  obtain ⟨msg, hmsg⟩ := validateResponse_of_not_wellFormed codec hid h
  simp only [verdict, hmsg]

/-- One that names no call says nothing. -/
theorem verdict_of_not_identified (h : ∀ n, ¬ Identified r n) : verdict codec r = .nothing := by
  rcases validateResponse_of_not_identified codec h with ⟨msg, hmsg⟩ | hlib
  · simp only [verdict, hmsg]
  · simp only [verdict, hlib]

/-- **The responses that answer a call**: they have its id and are well formed, and what
they carry is the answer. -/
theorem verdict_eq_answers (h : verdict codec r = .answers k a) :
    ∃ n, Identified r n ∧ WellFormed r ∧ n.toInt = k ∧ Carries r a := by
  rcases response_cases r with ⟨n, a', hid, hw, ha⟩ | ⟨n, hid, hw⟩ | hid
  · rw [verdict_of_wellFormed hid hw ha] at h
    cases h
    exact ⟨n, hid, hw, rfl, ha⟩
  · rw [verdict_of_not_wellFormed hid hw] at h
    cases h
  · rw [verdict_of_not_identified hid] at h
    cases h

/-- **The responses that are refused with an id**: they have the three members and the id of
a call, and something else about them is wrong. -/
theorem verdict_eq_refuses_iff :
    verdict codec r = .refuses k ↔ ∃ n, Identified r n ∧ ¬ WellFormed r ∧ n.toInt = k := by
  constructor
  · intro h
    rcases response_cases r with ⟨n, a, hid, hw, ha⟩ | ⟨n, hid, hw⟩ | hid
    · rw [verdict_of_wellFormed hid hw ha] at h
      cases h
    · rw [verdict_of_not_wellFormed hid hw] at h
      cases h
      exact ⟨n, hid, hw, rfl⟩
    · rw [verdict_of_not_identified hid] at h
      cases h
  · rintro ⟨n, hid, hw, rfl⟩
    exact verdict_of_not_wellFormed hid hw

/-! ### The hash map of a history -/

section Tables

variable (codec : Codec) (growth : Growth) (react : History κ → κ → Reply → List (Action κ))

/-- `callbacks_` behind a history: a call inserts its callback, and an entry
removed is erased. -/
def tableOf (h : History κ) : UnorderedMap ℤ κ :=
  h.foldl (fun m e =>
    match e with
    | .issued k cb => m.set growth k cb
    | .removed k => m.erase k
    | _ => m) (.empty growth)

/-- When the callback of `k` is invoked behind the history `pre`, `callbacks_` has
room for all the calls that it issues, or it does not get through with them, as
the JSON library fails on one. -/
def Room (pre : History κ) (k : ℤ) (cb : κ) (a : Reply) : Prop :=
  (∃ act ∈ react (pre ++ [.invoked k cb a]) cb a, act.isRefused codec = true) ∨
    (tableOf growth pre).size + (react (pre ++ [.invoked k cb a]) cb a).countP Action.isCall ≤
      (tableOf growth pre).room

/-- There was room for the calls of every callback that was invoked. -/
def Roomy (h : History κ) : Prop :=
  ∀ pre k cb a post, h = pre ++ .invoked k cb a :: post → Room codec growth react pre k cb a

end Tables

variable {growth : Growth} {react : History κ → κ → Reply → List (Action κ)}
  {p : Phase ℤ κ Reply} {s t : State κ} {cb : κ} {h rest : History κ} {m : ℕ}
  {acts : List (Action κ)}

@[simp] theorem tableOf_issued (h : History κ) (k : ℤ) (cb : κ) :
    tableOf growth (h ++ [.issued k cb]) = (tableOf growth h).set growth k cb := by
  rw [tableOf, List.foldl_append]
  rfl

@[simp] theorem tableOf_removed (h : History κ) (k : ℤ) :
    tableOf growth (h ++ [.removed k]) = (tableOf growth h).erase k := by
  rw [tableOf, List.foldl_append]
  rfl

@[simp] theorem tableOf_response (h : History κ) (r : Json) :
    tableOf growth (h ++ [.response r]) = tableOf growth h := by
  rw [tableOf, List.foldl_append]
  rfl

@[simp] theorem tableOf_invoked (h : History κ) (k : ℤ) (cb : κ) (a : Reply) :
    tableOf growth (h ++ [.invoked k cb a]) = tableOf growth h := by
  rw [tableOf, List.foldl_append]
  rfl

theorem roomy_nil : Roomy codec growth react ([] : History κ) := fun pre k cb a post h => by
  cases pre <;> cases h

/-- There was room up to an invocation, and there is room at it. -/
theorem roomy_invoked_iff : Roomy codec growth react (h ++ [.invoked k cb a]) ↔
    Roomy codec growth react h ∧ Room codec growth react h k cb a := by
  constructor
  · exact fun hall => ⟨fun pre j d b post hh => hall pre j d b (post ++ [.invoked k cb a])
      (by rw [hh, List.append_assoc, List.cons_append]), hall h k cb a [] rfl⟩
  · rintro ⟨hall, hlast⟩ pre j d b post hh
    rcases List.eq_nil_or_concat post with rfl | ⟨post', e, rfl⟩
    · obtain ⟨rfl, he⟩ := List.append_inj' hh rfl
      cases he
      exact hlast
    · rw [List.concat_eq_append, ← List.cons_append, ← List.append_assoc] at hh
      exact hall pre j d b post' (List.append_inj' hh rfl).1

/-- Other events ask for no room. -/
theorem roomy_append (hrest : invokedKeys rest = []) (hall : Roomy codec growth react h) :
    Roomy codec growth react (h ++ rest) := by
  intro pre k cb a post hh
  rcases List.append_eq_append_iff.1 hh with ⟨mid, rfl, hmid⟩ | ⟨mid, rfl, hmid⟩
  · have hmem : k ∈ invokedKeys rest := mem_invokedKeys.2 ⟨cb, a, by simp [hmid]⟩
    rw [hrest] at hmem
    cases hmem
  · cases mid with
    | nil =>
      have hmem : k ∈ invokedKeys rest := mem_invokedKeys.2 ⟨cb, a, by
        rw [List.nil_append] at hmid
        simp [← hmid]⟩
      rw [hrest] at hmem
      cases hmem
    | cons e mid =>
      obtain ⟨rfl, -⟩ := List.cons.inj hmid
      exact hall pre k cb a mid rfl

/-- There was room in every history that goes on to one where there was. -/
theorem Roomy.of_append (hall : Roomy codec growth react (h ++ rest)) :
    Roomy codec growth react h :=
  fun pre k cb a post hh => hall pre k cb a (post ++ rest) (by simp [hh])

/-! ### The table of a client -/

/-- The ids below `id_` are used, and `callbacks_` is the table. -/
def State.table (s : State κ) (p : Phase ℤ κ Reply) : CallTable ℤ κ Reply :=
  ⟨{k | 0 ≤ k ∧ k < s.id}, s.findCallback, p⟩

/-- The history is a run to the table of the client, `id_` has counted the calls,
and `callbacks_` is the hash map that the history leaves. -/
structure Tracks (codec : Codec) (growth : Growth) (p : Phase ℤ κ Reply) (s : State κ) : Prop where
  run : Run (CallTable.Step (verdict codec)) CallTable.init s.history (s.table p)
  id_eq : s.id = (issuedKeys s.history).length
  id_lt : s.id < 2 ^ 63
  callbacks_eq : s.callbacks = tableOf growth s.history

/-- Between responses, the history tracks the client, and there was room for the
calls of every callback. -/
structure Sound (codec : Codec) (growth : Growth)
    (react : History κ → κ → Reply → List (Action κ)) (s : State κ) : Prop where
  tracks : Tracks codec growth .idle s
  roomy : Roomy codec growth react s.history

/-- `id_` has no room for another call. -/
def Exhausted (s : State κ) : Prop := 2 ^ 63 ≤ (issuedKeys s.history).length

/-- Where calls may fail: for want of ids, or because the library refuses one. -/
def CallFails (refused : Prop) : Abrupt ResponseException → State κ → Prop
  | .overflow, s => Exhausted s
  | .library, s => refused ∧ ¬ Exhausted s
  | _, _ => False

/-- Where an operation of the client may fail: for want of ids, in the library, or
because a callback has issued calls for which there was no room. -/
def Aborts (codec : Codec) (growth : Growth) (react : History κ → κ → Reply → List (Action κ)) :
    Abrupt ResponseException → State κ → Prop
  | .overflow, s => Exhausted s
  | .library, s => Roomy codec growth react s.history ∧ ¬ Exhausted s
  | .undefined, s => ¬ Roomy codec growth react s.history
  | _, _ => False

/-- Where the functions below may fail: there, or with an exception that carries no
id, or one for a call that waits no longer or is to be dropped. -/
def Fails (codec : Codec) (growth : Growth) (react : History κ → κ → Reply → List (Action κ)) :
    Abrupt ResponseException → State κ → Prop
  | .thrown ⟨_, none⟩, s => Sound codec growth react s
  | .thrown ⟨_, some n⟩, s => n.toInt ∉ s.callbacks ∧ Sound codec growth react s ∨
      n.toInt ∈ s.callbacks ∧ Tracks codec growth (.dropping n.toInt) s ∧
        Roomy codec growth react s.history
  | e, s => Aborts codec growth react e s

theorem tracks_init : Tracks codec growth .idle (State.init growth : State κ) where
  run := by
    have htable : (State.init growth : State κ).table .idle = CallTable.init := by
      refine congrArg₂ (fun used pending => CallTable.mk used pending .idle) ?_ ?_
      · ext k
        simp [State.init]
      · funext k
        rfl
    rw [htable]
    exact .nil
  id_eq := rfl
  id_lt := show (0 : ℤ) < 2 ^ 63 by decide
  callbacks_eq := rfl

theorem sound_init : Sound codec growth react (State.init growth : State κ) :=
  ⟨tracks_init, roomy_nil⟩

/-- Between its operations a client has ids left. -/
theorem Tracks.not_exhausted (h : Tracks codec growth p s) : ¬ Exhausted s := by
  have hid := h.id_eq
  have hlt := h.id_lt
  rw [Exhausted, not_le]
  omega

/-- The history of a client satisfies the invariant of call tables. -/
theorem Tracks.inv (h : Tracks codec growth p s) :
    CallTable.Inv (verdict codec) s.history (s.table p) :=
  inv_of_run h.run

/-- The next id is new. -/
theorem State.id_not_used (s : State κ) (p) : s.id ∉ (s.table p).used := fun hk =>
  lt_irrefl _ hk.2

/-- No entry has it. -/
theorem Tracks.id_notMem (h : Tracks codec growth p s) : s.id ∉ s.callbacks := by
  intro hmem
  obtain ⟨cb, hcb⟩ := mem_callbacks_iff.1 hmem
  exact s.id_not_used p (h.inv.used_of_pending hcb)

/-- A call is registered under the next id. -/
theorem Tracks.issue (h : Tracks codec growth p s) (hp : p = .idle ∨ ∃ j, p = .calling j)
    (hid : s.id < 2 ^ 63 - 1) (cb : κ) (message : Bytes) :
    Tracks codec growth p (s.issue growth cb message) where
  run := by
    have hcount := h.id_eq
    have hstep : CallTable.Step (verdict codec) (s.table p) (.issued s.id cb) _ :=
      .issue cb (s.id_not_used p) hp
    refine h.run.snoc (?_ : CallTable.Step (verdict codec) _ _ _)
    convert hstep using 1
    refine congrArg₂ (fun used pending => CallTable.mk used pending p) ?_ ?_
    · ext k
      simp only [State.table, State.issue, Set.mem_ofPred_eq, Set.mem_insert_iff]
      omega
    · funext k
      by_cases hk : k = s.id
      · subst hk
        simp [State.issue, State.findCallback]
      · simp [State.table, State.issue, State.findCallback, UnorderedMap.lookup_set_of_ne hk,
          Function.update_of_ne hk]
  id_eq := by simp [State.issue, h.id_eq]
  id_lt := by
    show s.id + 1 < 2 ^ 63
    omega
  callbacks_eq := by rw [State.issue, tableOf_issued, h.callbacks_eq]

/-- What the client logs without changing its table. -/
theorem Tracks.record (h : Tracks codec growth p s) {q : Phase ℤ κ Reply}
    {e : Event ℤ κ Json Reply} (hst : CallTable.Step (verdict codec) (s.table p) e (s.table q))
    (he : issuedKeys [e] = [])
    (htable : tableOf growth (s.history ++ [e]) = tableOf growth s.history) :
    Tracks codec growth q (s.record e) where
  run := h.run.snoc hst
  id_eq := by simp [h.id_eq, he]
  id_lt := h.id_lt
  callbacks_eq := by rw [State.record_callbacks, State.record_history, htable, h.callbacks_eq]

/-- A response to no call that waits leaves the table as it is. -/
theorem Sound.ignore (h : Sound codec growth react s)
    (ha : ∀ k a, verdict codec r = .answers k a → s.findCallback k = none)
    (hr : ∀ k, verdict codec r = .refuses k → s.findCallback k = none) :
    Sound codec growth react (s.record (.response r)) :=
  ⟨h.tracks.record (.ignore rfl ha hr) rfl (tableOf_response _ r), roomy_append rfl h.roomy⟩

/-- The entry in question is erased. -/
theorem Tracks.erase (h : Tracks codec growth p s) (hp : p = .calling k ∨ p = .dropping k) :
    Tracks codec growth .idle
      ({ s with callbacks := s.callbacks.erase k }.record (.removed k)) where
  run := by
    have hstep : CallTable.Step (verdict codec) (s.table p) (.removed k) _ := .remove hp
    refine h.run.snoc (?_ : CallTable.Step (verdict codec) _ _ _)
    convert hstep using 1
    refine congrArg (fun pending => CallTable.mk _ pending .idle) ?_
    funext j
    by_cases hj : j = k
    · subst hj
      simp [State.findCallback]
    · simp [State.table, State.findCallback, UnorderedMap.lookup_erase_of_ne hj,
        Function.update_of_ne hj]
  id_eq := by simp [h.id_eq]
  id_lt := h.id_lt
  callbacks_eq := by
    rw [State.record_callbacks, State.record_history, tableOf_removed, h.callbacks_eq]

/-! ### What each function keeps -/

/-- Since the state `s`, `m` calls have been issued and nothing else has happened. -/
structure Called (codec : Codec) (growth : Growth) (p : Phase ℤ κ Reply) (s : State κ) (m : ℕ)
    (t : State κ) : Prop where
  tracks : Tracks codec growth p t
  id_eq : t.id = s.id + m
  issues : ∃ rest, t.history = s.history ++ rest ∧ ∀ e ∈ rest, Event.IsIssue e
  inserts : UnorderedMap.Inserts growth s.callbacks m t.callbacks

theorem Tracks.called (h : Tracks codec growth p s) : Called codec growth p s 0 s :=
  ⟨h, by simp, ⟨[], by simp, by simp⟩, .none⟩

/-- One more call. -/
theorem Called.issue (h : Called codec growth p s m t) (hp : p = .idle ∨ ∃ j, p = .calling j)
    (hid : t.id < 2 ^ 63 - 1) (cb : κ) (message : Bytes) :
    Called codec growth p s (m + 1) (t.issue growth cb message) where
  tracks := h.tracks.issue hp hid cb message
  id_eq := by
    have hm := h.id_eq
    show t.id + 1 = s.id + (m + 1 : ℕ)
    omega
  issues := by
    obtain ⟨rest, hrest, hall⟩ := h.issues
    refine ⟨rest ++ [.issued t.id cb], by simp [State.issue, hrest], fun e he => ?_⟩
    rcases List.mem_append.1 he with he | he
    · exact hall e he
    · exact ⟨t.id, cb, List.mem_singleton.1 he⟩
  inserts := .more h.inserts h.tracks.id_notMem

/-- A notification is sent. -/
theorem Called.notify (h : Called codec growth p s m t) (sent : List Bytes) :
    Called codec growth p s m { t with sent := sent } :=
  ⟨⟨h.tracks.run, h.tracks.id_eq, h.tracks.id_lt, h.tracks.callbacks_eq⟩, h.id_eq, h.issues,
    h.inserts⟩

/-- Calls invoke no callback. -/
theorem Called.continues (h : Called codec growth p s m t) : Continues s.history t := by
  obtain ⟨rest, hrest, hall⟩ := h.issues
  refine ⟨rest, hrest, ?_⟩
  rw [invokedKeys, List.filterMap_eq_nil_iff]
  intro e he
  obtain ⟨j, d, rfl⟩ := hall e he
  rfl

/-- A call is issued, by the user or by a callback. -/
theorem sendCall_called (hp : p = .idle ∨ ∃ j, p = .calling j) (call : Json) (cb : κ) :
    Triple (Called codec growth p s m) (sendCall codec growth call cb)
      (fun _ t => Called codec growth p s (m + 1) t ∧ codec.refuses call = false)
      (CallFails (codec.refuses call = true)) := by
  intro t h
  rcases sendCall_cases codec growth call cb t with
    ⟨message, haccepted, hid, hres⟩ | ⟨hid, hres⟩ | ⟨hrefused, hres⟩ <;> rw [hres]
  · exact ⟨h.issue hp hid cb message, haccepted⟩
  · have hlen := h.tracks.id_eq
    show 2 ^ 63 ≤ (issuedKeys (t.history ++ [.issued t.id cb])).length
    rw [issuedKeys_append, issuedKeys_issued, List.length_append, List.length_singleton]
    omega
  · exact ⟨hrefused, h.tracks.not_exhausted⟩

/-- One failure may be put down to more calls. -/
theorem CallFails.mono {P Q : Prop} (hPQ : P → Q) {e : Abrupt ResponseException}
    (h : CallFails P e s) : CallFails Q e s := by
  cases e <;> first | exact h | exact ⟨hPQ h.1, h.2⟩

/-- **A callback acts**: its calls are issued, one after the other, unless the library
refuses one or the ids are used up. -/
theorem forM_perform_called (hp : p = .idle ∨ ∃ j, p = .calling j) (acts : List (Action κ)) :
    Triple (Called codec growth p s m) (acts.forM (perform codec growth))
      (fun _ t => Called codec growth p s (m + acts.countP Action.isCall) t ∧
        ∀ act ∈ acts, act.isRefused codec = false)
      (CallFails (∃ act ∈ acts, act.isRefused codec = true)) := by
  induction acts generalizing m with
  | nil => exact fun _ h => ⟨h, by simp⟩
  | cons act acts ih =>
    have hperform : Triple (Called codec growth p s m) (perform codec growth act)
        (fun _ t => Called codec growth p s (m + [act].countP Action.isCall) t ∧
          act.isRefused codec = false) (CallFails (act.isRefused codec = true)) := by
      cases act with
      | call json cb => exact sendCall_called hp json cb
      | notify json => exact fun t h => ⟨h.notify _, rfl⟩
    intro t ht
    have hact := hperform t ht
    show Ends _ _ ((perform codec growth act >>= fun _ => acts.forM (perform codec growth)) t)
    simp only [bind, EStateM.bind]
    cases hres : perform codec growth act t with
    | error e u =>
      rw [hres] at hact
      exact hact.mono fun h => ⟨act, by simp, h⟩
    | ok _ u =>
      rw [hres] at hact
      have hrest := ih u hact.1
      show Ends _ _ (acts.forM (perform codec growth) u)
      cases hacts : acts.forM (perform codec growth) u with
      | error e v =>
        rw [hacts] at hrest
        exact CallFails.mono (fun ⟨b, hb, h⟩ => ⟨b, List.mem_cons_of_mem _ hb, h⟩) hrest
      | ok _ v =>
        rw [hacts] at hrest
        refine ⟨?_, fun b hb => ?_⟩
        · rw [show act :: acts = [act] ++ acts from rfl, List.countP_append, ← Nat.add_assoc]
          exact hrest.1
        · rcases List.mem_cons.1 hb with rfl | hb
          · exact hact.2
          · exact hrest.2 b hb

/-- While ids last and the library refuses no call, a callback gets through with what it
does. -/
theorem forM_perform_returns (codec : Codec) (growth : Growth) (acts : List (Action κ))
    (s : State κ)
    (haccepted : ∀ act ∈ acts, act.isRefused codec = false)
    (hids : s.id + acts.countP Action.isCall < 2 ^ 63) :
    ∃ t, acts.forM (perform codec growth) s = .ok () t := by
  induction acts generalizing s with
  | nil => exact ⟨s, rfl⟩
  | cons act acts ih =>
    have hrest : ∀ act ∈ acts, act.isRefused codec = false := fun b hb =>
      haccepted b (List.mem_cons_of_mem _ hb)
    cases act with
    | call json cb =>
      rw [List.countP_cons_of_pos rfl] at hids
      have hjson : codec.refuses json = false := haccepted (.call json cb) (by simp)
      rcases sendCall_cases codec growth json cb s with
        ⟨message, -, -, hres⟩ | ⟨hfull, -⟩ | ⟨hrefused, -⟩
      · obtain ⟨t, ht⟩ := ih (s.issue growth cb message) hrest (by
          show s.id + 1 + _ < _
          omega)
        refine ⟨t, ?_⟩
        show (sendCall codec growth json cb >>= fun _ => acts.forM (perform codec growth)) s = _
        simp only [bind, EStateM.bind, hres]
        exact ht
      · omega
      · rw [hjson] at hrefused
        cases hrefused
    | notify json =>
      rw [List.countP_cons_of_neg (by simp [Action.isCall])] at hids
      obtain ⟨t, ht⟩ := ih { s with sent := s.sent ++ [sendRequest codec json] } hrest hids
      exact ⟨t, ht⟩

/-- The state in which the callback of `k` acts. -/
def State.invoked (s : State κ) (r : Json) (k : ℤ) (cb : κ) (a : Reply) : State κ :=
  (s.record (.response r)).record (.invoked k cb a)

/-- What the callback of `k` does then. -/
def State.reaction (s : State κ) (react : History κ → κ → Reply → List (Action κ)) (r : Json)
    (k : ℤ) (cb : κ) (a : Reply) : List (Action κ) := react (s.invoked r k cb a).history cb a

/-- The history tells whether there is room for it. -/
theorem Sound.room_iff (h : Sound codec growth react s) :
    Room codec growth react (s.history ++ [.response r]) k cb a ↔
      (∃ act ∈ s.reaction react r k cb a, act.isRefused codec = true) ∨
        s.callbacks.size + (s.reaction react r k cb a).countP Action.isCall ≤ s.callbacks.room := by
  rw [Room, tableOf_response, ← h.tracks.callbacks_eq]
  exact Iff.rfl

/-- **The response to a call that waits.**  Where the callback gets through with its
calls, its entry is erased, or `it` is invalid by then for want of room. -/
theorem handleSingleResponse_known (h : Sound codec growth react s) (hid : Identified r n)
    (hw : WellFormed r) (ha : Carries r a) (hn : s.findCallback n.toInt = some cb)
    (hacts : s.reaction react r n.toInt cb a = acts) :
    (∃ t, Called codec growth (.calling n.toInt) (s.invoked r n.toInt cb a)
        (acts.countP Action.isCall) t ∧ (∀ act ∈ acts, act.isRefused codec = false) ∧
      (s.callbacks.size + acts.countP Action.isCall ≤ s.callbacks.room ∧
          handleSingleResponse codec growth react r s =
            .ok () ({ t with callbacks := t.callbacks.erase n.toInt }.record (.removed n.toInt)) ∨
        ¬ s.callbacks.size + acts.countP Action.isCall ≤ s.callbacks.room ∧
          handleSingleResponse codec growth react r s = .error .undefined t)) ∨
    ∃ e t, handleSingleResponse codec growth react r s = .error e t ∧
      acts.forM (perform codec growth) (s.invoked r n.toInt cb a) = .error e t ∧
        CallFails (∃ act ∈ acts, act.isRefused codec = true) e t ∧
          Continues (s.invoked r n.toInt cb a).history t := by
  have hanswer : Tracks codec growth (.answering n.toInt cb a) (s.record (.response r)) :=
    h.tracks.record (.answer rfl (verdict_of_wellFormed hid hw ha) hn) rfl (tableOf_response _ r)
  have hcalling : Tracks codec growth (.calling n.toInt) (s.invoked r n.toInt cb a) :=
    hanswer.record (.invoke rfl) rfl (tableOf_invoked _ _ _ _)
  rw [handleSingleResponse_of_known hid hw ha hn]
  have hinvoke : invoke codec growth react n.toInt cb a (s.record (.response r)) =
      acts.forM (perform codec growth) (s.invoked r n.toInt cb a) := by
    rw [← hacts]
    rfl
  simp only [bind, EStateM.bind, hinvoke]
  cases hres : acts.forM (perform codec growth) (s.invoked r n.toInt cb a) with
  | error e t =>
    exact .inr ⟨e, t, rfl, rfl,
      (forM_perform_called (.inr ⟨_, rfl⟩) acts).of_error hcalling.called hres,
      (forM_perform_continues acts _).of_error ⟨[], by simp, rfl⟩ hres⟩
  | ok u t =>
    have hends := (forM_perform_called (.inr ⟨_, rfl⟩) acts).of_ok hcalling.called hres
    rw [Nat.zero_add] at hends
    refine .inl ⟨t, hends.1, hends.2, ?_⟩
    have hvalid : t.callbacks.Valid ⟨n.toInt, s.callbacks.rehashes⟩ ↔
        s.callbacks.size + acts.countP Action.isCall ≤ s.callbacks.room :=
      hends.1.inserts.valid_iff hn
    by_cases hroom : s.callbacks.size + acts.countP Action.isCall ≤ s.callbacks.room
    · refine .inl ⟨hroom, ?_⟩
      simp only [eraseAt, UnorderedMap.eraseAt_of_valid (hvalid.2 hroom)]
    · refine .inr ⟨hroom, ?_⟩
      simp only [eraseAt, UnorderedMap.eraseAt_of_not_valid (mt hvalid.1 hroom)]

/-- What was asked of the room before the callback is asked of it still. -/
theorem Sound.roomy_iff (h : Sound codec growth react s)
    (hc : Continues (s.invoked r k cb a).history t) :
    Roomy codec growth react t.history ↔
      Room codec growth react (s.history ++ [.response r]) k cb a := by
  obtain ⟨rest, hrest, hnone⟩ := hc
  have hpre : Roomy codec growth react (s.history ++ [.response r]) := roomy_append rfl h.roomy
  rw [hrest]
  constructor
  · exact fun hall => (roomy_invoked_iff.1 hall.of_append).2
  · exact fun hroom => roomy_append hnone (roomy_invoked_iff.2 ⟨hpre, hroom⟩)

/-- **A response is handled**: the client keeps its table, or it fails where `Fails` says,
with an exception that the handler in `onMessage` can make good among them. -/
theorem handleSingleResponse_triple (r : Json) :
    Triple (Sound codec growth react) (handleSingleResponse codec growth react r)
      (fun _ => Sound codec growth react) (Fails codec growth react) := by
  intro s h
  rcases response_cases r with ⟨n, a, hid, hw, ha⟩ | ⟨n, hid, hw⟩ | hid
  · have hv : verdict codec r = _ := verdict_of_wellFormed hid hw ha
    cases hn : s.findCallback n.toInt with
    | none =>
      rw [handleSingleResponse_of_unknown hid hw hn]
      refine h.ignore ?_ ?_ <;> rw [hv]
      · rintro k b ⟨⟩
        exact hn
      · nofun
    | some cb =>
      rcases handleSingleResponse_known h hid hw ha hn rfl with
        ⟨t, ht, haccepted, ⟨hroom, hres⟩ | ⟨hroom, hres⟩⟩ |
        ⟨e, t, hres, -, hfails, hc⟩ <;> rw [hres]
      · exact ⟨ht.tracks.erase (.inl rfl), roomy_append rfl
          ((h.roomy_iff ht.continues).2 (h.room_iff.2 (.inr hroom)))⟩
      · intro hall
        rcases h.room_iff.1 ((h.roomy_iff ht.continues).1 hall) with ⟨act, hact, hrefused⟩ | hle
        · rw [haccepted act hact] at hrefused
          cases hrefused
        · exact hroom hle
      · cases e with
        | overflow => exact hfails
        | library => exact ⟨(h.roomy_iff hc).2 (h.room_iff.2 (.inl hfails.1)), hfails.2⟩
        | thrown | assertion | undefined | outOfFuel => exact hfails.elim
  · obtain ⟨msg, hmsg⟩ := validateResponse_of_not_wellFormed codec hid hw
    have hv : verdict codec r = _ := verdict_of_not_wellFormed hid hw
    rw [handleSingleResponse_of_error hmsg]
    cases hn : s.findCallback n.toInt with
    | none =>
      refine .inl ⟨fun hm => ?_, h.ignore ?_ ?_⟩
      · obtain ⟨cb, hcb⟩ := mem_callbacks_iff.1 hm
        rw [State.record_findCallback, hn] at hcb
        cases hcb
      · rw [hv]
        nofun
      · rw [hv]
        rintro k ⟨⟩
        exact hn
    | some cb =>
      exact .inr ⟨mem_callbacks_iff.2 ⟨cb, hn⟩,
        h.tracks.record (.refuse rfl hv hn) rfl (tableOf_response _ r), roomy_append rfl h.roomy⟩
  · have hv : verdict codec r = .nothing := verdict_of_not_identified hid
    rcases validateResponse_of_not_identified codec hid with ⟨msg, hmsg⟩ | hlib
    · rw [handleSingleResponse_of_error hmsg]
      refine h.ignore ?_ ?_ <;> rw [hv] <;> nofun
    · rw [handleSingleResponse_of_error hlib]
      refine ⟨roomy_append rfl h.roomy, fun hfull => h.tracks.not_exhausted ?_⟩
      rwa [Exhausted, State.record_history, issuedKeys_append, issuedKeys_response,
        List.append_nil] at hfull

variable (codec growth react) in
/-- The body of a frame is handled. -/
theorem handleResponse_triple (json : Bytes) :
    Triple (Sound codec growth react) (handleResponse codec growth react json)
      (fun _ => Sound codec growth react) (Fails codec growth react) := by
  intro s h
  unfold handleResponse
  cases codec.parse json with
  | error err => exact h
  | ok response =>
    cases response with
    | object members => exact handleSingleResponse_triple _ s h
    | array responses =>
      dsimp only
      split_ifs
      · exact h
      · exact Triple.forM (fun r _ => handleSingleResponse_triple r) s h
    | _ => exact h

/-- The handler in `onMessage` erases the entry to be dropped, or none. -/
theorem eraseCallback_triple_of_fails (msg : String) (n : Int32)
    {E : Abrupt ResponseException → State κ → Prop} :
    Triple (Fails codec growth react (.thrown ⟨msg, some n⟩)) (eraseCallback n.toInt)
      (fun _ => Sound codec growth react) E := by
  rintro s (⟨hn, hidle⟩ | ⟨hn, hdrop, hroomy⟩)
  · rw [eraseCallback, if_neg hn]
    exact hidle
  · rw [eraseCallback, if_pos hn]
    exact ⟨hdrop.erase (.inr rfl), roomy_append rfl hroomy⟩

/-- **Data arrive**: an exception is caught, and the entry it names is erased. So nothing
that the other side sends makes `onMessage` throw. -/
theorem onMessage_triple :
    Triple (fun c => Sound codec growth react c.peer)
      (onMessage codec growth react : CppM _ (Connection (State κ)) Unit)
      (fun _ c => Sound codec growth react c.peer) fun e c =>
        Aborts codec growth react e c.peer := by
  intro c hc
  have hbad : ∀ s n e (x : State κ), Sound codec growth react x → (receiver codec.parse
      (handleResponse codec growth react)).grammar.front s = .bad n e →
        Fails codec growth react e x := by
    intro s n e x hx h
    obtain ⟨msg, rfl⟩ := thrown_of_bad h
    exact hx
  have hmessage := Connection.triple_of_simulates handleMessage_simulates rfl
    (handleResponse_triple codec growth react) hbad c hc
  unfold onMessage
  cases hres : handleMessage codec.parse (handleResponse codec growth react) c with
  | ok u c' =>
    rw [hres] at hmessage
    exact hmessage
  | error e c' =>
    rw [hres] at hmessage
    cases e with
    | thrown e =>
      obtain ⟨msg, _ | n⟩ := e
      · exact hmessage
      · exact Connection.onPeer_triple (eraseCallback_triple_of_fails msg n) c' hmessage
    | assertion | library | overflow | undefined | outOfFuel => exact hmessage

variable (codec growth react) in
/-- **What every operation keeps**: the table that the history tracks, or it fails for one
of the reasons of `Aborts`, none of which is a response. -/
theorem Op.run_triple (op : Op κ) :
    Triple (fun c => Sound codec growth react c.peer) (op.run codec growth react)
      (fun _ c => Sound codec growth react c.peer) fun e c =>
        Aborts codec growth react e c.peer := by
  cases op with
  | sendCall call cb =>
    refine Connection.onPeer_triple (P := Sound codec growth react)
      (Q := fun _ => Sound codec growth react) (E := Aborts codec growth react) fun s h => ?_
    have hcall := sendCall_called (m := 0) (.inl rfl) call cb s h.tracks.called
    cases hres : BaseClient.sendCall codec growth call cb s with
    | ok u t =>
      rw [hres] at hcall
      obtain ⟨rest, hrest, hnone⟩ := hcall.1.continues
      exact ⟨hcall.1.tracks, by rw [hrest]; exact roomy_append hnone h.roomy⟩
    | error e t =>
      rcases sendCall_cases codec growth call cb s with ⟨_, -, -, hok⟩ | ⟨-, hfull⟩ | ⟨-, hlib⟩
      · rw [hres] at hok
        cases hok
      · rw [hres] at hfull hcall
        cases hfull
        exact hcall
      · rw [hres] at hlib
        cases hlib
        exact ⟨h.roomy, h.tracks.not_exhausted⟩
  | sendNotify notify =>
    have hnotify : Triple (Sound codec growth react) (BaseClient.sendNotify codec notify)
        (fun _ => Sound codec growth react) (Aborts codec growth react) := fun s h =>
      ⟨(h.tracks.called.notify _).tracks, h.roomy⟩
    exact Connection.onPeer_triple hnotify
  | onMessage data =>
    exact (Connection.append_triple (P := Sound codec growth react) data).bind
      fun _ => onMessage_triple

/-- **A client keeps a table of pending calls**, whatever it is asked to do and whatever it
is sent: its history is that of a run of the table, and every callback had room for its
calls. -/
theorem sound_of_run {ops : List (Op κ)} {c : Connection (State κ)}
    (h : Run (Step codec growth react) (start growth) ops c) : Sound codec growth react c.peer := by
  refine h.preserves (P := fun c => Sound codec growth react c.peer) sound_init
    fun c op c' hc hst => ?_
  have hop := Op.run_triple codec growth react op c hc
  rw [hst] at hop
  exact hop

end BaseClient
end BearRpc
