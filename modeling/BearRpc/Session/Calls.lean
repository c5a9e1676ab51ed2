/-
# The client's side of a session

A session is a client and a server on one connection.  What the client has sent
is a list of calls, each with its id and the procedure it names, and of
notifications (`Sent`); what it has been told is a list of calls.  `Told` ties
both to the state of the client: the bytes sent, the ids issued, the responses
handled and the callbacks invoked.

Every program of the client takes `Told` along (`perform_told`,
`handleSingleResponse_told`) as long as its ids stay within a limit and the entry of a
callback is not erased through an invalid iterator.  The limit is looked at in the
state a program ends in; beyond it nothing is said, and ids only grow
(`handleSingleResponse_grows`).
-/

import BearRpc.Session.Reread
import BearRpc.Client.Identifiers
import BearRpc.Server.Framing

namespace BearRpc
namespace Session

open Theory CallTable BaseClient RpcServer

/-- A call: its id, what the user gave to `sendCall`, and the procedure it names. -/
structure Call (P : Type) where
  id : ℤ
  json : Json
  procedure : P

/-- The request that is written. -/
def Call.value {P : Type} (c : Call P) : Json := numbered c.id c.json

/-- What the client sends: a call, or a notification with the procedure it names. -/
inductive Sent (P N : Type) where
  | call (c : Call P)
  | notify (json : Json) (procedure : N)

/-- The value that is written. -/
def Sent.value {P N : Type} : Sent P N → Json
  | .call c => c.value
  | .notify json _ => json

/-- The call among what is sent. -/
def Sent.call? {P N : Type} : Sent P N → Option (Call P)
  | .call c => some c
  | .notify _ _ => none

/-- The calls among what is sent. -/
def calls {P N : Type} (sent : List (Sent P N)) : List (Call P) := sent.filterMap Sent.call?

/-- The text of `v` is read on the other side, and shorter than its limit. -/
structure Fits (codec : Codec) (limit : ℕ) (v : Json) : Prop where
  faithful : codec.Faithful v
  short : (codec.write v).length + 2 < limit

variable {κ P N : Type} (codec : Codec) (growth : Growth) (services : ServiceList P N)
  (result : P → Json → Json)

/-- The response of its procedure. -/
def Call.response (c : Call P) : Json :=
  UserCallback.call c.value.reread (result c.procedure c.value.reread)

/-- The server accepts the call, and request and response fit. -/
structure Call.Served (c : Call P) : Prop where
  request : Fits codec BaseServer.kMaxMessageLen c.value
  accepted : AcceptedRequest services c.value.reread c.procedure
  response : Fits codec BaseClient.kMaxMessageLen (c.response result)

/-- The server accepts the notification, and it fits. -/
structure Noticed (json : Json) (procedure : N) : Prop where
  request : Fits codec BaseServer.kMaxMessageLen json
  notification : IsNotification json.reread
  accepted : AcceptedNotify services json.reread procedure

/-- The server accepts what is sent. -/
def Sent.Served : Sent P N → Prop
  | .call c => c.Served codec services result
  | .notify json n => Noticed codec services json n

/-- The action is one the server accepts; a call is an object, and accepted under every
id below the limit. -/
def Admissible (limit : ℤ) : Action κ → Prop
  | .call json _ => json.isObject = true ∧
      ∀ k, 0 ≤ k → k < limit → ∃ p, (Call.mk k json p).Served codec services result
  | .notify json => ∃ n, Noticed codec services json n

/-- The client has sent `sent` and been told of the calls `heard`. -/
structure Told (p : Phase ℤ κ Reply) (sent : List (Sent P N)) (heard : List (Call P))
    (x : State κ) : Prop where
  tracks : Tracks codec growth p x
  sent_eq : x.sent = sent.map fun m => sendRequest codec m.value
  served : ∀ m ∈ sent, m.Served codec services result
  issued : issuedKeys x.history = (calls sent).map Call.id
  ids : ∀ c ∈ calls sent, 0 ≤ c.id ∧ c.id < 2 ^ 31
  responses_eq : responses x.history = heard.map fun c => (c.response result).reread
  invoked : invokedKeys x.history = heard.map Call.id
  known : ∀ c ∈ heard, c ∈ calls sent

/-- Within the limit, the client has sent `base` and more. -/
def ToldFrom (limit : ℤ) (p : Phase ℤ κ Reply) (base : List (Sent P N)) (heard : List (Call P))
    (x : State κ) : Prop :=
  x.id ≤ limit → ∃ more, Told codec growth services result p (base ++ more) heard x

variable {codec growth services result} {react : History κ → κ → Reply → List (Action κ)}
  {limit : ℤ}
  {sent base : List (Sent P N)} {heard : List (Call P)} {x : State κ} {p : Phase ℤ κ Reply}
  {c : Call P} {a : ℤ}

/-- The calls among what is sent, in a list continued, are those of the first part and then
those of the second. -/
@[simp] theorem calls_append (l l' : List (Sent P N)) : calls (l ++ l') = calls l ++ calls l' :=
  List.filterMap_append

@[simp] theorem calls_call (c : Call P) : calls [(.call c : Sent P N)] = [c] := rfl

@[simp] theorem calls_notify (json : Json) (n : N) : calls [(.notify json n : Sent P N)] = [] := rfl

/-- A call is among the calls if it was sent. -/
theorem mem_calls : c ∈ calls sent ↔ .call c ∈ sent := by
  rw [calls, List.mem_filterMap]
  constructor
  · rintro ⟨m, hm, hc⟩
    cases m with
    | call d =>
      obtain rfl := Option.some.inj hc
      exact hm
    | notify => cases hc
  · exact fun h => ⟨_, h, rfl⟩

/-! ### A call and its response -/

/-- The id of a call on the server. -/
theorem Call.Served.id_eq (h : c.Served codec services result) (h₀ : 0 ≤ c.id)
    (hk : c.id < 2 ^ 31) : c.value.reread.findMember "id" = some (.int32 (Int32.ofInt c.id)) :=
  reread_numbered h₀ hk h.accepted

/-- An id of a session survives the conversion to the `Int32` of the JSON library. -/
theorem toInt_id (h₀ : 0 ≤ c.id) (hk : c.id < 2 ^ 31) : (Int32.ofInt c.id).toInt = c.id :=
  Int32.toInt_ofInt_of_le (by omega) (by omega)

/-- What a call is told. -/
def Call.reply (result : P → Json → Json) (c : Call P) : Reply :=
  ⟨(result c.procedure c.value.reread).reread, false, false⟩

/-- **The client takes the response of a call for its answer**, since it has the id of the
call, which fits into 32 bits, and the members that `validateResponse` asks for. -/
theorem Call.Served.verdict_eq (h : c.Served codec services result) (h₀ : 0 ≤ c.id)
    (hk : c.id < 2 ^ 31) :
    verdict codec (c.response result).reread = .answers c.id (c.reply result) := by
  obtain ⟨hid, hw, ha⟩ := identified_call (h.id_eq h₀ hk) (result c.procedure c.value.reread)
  rw [Call.response, verdict_of_wellFormed hid hw ha, toInt_id h₀ hk, Call.reply]

/-! ### What is known of a client that has been told -/

/-- Every call that was sent is one that the server accepts. -/
theorem Told.served_of_mem (h : Told codec growth services result p sent heard x)
    (hc : c ∈ calls sent) :
    c.Served codec services result := h.served (.call c) (mem_calls.1 hc)

/-- The response of its procedure is an answer to just this call, with the result of the
procedure. -/
theorem Told.verdict_eq (h : Told codec growth services result p sent heard x)
    (hc : c ∈ calls sent) :
    verdict codec (c.response result).reread = .answers c.id (c.reply result) :=
  (h.served_of_mem hc).verdict_eq (h.ids c hc).1 (h.ids c hc).2

/-- A call is known by its id. -/
theorem Told.call_ext (h : Told codec growth services result p sent heard x) {d : Call P}
    (hc : c ∈ calls sent) (hd : d ∈ calls sent) (hid : c.id = d.id) : c = d := by
  have hnd := h.tracks.inv.issued_nodup
  rw [h.issued] at hnd
  exact List.inj_on_of_nodup_map hnd hc hd hid

/-- Every response the client has seen answers a call. -/
theorem Told.exists_of_response (h : Told codec growth services result p sent heard x) {r : Json}
    (hr : .response r ∈ x.history) :
    ∃ d ∈ heard, r = (d.response result).reread ∧
      verdict codec r = .answers d.id (d.reply result) := by
  have hmem : r ∈ responses x.history := List.mem_filterMap.2 ⟨_, hr, rfl⟩
  rw [h.responses_eq] at hmem
  obtain ⟨d, hd, rfl⟩ := List.mem_map.1 hmem
  exact ⟨d, hd, rfl, h.verdict_eq (h.known d hd)⟩

/-- **No call is lost**: each one that was issued has been told or still waits, because no
response that was heard has been refused. -/
theorem Told.conserved (h : Told codec growth services result .idle sent heard x) :
    Conserved x.history (x.table .idle) := by
  refine (conserved_iff h.tracks.run rfl).2 fun pre r post k hls hr _ => ?_
  obtain ⟨d, -, -, hd⟩ := h.exists_of_response (r := r) (by rw [hls]; simp)
  rw [hd] at hr
  cases hr

/-- **A call that has not been told waits**: its callback is in the table, under the id that
the call was sent with. -/
theorem Told.waits (h : Told codec growth services result .idle sent heard x) (hc : c ∈ calls sent)
    (hnew : c ∉ heard) : ∃ cb, x.findCallback c.id = some cb := by
  have hissued : c.id ∈ issuedKeys x.history := h.issued ▸ List.mem_map_of_mem hc
  rcases h.conserved.kept c.id hissued with hp | hi
  · exact Option.ne_none_iff_exists'.1 hp
  · rw [h.invoked] at hi
    obtain ⟨d, hd, hid⟩ := List.mem_map.1 hi
    obtain rfl := h.call_ext (h.known d hd) hc hid
    exact absurd hd hnew

/-! ### What the programs of the client keep -/

/-- **A call is issued**: it is the last one sent, and waits under the next id. -/
theorem Told.issue (h : Told codec growth services result p sent heard x)
    (hp : p = .idle ∨ ∃ j, p = .calling j) (hid : x.id < 2 ^ 31) (cb : κ) (json : Json) {q : P}
    (hq : (Call.mk x.id json q).Served codec services result) :
    Told codec growth services result p (sent ++ [.call ⟨x.id, json, q⟩]) heard
      (x.issue growth cb (sendRequest codec (numbered x.id json))) where
  tracks := h.tracks.issue hp (by omega) cb _
  sent_eq := by rw [State.issue, h.sent_eq, List.map_append]; rfl
  served m hm := by
    rcases List.mem_append.1 hm with hm | hm
    · exact h.served m hm
    · rw [List.mem_singleton.1 hm]
      exact hq
  issued := by
    rw [State.issue, issuedKeys_append, h.issued, calls_append, List.map_append]
    rfl
  ids c hc := by
    rw [calls_append, calls_call, List.mem_append, List.mem_singleton] at hc
    rcases hc with hc | rfl
    · exact h.ids c hc
    · exact ⟨by rw [h.tracks.id_eq]; exact Int.natCast_nonneg _, hid⟩
  responses_eq := by simpa [State.issue] using h.responses_eq
  invoked := by simpa [State.issue] using h.invoked
  known c hc := by
    rw [calls_append]
    exact List.mem_append_left _ (h.known c hc)

/-- **A notification is sent**: it is the last thing sent, and nothing else of the client
changes. -/
theorem Told.note (h : Told codec growth services result p sent heard x) {json : Json} {n : N}
    (hn : Noticed codec services json n) :
    Told codec growth services result p (sent ++ [.notify json n]) heard
      { x with sent := x.sent ++ [sendRequest codec json] } where
  tracks := (h.tracks.called.notify _).tracks
  sent_eq := by rw [h.sent_eq, List.map_append]; rfl
  served m hm := by
    rcases List.mem_append.1 hm with hm | hm
    · exact h.served m hm
    · rw [List.mem_singleton.1 hm]
      exact hn
  issued := by rw [calls_append, calls_notify, List.append_nil]; exact h.issued
  ids c hc := h.ids c (by simpa using hc)
  responses_eq := h.responses_eq
  invoked := h.invoked
  known c hc := by
    rw [calls_append]
    exact List.mem_append_left _ (h.known c hc)

/-- **An action of the user or of a callback** keeps the description, and what was sent
grows by its request; it fails only when the ids have come to the limit. -/
theorem perform_told (hlim : limit ≤ 2 ^ 31) (hp : p = .idle ∨ ∃ j, p = .calling j)
    {action : Action κ} (ha : Admissible codec services result limit action) :
    Triple (ToldFrom codec growth services result limit p base heard) (perform codec growth action)
      (fun _ => ToldFrom codec growth services result limit p base heard)
      fun _ y => limit < y.id := by
  intro x h
  cases action with
  | call json cb =>
    obtain ⟨hobject, hserved⟩ := ha
    have hw := codec.addMember_of_isObject hobject "id" (.int64 (Int64.ofInt x.id))
    rw [perform]
    by_cases hid : x.id < 2 ^ 63 - 1
    · rw [sendCall_of_room hw hid]
      intro hy
      have hy : x.id + 1 ≤ limit := hy
      obtain ⟨more, hm⟩ := h (by omega)
      obtain ⟨q, hq⟩ := hserved x.id (by rw [hm.tracks.id_eq]; exact Int.natCast_nonneg _)
        (by omega)
      exact ⟨more ++ [.call ⟨x.id, json, q⟩], by
        rw [← List.append_assoc]; exact hm.issue hp (by omega) cb json hq⟩
    · rw [sendCall_of_full hw hid]
      show limit < x.id
      omega
  | notify json =>
    obtain ⟨n, hn⟩ := ha
    intro hy
    obtain ⟨more, hm⟩ := h hy
    exact ⟨more ++ [.notify json n], by rw [← List.append_assoc]; exact hm.note hn⟩

/-- Ids only grow. -/
theorem perform_grows (action : Action κ) :
    Triple (fun x => a < x.id) (perform codec growth action) (fun _ x => a < x.id)
      fun _ x => a < x.id := by
  intro x (h : a < x.id)
  cases action with
  | call json cb =>
    rw [perform]
    rcases sendCall_cases codec growth json cb x with
      ⟨message, -, -, hres⟩ | ⟨-, hres⟩ | ⟨-, hres⟩ <;> rw [hres]
    · show a < x.id + 1
      omega
    · exact h
    · exact h
  | notify json => exact h

/-- Erasing an entry by its key takes no id back and sends nothing. -/
theorem eraseCallback_id (k : ℤ) : ∃ y, (eraseCallback k : CppM _ (State κ) Unit) x = .ok () y ∧
    y.id = x.id ∧ y.sent = x.sent := by
  unfold eraseCallback
  split_ifs
  · exact ⟨_, rfl, rfl, rfl⟩
  · exact ⟨_, rfl, rfl, rfl⟩

/-- Erasing an entry leaves the id as it is. -/
theorem eraseAt_grows (it : UnorderedMap.Iterator ℤ) :
    Triple (fun x => a < x.id) (eraseAt it : CppM _ (State κ) Unit) (fun _ x => a < x.id)
      fun _ x => a < x.id := by
  intro x (h : a < x.id)
  rcases eraseAt_cases it x with hres | hres <;> rw [hres] <;> exact h

/-- Handling a response takes no id back, whether or not the response is refused and however
its callback ends. -/
theorem handleSingleResponse_grows (r : Json) :
    Triple (fun x => a < x.id) (handleSingleResponse codec growth react r) (fun _ x => a < x.id)
      fun _ x => a < x.id := by
  intro x (h : a < x.id)
  cases hv : validateResponse codec r with
  | error e =>
    rw [handleSingleResponse_of_error hv]
    exact h
  | ok _ =>
    rcases response_cases r with ⟨n, b, hid, hw, hb⟩ | ⟨n, hid, hw⟩ | hid
    · cases hn : x.findCallback n.toInt with
      | none =>
        rw [handleSingleResponse_of_unknown hid hw hn]
        exact h
      | some cb =>
        rw [handleSingleResponse_of_known hid hw hb hn]
        refine Ends.bind (Q := fun _ x => a < x.id) ?_ fun _ => eraseAt_grows _
        exact Triple.forM (fun action _ => perform_grows action)
          ((x.record (.response r)).record (.invoked n.toInt cb b)) h
    · obtain ⟨msg, hmsg⟩ := validateResponse_of_not_wellFormed codec hid hw
      rw [hmsg] at hv
      cases hv
    · rcases validateResponse_of_not_identified codec hid with ⟨msg, hmsg⟩ | hlib
      · rw [hmsg] at hv
        cases hv
      · rw [hlib] at hv
        cases hv

/-- The callback of a call is about to act. -/
theorem Told.invoke (h : Told codec growth services result .idle sent heard x) (hc : c ∈ calls sent)
    {cb : κ} (hcb : x.findCallback c.id = some cb) :
    Told codec growth services result (.calling c.id) sent (heard ++ [c])
      (x.invoked (c.response result).reread c.id cb (c.reply result)) where
  tracks := by
    have hanswer : Tracks codec growth (.answering c.id cb (c.reply result))
        (x.record (.response (c.response result).reread)) :=
      h.tracks.record (.answer rfl (h.verdict_eq hc) hcb) rfl (tableOf_response _ _)
    exact hanswer.record (.invoke rfl) rfl (tableOf_invoked _ _ _ _)
  sent_eq := h.sent_eq
  served := h.served
  issued := by
    rw [State.invoked, State.record_history, State.record_history, issuedKeys_append,
      issuedKeys_append, issuedKeys_response, issuedKeys_invoked,
      List.append_nil, List.append_nil, h.issued]
  ids := h.ids
  responses_eq := by
    rw [State.invoked, State.record_history, State.record_history, responses_append,
      responses_append, h.responses_eq, responses_response, responses_invoked,
      List.append_nil, List.map_append]
    rfl
  invoked := by
    rw [State.invoked, State.record_history, State.record_history, invokedKeys_append,
      invokedKeys_append, h.invoked, invokedKeys_response, List.append_nil, List.map_append]
    rfl
  known d hd := by
    rcases List.mem_append.1 hd with hd | hd
    · exact h.known d hd
    · rwa [List.mem_singleton.1 hd]

/-- The entry is erased. -/
theorem Told.erase {k : ℤ} (h : Told codec growth services result (.calling k) sent heard x) :
    Told codec growth services result .idle sent heard
      ({ x with callbacks := x.callbacks.erase k }.record (.removed k)) where
  tracks := h.tracks.erase (.inl rfl)
  sent_eq := h.sent_eq
  served := h.served
  issued := by simpa using h.issued
  ids := h.ids
  responses_eq := by simpa using h.responses_eq
  invoked := by simpa using h.invoked
  known := h.known

/-- **The response of a call that waits is handled**: the call has been told, unless the
entry of its callback is erased through an invalid iterator. -/
theorem handleSingleResponse_told (hlim : limit ≤ 2 ^ 31)
    (hreact : ∀ h cb a, ∀ action ∈ react h cb a, Admissible codec services result limit action)
    (hc : c ∈ calls base) (hnew : c ∉ heard) :
    Triple (ToldFrom codec growth services result limit .idle base heard)
      (handleSingleResponse codec growth react (c.response result).reread)
      (fun _ => ToldFrom codec growth services result limit .idle base (heard ++ [c]))
      fun e y => limit < y.id ∨ e = .undefined := by
  intro x h
  by_cases hx : x.id ≤ limit
  swap
  · have hgrows : Ends (fun _ y => limit < y.id) (fun _ y => limit < y.id)
        (handleSingleResponse codec growth react (c.response result).reread x) :=
      handleSingleResponse_grows _ x (not_le.1 hx)
    cases hres : handleSingleResponse codec growth react (c.response result).reread x with
    | ok _ y =>
      rw [hres] at hgrows
      exact fun hy => absurd hgrows (not_lt.2 hy)
    | error e y =>
      rw [hres] at hgrows
      exact .inl hgrows
  obtain ⟨more, hm⟩ := h hx
  have hcm : c ∈ calls (base ++ more) := by
    rw [calls_append]
    exact List.mem_append_left _ hc
  obtain ⟨h₀, hk⟩ := hm.ids c hcm
  obtain ⟨hid, hw, ha⟩ := identified_call ((hm.served_of_mem hcm).id_eq h₀ hk)
    (result c.procedure c.value.reread)
  obtain ⟨cb, hcb⟩ := hm.waits hcm hnew
  rw [Call.response, handleSingleResponse_of_known hid hw ha (by rwa [toInt_id h₀ hk]),
    toInt_id h₀ hk]
  refine Ends.bind (Q := fun _ => ToldFrom codec growth services result limit (.calling c.id) base
    (heard ++ [c])) ?_ fun _ y hy => ?_
  · exact (Triple.forM fun action hmem =>
        perform_told hlim (.inr ⟨_, rfl⟩) (hreact _ _ _ action hmem)).imp_error (fun _ _ => .inl)
      (x.invoked (c.response result).reread c.id cb (c.reply result))
      fun _ => ⟨more, hm.invoke hcm hcb⟩
  · rcases eraseAt_cases ⟨c.id, x.callbacks.rehashes⟩ y with hres | hres <;> rw [hres]
    · intro hz
      obtain ⟨more', hm'⟩ := hy hz
      exact ⟨more', hm'.erase⟩
    · exact .inr rfl

end Session
end BearRpc
