/-
# Notifications

`RpcServer::handleSingleNotify` and `RpcServer::validateNotify`
(`bearTcpServer.cc`, lines 360 to 381 and 408 to 423) under a whole message.

A notification should never be answered (`Unanswered`).  The code refuses some
with a `RequestException`, which a batch answers: `findValue` and two of the
checks of `handleSingleNotify` throw it where the checks beside them throw a
`NotifyException`.  And `~ThreadSafeData` calls `done` with an array even if it
holds no response, so a batch of notifications alone is answered by `[]`.
`unanswered_iff` says for which messages neither happens.
-/

import BearRpc.Server.OnMessage

namespace BearRpc

open Theory

namespace RpcServer

variable {P N : Type} (services : ServiceList P N) (result : P → Json → Json)

/-- The notifications of a message: the message itself, or elements of a batch. -/
inductive Carries : Json → Json → Prop
  | single {v : Json} (h : IsNotification v) : Carries v v
  | element {u : Json} {vs : List Json} (h : IsNotification u) (mem : u ∈ vs) :
    Carries (.array vs) u

/-- A message of notifications alone. -/
inductive OnlyNotifications : Json → Prop
  | single {v : Json} (h : IsNotification v) : OnlyNotifications v
  | batch {vs : List Json} (h : ∀ u ∈ vs, IsNotification u) : OnlyNotifications (.array vs)

/-- **The notifications of the message `v` are never answered.** -/
structure Unanswered (v : Json) : Prop where
  /-- each reaches its procedure or fails with a `NotifyException` -/
  handled : ∀ u, Carries v u →
    (∃ n, AcceptedNotify services u n ∧ handleSingleNotify services u = .ok n) ∨
      ∃ e, handleSingleNotify services u = .error (.notify e)
  /-- none contributes an element to the response of a batch -/
  no_element : ∀ vs b, v = .array vs → handleBatchRequests services result vs .init = .ok () b →
    ∀ j u, vs[j]? = some u → IsNotification u → valuesOf j b.responses = []
  /-- for notifications alone, no frame is sent -/
  no_frame : OnlyNotifications v → ∀ (parse : Bytes → Except String Json) body,
    parse body = .ok v → (record services result parse body).2.sent = []

/-- No notification of the message raises a `RequestException`, and the message
is no batch of notifications alone. -/
structure Quiet (v : Json) : Prop where
  raises_no_request : ∀ u, Carries v u → ¬ RaisesRequest services u
  not_only_notifications : ∀ u us, v = .array (u :: us) → ∃ w ∈ u :: us, ¬ IsNotification w

variable {services result} {u v : Json} {vs : List Json}

/-- **When a notification fails as it should**: it is accepted, or its exception is a
`NotifyException`, for which nothing is sent; the other kind is the one that is answered. -/
theorem notify_outcome_iff :
    ((∃ n, AcceptedNotify services u n ∧ handleSingleNotify services u = .ok n) ∨
      ∃ e, handleSingleNotify services u = .error (.notify e)) ↔ ¬ RaisesRequest services u := by
  constructor
  · intro h hr
    obtain ⟨err, d, he⟩ := handleSingleNotify_of_raises hr
    rw [he] at h
    rcases h with ⟨n, -, hn⟩ | ⟨e, he⟩
    · cases hn
    · cases he
  · intro hr
    rcases handleSingleNotify_cases services u with ⟨n, hn⟩ | h | he
    · exact .inl ⟨n, hn, handleSingleNotify_of_accepted hn⟩
    · exact absurd h hr
    · exact .inr he

/-- An accepted notification was processed without a response. -/
theorem Processed.no_response {ns : List N} {ws : List Json}
    (h : Processed services result u ns ws) (hu : IsNotification u) : ws = [] := by
  rcases h with ⟨-, hws, -⟩ | ⟨hn, -⟩
  · exact hws
  · exact absurd hu hn

/-- **A notification that raises no `RequestException` adds nothing to a batch**,
whatever the other elements are. -/
theorem no_element_of_quiet {b : Batch N} {j : ℕ}
    (hb : handleBatchRequests services result vs .init = .ok () b) (hj : vs[j]? = some u)
    (hu : IsNotification u) (hr : ¬ RaisesRequest services u) : valuesOf j b.responses = [] := by
  have hne : vs ≠ [] := List.ne_nil_of_mem (List.mem_of_getElem? hj)
  by_cases hvs : ∀ w ∈ vs, Accepted services w
  · obtain ⟨b', hb', hp⟩ := handleBatchRequests_of_accepted result hne hvs
    rw [hb'] at hb
    cases hb
    exact (hp.processed j u hj).no_response hu
  simp only [not_forall, exists_prop] at hvs
  obtain ⟨pre, w, post, rfl, hw, hpre⟩ := exists_first hvs
  obtain ⟨b₀, ws, hp, hb₀, hws⟩ := handleBatchRequests_of_first result post
    (fun x hx => not_not.1 (hpre x hx)) hw
  rw [hb₀] at hb
  cases hb
  rcases Nat.lt_or_ge j pre.length with hlt | hge
  · rw [List.getElem?_append_left hlt] at hj
    rw [valuesOf_append, hp.counter, valuesOf_map_of_ne (Nat.ne_of_gt hlt), List.append_nil]
    exact (hp.processed j u hj).no_response hu
  · rw [(hp.first ws hge).2]
    split_ifs with heq
    · -- the element that ended the loop is the notification itself
      subst heq
      rw [List.getElem?_append_right le_rfl, Nat.sub_self] at hj
      cases hj
      rcases hws with ⟨-, -, hnil⟩ | ⟨hraises, -⟩
      · exact hnil
      · exact absurd (hraises hu) hr
    · rfl

variable (services result) in
/-- **A batch that is not empty is answered by a frame**, be its response empty: also where
all of its elements are notifications. -/
theorem sent_of_batch {parse : Bytes → Except String Json} {body : Bytes}
    (parsed : parse body = .ok (.array (u :: vs))) :
    ∃ ws, (record services result parse body).2.sent = [.array ws] := by
  obtain ⟨b, hb⟩ := handleBatchRequests_returns services result (List.cons_ne_nil u vs)
  refine ⟨b.responses.map Prod.snd, ?_⟩
  simp only [record, handleRequest, parsed, hb]
  rfl

/-- A frame with a notification, or with an empty batch, sends nothing. -/
theorem sent_of_single {parse : Bytes → Except String Json} {body : Bytes}
    (parsed : parse body = .ok v) (h : IsNotification v ∨ v = .array []) :
    (record services result parse body).2.sent = [] := by
  rcases h with hn | rfl
  · obtain ⟨ms, rfl⟩ := exists_object hn.1
    simp only [record, handleRequest, parsed, hn.2, if_true]
    cases handleSingleNotify services (.object ms) <;> rfl
  · simp only [record, handleRequest, parsed]
    rfl

/-- **Which messages have none of their notifications answered.** Over every message, object
or batch, and every table of services: nothing is sent for a notification if and only if the
message is quiet, that is if none of its notifications raises a `RequestException`, as one
with a field missing or of a wrong type does. -/
theorem unanswered_iff (services : ServiceList P N) (result : P → Json → Json) (v : Json) :
    Unanswered services result v ↔ Quiet services v := by
  constructor
  · intro h
    refine ⟨fun u hu => notify_outcome_iff.1 (h.handled u hu), ?_⟩
    rintro u us rfl
    by_contra hall
    simp only [not_exists, not_and, not_not] at hall
    obtain ⟨parse, body, parsed⟩ : ∃ (parse : Bytes → Except String Json) (body : Bytes),
        parse body = .ok (.array (u :: us)) := ⟨fun _ => .ok (.array (u :: us)), [], rfl⟩
    obtain ⟨ws, hws⟩ := sent_of_batch services result parsed
    rw [h.no_frame (.batch hall) _ _ parsed] at hws
    cases hws
  · intro h
    refine ⟨fun u hu => notify_outcome_iff.2 (h.raises_no_request u hu), ?_, ?_⟩
    · rintro vs b rfl hb j u hj hu
      exact no_element_of_quiet hb hj hu
        (h.raises_no_request u (.element hu (List.mem_of_getElem? hj)))
    · intro honly parse body parsed
      cases honly with
      | single hn => exact sent_of_single parsed (.inl hn)
      | @batch vs hall =>
        cases vs with
        | nil => exact sent_of_single parsed (.inr rfl)
        | cons u us =>
          obtain ⟨w, hw, hn⟩ := h.not_only_notifications u us rfl
          exact absurd (hall w hw) hn

/-- The notification of a method of a service that nobody has registered. -/
def unknownNotification : Json :=
  .object [("jsonrpc", .string "2.0"), ("method", .string "s.m")]

/-- **A batch with one notification is answered**: its service is unknown, so it
gets an error object of its own, in a frame of its own. -/
theorem not_unanswered_unknownNotification :
    ¬ Unanswered (∅ : ServiceList Unit Unit) (fun _ v => v) (.array [unknownNotification]) ∧
      ∃ b, handleBatchRequests (∅ : ServiceList Unit Unit) (fun _ v => v) [unknownNotification]
          .init = .ok () b ∧ (valuesOf 0 b.responses).length = 1 := by
  constructor
  · intro h
    obtain ⟨w, hw, hn⟩ := ((unanswered_iff _ _ _).1 h).not_only_notifications _ _ rfl
    rw [List.mem_singleton] at hw
    exact hn (hw ▸ ⟨rfl, rfl⟩)
  · exact ⟨_, rfl, rfl⟩

end RpcServer
end BearRpc
