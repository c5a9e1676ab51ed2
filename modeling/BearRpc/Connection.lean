/-
# A connection and what runs on it

The framing loops of `bearTcpServer.cc` and `bearTcpClinet.h` work on the
buffer of a connection and hand every body they cut out to a handler of the
protocol (`convert().handleRequest` on the server, `handleResponse` on the
client).  A `Connection` is that buffer with the state of the protocol object
behind it, and with the bodies handed over so far.

Code that may throw or fail an assertion is a `CppM` program: the state at the
point of failure is kept, as a C++ exception leaves it.  `deliver` appends
chunk after chunk to the buffer and runs the message callback after each.

`Simulates` says that a run of the callback is a run of a receive loop
(`BearRpc.Theory.Receiver`) on the readable bytes; `deliver_feed` lifts it from
one callback to all chunks of a connection.
-/

import BearRpc.Theory.Receiver
import BearRpc.Theory.Triple
import BearRpc.RPCException

namespace BearRpc

open Theory

/-- Programs over a state that can end in an exception or an abort. -/
abbrev CppM (ε σ : Type) := EStateM (Abrupt ε) σ

/-- What stands at the front of a stream of frames: an empty line, or a length
line with its body. -/
inductive Item where
  | blank
  | frame (body : Bytes)
  deriving DecidableEq, Repr

/-- The body of a frame. -/
def Item.body? : Item → Option Bytes
  | .blank => none
  | .frame body => some body

/-- The bodies among the items. -/
def bodies (is : List Item) : List Bytes := is.filterMap Item.body?

@[simp] theorem bodies_nil : bodies [] = [] := rfl

/-- The bodies among items come in the order of the items. -/
@[simp] theorem bodies_append (is js : List Item) : bodies (is ++ js) = bodies is ++ bodies js :=
  List.filterMap_append

@[simp] theorem bodies_blank (is : List Item) : bodies (.blank :: is) = bodies is := rfl

@[simp] theorem bodies_frame (b : Bytes) (is : List Item) :
    bodies (.frame b :: is) = b :: bodies is := rfl

/-- A body is one of a frame among the items. -/
theorem mem_bodies {b : Bytes} {is : List Item} : b ∈ bodies is ↔ .frame b ∈ is := by
  rw [bodies, List.mem_filterMap]
  constructor
  · rintro ⟨i, hi, hb⟩
    cases i with
    | blank => cases hb
    | frame body => exact Option.some.inj hb ▸ hi
  · exact fun h => ⟨_, h, rfl⟩

/-- A connection: its buffer, the bodies handed to the protocol so far, and the
state of the protocol object. -/
structure Connection (σ : Type) where
  buffer : Buffer
  calls : List Bytes
  peer : σ

namespace Connection

variable {ε σ : Type}

/-- A new connection of a protocol object in state `x`. -/
def init (x : σ) : Connection σ := ⟨Buffer.new Buffer.kInitialSize, [], x⟩

/-- A new connection has no unread bytes. -/
@[simp] theorem readable_init (x : σ) : (init x).buffer.readable = [] := Buffer.readable_new _

@[simp] theorem calls_init (x : σ) : (init x).calls = [] := rfl

@[simp] theorem peer_init (x : σ) : (init x).peer = x := rfl

/-- `buffer.append(data)` -/
def append (data : Bytes) : CppM ε (Connection σ) Unit := fun c =>
  match c.buffer.append data with
  | some b => .ok () { c with buffer := b }
  | none => .error .assertion c

/-- `buffer.retrieve(len)` -/
def retrieve (len : ℕ) : CppM ε (Connection σ) Unit := fun c =>
  match c.buffer.retrieve len with
  | some b => .ok () { c with buffer := b }
  | none => .error .assertion c

/-- `buffer.retrieveAsString(len)` -/
def retrieveAsString (len : ℕ) : CppM ε (Connection σ) Bytes := fun c =>
  match c.buffer.retrieveAsString len with
  | some (s, b) => .ok s { c with buffer := b }
  | none => .error .assertion c

/-- Hand a body to the protocol object. -/
def hand (handle : Bytes → CppM ε σ Unit) (json : Bytes) : CppM ε (Connection σ) Unit := fun c =>
  match handle json c.peer with
  | .ok _ y => .ok () { c with calls := c.calls ++ [json], peer := y }
  | .error e y => .error e { c with calls := c.calls ++ [json], peer := y }

/-- Take a frame with a length line of `headerLen` bytes and a body of `len`
bytes off the buffer and hand its body over. -/
def takeFrame (handle : Bytes → CppM ε σ Unit) (headerLen len : ℕ) :
    CppM ε (Connection σ) Unit := do
  retrieve headerLen
  let json ← retrieveAsString len
  hand handle json

/-- The chunks of a connection: each is appended to the buffer, then the message
callback runs. -/
def deliver (onMessage : CppM ε (Connection σ) Unit) : List Bytes → CppM ε (Connection σ) Unit
  | [] => pure ()
  | chunk :: chunks => do
    append chunk
    onMessage
    deliver onMessage chunks

/-- A program of the protocol object, run on the connection. -/
def onPeer (x : CppM ε σ Unit) : CppM ε (Connection σ) Unit := fun c =>
  match x c.peer with
  | .ok _ y => .ok () { c with peer := y }
  | .error e y => .error e { c with peer := y }

/-- The handler of a receive loop that hands every body to `handle`. -/
def serve (handle : Bytes → CppM ε σ Unit) : Item → σ → σ × Option (Abrupt ε)
  | .blank, x => (x, none)
  | .frame body, x =>
    match handle body x with
    | .ok _ y => (y, none)
    | .error e y => (y, some e)

/-- A handler that does nothing. -/
def idle : Bytes → CppM ε Unit Unit := fun _ _ => .ok () ()

/-- Return or failure as the result of a program. -/
def outcome (o : Option (Abrupt ε)) (c : Connection σ) :
    EStateM.Result (Abrupt ε) (Connection σ) Unit :=
  match o with
  | none => .ok () c
  | some e => .error e c

/-- `res` is what the receive loop `R` does from connection `c`: the connection
is left with the unread bytes in its buffer and the bodies handled recorded. -/
def Simulates (R : Receiver UInt8 Item σ (Abrupt ε)) (c : Connection σ)
    (res : EStateM.Result (Abrupt ε) (Connection σ) Unit) : Prop :=
  ∃ is r y o c', R.Receive c.buffer.readable c.peer is r y o ∧ c'.buffer.readable = r ∧
    c'.peer = y ∧ c'.calls = c.calls ++ bodies is ∧ res = outcome o c'

/-! ### The programs on a buffer that has the bytes -/

/-- **Data that arrive** can always be put into the buffer: they stand behind what is unread
there, and nothing else of the connection changes. -/
theorem append_eq (c : Connection σ) (data : Bytes) :
    ∃ b, append (ε := ε) data c = .ok () { c with buffer := b } ∧
      b.readable = c.buffer.readable ++ data := by
  obtain ⟨b, hb, hr⟩ := Buffer.append_readable c.buffer data
  exact ⟨b, by simp only [append, hb], hr⟩

/-- As many bytes as are unread can be taken out of the front. -/
theorem retrieve_eq {c : Connection σ} {len : ℕ} (h : len ≤ c.buffer.readableBytes) :
    ∃ b, retrieve (ε := ε) len c = .ok () { c with buffer := b } ∧
      b.readable = c.buffer.readable.drop len := by
  obtain ⟨b, hb, hr⟩ := Buffer.retrieve_readable h
  exact ⟨b, by simp only [retrieve, hb], hr⟩

/-- **A frame taken off the buffer.**  With its bytes there, no assertion fails;
the body is handed over and the frame is gone, also when the handler fails. -/
theorem takeFrame_eq {handle : Bytes → CppM ε σ Unit} {c : Connection σ} {headerLen len : ℕ}
    (h : headerLen + len ≤ c.buffer.readableBytes) :
    ∃ b, b.readable = c.buffer.readable.drop (headerLen + len) ∧
      takeFrame handle headerLen len c =
        outcome (serve handle (.frame ((c.buffer.readable.drop headerLen).take len)) c.peer).2
          ⟨b, c.calls ++ [(c.buffer.readable.drop headerLen).take len],
            (serve handle (.frame ((c.buffer.readable.drop headerLen).take len)) c.peer).1⟩ := by
  obtain ⟨b₁, hb₁, hr₁⟩ := Buffer.retrieve_readable
    (show headerLen ≤ c.buffer.readableBytes by omega)
  have hlen : len ≤ b₁.readableBytes := by
    rw [← Buffer.length_readable, hr₁, List.length_drop, Buffer.length_readable]
    omega
  obtain ⟨b₂, hb₂, hr₂⟩ := Buffer.retrieveAsString_readable hlen
  rw [hr₁] at hb₂ hr₂
  refine ⟨b₂, by rw [hr₂, List.drop_drop], ?_⟩
  simp only [takeFrame, bind, EStateM.bind, retrieve, hb₁, retrieveAsString, hb₂, hand, serve]
  cases handle ((c.buffer.readable.drop headerLen).take len) c.peer <;> rfl

/-! ### One iteration of a framing loop -/

section Iteration

variable {R : Receiver UInt8 Item σ (Abrupt ε)} {handle : Bytes → CppM ε σ Unit}
  {c : Connection σ}

/-- The loop is left for want of bytes. -/
theorem simulates_more (h : R.grammar.front c.buffer.readable = .more) :
    Simulates R c (.ok () c) :=
  ⟨[], _, _, none, c, .more h, rfl, rfl, by simp, rfl⟩

/-- The loop is left because the front of the stream is in error. -/
theorem simulates_bad {n : ℕ} {e : Abrupt ε} {b : Buffer}
    (h : R.grammar.front c.buffer.readable = .bad n e)
    (hb : b.readable = c.buffer.readable.drop n) :
    Simulates R c (.error e { c with buffer := b }) :=
  ⟨[], _, _, some e, { c with buffer := b }, .bad h, hb, rfl, by simp, rfl⟩

/-- A frame is taken off and the loop goes on, unless the handler fails. -/
theorem simulates_takeFrame {headerLen len : ℕ} {loop : CppM ε (Connection σ) Unit}
    (hR : R.handle = serve handle)
    (hp : ∀ body, ¬ R.pause (.frame body))
    (hf : R.grammar.front c.buffer.readable =
      .item (headerLen + len) (.frame ((c.buffer.readable.drop headerLen).take len)))
    (hlen : headerLen + len ≤ c.buffer.readableBytes)
    (hloop : ∀ c', c'.buffer.readable = c.buffer.readable.drop (headerLen + len) →
      Simulates R c' (loop c')) :
    Simulates R c ((takeFrame handle headerLen len >>= fun _ => loop) c) := by
  obtain ⟨b, hb, htake⟩ := @takeFrame_eq _ _ handle _ _ _ hlen
  simp only [bind, EStateM.bind, htake]
  rcases hs : serve handle (.frame ((c.buffer.readable.drop headerLen).take len)) c.peer
    with ⟨y, _ | e⟩
  · obtain ⟨is, r, z, o, c', hrec, hr, hz, hcalls, hres⟩ := hloop ⟨b, _, y⟩ hb
    simp only [hb] at hrec
    refine ⟨_, r, z, o, c', .next hf (by rw [hR]; exact hs) (hp _) hrec, hr, hz, ?_, hres⟩
    rw [hcalls, bodies_frame, List.append_assoc, List.singleton_append]
  · exact ⟨_, _, y, some e, ⟨b, _, y⟩, .fail hf (by rw [hR]; exact hs), hb, rfl, rfl, rfl⟩

end Iteration

/-! ### What the programs preserve of the protocol object -/

section Triples

variable {P : σ → Prop} {Q : Unit → σ → Prop} {E : Abrupt ε → σ → Prop}

/-- What a function of the peer keeps, it keeps on the connection: the buffer is none of its
business. -/
theorem onPeer_triple {x : CppM ε σ Unit} (h : Triple P x Q E) :
    Triple (fun c => P c.peer) (onPeer x) (fun u c => Q u c.peer) fun e c => E e c.peer := by
  intro c hc
  have hx := h c.peer hc
  unfold onPeer
  cases hr : x c.peer with
  | ok u y =>
    rw [hr] at hx
    exact hx
  | error e y =>
    rw [hr] at hx
    exact hx

/-- Data that arrive do not touch the peer. -/
theorem append_triple (data : Bytes) {F : Abrupt ε → Connection σ → Prop} :
    Triple (fun c => P c.peer) (append data) (fun _ c => P c.peer) F := by
  intro c hc
  obtain ⟨b, hb, -⟩ := append_eq (ε := ε) c data
  rw [hb]
  exact hc

/-- What the handler of the bodies does to the state of the receive loop. -/
theorem serve_ends {handle : Bytes → CppM ε σ Unit}
    (hh : ∀ body, Triple P (handle body) (fun _ => P) E) {i : Item} {x y : σ}
    {o : Option (Abrupt ε)} (hx : P x) (hi : serve handle i x = (y, o)) :
    (o = none → P y) ∧ ∀ e, o = some e → E e y := by
  cases i with
  | blank =>
    cases hi
    exact ⟨fun _ => hx, nofun⟩
  | frame body =>
    have hb := hh body x hx
    simp only [serve] at hi
    cases hr : handle body x with
    | ok u z =>
      rw [hr] at hb hi
      cases hi
      exact ⟨fun _ => hb, nofun⟩
    | error e z =>
      rw [hr] at hb hi
      cases hi
      exact ⟨nofun, fun e' he => by cases he; exact hb⟩

/-- **What the handler of the bodies preserves, the receive loop preserves**, if a frame in
error keeps it as well; the buffer plays no part in it. -/
theorem triple_of_simulates {R : Receiver UInt8 Item σ (Abrupt ε)}
    {handle : Bytes → CppM ε σ Unit} {onMessage : CppM ε (Connection σ) Unit}
    (hsim : ∀ c, Simulates R c (onMessage c)) (hR : R.handle = serve handle)
    (hh : ∀ body, Triple P (handle body) (fun _ => P) E)
    (hbad : ∀ s n e x, P x → R.grammar.front s = .bad n e → E e x) :
    Triple (fun c => P c.peer) onMessage (fun _ c => P c.peer) fun e c => E e c.peer := by
  intro c hc
  obtain ⟨is, r, y, o, c', hrec, -, rfl, -, hres⟩ := hsim c
  obtain ⟨hok, hfail⟩ := hrec.preserves hc
    (fun i x y hx hy => (serve_ends hh hx (hR ▸ hy)).1 rfl)
    (fun i x y e hx hy => (serve_ends hh hx (hR ▸ hy)).2 e rfl)
    fun s x n e => hbad s n e x
  rw [hres]
  cases o with
  | none => exact hok rfl
  | some e => exact hfail e rfl

end Triples

/-! ### From one callback to a connection -/

/-- **Delivering chunks is feeding the receive loop**: the items, the rest and the state of
the handler are those of the abstract loop, and the calls are the bodies of its items. -/
theorem deliver_feed {R : Receiver UInt8 Item σ (Abrupt ε)}
    {onMessage : CppM ε (Connection σ) Unit} (hsim : ∀ c, Simulates R c (onMessage c))
    (chunks : List Bytes) (c : Connection σ) :
    ∃ is r y o c', R.Feed c.buffer.readable c.peer chunks is r y o ∧ c'.buffer.readable = r ∧
      c'.peer = y ∧ c'.calls = c.calls ++ bodies is ∧
        deliver onMessage chunks c = outcome o c' := by
  induction chunks generalizing c with
  | nil => exact ⟨[], _, _, none, c, .nil _ _, rfl, rfl, by simp, rfl⟩
  | cons chunk chunks ih =>
    obtain ⟨b, hb, hr⟩ := append_eq (ε := ε) c chunk
    obtain ⟨is, r, y, o, c₁, hrec, hr₁, hy₁, hcalls₁, hres⟩ := hsim { c with buffer := b }
    simp only [hr] at hrec
    simp only [deliver, bind, EStateM.bind, hb, hres]
    cases o with
    | some e => exact ⟨is, r, y, some e, c₁, .fail hrec, hr₁, hy₁, hcalls₁, rfl⟩
    | none =>
      obtain ⟨js, r', z, o', c₂, hfeed, hr₂, hz, hcalls₂, hres₂⟩ := ih c₁
      rw [hr₁, hy₁] at hfeed
      refine ⟨is ++ js, r', z, o', c₂, .cons hrec hfeed, hr₂, hz, ?_, hres₂⟩
      rw [hcalls₂, hcalls₁, bodies_append, List.append_assoc]

/-- A connection on which every callback returned has fed the receive loop. -/
theorem feed_of_deliver {R : Receiver UInt8 Item σ (Abrupt ε)}
    {onMessage : CppM ε (Connection σ) Unit} (hsim : ∀ c, Simulates R c (onMessage c))
    {chunks : List Bytes} {x : σ} {c : Connection σ}
    (h : deliver onMessage chunks (init x) = .ok () c) :
    ∃ is, R.Feed [] x chunks is c.buffer.readable c.peer none ∧ c.calls = bodies is := by
  obtain ⟨is, r, y, o, c', hfeed, rfl, rfl, hcalls, hres⟩ := deliver_feed hsim chunks (init x)
  rw [readable_init, peer_init] at hfeed
  rw [hres] at h
  cases o with
  | some e => cases h
  | none =>
    cases h
    exact ⟨is, hfeed, hcalls⟩

/-- **One callback on what has arrived of a stream.**  The unread bytes with `q`,
which is to come, read as the items `is`, and nothing pauses the loop: the
callback hands over the first of them, or a handler fails in `E`. -/
theorem Simulates.arrived {R : Receiver UInt8 Item σ (Abrupt ε)} {c : Connection σ}
    {res : EStateM.Result (Abrupt ε) (Connection σ) Unit} (h : Simulates R c res)
    {J : List Item → σ → Prop} {E : Abrupt ε → σ → Prop} (hnil : R.grammar.front [] = .more)
    {is : List Item} {q : Bytes} (hs : R.grammar.Parses (c.buffer.readable ++ q) is [])
    (hp : ∀ i ∈ is, ¬ R.pause i) (hx : J [] c.peer)
    (hJ : ∀ js i ks x y o, is = js ++ i :: ks → J js x → R.handle i x = (y, o) →
      (o = none → J (js ++ [i]) y) ∧ ∀ e, o = some e → E e y) :
    (∃ e c', res = .error e c' ∧ E e c'.peer) ∨ ∃ js ks c', is = js ++ ks ∧ res = .ok () c' ∧
      J js c'.peer ∧ c'.calls = c.calls ++ bodies js ∧
        R.grammar.Parses (c'.buffer.readable ++ q) ks [] ∧
          R.grammar.front c'.buffer.readable = .more := by
  obtain ⟨js, r, y, o, c', hrec, rfl, rfl, hcalls, rfl⟩ := h
  rcases hrec.arrived hnil hs hp hx hJ with ⟨e, rfl, he⟩ | ⟨rfl, ks, rfl, hy, hpar, hm⟩
  · exact .inl ⟨e, c', rfl, he⟩
  · exact .inr ⟨js, ks, c', rfl, rfl, hy, hcalls, hpar, hm⟩

/-- Delivering two lists of chunks is delivering one and then, if no callback failed, the
other. -/
theorem deliver_append (onMessage : CppM ε (Connection σ) Unit) (cs ds : List Bytes) :
    deliver onMessage (cs ++ ds) = deliver onMessage cs >>= fun _ => deliver onMessage ds := by
  induction cs with
  | nil => rw [deliver, pure_bind, List.nil_append]
  | cons c cs ih => simp only [List.cons_append, deliver, ih, bind_assoc]

/-- Where the callbacks return for all chunks, they return for the first ones. -/
theorem deliver_of_append {onMessage : CppM ε (Connection σ) Unit} {cs ds : List Bytes}
    {c d : Connection σ} (h : deliver onMessage (cs ++ ds) c = .ok () d) :
    ∃ c', deliver onMessage cs c = .ok () c' := by
  rw [deliver_append] at h
  simp only [bind, EStateM.bind] at h
  cases hcs : deliver onMessage cs c with
  | ok _ c' => exact ⟨c', rfl⟩
  | error e c' => rw [hcs] at h; cases h

end Connection
end BearRpc
