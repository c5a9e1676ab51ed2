/-
# Accepting

`Acceptor::listen` and `Acceptor::handleRead` (`src/RPC/bearTCP/Acceptor.cc`,
lines 43 to 87) on the event loop.

When `::accept4` fails with `ECONNABORTED` or `EMFILE`, the `switch` is left by
`break`, and the code behind it goes on with the descriptor -1 and with an address
that nobody has filled in.  If a callback is set, it gets both; if none is set,
`::close(-1)` closes nothing.  So what is handed over and closed is what was
accepted exactly when no such failure is met while a callback is set
(`handsOver_iff`).  Any other failure is fatal: there is no step behind it.

`acceptChannel_` is a private member: other code does nothing to it.
-/

import BearRpc.Tcp.Dispatch

namespace BearRpc

open Theory

def EMFILE : ℤ := 24
def ECONNABORTED : ℤ := 103

/-- `channel.setReadCallback(cb)` -/
def EPoller.setReadCallback {κ : Type} [DecidableEq κ] (s : EPoller κ) (c : κ) : EPoller κ :=
  s.setChannel c fun channel => { channel with isSet := Function.update channel.isSet .read true }

namespace Acceptor

/-- What `::accept4` returns: a descriptor, and the address filled in, or -1. -/
inductive AcceptResult (A : Type) where
  | ok (fd : ℤ) (peer : A) (valid : 0 ≤ fd)
  | fail (errno : ℤ)

namespace AcceptResult

variable {A : Type}

/-- `sockfd` -/
def sockfd : AcceptResult A → ℤ
  | ok fd _ _ => fd
  | fail _ => -1

/-- `addr`, with what was on the stack. -/
def addr (stack : A) : AcceptResult A → A
  | ok _ peer _ => peer
  | fail _ => stack

/-- `FATAL("unexpected accept4() error")` -/
def Fatal : AcceptResult A → Prop
  | ok _ _ _ => False
  | fail errno => errno ≠ ECONNABORTED ∧ errno ≠ EMFILE

instance (o : AcceptResult A) : Decidable o.Fatal :=
  match o with
  | ok _ _ _ => inferInstanceAs (Decidable False)
  | fail errno => inferInstanceAs (Decidable (errno ≠ ECONNABORTED ∧ errno ≠ EMFILE))

end AcceptResult

/-- An acceptor on its loop, with the calls of `newConnectionCallback_` and the
descriptors closed so far. -/
structure State (κ A : Type) where
  loop : Dispatch.State κ
  localAddr : A
  newConnectionCallback : Bool
  handed : List (ℤ × A × A)
  closed : List ℤ

/-- A step of the loop; `handleRead` called by it, with what `::accept4` does and
what was on the stack; or a callback is set, or taken back. -/
inductive Label (κ A : Type) where
  | loop (l : Dispatch.Label κ)
  | read (o : AcceptResult A) (stack : A)
  | setNewConnectionCallback (set : Bool)

variable {κ A : Type} [DecidableEq κ]

/-- `::close(fd)`, which fails on what is no descriptor. -/
def close (s : State κ A) (fd : ℤ) : State κ A :=
  if 0 ≤ fd then { s with closed := s.closed ++ [fd] } else s

/-- `Acceptor::handleRead`, `none` where it aborts. -/
def handleRead (s : State κ A) (o : AcceptResult A) (stack : A) : Option (State κ A) :=
  if o.Fatal then none
  else if s.newConnectionCallback then
    some { s with handed := s.handed ++ [(o.sockfd, s.localAddr, o.addr stack)] }
  else some (close s o.sockfd)

variable (c : κ)

/-- `Acceptor::listen`, for what `::listen` returns; `none` where it aborts. -/
def listen (s : State κ A) (ret : ℤ) : Option (State κ A) :=
  if ret = -1 then none
  else
    ((s.loop.poller.setReadCallback c).enableRead c).map fun poller =>
      { s with loop := { s.loop with poller := poller } }

/-- The steps behind `listen()`. -/
inductive Step : State κ A → Label κ A → State κ A → Prop
  /-- other code does nothing to `acceptChannel_` -/
  | loop {s l loop} : Dispatch.Step s.loop l loop → l ≠ .invoke c .read → (∀ m, l ≠ .call c m) →
      (loop.poller.channel c).tied = (s.loop.poller.channel c).tied →
      (loop.poller.channel c).isSet = (s.loop.poller.channel c).isSet →
      Step s (.loop l) { s with loop := loop }
  | read {s loop o stack t} : Dispatch.Step s.loop (.invoke c .read) loop →
      handleRead { s with loop := loop } o stack = some t → Step s (.read o stack) t
  | setNewConnectionCallback {s} (set : Bool) : Step s (.setNewConnectionCallback set)
      { s with newConnectionCallback := set }

/-- An acceptor just constructed. -/
structure Fresh (s : State κ A) : Prop where
  synced : s.loop.poller.Synced
  channel : s.loop.poller.channel c = Channel.init (s.loop.poller.channel c).fd
  handed : s.handed = []
  closed : s.closed = []

/-! ### What an acceptor should do -/

/-- What should have been handed over and closed. -/
structure Ledger (A : Type) where
  callback : Bool
  handed : List (ℤ × A × A)
  closed : List ℤ

/-- A connection accepted is handed over if there is a callback, and else closed; a
failure changes nothing. -/
def Ledger.after (localAddr : A) (g : Ledger A) : Label κ A → Ledger A
  | .read (.ok fd peer _) _ =>
    if g.callback then { g with handed := g.handed ++ [(fd, localAddr, peer)] }
    else { g with closed := g.closed ++ [fd] }
  | .read (.fail _) _ => g
  | .setNewConnectionCallback set => { g with callback := set }
  | .loop _ => g

/-- What was handed over and closed. -/
def State.books (s : State κ A) : Ledger A := ⟨s.newConnectionCallback, s.handed, s.closed⟩

/-- The ledger after `ls`, from where `s₁` is. -/
def ledger (s₁ : State κ A) (ls : List (Label κ A)) : Ledger A :=
  ls.foldl (Ledger.after s₁.localAddr) s₁.books

/-- The next connection will be noticed: the channel is registered for reading, and
`handleRead` is its read callback. -/
structure Ready (s : State κ A) : Prop where
  registered : s.loop.poller.interest (s.loop.poller.channel c).fd =
    some ⟨EPOLLIN ||| EPOLLPRI, c⟩
  untied : (s.loop.poller.channel c).tied = false
  isSet : (s.loop.poller.channel c).isSet .read = true

/-- **Along the run `ls`, the accepted sockets are handed over**, or closed, and
nothing else; and the acceptor is always ready for the next. -/
structure HandsOver (s₁ : State κ A) (ls : List (Label κ A)) : Prop where
  handed : ∀ pre post s, ls = pre ++ post → Run (Step c) s₁ pre s →
    s.handed = (ledger s₁ pre).handed
  closed : ∀ pre post s, ls = pre ++ post → Run (Step c) s₁ pre s →
    s.closed = (ledger s₁ pre).closed
  ready : ∀ pre post s, ls = pre ++ post → Run (Step c) s₁ pre s → Ready c s

/-- No failure is met while a callback is set. -/
def NoFailure (s₁ : State κ A) (ls : List (Label κ A)) : Prop :=
  ∀ pre errno stack post, ls = pre ++ .read (.fail errno) stack :: post →
    (ledger s₁ pre).callback = false

open EPoller

variable {c} {s s₀ s₁ t : State κ A} {ls : List (Label κ A)} {l : Label κ A} {o : AcceptResult A}
  {stack : A} {ret : ℤ}

/-! ### The registration -/

/-- What `listen` leaves, for good. -/
structure Listening (c : κ) (s : State κ A) : Prop where
  synced : s.loop.poller.Synced
  events : (s.loop.poller.channel c).events = EPOLLIN ||| EPOLLPRI
  untied : (s.loop.poller.channel c).tied = false
  isSet : (s.loop.poller.channel c).isSet .read = true

omit [DecidableEq κ] in
/-- What `listen` leaves is what it takes to notice the next connection. -/
theorem Listening.ready (h : Listening c s) : Ready c s := by
  refine ⟨?_, h.untied, h.isSet⟩
  rw [h.synced.interest c, h.events]
  exact if_neg (by decide)

/-- What `listen` does. -/
theorem listening_of_listen (h₀ : Fresh c s₀) (hlisten : listen c s₀ ret = some s₁) :
    Listening c s₁ ∧ s₁.handed = [] ∧ s₁.closed = [] := by
  have halike : Alike s₀.loop.poller (s₀.loop.poller.setReadCallback c) :=
    alike_setChannel _ c fun _ => ⟨rfl, rfl, rfl⟩
  have hchannel : (s₀.loop.poller.setReadCallback c).channel c =
      { Channel.init (s₀.loop.poller.channel c).fd with
        isSet := Function.update (fun _ => false) .read true } := by
    rw [setReadCallback, setChannel_self, h₀.channel]
    rfl
  have hsync := halike.synced h₀.synced
  have henable := hsync.mutate_or (c := c) (m := EPOLLIN ||| EPOLLPRI) (by rw [hchannel]; rfl)
    (by decide)
  rw [listen, enableRead, henable] at hlisten
  split at hlisten
  · cases hlisten
  · rw [Option.map_some, Option.some.injEq] at hlisten
    subst hlisten
    have hput := put_channel_self (s₀.loop.poller.setReadCallback c) c (EPOLLIN ||| EPOLLPRI)
    refine ⟨⟨hsync.put c _, ?_, ?_, ?_⟩, h₀.handed, h₀.closed⟩
    · rw [hput]
    · rw [hput, hchannel]
      rfl
    · rw [hput, hchannel]
      rfl

omit [DecidableEq κ] in
/-- What `handleRead` does where it does not abort. -/
theorem handleRead_cases (h : handleRead s o stack = some t) :
    s.newConnectionCallback = true ∧
        t = { s with handed := s.handed ++ [(o.sockfd, s.localAddr, o.addr stack)] } ∨
      s.newConnectionCallback = false ∧ t = close s o.sockfd := by
  rw [handleRead] at h
  split at h
  · cases h
  · cases hset : s.newConnectionCallback with
    | false =>
      rw [hset] at h
      exact .inr ⟨rfl, (Option.some.inj h).symm⟩
    | true =>
      rw [hset] at h
      exact .inl ⟨rfl, (Option.some.inj h).symm⟩

omit [DecidableEq κ] in
/-- Closing a descriptor records it as closed. -/
theorem close_of_nonneg {fd : ℤ} (s : State κ A) (h : 0 ≤ fd) :
    close s fd = { s with closed := s.closed ++ [fd] } :=
  if_pos h

omit [DecidableEq κ] in
/-- `close(-1)` does nothing. -/
theorem close_of_neg {fd : ℤ} (s : State κ A) (h : ¬ 0 ≤ fd) : close s fd = s :=
  if_neg h

omit [DecidableEq κ] in
/-- `handleRead` works on the socket and on its caller; it registers nothing with the
poller. -/
theorem handleRead_loop (h : handleRead s o stack = some t) : t.loop = s.loop := by
  rcases handleRead_cases h with ⟨-, rfl⟩ | ⟨-, rfl⟩
  · rfl
  · rw [close]
    split <;> rfl

omit [DecidableEq κ] in
/-- Whether the acceptor listens depends on the poller alone. -/
theorem Listening.of_poller (h : Listening c s) (hpoller : t.loop.poller = s.loop.poller) :
    Listening c t := by
  obtain ⟨synced, events, untied, isSet⟩ := h
  rw [← hpoller] at synced events untied isSet
  exact ⟨synced, events, untied, isSet⟩

/-- Nothing in the loop or in `handleRead` changes the registration. -/
theorem Listening.step (h : Listening c s) (hstep : Step c s l t) : Listening c t := by
  cases hstep with
  | loop hstep _ hcall htied hset =>
    have heff := hstep.effect h.synced
    refine ⟨heff.synced h.synced, ?_, htied.trans h.untied, ?_⟩
    · exact (heff.frame hcall).2.trans h.events
    · rw [← h.isSet, ← hset]
  | read hstep hread =>
    refine h.of_poller ?_
    rw [handleRead_loop hread]
    exact Dispatch.invoke_poller hstep
  | setNewConnectionCallback set => exact h.of_poller rfl

/-- **An acceptor that listens goes on listening** through every run: no step of the loop or
of `handleRead` takes the registration back. -/
theorem listening_run (h : Listening c s₁) (hrun : Run (Step c) s₁ ls s) : Listening c s :=
  hrun.preserves h fun _ _ _ hx hstep => hx.step hstep

/-! ### What is handed over -/

omit [DecidableEq κ] in
/-- The ledger of a run is kept step by step. -/
theorem ledger_concat (s₁ : State κ A) (ls : List (Label κ A)) (l : Label κ A) :
    ledger s₁ (ls ++ [l]) = (ledger s₁ ls).after s₁.localAddr l := by
  rw [ledger, List.foldl_append]
  rfl

/-- A failure that `handleRead` survives while a callback is set. -/
def Slips (s : State κ A) (l : Label κ A) : Prop :=
  s.newConnectionCallback = true ∧ ∃ errno stack, l = .read (.fail errno) stack

omit [DecidableEq κ] in
/-- Only a failure of `accept4` can slip through. -/
theorem not_slips (hl : ∀ errno stack, l ≠ .read (.fail errno) stack) : ¬ Slips s l :=
  fun ⟨_, errno, stack, h⟩ => hl errno stack h

/-- **What a step enters in the books**: what should be entered, unless a failure is
met while a callback is set; then the callback gets -1. -/
theorem Step.books (hstep : Step c s l t) : t.localAddr = s.localAddr ∧
    (¬ Slips s l ∧ t.books = s.books.after s.localAddr l ∨
      Slips s l ∧ ∃ stack, t.books =
        { s.books with handed := s.books.handed ++ [(-1, s.localAddr, stack)] }) := by
  cases hstep with
  | loop _ _ _ _ _ =>
    exact ⟨rfl, .inl ⟨not_slips (by rintro _ _ ⟨⟩), rfl⟩⟩
  | setNewConnectionCallback set =>
    exact ⟨rfl, .inl ⟨not_slips (by rintro _ _ ⟨⟩), rfl⟩⟩
  | @read lp o stack _ hstep hread =>
    rcases handleRead_cases hread with ⟨hset, rfl⟩ | ⟨hset, rfl⟩
    · cases o with
      | ok fd peer valid =>
        refine ⟨rfl, .inl ⟨not_slips (by rintro _ _ ⟨⟩), ?_⟩⟩
        exact (if_pos hset).symm
      | fail errno => exact ⟨rfl, .inr ⟨⟨hset, errno, stack, rfl⟩, stack, rfl⟩⟩
    · cases o with
      | ok fd peer valid =>
        rw [AcceptResult.sockfd, close_of_nonneg _ valid]
        refine ⟨rfl, .inl ⟨not_slips (by rintro _ _ ⟨⟩), ?_⟩⟩
        exact (if_neg (Bool.eq_false_iff.1 hset)).symm
      | fail errno =>
        rw [AcceptResult.sockfd, close_of_neg _ (by decide)]
        refine ⟨rfl, .inl ⟨fun hslip => ?_, rfl⟩⟩
        exact Bool.false_ne_true (hset.symm.trans hslip.1)

/-- The local address is set by the constructor and never again. -/
theorem localAddr_run (hrun : Run (Step c) s₁ ls s) : s.localAddr = s₁.localAddr := by
  induction hrun with
  | nil => rfl
  | snoc _ hstep ih => exact hstep.books.1.trans ih

omit [DecidableEq κ] in
/-- Only the ledger's own notion of the callback decides its next one. -/
theorem after_callback {g g' : Ledger A} (h : g.callback = g'.callback) (a : A) (l : Label κ A) :
    (g.after a l).callback = (g'.after a l).callback := by
  cases l with
  | loop l => exact h
  | setNewConnectionCallback set => rfl
  | read o stack =>
    cases o with
    | fail errno => exact h
    | ok fd peer valid =>
      simp only [Ledger.after]
      split <;> split <;> exact h

/-- The ledger knows the callback, whatever happens. -/
theorem callback_run (hrun : Run (Step c) s₁ ls s) :
    s.newConnectionCallback = (ledger s₁ ls).callback := by
  induction hrun with
  | nil => rfl
  | @snoc ls s l t hls hstep ih =>
    have hcallback : s.books.callback = (ledger s₁ ls).callback := ih
    rw [ledger_concat, ← localAddr_run hls, ← after_callback hcallback]
    rcases hstep.books.2 with ⟨-, h⟩ | ⟨⟨-, errno, stack, rfl⟩, stack', h⟩
    · exact congrArg Ledger.callback h
    · exact congrArg Ledger.callback h

omit [DecidableEq κ] in
/-- A run without failures has none in its beginning. -/
theorem NoFailure.of_append {pre post : List (Label κ A)} (h : NoFailure s₁ (pre ++ post)) :
    NoFailure s₁ pre := by
  rintro pre' errno stack post' rfl
  exact h pre' errno stack (post' ++ post) (by rw [List.append_assoc, List.cons_append])

/-- **Without such a failure the books are right**: what was handed over and what was closed
is what the ledger has, connection by connection and in their order. -/
theorem books_run (hrun : Run (Step c) s₁ ls s) (hno : NoFailure s₁ ls) :
    s.books = ledger s₁ ls := by
  induction hrun with
  | nil => rfl
  | @snoc ls s l t hls hstep ih =>
    rcases hstep.books.2 with ⟨-, h⟩ | ⟨⟨hset, errno, stack, rfl⟩, -⟩
    · rw [h, ih hno.of_append, ledger_concat, localAddr_run hls]
    · have hunset := hno ls errno stack [] rfl
      rw [← callback_run hls, hset] at hunset
      cases hunset

/-- **When the accepted sockets are handed over.** Along every run from `listen()` on,
exactly the connections that `::accept4` gives are handed to the callback, if and only if no
failure of `::accept4` is met while a callback is set: `handleRead` goes on with the
descriptor -1 where `accept` returns one. -/
theorem handsOver_iff (h₀ : Fresh c s₀) (hlisten : listen c s₀ ret = some s₁)
    (hrun : Run (Step c) s₁ ls s) : HandsOver c s₁ ls ↔ NoFailure s₁ ls := by
  constructor
  · rintro hands pre errno stack post rfl
    obtain ⟨t, t', hpre, hstep, -⟩ := hrun.split
    rw [← callback_run hpre, ← Bool.not_eq_true]
    intro hset
    have hbefore := hands.handed pre _ t rfl hpre
    have hafter := hands.handed (pre ++ [.read (.fail errno) stack]) post t'
      (by rw [List.append_assoc]; rfl) (hpre.snoc hstep)
    rw [ledger_concat] at hafter
    rcases hstep.books.2 with ⟨hno, -⟩ | ⟨-, stack', h⟩
    · exact hno ⟨hset, errno, stack, rfl⟩
    · have hmore : t'.handed = t.handed ++ [(-1, t.localAddr, stack')] := congrArg Ledger.handed h
      have hsame : t'.handed = (ledger s₁ pre).handed := hafter
      rw [hmore, hbefore] at hsame
      simp at hsame
  · intro hno
    refine ⟨?_, ?_, ?_⟩
    · rintro pre post t rfl hpre
      exact congrArg Ledger.handed (books_run hpre hno.of_append)
    · rintro pre post t rfl hpre
      exact congrArg Ledger.closed (books_run hpre hno.of_append)
    · rintro pre post t rfl hpre
      exact (listening_run (listening_of_listen h₀ hlisten).1 hpre).ready

/-- An acceptor on a loop of its own, with a callback, before `loop()`. -/
def oneAcceptor : State Unit ℕ where
  loop :=
    { poller := { channel := fun _ => Channel.init 5, interest := fun _ => none }
      expired := fun _ => false
      point := .outside }
  localAddr := 80
  newConnectionCallback := true
  handed := []
  closed := []

/-- A loop with one acceptor on it, just constructed. -/
theorem fresh_oneAcceptor : Fresh () oneAcceptor :=
  ⟨⟨fun _ _ _ => rfl, fun _ => rfl, fun _ => rfl⟩, rfl, rfl, rfl⟩

/-- A poll returns the listening socket, and its read callback accepts. -/
def accepting (o : AcceptResult ℕ) (stack : ℕ) : List (Label Unit ℕ) :=
  [.loop .other, .loop (.poll [((), EPOLLIN)]), .loop .other, .loop .other, .loop .other,
    .read o stack]

/-- **One turn of the loop accepts one connection**: from `listen()` on, a poll that returns
the socket leads to `handleRead`, and what `accept4` gave is handed over. -/
theorem exists_accepting {o : AcceptResult ℕ} (ho : ¬ o.Fatal) (stack : ℕ) : ∃ s₁ s,
    listen () oneAcceptor 0 = some s₁ ∧ Run (Step ()) s₁ (accepting o stack) s ∧
    s.handed = [(o.sockfd, 80, o.addr stack)] := by
  refine ⟨_, _, rfl, (((((Run.nil.snoc
    (.loop (.loop rfl) (by rintro ⟨⟩) (by rintro m ⟨⟩) rfl rfl)).snoc
    (.loop (.poll _ rfl (fun _ _ => rfl) (by decide)) (by rintro ⟨⟩) (by rintro m ⟨⟩) rfl rfl)).snoc
    (.loop (.enter rfl fun _ => rfl) (by rintro ⟨⟩) (by rintro m ⟨⟩) rfl rfl)).snoc
    (.loop (.pass rfl rfl) (by rintro ⟨⟩) (by rintro m ⟨⟩) rfl rfl)).snoc
    (.loop (.pass rfl rfl) (by rintro ⟨⟩) (by rintro m ⟨⟩) rfl rfl)).snoc
    (.read (.invoke rfl rfl) ((if_neg ho).trans (if_pos rfl))), rfl⟩

/-- The hypotheses of `handsOver_iff` are satisfiable: an acceptor that listens and accepts
one connection, which is handed over. -/
theorem handsOver_iff_oneAcceptor : ∃ s₁ s, Fresh () oneAcceptor ∧
    listen () oneAcceptor 0 = some s₁ ∧
    Run (Step ()) s₁ (accepting (.ok 7 9 (by decide)) 0) s ∧
    (HandsOver () s₁ (accepting (.ok 7 9 (by decide)) 0) ↔
      NoFailure s₁ (accepting (.ok 7 9 (by decide)) 0)) := by
  obtain ⟨s₁, s, hlisten, hrun, -⟩ :=
    exists_accepting (show ¬ (AcceptResult.ok 7 9 (by decide) : AcceptResult ℕ).Fatal from id) 0
  exact ⟨s₁, s, fresh_oneAcceptor, hlisten, hrun, handsOver_iff fresh_oneAcceptor hlisten hrun⟩

/-- **A connection aborted is handed over**, with the descriptor -1 and whatever was on the
stack in place of the address of the peer. -/
theorem handed_aborted : ∃ s₁ s, Fresh () oneAcceptor ∧ listen () oneAcceptor 0 = some s₁ ∧
    Run (Step ()) s₁ (accepting (.fail ECONNABORTED) 7) s ∧ s.handed = [(-1, 80, 7)] := by
  obtain ⟨s₁, s, hlisten, hrun, hhanded⟩ :=
    exists_accepting (show ¬ (AcceptResult.fail ECONNABORTED : AcceptResult ℕ).Fatal by decide) 7
  exact ⟨s₁, s, fresh_oneAcceptor, hlisten, hrun, hhanded⟩

end Acceptor
end BearRpc
