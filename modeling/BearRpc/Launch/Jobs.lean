/-
# Waiting for the jobs

The second half of `submit_jobs` (`tools/launch.py`), once the threads of
`execute_remote` run: the cleanup process is started, the handler of `SIGINT` is set, the
loop joins the threads and takes their codes from `state_q`, and the cleanup process is told
to exit.  `SIGINT` may come at any time, to the launcher and to the cleanup process.

Each thread puts one code and then ends, so a thread that was joined has left a code for
`state_q.get()`, though it may be the one of another thread.  In every run the loop never
waits at an empty queue, the launcher fails exactly if a job did, and remote processes are
killed only if it was interrupted before it sent `'exit'` (`jobs_correct`).

There are two gaps.  An interrupt before the handler is set ends the launcher by
`KeyboardInterrupt`: nothing is ever killed, and Python waits for a cleanup process that
waits for a message.  And the cleanup process ignores `SIGINT` only once it runs: an
interrupt that reaches it before is its end.
-/

import BearRpc.Launch.Cleanup
import BearRpc.Theory.Transition
import Mathlib.Algebra.BigOperators.Fin
import Mathlib.Algebra.Order.BigOperators.Group.Finset
import Mathlib.Data.Fintype.Fin

namespace BearRpc
namespace Launch

open Theory Function

/-- Where a thread of `execute_remote` is. -/
inductive Job where
  /-- in `subprocess.check_call` -/
  | running
  /-- has put its code into `state_q` -/
  | reported (code : ℤ)
  | ended (code : ℤ)
  deriving DecidableEq, Repr

/-- Where the launcher is. -/
inductive Main where
  /-- in front of `process.start()` -/
  | preparing
  /-- behind it, in front of `signal.signal(signal.SIGINT, signal_handler)` -/
  | spawned
  /-- at `thread.join()` of the thread with that number, or behind the last one -/
  | joining (i : ℕ)
  /-- at `state_q.get()` -/
  | getting (i : ℕ)
  /-- in `process.join()` -/
  | reaping
  | returned
  /-- has left by `sys.exit(-1)` -/
  | failed
  /-- has left the handler by `sys.exit(0)`; Python waits for the cleanup process -/
  | stopping
  | stopped
  /-- has left by `KeyboardInterrupt`; Python waits for the cleanup process -/
  | interrupted
  /-- `KeyboardInterrupt` without a cleanup process, or again while Python waits -/
  | aborted
  deriving DecidableEq, Repr

/-- Where the cleanup process is. -/
inductive Cleaner (χ : Type) where
  /-- not started -/
  | absent
  /-- in front of `signal.signal(signal.SIGINT, signal.SIG_IGN)` -/
  | starting
  /-- in `conn.recv()` -/
  | receiving
  | killing (todo : List χ)
  | ended
  /-- `KeyboardInterrupt` -/
  | dead

/-- The launcher, its threads and the cleanup process. -/
structure State (n : ℕ) (χ : Type) where
  job : Fin n → Job
  state_q : List ℤ
  err : ℤ
  main : Main
  /-- the messages on their way -/
  pipe : List Message
  cleaner : Cleaner χ

/-- What happens. -/
inductive Act (n : ℕ) (χ : Type) where
  | report (i : Fin n) (code : ℤ)
  | finish (i : Fin n)
  /-- `process.start()` -/
  | spawn
  /-- the handler of the launcher is set -/
  | handle
  | join
  | get (code : ℤ)
  /-- `conn2.send('exit')` -/
  | exit
  | reap
  /-- `SIGINT` in the launcher, with its handler -/
  | sigint
  /-- `SIGINT` in the launcher, without it -/
  | interrupt
  /-- the cleanup process ignores `SIGINT` from now on -/
  | ignore
  /-- `SIGINT` in the cleanup process before -/
  | hit
  | receive (data : Message)
  | kill (command : χ)
  | cleaned
  | leave

variable {n : ℕ} {χ : Type} {commands : List χ} {s s' : State n χ} {ls : List (Act n χ)}
  {a : Act n χ}

/-- The handler can run. -/
def Main.Handles : Main → Prop
  | .joining _ | .getting _ | .reaping | .stopping => True
  | _ => False

/-- The launcher is gone. -/
def Main.Over : Main → Prop
  | .returned | .failed | .stopped | .aborted => True
  | _ => False

/-- An interrupt has ended it without its handler. -/
def Main.Broken : Main → Prop
  | .interrupted | .aborted => True
  | _ => False

/-- The cleanup process is gone. -/
def Cleaner.Gone : Cleaner χ → Prop
  | .ended | .dead => True
  | _ => False

/-- One step; `commands` is what the cleanup process sends when it has to clean up. -/
inductive Step (commands : List χ) : State n χ → Act n χ → State n χ → Prop
  /-- `state_q.put(..)`, at the end of `run` -/
  | report {s : State n χ} {i code} (h : s.job i = .running) :
      Step commands s (.report i code)
        { s with job := update s.job i (.reported code), state_q := s.state_q ++ [code] }
  | finish {s : State n χ} {i code} (h : s.job i = .reported code) :
      Step commands s (.finish i) { s with job := update s.job i (.ended code) }
  | spawn {s : State n χ} (h : s.main = .preparing) :
      Step commands s .spawn { s with main := .spawned, cleaner := .starting }
  | handle {s : State n χ} (h : s.main = .spawned) :
      Step commands s .handle { s with main := .joining 0 }
  | join {s : State n χ} {i code} (h : s.main = .joining i) (hi : i < n)
      (hended : s.job ⟨i, hi⟩ = .ended code) :
      Step commands s .join { s with main := .getting i }
  | get {s : State n χ} {i code rest} (h : s.main = .getting i) (hq : s.state_q = code :: rest) :
      Step commands s (.get code)
        { s with
          state_q := rest
          err := if code ≠ 0 then code else s.err
          main := .joining (i + 1) }
  | exit {s : State n χ} (h : s.main = .joining n) :
      Step commands s .exit { s with main := .reaping, pipe := s.pipe ++ [.exit] }
  | reap {s : State n χ} (h : s.main = .reaping) (hgone : s.cleaner.Gone) :
      Step commands s .reap { s with main := if s.err ≠ 0 then .failed else .returned }
  /-- `conn2.send('cleanup')` and `sys.exit(0)` -/
  | sigint {s : State n χ} (h : s.main.Handles) :
      Step commands s .sigint { s with main := .stopping, pipe := s.pipe ++ [.cleanup] }
  /-- the same while Python waits, which it then gives up -/
  | abandon {s : State n χ} (h : s.main = .stopping) :
      Step commands s .sigint { s with main := .stopped, pipe := s.pipe ++ [.cleanup] }
  | interrupt {s : State n χ} (h : s.main = .spawned) :
      Step commands s .interrupt { s with main := .interrupted }
  | abort {s : State n χ} (h : s.main = .preparing ∨ s.main = .interrupted) :
      Step commands s .interrupt { s with main := .aborted }
  | ignore {s : State n χ} (h : s.cleaner = .starting) :
      Step commands s .ignore { s with cleaner := .receiving }
  | hit {s : State n χ} (h : s.cleaner = .starting) :
      Step commands s .hit { s with cleaner := .dead }
  | receive {s : State n χ} {data rest} (h : s.cleaner = .receiving)
      (hpipe : s.pipe = data :: rest) :
      Step commands s (.receive data)
        { s with
          pipe := rest
          cleaner := if data = .exit then .ended else .killing commands }
  | kill {s : State n χ} {command todo} (h : s.cleaner = .killing (command :: todo)) :
      Step commands s (.kill command) { s with cleaner := .killing todo }
  | cleaned {s : State n χ} (h : s.cleaner = .killing []) :
      Step commands s .cleaned { s with cleaner := .ended }
  /-- the cleanup process is gone -/
  | leave {s : State n χ} (h : s.main = .stopping ∨ s.main = .interrupted)
      (hgone : s.cleaner.Gone) :
      Step commands s .leave
        { s with main := if s.main = .stopping then .stopped else .aborted }

/-- All threads have been started. -/
def start (n : ℕ) (χ : Type) : State n χ :=
  ⟨fun _ => .running, [], 0, .preparing, [], .absent⟩

/-! ### What a run has done -/

/-- The code it takes from the queue. -/
def Act.gotten : Act n χ → List ℤ
  | .get code => [code]
  | _ => []

/-- The message it sends to the cleanup process. -/
def Act.sent : Act n χ → List Message
  | .exit => [.exit]
  | .sigint => [.cleanup]
  | _ => []

/-- The message the cleanup process receives. -/
def Act.received : Act n χ → List Message
  | .receive data => [data]
  | _ => []

/-- The command the cleanup process sends to a remote machine. -/
def Act.killed : Act n χ → List χ
  | .kill command => [command]
  | _ => []

def gotten (ls : List (Act n χ)) : List ℤ := ls.flatMap Act.gotten

def sent (ls : List (Act n χ)) : List Message := ls.flatMap Act.sent

def received (ls : List (Act n χ)) : List Message := ls.flatMap Act.received

def killed (ls : List (Act n χ)) : List χ := ls.flatMap Act.killed

/-- `err` after these codes: the last one that is not 0. -/
def lastError (codes : List ℤ) : ℤ := codes.foldl (fun err code => if code ≠ 0 then code else err) 0

/-- What a thread has put into the queue. -/
def Job.codes : Job → Multiset ℤ
  | .running => 0
  | .reported code | .ended code => {code}

/-- All threads with a smaller number have ended. -/
def State.Joined (s : State n χ) (i : ℕ) : Prop :=
  ∀ j : Fin n, (j : ℕ) < i → ∃ code, s.job j = .ended code

/-- How far the launcher is: the threads it has joined, the codes it has, what it has sent. -/
def State.Place (s : State n χ) (codes : List ℤ) (messages : List Message) : Main → Prop
  | .preparing | .spawned => codes = [] ∧ messages = []
  | .joining i => i ≤ n ∧ s.Joined i ∧ codes.length = i ∧ messages = []
  | .getting i => i < n ∧ s.Joined (i + 1) ∧ codes.length = i ∧ messages = []
  | .reaping => s.Joined n ∧ codes.length = n ∧ messages = [.exit]
  | .returned => s.Joined n ∧ codes.length = n ∧ messages = [.exit] ∧ s.cleaner.Gone ∧ s.err = 0
  | .failed => s.Joined n ∧ codes.length = n ∧ messages = [.exit] ∧ s.cleaner.Gone ∧ s.err ≠ 0
  | .stopping | .stopped => messages ≠ []
  | .interrupted | .aborted => messages = []

/-- How far the cleanup process is. -/
def Cleaner.Place (commands : List χ) (messages : List Message) (done : List χ) :
    Cleaner χ → Prop
  | .absent | .starting | .receiving | .dead => messages = [] ∧ done = []
  | .killing todo => messages = [.cleanup] ∧ done ++ todo = commands
  | .ended => messages = [.exit] ∧ done = [] ∨ messages = [.cleanup] ∧ done = commands

/-- What holds between two steps. -/
structure Inv (commands : List χ) (ls : List (Act n χ)) (s : State n χ) : Prop where
  balance : (gotten ls : Multiset ℤ) + s.state_q = ∑ i, (s.job i).codes
  err : s.err = lastError (gotten ls)
  pipe : sent ls = received ls ++ s.pipe
  main : s.Place (gotten ls) (sent ls) s.main
  cleaner : s.cleaner.Place commands (received ls) (killed ls)
  order : ∀ m ∈ (sent ls).tail, m = .cleanup
  done : Message.exit ∈ sent ls → s.Joined n
  /-- the cleanup process is started before anything else -/
  present : s.cleaner = .absent → s.main = .preparing ∨ s.main = .aborted

/-! ### What each step keeps -/

/-- One more step of the run adds what it takes from the queue, if it takes anything. -/
theorem gotten_concat : gotten (ls ++ [a]) = gotten ls ++ a.gotten := by
  simp [gotten]

/-- One more step adds what it sends to the cleanup process. -/
theorem sent_concat : sent (ls ++ [a]) = sent ls ++ a.sent := by
  simp [sent]

/-- One more step adds what the cleanup process receives. -/
theorem received_concat : received (ls ++ [a]) = received ls ++ a.received := by
  simp [received]

/-- One more step adds what it kills. -/
theorem killed_concat : killed (ls ++ [a]) = killed ls ++ a.killed := by
  simp [killed]

/-- One thread has moved on. -/
theorem sum_update (job : Fin n → Job) (i : Fin n) (x : Job) :
    (∑ j, (update job i x j).codes) + (job i).codes = (∑ j, (job j).codes) + x.codes := by
  have heq : (fun j => (update job i x j).codes) = update (fun j => (job j).codes) i x.codes :=
    funext fun j => Function.apply_update (fun _ => Job.codes) job i x j
  rw [heq, Finset.sum_update_of_mem (Finset.mem_univ i),
    Finset.sum_eq_add_sum_sdiff_singleton_of_mem (Finset.mem_univ i) fun j => (job j).codes]
  ac_rfl

/-- A thread that had not ended has moved on. -/
theorem State.Joined.update {i : Fin n} {x : Job} {k : ℕ} (h : s.Joined k)
    (hi : ∀ code, s.job i ≠ .ended code) {s' : State n χ} (hs : s'.job = update s.job i x) :
    s'.Joined k := by
  intro j hj
  obtain ⟨code, hcode⟩ := h j hj
  have hne : j ≠ i := fun heq => hi code (heq ▸ hcode)
  exact ⟨code, by rw [hs, update_of_ne hne, hcode]⟩

/-- The launcher's place does not change by what a thread does. -/
theorem State.Place.update {codes : List ℤ} {messages : List Message} {i : Fin n} {x : Job}
    {m : Main} (h : s.Place codes messages m) (hi : ∀ code, s.job i ≠ .ended code)
    {s' : State n χ} (hs : s'.job = update s.job i x) (hc : s'.cleaner = s.cleaner)
    (he : s'.err = s.err) : s'.Place codes messages m := by
  cases m with
  | joining | getting => exact ⟨h.1, h.2.1.update hi hs, h.2.2⟩
  | reaping => exact ⟨h.1.update hi hs, h.2⟩
  | returned | failed =>
    simp only [Place, hc, he] at h ⊢
    exact ⟨h.1.update hi hs, h.2⟩
  | preparing | spawned | stopping | stopped | interrupted | aborted => exact h

/-- The cleanup process has moved on, and it was not gone. -/
theorem State.Place.clean {codes : List ℤ} {messages : List Message} {m : Main}
    (h : s.Place codes messages m) (hgone : ¬ s.cleaner.Gone) {t : State n χ}
    (hjob : t.job = s.job) : t.Place codes messages m := by
  have hjoined : ∀ {k}, s.Joined k → t.Joined k := fun hk j hj => hjob ▸ hk j hj
  cases m with
  | joining | getting => exact ⟨h.1, hjoined h.2.1, h.2.2⟩
  | reaping => exact ⟨hjoined h.1, h.2⟩
  | returned | failed => exact absurd h.2.2.2.1 hgone
  | preparing | spawned | stopping | stopped | interrupted | aborted => exact h

/-- A step that takes no code, sends nothing and receives nothing. -/
theorem Inv.silent (hg : a.gotten = []) (hs : a.sent = []) (hr : a.received = [])
    (hk : a.killed = []) (h : Inv commands ls s) : Inv commands (ls ++ [a]) s := by
  obtain ⟨hbalance, herr, hpipe, hmain, hcleaner, horder, hdone, hpresent⟩ := h
  refine ⟨?_, ?_, ?_, ?_, ?_, ?_, ?_, hpresent⟩ <;> simpa only [gotten_concat, sent_concat,
    received_concat, killed_concat, hg, hs, hr, hk, List.append_nil]

/-- Nothing was received and nothing killed before anything was sent. -/
theorem Inv.quiet (h : Inv commands ls s) (hsent : sent ls = []) :
    received ls = [] ∧ killed ls = [] := by
  have hpipe := h.pipe
  rw [hsent, eq_comm, List.append_eq_nil_iff] at hpipe
  have hcleaner := h.cleaner
  rw [hpipe.1] at hcleaner
  refine ⟨hpipe.1, ?_⟩
  cases hc : s.cleaner with
  | killing =>
    rw [hc] at hcleaner
    exact absurd hcleaner.1 (List.cons_ne_nil _ _).symm
  | ended =>
    rw [hc] at hcleaner
    rcases hcleaner with ⟨h, -⟩ | ⟨h, -⟩ <;> cases h
  | _ =>
    rw [hc] at hcleaner
    exact hcleaner.2

/-- The launcher is elsewhere, with the same codes and messages. -/
theorem Inv.move (hg : a.gotten = []) (hs : a.sent = []) (hr : a.received = [])
    (hk : a.killed = []) (h : Inv commands ls s) {m : Main}
    (hm : s.Place (gotten ls) (sent ls) m)
    (hpresent : s.cleaner = .absent → m = .preparing ∨ m = .aborted) :
    Inv commands (ls ++ [a]) { s with main := m } := by
  have hplace : ({ s with main := m } : State n χ).Place (gotten ls) (sent ls) m := by
    cases m <;> exact hm
  exact .silent hg hs hr hk
    ⟨h.balance, h.err, h.pipe, hplace, h.cleaner, h.order, h.done, hpresent⟩

/-- The cleanup process is elsewhere, and has received and killed nothing. -/
theorem Inv.clean (hg : a.gotten = []) (hs : a.sent = []) (hr : a.received = [])
    (hk : a.killed = []) (h : Inv commands ls s) {c : Cleaner χ} (hgone : ¬ s.cleaner.Gone)
    (hc : c.Place commands (received ls) (killed ls)) (habsent : c ≠ .absent) :
    Inv commands (ls ++ [a]) { s with cleaner := c } :=
  .silent hg hs hr hk ⟨h.balance, h.err, h.pipe, h.main.clean hgone rfl, hc, h.order, h.done,
    fun heq => absurd heq habsent⟩

/-- A message is sent by the handler. -/
theorem Inv.signal (h : Inv commands ls s) {m : Main} (hm : m = .stopping ∨ m = .stopped)
    (hpresent : s.cleaner ≠ .absent) :
    Inv commands (ls ++ [.sigint]) { s with main := m, pipe := s.pipe ++ [.cleanup] } := by
  obtain ⟨hbalance, herr, hpipe, -, hcleaner, horder, hdone, -⟩ := h
  refine ⟨?_, ?_, ?_, ?_, ?_, ?_, ?_, fun heq => absurd heq hpresent⟩ <;>
    simp only [gotten_concat, sent_concat, received_concat, killed_concat, Act.gotten, Act.sent,
      Act.received, Act.killed, List.append_nil]
  · exact hbalance
  · exact herr
  · rw [hpipe, List.append_assoc]
  · rcases hm with rfl | rfl <;>
      exact List.append_ne_nil_of_right_ne_nil _ (List.cons_ne_nil _ _)
  · exact hcleaner
  · intro m hm
    cases hsent : sent ls with
    | nil => simp [hsent] at hm
    | cons m' ms =>
      rw [hsent] at hm horder
      exact (List.mem_append.1 hm).elim (horder m) List.mem_singleton.1
  · intro he
    refine hdone ((List.mem_append.1 he).resolve_right fun h => ?_)
    cases List.mem_singleton.1 h

/-- A thread has moved on, and all codes are where they were or in the queue. -/
theorem Inv.thread (hg : a.gotten = []) (hs : a.sent = []) (hr : a.received = [])
    (hk : a.killed = []) (h : Inv commands ls s) {i : Fin n} {x : Job} {codes : List ℤ}
    (hne : ∀ code, s.job i ≠ .ended code)
    (hcodes : (s.job i).codes + (codes : Multiset ℤ) = x.codes) :
    Inv commands (ls ++ [a])
      { s with job := update s.job i x, state_q := s.state_q ++ codes } := by
  have hsum := sum_update s.job i x
  rw [← hcodes, ← add_assoc, add_right_comm, add_left_inj] at hsum
  refine .silent hg hs hr hk ⟨?_, h.err, h.pipe, h.main.update hne rfl rfl rfl, h.cleaner,
    h.order, fun he => (h.done he).update hne rfl, h.present⟩
  dsimp only
  rw [hsum, ← h.balance, ← Multiset.coe_add, add_assoc]

/-- The launcher takes a code out of the queue: it has one more, and the queue one less. -/
theorem Inv.get (h : Inv commands ls s) {i : ℕ} {code : ℤ} {rest : List ℤ}
    (hm : s.main = .getting i) (hq : s.state_q = code :: rest) (hpresent : s.cleaner ≠ .absent) :
    Inv commands (ls ++ [.get code])
      { s with
        state_q := rest
        err := if code ≠ 0 then code else s.err
        main := .joining (i + 1) } := by
  obtain ⟨hbalance, herr, hpipe, hmain, hcleaner, horder, hdone, -⟩ := h
  rw [hm] at hmain
  rw [hq] at hbalance
  refine ⟨?_, ?_, ?_, ?_, ?_, ?_, ?_, fun hc => absurd hc hpresent⟩ <;>
    simp only [gotten_concat, sent_concat, received_concat, killed_concat, Act.gotten, Act.sent,
      Act.received, Act.killed, List.append_nil]
  · rw [← hbalance, ← Multiset.coe_add, add_assoc]
    rfl
  · rw [herr, lastError, lastError, List.foldl_concat]
  · exact hpipe
  · refine ⟨hmain.1, hmain.2.1, ?_, hmain.2.2.2⟩
    rw [List.length_append, hmain.2.2.1]
    rfl
  · exact hcleaner
  · exact horder
  · exact hdone

/-- The launcher tells the cleanup process to exit, when it has joined all threads. -/
theorem Inv.exit (h : Inv commands ls s) (hm : s.main = .joining n)
    (hpresent : s.cleaner ≠ .absent) :
    Inv commands (ls ++ [.exit]) { s with main := .reaping, pipe := s.pipe ++ [.exit] } := by
  obtain ⟨hbalance, herr, hpipe, hmain, hcleaner, -, -, -⟩ := h
  rw [hm] at hmain
  obtain ⟨-, hjoined, hlen, hsent⟩ := hmain
  refine ⟨?_, ?_, ?_, ?_, ?_, ?_, ?_, fun hc => absurd hc hpresent⟩ <;>
    simp only [gotten_concat, sent_concat, received_concat, killed_concat, Act.gotten, Act.sent,
      Act.received, Act.killed, List.append_nil]
  · exact hbalance
  · exact herr
  · rw [hpipe, List.append_assoc]
  · exact ⟨hjoined, hlen, by rw [hsent, List.nil_append]⟩
  · exact hcleaner
  · simp [hsent]
  · exact fun _ => hjoined

/-- The cleanup process receives a message, and does what it says. -/
theorem Inv.receive (h : Inv commands ls s) {data : Message} {rest : List Message}
    (hc : s.cleaner = .receiving) (hp : s.pipe = data :: rest) :
    Inv commands (ls ++ [.receive data])
      { s with
        pipe := rest
        cleaner := if data = .exit then .ended else .killing commands } := by
  have hplace := h.main.clean (t := { s with
    pipe := rest
    cleaner := if data = .exit then .ended else .killing commands }) (by rw [hc]; exact id) rfl
  obtain ⟨hbalance, herr, hpipe, -, hcleaner, horder, hdone, -⟩ := h
  rw [hc] at hcleaner
  refine ⟨?_, ?_, ?_, ?_, ?_, ?_, ?_, fun heq => ?_⟩
  rotate_right
  · dsimp only at heq
    split_ifs at heq
  all_goals simp only [gotten_concat, sent_concat, received_concat, killed_concat, Act.gotten,
    Act.sent, Act.received, Act.killed, List.append_nil]
  · exact hbalance
  · exact herr
  · rw [hpipe, hp, List.append_assoc]
    rfl
  · exact hplace
  · rw [hcleaner.1, hcleaner.2]
    cases data with
    | cleanup => exact ⟨rfl, rfl⟩
    | exit => exact .inl ⟨rfl, rfl⟩
  · exact horder
  · exact hdone

/-- The cleanup process sends the next command. -/
theorem Inv.kill (h : Inv commands ls s) {command : χ} {todo : List χ}
    (hc : s.cleaner = .killing (command :: todo)) :
    Inv commands (ls ++ [.kill command]) { s with cleaner := .killing todo } := by
  have hplace := h.main.clean (t := { s with cleaner := .killing todo }) (by rw [hc]; exact id) rfl
  obtain ⟨hbalance, herr, hpipe, -, hcleaner, horder, hdone, -⟩ := h
  rw [hc] at hcleaner
  refine ⟨?_, ?_, ?_, ?_, ?_, ?_, ?_, fun heq => by cases heq⟩ <;>
    simp only [gotten_concat, sent_concat, received_concat, killed_concat, Act.gotten, Act.sent,
      Act.received, Act.killed, List.append_nil]
  · exact hbalance
  · exact herr
  · exact hpipe
  · exact hplace
  · exact ⟨hcleaner.1, by rw [← hcleaner.2, List.append_assoc]; rfl⟩
  · exact horder
  · exact hdone

/-- **The step lemma**: whatever the threads, the launcher and the cleanup process do next,
the codes in the queue, the messages in the pipe and the signals sent stay accounted for. -/
theorem Inv.step (h : Inv commands ls s) (hstep : Step commands s a s') :
    Inv commands (ls ++ [a]) s' := by
  have hmain := h.main
  have hcleaner := h.cleaner
  have hpresent : s.main ≠ .preparing → s.main ≠ .aborted → s.cleaner ≠ .absent :=
    fun hp ha hc => (h.present hc).elim hp ha
  cases hstep with
  | @report i code hi =>
    refine h.thread rfl rfl rfl rfl (by simp [hi]) ?_
    rw [hi, Job.codes, Job.codes, zero_add]
    rfl
  | @finish i code hi =>
    have hthread : Inv commands (ls ++ [.finish i])
        { s with job := update s.job i (.ended code), state_q := s.state_q ++ [] } :=
      h.thread rfl rfl rfl rfl (by simp [hi]) (by rw [hi]; rfl)
    rwa [List.append_nil] at hthread
  | spawn hm =>
    rw [hm] at hmain
    obtain ⟨hr, hk⟩ := h.quiet hmain.2
    refine .silent rfl rfl rfl rfl ⟨h.balance, h.err, h.pipe, hmain, ?_, h.order, h.done, ?_⟩
    · exact ⟨hr, hk⟩
    · exact fun heq => by cases heq
  | handle hm =>
    rw [hm] at hmain
    refine h.move rfl rfl rfl rfl ⟨Nat.zero_le n, ?_, ?_, hmain.2⟩ fun hc => ?_
    · exact fun j hj => (Nat.not_lt_zero _ hj).elim
    · rw [hmain.1, List.length_nil]
    · exact absurd hc (hpresent (by simp [hm]) (by simp [hm]))
  | @join i code hm hi hended =>
    rw [hm] at hmain
    refine h.move rfl rfl rfl rfl ⟨hi, fun j hj => ?_, hmain.2.2⟩ fun hc => ?_
    · rcases Nat.lt_succ_iff_lt_or_eq.1 hj with hj | rfl
      · exact hmain.2.1 j hj
      · exact ⟨code, hended⟩
    · exact absurd hc (hpresent (by simp [hm]) (by simp [hm]))
  | reap hm hgone =>
    rw [hm] at hmain
    refine h.move rfl rfl rfl rfl ?_ fun hc => ?_
    · split_ifs with hz
      · exact ⟨hmain.1, hmain.2.1, hmain.2.2, hgone, hz⟩
      · exact ⟨hmain.1, hmain.2.1, hmain.2.2, hgone, not_not.1 hz⟩
    · exact absurd hc (hpresent (by simp [hm]) (by simp [hm]))
  | leave hm hgone =>
    refine h.move rfl rfl rfl rfl ?_ fun hc => ?_
    · split_ifs with hs
      · rw [hs] at hmain
        exact hmain
      · rw [hm.resolve_left hs] at hmain
        exact hmain
    · rw [hc] at hgone
      exact hgone.elim
  | interrupt hm =>
    rw [hm] at hmain
    refine h.move rfl rfl rfl rfl hmain.2 fun hc => ?_
    exact absurd hc (hpresent (by simp [hm]) (by simp [hm]))
  | abort hm =>
    refine h.move rfl rfl rfl rfl ?_ fun _ => .inr rfl
    rcases hm with hm | hm <;> rw [hm] at hmain
    · exact hmain.2
    · exact hmain
  | ignore hc =>
    rw [hc] at hcleaner
    exact h.clean rfl rfl rfl rfl (by rw [hc]; exact id) hcleaner (by simp)
  | hit hc =>
    rw [hc] at hcleaner
    exact h.clean rfl rfl rfl rfl (by rw [hc]; exact id) hcleaner (by simp)
  | cleaned hc =>
    rw [hc] at hcleaner
    refine h.clean rfl rfl rfl rfl (by rw [hc]; exact id) (.inr ⟨hcleaner.1, ?_⟩) (by simp)
    rw [← hcleaner.2, List.append_nil]
  | sigint hm =>
    refine h.signal (.inl rfl) (hpresent ?_ ?_) <;>
    · intro heq
      rw [heq] at hm
      exact hm
  | abandon hm => exact h.signal (.inr rfl) (hpresent (by simp [hm]) (by simp [hm]))
  | get hm hq => exact h.get hm hq (hpresent (by simp [hm]) (by simp [hm]))
  | exit hm => exact h.exit hm (hpresent (by simp [hm]) (by simp [hm]))
  | receive hc hp => exact h.receive hc hp
  | kill hc => exact h.kill hc

/-- Before the first step nothing is submitted. -/
theorem inv_start (commands : List χ) : Inv commands [] (start n χ) where
  balance := by simp [gotten, start, Job.codes]
  err := rfl
  pipe := rfl
  main := ⟨rfl, rfl⟩
  cleaner := ⟨rfl, rfl⟩
  order := fun _ hm => (List.not_mem_nil hm).elim
  done := fun he => (List.not_mem_nil he).elim
  present := fun _ => .inl rfl

/-! ### Whole runs -/

/-- The codes in the queue are those of the jobs together. -/
theorem card_codes (job : Fin n → Job) :
    (∑ i, (job i).codes).card = ∑ i, (job i).codes.card :=
  map_sum Multiset.cardHom _ _

/-- As many codes as threads have ended. -/
theorem State.Joined.le_card {k : ℕ} (h : s.Joined k) (hk : k ≤ n) :
    k ≤ (∑ i, (s.job i).codes).card := by
  have hcard : ∑ i : Fin n, (if (i : ℕ) < k then 1 else 0) = k := by
    rw [← Finset.card_filter, Fin.card_filter_val_lt, Nat.min_eq_right hk]
  rw [card_codes]
  refine hcard.symm.le.trans (Finset.sum_le_sum fun i _ => ?_)
  split_ifs with hi
  · obtain ⟨code, hcode⟩ := h i hi
    rw [hcode]
    exact Nat.le_refl 1
  · exact Nat.zero_le _

/-- **When all jobs are joined**, there is one code for each of them: a thread puts its code
before it ends, and puts no second one. -/
theorem State.Joined.card_eq (h : s.Joined n) : (∑ i, (s.job i).codes).card = n := by
  rw [card_codes]
  refine (Finset.sum_congr rfl fun i _ => ?_).trans (Fin.sum_const n 1) |>.trans (by simp)
  obtain ⟨code, hcode⟩ := h i i.2
  rw [hcode]
  rfl

/-- **`get` finds a code**: as many were taken as threads joined before, and one more thread
has ended since. So the loop never waits at `state_q.get()`, though the code may be that of
another thread. -/
theorem Inv.queue_ne_nil (h : Inv commands ls s) {i : ℕ} (hm : s.main = .getting i) :
    s.state_q ≠ [] := by
  have hmain := h.main
  rw [hm] at hmain
  intro hq
  have hcard := congrArg Multiset.card h.balance
  have hle := hmain.2.1.le_card hmain.1
  rw [hq, Multiset.card_add, Multiset.coe_card, hmain.2.2.1, Multiset.coe_card] at hcard
  simp only [List.length_nil] at hcard
  omega

/-- Behind the loop the codes are those of the threads. -/
theorem Inv.mem_gotten (h : Inv commands ls s) (hj : s.Joined n)
    (hlen : (gotten ls).length = n) (code : ℤ) :
    code ∈ gotten ls ↔ ∃ i, s.job i = .ended code := by
  have hcard := congrArg Multiset.card h.balance
  rw [hj.card_eq, Multiset.card_add, Multiset.coe_card, hlen, Multiset.coe_card] at hcard
  have hq : s.state_q = [] := List.length_eq_zero_iff.1 (by omega)
  have hbalance := h.balance
  rw [hq, Multiset.coe_nil, add_zero] at hbalance
  rw [← Multiset.mem_coe, hbalance, Multiset.mem_sum]
  constructor
  · rintro ⟨i, -, hi⟩
    obtain ⟨c, hc⟩ := hj i i.2
    rw [hc, Job.codes, Multiset.mem_singleton] at hi
    exact ⟨i, hi ▸ hc⟩
  · rintro ⟨i, hi⟩
    exact ⟨i, Finset.mem_univ i, by rw [hi]; exact Multiset.mem_singleton_self code⟩

/-- The error the launcher ends with is 0 only if all codes are, and otherwise one of the
codes. -/
theorem lastError_spec (codes : List ℤ) :
    (lastError codes = 0 ↔ ∀ c ∈ codes, c = 0) ∧
      (lastError codes ≠ 0 → lastError codes ∈ codes) := by
  induction codes using List.reverseRecOn with
  | nil => simp [lastError]
  | append_singleton codes c ih =>
    have hstep : lastError (codes ++ [c]) = if c ≠ 0 then c else lastError codes := by
      rw [lastError, List.foldl_concat, lastError]
    rw [hstep]
    split_ifs with hc
    · refine ⟨⟨fun h => absurd h hc, fun h => h c (by simp)⟩, fun _ => by simp⟩
    · obtain rfl := not_not.1 hc
      refine ⟨ih.1.trans ⟨fun h d hd => ?_, fun h d hd => h d (by simp [hd])⟩, fun h => ?_⟩
      · exact (List.mem_append.1 hd).elim (h d) List.mem_singleton.1
      · exact List.mem_append_left _ (ih.2 h)

/-- **The launcher knows whether a job failed**: behind the loop `err` is 0 exactly if all
jobs ended with 0, and otherwise it is the code of one of them. -/
theorem Inv.err_spec (h : Inv commands ls s) (hj : s.Joined n) (hlen : (gotten ls).length = n) :
    (s.err = 0 ↔ ∀ i, s.job i = .ended 0) ∧ (s.err ≠ 0 → ∃ i, s.job i = .ended s.err) := by
  have hmem := h.mem_gotten hj hlen
  have hspec := lastError_spec (gotten ls)
  rw [← h.err] at hspec
  refine ⟨hspec.1.trans ⟨fun hall i => ?_, fun hall c hc => ?_⟩, fun hne => ?_⟩
  · obtain ⟨c, hc⟩ := hj i i.2
    rw [hc, hall c ((hmem c).2 ⟨i, hc⟩)]
  · obtain ⟨i, hi⟩ := (hmem c).1 hc
    rw [hall i] at hi
    exact (Job.ended.inj hi).symm
  · exact (hmem _).1 (hspec.2 hne)

/-- The word `exit` was sent if the launcher came to send it. -/
theorem exit_mem_sent : Message.exit ∈ sent ls ↔ Act.exit ∈ ls := by
  rw [sent, List.mem_flatMap]
  refine ⟨?_, fun h => ⟨_, h, List.mem_singleton_self _⟩⟩
  rintro ⟨a, ha, hm⟩
  cases a with
  | exit => exact ha
  | _ => simp [Act.sent] at hm

/-- What the cleanup process has done when it has ended. -/
theorem Inv.killed_eq (h : Inv commands ls s) (hc : s.cleaner = .ended) :
    (Act.exit ∈ ls → killed ls = []) ∧ (Act.exit ∉ ls → killed ls = commands) := by
  have hcleaner := h.cleaner
  have horder := h.order
  rw [← exit_mem_sent]
  rw [hc] at hcleaner
  rw [h.pipe] at horder ⊢
  rcases hcleaner with ⟨hr, hk⟩ | ⟨hr, hk⟩ <;> rw [hr] at horder ⊢
  · exact ⟨fun _ => hk, fun hnot => absurd (List.mem_cons_self ..) hnot⟩
  · refine ⟨fun hmem => ?_, fun _ => hk⟩
    rcases List.mem_cons.1 hmem with heq | hmem
    · cases heq
    · cases horder _ hmem

/-- Nothing is killed unless the launcher was interrupted before it sent `'exit'`. -/
theorem Inv.killed_only (h : Inv commands ls s) (hk : killed ls ≠ []) :
    Act.sigint ∈ ls ∧ Act.exit ∉ ls := by
  have hcleaner := h.cleaner
  have horder := h.order
  have hreceived : received ls = [.cleanup] := by
    cases hc : s.cleaner with
    | killing =>
      rw [hc] at hcleaner
      exact hcleaner.1
    | ended =>
      rw [hc] at hcleaner
      exact (hcleaner.resolve_left fun h => hk h.2).1
    | _ =>
      rw [hc] at hcleaner
      exact absurd hcleaner.2 hk
  have hsent := h.pipe
  rw [hreceived] at hsent
  constructor
  · have hmem : Message.cleanup ∈ sent ls := hsent ▸ List.mem_cons_self ..
    obtain ⟨a, ha, hm⟩ := List.mem_flatMap.1 hmem
    cases a with
    | sigint => exact ha
    | _ => simp [Act.sent] at hm
  · rw [← exit_mem_sent, hsent]
    rw [hsent] at horder
    rintro (- | ⟨_, hmem⟩)
    cases horder _ hmem

/-- A cleanup process that is gone before it was told to clean up has killed nothing. -/
theorem Inv.killed_of_gone (h : Inv commands ls s) (hgone : s.cleaner.Gone)
    (hexit : Act.exit ∈ ls) : killed ls = [] := by
  have hcleaner := h.cleaner
  cases hc : s.cleaner with
  | ended => exact (h.killed_eq hc).1 hexit
  | dead =>
    rw [hc] at hcleaner
    exact hcleaner.2
  | _ =>
    rw [hc] at hgone
    exact hgone.elim

/-- The steps of the cleanup process itself. -/
def Act.Cleans : Act n χ → Prop
  | .ignore | .receive _ | .kill _ | .cleaned => True
  | _ => False

/-- The steps that only an interrupt makes. -/
def Act.Interrupts : Act n χ → Prop
  | .sigint | .interrupt | .hit => True
  | _ => False

/-- What the cleanup process does is no interrupt. -/
theorem Act.Cleans.not_interrupts (h : a.Cleans) : ¬ a.Interrupts := by
  cases a <;> first | exact id | exact h.elim

/-- The cleanup process has a step to make, when it has been sent something. -/
theorem Inv.exists_step_cleaner (h : Inv commands ls s) (hsent : sent ls ≠ [])
    (hpresent : s.cleaner ≠ .absent) (hgone : ¬ s.cleaner.Gone) :
    ∃ a s', Step commands s a s' ∧ a.Cleans := by
  have hcleaner := h.cleaner
  cases hcl : s.cleaner with
  | starting => exact ⟨_, _, .ignore hcl, trivial⟩
  | receiving =>
    rw [hcl] at hcleaner
    rw [h.pipe, hcleaner.1] at hsent
    obtain ⟨data, rest, hp⟩ := List.exists_cons_of_ne_nil hsent
    exact ⟨_, _, .receive hcl hp, trivial⟩
  | killing todo =>
    cases todo with
    | nil => exact ⟨_, _, .cleaned hcl, trivial⟩
    | cons command todo => exact ⟨_, _, .kill hcl, trivial⟩
  | absent => exact absurd hcl hpresent
  | ended | dead =>
    rw [hcl] at hgone
    exact absurd trivial hgone

/-- Where something was sent there is a cleanup process. -/
theorem Inv.cleaner_ne_absent (h : Inv commands ls s) (hsent : sent ls ≠ []) :
    s.cleaner ≠ .absent := by
  intro hc
  have hmain := h.main
  rcases h.present hc with hm | hm <;> rw [hm] at hmain
  · exact hsent hmain.2
  · exact hsent hmain

/-- The cleanup process is gone, or it has a step to make. -/
theorem Inv.gone_or_step (h : Inv commands ls s) (hsent : sent ls ≠ []) :
    s.cleaner.Gone ∨ ∃ a s', Step commands s a s' ∧ a.Cleans := by
  by_cases hgone : s.cleaner.Gone
  · exact .inl hgone
  · exact .inr (h.exists_step_cleaner hsent (h.cleaner_ne_absent hsent) hgone)

/-- **The launcher waits for nothing but a job**, unless an interrupt came before its
handler: then Python waits for a cleanup process to which nobody sends anything any more. -/
theorem Inv.exists_step (h : Inv commands ls s) : s.main.Over ∨ s.main = .interrupted ∨
    (∃ i, s.job i = .running) ∨ ∃ a s', Step commands s a s' ∧ ¬ a.Interrupts := by
  have hmain := h.main
  have hwait : sent ls ≠ [] → (s.cleaner.Gone → ∃ a s', Step commands s a s' ∧ ¬ a.Interrupts) →
      ∃ a s', Step commands s a s' ∧ ¬ a.Interrupts := by
    intro hsent hnext
    rcases h.gone_or_step hsent with hgone | ⟨a, s', hstep, ha⟩
    · exact hnext hgone
    · exact ⟨a, s', hstep, ha.not_interrupts⟩
  cases hm : s.main with
  | preparing => exact .inr (.inr (.inr ⟨_, _, .spawn hm, id⟩))
  | spawned => exact .inr (.inr (.inr ⟨_, _, .handle hm, id⟩))
  | joining i =>
    rw [hm] at hmain
    refine .inr (.inr ?_)
    rcases Nat.lt_or_eq_of_le hmain.1 with hi | rfl
    · cases hj : s.job ⟨i, hi⟩ with
      | running => exact .inl ⟨_, hj⟩
      | reported code => exact .inr ⟨_, _, .finish hj, id⟩
      | ended code => exact .inr ⟨_, _, .join hm hi hj, id⟩
    · exact .inr ⟨_, _, .exit hm, id⟩
  | getting i =>
    obtain ⟨code, rest, hq⟩ := List.exists_cons_of_ne_nil (h.queue_ne_nil hm)
    exact .inr (.inr (.inr ⟨_, _, .get hm hq, id⟩))
  | reaping =>
    rw [hm] at hmain
    have hsent : sent ls ≠ [] := hmain.2.2 ▸ List.cons_ne_nil _ _
    exact .inr (.inr (.inr (hwait hsent fun hgone => ⟨_, _, .reap hm hgone, id⟩)))
  | stopping =>
    rw [hm] at hmain
    exact .inr (.inr (.inr (hwait hmain fun hgone => ⟨_, _, .leave (.inl hm) hgone, id⟩)))
  | interrupted => exact .inr (.inl rfl)
  | _ => exact .inl trivial

/-- An interrupt without the handler is the end of the launcher. -/
def Lost (ls : List (Act n χ)) (s : State n χ) : Prop := Act.interrupt ∈ ls → s.main.Broken

/-- **An interrupt before the handler is installed is the end of the launcher**: no later
step brings it back. -/
theorem Lost.step (hi : Lost ls s) (hstep : Step commands s a s') : Lost (ls ++ [a]) s' := by
  intro h
  rcases List.mem_append.1 h with h | h
  · have hbroken := hi h
    cases hstep with
    | report | finish | ignore | hit | receive | kill | cleaned => exact hbroken
    | abort => trivial
    | leave hm =>
      rcases hm with hm | hm <;> rw [hm] at hbroken ⊢
      · exact hbroken.elim
      · trivial
    | sigint hm =>
      cases hmain : s.main <;> rw [hmain] at hm hbroken
        <;> first | exact hm.elim | exact hbroken.elim
    | spawn hm | handle hm | join hm | get hm | exit hm | reap hm | abandon hm | interrupt hm =>
      rw [hm] at hbroken
      exact hbroken.elim
  · cases List.mem_singleton.1 h
    cases hstep <;> trivial

/-- In every run, a launcher that was interrupted without the handler is broken. -/
theorem lost_of_run (hrun : Run (Step commands) (start n χ) ls s) : Lost ls s :=
  hrun.invariant (fun h => absurd h List.not_mem_nil) fun _ _ _ _ hi hstep => hi.step hstep

/-- **The launcher and its jobs**, in every run: `state_q.get()` never waits; the launcher
returns only if all jobs have ended with 0, and fails only with the code of a job; in both
cases the cleanup process is gone and has killed nothing.  When the cleanup process has come
to its end, everything has been killed, unless `'exit'` was sent and all jobs had ended
before; one that an interrupt has ended has killed nothing.  Nothing is killed without an
interrupt in the handler before `'exit'`, behind which the cleanup process goes on until it
is gone; an interrupt before the handler kills nothing, and the cleanup process never comes
to its end.  Otherwise the launcher waits for nothing but a job. -/
theorem jobs_correct (hrun : Run (Step commands) (start n χ) ls s) :
    (∀ i, s.main = .getting i → s.state_q ≠ []) ∧
    (s.main = .returned → (∀ i, s.job i = .ended 0) ∧ killed ls = [] ∧ s.cleaner.Gone) ∧
    (s.main = .failed → (∃ i, s.job i = .ended s.err ∧ s.err ≠ 0) ∧
      (∀ i, ∃ code, s.job i = .ended code) ∧ killed ls = [] ∧ s.cleaner.Gone) ∧
    (s.cleaner = .ended →
      (Act.exit ∈ ls → killed ls = [] ∧ ∀ i, ∃ code, s.job i = .ended code) ∧
      (Act.exit ∉ ls → killed ls = commands)) ∧
    (s.cleaner = .dead → killed ls = []) ∧
    (killed ls ≠ [] → Act.sigint ∈ ls ∧ Act.exit ∉ ls) ∧
    (Act.sigint ∈ ls → s.cleaner.Gone ∨ ∃ a s', Step commands s a s' ∧ a.Cleans) ∧
    (Act.interrupt ∈ ls → s.main.Broken ∧ killed ls = [] ∧ s.cleaner ≠ .ended) ∧
    (s.main.Over ∨ s.main = .interrupted ∨ (∃ i, s.job i = .running) ∨
      ∃ a s', Step commands s a s' ∧ ¬ a.Interrupts) := by
  have h : Inv commands ls s :=
    hrun.invariant (inv_start commands) fun _ _ _ _ hi hstep => hi.step hstep
  have hmain := h.main
  have hcleaner := h.cleaner
  refine ⟨fun i hm => h.queue_ne_nil hm, fun hm => ?_, fun hm => ?_,
    fun hc => ⟨fun hexit => ?_, ?_⟩,
    fun hc => ?_, h.killed_only, fun hsig => h.gone_or_step ?_, fun hint => ?_, h.exists_step⟩
  · rw [hm] at hmain
    obtain ⟨hj, hlen, hsent, hgone, herr⟩ := hmain
    have hexit : Act.exit ∈ ls := exit_mem_sent.1 (hsent ▸ List.mem_singleton_self _)
    exact ⟨(h.err_spec hj hlen).1.1 herr, h.killed_of_gone hgone hexit, hgone⟩
  · rw [hm] at hmain
    obtain ⟨hj, hlen, hsent, hgone, herr⟩ := hmain
    have hexit : Act.exit ∈ ls := exit_mem_sent.1 (hsent ▸ List.mem_singleton_self _)
    obtain ⟨i, hi⟩ := (h.err_spec hj hlen).2 herr
    exact ⟨⟨i, hi, herr⟩, fun i => hj i i.2, h.killed_of_gone hgone hexit, hgone⟩
  · exact ⟨(h.killed_eq hc).1 hexit, fun i => h.done (exit_mem_sent.2 hexit) i i.2⟩
  · exact (h.killed_eq hc).2
  · rw [hc] at hcleaner
    exact hcleaner.2
  · have hmem : Message.cleanup ∈ sent ls :=
      List.mem_flatMap.2 ⟨_, hsig, List.mem_singleton_self _⟩
    exact List.ne_nil_of_mem hmem
  · have hbroken := lost_of_run hrun hint
    have hsent : sent ls = [] := by
      cases hm : s.main <;> rw [hm] at hbroken hmain <;> first | exact hmain | exact hbroken.elim
    obtain ⟨hr, hk⟩ := h.quiet hsent
    refine ⟨hbroken, hk, fun hc => ?_⟩
    rw [hc, hr] at hcleaner
    rcases hcleaner with ⟨hnil, -⟩ | ⟨hnil, -⟩ <;> cases hnil

/-- Two jobs; the second one is done first, and the first one fails. -/
theorem run_twoJobs : ∃ ls s, Run (Step [0, 1]) (start 2 ℕ) ls s ∧ s.main = .failed := by
  have hspawn := Run.single (show Step [0, 1] (start 2 ℕ) .spawn _ from .spawn rfl)
  have hhandle := (hspawn.snoc (.handle rfl)).snoc (.ignore rfl)
  have hreport := hhandle.snoc (show Step [0, 1] _ (.report 1 0) _ from .report rfl)
  have hreport' := hreport.snoc (show Step [0, 1] _ (.report 0 255) _ from .report rfl)
  have hfinish := hreport'.snoc (show Step [0, 1] _ (.finish 0) _ from .finish rfl)
  have hfinish' := hfinish.snoc (show Step [0, 1] _ (.finish 1) _ from .finish rfl)
  have hjoin := hfinish'.snoc (show Step [0, 1] _ .join _ from .join rfl (by decide) rfl)
  have hget := hjoin.snoc (show Step [0, 1] _ (.get 0) _ from .get rfl rfl)
  have hjoin' := hget.snoc (show Step [0, 1] _ .join _ from .join rfl (by decide) rfl)
  have hexit := (hjoin'.snoc (.get rfl rfl)).snoc (.exit rfl)
  exact ⟨_, _, (hexit.snoc (.receive rfl rfl)).snoc (.reap rfl trivial), rfl⟩

/-- An interrupt comes before the handler is set. -/
theorem run_interrupted : ∃ s, Run (Step [0, 1]) (start 2 ℕ) [.spawn, .ignore, .interrupt] s ∧
    s.main = .interrupted := by
  have hspawn := Run.single (show Step [0, 1] (start 2 ℕ) .spawn _ from .spawn rfl)
  have hignore := hspawn.snoc (show Step [0, 1] _ .ignore _ from .ignore rfl)
  exact ⟨_, hignore.snoc (.interrupt rfl), rfl⟩

/-- The hypotheses of `jobs_correct` are satisfiable, and so are its two outcomes: a run of
two jobs in which one fails, and a run that is interrupted before the handler of the signal
is installed. -/
theorem jobs_correct_twoJobs :
    (∃ ls s, Run (Step [0, 1]) (start 2 ℕ) ls s ∧ s.main = .failed ∧
      (∃ i, s.job i = .ended s.err ∧ s.err ≠ 0) ∧ killed ls = []) ∧
    ∃ ls s, Run (Step [0, 1]) (start 2 ℕ) ls s ∧ s.main = .interrupted ∧ killed ls = [] ∧
      s.cleaner ≠ .ended := by
  obtain ⟨ls, s, hrun, hm⟩ := run_twoJobs
  obtain ⟨-, -, hfailed, -⟩ := jobs_correct hrun
  obtain ⟨s', hrun', hm'⟩ := run_interrupted
  obtain ⟨-, -, -, -, -, -, -, hinterrupt, -⟩ := jobs_correct hrun'
  exact ⟨⟨ls, s, hrun, hm, (hfailed hm).1, (hfailed hm).2.2.1⟩,
    ⟨_, s', hrun', hm', (hinterrupt (by simp)).2⟩⟩

end Launch
end BearRpc
