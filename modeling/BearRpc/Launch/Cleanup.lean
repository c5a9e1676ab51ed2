/-
# The processes that the launcher kills

`cleanup_proc`, `kill_process`, `get_killed_pids`, `get_remote_pids` and
`get_all_remote_pids` (`tools/launch.py`).  What `ps` and `pgrep` answer on the remote
machines is a parameter, with a number for the call, so that processes may come and go
between any two calls.  So is the module `re`: a pattern may be none, and then `re.search`
raises `re.error` at the first line it is tried on.

On `'exit'` nothing is sent.  Otherwise, unless the command makes a pattern that is none,
each process found on a machine gets one `kill`, in ascending order, and then one `kill -9`
for each check that still lists it, three at most; no assertion fails, and no other process
gets a signal.  Where the pattern is none and a machine lists anything, nothing is sent to
any machine (`cleanupProc_signals`).
-/

import BearRpc.Launch.Commands
import BearRpc.Theory.Log
import Mathlib.Data.List.Count
import Mathlib.Data.List.Dedup
import Mathlib.Data.List.Induction
import Mathlib.Data.List.Sort

namespace BearRpc
namespace Launch

open Theory

/-- What is sent to a process: `kill` or `kill -9`. -/
inductive Signal where
  | term
  | kill
  deriving DecidableEq, Repr

/-- What the launcher and the cleanup process say to each other. -/
inductive Message where
  | cleanup
  | exit
  deriving DecidableEq, Repr

/-- How `cleanup_proc` ends. -/
inductive Ending where
  | returned
  | assertionError
  | reError
  deriving DecidableEq, Repr

/-- `re.search`: what the pattern finds, if it is one. -/
abbrev Re := Text → Option (Text → Bool)

/-- The remote machines. -/
structure Remote (κ : Type) where
  /-- the lines of `ps -aux | grep python | ..` with their second columns, at the query with
  that number -/
  psAux : ℕ → κ → List (ℕ × Text)
  /-- `pgrep -P` -/
  children : ℕ → κ → List ℕ → List ℕ
  /-- `ps -p`, at the check with that number -/
  ps : κ → ℕ → List ℕ → List ℕ

/-- What the manual says of `ps -p`: it lists processes that it is asked for, once. -/
structure Remote.Documented {κ : Type} (remote : Remote κ) : Prop where
  subset : ∀ ip k pids, remote.ps ip k pids ⊆ pids
  nodup : ∀ ip k pids, (remote.ps ip k pids).Nodup

/-- `pids.sort()`. -/
def sort (pids : List ℕ) : List ℕ := pids.insertionSort (· ≤ ·)

/-- `new_udf_command`: arguments may have been put between the words. -/
def newUdfCommand (udf_command : Text) : Text :=
  " .*".toList.intercalate (words isSpace udf_command)

/-- The loop of `get_remote_pids` over the lines; none stands for `re.error`. -/
def searchLoop (found : Option (Text → Bool)) (curr_pid : ℕ) : List (ℕ × Text) → Option (List ℕ)
  | [] => some []
  | (pid, line) :: lines => do
    let res := (← found) line
    let pids ← searchLoop found curr_pid lines
    return if res ∧ pid ≠ curr_pid then pid :: pids else pids

/-- `get_remote_pids(ip, port, cmd_regex)`, in the process `curr_pid`. -/
def getRemotePids {κ : Type} (re : Re) (remote : Remote κ) (curr_pid k : ℕ) (ip : κ)
    (cmd_regex : Text) : Option (List ℕ) := do
  let pids ← searchLoop (re cmd_regex) curr_pid (remote.psAux k ip)
  let pids1 := remote.children k ip pids
  return sort ((pids ++ pids1).dedup.filter fun pid => pid ≠ curr_pid)

/-- `d[k] = v`: a key keeps its place in the dictionary. -/
def setItem {κ ν : Type} [DecidableEq κ] : List (κ × ν) → κ → ν → List (κ × ν)
  | [], k, v => [(k, v)]
  | (j, u) :: d, k, v => if j = k then (k, v) :: d else (j, u) :: setItem d k v

/-- `get_all_remote_pids(hosts, ssh_port, udf_command)`; all keys have the same port. -/
def getAllRemotePids {κ : Type} [DecidableEq κ] (re : Re) (remote : Remote κ) (curr_pid : ℕ)
    (hosts : List κ) (udf_command : Text) : Option (List (κ × List ℕ)) :=
  hosts.zipIdx.foldlM (fun d host => do
    let pids ← getRemotePids re remote curr_pid host.2 host.1 (newUdfCommand udf_command)
    return setItem d host.1 pids) []

/-- The first loop of `kill_process`: the signals, and whether the assertions held. -/
def termLoop (curr_pid : ℕ) : List ℕ → List (Signal × ℕ) × Bool
  | [] => ([], true)
  | pid :: pids =>
    if curr_pid ≠ pid then
      let (sent, ok) := termLoop curr_pid pids
      ((.term, pid) :: sent, ok)
    else ([], false)

/-- The second loop of `kill_process`, with the rounds left. -/
def killLoop (ps : ℕ → List ℕ → List ℕ) : ℕ → ℕ → List ℕ → List (Signal × ℕ)
  | 0, _, _ => []
  | n + 1, k, killed_pids =>
    let killed_pids := ps k killed_pids
    if killed_pids.length = 0 then []
    else
      let killed_pids := sort killed_pids
      killed_pids.map (Prod.mk .kill) ++ killLoop ps n (k + 1) killed_pids

/-- `kill_process(ip, port, pids)`. -/
def killProcess (curr_pid : ℕ) (ps : ℕ → List ℕ → List ℕ) (pids : List ℕ) :
    List (Signal × ℕ) × Bool :=
  let pids := sort pids
  let (sent, ok) := termLoop curr_pid pids
  if ok then (sent ++ killLoop ps 3 0 pids, true) else (sent, false)

/-- The loop of `cleanup_proc` over the items of `remote_pids`. -/
def killAll {κ : Type} (remote : Remote κ) (curr_pid : ℕ) :
    List (κ × List ℕ) → List (κ × Signal × ℕ) × Ending
  | [] => ([], .returned)
  | (ip, pids) :: rest =>
    let (sent, ok) := killProcess curr_pid (remote.ps ip) pids
    let sent := sent.map (Prod.mk ip)
    if ok then
      let (more, ending) := killAll remote curr_pid rest
      (sent ++ more, ending)
    else (sent, .assertionError)

/-- `cleanup_proc`, once it has received `data`. -/
def cleanupProc {κ : Type} [DecidableEq κ] (re : Re) (remote : Remote κ) (curr_pid : ℕ)
    (hosts : List κ) (udf_command : Text) (data : Message) : List (κ × Signal × ℕ) × Ending :=
  if data = .exit then ([], .returned)
  else
    match getAllRemotePids re remote curr_pid hosts udf_command with
    | none => ([], .reError)
    | some remote_pids => killAll remote curr_pid remote_pids

variable {κ ν : Type} {re : Re} {remote : Remote κ} {curr_pid k n pid : ℕ} {ip : κ}
  {pids : List ℕ} {hosts : List κ} {udf_command cmd_regex : Text} {ps : ℕ → List ℕ → List ℕ}

/-! ### What is found -/

/-- Sorting neither loses a process nor makes one up. -/
theorem sort_perm (pids : List ℕ) : (sort pids).Perm pids := List.perm_insertionSort ..

/-- The processes come in the order of their numbers, each once. -/
theorem pairwise_sort (h : pids.Nodup) : (sort pids).Pairwise (· < ·) := by
  have hle : (sort pids).Pairwise (· ≤ ·) := List.pairwise_insertionSort ..
  exact hle.imp₂ (fun _ _ => Nat.lt_of_le_of_ne) ((sort_perm pids).nodup_iff.2 h)

/-- A pattern finds the lines it is searched in. -/
theorem searchLoop_some (res : Text → Bool) (lines : List (ℕ × Text)) :
    searchLoop (some res) curr_pid lines =
      some ((lines.filter fun l => res l.2 ∧ l.1 ≠ curr_pid).map Prod.fst) := by
  induction lines with
  | nil => rfl
  | cons l lines ih =>
    rw [searchLoop, ih, List.filter_cons]
    dsimp only [Option.bind_eq_bind, Option.bind_some, Option.pure_def]
    simp only [decide_eq_true_eq]
    split_ifs <;> rfl

/-- **When `re.error` is raised**: the pattern is none, and there is a line to search in.
With no line, `re.search` is never called and the error goes unnoticed. -/
theorem getRemotePids_eq_none_iff : getRemotePids re remote curr_pid k ip cmd_regex = none ↔
    re cmd_regex = none ∧ remote.psAux k ip ≠ [] := by
  rw [getRemotePids]
  cases hre : re cmd_regex with
  | some res =>
    rw [searchLoop_some]
    simp
  | none =>
    cases hlines : remote.psAux k ip with
    | nil => simp [searchLoop]
    | cons l lines => simp [searchLoop]

/-- What a query should find: the processes with a line that the pattern finds, and their
children, each once and in ascending order, without the process that asks. -/
structure Found (re : Re) (remote : Remote κ) (curr_pid k : ℕ) (ip : κ) (cmd_regex : Text)
    (pids : List ℕ) : Prop where
  ascending : pids.Pairwise (· < ·)
  mem : ∃ searched : List ℕ,
    (∀ p, p ∈ searched ↔ p ≠ curr_pid ∧ ∃ res line, re cmd_regex = some res ∧
      (p, line) ∈ remote.psAux k ip ∧ res line) ∧
    ∀ p, p ∈ pids ↔ p ≠ curr_pid ∧ (p ∈ searched ∨ p ∈ remote.children k ip searched)

/-- The process that asks is not among the processes found. -/
theorem Found.curr_notMem (h : Found re remote curr_pid k ip cmd_regex pids) : curr_pid ∉ pids := by
  obtain ⟨_, -, hpids⟩ := h.mem
  exact fun hcurr => ((hpids curr_pid).1 hcurr).1 rfl

/-- **Which processes are found** by a query that returns: those it should find, whatever
the pattern and the lines are. -/
theorem found_of_getRemotePids (h : getRemotePids re remote curr_pid k ip cmd_regex = some pids) :
    Found re remote curr_pid k ip cmd_regex pids := by
  obtain ⟨searched, hsearched, h⟩ := Option.bind_eq_some_iff.1 h
  cases h
  refine ⟨pairwise_sort ((List.nodup_dedup _).filter _), searched, fun p => ?_, fun p => ?_⟩
  · cases hre : re cmd_regex with
    | some res =>
      rw [hre, searchLoop_some, Option.some.injEq] at hsearched
      subst hsearched
      simp only [List.mem_map, List.mem_filter, decide_eq_true_eq, Prod.exists, exists_and_right,
        exists_eq_right, ne_eq]
      constructor
      · rintro ⟨line, hline, hres, hne⟩
        exact ⟨hne, res, line, rfl, hline, hres⟩
      · rintro ⟨hne, _, line, ⟨⟩, hline, hres⟩
        exact ⟨line, hline, hres, hne⟩
    | none =>
      -- the pattern is none, so there was no line to search in
      rw [hre] at hsearched
      cases hlines : remote.psAux k ip with
      | nil =>
        rw [hlines] at hsearched
        cases hsearched
        simp
      | cons l lines =>
        rw [hlines] at hsearched
        cases hsearched
  · rw [(sort_perm _).mem_iff, List.mem_filter, List.mem_dedup, List.mem_append,
      decide_eq_true_eq, and_comm]

section Dictionary

variable [DecidableEq κ] {d : List (κ × ν)} {j : κ} {u v : ν}

/-- Setting an entry of a dictionary adds its key and removes none. -/
theorem mem_keys_setItem : j ∈ (setItem d ip v).map Prod.fst ↔ j = ip ∨ j ∈ d.map Prod.fst := by
  induction d with
  | nil => simp [setItem]
  | cons e d ih =>
    rw [setItem]
    split_ifs with h
    · simp [h]
    · rw [List.map_cons, List.mem_cons, ih, List.map_cons, List.mem_cons]
      tauto

/-- A dictionary has every key once. -/
theorem nodup_setItem (h : (d.map Prod.fst).Nodup) : ((setItem d ip v).map Prod.fst).Nodup := by
  induction d with
  | nil => simp [setItem]
  | cons e d ih =>
    obtain ⟨he, hd⟩ := List.nodup_cons.1 h
    rw [setItem]
    split_ifs with heq
    · subst heq
      exact List.nodup_cons.2 ⟨he, hd⟩
    · refine List.nodup_cons.2 ⟨fun hmem => ?_, ih hd⟩
      exact (mem_keys_setItem.1 hmem).elim heq he

/-- The key that was set has the new value, and the others keep theirs. -/
theorem mem_setItem (h : (d.map Prod.fst).Nodup) :
    (j, u) ∈ setItem d ip v ↔ j = ip ∧ u = v ∨ j ≠ ip ∧ (j, u) ∈ d := by
  induction d with
  | nil => simp [setItem]
  | cons e d ih =>
    obtain ⟨he, hd⟩ := List.nodup_cons.1 h
    have hne : (j, u) ∈ d → j ≠ e.1 := fun hmem heq => he (heq ▸ List.mem_map_of_mem hmem)
    rw [setItem]
    split_ifs with heq
    · subst heq
      simp only [List.mem_cons, Prod.ext_iff]
      tauto
    · rw [List.mem_cons, ih hd, List.mem_cons, Prod.ext_iff]
      constructor
      · rintro (⟨rfl, rfl⟩ | h | ⟨hj, h⟩)
        · exact .inr ⟨heq, .inl ⟨rfl, rfl⟩⟩
        · exact .inl h
        · exact .inr ⟨hj, .inr h⟩
      · rintro (h | ⟨hj, h | h⟩)
        · exact .inr (.inl h)
        · exact .inl h
        · exact .inr (.inr ⟨hj, h⟩)

omit [DecidableEq κ] in
/-- A machine that is listed more than once has a last place in the list, which is the one a
dictionary remembers. -/
theorem exists_lastIndex {hosts : List κ} (h : ip ∈ hosts) :
    ∃ k : ℕ, hosts[k]? = some ip ∧ ∀ i, k < i → hosts[i]? ≠ some ip := by
  induction hosts with
  | nil => cases h
  | cons host hosts ih =>
    by_cases hmem : ip ∈ hosts
    · obtain ⟨k, hk, hlast⟩ := ih hmem
      refine ⟨k + 1, hk, fun i hi => ?_⟩
      obtain ⟨i, rfl⟩ := Nat.exists_eq_add_of_lt hi
      exact hlast (k + 1 + i) (by omega)
    · obtain rfl : ip = host := (List.mem_cons.1 h).resolve_right hmem
      refine ⟨0, rfl, fun i hi hmem' => hmem ?_⟩
      obtain ⟨i, rfl⟩ := Nat.exists_eq_add_of_lt hi
      exact List.mem_of_getElem? (i := 0 + i) hmem'

/-- What `get_all_remote_pids` has found: for every machine what its last query found. -/
structure Listed (re : Re) (remote : Remote κ) (curr_pid : ℕ) (hosts : List κ) (cmd_regex : Text)
    (d : List (κ × List ℕ)) : Prop where
  nodup : (d.map Prod.fst).Nodup
  mem : ∀ ip pids, (ip, pids) ∈ d ↔ ∃ k, hosts[k]? = some ip ∧
    (∀ i, k < i → hosts[i]? ≠ some ip) ∧
    getRemotePids re remote curr_pid k ip cmd_regex = some pids

/-- One machine more. -/
theorem Listed.concat {d : List (κ × List ℕ)} {host : κ}
    (h : Listed re remote curr_pid hosts cmd_regex d)
    (hpids : getRemotePids re remote curr_pid hosts.length host cmd_regex = some pids) :
    Listed re remote curr_pid (hosts ++ [host]) cmd_regex (setItem d host pids) := by
  refine ⟨nodup_setItem h.nodup, fun ip found => ?_⟩
  rw [mem_setItem h.nodup, h.mem]
  constructor
  · rintro (⟨rfl, rfl⟩ | ⟨hne, k, hk, hlast, hfound⟩)
    · refine ⟨hosts.length, by simp, fun i hi => ?_, hpids⟩
      rw [List.getElem?_eq_none (by simpa using Nat.succ_le_of_lt hi)]
      simp
    · have hlt := (List.getElem?_eq_some_iff.1 hk).1
      refine ⟨k, by rwa [List.getElem?_append_left hlt], fun i hi => ?_, hfound⟩
      rcases Nat.lt_trichotomy i hosts.length with h | rfl | h
      · rw [List.getElem?_append_left h]
        exact hlast i hi
      · simpa using hne.symm
      · rw [List.getElem?_eq_none (by simpa using Nat.succ_le_of_lt h)]
        simp
  · rintro ⟨k, hk, hlast, hfound⟩
    rcases Nat.lt_trichotomy k hosts.length with h | rfl | h
    · rw [List.getElem?_append_left h] at hk
      refine .inr ⟨fun heq => ?_, k, hk, fun i hi hmem => ?_, hfound⟩
      · exact hlast hosts.length h (by simp [heq])
      · refine hlast i hi ?_
        rwa [List.getElem?_append_left (List.getElem?_eq_some_iff.1 hmem).1]
    · obtain rfl : host = ip := by simpa using hk
      exact .inl ⟨rfl, Option.some.inj (hfound.symm.trans hpids)⟩
    · rw [List.getElem?_eq_none (by simpa using Nat.succ_le_of_lt h)] at hk
      cases hk

/-- **The dictionary of a machine list**: if every query returns, it has each machine once,
with what the last query of it found; one query that fails is the end of all. -/
theorem getAllRemotePids_spec (re : Re) (remote : Remote κ) (curr_pid : ℕ) (hosts : List κ)
    (udf_command : Text) :
    match getAllRemotePids re remote curr_pid hosts udf_command with
    | some d => Listed re remote curr_pid hosts (newUdfCommand udf_command) d ∧
      ∀ k ip, hosts[k]? = some ip →
        getRemotePids re remote curr_pid k ip (newUdfCommand udf_command) ≠ none
    | none => ∃ k ip, hosts[k]? = some ip ∧
      getRemotePids re remote curr_pid k ip (newUdfCommand udf_command) = none := by
  induction hosts using List.reverseRecOn with
  | nil => exact ⟨⟨List.nodup_nil, by simp⟩, by simp⟩
  | append_singleton hosts host ih =>
    have hstep : getAllRemotePids re remote curr_pid (hosts ++ [host]) udf_command =
        (getAllRemotePids re remote curr_pid hosts udf_command).bind fun d =>
          (getRemotePids re remote curr_pid hosts.length host (newUdfCommand udf_command)).map
            (setItem d host) := by
      rw [getAllRemotePids, List.zipIdx_append, List.foldlM_append, getAllRemotePids]
      simp [Option.map_eq_bind]
    rw [hstep]
    cases hd : getAllRemotePids re remote curr_pid hosts udf_command with
    | none =>
      rw [hd] at ih
      obtain ⟨k, ip, hk, hnone⟩ := ih
      refine ⟨k, ip, ?_, hnone⟩
      rwa [List.getElem?_append_left (List.getElem?_eq_some_iff.1 hk).1]
    | some d =>
      rw [hd] at ih
      obtain ⟨hlisted, hsome⟩ := ih
      cases hpids : getRemotePids re remote curr_pid hosts.length host
        (newUdfCommand udf_command) with
      | none => exact ⟨hosts.length, host, by simp, hpids⟩
      | some pids =>
        refine ⟨hlisted.concat hpids, fun k ip hk => ?_⟩
        rcases Nat.lt_or_ge k hosts.length with hlt | hge
        · rw [List.getElem?_append_left hlt] at hk
          exact hsome k ip hk
        · obtain ⟨hlt, hget⟩ := List.getElem?_eq_some_iff.1 hk
          obtain rfl : k = hosts.length := by
            rw [List.length_append, List.length_singleton] at hlt
            omega
          rw [List.getElem_concat_length rfl] at hget
          rw [← hget, hpids]
          exact Option.some_ne_none pids

end Dictionary

/-! ### What is killed -/

/-- **The first loop of `kill_process`** sends a `SIGTERM` to each process and comes to its
end, unless the launcher's own process is among them. -/
theorem termLoop_eq (h : curr_pid ∉ pids) :
    termLoop curr_pid pids = (pids.map (Prod.mk .term), true) := by
  induction pids with
  | nil => rfl
  | cons pid pids ih =>
    obtain ⟨hne, hrest⟩ := not_or.1 (mt List.mem_cons.2 h)
    rw [termLoop, if_pos hne, ih hrest]
    rfl

/-- What the check with that number asks for. -/
def asked (ps : ℕ → List ℕ → List ℕ) (pids : List ℕ) : ℕ → List ℕ
  | 0 => pids
  | k + 1 => sort (ps k (asked ps pids k))

/-- A list of processes that is asked for again and again only gets shorter. -/
theorem asked_subset (hps : ∀ k pids, ps k pids ⊆ pids) (k : ℕ) : asked ps pids k ⊆ pids := by
  induction k with
  | zero => exact List.Subset.refl _
  | succ k ih => exact fun p hp => ih (hps _ _ ((sort_perm _).mem_iff.1 hp))

/-- Nothing is asked for again once nothing was listed. -/
theorem asked_eq_nil (hps : ∀ k pids, ps k pids ⊆ pids) (h : asked ps pids k = []) (j : ℕ) :
    asked ps pids (k + j) = [] := by
  induction j with
  | zero => exact h
  | succ j ih =>
    rw [← Nat.add_assoc, asked, ih, List.subset_nil.1 (hps _ _)]
    rfl

/-- **The rounds of `kill -9`**: what a check lists gets one each. The loop stops at a check
that lists nothing, and so do the rounds that it leaves out, since each check asks for what
the one before listed. -/
theorem killLoop_eq (hps : ∀ k pids, ps k pids ⊆ pids) (n k : ℕ) :
    killLoop ps n k (asked ps pids k) = (List.range' k n).flatMap fun j =>
      (asked ps pids (j + 1)).map (Prod.mk .kill) := by
  induction n generalizing k with
  | zero => rfl
  | succ n ih =>
    rw [killLoop, List.range'_succ, List.flatMap_cons]
    split_ifs with hnone
    · have hnil : asked ps pids (k + 1) = [] := by
        rw [asked, List.eq_nil_of_length_eq_zero hnone]
        rfl
      rw [hnil, List.map_nil, List.nil_append, eq_comm, List.flatMap_eq_nil_iff]
      intro j hj
      obtain ⟨i, rfl⟩ := Nat.exists_eq_add_of_le (Nat.le_of_succ_le (List.mem_range'_1.1 hj).1)
      rw [Nat.add_right_comm, asked_eq_nil hps hnil i, List.map_nil]
    · rw [← ih]
      rfl

/-- How often an element is in lists that have it once at most. -/
theorem count_flatMap_of_nodup {α β : Type} [BEq β] [LawfulBEq β] {f : α → List β} {l : List α}
    (h : ∀ x ∈ l, (f x).Nodup) (b : β) :
    (l.flatMap f).count b = l.countP fun x => (f x).contains b := by
  induction l with
  | nil => rfl
  | cons x l ih =>
    obtain ⟨hx, hl⟩ := List.forall_mem_cons.1 h
    rw [List.flatMap_cons, List.count_append, ih hl, List.countP_cons, Nat.add_comm]
    congr 1
    split_ifs with hb
    · exact List.count_eq_one_of_mem hx (List.contains_iff_mem.1 hb)
    · exact List.count_eq_zero.2 fun hmem => hb (List.contains_iff_mem.2 hmem)

/-- What the processes of one machine get. -/
structure Killed (ps : ℕ → List ℕ → List ℕ) (pids : List ℕ) (sent : List (Signal × ℕ)) : Prop where
  /-- one `kill` for each, and then what the checks list -/
  eq : sent = pids.map (Prod.mk .term) ++ (List.range 3).flatMap fun k =>
    (asked ps pids (k + 1)).map (Prod.mk .kill)
  /-- one `kill -9` for each check that lists it -/
  count : ∀ pid, sent.count (.kill, pid) =
    (List.range 3).countP fun k => pid ∈ ps k (asked ps pids k)
  only : ∀ c ∈ sent, c.2 ∈ pids

/-- **What `kill_process` sends**: a `kill -15` to each process, in the order of the
numbers, and then a `kill -9` for each of at most three checks that still list it. -/
theorem killProcess_killed (hps : ∀ k pids, ps k pids ⊆ pids) (hnd : ∀ k pids, (ps k pids).Nodup)
    (hsorted : pids.Pairwise (· < ·)) (hcurr : curr_pid ∉ pids) :
    ∃ sent, killProcess curr_pid ps pids = (sent, true) ∧ Killed ps pids sent := by
  have hsort : sort pids = pids := (hsorted.imp le_of_lt).insertionSort_eq
  have hloop : killLoop ps 3 0 pids = (List.range 3).flatMap fun k =>
      (asked ps pids (k + 1)).map (Prod.mk .kill) := killLoop_eq hps 3 0
  refine ⟨_, ?_, rfl, fun pid => ?_, fun c hc => ?_⟩
  · simp only [killProcess, hsort, termLoop_eq hcurr, if_pos, hloop]
  · have hterm : (pids.map (Prod.mk Signal.term)).count (.kill, pid) = 0 := by
      simp [List.count_eq_zero]
    rw [List.count_append, hterm, Nat.zero_add, count_flatMap_of_nodup fun k _ => ?_]
    · refine congrArg (List.countP · _) (funext fun k => Bool.eq_iff_iff.2 ?_)
      rw [List.contains_iff_mem, decide_eq_true_iff, List.mem_map, asked]
      simp [(sort_perm _).mem_iff]
    · rw [asked]
      exact ((sort_perm _).nodup_iff.2 (hnd _ _)).map (Prod.mk_right_injective _)
  · rcases List.mem_append.1 hc with hc | hc
    · obtain ⟨p, hp, rfl⟩ := List.mem_map.1 hc
      exact hp
    · obtain ⟨k, -, hc⟩ := List.mem_flatMap.1 hc
      obtain ⟨p, hp, rfl⟩ := List.mem_map.1 hc
      exact asked_subset hps _ hp

variable [DecidableEq κ]

/-- **All machines in turn**: none of them fails, each gets the signals for its own
processes, and a machine that is not in the dictionary gets none. -/
theorem killAll_killed (hd : remote.Documented) {d : List (κ × List ℕ)}
    (hnd : (d.map Prod.fst).Nodup)
    (hpids : ∀ e ∈ d, e.2.Pairwise (· < ·) ∧ curr_pid ∉ e.2) :
    ∃ sent, killAll remote curr_pid d = (sent, .returned) ∧
      (∀ ip pids, (ip, pids) ∈ d → Killed (remote.ps ip) pids (valuesOf ip sent)) ∧
      ∀ ip, ip ∉ d.map Prod.fst → valuesOf ip sent = [] := by
  induction d with
  | nil => exact ⟨[], rfl, fun _ _ h => (List.not_mem_nil h).elim, fun _ _ => rfl⟩
  | cons e d ih =>
    obtain ⟨he, hnd⟩ := List.nodup_cons.1 hnd
    obtain ⟨⟨hsorted, hcurr⟩, hpids⟩ := List.forall_mem_cons.1 hpids
    obtain ⟨more, hmore, hkilled, hnone⟩ := ih hnd hpids
    obtain ⟨sent, hsent, hk⟩ := killProcess_killed (hd.subset e.1) (hd.nodup e.1) hsorted hcurr
    refine ⟨sent.map (Prod.mk e.1) ++ more, ?_, fun ip pids hmem => ?_, fun ip hip => ?_⟩
    · rw [killAll, hsent, hmore]
      rfl
    · rw [valuesOf_append]
      rcases List.mem_cons.1 hmem with rfl | hmem
      · rw [valuesOf_map_self, hnone ip he, List.append_nil]
        exact hk
      · have hne : e.1 ≠ ip := fun heq => he (heq ▸ List.mem_map_of_mem hmem)
        rw [valuesOf_map_of_ne hne, List.nil_append]
        exact hkilled ip pids hmem
    · obtain ⟨hne, hip⟩ := not_or.1 (mt List.mem_cons.2 hip)
      rw [valuesOf_append, valuesOf_map_of_ne (Ne.symm hne), hnone ip hip]
      rfl

/-- The pattern of the command is none, and some machine has a line to search in. -/
def Unsearchable (re : Re) (remote : Remote κ) (hosts : List κ) (udf_command : Text) : Prop :=
  re (newUdfCommand udf_command) = none ∧ ∃ k ip, hosts[k]? = some ip ∧ remote.psAux k ip ≠ []

/-- **What the cleanup process does.**  On `'exit'` it sends nothing, and nothing either where
the command makes no pattern and a machine has a line to search in: `re.error` ends it.
Otherwise it fails no assertion, and on every machine, the processes found there by the last
query (`Found`) and no others get their signals (`Killed`). -/
theorem cleanupProc_signals (hd : remote.Documented) (re : Re) (curr_pid : ℕ) (hosts : List κ)
    (udf_command : Text) :
    cleanupProc re remote curr_pid hosts udf_command .exit = ([], .returned) ∧
    (Unsearchable re remote hosts udf_command →
      cleanupProc re remote curr_pid hosts udf_command .cleanup = ([], .reError)) ∧
    (¬ Unsearchable re remote hosts udf_command →
      ∃ sent, cleanupProc re remote curr_pid hosts udf_command .cleanup = (sent, .returned) ∧
        (∀ ip, ip ∉ hosts → valuesOf ip sent = []) ∧
        ∀ ip ∈ hosts, ∃ k pids, hosts[k]? = some ip ∧ (∀ i, k < i → hosts[i]? ≠ some ip) ∧
          Found re remote curr_pid k ip (newUdfCommand udf_command) pids ∧
          Killed (remote.ps ip) pids (valuesOf ip sent)) := by
  have hspec := getAllRemotePids_spec re remote curr_pid hosts udf_command
  have hcleanup : cleanupProc re remote curr_pid hosts udf_command .cleanup =
      match getAllRemotePids re remote curr_pid hosts udf_command with
      | none => ([], .reError)
      | some remote_pids => killAll remote curr_pid remote_pids := rfl
  rw [hcleanup]
  cases hall : getAllRemotePids re remote curr_pid hosts udf_command with
  | none =>
    rw [hall] at hspec
    obtain ⟨k, ip, hk, hnone⟩ := hspec
    obtain ⟨hre, hlines⟩ := getRemotePids_eq_none_iff.1 hnone
    exact ⟨rfl, fun _ => rfl, fun h => absurd ⟨hre, k, ip, hk, hlines⟩ h⟩
  | some d =>
    rw [hall] at hspec
    obtain ⟨hlisted, hsome⟩ := hspec
    refine ⟨rfl, ?_, fun _ => ?_⟩
    · rintro ⟨hre, k, ip, hk, hlines⟩
      exact absurd (getRemotePids_eq_none_iff.2 ⟨hre, hlines⟩) (hsome k ip hk)
    have hfound : ∀ e ∈ d, e.2.Pairwise (· < ·) ∧ curr_pid ∉ e.2 := by
      rintro ⟨ip, pids⟩ he
      obtain ⟨k, -, -, hpids⟩ := (hlisted.mem ip pids).1 he
      have hfound := found_of_getRemotePids hpids
      exact ⟨hfound.ascending, hfound.curr_notMem⟩
    obtain ⟨sent, hsent, hkilled, hnone⟩ := killAll_killed hd hlisted.nodup hfound
    refine ⟨sent, hsent, fun ip hip => hnone ip fun h => hip ?_, fun ip hip => ?_⟩
    · obtain ⟨⟨_, pids⟩, he, rfl⟩ := List.mem_map.1 h
      obtain ⟨k, hk, -⟩ := (hlisted.mem _ pids).1 he
      exact List.mem_of_getElem? hk
    · obtain ⟨k, hk, hlast⟩ := exists_lastIndex hip
      obtain ⟨pids, hpids⟩ := Option.ne_none_iff_exists'.1 (hsome k ip hk)
      have he := (hlisted.mem ip pids).2 ⟨k, hk, hlast, hpids⟩
      exact ⟨k, pids, hk, hlast, found_of_getRemotePids hpids, hkilled ip _ he⟩

/-- Two machines with the process 7 and its children 8 and 9, and 9 does not go away. -/
def stubborn : Remote ℕ where
  psAux := fun _ _ => [(7, "user 7 python3 train.py".toList)]
  children := fun _ _ _ => [9, 8]
  ps := fun _ _ pids => (pids.filter fun pid => pid = 9).dedup

/-- This machine behaves as documented: `ps` lists processes that were asked for, each once.
-/
theorem documented_stubborn : stubborn.Documented :=
  ⟨fun _ _ _ _ h => List.mem_of_mem_filter (List.mem_dedup.1 h), fun _ _ _ => List.nodup_dedup _⟩

/-- A pattern with two signs of repetition is none, and the others find every line. -/
def plusTwice : Re := fun pattern => if "++".toList <:+: pattern then none else some fun _ => true

/-- The hypotheses of `cleanupProc_signals` are satisfiable: a process that survives, on a
machine that is listed twice. A command that is no regular expression ends the clean-up
before anything is sent. -/
theorem cleanupProc_signals_stubborn :
    cleanupProc plusTwice stubborn 8 [1, 2, 1] "python3 c++.py".toList .cleanup =
      ([], .reError) ∧
    ∃ sent, cleanupProc plusTwice stubborn 8 [1, 2, 1] "python3 train.py".toList .cleanup =
        (sent, .returned) ∧
      ∀ ip ∈ [1, 2, 1], ∃ k pids,
        Found plusTwice stubborn 8 k ip (newUdfCommand "python3 train.py".toList) pids ∧
          Killed (stubborn.ps ip) pids (valuesOf ip sent) := by
  have hnone : Unsearchable plusTwice stubborn [1, 2, 1] "python3 c++.py".toList :=
    ⟨by decide, 0, 1, rfl, List.cons_ne_nil _ _⟩
  have hsome : ¬ Unsearchable plusTwice stubborn [1, 2, 1] "python3 train.py".toList := fun h => by
    have hpattern := h.1
    revert hpattern
    decide
  obtain ⟨-, herror, -⟩ := cleanupProc_signals documented_stubborn plusTwice 8 [1, 2, 1]
    "python3 c++.py".toList
  obtain ⟨-, -, hreturn⟩ := cleanupProc_signals documented_stubborn plusTwice 8 [1, 2, 1]
    "python3 train.py".toList
  obtain ⟨sent, hsent, -, hkilled⟩ := hreturn hsome
  refine ⟨herror hnone, sent, hsent, fun ip hip => ?_⟩
  obtain ⟨k, pids, -, -, hfound, hk⟩ := hkilled ip hip
  exact ⟨k, pids, hfound, hk⟩

example : cleanupProc plusTwice stubborn 8 [1] "python3 train.py".toList .cleanup =
    ([(1, .term, 7), (1, .term, 9), (1, .kill, 9), (1, .kill, 9), (1, .kill, 9)], .returned) := by
  decide +kernel

end Launch
end BearRpc
