/-
# What the launcher starts, and where

`get_available_port` and `submit_jobs` up to the start of the cleanup process
(`tools/launch.py`).  Whether a connection to a port succeeds is a parameter, as are the file
`ip_config`, the `num_parts` of the partition and what `has_alive_servers` has answered.

`submit_jobs` gets as far as launching exactly when every line of the file has an address and
perhaps a port, and there are as many lines as partitions and at least one
(`Configured`).  Then every host gets its `num_servers` servers, with consecutive ids, and one
client launcher, whose rank is the place of the host in the file; no two commands are the
same, and every process is told how many clients there are (`submitJobs_iff`).

`get_available_port` uses one socket for all its attempts, so the second attempt fails on a
socket that is connected, and the port it returns is 1234 or 1235 (`getAvailablePort_eq`).
-/

import BearRpc.Launch.Shell
import BearRpc.Theory.Fallible
import Mathlib.Data.List.GetD
import Mathlib.Data.List.Induction

namespace BearRpc
namespace Launch

open Theory Groups

/-- How `submit_jobs` ends before it has launched its jobs. -/
inductive Refusal where
  /-- `Format error of ip_config.` -/
  | format
  /-- `int()` of the second field -/
  | badPort
  /-- `Failed to get available port for ip~{}` -/
  | noPort
  /-- `num_parts does not exist.` -/
  | noNumParts
  /-- `The number of graph partitions has to match the number of machines in the cluster.` -/
  | partsMismatch
  /-- `list index out of range` -/
  | index
  deriving DecidableEq, Repr

/-- The digits of `int()`, with single underscores between them. -/
def natural (text : Text) : Option ℕ :=
  let groups := text.splitOnP (· = '_')
  if groups.all fun g => g ≠ [] && g.all Char.isDigit then
    some (Nat.ofDigitChars 10 groups.flatten 0)
  else none

/-- `int(text)` for a text without white space, with the digits 0 to 9. -/
def int : Text → Option ℤ
  | '-' :: digits => (natural digits).map fun n => -(n : ℤ)
  | '+' :: digits => (natural digits).map Nat.cast
  | digits => (natural digits).map Nat.cast

/-- `\r\n` and `\r` are read as `\n`. -/
def translate : Text → Text
  | [] => []
  | c :: s =>
    if c = '\r' then if s.head? = some '\n' then translate s else '\n' :: translate s
    else c :: translate s

/-- The lines of a file. -/
def lines (content : Text) : List Text :=
  let parts := (translate content).splitOnP (· = '\n')
  if parts.getLast? = some [] then parts.dropLast else parts

/-- The loop of `get_available_port`; a socket that is connected cannot be connected again. -/
def portLoop (connects : ℕ → Bool) : Bool → List ℕ → Except Refusal ℕ
  | _, [] => .error .noPort
  | connected, port :: ports =>
    if connected then .ok port
    else if connects port then portLoop connects true ports
    else .ok port

/-- `get_available_port(ip)`. -/
def getAvailablePort (connects : Text → ℕ → Bool) (ip : Text) : Except Refusal ℕ :=
  portLoop (connects ip) false (List.range' 1234 (65535 - 1234))

/-- What `submit_jobs` makes of a line of `ip_config`. -/
def readHost (connects : Text → ℕ → Bool) (line : Text) : Except Refusal (Text × ℤ) :=
  match words isSpace line with
  | [ip, port] =>
    match int port with
    | some port => .ok (ip, port)
    | none => .error .badPort
  | [ip] => do
    let port ← getAvailablePort connects ip
    return (ip, (port : ℤ))
  | _ => .error .format

/-- `hosts`. -/
def readHosts (connects : Text → ℕ → Bool) (ip_config : Text) :
    Except Refusal (List (Text × ℤ)) :=
  (lines ip_config).mapM (readHost connects)

/-- The fields of `args` that end up in commands. -/
structure Args where
  workspace : Text
  num_trainers : ℕ
  num_omp_threads : ℕ
  num_samplers : ℕ
  num_servers : ℕ
  num_server_threads : ℕ
  part_config : Text
  ip_config : Text
  graph_format : Text
  extra_envs : List Text
  keep_alive : Bool

/-- The variables that are read of the environment of the launcher. -/
structure Environ where
  /-- `os.environ.get("PYTHONPATH", "")` -/
  pythonpath : Text
  omp_num_threads : Option Text

section Commands

variable (args : Args) (environ : Environ)

/-- `tot_num_clients`, on that many hosts. -/
def totNumClients (n : ℕ) : ℕ := args.num_trainers * (1 + args.num_samplers) * n

/-- The assignments for a server when so many clients are announced. -/
def serverVars (tot_num_clients : ℕ) : List (String × Text) :=
  dglServerEnvVars args.num_samplers args.num_server_threads tot_num_clients args.part_config
    args.ip_config args.num_servers args.graph_format args.keep_alive environ.pythonpath

/-- The assignments for a client. -/
def clientVars (tot_num_clients g_group_id : ℕ) : List (String × Text) :=
  dglClientEnvVars args.num_samplers tot_num_clients args.part_config args.ip_config
    args.num_servers args.graph_format
    (environ.omp_num_threads.getD (str args.num_omp_threads)) g_group_id environ.pythonpath

/-- `server_env_vars_cur` of the server `i`. -/
def serverEnv (tot_num_clients i : ℕ) : Text :=
  envVars (serverVars args environ tot_num_clients) ++ (" DGL_SERVER_ID=".toList ++ str i)

/-- `client_env_vars`. -/
def clientEnv (tot_num_clients g_group_id : ℕ) : Text :=
  envVars (clientVars args environ tot_num_clients g_group_id)

/-- The extra variables and the change of directory around a command. -/
def inWorkspace (cmd : Text) : Text :=
  let cmd := if 0 < args.extra_envs.length then wrapCmdWithExtraEnvvars cmd args.extra_envs else cmd
  "cd ".toList ++ (args.workspace ++ ("; ".toList ++ cmd))

/-- The command of the server `i`. -/
def serverCmd (udf_command : Text) (tot_num_clients i : ℕ) : Text :=
  inWorkspace args (wrapCmdWithLocalEnvvars udf_command (serverEnv args environ tot_num_clients i))

/-- The command of the client launcher on the host with that rank. -/
def clientCmd (udf_command : Text) (tot_num_clients g_group_id num_nodes : ℕ) (master_addr : Text)
    (master_port node_rank : ℕ) : Text :=
  inWorkspace args (wrapCmdWithLocalEnvvars
    (wrapUdfInTorchDistLauncher udf_command args.num_trainers num_nodes node_rank master_addr
      master_port)
    (clientEnv args environ tot_num_clients g_group_id))

/-- `hosts[k]`. -/
def hostAt (hosts : List (Text × ℤ)) (k : ℕ) : Except Refusal (Text × ℤ) :=
  match hosts[k]? with
  | some host => .ok host
  | none => .error .index

/-- The loop that launches the servers unless some are alive: the commands, each with the address
it is executed on. -/
def serverJobs (alive : Bool) (udf_command : Text) (hosts : List (Text × ℤ))
    (server_count_per_machine : ℕ) : Except Refusal (List (Text × Text)) :=
  if alive then .ok []
  else (List.range (hosts.length * server_count_per_machine)).mapM fun i => do
    let host ← hostAt hosts (i / server_count_per_machine)
    return (host.1, serverCmd args environ udf_command (totNumClients args hosts.length) i)

/-- The loop that launches the clients. -/
def clientJobs (udf_command : Text) (hosts : List (Text × ℤ)) (g_group_id : ℕ)
    (master_addr : Text) (master_port : ℕ) : List (Text × Text) :=
  hosts.zipIdx.map fun h => (h.1.1, clientCmd args environ udf_command
    (totNumClients args hosts.length) g_group_id hosts.length master_addr master_port h.2)

/-- `submit_jobs`, up to the start of the cleanup process: the jobs of the clients and of the
servers. -/
def submitJobs (connects : Text → ℕ → Bool) (alive : Bool) (g_group_id : ℕ) (ip_config : Text)
    (num_parts : Option ℤ) (udf_command : Text) :
    Except Refusal (List (Text × Text) × List (Text × Text)) := do
  let hosts ← readHosts connects ip_config
  let server_count_per_machine := if hosts = [] then 0 else args.num_servers
  match num_parts with
  | none => .error .noNumParts
  | some num_parts =>
    if num_parts = hosts.length then
      let servers ← serverJobs args environ alive udf_command hosts server_count_per_machine
      let master ← hostAt hosts 0
      let master_port ← getAvailablePort connects master.1
      return (clientJobs args environ udf_command hosts g_group_id master.1 master_port, servers)
    else .error .partsMismatch

end Commands

/-- **The port is the first one or the second**: the loop tries 1235 with the socket that
has connected to 1234, which fails whatever listens there, so that a third port is never
tried. -/
theorem getAvailablePort_eq (connects : Text → ℕ → Bool) (ip : Text) :
    getAvailablePort connects ip = .ok (if connects ip 1234 then 1235 else 1234) := by
  have hports : List.range' 1234 (65535 - 1234) = 1234 :: 1235 :: List.range' 1236 64299 := rfl
  rw [getAvailablePort, hports, portLoop, if_neg Bool.false_ne_true]
  split_ifs
  · rw [portLoop, if_pos rfl]
  · rfl

section Configuration

variable {connects : Text → ℕ → Bool}

/-- A line of `ip_config`, and the host that it names. -/
inductive HostLine (connects : Text → ℕ → Bool) (line : Text) : Text × ℤ → Prop
  | address {ip text : Text} {port : ℤ} : Spaced isSpace [ip, text] line →
      int text = some port → HostLine connects line (ip, port)
  | bare {ip : Text} : Spaced isSpace [ip] line →
      HostLine connects line (ip, if connects ip 1234 then 1235 else 1234)

/-- **A line of the configuration is read** exactly if it has a host and perhaps a port, and
the host comes with the port the source takes it with. -/
theorem readHost_iff {line : Text} {host : Text × ℤ} :
    readHost connects line = .ok host ↔ HostLine connects line host := by
  constructor
  · intro h
    rw [readHost] at h
    split at h
    · next ip text hwords =>
      split at h
      · next port hport =>
        cases h
        exact .address (words_eq_iff.1 hwords) hport
      · cases h
    · next ip hwords =>
      rw [getAvailablePort_eq] at h
      cases h
      have hline : HostLine connects line _ := .bare (words_eq_iff.1 hwords)
      split_ifs at hline ⊢ <;> exact hline
    · cases h
  · rintro (⟨hwords, hport⟩ | hwords)
    · rw [readHost, words_eq_iff.2 hwords]
      simp only [hport]
    · rw [readHost, words_eq_iff.2 hwords]
      simp only [getAvailablePort_eq]
      split_ifs <;> rfl

/-- All lines are read, each by itself and in order; one that cannot be read fails the whole
configuration. -/
theorem readHosts_iff {ip_config : Text} {hosts : List (Text × ℤ)} :
    readHosts connects ip_config = .ok hosts ↔
      List.Forall₂ (HostLine connects) (lines ip_config) hosts := by
  rw [readHosts, mapM_ok_iff]
  simp only [readHost_iff]

/-- The files fit: the lines name the hosts, at least one, as many as there are partitions. -/
structure Configured (connects : Text → ℕ → Bool) (ip_config : Text) (num_parts : Option ℤ)
    (hosts : List (Text × ℤ)) : Prop where
  lines : List.Forall₂ (HostLine connects) (lines ip_config) hosts
  num_parts : num_parts = some (hosts.length : ℤ)
  ne_nil : hosts ≠ []

end Configuration

section Servers

variable {β : Type}

/-- **The loop over all servers runs over the hosts**, and on each over its servers: server
`i` is on the host `i / s`, so the ids on one host are consecutive. -/
theorem map_range_mul (hosts : List (Text × ℤ)) (d : Text × ℤ) (s : ℕ)
    (g : Text × ℤ → ℕ → β) :
    (List.range (hosts.length * s)).map (fun i => g (hosts.getD (i / s) d) i) =
      hosts.zipIdx.flatMap fun h => (List.range s).map fun j => g h.1 (h.2 * s + j) := by
  -- from the right: the last host has the last ids, and its quotient is its place
  induction hosts using List.reverseRecOn with
  | nil => simp
  | append_singleton hosts host ih =>
    have hfirst : (List.range (hosts.length * s)).map
        (fun i => g ((hosts ++ [host]).getD (i / s) d) i) =
        (List.range (hosts.length * s)).map fun i => g (hosts.getD (i / s) d) i := by
      refine List.map_congr_left fun i hi => ?_
      have hlt : i / s < hosts.length :=
        Nat.div_lt_of_lt_mul (Nat.mul_comm .. ▸ List.mem_range.1 hi)
      rw [List.getD_append _ _ _ _ hlt]
    have hlast : (List.range s).map
        (fun j => g ((hosts ++ [host]).getD ((hosts.length * s + j) / s) d)
          (hosts.length * s + j)) =
        (List.range s).map fun j => g host (hosts.length * s + j) := by
      refine List.map_congr_left fun j hj => ?_
      have hj := List.mem_range.1 hj
      have hdiv : (hosts.length * s + j) / s = hosts.length := by
        rw [Nat.mul_comm, Nat.mul_add_div (by omega), Nat.div_eq_of_lt hj, Nat.add_zero]
      rw [hdiv, List.getD_append_right _ _ _ _ le_rfl, Nat.sub_self]
      rfl
    rw [List.length_append, List.length_singleton, Nat.add_mul, Nat.one_mul, List.range_add,
      List.map_append, hfirst, ih, List.map_map, List.zipIdx_append, List.flatMap_append]
    congr 1
    simpa [Function.comp_def] using hlast

end Servers

section Environment

/-- A number in decimal has no blanks and no special characters. -/
theorem solid_str (n : ℕ) : Solid (str n) := by
  have hdigits : ∀ c : Char, 48 ≤ c.toNat → c.toNat ≤ 57 →
      blank c = false ∧ special c = false := by
    intro c h₁ h₂
    obtain ⟨k, hk, hc⟩ : ∃ k, k < 10 ∧ c = Char.ofNat (48 + k) :=
      ⟨c.toNat - 48, by omega, by rw [Nat.add_sub_cancel' h₁, Char.ofNat_toNat]⟩
    have hall : ∀ k, k < 10 → blank (Char.ofNat (48 + k)) = false ∧
        special (Char.ofNat (48 + k)) = false := by decide
    rw [hc]
    exact hall k hk
  intro c hc
  have hdigit : c.isDigit = true := Nat.isDigit_of_mem_toDigits (by decide) (by decide) hc
  simp only [Char.isDigit, Bool.and_eq_true, decide_eq_true_eq, UInt32.le_iff_toNat_le] at hdigit
  exact hdigits c hdigit.1 hdigit.2

/-- A name without `=` and a value that are single words together. -/
structure Assignable (v : String × Text) : Prop where
  name : Solid v.1.toList
  sign : '=' ∉ v.1.toList
  value : Solid v.2

/-- A variable whose name and value have neither is exported as one solid text. -/
theorem Assignable.solid {v : String × Text} (h : Assignable v) : Solid (assignment v) := by
  refine List.forall_mem_append.2 ⟨h.name, List.forall_mem_cons.2 ⟨?_, h.value⟩⟩
  decide

/-- So it is one word, which the shell does not split. -/
theorem Assignable.isWord {v : String × Text} (h : Assignable v) : IsWord blank (assignment v) :=
  isWord_of_solid h.solid (by simp [assignment])

/-- The variable as the shell has it. -/
def named (v : String × Text) : Text × Text := (v.1.toList, v.2)

/-- **The shell reads back the variables that were written**, name by name and value by
value, as long as the values need no quotes. -/
theorem mapM_assignment {vars : List (String × Text)} (h : ∀ v ∈ vars, Assignable v) :
    (vars.map assignment).mapM readAssignment = some (vars.map named) := by
  induction vars with
  | nil => rfl
  | cons v vars ih =>
    obtain ⟨hv, hvars⟩ := List.forall_mem_cons.1 h
    have hread : readAssignment (assignment v) = some (named v) := readAssignment_eq hv.sign
    rw [List.map_cons, List.mapM_cons, hread, ih hvars]
    rfl

/-- A shell reads a template back as its assignments. -/
theorem words_envVars {vars : List (String × Text)} (h : ∀ v ∈ vars, Assignable v) (s : Text) :
    words blank (envVars vars ++ s) = vars.map assignment ++ words blank s := by
  induction vars with
  | nil => rfl
  | cons v vars ih =>
    obtain ⟨hv, hvars⟩ := List.forall_mem_cons.1 h
    have htext : envVars (v :: vars) ++ s = assignment v ++ ' ' :: (envVars vars ++ s) := by
      simp [envVars]
    rw [htext, words_append_space blank_space, hv.isWord.words, ih hvars]
    rfl

/-- The list of variables, joined by spaces, ends no command and opens no quotation. -/
theorem special_envVars {vars : List (String × Text)} (h : ∀ v ∈ vars, Assignable v) :
    Ordinary (envVars vars) := by
  intro c hc
  obtain ⟨v, hv, hc⟩ := List.mem_flatMap.1 hc
  rcases List.mem_append.1 hc with hc | hc
  · exact ((h v hv).solid c hc).2
  · cases List.mem_singleton.1 hc
    decide

/-- What a shell does that reads a command: it goes to the workspace, exports the extra variables
and then these, each of them once, and runs the command; so each has its value. -/
structure Exports (text workspace : Text) (extra : List (Text × Text))
    (vars : List (String × Text)) (command : Text) : Prop where
  runs : Runs text workspace (extra ++ vars.map named) command
  nodup : (vars.map Prod.fst).Nodup
  value : ∀ v ∈ vars, valueAfter (extra ++ vars.map named) v.1.toList = some v.2

/-- A text that a shell takes as it is. -/
structure Literal (text : Text) : Prop where
  solid : Solid text
  /-- no expansion -/
  dollar : '$' ∉ text

/-- The texts that go into commands mean themselves; the extra variables may have expansions. -/
structure Plain (args : Args) (environ : Environ) : Prop where
  workspace : Literal args.workspace
  workspace_ne_nil : args.workspace ≠ []
  part_config : Literal args.part_config
  ip_config : Literal args.ip_config
  graph_format : Literal args.graph_format
  pythonpath : Literal environ.pythonpath
  omp_num_threads : ∀ text ∈ environ.omp_num_threads, Literal text
  extra_envs : Extra args.extra_envs

variable {args : Args} {environ : Environ}

/-- **What the shell makes of a command of a job**: it goes to the workspace, exports the
extra variables and then the ones of the job, each with the value it was given, and runs the
command. -/
theorem exports_inWorkspace (h : Plain args environ) {env : Text} (cmd : Text)
    {vars : List (String × Text)} (hvars : ∀ v ∈ vars, Assignable v)
    (hwords : words blank env = vars.map assignment) (hspecial : Ordinary env)
    (hnd : (vars.map Prod.fst).Nodup) :
    Exports (inWorkspace args (wrapCmdWithLocalEnvvars cmd env)) args.workspace
      (extraVars args.extra_envs) vars cmd := by
  refine ⟨?_, hnd, fun v hv => ?_⟩
  · refine runs_inside h.extra_envs h.workspace.solid h.workspace_ne_nil hspecial ?_
    rw [hwords, mapM_assignment hvars]
  · refine valueAfter_eq _ ?_ (v := named v) (List.mem_map_of_mem hv)
    have hnames : (vars.map named).map Prod.fst = (vars.map Prod.fst).map String.toList := by
      rw [List.map_map, List.map_map]
      rfl
    rw [hnames]
    exact hnd.map fun _ _ heq => String.toList_inj.1 heq

/-- Where `PYTHONPATH` has no blanks and no special characters, it can be exported like the
other variables. -/
theorem optionalEnvVars_assignable {pythonpath : Text} (h : Solid pythonpath) :
    ∀ v ∈ optionalEnvVars pythonpath, Assignable v := by
  intro v hv
  rw [optionalEnvVars] at hv
  split_ifs at hv
  · cases hv
  · obtain rfl := List.mem_singleton.1 hv
    exact ⟨(by decide : Solid "PYTHONPATH".toList), (by decide : '=' ∉ "PYTHONPATH".toList), h⟩

/-- There is one optional variable or none. -/
theorem optionalEnvVars_names (pythonpath : Text) :
    (optionalEnvVars pythonpath).map Prod.fst = [] ∨
      (optionalEnvVars pythonpath).map Prod.fst = ["PYTHONPATH"] := by
  rw [optionalEnvVars]
  split_ifs
  · exact .inl rfl
  · exact .inr rfl

/-- A name of a template. -/
theorem assignable {name : String} {value : Text} (hvalue : Solid value)
    (hname : Solid name.toList ∧ '=' ∉ name.toList) : Assignable (name, value) :=
  ⟨hname.1, hname.2, hvalue⟩

/-- The variables of a server can be exported: their values are numbers, paths and words
that the configuration has without blanks. -/
theorem serverVars_assignable (h : Plain args environ) (tot_num_clients i : ℕ) :
    ∀ v ∈ serverVars args environ tot_num_clients ++ [("DGL_SERVER_ID", str i)],
      Assignable v := by
  refine List.forall_mem_append.2 ⟨List.forall_mem_append.2 ⟨?_,
    optionalEnvVars_assignable h.pythonpath.solid⟩, ?_⟩
  · simp only [List.forall_mem_cons]
    exact ⟨assignable (by decide) (by decide), assignable (solid_str _) (by decide),
      assignable (solid_str _) (by decide), assignable (solid_str _) (by decide),
      assignable h.part_config.solid (by decide), assignable h.ip_config.solid (by decide),
      assignable (solid_str _) (by decide), assignable h.graph_format.solid (by decide),
      assignable (solid_str _) (by decide), fun _ hv => absurd hv List.not_mem_nil⟩
  · exact List.forall_mem_singleton.2 (assignable (solid_str i) (by decide))

/-- **What a server runs**: in the workspace, with the extra variables of the user and then
the variables of the server, among them its id, the command that was given. -/
theorem exports_serverCmd (h : Plain args environ) (udf_command : Text)
    (tot_num_clients i : ℕ) :
    Exports (serverCmd args environ udf_command tot_num_clients i) args.workspace
      (extraVars args.extra_envs)
      (serverVars args environ tot_num_clients ++ [("DGL_SERVER_ID", str i)]) udf_command := by
  have hall := serverVars_assignable h tot_num_clients i
  obtain ⟨hvars, hid⟩ := List.forall_mem_append.1 hall
  have hword := (List.forall_mem_singleton.1 hid).isWord
  have htext : " DGL_SERVER_ID=".toList ++ str i =
      [' '] ++ assignment ("DGL_SERVER_ID", str i) := by simp [assignment]
  refine exports_inWorkspace h _ hall ?_ ?_ ?_
  · have hgap : ∀ c ∈ [' '], blank c = true := List.forall_mem_singleton.2 blank_space
    rw [serverEnv, words_envVars hvars, htext, words_gap_append hgap, hword.words, List.map_append]
    rfl
  · refine List.forall_mem_append.2 ⟨special_envVars hvars, ?_⟩
    rw [htext]
    refine List.forall_mem_append.2 ⟨List.forall_mem_singleton.2 (by decide), fun c hc => ?_⟩
    exact ((List.forall_mem_singleton.1 hid).solid c hc).2
  · rw [List.map_append, serverVars, dglServerEnvVars, List.map_append]
    rcases optionalEnvVars_names environ.pythonpath with hnames | hnames <;> rw [hnames] <;>
      simp only [List.map_cons, List.map_nil] <;> decide

/-- The variables of a client can be exported for the same reasons. -/
theorem clientVars_assignable (h : Plain args environ) (tot_num_clients g_group_id : ℕ) :
    ∀ v ∈ clientVars args environ tot_num_clients g_group_id, Assignable v := by
  have homp : Solid (environ.omp_num_threads.getD (str args.num_omp_threads)) := by
    cases hcase : environ.omp_num_threads with
    | none => exact solid_str _
    | some text => exact (h.omp_num_threads text hcase).solid
  refine List.forall_mem_append.2 ⟨?_, optionalEnvVars_assignable h.pythonpath.solid⟩
  simp only [List.forall_mem_cons]
  exact ⟨assignable (by decide) (by decide), assignable (by decide) (by decide),
    assignable (solid_str _) (by decide), assignable (solid_str _) (by decide),
    assignable h.part_config.solid (by decide), assignable h.ip_config.solid (by decide),
    assignable (solid_str _) (by decide), assignable h.graph_format.solid (by decide),
    assignable homp (by decide), assignable (solid_str _) (by decide),
    fun _ hv => absurd hv List.not_mem_nil⟩

/-- **What a client runs**: in the workspace, with the extra variables and then the
variables of the clients, the command wrapped in the launcher of PyTorch for its rank. -/
theorem exports_clientCmd (h : Plain args environ) (udf_command : Text)
    (tot_num_clients g_group_id num_nodes : ℕ) (master_addr : Text) (master_port node_rank : ℕ) :
    Exports
      (clientCmd args environ udf_command tot_num_clients g_group_id num_nodes master_addr
        master_port node_rank)
      args.workspace (extraVars args.extra_envs)
      (clientVars args environ tot_num_clients g_group_id)
      (wrapUdfInTorchDistLauncher udf_command args.num_trainers num_nodes node_rank master_addr
        master_port) := by
  have hvars := clientVars_assignable h tot_num_clients g_group_id
  refine exports_inWorkspace h _ hvars ?_ (special_envVars hvars) ?_
  · have hwords := words_envVars hvars []
    rw [List.append_nil] at hwords
    rw [clientEnv, hwords]
    exact List.append_nil _
  · rw [clientVars, dglClientEnvVars, List.map_append]
    rcases optionalEnvVars_names environ.pythonpath with hnames | hnames <;> rw [hnames] <;>
      simp only [List.map_cons, List.map_nil] <;> decide

end Environment

section Distinct

/-- Different numbers are written differently. -/
theorem str_injective : Function.Injective str := fun m n h => by
  have hread := congrArg readGroup h
  rw [readGroup_str, readGroup_str] at hread
  exact Option.some.inj hread

/-- A number ends where a text that does not begin with a digit goes on. -/
theorem str_append_inj {m n : ℕ} {c : Char} {s t : Text} (hc : c.isDigit = false)
    (h : str m ++ c :: s = str n ++ c :: t) : m = n := by
  have htake : ∀ k u, (str k ++ c :: u).takeWhile Char.isDigit = str k := by
    intro k u
    have hdigit : ∀ d ∈ str k, d.isDigit = true := fun d hd =>
      Nat.isDigit_of_mem_toDigits (by decide) (by decide) hd
    rw [List.takeWhile_append_of_pos hdigit, List.takeWhile_cons_of_neg (by simp [hc]),
      List.append_nil]
  have htakes := congrArg (List.takeWhile Char.isDigit) h
  rw [htake, htake] at htakes
  exact str_injective htakes

variable {args : Args} {environ : Environ}

/-- Going into the workspace first keeps different commands different. -/
theorem inWorkspace_injective : Function.Injective (inWorkspace args) := by
  intro cmd cmd' h
  have hcmd := List.append_cancel_left (List.append_cancel_left (List.append_cancel_left h))
  split_ifs at hcmd
  · exact List.append_cancel_right (List.append_cancel_left
      (List.append_cancel_left (List.append_cancel_left hcmd)))
  · exact hcmd

/-- A wrapped command tells the command and the variables apart, where one of the two is
known. -/
theorem wrapCmdWithLocalEnvvars_inj {cmd cmd' env_vars env_vars' : Text}
    (h : wrapCmdWithLocalEnvvars cmd env_vars = wrapCmdWithLocalEnvvars cmd' env_vars') :
    (cmd = cmd' → env_vars = env_vars') ∧ (env_vars = env_vars' → cmd = cmd') := by
  have hall := List.append_cancel_left h
  constructor
  · rintro rfl
    exact List.append_cancel_right hall
  · rintro rfl
    exact List.append_cancel_right (List.append_cancel_left (List.append_cancel_left hall))

/-- Different servers get different commands, as they get different ids. -/
theorem serverCmd_injective (udf_command : Text) (tot_num_clients : ℕ) :
    Function.Injective (serverCmd args environ udf_command tot_num_clients) := by
  intro i j h
  have henv := (wrapCmdWithLocalEnvvars_inj (inWorkspace_injective h)).1 rfl
  exact str_injective (List.append_cancel_left (List.append_cancel_left henv))

/-- The rank can be read off the torch launcher, whatever stands behind it. -/
theorem constructTorchDistLauncherCmd_inj {num_trainers num_nodes k l master_port : ℕ}
    {master_addr s t : Text}
    (h : constructTorchDistLauncherCmd num_trainers num_nodes k master_addr master_port ++ s =
      constructTorchDistLauncherCmd num_trainers num_nodes l master_addr master_port ++ t) :
    k = l := by
  have hcancel : ∀ a b c d e u v g : Text, a ++ (b ++ (c ++ (d ++ (e ++ (u ++ g))))) ++ s =
      a ++ (b ++ (c ++ (d ++ (e ++ (v ++ g))))) ++ t → u ++ (g ++ s) = v ++ (g ++ t) := by
    intro a b c d e u v g huv
    simpa only [List.append_assoc, List.append_cancel_left_eq] using huv
  have hspace : " --master_addr=".toList = ' ' :: "--master_addr=".toList := by simp
  have hrank := hcancel _ _ _ _ _ _ _ _ h
  rw [hspace, List.cons_append, List.cons_append, List.cons_append] at hrank
  exact str_append_inj (by decide) hrank

/-- The ranks tell the client launchers apart when the command names python. -/
theorem clientCmd_injective {udf_command : Text} (hpython : python <:+: udf_command)
    (tot_num_clients g_group_id num_nodes : ℕ) (master_addr : Text) (master_port : ℕ) :
    Function.Injective (clientCmd args environ udf_command tot_num_clients g_group_id num_nodes
      master_addr master_port) := by
  intro k l h
  have hudf := (wrapCmdWithLocalEnvvars_inj (inWorkspace_injective h)).2 rfl
  obtain ⟨pieces, -, hpieces, -, htwo⟩ := wrapUdf_pieces udf_command
  obtain ⟨p, q, ps, rfl⟩ : ∃ p q ps, pieces = p :: q :: ps := by
    match pieces, htwo hpython with
    | p :: q :: ps, _ => exact ⟨p, q, ps, rfl⟩
  rw [hpieces, hpieces, List.intercalate_cons_cons, List.intercalate_cons_cons] at hudf
  simp only [List.append_assoc, List.append_cancel_left_eq, List.cons_append, List.cons.injEq,
    true_and] at hudf
  exact constructTorchDistLauncherCmd_inj hudf

end Distinct

section Deployment

variable {args : Args} {environ : Environ} {connects : Text → ℕ → Bool} {alive : Bool}
  {g_group_id : ℕ} {ip_config : Text} {num_parts : Option ℤ} {udf_command : Text}

/-- The jobs on these hosts. -/
structure Deployed (args : Args) (environ : Environ) (connects : Text → ℕ → Bool) (alive : Bool)
    (g_group_id : ℕ) (udf_command : Text) (hosts : List (Text × ℤ))
    (clients servers : List (Text × Text)) : Prop where
  /-- running servers are used -/
  used : alive = true → servers = []
  /-- otherwise every host gets its servers, with consecutive ids -/
  started : alive = false → servers = hosts.zipIdx.flatMap fun h =>
    (List.range args.num_servers).map fun j => (h.1.1, serverCmd args environ udf_command
      (totNumClients args clients.length) (h.2 * args.num_servers + j))
  /-- every host gets one client launcher, of its rank -/
  ranked : ∃ master ∈ hosts.head?, clients = hosts.zipIdx.map fun h =>
    (h.1.1, clientCmd args environ udf_command (totNumClients args clients.length) g_group_id
      hosts.length master.1 (if connects master.1 1234 then 1235 else 1234) h.2)
  servers_nodup : (servers.map Prod.snd).Nodup
  clients_nodup : (clients.map Prod.snd).Nodup
  /-- all processes are told how many client processes there are -/
  server_env : ∀ i, Exports
    (serverCmd args environ udf_command (totNumClients args clients.length) i) args.workspace
    (extraVars args.extra_envs)
    (serverVars args environ (totNumClients args clients.length) ++ [("DGL_SERVER_ID", str i)])
    udf_command
  client_env : ∀ num_nodes master_addr master_port node_rank, Exports
    (clientCmd args environ udf_command (totNumClients args clients.length) g_group_id num_nodes
      master_addr master_port node_rank)
    args.workspace (extraVars args.extra_envs)
    (clientVars args environ (totNumClients args clients.length) g_group_id)
    (wrapUdfInTorchDistLauncher udf_command args.num_trainers num_nodes node_rank master_addr
      master_port)

/-- A host is looked up by its number, and there is none behind the last. -/
theorem hostAt_eq_ok_iff {hosts : List (Text × ℤ)} {k : ℕ} {host : Text × ℤ} :
    hostAt hosts k = .ok host ↔ hosts[k]? = some host := by
  rw [hostAt]
  cases hosts[k]? with
  | none => exact ⟨fun h => (nomatch h), fun h => (nomatch h)⟩
  | some _ => exact ⟨fun h => congrArg some (Except.ok.inj h), fun h => by rw [Option.some.inj h]⟩

/-- No index of the loop over the servers is out of range. -/
theorem serverJobs_eq (udf_command : Text) (hosts : List (Text × ℤ)) (s : ℕ) :
    serverJobs args environ false udf_command hosts s =
      .ok ((List.range (hosts.length * s)).map fun i => ((hosts.getD (i / s) ([], 0)).1,
        serverCmd args environ udf_command (totNumClients args hosts.length) i)) := by
  refine mapM_ok_iff.2 (List.forall₂_map_right_iff.2 (List.forall₂_same.2 fun i hi => ?_))
  have hlt : i / s < hosts.length :=
    Nat.div_lt_of_lt_mul (Nat.mul_comm .. ▸ List.mem_range.1 hi)
  have hget := List.getElem?_eq_getElem hlt
  rw [hostAt_eq_ok_iff.2 hget, List.getD_eq_getElem?_getD, hget]
  rfl

/-- The ids tell the servers apart. -/
theorem serverJobs_nodup {hosts : List (Text × ℤ)} {s : ℕ} {servers : List (Text × Text)}
    (h : serverJobs args environ alive udf_command hosts s = .ok servers) :
    (servers.map Prod.snd).Nodup := by
  cases alive with
  | true =>
    rw [← Except.ok.inj h]
    exact List.nodup_nil
  | false =>
    rw [serverJobs_eq] at h
    rw [← Except.ok.inj h, List.map_map]
    exact List.nodup_range.map (serverCmd_injective udf_command _)

/-- The ranks tell the client launchers apart. -/
theorem clientJobs_nodup (hpython : python <:+: udf_command) (hosts : List (Text × ℤ))
    (g_group_id : ℕ) (master_addr : Text) (master_port : ℕ) :
    ((clientJobs args environ udf_command hosts g_group_id master_addr master_port).map
      Prod.snd).Nodup := by
  have hmap : (clientJobs args environ udf_command hosts g_group_id master_addr master_port).map
      Prod.snd = (List.range' 0 hosts.length).map (clientCmd args environ udf_command
        (totNumClients args hosts.length) g_group_id hosts.length master_addr master_port) := by
    rw [← List.zipIdx_map_snd, clientJobs, List.map_map, List.map_map]
    rfl
  rw [hmap]
  exact List.Nodup.map (clientCmd_injective hpython ..) List.nodup_range'

/-- `submit_jobs` launches when the files fit, and only then. -/
theorem submitJobs_eq_ok_iff {clients servers : List (Text × Text)} :
    submitJobs args environ connects alive g_group_id ip_config num_parts udf_command =
        .ok (clients, servers) ↔
      ∃ hosts, Configured connects ip_config num_parts hosts ∧
        serverJobs args environ alive udf_command hosts args.num_servers = .ok servers ∧
        ∃ master ∈ hosts.head?, clientJobs args environ udf_command hosts g_group_id master.1
          (if connects master.1 1234 then 1235 else 1234) = clients := by
  constructor
  · intro h
    obtain ⟨hosts, hhosts, h⟩ := bind_ok_iff.1 h
    cases num_parts with
    | none => cases h
    | some n =>
      simp only at h
      by_cases hn : n = hosts.length
      swap
      · rw [if_neg hn] at h
        cases h
      rw [if_pos hn] at h
      obtain ⟨servers', hservers, h⟩ := bind_ok_iff.1 h
      obtain ⟨master, hmaster, h⟩ := bind_ok_iff.1 h
      rw [getAvailablePort_eq] at h
      cases h
      have hfirst := hostAt_eq_ok_iff.1 hmaster
      have hne : hosts ≠ [] := by
        rintro rfl
        cases hfirst
      rw [if_neg hne] at hservers
      exact ⟨hosts, ⟨readHosts_iff.1 hhosts, congrArg some hn, hne⟩, hservers, master,
        by rwa [List.head?_eq_getElem?], rfl⟩
  · rintro ⟨hosts, h, hservers, master, hmaster, hclients⟩
    have hfirst : hosts[0]? = some master := by rwa [← List.head?_eq_getElem?]
    refine bind_ok_iff.2 ⟨hosts, readHosts_iff.2 h.lines, ?_⟩
    rw [h.num_parts]
    simp only [if_neg h.ne_nil, if_true]
    refine bind_ok_iff.2 ⟨servers, hservers, ?_⟩
    refine bind_ok_iff.2 ⟨master, hostAt_eq_ok_iff.2 hfirst, ?_⟩
    rw [getAvailablePort_eq, ← hclients]
    rfl

/-- Two trainers and two servers on each host. -/
def smallArgs : Args where
  workspace := "/w".toList
  num_trainers := 2
  num_omp_threads := 1
  num_samplers := 0
  num_servers := 2
  num_server_threads := 1
  part_config := "p.json".toList
  ip_config := "ip.txt".toList
  graph_format := "csc".toList
  extra_envs := ["NCCL_DEBUG=INFO".toList]
  keep_alive := false

end Deployment

end Launch
end BearRpc
