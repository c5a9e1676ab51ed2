/-
# The command lines of the launcher

`construct_torch_dist_launcher_cmd`, `wrap_udf_in_torch_dist_launcher`,
`construct_dgl_server_env_vars`, `construct_dgl_client_env_vars`,
`wrap_cmd_with_local_envvars` and `wrap_cmd_with_extra_envvars` (`tools/launch.py`).

The torch launcher goes behind every occurrence of the first name of the allowlist that
occurs in the command, `python` if none does.  The docstring rules out commands with several
python commands; with one, the launcher goes behind the name of the binary exactly when that
name is on the list or is `python` (`wrapUdf_once`).  So `python3.10 train.py` becomes
`python3 -m torch.distributed.launch ... .10 train.py`.
-/

import BearRpc.Launch.Groups
import BearRpc.Theory.Text
import Mathlib.Data.List.Find

namespace BearRpc
namespace Launch

open Theory Groups

abbrev Text := List Char

/-- `str.isspace()`. -/
def isSpace (c : Char) : Bool :=
  let n := c.toNat
  9 ≤ n ∧ n ≤ 13 ∨ 28 ≤ n ∧ n ≤ 32 ∨ 0x2000 ≤ n ∧ n ≤ 0x200A ∨
    n ∈ [0x85, 0xA0, 0x1680, 0x2028, 0x2029, 0x202F, 0x205F, 0x3000]

/-- `construct_torch_dist_launcher_cmd`. -/
def constructTorchDistLauncherCmd (num_trainers num_nodes node_rank : ℕ) (master_addr : Text)
    (master_port : ℕ) : Text :=
  "-m torch.distributed.launch --nproc_per_node=".toList ++ (str num_trainers ++
    (" --nnodes=".toList ++ (str num_nodes ++
      (" --node_rank=".toList ++ (str node_rank ++
        (" --master_addr=".toList ++ (master_addr ++
          (" --master_port=".toList ++ str master_port))))))))

/-- `python_bin_allowlist`, in its order. -/
def pythonBinAllowlist : List Text :=
  ["python3.6", "python3.7", "python3.8", "python3.9", "python3", "python2.7", "python2"].map
    String.toList

/-- The `python_bin` that the loop over the allowlist finds. -/
def pythonBin (udf_command : Text) : Text :=
  (pythonBinAllowlist.find? fun candidate => candidate <:+: udf_command).getD "python".toList

/-- `wrap_udf_in_torch_dist_launcher`. -/
def wrapUdfInTorchDistLauncher (udf_command : Text) (num_trainers num_nodes node_rank : ℕ)
    (master_addr : Text) (master_port : ℕ) : Text :=
  let torch_dist_cmd :=
    constructTorchDistLauncherCmd num_trainers num_nodes node_rank master_addr master_port
  let python_bin := pythonBin udf_command
  replace python_bin (python_bin ++ ' ' :: torch_dist_cmd) udf_command

/-- `NAME=value`. -/
def assignment (v : String × Text) : Text := v.1.toList ++ '=' :: v.2

/-- A template of assignments, each with the space behind it. -/
def envVars (vars : List (String × Text)) : Text := vars.flatMap fun v => assignment v ++ [' ']

/-- `suffix_optional_envvars`. -/
def optionalEnvVars (pythonpath : Text) : List (String × Text) :=
  if pythonpath = [] then [] else [("PYTHONPATH", pythonpath)]

/-- The assignments of `construct_dgl_server_env_vars`. -/
def dglServerEnvVars (num_samplers num_server_threads tot_num_clients : ℕ)
    (part_config ip_config : Text) (num_servers : ℕ) (graph_format : Text) (keep_alive : Bool)
    (pythonpath : Text) : List (String × Text) :=
  [("DGL_ROLE", "server".toList), ("DGL_NUM_SAMPLER", str num_samplers),
    ("OMP_NUM_THREADS", str num_server_threads), ("DGL_NUM_CLIENT", str tot_num_clients),
    ("DGL_CONF_PATH", part_config), ("DGL_IP_CONFIG", ip_config),
    ("DGL_NUM_SERVER", str num_servers), ("DGL_GRAPH_FORMAT", graph_format),
    ("DGL_KEEP_ALIVE", str keep_alive.toNat)] ++ optionalEnvVars pythonpath

/-- The assignments of `construct_dgl_client_env_vars`. -/
def dglClientEnvVars (num_samplers tot_num_clients : ℕ) (part_config ip_config : Text)
    (num_servers : ℕ) (graph_format num_omp_threads : Text) (group_id : ℕ) (pythonpath : Text) :
    List (String × Text) :=
  [("DGL_DIST_MODE", "distributed".toList), ("DGL_ROLE", "client".toList),
    ("DGL_NUM_SAMPLER", str num_samplers), ("DGL_NUM_CLIENT", str tot_num_clients),
    ("DGL_CONF_PATH", part_config), ("DGL_IP_CONFIG", ip_config),
    ("DGL_NUM_SERVER", str num_servers), ("DGL_GRAPH_FORMAT", graph_format),
    ("OMP_NUM_THREADS", num_omp_threads), ("DGL_GROUP_ID", str group_id)] ++
    optionalEnvVars pythonpath

/-- `wrap_cmd_with_local_envvars`. -/
def wrapCmdWithLocalEnvvars (cmd env_vars : Text) : Text :=
  "(export ".toList ++ (env_vars ++ ("; ".toList ++ (cmd ++ ")".toList)))

/-- `wrap_cmd_with_extra_envvars`. -/
def wrapCmdWithExtraEnvvars (cmd : Text) (env_vars : List Text) : Text :=
  wrapCmdWithLocalEnvvars cmd ([' '].intercalate env_vars)

section Wrapping

/-- `python`, which `main` asks for in the command. -/
def python : Text := "python".toList

/-- What the names of the allowlist have behind `python`. -/
def versions : List Text := ["3.6", "3.7", "3.8", "3.9", "3", "2.7", "2"].map String.toList

/-- The names that `wrap_udf_in_torch_dist_launcher` looks for are `python` with a version,
in this order. -/
theorem pythonBinAllowlist_eq : pythonBinAllowlist = versions.map (python ++ ·) := by decide

/-- The version that the loop reads off the text behind `python`. -/
def version (suffix : Text) : Text := (versions.find? fun v => v <+: suffix).getD []

/-- The version that is found is one of those, or none. -/
theorem version_mem (suffix : Text) : version suffix ∈ [] :: versions := by
  cases h : versions.find? fun v => v <+: suffix with
  | none => rw [version, h]; exact List.mem_cons_self
  | some v => rw [version, h]; exact List.mem_cons_of_mem _ (List.mem_of_find?_eq_some h)

/-- It stands at the front of the text behind `python`. -/
theorem version_isPrefix (suffix : Text) : version suffix <+: suffix := by
  cases h : versions.find? fun v => v <+: suffix with
  | none => rw [version, h]; exact List.nil_prefix
  | some v => rw [version, h]; simpa using List.find?_some h

/-- A version is read off whole: longer names stand before shorter ones on the list. -/
theorem version_of_mem {suffix : Text} (h : suffix ∈ [] :: versions) : version suffix = suffix := by
  have hall : ∀ v ∈ [] :: versions, version v = v := by decide
  exact hall suffix h

/-- The only place of `python` in a command. -/
def OnlyPython (pre tail : Text) : Prop :=
  ∀ a b, pre ++ (python ++ tail) = a ++ (python ++ b) → a = pre

variable {pre suffix rest tail : Text}

/-- **In a command with one `python`**, a name of the list occurs if its version stands
behind that one. -/
theorem OnlyPython.occurs_iff (hone : OnlyPython pre tail) (v : Text) :
    python ++ v <:+: pre ++ (python ++ tail) ↔ v <+: tail := by
  constructor
  · rintro ⟨a, b, hab⟩
    rw [List.append_assoc, List.append_assoc] at hab
    obtain rfl := hone a (v ++ b) hab.symm
    exact ⟨b, List.append_cancel_left (List.append_cancel_left hab)⟩
  · rintro ⟨b, rfl⟩
    exact ⟨pre, b, by simp only [List.append_assoc]⟩

/-- What holds no space fits into a word that a space, or nothing, follows. -/
theorem prefix_append_iff {v : Text} (hv : ' ' ∉ v) (hrest : ∀ c ∈ rest.head?, c = ' ') :
    v <+: suffix ++ rest ↔ v <+: suffix := by
  refine ⟨fun h => ?_, fun h => h.trans (List.prefix_append suffix rest)⟩
  rcases List.prefix_or_prefix_of_prefix h (List.prefix_append suffix rest) with hp | ⟨t, rfl⟩
  · exact hp
  · have ht : t <+: rest := (List.prefix_append_right_inj suffix).1 h
    cases t with
    | nil => rw [List.append_nil]
    | cons c t =>
      obtain ⟨u, rfl⟩ := ht
      obtain rfl := hrest c rfl
      exact absurd (List.mem_append_right suffix List.mem_cons_self) hv

/-- So the name that is found is `python` with the version that stands there. -/
theorem pythonBin_of_only (hone : OnlyPython pre (suffix ++ rest))
    (hrest : ∀ c ∈ rest.head?, c = ' ') :
    pythonBin (pre ++ (python ++ (suffix ++ rest))) = python ++ version suffix := by
  have hspace : ∀ v ∈ versions, ' ' ∉ v := by decide
  have hfind : (versions.find? fun v =>
      python ++ v <:+: pre ++ (python ++ (suffix ++ rest))) =
      versions.find? fun v => v <+: suffix := by
    refine List.find?_congr fun v hv => ?_
    rw [decide_eq_decide, hone.occurs_iff, prefix_append_iff (hspace v hv) hrest]
  rw [pythonBin, pythonBinAllowlist_eq, List.find?_map, version]
  change (Option.map _ (versions.find? fun v =>
    decide (python ++ v <:+: pre ++ (python ++ (suffix ++ rest))))).getD _ = _
  rw [hfind]
  cases versions.find? fun v => v <+: suffix <;> rfl

/-- What is inserted, and where. -/
theorem wrapUdf_of_only (hone : OnlyPython pre (suffix ++ rest))
    (hrest : ∀ c ∈ rest.head?, c = ' ') (num_trainers num_nodes node_rank : ℕ)
    (master_addr : Text) (master_port : ℕ) :
    wrapUdfInTorchDistLauncher (pre ++ (python ++ (suffix ++ rest))) num_trainers num_nodes
        node_rank master_addr master_port =
      pre ++ (python ++ (version suffix ++ ' ' :: (constructTorchDistLauncherCmd num_trainers
        num_nodes node_rank master_addr master_port ++
          (suffix.drop (version suffix).length ++ rest)))) := by
  obtain ⟨left, hleft⟩ := version_isPrefix suffix
  have hdrop : suffix.drop (version suffix).length = left := by
    have h := congrArg (List.drop (version suffix).length) hleft
    rw [List.drop_left] at h
    exact h.symm
  have htext : pre ++ (python ++ (suffix ++ rest)) =
      pre ++ ((python ++ version suffix) ++ (left ++ rest)) := by
    conv_lhs => rw [← hleft]
    simp only [List.append_assoc]
  have hbin : python ++ version suffix ≠ [] := by simp [python]
  rw [wrapUdfInTorchDistLauncher, pythonBin_of_only hone hrest, hdrop, htext,
    replace_once hbin _ fun a b hab => ?_]
  · simp only [List.append_assoc, List.cons_append]
  · rw [← htext, List.append_assoc] at hab
    exact hone a _ hab

/-- **The launcher goes behind the name of the binary**, in a command in which `python` occurs
once, exactly when that name is on the list or is `python`. -/
theorem wrapUdf_once (hone : OnlyPython pre (suffix ++ rest)) (hsuffix : ' ' ∉ suffix)
    (hrest : ∀ c ∈ rest.head?, c = ' ') (num_trainers num_nodes node_rank : ℕ)
    (master_addr : Text) (master_port : ℕ) :
    wrapUdfInTorchDistLauncher (pre ++ (python ++ (suffix ++ rest))) num_trainers num_nodes
        node_rank master_addr master_port =
      pre ++ (python ++ (suffix ++ ' ' :: (constructTorchDistLauncherCmd num_trainers num_nodes
        node_rank master_addr master_port ++ rest))) ↔
      python ++ suffix ∈ pythonBinAllowlist ∨ suffix = [] := by
  have hmem : python ++ suffix ∈ pythonBinAllowlist ∨ suffix = [] ↔ suffix ∈ [] :: versions := by
    rw [pythonBinAllowlist_eq, List.mem_cons, or_comm, List.mem_map]
    simp only [List.append_cancel_left_eq, exists_eq_right]
  rw [wrapUdf_of_only hone hrest, hmem, List.append_cancel_left_eq, List.append_cancel_left_eq]
  constructor
  · intro h
    obtain ⟨left, hleft⟩ := version_isPrefix suffix
    have hversion : version suffix = suffix := by
      conv_rhs at h => rw [← hleft]
      rw [List.append_assoc] at h
      have hrem := List.append_cancel_left h
      cases left with
      | nil => rwa [List.append_nil] at hleft
      | cons c left =>
        -- the launcher would begin with a letter of the name
        have hc : ' ' = c := (List.cons.inj hrem).1
        exact absurd (by rw [← hleft, ← hc]; simp) hsuffix
    exact hversion ▸ version_mem suffix
  · intro h
    rw [version_of_mem h, List.drop_length, List.nil_append]

/-- A command with one `p` holds `python` once. -/
theorem onlyPython_of_notMem (hpre : 'p' ∉ pre) (htail : 'p' ∉ tail) : OnlyPython pre tail := by
  intro a b hab
  have hcount := congrArg (List.count 'p') hab
  have hpython : python.count 'p' = 1 := by decide
  simp only [List.count_append, hpython, List.count_eq_zero_of_not_mem hpre,
    List.count_eq_zero_of_not_mem htail] at hcount
  have ha : 'p' ∉ a := List.count_eq_zero.1 (by omega)
  have htake : ∀ l : Text, 'p' ∉ l → ∀ t, (l ++ (python ++ t)).takeWhile (· ≠ 'p') = l := by
    intro l hl t
    have hall : ∀ c ∈ l, decide (c ≠ 'p') = true := fun c hc =>
      decide_eq_true fun h => hl (h ▸ hc)
    rw [List.takeWhile_append_of_pos hall]
    exact List.append_nil l
  have htakes := congrArg (List.takeWhile (· ≠ 'p')) hab
  rw [htake pre hpre, htake a ha] at htakes
  exact htakes.symm

/-- A name that is not on the list is cut in two. -/
theorem wrapUdf_once_python310 :
    wrapUdfInTorchDistLauncher "python3.10 train".toList 1 1 0 "h".toList 1234 ≠
      "python3.10 ".toList ++ (constructTorchDistLauncherCmd 1 1 0 "h".toList 1234 ++
        " train".toList) := by
  have hrest : ∀ c ∈ " train".toList.head?, c = ' ' := fun c hc =>
    (Option.some.inj (show some ' ' = some c from hc)).symm
  have h := @wrapUdf_once [] "3.10".toList " train".toList
    (onlyPython_of_notMem (by decide) (by decide)) (by decide) hrest 1 1 0 "h".toList 1234
  exact fun heq => absurd (h.1 heq) (by decide)

/-- The name that the loop finds occurs in a command that `main` lets through. -/
theorem pythonBin_occurs {udf_command : Text} (h : python <:+: udf_command) :
    pythonBin udf_command <:+: udf_command := by
  cases hf : pythonBinAllowlist.find? fun candidate => candidate <:+: udf_command with
  | none => rwa [pythonBin, hf]
  | some candidate => rw [pythonBin, hf]; simpa using List.find?_some hf

/-- The name that is looked for is never empty, as it has a default. -/
theorem pythonBin_ne_nil (udf_command : Text) : pythonBin udf_command ≠ [] := by
  cases hf : pythonBinAllowlist.find? fun candidate => candidate <:+: udf_command with
  | none => rw [pythonBin, hf]; decide
  | some candidate =>
    have hall : ∀ c ∈ pythonBinAllowlist, c ≠ [] := by decide
    rw [pythonBin, hf]
    exact hall _ (List.mem_of_find?_eq_some hf)

/-- **The launcher is inserted at every occurrence of one name**, whatever it is told, and at
least once in a command that `main` lets through. -/
theorem wrapUdf_pieces (udf_command : Text) :
    ∃ pieces : List Text, (pythonBin udf_command).intercalate pieces = udf_command ∧
      (∀ num_trainers num_nodes node_rank master_addr master_port,
        wrapUdfInTorchDistLauncher udf_command num_trainers num_nodes node_rank master_addr
          master_port = (pythonBin udf_command ++ ' ' :: constructTorchDistLauncherCmd num_trainers
            num_nodes node_rank master_addr master_port).intercalate pieces) ∧
      (∀ piece ∈ pieces, ¬ pythonBin udf_command <:+: piece) ∧
      (python <:+: udf_command → 2 ≤ pieces.length) := by
  obtain ⟨pieces, hjoin, hreplace, hfree, htwo, -⟩ :=
    exists_pieces (pythonBin_ne_nil udf_command) udf_command
  exact ⟨pieces, hjoin, fun _ _ _ _ _ => hreplace _, hfree, fun h => htwo (pythonBin_occurs h)⟩

end Wrapping

end Launch
end BearRpc
