/-
# The commands as a shell reads them

Without quotes, expansions and patterns the rule is short: a command ends at the first
operator, its words are what blanks separate, and the arguments of `export` are
assignments.  `firstCommand` and `readExports` follow it for the only commands that
`submit_jobs` makes (`tools/launch.py`), `cd`, and `export` in parentheses; a text with a
special character in front of the first `;` is not read at all.

What `wrap_cmd_with_local_envvars` makes is read back (`readExport_wrap`), also with the
extra variables around it (`runs_inside`).
-/

import BearRpc.Launch.Commands
import Mathlib.Data.List.Nodup

namespace BearRpc
namespace Launch

open Theory

/-- What separates words. -/
def blank (c : Char) : Bool := c = ' ' ∨ c = '\t'

/-- The characters that end a command or make of a word something else than it says: operators,
quotes, patterns, braces, comments and the tilde. -/
def special (c : Char) : Bool := c ∈ "\n|&;<>()`\\\"'*?[]#~!\x7b\x7d".toList

/-- The words of the first command of a list, and what is behind its `;`. -/
def firstCommand (text : Text) : Option (List Text × Text) :=
  match text.dropWhile fun c => !special c with
  | [] => none
  | c :: rest =>
    if c = ';' then some (words blank (text.takeWhile fun c => !special c), rest) else none

/-- An argument of `export`: the name and the value. -/
def readAssignment (word : Text) : Option (Text × Text) :=
  match word.dropWhile fun c => c ≠ '=' with
  | [] => none
  | _ :: value => some (word.takeWhile fun c => c ≠ '=', value)

/-- The arguments of `export`. -/
def exportArgs : List Text → Option (List Text)
  | [] => none
  | command :: args => if command = "export".toList then some args else none

/-- `(export A=a B=b; ..`: the assignments, and the commands behind them. -/
def readExport (text : Text) : Option (List (Text × Text) × Text) :=
  match text.dropWhile blank with
  | [] => none
  | c :: text =>
    if c = '(' then do
      let (command, rest) ← firstCommand text
      let args ← exportArgs command
      let vars ← args.mapM readAssignment
      return (vars, rest)
    else none

/-- So many of them, one inside the other. -/
def readExports : ℕ → Text → Option (List (Text × Text) × Text)
  | 0, text => some ([], text)
  | n + 1, text => do
    let (vars, rest) ← readExport text
    let (more, command) ← readExports n rest
    return (vars ++ more, command)

/-- A shell that reads the text goes to `workspace`, makes these assignments one after the
other, and runs the command. -/
def Runs (text workspace : Text) (vars : List (Text × Text)) (command : Text) : Prop :=
  ∃ n rest, firstCommand text = some (["cd".toList, workspace], rest) ∧
    readExports n rest = some (vars, ' ' :: (command ++ List.replicate n ')'))

/-- The value that a variable has after these assignments. -/
def valueAfter (vars : List (Text × Text)) (name : Text) : Option Text := vars.reverse.lookup name

/-- A text without special characters. -/
def Ordinary (text : Text) : Prop := ∀ c ∈ text, special c = false

instance (text : Text) : Decidable (Ordinary text) := List.decidableBAll _ text

/-- A text that is one word, as it is. -/
def Solid (text : Text) : Prop := ∀ c ∈ text, blank c = false ∧ special c = false

instance (text : Text) : Decidable (Solid text) := List.decidableBAll _ text

variable {env cmd command workspace text : Text} {vars : List (Text × Text)}

/-- A text without blanks and special characters is one word of the shell. -/
theorem isWord_of_solid (h : Solid text) (hne : text ≠ []) : IsWord blank text :=
  ⟨hne, fun c hc => (h c hc).1⟩

/-- **The first command of a line** ends at the first semicolon, if the text before it has
neither a special character nor a semicolon of its own. -/
theorem firstCommand_eq (h : Ordinary command) (rest : Text) :
    firstCommand (command ++ ';' :: rest) = some (words blank command, rest) := by
  have hall : ∀ c ∈ command, (!special c) = true := fun c hc => by rw [h c hc]; rfl
  have hend : special ';' = true := by decide
  rw [firstCommand, List.dropWhile_append_of_pos hall, List.takeWhile_append_of_pos hall,
    List.dropWhile_cons_of_neg (by rw [hend]; decide),
    List.takeWhile_cons_of_neg (by rw [hend]; decide), List.append_nil]
  exact if_pos rfl

/-- `name=value` is read at its first equals sign, so a value may have further ones. -/
theorem readAssignment_eq {name value : Text} (h : '=' ∉ name) :
    readAssignment (name ++ '=' :: value) = some (name, value) := by
  have hall : ∀ c ∈ name, decide (c ≠ '=') = true := fun c hc =>
    decide_eq_true fun heq => h (heq ▸ hc)
  rw [readAssignment, List.dropWhile_append_of_pos hall, List.takeWhile_append_of_pos hall]
  simp

/-- A text that is an assignment. -/
theorem exists_readAssignment (h : '=' ∈ text) : ∃ v, readAssignment text = some v := by
  cases hdrop : text.dropWhile fun c => decide (c ≠ '=') with
  | nil =>
    rw [List.dropWhile_eq_nil_iff] at hdrop
    exact absurd rfl (of_decide_eq_true (hdrop '=' h))
  | cons c value => exact ⟨_, by rw [readAssignment, hdrop]⟩

/-- The space separates words. -/
theorem blank_space : blank ' ' = true := by decide

/-- The parenthesis, with which the wrapped command begins, does not. -/
theorem not_blank_paren : ¬ blank '(' = true := by decide

/-- `export` is a word. -/
theorem isWord_export : IsWord blank "export".toList :=
  isWord_of_solid (by decide) (by decide)

/-- It is the word that makes a command export its other words. -/
theorem exportArgs_export {word : Text} (h : word = "export".toList) (args : List Text) :
    exportArgs (word :: args) = some args := by
  rw [exportArgs, if_pos h]

/-- **What is wrapped is read back**: a shell that reads the text of
`wrap_cmd_with_local_envvars` finds the assignments behind `export`, and then the command.
-/
theorem readExport_wrap (hspecial : Ordinary env)
    (hvars : (words blank env).mapM readAssignment = some vars) (tail : Text) :
    readExport (' ' :: (wrapCmdWithLocalEnvvars cmd env ++ tail)) =
      some (vars, ' ' :: (cmd ++ ')' :: tail)) := by
  have htext : wrapCmdWithLocalEnvvars cmd env ++ tail =
      '(' :: (("export ".toList ++ env) ++ ';' :: ' ' :: (cmd ++ ')' :: tail)) := by
    -- the texts of the template are put in as variables, so that no step evaluates them
    have hgen : ∀ o s c e : Text, o = '(' :: e → s = [';', ' '] → c = [')'] →
        (o ++ (env ++ (s ++ (cmd ++ c)))) ++ tail =
          '(' :: ((e ++ env) ++ ';' :: ' ' :: (cmd ++ ')' :: tail)) := by
      rintro _ _ _ e rfl rfl rfl
      simp only [List.append_assoc, List.cons_append, List.nil_append]
    exact hgen _ _ _ _ (by decide) (by decide) (by decide)
  have hcommand : Ordinary ("export ".toList ++ env) :=
    List.forall_mem_append.2 ⟨(by decide : Ordinary "export ".toList), hspecial⟩
  have hwords : words blank ("export ".toList ++ env) = "export".toList :: words blank env := by
    have hsplit : "export ".toList = "export".toList ++ [' '] := by decide
    rw [hsplit, List.append_assoc, List.singleton_append, words_append_space blank_space,
      isWord_export.words]
    rfl
  have hfirst := firstCommand_eq hcommand (' ' :: (cmd ++ ')' :: tail))
  rw [hwords] at hfirst
  rw [readExport, htext, List.dropWhile_cons_of_pos blank_space,
    List.dropWhile_cons_of_neg not_blank_paren]
  dsimp only
  rw [if_pos rfl]
  refine Option.bind_eq_some_iff.2 ⟨_, hfirst, ?_⟩
  refine Option.bind_eq_some_iff.2 ⟨_, exportArgs_export rfl _, ?_⟩
  exact Option.bind_eq_some_iff.2 ⟨_, hvars, rfl⟩

/-- The words of a list of words. -/
theorem words_intercalate {ws : List Text} (h : ∀ w ∈ ws, IsWord blank w) :
    words blank ([' '].intercalate ws) = ws := by
  induction ws with
  | nil => rfl
  | cons w ws ih =>
    obtain ⟨hw, hws⟩ := List.forall_mem_cons.1 h
    cases ws with
    | nil => rw [List.intercalate_singleton, hw.words]
    | cons w' ws =>
      rw [List.intercalate_cons_cons, List.append_assoc, List.singleton_append,
        words_append_space blank_space, hw.words, ih hws]
      rfl

/-- The arguments `--extra_envs` as assignments. -/
def extraVars (extra_envs : List Text) : List (Text × Text) :=
  extra_envs.filterMap readAssignment

/-- A list of texts that all have an equals sign is read as variables, one each. -/
theorem mapM_readAssignment {ws : List Text} (h : ∀ w ∈ ws, '=' ∈ w) :
    ws.mapM readAssignment = some (extraVars ws) := by
  induction ws with
  | nil => rfl
  | cons w ws ih =>
    obtain ⟨hw, hws⟩ := List.forall_mem_cons.1 h
    obtain ⟨v, hv⟩ := exists_readAssignment hw
    have hcons : extraVars (w :: ws) = v :: extraVars ws := List.filterMap_cons_some hv
    rw [List.mapM_cons, hv, ih hws, hcons]
    rfl

/-- The extra variables are assignments that are single words. -/
structure Extra (extra_envs : List Text) : Prop where
  solid : ∀ e ∈ extra_envs, Solid e
  assign : ∀ e ∈ extra_envs, '=' ∈ e

/-- Words without special characters, with spaces between them, make up a text without
special characters. -/
theorem special_intercalate {ws : List Text} (h : ∀ w ∈ ws, Solid w) :
    Ordinary ([' '].intercalate ws) := by
  induction ws with
  | nil => exact fun c hc => absurd hc List.not_mem_nil
  | cons w ws ih =>
    obtain ⟨hw, hws⟩ := List.forall_mem_cons.1 h
    have hword : Ordinary w := fun c hc => (hw c hc).2
    cases ws with
    | nil => rwa [List.intercalate_singleton]
    | cons w' ws =>
      rw [List.intercalate_cons_cons]
      refine List.forall_mem_append.2 ⟨List.forall_mem_append.2 ⟨hword, ?_⟩, ih hws⟩
      exact List.forall_mem_singleton.2 (by decide)

/-- **The extra variables are assigned first**, and then those of the command: the text with
both wrappers, read by a shell, changes into the workspace and runs the command with all of
them. -/
theorem runs_inside {extra_envs : List Text} (hextra : Extra extra_envs)
    (hworkspace : Solid workspace) (hne : workspace ≠ [])
    (hspecial : Ordinary env)
    (hvars : (words blank env).mapM readAssignment = some vars) :
    Runs ("cd ".toList ++ (workspace ++ ("; ".toList ++
        if 0 < extra_envs.length then
          wrapCmdWithExtraEnvvars (wrapCmdWithLocalEnvvars cmd env) extra_envs
        else wrapCmdWithLocalEnvvars cmd env)))
      workspace (extraVars extra_envs ++ vars) cmd := by
  have hcd : ∀ rest : Text, firstCommand ("cd ".toList ++ (workspace ++ ("; ".toList ++ rest))) =
      some (["cd".toList, workspace], ' ' :: rest) := by
    intro rest
    have htext : "cd ".toList ++ (workspace ++ ("; ".toList ++ rest)) =
        ("cd".toList ++ ' ' :: workspace) ++ ';' :: ' ' :: rest := by
      have hgen : ∀ c s d : Text, c = d ++ [' '] → s = [';', ' '] →
          c ++ (workspace ++ (s ++ rest)) = (d ++ ' ' :: workspace) ++ ';' :: ' ' :: rest := by
        rintro _ _ d rfl rfl
        simp only [List.append_assoc, List.cons_append, List.nil_append]
      exact hgen _ _ _ (by decide) (by decide)
    have hcommand : Ordinary ("cd".toList ++ ' ' :: workspace) := by
      refine List.forall_mem_append.2 ⟨(by decide : Ordinary "cd".toList),
        List.forall_mem_cons.2 ⟨by decide, ?_⟩⟩
      exact fun c hc => (hworkspace c hc).2
    have hword : IsWord blank "cd".toList := isWord_of_solid (by decide) (by decide)
    rw [htext, firstCommand_eq hcommand, words_append_space blank_space, hword.words,
      (isWord_of_solid hworkspace hne).words]
    rfl
  split_ifs with hlen
  · have hwords : (words blank ([' '].intercalate extra_envs)).mapM readAssignment =
        some (extraVars extra_envs) := by
      rw [words_intercalate, mapM_readAssignment hextra.assign]
      exact fun e he => isWord_of_solid (hextra.solid e he)
        (List.ne_nil_of_mem (hextra.assign e he))
    refine ⟨2, _, hcd _, ?_⟩
    have houter := @readExport_wrap _ (wrapCmdWithLocalEnvvars cmd env) _
      (special_intercalate hextra.solid) hwords []
    rw [List.append_nil] at houter
    have hinner := @readExport_wrap _ cmd _ hspecial hvars [')']
    refine Option.bind_eq_some_iff.2 ⟨_, houter, ?_⟩
    refine Option.bind_eq_some_iff.2 ⟨(vars, ' ' :: (cmd ++ [')', ')'])), ?_, rfl⟩
    refine Option.bind_eq_some_iff.2 ⟨_, hinner, ?_⟩
    exact congrArg (fun l => some (l, ' ' :: (cmd ++ [')', ')']))) (List.append_nil vars)
  · obtain rfl : extra_envs = [] := List.eq_nil_of_length_eq_zero (Nat.eq_zero_of_not_pos hlen)
    refine ⟨1, _, hcd _, ?_⟩
    have hinner := @readExport_wrap _ cmd _ hspecial hvars []
    rw [List.append_nil] at hinner
    refine Option.bind_eq_some_iff.2 ⟨_, hinner, ?_⟩
    exact congrArg (fun l => some (l, ' ' :: (cmd ++ [')']))) (List.append_nil vars)

/-- **The last assignment counts**, and the variables of the command are assigned last: an
extra variable of the same name does not change their values. -/
theorem valueAfter_eq (extra : List (Text × Text)) (hnd : (vars.map Prod.fst).Nodup)
    {v : Text × Text} (hv : v ∈ vars) : valueAfter (extra ++ vars) v.1 = some v.2 := by
  have hlookup : ∀ l : List (Text × Text), (l.map Prod.fst).Nodup → v ∈ l →
      ∀ rest, (l ++ rest).lookup v.1 = some v.2 := by
    intro l hnd hv rest
    induction l with
    | nil => exact absurd hv List.not_mem_nil
    | cons w l ih =>
      obtain ⟨hw, hnd⟩ := List.nodup_cons.1 hnd
      rw [List.cons_append]
      rcases List.mem_cons.1 hv with rfl | hv
      · exact List.lookup_cons_self
      · have hne : v.1 ≠ w.1 := fun heq => hw (heq ▸ List.mem_map_of_mem hv)
        rw [List.lookup_cons, beq_false_of_ne hne]
        exact ih hnd hv
  rw [valueAfter, List.reverse_append]
  refine hlookup _ ?_ (List.mem_reverse.2 hv) _
  rw [List.map_reverse]
  exact List.nodup_reverse.2 hnd

end Launch
end BearRpc
