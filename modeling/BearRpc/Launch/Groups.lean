/-
# Group ids of long-lived servers

`has_alive_servers` and `clean_alive_servers` (`tools/launch.py`), run by any number of
launchers with the same `--server_name`.  The monitor file holds the next group id in
decimal; it is read and written under a `FileLock` on a second file, which
`clean_alive_servers` removes as well, without taking the lock.

`FileLock` is not part of the repository: when it grants a lock is a parameter, and what is
relied on is that it does not grant the lock on a file that somebody holds (`Exclusive`).
A lock belongs to the file that was opened, not to its name, so a launcher that opens the
lock file after it was removed excludes nobody who opened it before.  As long as nobody is
inside `has_alive_servers` while files are removed, no launcher fails and the ids handed
out since the monitor file was created are 0, 1, 2 and so on (`groups_correct`).  The
handler that removes the files is installed after the call has returned; a launcher that is
killed inside the call is not modelled.
-/

import BearRpc.Theory.Transition
import Mathlib.Data.List.Nodup
import Mathlib.Data.List.TakeWhile

namespace BearRpc
namespace Launch
namespace Groups

open Theory Function

/-- Where a launcher is in `has_alive_servers`, with the lock file it has opened. -/
inductive Phase where
  /-- before the call -/
  | before
  /-- waits for the lock -/
  | opened (file : ℕ)
  /-- before `os.path.exists(monitor_file)` -/
  | locked (file : ℕ)
  /-- before `open(monitor_file)`, to read it -/
  | found (file : ℕ)
  /-- before `open(monitor_file, 'w')` -/
  | writing (file : ℕ) (ret : Bool) (next_group_id : ℕ)
  /-- before `f.write(str(next_group_id))` -/
  | truncated (file : ℕ) (ret : Bool) (next_group_id : ℕ)
  /-- before the lock is released -/
  | leaving (file : ℕ) (ret : Bool)
  | left (ret : Bool)
  /-- in `clean_alive_servers`, between the two removals -/
  | removing
  | gone
  /-- has left by an exception -/
  | crashed
  deriving DecidableEq, Repr

/-- The lock file it has opened. -/
def Phase.file? : Phase → Option ℕ
  | .opened file | .locked file | .found file | .writing file _ _ | .truncated file _ _
  | .leaving file _ => some file
  | _ => none

/-- The lock it holds. -/
def Phase.lock? : Phase → Option ℕ
  | .opened _ => none
  | phase => phase.file?

/-- A launcher, with its globals. -/
structure Launcher where
  keep_alive : Bool
  g_group_id : ℕ
  /-- `g_monitor_file is not None` -/
  g_monitor_file : Bool
  phase : Phase

/-- The launchers and the two files. -/
structure State (ι : Type) where
  launcher : ι → Launcher
  /-- the text of the monitor file, if there is one -/
  monitor : Option (List Char)
  /-- the file under the name of the lock file -/
  lockFile : Option ℕ
  /-- how many lock files there have been -/
  created : ℕ

/-- What happens. -/
inductive Act (ι : Type) where
  | openLock (i : ι)
  | retry (i : ι)
  | acquire (i : ι)
  | check (i : ι)
  | read (i : ι) (id : ℕ)
  | fail (i : ι)
  | truncate (i : ι) (ret : Bool)
  | write (i : ι)
  | release (i : ι)
  | removeMonitor (i : ι)
  | removeLock (i : ι)
  | removeFails (i : ι)
  deriving DecidableEq

/-- `str(n)`. -/
def str (n : ℕ) : List Char := Nat.toDigits 10 n

/-- `int(lines[0])` for the lines of a text, on digits. -/
def readGroup (text : List Char) : Option ℕ :=
  let line := text.takeWhile fun c => c ≠ '\n'
  if line ≠ [] ∧ line.all Char.isDigit then some (Nat.ofDigitChars 10 line 0) else none

section Steps

variable {ι : Type} [DecidableEq ι]

/-- The launcher `i` is now as `x`. -/
def State.set (s : State ι) (i : ι) (x : Launcher) : State ι :=
  { s with launcher := update s.launcher i x }

/-- The launcher `i` goes on to the next phase. -/
def State.move (s : State ι) (i : ι) (phase : Phase) : State ι :=
  s.set i { s.launcher i with phase := phase }

/-- When `FileLock` grants the lock on a file to a launcher that has opened it. -/
abbrev Grants (ι : Type) := State ι → ι → ℕ → Prop

/-- Nobody is granted a lock that somebody holds. -/
def Exclusive (grants : Grants ι) : Prop :=
  ∀ s i file, grants s i file → ∀ j, (s.launcher j).phase.lock? ≠ some file

/-- What a launcher does next. -/
inductive Step (grants : Grants ι) : State ι → Act ι → State ι → Prop
  /-- the lock file is opened, and made if there is none -/
  | openLock {s : State ι} {i file} (h : (s.launcher i).phase = .before)
      (hfile : s.lockFile = some file) : Step grants s (.openLock i) (s.move i (.opened file))
  | makeLock {s : State ι} {i} (h : (s.launcher i).phase = .before) (hfile : s.lockFile = none) :
      Step grants s (.openLock i)
        { s.move i (.opened s.created) with
          lockFile := some s.created
          created := s.created + 1 }
  /-- the lock is not granted: the file is closed, and opened again later -/
  | retry {s : State ι} {i file} (h : (s.launcher i).phase = .opened file)
      (hrefused : ¬ grants s i file) : Step grants s (.retry i) (s.move i .before)
  | acquire {s : State ι} {i file} (h : (s.launcher i).phase = .opened file)
      (hgranted : grants s i file) :
      Step grants s (.acquire i) (s.move i (.locked file))
  | present {s : State ι} {i file} (h : (s.launcher i).phase = .locked file)
      (hmonitor : s.monitor.isSome) : Step grants s (.check i) (s.move i (.found file))
  | missing {s : State ι} {i file} (h : (s.launcher i).phase = .locked file)
      (hmonitor : s.monitor = none) :
      Step grants s (.check i)
        (if (s.launcher i).keep_alive then
          s.set i { s.launcher i with g_monitor_file := true, phase := .writing file false 1 }
        else s.move i (.leaving file false))
  | read {s : State ι} {i file text id} (h : (s.launcher i).phase = .found file)
      (hmonitor : s.monitor = some text) (hid : readGroup text = some id) :
      Step grants s (.read i id)
        (s.set i { s.launcher i with g_group_id := id, phase := .writing file true (id + 1) })
  /-- no file, no line or no number: an exception -/
  | fail {s : State ι} {i file} (h : (s.launcher i).phase = .found file)
      (hmonitor : s.monitor.bind readGroup = none) : Step grants s (.fail i) (s.move i .crashed)
  | truncate {s : State ι} {i file ret next} (h : (s.launcher i).phase = .writing file ret next) :
      Step grants s (.truncate i ret)
        { s.move i (.truncated file ret next) with monitor := some [] }
  | write {s : State ι} {i file ret next} (h : (s.launcher i).phase = .truncated file ret next) :
      Step grants s (.write i) { s.move i (.leaving file ret) with monitor := some (str next) }
  | release {s : State ι} {i file ret} (h : (s.launcher i).phase = .leaving file ret) :
      Step grants s (.release i) (s.move i (.left ret))
  /-- `os.remove(g_monitor_file)`, in the handler of `SIGINT` -/
  | removeMonitor {s : State ι} {i ret} (h : (s.launcher i).phase = .left ret)
      (hfile : (s.launcher i).g_monitor_file = true) (hmonitor : s.monitor.isSome) :
      Step grants s (.removeMonitor i) { s.move i .removing with monitor := none }
  | removeFails {s : State ι} {i ret} (h : (s.launcher i).phase = .left ret)
      (hfile : (s.launcher i).g_monitor_file = true) (hmonitor : s.monitor = none) :
      Step grants s (.removeFails i) (s.move i .gone)
  | removeLock {s : State ι} {i} (h : (s.launcher i).phase = .removing) :
      Step grants s (.removeLock i) { s.move i .gone with lockFile := none }

end Steps

variable {ι : Type} {grants : Grants ι} {s s' : State ι} {ls : List (Act ι)} {a : Act ι} {i : ι}

/-- No launcher has called `has_alive_servers`, and there are no files. -/
def start (keep_alive : ι → Bool) : State ι :=
  ⟨fun i => ⟨keep_alive i, 0, false, .before⟩, none, none, 0⟩

/-- Nobody is inside `has_alive_servers`. -/
def State.Quiet (s : State ι) : Prop := ∀ i, (s.launcher i).phase.file? = none

/-- Files are removed. -/
def Act.Removes : Act ι → Prop
  | .removeMonitor _ | .removeLock _ => True
  | _ => False

/-- The launchers that the current servers know, with their group ids: whoever made the
monitor file, and whoever has read an id from it since. -/
def members (ls : List (Act ι)) : List (ι × ℕ) :=
  ls.foldl (fun known a =>
    match a with
    | .truncate i false => [(i, 0)]
    | .read i id => known ++ [(i, id)]
    | .removeMonitor _ => []
    | _ => known) []

/-! ### What holds between two steps -/

/-- It has been told its group id, or has made the monitor file. -/
def Phase.Known : Phase → Prop
  | .before | .opened _ | .locked _ | .found _ | .crashed => False
  | _ => True

/-- The monitor file is being written. -/
def Phase.Busy : Phase → Prop
  | .writing _ _ _ | .truncated _ _ _ => True
  | _ => False

/-- What a launcher knows, when `n` launchers have their ids. -/
def Phase.Ok (n g_group_id : ℕ) : Phase → Prop
  | .found _ => 0 < n
  | .writing _ true next => next = n ∧ 0 < n
  | .writing _ false next => next = 1 ∧ n = 0 ∧ g_group_id = 0
  | .truncated _ _ next => next = n ∧ 0 < n
  | .crashed => False
  | _ => True

/-- The monitor file, when nobody writes it. -/
def text (n : ℕ) : Option (List Char) := if n = 0 then none else some (str n)

/-- What holds between two steps. -/
structure Inv (ls : List (Act ι)) (s : State ι) : Prop where
  file : ∀ i f, (s.launcher i).phase.file? = some f → s.lockFile = some f
  mutex : ∀ i j, (s.launcher i).phase.lock? ≠ none → (s.launcher j).phase.lock? ≠ none → i = j
  ids : (members ls).map Prod.snd = List.range (members ls).length
  known : ∀ e ∈ members ls, (s.launcher e.1).g_group_id = e.2 ∧ (s.launcher e.1).phase.Known
  fresh : ∀ i, ¬ (s.launcher i).phase.Known → (s.launcher i).g_group_id = 0
  ok : ∀ i, (s.launcher i).phase.Ok (members ls).length (s.launcher i).g_group_id
  settled : (∀ i, ¬ (s.launcher i).phase.Busy) → s.monitor = text (members ls).length

/-- **The id in the monitor file is read back**: the number that was written in decimal is
the number that the next launcher reads. -/
theorem readGroup_str (n : ℕ) : readGroup (str n) = some n := by
  have hdigit : ∀ c ∈ str n, c.isDigit = true := fun c hc =>
    Nat.isDigit_of_mem_toDigits (by decide) (by decide) hc
  have hline : (str n).takeWhile (fun c => c ≠ '\n') = str n := by
    refine List.takeWhile_eq_self_iff.2 fun c hc => ?_
    have hne : c ≠ '\n' := by
      rintro rfl
      exact absurd (hdigit _ hc) (by decide)
    simpa using hne
  have hne : str n ≠ [] := Nat.toDigits_ne_nil
  simp only [readGroup, hline]
  rw [if_pos ⟨hne, List.all_eq_true.2 hdigit⟩, str, Nat.ofDigitChars_ten_toDigits]

/-- Who writes the monitor file holds the lock. -/
theorem Phase.lock?_of_busy {phase : Phase} (h : phase.Busy) : phase.lock? ≠ none := by
  cases phase <;> first | exact h.elim | exact Option.some_ne_none _

theorem Phase.file?_of_lock? {phase : Phase} {f : ℕ} (h : phase.lock? = some f) :
    phase.file? = some f := by
  cases phase <;> first | exact h | cases h

theorem Phase.lock?_of_file? {phase : Phase} (h : phase.file? = none) : phase.lock? = none := by
  cases hlock : phase.lock? with
  | none => rfl
  | some f => cases h.symm.trans (Phase.file?_of_lock? hlock)

/-- Who does not hold the lock does not depend on the number of ids. -/
theorem Phase.Ok.of_free {phase : Phase} {n m id : ℕ} (h : phase.Ok n id)
    (hfree : phase.lock? = none) : phase.Ok m id := by
  cases phase <;> first | exact trivial | exact h.elim | cases hfree

/-- While a launcher holds the lock, no other does. -/
theorem Inv.free_of_holds (h : Inv ls s) (hi : (s.launcher i).phase.lock? ≠ none) :
    ∀ j, j ≠ i → (s.launcher j).phase.lock? = none := by
  intro j hj
  by_contra hne
  exact hj (h.mutex j i hne hi)

/-- Nobody else writes while a launcher holds the lock. -/
theorem Inv.settled_of_holds (h : Inv ls s) (hi : (s.launcher i).phase.lock? ≠ none)
    (hbusy : ¬ (s.launcher i).phase.Busy) : s.monitor = text (members ls).length := by
  refine h.settled fun j hj => ?_
  rcases eq_or_ne j i with rfl | hne
  · exact hbusy hj
  · exact Phase.lock?_of_busy hj (h.free_of_holds hi j hne)

/-- **Who is a member** after one more step: whoever makes the monitor file is the first,
whoever reads an id from it is added, and removing the file dissolves the group. -/
theorem members_snoc (ls : List (Act ι)) (a : Act ι) :
    members (ls ++ [a]) =
      match a with
      | .truncate i false => [(i, 0)]
      | .read i id => members ls ++ [(i, id)]
      | .removeMonitor _ => []
      | _ => members ls := by
  rw [members, List.foldl_append]
  rfl

variable [DecidableEq ι]

/-- One launcher has moved on. -/
theorem Inv.next (h : Inv ls s) {x : Launcher} (hs : s'.launcher = update s.launcher i x)
    (hfile : ∀ f, x.phase.file? = some f → s'.lockFile = some f)
    (hlockFile : s'.lockFile = s.lockFile ∨ ∀ j, j ≠ i → (s.launcher j).phase.file? = none)
    (hmutex : x.phase.lock? ≠ none → ∀ j, j ≠ i → (s.launcher j).phase.lock? = none)
    (hids : (members (ls ++ [a])).map Prod.snd = List.range (members (ls ++ [a])).length)
    (hknown : ∀ e ∈ members (ls ++ [a]), e.1 = i ∧ x.g_group_id = e.2 ∧ x.phase.Known ∨
      e.1 ≠ i ∧ e ∈ members ls)
    (hfresh : ¬ x.phase.Known → x.g_group_id = 0)
    (hok : x.phase.Ok (members (ls ++ [a])).length x.g_group_id)
    (hothers : (members (ls ++ [a])).length = (members ls).length ∨
      ∀ j, j ≠ i → (s.launcher j).phase.lock? = none)
    (hsettled : ¬ x.phase.Busy → (∀ j, j ≠ i → ¬ (s.launcher j).phase.Busy) →
      s'.monitor = text (members (ls ++ [a])).length) : Inv (ls ++ [a]) s' := by
  have hself : s'.launcher i = x := by rw [hs, update_self]
  have hother : ∀ j, j ≠ i → s'.launcher j = s.launcher j := fun j hj => by
    rw [hs, update_of_ne hj]
  refine ⟨fun j f hj => ?_, fun j k hj hk => ?_, hids, fun e he => ?_, fun j hj => ?_,
    fun j => ?_, fun hall => ?_⟩
  · rcases eq_or_ne j i with rfl | hne
    · exact hfile f (hself ▸ hj)
    · rw [hother j hne] at hj
      rcases hlockFile with heq | hnone
      · rw [heq]
        exact h.file j f hj
      · rw [hnone j hne] at hj
        cases hj
  · rcases eq_or_ne j i with rfl | hj'
    · by_contra hne
      rw [hself] at hj
      rw [hother k (Ne.symm hne)] at hk
      exact hk (hmutex hj k (Ne.symm hne))
    · rw [hother j hj'] at hj
      rcases eq_or_ne k i with rfl | hk'
      · rw [hself] at hk
        exact absurd (hmutex hk j hj') hj
      · rw [hother k hk'] at hk
        exact h.mutex j k hj hk
  · rcases hknown e he with ⟨heq, hid⟩ | ⟨hne, hmem⟩
    · rw [heq, hself]
      exact hid
    · rw [hother _ hne]
      exact h.known e hmem
  · rcases eq_or_ne j i with rfl | hne
    · rw [hself] at hj ⊢
      exact hfresh hj
    · rw [hother j hne] at hj ⊢
      exact h.fresh j hj
  · rcases eq_or_ne j i with rfl | hne
    · rw [hself]
      exact hok
    · rw [hother j hne]
      rcases hothers with heq | hfree
      · rw [heq]
        exact h.ok j
      · exact (h.ok j).of_free (hfree j hne)
  · refine hsettled (hself ▸ hall i) fun j hj => ?_
    rw [← hother j hj]
    exact hall j

/-- One launcher has moved on, and no id was handed out. -/
theorem Inv.moved (h : Inv ls s) {phase : Phase}
    (hs : s'.launcher = update s.launcher i { s.launcher i with phase := phase })
    (hmem : members (ls ++ [a]) = members ls)
    (hknown : (s.launcher i).phase.Known → phase.Known)
    (hok : phase.Ok (members ls).length (s.launcher i).g_group_id)
    (hfile : ∀ f, phase.file? = some f → s'.lockFile = some f)
    (hlockFile : s'.lockFile = s.lockFile ∨ ∀ j, j ≠ i → (s.launcher j).phase.file? = none)
    (hmutex : phase.lock? ≠ none → ∀ j, j ≠ i → (s.launcher j).phase.lock? = none)
    (hsettled : ¬ phase.Busy → (∀ j, j ≠ i → ¬ (s.launcher j).phase.Busy) →
      s'.monitor = text (members ls).length) : Inv (ls ++ [a]) s' := by
  refine h.next hs hfile hlockFile hmutex ?_ (fun e he => ?_) (fun hnot => ?_) ?_ (.inl ?_) ?_
  · rw [hmem]
    exact h.ids
  · rw [hmem] at he
    rcases eq_or_ne e.1 i with heq | hne
    · obtain ⟨hid, hk⟩ := h.known e he
      rw [heq] at hid hk
      exact .inl ⟨heq, hid, hknown hk⟩
    · exact .inr ⟨hne, he⟩
  · exact h.fresh i fun hk => hnot (hknown hk)
  · rw [hmem]
    exact hok
  · rw [hmem]
  · rw [hmem]
    exact hsettled

omit [DecidableEq ι] in
/-- The text between two writes. -/
theorem Inv.settled_of_others (h : Inv ls s) (hi : ¬ (s.launcher i).phase.Busy)
    (hothers : ∀ j, j ≠ i → ¬ (s.launcher j).phase.Busy) :
    s.monitor = text (members ls).length := by
  refine h.settled fun j => ?_
  rcases eq_or_ne j i with rfl | hne
  · exact hi
  · exact hothers j hne

omit [DecidableEq ι] in
/-- Who gets the lock is alone: all have opened the same file. -/
theorem Inv.alone_of_free (h : Inv ls s) {file : ℕ} (hi : (s.launcher i).phase = .opened file)
    (hfree : ∀ j, (s.launcher j).phase.lock? ≠ some file) (j : ι) :
    (s.launcher j).phase.lock? = none := by
  cases hj : (s.launcher j).phase.lock? with
  | none => rfl
  | some f =>
    have hf := h.file j f (Phase.file?_of_lock? hj)
    have hfile := h.file i file (by rw [hi]; rfl)
    rw [hfile] at hf
    exact absurd (hj.trans hf.symm) (hfree j)

/-- **The step lemma**: with a lock that excludes, and files removed while nobody is inside
`has_alive_servers`, every step of every launcher keeps the books on the ids. -/
theorem Inv.step (hlock : Exclusive grants) (h : Inv ls s) (hstep : Step grants s a s')
    (hquiet : a.Removes → s.Quiet) : Inv (ls ++ [a]) s' := by
  have hmem := members_snoc ls a
  cases hstep with
  | @openLock i file hi hfile =>
    refine h.moved (i := i) rfl hmem ?_ trivial (fun f hf => ?_) (.inl rfl) ?_ ?_
    · rw [hi]
      exact False.elim
    · cases hf
      exact hfile
    · exact fun hne => absurd rfl hne
    · exact fun _ => h.settled_of_others (by rw [hi]; exact id)
  | @makeLock i hi hfile =>
    refine h.moved (i := i) rfl hmem ?_ trivial (fun f hf => ?_) (.inr fun j _ => ?_) ?_ ?_
    · rw [hi]
      exact False.elim
    · exact hf
    · -- whoever has opened a lock file keeps its name from being free
      cases hj : (s.launcher j).phase.file? with
      | none => rfl
      | some f => cases hfile.symm.trans (h.file j f hj)
    · exact fun hne => absurd rfl hne
    · exact fun _ => h.settled_of_others (by rw [hi]; exact id)
  | @retry i file hi _ =>
    refine h.moved (i := i) rfl hmem ?_ trivial (fun f hf => ?_) (.inl rfl) ?_ ?_
    · rw [hi]
      exact False.elim
    · cases hf
    · exact fun hne => absurd rfl hne
    · exact fun _ => h.settled_of_others (by rw [hi]; exact id)
  | @acquire i file hi hgranted =>
    refine h.moved (i := i) rfl hmem ?_ trivial (fun f hf => ?_) (.inl rfl) ?_ ?_
    · rw [hi]
      exact False.elim
    · exact h.file i f (by rw [hi]; exact hf)
    · exact fun _ j _ => h.alone_of_free hi (hlock s i file hgranted) j
    · exact fun _ => h.settled_of_others (by rw [hi]; exact id)
  | @present i file hi hmonitor =>
    have hholds : (s.launcher i).phase.lock? ≠ none := by rw [hi]; exact Option.some_ne_none _
    have hbusy : ¬ (s.launcher i).phase.Busy := by rw [hi]; exact id
    refine h.moved (i := i) rfl hmem ?_ ?_ (fun f hf => ?_) (.inl rfl) ?_ ?_
    · rw [hi]
      exact False.elim
    · refine Nat.pos_of_ne_zero fun hzero => ?_
      rw [h.settled_of_holds hholds hbusy, text, if_pos hzero] at hmonitor
      cases hmonitor
    · exact h.file i f (by rw [hi]; exact hf)
    · exact fun _ => h.free_of_holds hholds
    · exact fun _ => h.settled_of_others hbusy
  | @missing i file hi hmonitor =>
    have hholds : (s.launcher i).phase.lock? ≠ none := by rw [hi]; exact Option.some_ne_none _
    have hbusy : ¬ (s.launcher i).phase.Busy := by rw [hi]; exact id
    have hfile := h.file i file (by rw [hi]; rfl)
    have hmonitor' := h.settled_of_holds hholds hbusy
    have hnone : (members ls).length = 0 := by
      by_contra hne
      rw [hmonitor, text, if_neg hne] at hmonitor'
      cases hmonitor'
    have hids := h.fresh i (by rw [hi]; exact id)
    split
    · refine h.next (i := i) rfl (fun f hf => ?_) (.inl rfl) ?_ ?_ ?_ ?_ ?_ (.inl ?_) ?_
      · cases hf
        exact hfile
      · exact fun _ => h.free_of_holds hholds
      · rw [hmem]
        exact h.ids
      · rw [hmem, List.eq_nil_of_length_eq_zero hnone]
        exact fun e he => by cases he
      · exact fun hnot => (hnot trivial).elim
      · rw [hmem]
        exact ⟨rfl, hnone, hids⟩
      · rw [hmem]
      · exact fun hnot => (hnot trivial).elim
    · refine h.moved (i := i) rfl hmem ?_ trivial (fun f hf => ?_) (.inl rfl) ?_ ?_
      · exact fun _ => trivial
      · cases hf
        exact hfile
      · exact fun _ => h.free_of_holds hholds
      · exact fun _ => h.settled_of_others hbusy
  | @read i file txt next hi hmonitor hnext =>
    have hholds : (s.launcher i).phase.lock? ≠ none := by rw [hi]; exact Option.some_ne_none _
    have hbusy : ¬ (s.launcher i).phase.Busy := by rw [hi]; exact id
    have hpos : 0 < (members ls).length := by
      have hok := h.ok i
      rwa [hi] at hok
    have hmonitor' := h.settled_of_holds hholds hbusy
    rw [hmonitor, text, if_neg hpos.ne', Option.some.injEq] at hmonitor'
    obtain rfl : next = (members ls).length := by
      rw [hmonitor', readGroup_str, Option.some.injEq] at hnext
      exact hnext.symm
    refine h.next (i := i) rfl (fun f hf => ?_) (.inl rfl) ?_ ?_ (fun e he => ?_) ?_ ?_ (.inr ?_) ?_
    · exact h.file i f (by rw [hi]; exact hf)
    · exact fun _ => h.free_of_holds hholds
    · rw [hmem, List.map_append, h.ids, List.length_append, List.length_singleton,
        List.range_succ]
      rfl
    · rw [hmem] at he
      rcases List.mem_append.1 he with he | he
      · -- who knows its id is not about to read one
        refine .inr ⟨fun heq => ?_, he⟩
        have hk := (h.known e he).2
        rw [heq, hi] at hk
        exact hk
      · obtain rfl := List.mem_singleton.1 he
        exact .inl ⟨rfl, rfl, trivial⟩
    · exact fun hnot => (hnot trivial).elim
    · rw [hmem, List.length_append, List.length_singleton]
      exact ⟨rfl, Nat.succ_pos _⟩
    · exact h.free_of_holds hholds
    · exact fun hnot => (hnot trivial).elim
  | @fail i file hi hmonitor =>
    have hholds : (s.launcher i).phase.lock? ≠ none := by rw [hi]; exact Option.some_ne_none _
    have hpos : 0 < (members ls).length := by
      have hok := h.ok i
      rwa [hi] at hok
    rw [h.settled_of_holds hholds (by rw [hi]; exact id), text, if_neg hpos.ne',
      Option.bind_some, readGroup_str] at hmonitor
    cases hmonitor
  | @truncate i file ret next hi =>
    have hholds : (s.launcher i).phase.lock? ≠ none := by rw [hi]; exact Option.some_ne_none _
    have hfile := h.file i file (by rw [hi]; rfl)
    have hok := h.ok i
    rw [hi] at hok
    cases ret with
    | true =>
      refine h.moved (i := i) rfl hmem ?_ hok (fun f hf => ?_) (.inl rfl) ?_ ?_
      · exact fun _ => trivial
      · cases hf
        exact hfile
      · exact fun _ => h.free_of_holds hholds
      · exact fun hnot => (hnot trivial).elim
    | false =>
      obtain ⟨rfl, -, hid⟩ := hok
      refine h.next (i := i) rfl (fun f hf => ?_) (.inl rfl) ?_ ?_ (fun e he => ?_) ?_ ?_
        (.inr ?_) ?_
      · cases hf
        exact hfile
      · exact fun _ => h.free_of_holds hholds
      · rw [hmem]
        rfl
      · rw [hmem] at he
        obtain rfl := List.mem_singleton.1 he
        exact .inl ⟨rfl, hid, trivial⟩
      · exact fun hnot => (hnot trivial).elim
      · rw [hmem]
        exact ⟨rfl, Nat.one_pos⟩
      · exact h.free_of_holds hholds
      · exact fun hnot => (hnot trivial).elim
  | @write i file ret next hi =>
    have hholds : (s.launcher i).phase.lock? ≠ none := by rw [hi]; exact Option.some_ne_none _
    have hok := h.ok i
    rw [hi] at hok
    obtain ⟨rfl, hpos⟩ := hok
    refine h.moved (i := i) rfl hmem ?_ trivial (fun f hf => ?_) (.inl rfl) ?_ ?_
    · exact fun _ => trivial
    · exact h.file i f (by rw [hi]; exact hf)
    · exact fun _ => h.free_of_holds hholds
    · exact fun _ _ => (if_neg hpos.ne').symm
  | @release i file ret hi =>
    refine h.moved (i := i) rfl hmem ?_ trivial (fun f hf => ?_) (.inl rfl) ?_ ?_
    · exact fun _ => trivial
    · cases hf
    · exact fun hne => absurd rfl hne
    · exact fun _ => h.settled_of_others (by rw [hi]; exact id)
  | @removeMonitor i ret hi _ _ =>
    have hfree : ∀ j, (s.launcher j).phase.file? = none := hquiet trivial
    refine h.next (i := i) rfl (fun f hf => ?_) (.inl rfl) ?_ ?_ (fun e he => ?_) ?_ trivial
      (.inr fun j _ => ?_) ?_
    · cases hf
    · exact fun hne => absurd rfl hne
    · rw [hmem]
      rfl
    · rw [hmem] at he
      cases he
    · exact fun hnot => (hnot trivial).elim
    · exact Phase.lock?_of_file? (hfree j)
    · rw [hmem]
      exact fun _ _ => rfl
  | @removeFails i ret hi _ _ =>
    refine h.moved (i := i) rfl hmem ?_ trivial (fun f hf => ?_) (.inl rfl) ?_ ?_
    · exact fun _ => trivial
    · cases hf
    · exact fun hne => absurd rfl hne
    · exact fun _ => h.settled_of_others (by rw [hi]; exact id)
  | @removeLock i hi =>
    refine h.moved (i := i) rfl hmem ?_ trivial (fun f hf => ?_) (.inr fun j _ => ?_) ?_ ?_
    · exact fun _ => trivial
    · cases hf
    · exact hquiet trivial j
    · exact fun hne => absurd rfl hne
    · exact fun _ => h.settled_of_others (by rw [hi]; exact id)

omit [DecidableEq ι] in
/-- Before anybody has called `has_alive_servers`, there is no file and no member. -/
theorem inv_start (keep_alive : ι → Bool) : Inv ([] : List (Act ι)) (start keep_alive) := by
  refine ⟨fun i f hf => ?_, fun i j hi => ?_, rfl, fun e he => ?_, fun _ _ => rfl, fun _ => trivial,
    fun _ => rfl⟩
  · cases hf
  · exact absurd rfl hi
  · cases he

/-- **Launchers with one `server_name` get different group ids.**  Whatever they do in
whatever order, with a lock that excludes, as long as nobody is inside `has_alive_servers` while
files are removed: no launcher fails, at most one holds the lock, the launchers the current
servers know have the ids 0, 1, 2 and so on, one each, and their globals say so; between the
calls the monitor file holds the next id. -/
theorem groups_correct {keep_alive : ι → Bool} (hlock : Exclusive grants)
    (hrun : Run (fun s a s' => Step grants s a s' ∧ (a.Removes → s.Quiet))
      (start keep_alive) ls s) :
    (∀ i, (s.launcher i).phase ≠ .crashed) ∧
      (∀ i j, (s.launcher i).phase.lock? ≠ none → (s.launcher j).phase.lock? ≠ none → i = j) ∧
      (members ls).map Prod.snd = List.range (members ls).length ∧
      (∀ e ∈ members ls, (s.launcher e.1).g_group_id = e.2) ∧
      (s.Quiet → s.monitor = text (members ls).length) := by
  have h : Inv ls s := hrun.invariant (inv_start keep_alive) fun _ _ _ _ hinv hstep =>
    hinv.step hlock hstep.1 hstep.2
  refine ⟨fun i hi => ?_, h.mutex, h.ids, fun e he => (h.known e he).1, fun hquiet => ?_⟩
  · have hok := h.ok i
    rw [hi] at hok
    exact hok
  · exact h.settled fun i hi => Phase.lock?_of_busy hi (Phase.lock?_of_file? (hquiet i))

/-- A step that removes no file. -/
theorem Quietly.snoc {s₀ : State ι}
    (hrun : Run (fun s a s' => Step grants s a s' ∧ (a.Removes → s.Quiet)) s₀ ls s)
    (hstep : Step grants s a s') (ha : ¬ a.Removes) :
    Run (fun s a s' => Step grants s a s' ∧ (a.Removes → s.Quiet)) s₀ (ls ++ [a]) s' :=
  hrun.snoc ⟨hstep, fun h => (ha h).elim⟩

/-- A lock that is granted whenever nobody holds it. -/
abbrev grantsFree (ι : Type) : Grants ι := fun s _ file =>
  ∀ j, (s.launcher j).phase.lock? ≠ some file

/-- The first launcher, with `--keep_alive`, makes the monitor file; the second, which has
waited for the lock, gets the id 1. -/
theorem run_pair :
    ∃ s, Run (fun s a s' => Step (grantsFree (Fin 2)) s a s' ∧ (a.Removes → s.Quiet))
      (start fun i : Fin 2 => i = 0) [.openLock 0, .openLock 1, .acquire 0, .check 0,
        .truncate 0 false, .write 0, .release 0, .acquire 1, .check 1, .read 1 1,
        .truncate 1 true, .write 1, .release 1] s ∧ s.Quiet := by
  have hwait := Quietly.snoc (Quietly.snoc
    (show Run (fun s a s' => Step (grantsFree (Fin 2)) s a s' ∧ (a.Removes → s.Quiet))
      (start fun i => i = 0) [] _ from .nil)
    (.makeLock (i := 0) rfl rfl) id) (.openLock (i := 1) rfl rfl) id
  have hmake := Quietly.snoc (Quietly.snoc hwait (.acquire (i := 0) rfl (by decide)) id)
    (.missing (i := 0) rfl rfl) id
  have hwrite := Quietly.snoc (Quietly.snoc hmake (.truncate (i := 0) rfl) id)
    (.write (i := 0) rfl) id
  have hleave := Quietly.snoc hwrite (.release (i := 0) rfl) id
  have hread := Quietly.snoc (Quietly.snoc (Quietly.snoc hleave
    (.acquire (i := 1) rfl (by decide)) id) (.present (i := 1) rfl rfl) id)
    (.read (i := 1) rfl rfl (readGroup_str 1)) id
  have hwrite' := Quietly.snoc (Quietly.snoc hread (.truncate (i := 1) rfl) id)
    (.write (i := 1) rfl) id
  exact ⟨_, Quietly.snoc hwrite' (.release (i := 1) rfl) id, Fin.forall_fin_two.2 ⟨rfl, rfl⟩⟩

/-- The hypotheses of `groups_correct` are satisfiable: two launchers, of which the second
waits for the lock, get the ids 0 and 1. -/
theorem groups_correct_pair :
    ∃ (s : State (Fin 2)) (ls : List (Act (Fin 2))),
      Run (fun s a s' => Step (grantsFree (Fin 2)) s a s' ∧ (a.Removes → s.Quiet))
          (start fun i => i = 0) ls s ∧
        members ls = [(0, 0), (1, 1)] ∧ (s.launcher 1).g_group_id = 1 ∧
        s.monitor = some ['2'] := by
  obtain ⟨s, hrun, hquiet⟩ := run_pair
  obtain ⟨-, -, -, hids, hmonitor⟩ := groups_correct (fun _ _ _ h => h) hrun
  exact ⟨s, _, hrun, rfl, hids (1, 1) (by decide), hmonitor hquiet⟩

end Groups
end Launch
end BearRpc
