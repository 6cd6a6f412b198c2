import Windoge.Vfs.Remove

/-!
# The delete commands of the shells

`rm`, `del` and `delete` of `bash.c` and `del` and `rm` of `dogeshell.c`. Both shells fold an
argument into a canonical path and refuse it if that string is the root of a drive or one of the
protected folders; the argument itself then goes to `fs_delete`. The Bash command does not return
after its loop: control falls through to the search for an application of that name, which
decides the status.
-/

namespace Windoge.Shell

open Exfat Windoge.Flow Vfs
open Script (Text text)

/-- What a command leaves to the shell: its status, and the program it starts. -/
structure Reply where
  status : ℤ
  launched : Option Text
  deriving DecidableEq

/-- The folders in the root of a drive that must not be deleted. -/
def protectedNames : List Text := [text ".windoge", text "system", text "apps", text "users"]

/-- Whether a canonical path is one of the protected folders. -/
def isProtected (canonical : Option Text) : Bool :=
  canonical.any fun path => protectedNames.any fun name => path.drop 2 = slash :: name

/-- Whether a canonical path is the root of a drive. -/
def isDriveRoot (letters : List UInt8) (canonical : Option Text) : Bool :=
  canonical.any fun path => letters.any fun letter => path = [letter, colon, slash]

section Bash

variable (user : Text)

/-- `authorize_path`. -/
def authorizePath (s : FsState) (path : Text) : Bool :=
  (canonicalizePath s.fsDirname 256 path).any (systemCanAccessPath user)

/-- `is_protected_path`. -/
def isProtectedPath (s : FsState) (path : Text) : Bool :=
  isProtected (canonicalizePath s.fsDirname 256 path)

/-- `is_drive_root_path`. -/
def isDriveRootPath (s : FsState) (path : Text) : Bool :=
  isDriveRoot [67, 68] (canonicalizePath s.fsDirname 256 path)

/-- The checks of the Bash command before it deletes. -/
def bashRefuses (s : FsState) (path : Text) : Bool :=
  !authorizePath user s path || isDriveRootPath s path || isProtectedPath s path

end Bash

section Dogeshell

variable (user : Text)

/-- `dogeshell_authorize_path`: the resolved path if the user may access it. -/
def dogeshellAuthorizePath (s : FsState) (path : Text) : Option Text :=
  (dogeshellResolvePath s.fsDirname user 256 path).filter (systemCanAccessPath user)

/-- `dogeshell_is_protected_path`. -/
def dogeshellIsProtectedPath (s : FsState) (path : Text) : Bool :=
  isProtected (dogeshellResolvePath s.fsDirname user 256 path)

/-- `dogeshell_is_drive_root_path`. -/
def dogeshellIsDriveRootPath (s : FsState) (path : Text) : Bool :=
  isDriveRoot [99, 100] (dogeshellResolvePath s.fsDirname user 256 path)

/-- The checks of the Dogeshell command before it deletes. -/
def dogeshellRefuses (s : FsState) (path : Text) : Bool :=
  match dogeshellAuthorizePath user s path with
  | none => true
  | some resolved => dogeshellIsDriveRootPath user s resolved || dogeshellIsProtectedPath user s resolved

end Dogeshell

/-- The loop over the arguments: whether all of them were deleted. -/
def deleteLoop (refuses : FsState → Text → Bool) : List Text → Fs Bool
  | [] => pure true
  | path :: rest => do
    let s ← get
    if refuses s path then pure false
    else do
      let rc ← fsDelete path
      if rc = 1 then deleteLoop refuses rest else pure false

/-- The delete command: nothing to delete and a failure give status 1, the rest is up to what
follows the loop. -/
def deleteCommand (refuses : FsState → Text → Bool) (finish : Fs Reply) (arguments : List Text) :
    Fs Reply :=
  if arguments = [] then pure ⟨1, none⟩
  else do
    if ← deleteLoop refuses arguments then finish else pure ⟨1, none⟩

/-- A slash or a backslash. -/
def isSeparator (c : UInt8) : Bool := c = slash || c = 92

/-- Whether a command name ends in `.elf`, in any case. -/
def hasExtension (name : Text) : Bool :=
  4 ≤ name.length && (name.drop (name.length - 4)).map lowerCase = text ".elf"

/-- Where the shell looks for the application of a name: in `/apps`, then in the root. -/
def findApplication (name : Text) : Fs (Option Text) := do
  let application := if hasExtension name then name else name ++ text ".elf"
  let path := if ← fsExists (text "/apps/" ++ application) then text "/apps/" ++ application
    else slash :: application
  if ← fsExists path then pure (some path) else pure none

/-- The end of `execute_command`, reached when no built-in command has returned. -/
def runApplication (user name : Text) : Fs Reply := do
  if name = dot ∨ name = dotDot then pure ⟨127, none⟩
  else if name.any isSeparator then do
    let s ← get
    if 256 ≤ name.length then pure ⟨126, none⟩
    else if authorizePath user s name = false then pure ⟨126, none⟩
    else if ← fsExists name then pure ⟨0, some name⟩
    else pure ⟨127, none⟩
  else if 124 ≤ name.length then pure ⟨127, none⟩
  else
    match ← findApplication name with
    | some path => pure ⟨0, some path⟩
    | none => pure ⟨127, none⟩

/-- The names of the Bash command. -/
inductive RmName
  | rm
  | del
  | delete
  deriving DecidableEq

/-- The name as it is typed. -/
def RmName.text : RmName → Text
  | .rm => Script.text "rm"
  | .del => Script.text "del"
  | .delete => Script.text "delete"

/-- `rm`, `del` and `delete` of `execute_command`. -/
def bashRm (user : Text) (name : RmName) : List Text → Fs Reply :=
  deleteCommand (bashRefuses user) (runApplication user name.text)

/-- `del` and `rm` of `dogeshell_execute`. -/
def dogeshellDel (user : Text) : List Text → Fs Reply :=
  deleteCommand (dogeshellRefuses user) (pure ⟨0, none⟩)

/-- The delete commands of the two shells. -/
inductive Command
  | bash (name : RmName)
  | dogeshell
  deriving DecidableEq

/-- The checks a command makes. -/
def Command.refuses (user : Text) : Command → FsState → Text → Bool
  | .bash _ => bashRefuses user
  | .dogeshell => dogeshellRefuses user

/-- What a command does after its loop. -/
def Command.finish (user : Text) : Command → Fs Reply
  | .bash name => runApplication user name.text
  | .dogeshell => pure ⟨0, none⟩

/-- Nothing goes wrong behind the loop: Bash, which goes on to look for an application of the name
of the command, finds one. -/
def Command.Ends : Command → FsState → Prop
  | .bash name, s => ∃ path s', findApplication name.text s = .ok (some path) s'
  | .dogeshell, _ => True

/-- A delete command run by a user. -/
def Command.run (user : Text) : Command → List Text → Fs Reply
  | .bash name => bashRm user name
  | .dogeshell => dogeshellDel user

/-- A slot in the root directory of a drive holds an entry with the name. -/
def RootEntry (s : FsState) (drive : Fin 2) (k : ℕ) (name : Text) : Prop :=
  ∃ n, s.node drive 4 k = some n ∧ n.name = name.map lowerCase

/-- No protected folder has been removed from the root of a drive. -/
def Spared (s s' : FsState) : Prop :=
  ∀ drive k, ∀ name ∈ protectedNames, RootEntry s drive k name → RootEntry s' drive k name

/-- The entries that the arguments name have been removed, one after the other. -/
inductive RemovedAll : FsState → List Text → FsState → Prop
  | nil {s s' : FsState} (h : s'.volume.drives = s.volume.drives) : RemovedAll s [] s'
  | cons {s s₁ s' : FsState} {path : Text} {rest : List Text} {place : Place} {k : ℕ}
      (hnamed : s.fate path = .removed place k) (hremoved : Removed s s₁ place k)
      (hrun : fsDelete path s = .ok 1 s₁) (hrest : RemovedAll s₁ rest s') :
      RemovedAll s (path :: rest) s'

/-- A run of a delete command that spares the protected folders and whose status tells whether
all named entries were removed. -/
def Correct (user : Text) (command : Command) (arguments : List Text) (s : FsState) : Prop :=
  ∃ reply s', command.run user arguments s = .ok reply s' ∧ Spared s s' ∧
    (reply.status = 0 ↔ RemovedAll s arguments s')

/-- A place in the root of a drive whose name is that of a protected folder. -/
def ProtectedPlace (place : Place) : Prop :=
  place.cluster = 4 ∧ ∃ name ∈ protectedNames, place.name.map lowerCase = name.map lowerCase

/-- The arguments are harmless in a state: as far as the command gets, each is refused, or names
no entry, or names one that lies in one sector and is not a protected folder; and if it gets to
the end, the command ends well. -/
def Harmless (refuses : FsState → Text → Bool) (ends : FsState → Prop) : List Text → FsState → Prop
  | [], s => ends s
  | path :: rest, s => refuses s path = true ∨
      match s.fate path with
      | .undefined => False
      | .missing => True
      | .removed place _ => ¬ ProtectedPlace place ∧
          Harmless refuses ends rest (finalState (fsDelete path s))

/-!
## When the delete commands are safe

A delete command spares the protected folders and reports truthfully exactly if there is an
argument and, as far as it gets, each argument it does not refuse leads `fs_delete` to an entry
that is no protected folder; for the Bash command the search for an application that follows the
loop must succeed as well. The checks compare strings, so an argument in capitals or with a blank
behind it gets past them.
-/

open EStateM.Result Command Bool

variable {s s₁ s' s'' : FsState} {path : Text} {rest arguments : List Text} {place : Place} {k : ℕ}
  {refuses : FsState → Text → Bool} {finish : Fs Reply} {user : Text}

/-- Entries of directories may have been removed, and none has appeared. -/
def Shrinks (s s' : FsState) : Prop :=
  ∀ drive cluster k, cluster ≠ 2 →
    s'.node drive cluster k = none ∨ s'.node drive cluster k = s.node drive cluster k

theorem node_congr (h : s'.volume.drives = s.volume.drives) : s'.node = s.node := by
  unfold FsState.node
  rw [h]

theorem shrinks_of_drives (h : s'.volume.drives = s.volume.drives) : Shrinks s s' :=
  fun _ _ _ _ => .inr (by rw [node_congr h])

theorem Shrinks.trans (h : Shrinks s s₁) (h' : Shrinks s₁ s') : Shrinks s s' := by
  intro drive cluster k hcluster
  rcases h' drive cluster k hcluster with hnone | hsame
  · exact .inl hnone
  · rw [hsame]
    exact h drive cluster k hcluster

theorem shrinks_of_removed (h : Removed s s' place k) : Shrinks s s' := by
  intro drive cluster j hcluster
  rw [h.node drive hcluster j]
  split_ifs
  · exact .inl rfl
  · exact .inr rfl

theorem Shrinks.rootEntry (h : Shrinks s s') {drive : Fin 2} {name : Text}
    (hentry : RootEntry s' drive k name) : RootEntry s drive k name := by
  obtain ⟨n, hnode, hname⟩ := hentry
  rcases h drive 4 k (by decide) with hnone | hsame
  · rw [hnone] at hnode
    cases hnode
  · exact ⟨n, hsame ▸ hnode, hname⟩

theorem RemovedAll.shrinks (h : RemovedAll s arguments s') : Shrinks s s' := by
  induction h with
  | nil h => exact shrinks_of_drives h
  | cons hnamed hremoved hrun hrest ih => exact (shrinks_of_removed hremoved).trans ih

theorem RemovedAll.congr (h : RemovedAll s arguments s') (hdrives : s''.volume.drives = s'.volume.drives) :
    RemovedAll s arguments s'' := by
  induction h with
  | nil h => exact .nil (hdrives.trans h)
  | cons hnamed hremoved hrun hrest ih => exact .cons hnamed hremoved hrun (ih hdrives)

theorem entry_of_fate (hs : s.Ready) (h : s.fate path = .removed place k) :
    ∃ n, s.node place.drive place.cluster k = some n ∧ n.name = place.name.map lowerCase := by
  obtain ⟨hlive, hmatch⟩ := findSlot_some (hs.fate_removed h).1
  exact ⟨_, hlive.slotNode, exfatNameEqual_iff.mp hmatch⟩

/-- An entry that has been removed stays removed. -/
theorem not_removedAll (hs : s.Ready) (hdrives : s'.volume.drives = s.volume.drives) :
    ¬ RemovedAll s (path :: rest) s' := by
  intro h
  cases h with
  | @cons _ s₁ _ _ _ place k hnamed hremoved hrun hrest =>
    obtain ⟨n, hnode, -⟩ := entry_of_fate hs hnamed
    have hcluster : place.cluster ≠ 2 := by
      have hlow := (hs.fate_removed hnamed).2
      omega
    have hgone := hremoved.node place.drive hcluster k
    rw [if_pos ⟨rfl, rfl, rfl⟩] at hgone
    rcases hrest.shrinks place.drive place.cluster k hcluster with hnone | hsame
    · rw [node_congr hdrives, hnode] at hnone
      cases hnone
    · rw [node_congr hdrives, hnode, hgone] at hsame
      cases hsame

/-- Removing an entry spares the protected folders to the end exactly if it is none of them and
they are spared from then on. -/
theorem spared_removed_iff (hs : s.Ready) (hnamed : s.fate path = .removed place k)
    (hremoved : Removed s s₁ place k) (hshrinks : Shrinks s₁ s') :
    Spared s s' ↔ ¬ ProtectedPlace place ∧ Spared s₁ s' := by
  obtain ⟨n, hnode, hname⟩ := entry_of_fate hs hnamed
  constructor
  · intro hspared
    refine ⟨?_, fun drive j name hmem hentry =>
      hspared drive j name hmem ((shrinks_of_removed hremoved).rootEntry hentry)⟩
    rintro ⟨hroot, name, hmem, hsame⟩
    rw [hroot] at hnode
    obtain ⟨n', hnode', -⟩ := hshrinks.rootEntry (hspared place.drive k name hmem ⟨n, hnode, hname.trans hsame⟩)
    rw [hremoved.node place.drive (by decide) k, if_pos ⟨rfl, hroot.symm, rfl⟩] at hnode'
    cases hnode'
  · rintro ⟨hother, hspared⟩ drive j name hmem ⟨n', hnode', hname'⟩
    refine hspared drive j name hmem ⟨n', ?_, hname'⟩
    rw [hremoved.node drive (by decide) j, if_neg, hnode']
    rintro ⟨rfl, hroot, rfl⟩
    rw [← hroot, hnode'] at hnode
    cases hnode
    exact hother ⟨hroot.symm, name, hmem, hname.symm.trans hname'⟩

theorem spared_congr (h : s''.volume.drives = s'.volume.drives) : Spared s s'' ↔ Spared s s' := by
  unfold Spared RootEntry
  rw [node_congr h]

/-- How the loop over the arguments ends: it does not make entries appear, and it reports whether
all named entries were removed. -/
theorem deleteLoop_ok {result : Bool} (hs : s.Ready) (h : deleteLoop refuses arguments s = .ok result s') :
    s'.Ready ∧ Shrinks s s' ∧ (result = true ↔ RemovedAll s arguments s') := by
  induction arguments generalizing s with
  | nil =>
    cases h
    exact ⟨hs, shrinks_of_drives rfl, ⟨fun _ => .nil rfl, fun _ => rfl⟩⟩
  | cons path rest ih =>
    rw [deleteLoop, get_bind] at h
    split_ifs at h
    · cases h
      exact ⟨hs, shrinks_of_drives rfl, ⟨nofun,
        fun hall => absurd hall (not_removedAll hs rfl)⟩⟩
    have hdelete := hs.delete path
    cases hfate : s.fate path with
    | undefined =>
      rw [hfate] at hdelete
      obtain ⟨s₁, hrun⟩ := hdelete
      rw [bind_error hrun] at h
      cases h
    | missing =>
      rw [hfate] at hdelete
      obtain ⟨s₁, hrun, hmoves⟩ := hdelete
      rw [bind_ok hrun] at h
      cases h
      exact ⟨hmoves.ready, shrinks_of_drives hmoves.drives, ⟨nofun,
        fun hall => absurd hall (not_removedAll hs hmoves.drives)⟩⟩
    | removed place k =>
      rw [hfate] at hdelete
      obtain ⟨s₁, hrun, hremoved⟩ := hdelete
      rw [bind_ok hrun] at h
      obtain ⟨hready, hshrinks, hresult⟩ := ih hremoved.ready h
      refine ⟨hready, (shrinks_of_removed hremoved).trans hshrinks, hresult.trans ⟨fun hall =>
        .cons hfate hremoved hrun hall, fun hall => ?_⟩⟩
      cases hall with
      | cons hnamed hremoved' hrun' hrest =>
        cases hrun.symm.trans hrun'
        exact hrest

/-- Arguments are harmless exactly if the loop returns, spares the protected folders and, if it
reports success, the command ends well. -/
theorem harmless_iff (hs : s.Ready) : Harmless refuses ends arguments s ↔
    ∃ result s', deleteLoop refuses arguments s = .ok result s' ∧ Spared s s' ∧ (result = true → ends s') := by
  induction arguments generalizing s with
  | nil =>
    constructor
    · exact fun hfinish => ⟨true, s, rfl, fun _ _ _ _ h => h, fun _ => hfinish⟩
    · rintro ⟨result, s', hrun, -, hfinish⟩
      cases hrun
      exact hfinish rfl
  | cons path rest ih =>
    rw [Harmless, deleteLoop, get_bind]
    split_ifs with hrefused
    · exact ⟨fun _ => ⟨false, s, rfl, fun _ _ _ _ h => h, nofun⟩,
        fun _ => .inl hrefused⟩
    rw [or_iff_right hrefused]
    have hdelete := hs.delete path
    cases hfate : s.fate path with
    | undefined =>
      rw [hfate] at hdelete
      obtain ⟨s₁, hrun⟩ := hdelete
      rw [bind_error hrun]
      refine ⟨False.elim, ?_⟩
      rintro ⟨result, s', hok, -⟩
      cases hok
    | missing =>
      rw [hfate] at hdelete
      obtain ⟨s₁, hrun, hmoves⟩ := hdelete
      rw [bind_ok hrun]
      exact ⟨fun _ => ⟨false, s₁, rfl, (spared_congr hmoves.drives).mpr fun _ _ _ _ h => h,
        nofun⟩, fun _ => trivial⟩
    | removed place k =>
      rw [hfate] at hdelete
      obtain ⟨s₁, hrun, hremoved⟩ := hdelete
      rw [bind_ok hrun, if_pos rfl, hrun]
      change ¬ ProtectedPlace place ∧ Harmless refuses ends rest s₁ ↔ _
      rw [ih hremoved.ready]
      constructor
      · rintro ⟨hother, result, s', hloop, hspared, hfinish⟩
        exact ⟨result, s', hloop, (spared_removed_iff hs hfate hremoved
          (deleteLoop_ok hremoved.ready hloop).2.1).mpr ⟨hother, hspared⟩, hfinish⟩
      · rintro ⟨result, s', hloop, hspared, hfinish⟩
        obtain ⟨hother, hspared⟩ := (spared_removed_iff hs hfate hremoved
          (deleteLoop_ok hremoved.ready hloop).2.1).mp hspared
        exact ⟨hother, result, s', hloop, hspared, hfinish⟩

variable {command : Command} {reply : Reply}

section Finish

/-- Booted machines stay booted and keep what is on their drives. -/
def Keeps (s s' : FsState) : Prop := s.Ready → Moves s s'

instance : IsPreorder FsState Keeps where
  refl _ := Moves.refl
  trans _ _ _ h h' hs := (h hs).trans (h' (h hs).ready)

theorem keeps_ite {α : Type} {condition : Prop} [Decidable condition] {x y : Fs α}
    (hx : Respects Keeps x) (hy : Respects Keeps y) : Respects Keeps (if condition then x else y) := by
  split_ifs
  · exact hx
  · exact hy

theorem keeps_exists (path : Text) : Respects Keeps (fsExists path) := fun _ hs => hs.exists path

theorem keeps_findApplication (name : Text) : Respects Keeps (findApplication name) :=
  (keeps_exists _).bind fun _ => (keeps_exists _).bind fun _ => keeps_ite (.pure _) (.pure _)

/-- The end of the Bash command changes nothing on the drives. -/
theorem keeps_runApplication (user name : Text) : Respects Keeps (runApplication user name) := by
  refine keeps_ite (.pure _) (keeps_ite ?_ (keeps_ite (.pure _) ?_))
  · refine Respects.get.bind fun s => ?_
    refine keeps_ite (.pure _) (keeps_ite (.pure _) ?_)
    exact (keeps_exists _).bind fun _ => keeps_ite (.pure _) (.pure _)
  · refine (keeps_findApplication _).bind fun found => ?_
    cases found <;> exact .pure _

theorem Command.finish_drives (hs : s.Ready) (h : command.finish user s = .ok reply s') :
    s'.volume.drives = s.volume.drives := by
  cases command with
  | bash name => exact ((keeps_runApplication user name.text).ok h hs).drives
  | dogeshell =>
    cases h
    rfl

/-- What follows the loop returns 0 exactly if the command ends well. -/
theorem Command.finish_iff :
    (∃ launched s', command.finish user s = .ok ⟨0, launched⟩ s') ↔ command.Ends s := by
  cases command with
  | dogeshell => exact iff_of_true ⟨none, s, rfl⟩ trivial
  | bash name =>
    rw [Command.finish, Command.Ends, runApplication, if_neg (by cases name <;> decide),
      if_neg (by cases name <;> decide), if_neg (by cases name <;> decide)]
    cases hfound : findApplication name.text s with
    | error e s₁ =>
      rw [bind_error hfound]
      simp
    | ok found s₁ =>
      rw [bind_ok hfound]
      cases found with
      | none => exact iff_of_false (by rintro ⟨launched, s', ⟨⟩⟩) (by rintro ⟨path, s', ⟨⟩⟩)
      | some path => exact iff_of_true ⟨_, _, rfl⟩ ⟨_, _, rfl⟩

theorem Command.run_eq (harguments : arguments ≠ []) :
    command.run user arguments = (do
      if ← deleteLoop (command.refuses user) arguments then command.finish user
      else pure ⟨1, none⟩) := by
  cases command <;> exact if_neg harguments

end Finish

/-- A delete command is correct exactly if it is given arguments and they are harmless. -/
theorem command_correct_iff (user : Text) (command : Command) (arguments : List Text) (s : FsState)
    (hs : s.Ready) : Correct user command arguments s ↔
      arguments ≠ [] ∧ Harmless (command.refuses user) command.Ends arguments s := by
  by_cases harguments : arguments = []
  · subst harguments
    refine ⟨?_, fun h => absurd rfl h.1⟩
    rintro ⟨reply, s', hrun, -, hstatus⟩
    have hreply : command.run user [] s = .ok ⟨1, none⟩ s := by cases command <;> rfl
    cases hreply.symm.trans hrun
    exact absurd (hstatus.mpr (.nil rfl)) (by decide)
  · rw [and_iff_right harguments, harmless_iff hs, Correct, run_eq harguments]
    cases hloop : deleteLoop (command.refuses user) arguments s with
    | error e s₁ =>
      rw [bind_error hloop]
      constructor
      · rintro ⟨reply, s', hrun, -⟩
        cases hrun
      · rintro ⟨result, s', hrun, -⟩
        cases hrun
    | ok result s₁ =>
      obtain ⟨hready, -, hresult⟩ := deleteLoop_ok hs hloop
      rw [bind_ok hloop]
      cases result with
      | false =>
        have hnot : ¬ RemovedAll s arguments s₁ := fun hall => false_ne_true (hresult.mpr hall)
        constructor
        · rintro ⟨reply, s', hrun, hspared, -⟩
          cases hrun
          exact ⟨false, _, rfl, hspared, nofun⟩
        · rintro ⟨result, s', hrun, hspared, -⟩
          cases hrun
          exact ⟨⟨1, none⟩, _, rfl, hspared, ⟨nofun, fun h => absurd h hnot⟩⟩
      | true =>
        have hall := hresult.mp rfl
        rw [if_pos rfl]
        constructor
        · rintro ⟨reply, s', hrun, hspared, hstatus⟩
          have hdrives := finish_drives hready hrun
          obtain ⟨status, launched⟩ := reply
          obtain rfl : status = 0 := hstatus.mpr (hall.congr hdrives)
          exact ⟨true, s₁, rfl, (spared_congr hdrives).mp hspared, fun _ => finish_iff.mp ⟨launched, s', hrun⟩⟩
        · rintro ⟨result, s', hrun, hspared, hfinish⟩
          cases hrun
          obtain ⟨launched, s'', hfinal⟩ := finish_iff.mpr (hfinish rfl)
          have hdrives := finish_drives hready hfinal
          exact ⟨_, s'', hfinal, (spared_congr hdrives).mpr hspared, ⟨fun _ => hall.congr hdrives, fun _ => rfl⟩⟩

/-- A protected folder that an argument leads to, and that is not refused, is removed. -/
theorem removes_protected (hs : s.Ready) (hallowed : command.refuses user s path = false)
    (hnamed : s.fate path = .removed place k) (hprotected : ProtectedPlace place)
    (hrun : command.run user [path] s = .ok reply s') : ¬ Spared s s' ∧ RemovedAll s [path] s' := by
  have hdelete := hs.delete path
  rw [hnamed] at hdelete
  obtain ⟨s₁, hone, hremoved⟩ := hdelete
  have hloop : deleteLoop (command.refuses user) [path] s = .ok true s₁ := by
    rw [deleteLoop, get_bind, hallowed, if_neg (by decide), bind_ok hone]
    rfl
  rw [run_eq (List.cons_ne_nil _ _), bind_ok hloop] at hrun
  have hdrives := finish_drives hremoved.ready hrun
  refine ⟨fun hspared => ?_, .cons hnamed hremoved hone (.nil hdrives)⟩
  exact ((spared_removed_iff hs hnamed hremoved (shrinks_of_drives hdrives)).mp hspared).1 hprotected

/-- A machine with a system folder and a file in the root of its drive. -/
def systemMachine : FsState :=
  finalState (fsCreate (text "/notes") (finalState (fsMkdir (text "/system") freshMachine)))

theorem systemMachine_ready : systemMachine.Ready :=
  (freshMachine_ready.create (text "/system") true).create (text "/notes") false

/-- Either shell deletes the system folder when its name is typed in capitals, whoever asks, and
the Bash command then reports that it failed. -/
theorem system_folder_deleted : ∃ s : FsState, s.Ready ∧
    (∃ reply s', (Command.bash .rm).run (text "guest") [text "/SYSTEM"] s = .ok reply s' ∧
      ¬ Spared s s' ∧ RemovedAll s [text "/SYSTEM"] s' ∧ reply.status ≠ 0) ∧
    ∃ reply s', Command.dogeshell.run (text "guest") [text "/SYSTEM"] s = .ok reply s' ∧
      ¬ Spared s s' := by
  have hfate : systemMachine.fate (text "/SYSTEM") = .removed ⟨0, 4, text "SYSTEM"⟩ 2 := by decide +kernel
  have hprotected : ProtectedPlace ⟨0, 4, text "SYSTEM"⟩ := ⟨rfl, text "system", by decide, by decide⟩
  have hbash := ok_of_returned (show returned ((bash .rm).run (text "guest")
    [text "/SYSTEM"] systemMachine) = some ⟨127, none⟩ by decide +kernel)
  have hdogeshell := ok_of_returned (show returned (dogeshell.run (text "guest")
    [text "/SYSTEM"] systemMachine) = some ⟨0, none⟩ by decide +kernel)
  obtain ⟨hlost, hall⟩ := removes_protected systemMachine_ready (by decide +kernel) hfate hprotected hbash
  refine ⟨systemMachine, systemMachine_ready, ⟨_, _, hbash, hlost, hall, by decide⟩, _, _, hdogeshell, ?_⟩
  exact (removes_protected systemMachine_ready (by decide +kernel) hfate hprotected hdogeshell).1

/-- Deleting a file in the root of the drive is correct in Dogeshell. -/
theorem command_correct_notes : systemMachine.Ready ∧
    Correct (text "guest") .dogeshell [text "/notes"] systemMachine := by
  refine ⟨systemMachine_ready, (command_correct_iff _ _ _ _ systemMachine_ready).mpr
    ⟨List.cons_ne_nil _ _, .inr ?_⟩⟩
  have hfate : systemMachine.fate (text "/notes") = .removed ⟨0, 4, text "notes"⟩ 5 := by decide +kernel
  rw [hfate]
  refine ⟨?_, trivial⟩
  rintro ⟨-, name, hmem, hname⟩
  have hother : ∀ name ∈ protectedNames, (text "notes").map lowerCase ≠ name.map lowerCase := by decide
  exact hother name hmem hname

end Windoge.Shell
