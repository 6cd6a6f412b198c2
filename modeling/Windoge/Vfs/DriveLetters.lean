import Windoge.Vfs.Remove
import Windoge.Script.Interpreter
import Windoge.Script.ShellCommand

/-!
# Four readings of a drive letter

A path that starts with a drive letter is taken apart by `fs_prepare_path`, by
`canonicalize_path`, by `dogeshell_resolve_path` and by `system_can_access_path`, each with code of
its own. A reading is the drive a function settles on and the components of the path from the root
of that drive, before `.` and `..` are folded. The four agree on lower-case letters in front of an
absolute path, and on little else.
-/

namespace Windoge.Vfs

open Exfat Windoge.Flow List Option EStateM.Result UInt8
open Script (Text text)

/-- A drive and the components of a path from its root. -/
structure Reading where
  drive : Fin 2
  components : List Text
  deriving DecidableEq

/-- The drive that a letter in either case stands for. -/
def driveNamed (letter : UInt8) : Option (Fin 2) := driveOf (lowerCase letter)

/-- How the file system layer reads a path: `fs_prepare_path` selects the drive, and the driver
walks the rest from the root or from the directory it works in. -/
def fsReading (s : FsState) (path : Text) : Option Reading :=
  match fsPreparePath path s with
  | .ok (some rest) s' => some ⟨s'.currentDrive, if rest.head? = some slash then segments rest
      else segments s'.volume.currentPath ++ segments rest⟩
  | _ => none

/-- How a shell reads a path that it folds successfully. -/
def shellReading (combined : Option (UInt8 × Text)) (canonical : Option Text) : Option Reading :=
  if canonical.isSome then combined.bind fun (letter, path) =>
    (driveNamed letter).map fun drive => ⟨drive, segments path⟩
  else none

/-- How `canonicalize_path` reads a path. -/
def bashReading (s : FsState) (path : Text) : Option Reading :=
  shellReading (combinePath s.fsDirname path) (canonicalizePath s.fsDirname 256 path)

/-- How `dogeshell_resolve_path` reads a path. -/
def dogeshellReading (s : FsState) (user path : Text) : Option Reading :=
  shellReading (dogeshellCombine s.fsDirname user path) (dogeshellResolvePath s.fsDirname user 256 path)

/-- How `system_can_access_path` reads a path that starts with a drive letter. -/
def accessReading (path : Text) : Option Reading :=
  (splitDrive isLetter path).bind fun (letter, _) =>
    (driveNamed letter).map fun drive => ⟨drive, segments (accessPath path)⟩

/-- All four functions read the path as the same place. -/
def Agree (s : FsState) (user path : Text) : Prop :=
  ∃ reading, fsReading s path = some reading ∧ bashReading s path = some reading ∧
    dogeshellReading s user path = some reading ∧ accessReading path = some reading

/-- The rest of a path can be folded in the shells' buffers. -/
def Folds (rest : Text) : Bool :=
  (canonicalLoop 256 [slash] (segments rest)).any fun output => output.length + 3 ≤ 256

variable {s : FsState} {letter : UInt8} {path rest user : Text} {drive : Fin 2}

section Segments

/-- The components of a path hold all of its characters but the slashes. -/
theorem flatten_segments (path : Text) : (segments path).flatten = path.filter (· ≠ slash) := by
  have hpieces (pieces : List Text) : (pieces.filter (· ≠ [])).flatten = pieces.flatten := by
    induction pieces with
    | nil => rfl
    | cons piece pieces ih =>
      by_cases hpiece : piece = []
      · rw [hpiece]
        simpa using ih
      · rw [filter_cons_of_pos (by simpa using hpiece), flatten_cons, flatten_cons, ih]
  rw [segments, hpieces]
  unfold splitOn
  induction path with
  | nil => rfl
  | cons c path ih =>
    rw [splitOnP_cons_eq_if_modifyHead]
    by_cases hslash : c = slash
    · rw [if_pos (by simpa using hslash), flatten_cons, ih, filter_cons_of_neg (by simpa using hslash)]
      rfl
    · rw [if_neg (by simpa using hslash), filter_cons_of_pos (by simpa using hslash), ← ih]
      cases hsplit : splitOnP (· == slash) path with
      | nil => exact absurd hsplit (splitOnP_ne_nil _ _)
      | cons piece pieces => rfl

theorem segments_cons_slash (path : Text) : segments (slash :: path) = segments path := by
  unfold segments splitOn
  rw [splitOnP_cons_eq_if_modifyHead, if_pos (beq_self_eq_true slash)]
  rfl

theorem segments_dropWhile (path : Text) : segments (path.dropWhile (· = slash)) = segments path := by
  induction path with
  | nil => rfl
  | cons c path ih =>
    by_cases hslash : c = slash
    · rw [dropWhile_cons_of_pos (by simpa using hslash), ih, hslash, segments_cons_slash]
    · rw [dropWhile_cons_of_neg (by simpa using hslash)]

end Segments

/-- The letters that name a drive. -/
theorem driveNamed_some (h : driveNamed letter = some drive) :
    isLetter letter = true ∧ (upperCase letter = 67 ∨ upperCase letter = 68) ∧
      driveNamed (upperCase letter) = some drive ∧ letter ≠ slash ∧
      (isLower letter = true → driveOf letter = some drive ∧ (letter = 99 ∨ letter = 100)) := by
  have hall : ∀ n : Fin 256, ∀ d : Fin 2, driveNamed (ofFin n) = some d →
      isLetter (ofFin n) = true ∧ (upperCase (ofFin n) = 67 ∨ upperCase (ofFin n) = 68) ∧
      driveNamed (upperCase (ofFin n)) = some d ∧ ofFin n ≠ slash ∧
      (isLower (ofFin n) = true → driveOf (ofFin n) = some d ∧
        (ofFin n = 99 ∨ ofFin n = 100)) := by decide +kernel
  exact hall letter.toFin drive h

theorem splitDrive_letter (accepts : UInt8 → Bool) (letter : UInt8) (rest : Text) :
    splitDrive accepts (letter :: colon :: rest) =
      if accepts letter then some (letter, rest) else none := by
  rw [splitDrive]
  cases accepts letter <;> rfl

/-- Only the components decide whether a path can be folded. -/
theorem canonicalForm_isSome (letter : UInt8) (rest : Text) :
    (canonicalForm 256 letter rest).isSome = Folds rest := by
  unfold canonicalForm Folds
  cases canonicalLoop 256 [slash] (segments rest) with
  | none => rfl
  | some output =>
    change (if 256 < output.length + 3 then none else some _).isSome = decide (output.length + 3 ≤ 256)
    split_ifs with hlong
    · exact (decide_eq_false (not_le_of_gt hlong)).symm
    · exact (decide_eq_true (le_of_not_gt hlong)).symm

/-- The path behind a drive letter is made absolute. -/
theorem combineDrive_of_lt (hlength : rest.length < 256) :
    ∃ combined, combineDrive rest = some combined ∧ segments combined = segments rest := by
  unfold combineDrive
  split_ifs
  · refine ⟨rest, ?_, rfl⟩
    change appendText 512 [] rest = _
    rw [appendText, if_pos (by rw [length_nil]; omega), nil_append]
  · refine ⟨slash :: rest, ?_, segments_cons_slash rest⟩
    change appendText 512 [slash] rest = _
    rw [appendText, if_pos (by rw [length_singleton]; omega)]
    rfl

/-- A path behind a drive letter as the shells read it. -/
theorem shellReading_drive (hletter : driveNamed letter = some drive) (hlength : rest.length < 256) :
    shellReading ((combineDrive rest).map fun combined => (letter, combined))
        (((combineDrive rest).map fun combined => (letter, combined)).bind
          fun (letter, combined) => canonicalForm 256 letter combined) =
      if Folds rest then some ⟨drive, segments rest⟩ else none := by
  obtain ⟨combined, hcombined, hsegments⟩ := combineDrive_of_lt hlength
  have hfolds : Folds combined = Folds rest := by rw [Folds, hsegments, Folds]
  rw [shellReading, hcombined, map_some, bind_some, canonicalForm_isSome, hfolds]
  change (if Folds rest = true then (driveNamed letter).map _ else none) = _
  rw [hletter, map_some, hsegments]

section Readings

variable (hletter : driveNamed letter = some drive)
include hletter

theorem accessReading_eq (rest : Text) :
    accessReading (letter :: colon :: rest) = some ⟨drive, segments rest⟩ := by
  have hsplit := splitDrive_letter isLetter letter rest
  rw [(driveNamed_some hletter).1, if_pos rfl] at hsplit
  rw [accessReading, accessPath, hsplit, bind_some]
  change (driveNamed letter).map _ = _
  rw [hletter, map_some, segments_dropWhile]

/-- Bash reads every drive letter in front of a path that it can fold. -/
theorem bashReading_eq (s : FsState) (hlength : rest.length < 256) :
    bashReading s (letter :: colon :: rest) =
      if Folds rest then some ⟨drive, segments rest⟩ else none := by
  obtain ⟨hisLetter, hupper, hnamed, -, -⟩ := driveNamed_some hletter
  have hsplit := splitDrive_letter isLetter letter rest
  rw [hisLetter, if_pos rfl] at hsplit
  have hcombine : combinePath s.fsDirname (letter :: colon :: rest) =
      (combineDrive rest).map fun combined => (upperCase letter, combined) := by
    rw [combinePath, hsplit]
    exact if_neg fun hneither => hupper.elim hneither.1 hneither.2
  rw [bashReading, canonicalizePath, if_neg (by simp), hcombine]
  exact shellReading_drive hnamed hlength

/-- Dogeshell reads lower-case drive letters in front of a path that it can fold. -/
theorem dogeshellReading_eq (hlower : isLower letter = true) (s : FsState) (user : Text)
    (hlength : rest.length < 256) : dogeshellReading s user (letter :: colon :: rest) =
      if Folds rest then some ⟨drive, segments rest⟩ else none := by
  obtain ⟨-, -, -, -, hcases⟩ := driveNamed_some hletter
  have hsplit := splitDrive_letter isLower letter rest
  rw [hlower, if_pos rfl] at hsplit
  have hcombine : dogeshellCombine s.fsDirname user (letter :: colon :: rest) =
      (combineDrive rest).map fun combined => (letter, combined) := by
    rw [dogeshellCombine, hsplit]
    exact if_neg fun hneither => (hcases hlower).2.elim hneither.1 hneither.2
  rw [dogeshellReading, dogeshellResolvePath, if_neg (by simp), hcombine]
  exact shellReading_drive hletter hlength

/-- The file system layer reads lower-case drive letters of mounted drives; a path behind them
that does not start with a slash goes on from the directory of that drive. -/
theorem fsReading_lower (hs : s.Ready) (hlower : isLower letter = true) :
    fsReading s (letter :: colon :: rest) =
      if s.driveMounted drive = true ∧ rest.length < 256 then
        some ⟨drive, (if rest = [] ∨ rest.head? = some slash then []
          else segments (s.directoryOn drive)) ++ segments rest⟩
      else none := by
  obtain ⟨-, -, -, -, hcases⟩ := driveNamed_some hletter
  have hsplit := splitDrive_letter isLower letter rest
  rw [hlower, if_pos rfl] at hsplit
  obtain ⟨s', hselect, hmoves, hdrive, hpath⟩ := hs.select drive
  have hprepare : fsPreparePath (letter :: colon :: rest) s =
      (if s.driveMounted drive = true then copyPath (if rest = [] then rootPath else rest) else pure none)
        s' := by
    rw [fsPreparePath, hsplit]
    dsimp only
    rw [(hcases hlower).1]
    exact bind_ok hselect
  rw [fsReading, hprepare]
  by_cases hmounted : s.driveMounted drive = true
  · rw [if_pos hmounted] at hdrive
    have hcopy (path : Text) : copyPath path s' = .ok (if path.length < 256 then some path else none) s' := by
      have hinUse := hmoves.ready.inUse
      change ok (if s'.driveMounted s'.currentDrive = true ∧ path.length < 256 then some path
        else none) s' = _
      rw [hinUse]
      simp only [true_and]
    rw [if_pos hmounted, hcopy]
    by_cases hempty : rest = []
    · subst hempty
      rw [if_pos rfl, if_pos (by decide), if_pos ⟨hmounted, by decide⟩, if_pos (.inl rfl)]
      change some (⟨s'.currentDrive, _⟩ : Reading) = _
      rw [hdrive]
      rfl
    · rw [if_neg hempty]
      by_cases hlength : rest.length < 256
      · rw [if_pos hlength, if_pos ⟨hmounted, hlength⟩]
        change some (⟨s'.currentDrive, _⟩ : Reading) = _
        rw [hdrive, hpath hmounted]
        by_cases hslash : rest.head? = some slash
        · rw [if_pos hslash, if_pos (.inr hslash)]
          rfl
        · rw [if_neg hslash, if_neg (not_or_intro hempty hslash)]
      · rw [if_neg hlength, if_neg fun hboth => hlength hboth.2]
  · rw [if_neg hmounted, if_neg fun hboth => hmounted hboth.1]
    rfl

/-- The file system layer takes other drive letters for the beginning of a name. -/
theorem fsReading_upper (s : FsState) (hlower : isLower letter = false) :
    fsReading s (letter :: colon :: rest) ≠ some ⟨drive, segments rest⟩ := by
  have hsplit := splitDrive_letter isLower letter rest
  rw [hlower, if_neg (by decide)] at hsplit
  have hslash := (driveNamed_some hletter).2.2.2.1
  intro hreading
  rw [fsReading, fsPreparePath, hsplit] at hreading
  change (match (ok (if s.driveMounted s.currentDrive = true ∧
    (letter :: colon :: rest).length < 256 then some (letter :: colon :: rest) else none) s :
    EStateM.Result Stop FsState (Option Text)) with | .ok (some rest) s' => _ | _ => none) = _ at hreading
  split_ifs at hreading
  · have hcomponents := congrArg (fun reading => (reading.map Reading.components).getD []) hreading
    change (if (letter :: colon :: rest).head? = some slash then _ else _ ++ _) = segments rest at hcomponents
    rw [head?_cons, if_neg fun heq => hslash (some.inj heq)] at hcomponents
    have hcharacters := congrArg (fun components => components.flatten.length) hcomponents
    simp only [flatten_append, length_append, flatten_segments] at hcharacters
    rw [filter_cons_of_pos (by simpa using hslash), filter_cons_of_pos (by decide)] at hcharacters
    simp only [length_cons] at hcharacters
    omega

end Readings

/-- The four functions read a path with a drive letter alike exactly if the letter is in lower
case, the drive is mounted, the path fits their buffers, and the path is absolute or empty or the
layer works in the root of that drive. -/
theorem agree_iff (s : FsState) (user : Text) (letter : UInt8) (drive : Fin 2) (rest : Text)
    (hs : s.Ready) (hletter : driveNamed letter = some drive) :
    Agree s user (letter :: colon :: rest) ↔
      isLower letter = true ∧ s.driveMounted drive = true ∧ rest.length < 256 ∧ Folds rest = true ∧
        (rest = [] ∨ rest.head? = some slash ∨ segments (s.directoryOn drive) = []) := by
  constructor
  · rintro ⟨reading, hfs, hbash, -, haccess⟩
    rw [accessReading_eq hletter] at haccess
    cases haccess
    cases hlower : isLower letter with
    | false => exact absurd hfs (fsReading_upper hletter s hlower)
    | true =>
      rw [fsReading_lower hletter hs hlower] at hfs
      split_ifs at hfs with hfits hfree
      · rw [bashReading_eq hletter s hfits.2] at hbash
        split_ifs at hbash with hfolds
        refine ⟨rfl, hfits.1, hfits.2, hfolds, ?_⟩
        exact hfree.imp_right .inl
      · rw [bashReading_eq hletter s hfits.2] at hbash
        split_ifs at hbash with hfolds
        refine ⟨rfl, hfits.1, hfits.2, hfolds, .inr (.inr ?_)⟩
        have hcomponents := (Reading.mk.inj (some.inj hfs)).2
        exact append_cancel_right (hcomponents.trans (nil_append _).symm)
  · rintro ⟨hlower, hmounted, hlength, hfolds, hfree⟩
    refine ⟨⟨drive, segments rest⟩, ?_, ?_, ?_, accessReading_eq hletter rest⟩
    · rw [fsReading_lower hletter hs hlower, if_pos ⟨hmounted, hlength⟩]
      split_ifs with hplain
      · rfl
      rcases hfree with hempty | hslash | hroot
      · exact absurd (.inl hempty) hplain
      · exact absurd (.inr hslash) hplain
      · rw [hroot, nil_append]
    · rw [bashReading_eq hletter s hlength, if_pos hfolds]
    · rw [dogeshellReading_eq hletter hlower s user hlength, if_pos hfolds]

/-- On a fresh machine the readings of a lower-case absolute path agree. -/
theorem agree_notes : freshMachine.Ready ∧ driveNamed 99 = some 0 ∧
    Agree freshMachine (text "guest") (text "c:/notes") :=
  ⟨freshMachine_ready, by decide, (agree_iff _ _ 99 0 (text "/notes") freshMachine_ready (by decide)).mpr
    ⟨by decide, by decide, by decide, by decide, .inr (.inl (by decide))⟩⟩

/-- With the letter in capitals the shells read the drive, and the file system layer reads a
directory of that name. -/
theorem capital_letter_disagrees : freshMachine.Ready ∧
    fsReading freshMachine (text "C:/notes") = some ⟨0, [text "C:", text "notes"]⟩ ∧
    bashReading freshMachine (text "C:/notes") = some ⟨0, [text "notes"]⟩ ∧
    ¬ Agree freshMachine (text "guest") (text "C:/notes") := by
  have hfs : fsReading freshMachine (text "C:/notes") = some ⟨0, [text "C:", text "notes"]⟩ := by
    decide +kernel
  have hbash : bashReading freshMachine (text "C:/notes") = some ⟨0, [text "notes"]⟩ := by decide +kernel
  refine ⟨freshMachine_ready, hfs, hbash, ?_⟩
  rintro ⟨reading, hfirst, hsecond, -⟩
  rw [hfs] at hfirst
  rw [hbash, ← hfirst] at hsecond
  revert hsecond
  decide

/-!
## The path of a script

`run_script` puts the working directory in front of a relative path and expects that directory to start
with a slash. `fs_dirname` reports it with the letter of the drive in front, so a script is found by an
absolute path only.
-/

open Script (Text text appendChecked maxScriptSize)

/-- The path that `run_script` opens, from what `GET_CWD` reports as the working directory. -/
def scriptPath (directory : Option Text) (path : Text) : Except String Text :=
  if path.head? = some slash then
    if path.length < 256 then .ok path else .error "dogescript: script path is too long"
  else
    match directory.filter fun directory => directory.length < 256 ∧ directory.head? = some slash with
    | none => .error "dogescript: unable to resolve script path"
    | some directory =>
      match if 1 < directory.length then appendChecked 256 slash directory else some directory with
      | none => .error "dogescript: script path is too long"
      | some start =>
        if 256 ≤ start.length + path.length then .error "dogescript: script path is too long"
        else .ok (start ++ path)

/-- `fs_get_info`, for what is not a directory: the drive and the entry of the file. -/
def fsGetInfo (path : Text) : Fs (Option (Fin 2 × Target)) := do
  match ← fsPreparePath path with
  | none => pure none
  | some resolved =>
    if resolved = rootPath ∨ resolved = dot then pure none
    else do
      let found ← atPath resolved none exfatResolveEntry Except.toOption
      let s ← get
      pure ((found.filter fun target => !target.isDir).map fun target => (s.currentDrive, target))

/-- The file that a path leads to. -/
def FsState.fileAt (s : FsState) (path : Text) : Option (Fin 2 × Target) :=
  match fsGetInfo path s with
  | .ok file _ => file
  | .error _ _ => none

/-- The file that `run_script` opens. -/
def FsState.scriptFile (s : FsState) (path : Text) : Option (Fin 2 × Target) :=
  match scriptPath s.fsDirname path with
  | .error _ => none
  | .ok resolved => (s.fileAt resolved).filter fun file => file.2.size ≤ maxScriptSize

/-- A relative path is never resolved. -/
theorem scriptPath_relative (s : FsState) {path : Text} (hrelative : path.head? ≠ some slash) :
    scriptPath s.fsDirname path = .error "dogescript: unable to resolve script path" := by
  have hletter : ∀ drive : Fin 2, UInt8.ofNat (99 + drive) ≠ slash := by decide
  have hnone : (s.fsDirname.filter fun directory =>
      directory.length < 256 ∧ directory.head? = some slash) = none := by
    rw [filter_eq_none_iff]
    intro directory hdirectory hslash
    obtain ⟨-, hdirectory⟩ := ite_none_right_eq_some.mp hdirectory
    rw [← some.inj hdirectory] at hslash
    exact hletter _ (some.inj (of_decide_eq_true hslash).2)
  rw [scriptPath, if_neg hrelative, hnone]

/-- `run_script` opens the file that a relative path leads to iff there is none. -/
theorem script_opens_iff (s : FsState) {path : Text} (hrelative : path.head? ≠ some slash) :
    s.scriptFile path = s.fileAt path ↔ s.fileAt path = none := by
  rw [FsState.scriptFile, scriptPath_relative s hrelative]
  exact eq_comm

/-- On a fresh machine there is no such file, and none is opened. -/
theorem script_opens_missing : (text "a").head? ≠ some slash ∧
    freshMachine.scriptFile (text "a") = freshMachine.fileAt (text "a") :=
  ⟨by decide, (script_opens_iff freshMachine (by decide)).mpr (by decide +kernel)⟩

/-- The machine with an empty script in the root of its drive. -/
def scriptMachine : FsState := finalState (fsCreate (text "a") freshMachine)

/-- `run_script` does not open the script that stands in the working directory. -/
theorem script_not_opened : scriptMachine.driveMounted scriptMachine.currentDrive = true ∧
    scriptMachine.fsDirname = some (text "c:/") ∧ (scriptMachine.fileAt (text "a")).isSome ∧
      scriptMachine.scriptFile (text "a") = none := by
  decide +kernel

end Windoge.Vfs
