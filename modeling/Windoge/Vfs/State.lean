import Windoge.Vfs.Paths
import Windoge.Exfat.Walk

/-!
# The file system layer

The state and the operations of `vfs.c`: the drive in use, which drives are mounted and the
working directory remembered for each of them, over the exFAT driver's own globals. An
operation on a path selects the drive its prefix names, walks to the parent directory, runs the
driver there and walks back to the directory it started in. The codes the driver returns are
values here; a computation only stops where C leaves the behaviour undefined.
-/

namespace Windoge.Vfs

open Exfat EStateM.Result Except
open Script (Text text)

/-- The globals of `vfs.c` over those of the exFAT driver. -/
structure FsState where
  volume : Volume
  currentDrive : Fin 2
  driveMounted : Fin 2 → Bool
  workingDirs : Fin 2 → Text

/-- A function of the file system layer. -/
abbrev Fs := EStateM Stop FsState

/-- The code a driver function returns. -/
def returnCode : Except ℤ Unit → ℤ
  | .ok _ => 0
  | .error rc => rc

/-- Call a function of the driver. -/
def call {α : Type} (x : Driver α) : Fs (Except ℤ α) := fun s =>
  match x s.volume with
  | .ok a v => .ok (.ok a) { s with volume := v }
  | .error (.code rc) v => .ok (.error rc) { s with volume := v }
  | .error .undefined v => .error .undefined { s with volume := v }

variable {α : Type} {x : Driver α} {s s' : FsState}

theorem call_ok {a : α} (h : call x s = .ok (.ok a) s') :
    ∃ v, x s.volume = .ok a v ∧ s' = { s with volume := v } := by
  unfold call at h
  cases hrun : x s.volume with
  | ok b v =>
    rw [hrun] at h
    obtain ⟨hvalue, rfl⟩ := ok.inj h
    cases hvalue
    exact ⟨v, rfl, rfl⟩
  | error e v =>
    rw [hrun] at h
    cases e <;> cases h

/-- A call that returned a code is a run of the driver that stopped with it. -/
theorem call_code {rc : ℤ} (h : call x s = .ok (.error rc) s') :
    ∃ v, x s.volume = .error (.code rc) v ∧ s' = { s with volume := v } := by
  unfold call at h
  cases hrun : x s.volume with
  | ok b v =>
    rw [hrun] at h
    cases h
  | error e v =>
    rw [hrun] at h
    cases e with
    | code rc' =>
      obtain ⟨hvalue, rfl⟩ := ok.inj h
      cases hvalue
      exact ⟨v, rfl, rfl⟩
    | undefined => cases h

theorem call_undefined {e : Stop} (h : call x s = .error e s') : ∃ v, x s.volume = .error .undefined v := by
  unfold call at h
  cases hrun : x s.volume with
  | ok b v =>
    rw [hrun] at h
    cases h
  | error e v =>
    rw [hrun] at h
    cases e with
    | code rc => cases h
    | undefined => exact ⟨v, rfl⟩

/-- `ata_select_drive`. -/
def ataSelectDrive (drive : Fin 2) : Fs Unit :=
  modify fun s => { s with volume := { s.volume with ataDrive := drive } }

/-- Mount the selected drive, after formatting it if it holds no file system. -/
def mountOrFormat : Fs Bool := do
  match ← call exfatMount with
  | .error _ => pure false
  | .ok 0 =>
    match ← call exfatWipeAndFormat with
    | .error _ => pure false
    | .ok _ =>
      let result ← call exfatMount
      pure (result.toOption = some 1)
  | .ok result => pure (result = 1)

/-- `fs_mount_or_format_drive`: whether it returns 0. -/
def fsMountOrFormatDrive (drive : Fin 2) : Fs Bool := do
  let before ← get
  if (before.volume.drives drive).present = false then pure false
  else do
    ataSelectDrive drive
    if ← mountOrFormat then
      modify fun s => { s with
        driveMounted := Function.update s.driveMounted drive true
        workingDirs := if before.driveMounted drive then s.workingDirs
          else Function.update s.workingDirs drive rootPath }
      pure true
    else pure false

/-- Remember the working directory of the current drive. -/
def saveDirectory : Fs Unit :=
  modify fun s =>
    if s.driveMounted s.currentDrive ∧ s.volume.currentPath.length < 256 then
      { s with workingDirs := Function.update s.workingDirs s.currentDrive s.volume.currentPath }
    else s

/-- Go back to a drive after another one could not be mounted. -/
def returnToDrive (drive : Fin 2) : Fs Unit := do
  let s ← get
  if (s.volume.drives drive).present = false then pure ()
  else do
    ataSelectDrive drive
    modify fun s => { s with currentDrive := drive }
    if s.driveMounted drive then do
      let _ ← call exfatMount
      let _ ← call (exfatChangeDirectory (s.workingDirs drive))
      pure ()
    else pure ()

/-- Go to the remembered directory of a drive that has just been mounted. -/
def enterDrive (drive : Fin 2) : Fs Bool := do
  let s ← get
  modify fun s => { s with currentDrive := drive }
  match ← call (exfatChangeDirectory (s.workingDirs drive)) with
  | .ok _ => pure true
  | .error _ =>
    modify fun s => { s with workingDirs := Function.update s.workingDirs drive rootPath }
    match ← call (exfatChangeDirectory rootPath) with
    | .ok _ => pure true
    | .error _ =>
      modify fun s => { s with driveMounted := Function.update s.driveMounted drive false }
      pure false

/-- `fs_select_drive_internal`: whether it returns 0. -/
def fsSelectDriveInternal (drive : Fin 2) : Fs Bool := do
  let s ← get
  if (s.volume.drives drive).present = false then pure false
  else if drive = s.currentDrive ∧ s.driveMounted drive then pure true
  else do
    saveDirectory
    if ← fsMountOrFormatDrive drive then enterDrive drive
    else do
      returnToDrive s.currentDrive
      pure false

/-- The drive that a lower-case letter names. -/
def driveOf (letter : UInt8) : Option (Fin 2) :=
  if letter = 99 then some 0 else if letter = 100 then some 1 else none

/-- The end of `fs_prepare_path`: the path if the drive is mounted and the path fits. -/
def copyPath (path : Text) : Fs (Option Text) := do
  let s ← get
  pure (if s.driveMounted s.currentDrive ∧ path.length < 256 then some path else none)

/-- `fs_prepare_path` with a buffer of 256 characters. -/
def fsPreparePath (path : Text) : Fs (Option Text) :=
  match splitDrive isLower path with
  | none => copyPath path
  | some (letter, rest) =>
    match driveOf letter with
    | none => pure none
    | some drive => do
      if ← fsSelectDriveInternal drive then copyPath (if rest = [] then rootPath else rest)
      else pure none

/-- What `fs_enter_path` hands to the operation: the last component, and the directory to walk
back to if it walked. -/
structure Entered where
  leaf : Text
  savedCwd : Option Text

/-- The walk of `fs_enter_path` to the parent directory. -/
def walkToParent (parent leaf : Text) : Fs (Option Entered) :=
  if parent = [] then pure (some ⟨leaf, none⟩)
  else do
    let s ← get
    match ← call (exfatChangeDirectory parent) with
    | .ok _ => pure (some ⟨leaf, some s.volume.currentPath⟩)
    | .error _ => pure none

/-- `fs_enter_path`. -/
def fsEnterPath (path : Text) : Fs (Option Entered) :=
  if path = [] then pure none
  else do
    match ← fsPreparePath path with
    | none => pure none
    | some resolved =>
      match fsSplitPath resolved with
      | .error .undefined => throw .undefined
      | .error (.code _) => pure none
      | .ok (parent, leaf) => walkToParent parent leaf

/-- `fs_leave_path`. -/
def fsLeavePath (savedCwd : Option Text) : Fs Unit :=
  match savedCwd with
  | none => pure ()
  | some saved => do
    let _ ← call (exfatChangeDirectory saved)
    pure ()

/-- The shape of the operations on one path: enter it, run the driver on the last component,
leave it, and turn what the driver returned into the result. -/
def atPath {α β : Type} (path : Text) (failure : β) (operation : Text → Driver α)
    (report : Except ℤ α → β) : Fs β := do
  match ← fsEnterPath path with
  | none => pure failure
  | some entered =>
    let result ← call (operation entered.leaf)
    fsLeavePath entered.savedCwd
    pure (report result)

/-- `fs_create`. -/
def fsCreate (filename : Text) : Fs ℤ :=
  atPath filename (-1) (fun leaf => exfatCreateNode leaf false) returnCode

/-- `fs_mkdir`. -/
def fsMkdir (foldername : Text) : Fs ℤ :=
  atPath foldername (-1) (fun leaf => exfatCreateNode leaf true) returnCode

/-- `fs_exists`. -/
def fsExists (filename : Text) : Fs Bool :=
  atPath filename false exfatResolveEntry fun result => result.isOk

/-- `fs_delete`. -/
def fsDelete (filename : Text) : Fs ℤ :=
  atPath filename (-1) exfatDeleteNode fun result => if returnCode result = 0 then 1 else -1

/-- `fs_dirname`. -/
def FsState.fsDirname (s : FsState) : Option Text :=
  if s.driveMounted s.currentDrive then
    some (UInt8.ofNat (99 + s.currentDrive) :: colon :: s.volume.currentPath)
  else none

/-!
## A booted machine with working disks

After boot every drive that can be mounted is mounted and holds a sound volume, and the driver's
globals are those of the drive in use. Going from drive to drive and from directory to directory
keeps this and changes nothing on the drives; which drive is in use afterwards depends only on
whether the one asked for is mounted.
-/

open Windoge.Flow

/-- The number of clusters that mounting a drive with these contents reads. -/
def bootCount (bytes : Bytes) : ℕ := min (field (sectorAt bytes partitionLba) 92 4) maxBitmapClusters

/-- The driver's globals while it works in a directory of one of the drives, without sector
failures to come. -/
def onDrive (drives : Fin 2 → Drive) (drive : Fin 2) (cluster : ℕ) (path : Text) : Volume where
  drives := drives
  ataDrive := drive
  outcomes := []
  currentCluster := cluster
  currentPath := path
  clusterHeapOffset := 2048
  sectorsPerCluster := 8
  rootCluster := 4
  clusterCount := bootCount (drives drive).bytes

/-- A boot record with the formatter's geometry. -/
structure BootRecord (sector : Bytes) : Prop where
  name : field sector 3 8 = fsName
  sectorShift : field sector 108 1 = 9
  clusterShift : field sector 109 1 = 3
  heapOffset : field sector 88 4 = 2048
  root : field sector 96 4 = 4

/-- A drive that holds a sound volume. -/
structure Holds (drive : Drive) : Prop where
  present : drive.present = true
  boot : BootRecord (sectorAt drive.bytes partitionLba)
  sound : (onDrive (fun _ => drive) 0 4 rootPath).Sound

/-- A drive that can be neither mounted nor formatted: it is not there, its boot record describes
a geometry the driver refuses, or it is too small. -/
def Unusable (drive : Drive) : Prop :=
  let sector := sectorAt drive.bytes partitionLba
  drive.present = true → if field sector 3 8 = fsName then
      field sector 108 1 ≠ 9 ∨ 32 ≤ field sector 109 1 ∨ field sector 88 4 = 0 ∨
        field sector 96 4 < 2 ∨ field sector 92 4 = 0
    else drive.sectorCount < partitionLba + minTotalSectors

/-- The states of a booted machine with working disks. -/
structure FsState.Ready (s : FsState) : Prop where
  volume : s.volume =
    onDrive s.volume.drives s.currentDrive s.volume.currentCluster s.volume.currentPath
  inUse : s.driveMounted s.currentDrive = true
  holds : ∀ d, s.driveMounted d = true → Holds (s.volume.drives d)
  unusable : ∀ d, s.driveMounted d = false → Unusable (s.volume.drives d)
  current : s.volume.Reach s.volume.currentCluster
  path : PathString s.volume.currentPath
  dirs : ∀ d, PathString (s.workingDirs d)

/-- The drives and what is on them stay; only where the layer works may change. -/
structure Moves (s s' : FsState) : Prop where
  ready : s'.Ready
  drives : s'.volume.drives = s.volume.drives
  mounted : s'.driveMounted = s.driveMounted

variable {s'' : FsState} {v : Volume} {drives : Fin 2 → Drive} {d : Fin 2} {c : ℕ} {path : Text}

theorem Moves.refl (hs : s.Ready) : Moves s s := ⟨hs, rfl, rfl⟩

theorem Moves.trans (h : Moves s s') (h' : Moves s' s'') : Moves s s'' :=
  ⟨h'.ready, h'.drives.trans h.drives, h'.mounted.trans h.mounted⟩

section Drive

variable (hdrive : Holds (drives d))
include hdrive

theorem Holds.onDrive_sound (hc : (onDrive drives d 4 rootPath).Reach c) (path : Text) :
    (onDrive drives d c path).Sound :=
  ⟨⟨rfl, rfl, rfl, hdrive.sound.atLeast, hdrive.sound.atMost⟩, hdrive.sound.separated,
    hdrive.sound.dirOk, hdrive.sound.sizeOk, hc⟩

theorem Holds.onDrive_ready : (onDrive drives d c path).Ready := ⟨rfl, hdrive.present⟩

/-- A change of directory moves to a reachable directory, or fails and changes nothing. -/
theorem Holds.cd_cases (target : Text) (hc : (onDrive drives d 4 rootPath).Reach c) (hpath : PathString path) :
    (∃ c' path', exfatChangeDirectory target (onDrive drives d c path) =
        .ok () (onDrive drives d c' path') ∧ (onDrive drives d 4 rootPath).Reach c' ∧
        PathString path') ∨
      ∃ e, exfatChangeDirectory target (onDrive drives d c path) = .error e (onDrive drives d c path) := by
  have hsound := hdrive.onDrive_sound hc path
  cases hcd : exfatChangeDirectory target (onDrive drives d c path) with
  | ok u v' =>
    obtain ⟨c', path', hreach, hsame⟩ := hsound.cd_ok hcd
    obtain rfl := hsame.eq rfl
    exact .inl ⟨c', path', rfl, hreach, PathString.cd hpath hcd⟩
  | error e v' =>
    obtain rfl := (cd_error hcd).eq rfl
    exact .inr ⟨e, rfl⟩

end Drive

/-- Mounting a drive that holds a sound volume sets the driver's globals. -/
theorem exfatMount_holds (hquiet : v.outcomes = []) (hdrive : Holds (v.drives v.ataDrive)) :
    exfatMount v = .ok 1 (onDrive v.drives v.ataDrive 4 rootPath) := by
  have haccepts : v.Accepts partitionLba := ⟨by decide, hdrive.present⟩
  have hcount : 256 ≤ min (field (sectorAt v.bytes partitionLba) 92 4) maxBitmapClusters := hdrive.sound.atLeast
  have hboot : BootRecord (sectorAt v.bytes partitionLba) := hdrive.boot
  rw [exfatMount, bind_ok (exfatSectorRead_quiet hquiet haccepts), if_neg (not_not_intro hboot.name), if_neg,
    modify_bind, pure_run, hboot.clusterShift, hboot.heapOffset, hboot.root]
  · cases v
    subst hquiet
    rfl
  · rw [hboot.sectorShift, hboot.clusterShift, hboot.heapOffset, hboot.root]
    omega

section Ready

variable (hs : s.Ready)
include hs

namespace FsState.Ready

theorem here : Holds (s.volume.drives s.currentDrive) := hs.holds _ hs.inUse

theorem reach_iff : (onDrive s.volume.drives s.currentDrive 4 rootPath).Reach c ↔
    s.volume.Reach c := by
  rw [hs.volume]
  exact Iff.rfl

theorem sound : s.volume.Sound := by
  rw [hs.volume]
  exact hs.here.onDrive_sound (hs.reach_iff.mpr hs.current) _

theorem volume_ready : s.volume.Ready := by
  rw [hs.volume]
  exact hs.here.onDrive_ready

/-- A change of directory moves, or fails and changes nothing. -/
theorem cd (target : Text) :
    (∃ s', call (exfatChangeDirectory target) s = .ok (.ok ()) s' ∧ Moves s s' ∧
        s'.currentDrive = s.currentDrive) ∨
      (∃ rc, call (exfatChangeDirectory target) s = .ok (.error rc) s) ∨
      call (exfatChangeDirectory target) s = .error .undefined s := by
  unfold call
  rw [hs.volume]
  rcases hs.here.cd_cases target (hs.reach_iff.mpr hs.current) hs.path with
    ⟨c, path, hcd, hreach, hpath⟩ | ⟨e, hcd⟩
  · rw [hcd]
    exact .inl ⟨_, rfl, ⟨⟨rfl, hs.inUse, hs.holds, hs.unusable, hreach, hpath, hs.dirs⟩, rfl, rfl⟩, rfl⟩
  · rw [hcd, ← hs.volume]
    cases e with
    | code rc => exact .inr (.inl ⟨rc, rfl⟩)
    | undefined => exact .inr (.inr rfl)

/-- A change to an absolute directory that fits has defined behaviour. -/
theorem cd_absolute {target : Text} (htarget : PathString target) :
    ∃ result s', call (exfatChangeDirectory target) s = .ok result s' ∧ Moves s s' ∧
      s'.currentDrive = s.currentDrive := by
  rcases hs.cd target with ⟨s', hcd, hmoves, hdrive⟩ | ⟨rc, hcd⟩ | hcd
  · exact ⟨_, s', hcd, hmoves, hdrive⟩
  · exact ⟨_, s, hcd, Moves.refl hs, rfl⟩
  · obtain ⟨v', hrun⟩ := call_undefined hcd
    exact absurd hrun htarget.cd_defined

end FsState.Ready

end Ready

/-!
## Selecting drives and walking paths

On a booted machine with working disks, selecting a drive succeeds exactly if it is mounted, and
entering and leaving a path change nothing on the drives, however they end. What an operation on
a path does therefore comes down to what the driver does in the place where the path leads.
-/

open Windoge.Flow Function Moves Bool Volume

/-- The directory in which the layer works once a drive is in use: on another drive than the
current one the remembered directory, or the root if that does not lead anywhere. -/
def FsState.directoryOn (s : FsState) (drive : Fin 2) : Text :=
  if drive = s.currentDrive then s.volume.currentPath
  else
    match exfatChangeDirectory (s.workingDirs drive) (onDrive s.volume.drives drive 4 rootPath) with
    | .ok _ v => v.currentPath
    | .error _ _ => rootPath

theorem pathString_update {dirs : Fin 2 → Text} (hdirs : ∀ d, PathString (dirs d))
    (hpath : PathString path) (d' : Fin 2) : PathString (Function.update dirs d path d') :=
  (forall_update_iff dirs fun _ => PathString).mpr ⟨hpath, fun d _ => hdirs d⟩ d'

theorem cd_root (v : Volume) : exfatChangeDirectory rootPath v =
    .ok () { v with currentCluster := v.rootCluster, currentPath := rootPath } := rfl

section Mounting

variable (hquiet : s.volume.outcomes = [])
include hquiet

theorem mountOrFormat_holds (hdrive : Holds (s.volume.drives s.volume.ataDrive)) :
    mountOrFormat s = .ok true { s with volume := onDrive s.volume.drives s.volume.ataDrive 4 rootPath } := by
  have hmount : call exfatMount s =
      .ok (.ok 1) { s with volume := onDrive s.volume.drives s.volume.ataDrive 4 rootPath } := by
    rw [call, exfatMount_holds hquiet hdrive]
  rw [mountOrFormat, bind_ok hmount]
  rfl

/-- A drive that is unusable is neither mounted nor formatted. -/
theorem mountOrFormat_unusable (hdrive : Unusable (s.volume.drives s.volume.ataDrive))
    (hpresent : (s.volume.drives s.volume.ataDrive).present = true) :
    mountOrFormat s = .ok false s := by
  have haccepts : s.volume.Accepts partitionLba := ⟨by decide, hpresent⟩
  have hread := exfatSectorRead_quiet hquiet haccepts
  have hunusable := hdrive hpresent
  split_ifs at hunusable with hname
  · have hmount : call exfatMount s = .ok (.error (-1)) s := by
      rw [call, exfatMount, bind_ok hread, bytes, if_neg (not_not_intro hname), if_pos hunusable]
      rfl
    rw [mountOrFormat, bind_ok hmount]
    rfl
  · have hmount : call exfatMount s = .ok (.ok 0) s := by
      rw [call, exfatMount, bind_ok hread, bytes, if_pos hname]
      rfl
    have hformat : call exfatWipeAndFormat s = .ok (.error (-1)) s := by
      rw [call, exfatWipeAndFormat, get_bind]
      split_ifs
      · rfl
      · rfl
      · omega
    rw [mountOrFormat, bind_ok hmount]
    change (call exfatWipeAndFormat >>= _) s = _
    rw [bind_ok hformat]
    rfl

end Mounting

section Ready

variable (hs : s.Ready)
include hs

namespace FsState.Ready

/-- Remembering the working directory changes nothing else. -/
theorem saveDirectory : ∃ s', Vfs.saveDirectory s = .ok () s' ∧ Moves s s' ∧
    s'.currentDrive = s.currentDrive ∧
    ∀ d, d ≠ s.currentDrive → s'.workingDirs d = s.workingDirs d := by
  have hmodify : Vfs.saveDirectory s = .ok () { s with
      workingDirs := update s.workingDirs s.currentDrive s.volume.currentPath } :=
    congrArg (ok ()) (if_pos ⟨hs.inUse, hs.path.fits⟩)
  refine ⟨_, hmodify, ⟨⟨hs.volume, hs.inUse, hs.holds, hs.unusable, hs.current, hs.path, ?_⟩, rfl, rfl⟩,
    rfl, fun d hd => update_of_ne hd _ _⟩
  exact pathString_update hs.dirs hs.path

theorem remounted (hd : s.driveMounted d = true) :
    Moves s { s with volume := onDrive s.volume.drives d 4 rootPath, currentDrive := d } :=
  ⟨⟨rfl, hd, hs.holds, hs.unusable, Forest.Reach.refl, pathString_root, hs.dirs⟩, rfl, rfl⟩

/-- A mounted drive is mounted again, at its root. -/
theorem mount (hd : s.driveMounted d = true) : fsMountOrFormatDrive d s =
    .ok true { s with volume := onDrive s.volume.drives d 4 rootPath } := by
  have hdrive := hs.holds d hd
  have hquiet := hs.volume_ready.quiet
  have hmount := mountOrFormat_holds (s := { s with volume := { s.volume with ataDrive := d } }) hquiet hdrive
  rw [fsMountOrFormatDrive, get_bind, if_neg (by rw [hdrive.present]; decide)]
  unfold ataSelectDrive
  rw [modify_bind, bind_ok hmount, if_pos rfl, modify_bind, if_pos hd]
  have hsame : update s.driveMounted d true = s.driveMounted := by rw [← hd, update_eq_self]
  change ok true { s with
    volume := onDrive s.volume.drives d 4 rootPath
    driveMounted := update s.driveMounted d true } = _
  rw [hsame]

/-- A drive that is not mounted cannot be mounted. -/
theorem mount_unusable (hd : s.driveMounted d = false) :
    ∃ v, fsMountOrFormatDrive d s = .ok false { s with volume := v } ∧ v.outcomes = [] ∧
      v.drives = s.volume.drives := by
  have hquiet := hs.volume_ready.quiet
  rw [fsMountOrFormatDrive, get_bind]
  by_cases hpresent : (s.volume.drives d).present = false
  · rw [if_pos hpresent]
    exact ⟨s.volume, rfl, hquiet, rfl⟩
  have hmount := mountOrFormat_unusable
    (s := { s with volume := { s.volume with ataDrive := d } }) hquiet (hs.unusable d hd)
    (eq_true_of_not_eq_false hpresent)
  unfold ataSelectDrive
  rw [if_neg hpresent, modify_bind, bind_ok hmount, if_neg (by decide)]
  exact ⟨_, rfl, hquiet, rfl⟩

/-- A drive that has just been mounted is entered. -/
theorem enterDrive (hd : s.driveMounted d = true) :
    ∃ s', Vfs.enterDrive d { s with volume := onDrive s.volume.drives d 4 rootPath } = .ok true s' ∧
      Moves s s' ∧ s'.currentDrive = d ∧ s'.volume.currentPath =
        match exfatChangeDirectory (s.workingDirs d) (onDrive s.volume.drives d 4 rootPath) with
        | .ok _ v => v.currentPath
        | .error _ _ => rootPath := by
  have hmoves := hs.remounted hd
  obtain ⟨result, s₁, hcd, hmoves₁, hdrive₁⟩ := hmoves.ready.cd_absolute (hs.dirs d)
  unfold Vfs.enterDrive
  rw [get_bind, modify_bind, bind_ok hcd]
  cases result with
  | ok u =>
    obtain ⟨v, hrun, rfl⟩ := call_ok hcd
    rw [hrun]
    exact ⟨_, rfl, hmoves.trans hmoves₁, hdrive₁, rfl⟩
  | error rc =>
    obtain ⟨v, hrun, -⟩ := call_code hcd
    rw [hrun]
    -- the remembered directory is gone: the root takes its place
    dsimp only
    have hforget : Moves s₁ { s₁ with workingDirs := update s₁.workingDirs d rootPath } := by
      refine ⟨⟨hmoves₁.ready.volume, hmoves₁.ready.inUse, hmoves₁.ready.holds, hmoves₁.ready.unusable,
        hmoves₁.ready.current, hmoves₁.ready.path, ?_⟩, rfl, rfl⟩
      exact pathString_update hmoves₁.ready.dirs pathString_root
    rw [modify_bind]
    obtain ⟨result, s₂, hroot, hmoves₂, hdrive₂⟩ := hforget.ready.cd_absolute pathString_root
    rw [bind_ok hroot]
    cases result with
    | ok u =>
      obtain ⟨v', hroot', rfl⟩ := call_ok hroot
      rw [cd_root] at hroot'
      cases hroot'
      exact ⟨_, rfl, ((hmoves.trans hmoves₁).trans hforget).trans hmoves₂, hdrive₂.trans hdrive₁, rfl⟩
    | error rc =>
      rw [call, cd_root] at hroot
      cases hroot

/-- The drive in use is taken up again after another one could not be mounted. -/
theorem returnToDrive {v : Volume} (hquiet : v.outcomes = [])
    (hdrives : v.drives = s.volume.drives) :
    ∃ s', Vfs.returnToDrive s.currentDrive { s with volume := v } = .ok () s' ∧ Moves s s' ∧
      s'.currentDrive = s.currentDrive := by
  have hmoves := hs.remounted hs.inUse
  have hdrive := hdrives ▸ hs.here
  have hmount : call exfatMount { s with volume := { v with ataDrive := s.currentDrive } } =
      .ok (.ok 1) { s with volume := onDrive s.volume.drives s.currentDrive 4 rootPath } := by
    have hrun := exfatMount_holds (v := { v with ataDrive := s.currentDrive }) hquiet hdrive
    rw [call, hrun, ← hdrives]
  obtain ⟨result, s₁, hcd, hmoves₁, hdrive₁⟩ := hmoves.ready.cd_absolute (hs.dirs s.currentDrive)
  unfold Vfs.returnToDrive ataSelectDrive
  rw [get_bind, if_neg (by rw [hdrive.present]; decide), modify_bind, modify_bind, if_pos hs.inUse,
    bind_ok hmount, bind_ok hcd]
  exact ⟨s₁, rfl, hmoves.trans hmoves₁, hdrive₁⟩

/-- Selecting a drive succeeds exactly if it is mounted, and changes nothing on the drives. -/
theorem select (d : Fin 2) :
    ∃ s', fsSelectDriveInternal d s = .ok (s.driveMounted d) s' ∧ Moves s s' ∧
      (s'.currentDrive = if s.driveMounted d then d else s.currentDrive) ∧
      (s.driveMounted d = true → s'.volume.currentPath = s.directoryOn d) := by
  unfold fsSelectDriveInternal
  rw [get_bind]
  by_cases hd : s.driveMounted d = true
  · rw [if_neg (by rw [(hs.holds d hd).present]; decide)]
    split_ifs with hsame
    · rw [hd]
      exact ⟨s, rfl, refl hs, hsame.1.symm, fun _ => (if_pos hsame.1).symm⟩
    obtain ⟨s₁, hsave, hmoves₁, -, hdirs⟩ := hs.saveDirectory
    have hne : d ≠ s.currentDrive := fun heq => hsame ⟨heq, hd⟩
    have hd₁ : s₁.driveMounted d = true := by rw [hmoves₁.mounted, hd]
    obtain ⟨s₂, henter, hmoves₂, hdrive₂, hpath₂⟩ := hmoves₁.ready.enterDrive hd₁
    rw [bind_ok hsave, bind_ok (hmoves₁.ready.mount hd₁), if_pos rfl, hd]
    refine ⟨s₂, henter, hmoves₁.trans hmoves₂, hdrive₂, fun _ => ?_⟩
    rw [hpath₂, hmoves₁.drives, hdirs d hne, FsState.directoryOn, if_neg hne]
  · rw [not_eq_true] at hd
    have hstay : (if s.driveMounted d then d else s.currentDrive) = s.currentDrive := by
      rw [hd]
      rfl
    rw [hstay, hd]
    have hvacuous (s' : FsState) : false = true → s'.volume.currentPath = s.directoryOn d :=
      nofun
    by_cases hpresent : (s.volume.drives d).present = false
    · rw [if_pos hpresent]
      exact ⟨s, rfl, refl hs, rfl, hvacuous s⟩
    obtain ⟨s₁, hsave, hmoves₁, hdrive₁, -⟩ := hs.saveDirectory
    have hd₁ : s₁.driveMounted d = false := by rw [hmoves₁.mounted, hd]
    obtain ⟨v, hmount, hquiet, hdrives⟩ := hmoves₁.ready.mount_unusable hd₁
    obtain ⟨s₂, hreturn, hmoves₂, hdrive₂⟩ := hmoves₁.ready.returnToDrive hquiet hdrives
    rw [if_neg hpresent, if_neg fun hsame => Bool.false_ne_true hsame.2, bind_ok hsave,
      bind_ok hmount, if_neg (by decide), ← hdrive₁, bind_ok hreturn]
    exact ⟨s₂, rfl, hmoves₁.trans hmoves₂, hdrive₂, hvacuous s₂⟩

/-- Preparing a path always returns, and changes nothing on the drives. -/
theorem prepare (path : Text) : ∃ result s', fsPreparePath path s = .ok result s' ∧ Moves s s' := by
  rw [fsPreparePath]
  cases splitDrive isLower path with
  | none => exact ⟨_, s, rfl, refl hs⟩
  | some start =>
    obtain ⟨letter, rest⟩ := start
    dsimp only
    cases driveOf letter with
    | none => exact ⟨none, s, rfl, refl hs⟩
    | some drive =>
      obtain ⟨s₁, hselect, hmoves, -, -⟩ := hs.select drive
      dsimp only
      rw [bind_ok hselect]
      cases s.driveMounted drive with
      | true => exact ⟨_, s₁, rfl, hmoves⟩
      | false => exact ⟨none, s₁, rfl, hmoves⟩

/-- Walking to the parent directory changes nothing on the drives. -/
theorem walkToParent (parent leaf : Text) :
    (∃ result s', Vfs.walkToParent parent leaf s = .ok result s' ∧ Moves s s' ∧
      ∀ entered saved, result = some entered → entered.savedCwd = some saved → PathString saved) ∨
      Vfs.walkToParent parent leaf s = .error .undefined s := by
  unfold Vfs.walkToParent
  split_ifs
  · refine .inl ⟨_, s, rfl, refl hs, ?_⟩
    rintro entered saved hentered hsaved
    cases hentered
    cases hsaved
  rw [get_bind]
  rcases hs.cd parent with ⟨s', hcd, hmoves, -⟩ | ⟨rc, hcd⟩ | hcd
  · rw [bind_ok hcd]
    refine .inl ⟨_, s', rfl, hmoves, ?_⟩
    rintro entered saved hentered hsaved
    cases hentered
    cases hsaved
    exact hs.path
  · rw [bind_ok hcd]
    refine .inl ⟨_, s, rfl, refl hs, ?_⟩
    rintro entered saved hentered -
    cases hentered
  · rw [bind_error hcd]
    exact .inr rfl

/-- Entering a path changes nothing on the drives; it is undefined if a buffer is overrun. -/
theorem enter (path : Text) :
    (∃ result s', fsEnterPath path s = .ok result s' ∧ Moves s s' ∧
      ∀ entered saved, result = some entered → entered.savedCwd = some saved → PathString saved) ∨
      ∃ s', fsEnterPath path s = .error .undefined s' ∧ Moves s s' := by
  have hnone (s' : FsState) (hmoves : Moves s s') :
      ∃ result s'', (.ok none s' : EStateM.Result Stop FsState (Option Entered)) = .ok result s'' ∧ Moves s s'' ∧
        ∀ entered saved, result = some entered → entered.savedCwd = some saved → PathString saved := by
    refine ⟨none, s', rfl, hmoves, ?_⟩
    rintro entered saved hentered -
    cases hentered
  unfold fsEnterPath
  split_ifs
  · exact .inl (hnone s (refl hs))
  obtain ⟨resolved, s₁, hprepare, hmoves⟩ := hs.prepare path
  rw [bind_ok hprepare]
  cases resolved with
  | none => exact .inl (hnone s₁ hmoves)
  | some resolved =>
    dsimp only
    cases fsSplitPath resolved with
    | error e =>
      cases e with
      | code rc => exact .inl (hnone s₁ hmoves)
      | undefined => exact .inr ⟨s₁, rfl, hmoves⟩
    | ok parts =>
      rcases hmoves.ready.walkToParent parts.1 parts.2 with
        ⟨result, s₂, hwalk, hmoves₂, hsaved⟩ | hwalk
      · exact .inl ⟨result, s₂, hwalk, hmoves.trans hmoves₂, hsaved⟩
      · exact .inr ⟨s₁, hwalk, hmoves⟩

/-- Leaving a path changes nothing on the drives. -/
theorem leave {savedCwd : Option Text}
    (hsaved : ∀ saved, savedCwd = some saved → PathString saved) :
    ∃ s', fsLeavePath savedCwd s = .ok () s' ∧ Moves s s' ∧ s'.currentDrive = s.currentDrive := by
  cases savedCwd with
  | none => exact ⟨s, rfl, refl hs, rfl⟩
  | some saved =>
    obtain ⟨result, s', hcd, hmoves, hdrive⟩ := hs.cd_absolute (hsaved saved rfl)
    refine ⟨s', ?_, hmoves, hdrive⟩
    rw [fsLeavePath, bind_ok hcd]
    rfl

end FsState.Ready

end Ready

end Windoge.Vfs
