import Windoge.Exfat.Contents
import Windoge.Vfs.State

/-!
# What deleting a path removes

The place a path leads to on a booted machine, and what `fs_delete` does there: it clears the
first entry with the name, or reports that there is none and changes nothing on the drives, or
its behaviour is undefined because the entry set continues in another sector.
-/

namespace Windoge.Vfs

open Exfat Windoge.Flow Function FsState
open Script (Text text)

/-- The drive, the directory and the name that an operation on a path works with. -/
structure Place where
  drive : Fin 2
  cluster : ℕ
  name : Text
  deriving DecidableEq

/-- Where a path leads. -/
def FsState.place (s : FsState) (path : Text) : Except Stop Place :=
  match fsEnterPath path s with
  | .ok (some entered) s' => .ok ⟨s'.currentDrive, s'.volume.currentCluster, entered.leaf⟩
  | .ok none _ => .error (.code (-1))
  | .error e _ => .error e

/-- The contents of the directory of a place. -/
def FsState.directory (s : FsState) (place : Place) : Bytes :=
  clusterAt (s.volume.drives place.drive).bytes place.cluster

/-- The node in a slot of a directory on one of the drives. -/
def FsState.node (s : FsState) (drive : Fin 2) (cluster k : ℕ) : Option (Forest.Node ℕ Text) :=
  slotNode (clusterAt (s.volume.drives drive).bytes cluster) k

/-- What becomes of a path that is to be deleted. -/
inductive Fate
  | undefined
  | missing
  | removed (place : Place) (slot : ℕ)
  deriving DecidableEq

/-- What becomes of the entry at a place. -/
def FsState.fateAt (s : FsState) (place : Place) : Fate :=
  match findSlot (s.directory place) place.name with
  | none => .missing
  | some k => if FitsSector (s.directory place) k then .removed place k else .undefined

/-- What becomes of a path. -/
def FsState.fate (s : FsState) (path : Text) : Fate :=
  match s.place path with
  | .error .undefined => .undefined
  | .error (.code _) => .missing
  | .ok place => s.fateAt place

/-- The entry in a slot of a directory has been cleared, and nothing else has changed but the
bitmap and where the layer works. -/
structure Removed (s s' : FsState) (place : Place) (k : ℕ) : Prop where
  ready : s'.Ready
  mounted : s'.driveMounted = s.driveMounted
  others : ∀ d, d ≠ place.drive → s'.volume.drives d = s.volume.drives d
  keeps : KeepsOutside {2, place.cluster} (s.volume.drives place.drive).bytes
    (s'.volume.drives place.drive).bytes
  nodes : ∀ j, slotNode (s'.directory place) j =
    if j = k then none else slotNode (s.directory place) j

variable {s s' s₁ s₂ : FsState} {path : Text} {place : Place} {entered : Entered} {bytes : Bytes}
  {S : Set ℕ} {k : ℕ}

section Change

section

variable {bytes bytes' : Bytes} (hkeep : KeepsOutside S bytes bytes')
include hkeep

theorem field_boot {offset width : ℕ} (hend : offset + width ≤ 512) :
    field (sectorAt bytes' partitionLba) offset width = field (sectorAt bytes partitionLba) offset width := by
  refine field_congr fun i hi => hkeep _ fun c hc => ?_
  rw [partitionLba]
  omega

theorem bootCount_eq : bootCount bytes' = bootCount bytes := by
  rw [bootCount, bootCount, field_boot hkeep (by decide)]

/-- Changes inside the cluster heap keep the boot record. -/
theorem BootRecord.keep (h : BootRecord (sectorAt bytes partitionLba)) :
    BootRecord (sectorAt bytes' partitionLba) := by
  constructor
  · rw [field_boot hkeep (by decide), h.name]
  · rw [field_boot hkeep (by decide), h.sectorShift]
  · rw [field_boot hkeep (by decide), h.clusterShift]
  · rw [field_boot hkeep (by decide), h.heapOffset]
  · rw [field_boot hkeep (by decide), h.root]

end

theorem Holds.of_sound {drives : Fin 2 → Drive} {d : Fin 2} {c : ℕ} {path : Text}
    (hpresent : (drives d).present = true) (hboot : BootRecord (sectorAt (drives d).bytes partitionLba))
    (hsound : (onDrive drives d c path).Sound) : Holds (drives d) :=
  ⟨hpresent, hboot, ⟨⟨rfl, rfl, rfl, hsound.atLeast, hsound.atMost⟩, hsound.separated, hsound.dirOk,
    hsound.sizeOk, Forest.Reach.refl⟩⟩

/-- The machine stays booted when the volume in use changes inside its cluster heap and stays
sound. -/
theorem FsState.Ready.changed (hs : s.Ready) (hkeep : KeepsOutside S s.volume.bytes bytes)
    (hsound : (s.volume.put bytes []).Sound) : { s with volume := s.volume.put bytes [] }.Ready := by
  have hselected : s.volume.ataDrive = s.currentDrive := congrArg Volume.ataDrive hs.volume
  have hbytes : s.volume.bytes = (s.volume.drives s.currentDrive).bytes := by rw [Volume.bytes, hselected]
  have hhere : (s.volume.put bytes []).drives s.currentDrive =
      { s.volume.drives s.currentDrive with bytes := bytes } := by
    change update _ _ _ _ = _
    rw [hselected, update_self]
  have hother {d : Fin 2} (hd : d ≠ s.currentDrive) : (s.volume.put bytes []).drives d = s.volume.drives d := by
    change update _ _ _ _ = _
    rw [hselected, update_of_ne hd]
  rw [hbytes] at hkeep
  have hvolume : s.volume.put bytes [] = onDrive (s.volume.put bytes []).drives s.currentDrive
      s.volume.currentCluster s.volume.currentPath := by
    have hcount : s.volume.clusterCount = bootCount ((s.volume.put bytes []).drives s.currentDrive).bytes := by
      rw [hhere, bootCount_eq hkeep]
      exact congrArg Volume.clusterCount hs.volume
    rw [onDrive, ← hcount, Volume.put]
    nth_rewrite 1 [hs.volume]
    rw [hs.volume]
    rfl
  refine ⟨hvolume, hs.inUse, fun d hd => ?_, fun d hd => ?_, hsound.current, hs.path, hs.dirs⟩
  · by_cases hd : d = s.currentDrive
    · rw [hd]
      refine Holds.of_sound ?_ ?_ (hvolume ▸ hsound)
      · rw [hhere]
        exact hs.here.present
      · rw [hhere]
        exact hs.here.boot.keep hkeep
    · change Holds ((s.volume.put bytes []).drives d)
      rw [hother hd]
      exact hs.holds d (by assumption)
  · have hne : d ≠ s.currentDrive := fun heq => by
      have hmounted := hd
      rw [heq, hs.inUse] at hmounted
      cases hmounted
    rw [hother hne]
    exact hs.unusable d hd

end Change

section Operation

variable {α β : Type} (failure : β) (operation : Text → Driver α) (report : Except ℤ α → β)

/-- An operation on a path that leads nowhere fails; so does one whose walk is undefined. -/
theorem FsState.Ready.atPath_lost (hs : s.Ready) :
    (s.place path = .error .undefined →
      ∃ s', atPath path failure operation report s = .error .undefined s' ∧ Moves s s') ∧
    ∀ rc, s.place path = .error (.code rc) →
      ∃ s', atPath path failure operation report s = .ok failure s' ∧ Moves s s' := by
  unfold FsState.place atPath
  rcases hs.enter path with ⟨result, s₁, henter, hmoves, -⟩ | ⟨s₁, henter, hmoves⟩
  · rw [henter, bind_ok henter]
    cases result with
    | none =>
      refine ⟨fun h => ?_, fun rc h => ⟨s₁, rfl, hmoves⟩⟩
      cases h
    | some entered =>
      refine ⟨fun h => ?_, fun rc h => ?_⟩
      · cases h
      · cases h
  · rw [henter, bind_error henter]
    refine ⟨fun _ => ⟨s₁, rfl, hmoves⟩, fun rc h => ?_⟩
    cases h

/-- An operation on a path that leads somewhere runs the driver there. -/
theorem FsState.Ready.atPath_found (hs : s.Ready) (hplace : s.place path = .ok place) :
    ∃ s₁, Moves s s₁ ∧ s₁.currentDrive = place.drive ∧ s₁.volume.currentCluster = place.cluster ∧
      (∀ s₂, call (operation place.name) s₁ = .error .undefined s₂ →
        atPath path failure operation report s = .error .undefined s₂) ∧
      ∀ result s₂, call (operation place.name) s₁ = .ok result s₂ → s₂.Ready →
        ∃ s', atPath path failure operation report s = .ok (report result) s' ∧ Moves s₂ s' := by
  unfold FsState.place at hplace
  rcases hs.enter path with ⟨result, s₁, henter, hmoves, hsaved⟩ | ⟨s₁, henter, -⟩
  · rw [henter] at hplace
    cases result with
    | none => cases hplace
    | some entered =>
      cases hplace
      refine ⟨s₁, hmoves, rfl, rfl, fun s₂ hcall => ?_, fun result s₂ hcall hs₂ => ?_⟩
      · rw [atPath, bind_ok henter]
        exact bind_error hcall
      · obtain ⟨s', hleave, hmoves', -⟩ := hs₂.leave fun saved => hsaved entered saved rfl
        refine ⟨s', ?_, hmoves'⟩
        rw [atPath, bind_ok henter]
        change (call (operation entered.leaf) >>= _) s₁ = _
        rw [bind_ok hcall, bind_ok hleave]
        rfl
  · rw [henter] at hplace
    cases hplace

theorem Moves.directory (h : Moves s s₁) (hdrive : s₁.currentDrive = place.drive)
    (hcluster : s₁.volume.currentCluster = place.cluster) : s₁.volume.cwd = s.directory place := by
  have hselected := congrArg Volume.ataDrive h.ready.volume
  rw [Volume.cwd, Volume.bytes, hselected, hdrive, hcluster, h.drives]
  rfl

end Operation

/-- Deleting an entry where the layer works changes that entry only. -/
theorem FsState.Ready.call_delete (hs : s.Ready) {name : Text}
    (hfind : findSlot s.volume.cwd name = some k) (hfits : FitsSector s.volume.cwd k) :
    ∃ s', call (exfatDeleteNode name) s = .ok (.ok ()) s' ∧
      Removed s s' ⟨s.currentDrive, s.volume.currentCluster, name⟩ k := by
  obtain ⟨v', hdelete⟩ := (hs.sound.delete_quiet hs.volume_ready hfind).1 hfits
  obtain ⟨j, bytes, outcomes, hslot, -, rfl, hcleared⟩ := hs.sound.delete_ok hdelete
  cases hfind.symm.trans hslot
  have hquiet : outcomes = [] := (((steady.respects_exfatDeleteNode name).ok hdelete).ready hs.volume_ready).quiet
  subst hquiet
  have hselected : s.volume.ataDrive = s.currentDrive := congrArg Volume.ataDrive hs.volume
  have hready := hs.changed hcleared.keeps (hs.sound.delete_node hdelete).1
  have hbytes : ((s.volume.put bytes []).drives s.currentDrive).bytes = bytes := by
    rw [← hselected]
    exact s.volume.put_bytes bytes []
  have hold : (s.volume.drives s.currentDrive).bytes = s.volume.bytes := by rw [Volume.bytes, hselected]
  refine ⟨{ s with volume := s.volume.put bytes [] }, by rw [call, hdelete], hready, rfl, ?_, ?_, ?_⟩
  · intro d hd
    change update _ _ _ _ = _
    rw [hselected, update_of_ne hd]
  · change KeepsOutside _ (s.volume.drives s.currentDrive).bytes
      ((s.volume.put bytes []).drives s.currentDrive).bytes
    rw [hbytes, hold]
    exact hcleared.keeps
  · intro j
    change slotNode (clusterAt ((s.volume.put bytes []).drives s.currentDrive).bytes _) j =
      if j = k then none else slotNode (clusterAt (s.volume.drives s.currentDrive).bytes _) j
    rw [hbytes, hold, hcleared.dir]
    exact slotNode_clear hs.sound.cwdOk (findSlot_some hfind).1 j

/-- Where the layer works before and after does not matter for what has been removed. -/
theorem Removed.of_moves (h : Removed s₁ s₂ place k) (hbefore : Moves s s₁) (hafter : Moves s₂ s') :
    Removed s s' place k where
  ready := hafter.ready
  mounted := hafter.mounted.trans (h.mounted.trans hbefore.mounted)
  others d hd := by rw [hafter.drives, h.others d hd, hbefore.drives]
  keeps := by
    rw [hafter.drives, ← hbefore.drives]
    exact h.keeps
  nodes := by
    unfold directory
    rw [hafter.drives, ← hbefore.drives]
    exact h.nodes

/-- What `fs_delete` does. -/
theorem FsState.Ready.delete (hs : s.Ready) (path : Text) :
    match s.fate path with
    | .undefined => ∃ s', fsDelete path s = .error .undefined s'
    | .missing => ∃ s', fsDelete path s = .ok (-1) s' ∧ Moves s s'
    | .removed place k => ∃ s', fsDelete path s = .ok 1 s' ∧ Removed s s' place k := by
  unfold fate
  cases hplace : s.place path with
  | error e =>
    cases e with
    | undefined =>
      obtain ⟨s', hrun, -⟩ := (hs.atPath_lost (-1) exfatDeleteNode _).1 hplace
      exact ⟨s', hrun⟩
    | code rc => exact (hs.atPath_lost _ _ _).2 rc hplace
  | ok place =>
    obtain ⟨s₁, hmoves, hdrive, hcluster, hundefined, hresult⟩ :=
      hs.atPath_found (-1) exfatDeleteNode (fun result => if returnCode result = 0 then 1 else -1) hplace
    obtain ⟨drive, cluster, name⟩ := place
    obtain rfl : s₁.currentDrive = drive := hdrive
    obtain rfl : s₁.volume.currentCluster = cluster := hcluster
    have hcwd : s₁.volume.cwd = s.directory ⟨s₁.currentDrive, s₁.volume.currentCluster, name⟩ :=
      hmoves.directory rfl rfl
    dsimp only
    rw [fateAt, ← hcwd]
    cases hfind : findSlot s₁.volume.cwd name with
    | none =>
      have hcall : call (exfatDeleteNode name) s₁ = .ok (.error (-1)) s₁ := by
        rw [call, hmoves.ready.sound.delete_missing hmoves.ready.volume_ready hfind]
      obtain ⟨s', hrun, hmoves'⟩ := hresult _ _ hcall hmoves.ready
      exact ⟨s', hrun, hmoves.trans hmoves'⟩
    | some k =>
      dsimp only
      split_ifs with hfits
      · obtain ⟨s₂, hcall, hremoved⟩ := hmoves.ready.call_delete hfind hfits
        obtain ⟨s', hrun, hmoves'⟩ := hresult _ _ hcall hremoved.ready
        exact ⟨s', hrun, hremoved.of_moves hmoves hmoves'⟩
      · obtain ⟨v', hdelete⟩ := (hmoves.ready.sound.delete_quiet hmoves.ready.volume_ready hfind).2 hfits
        have hcall : call (exfatDeleteNode name) s₁ = .error .undefined { s₁ with volume := v' } := by
          rw [call, hdelete]
        exact ⟨_, hundefined _ hcall⟩

/-- Looking whether a path exists changes nothing on the drives. -/
theorem FsState.Ready.exists (hs : s.Ready) (path : Text) : Moves s (finalState (fsExists path s)) := by
  cases hplace : s.place path with
  | error e =>
    cases e with
    | undefined =>
      obtain ⟨s', hrun, hmoves⟩ := (hs.atPath_lost false exfatResolveEntry fun result => result.isOk).1 hplace
      rwa [fsExists, hrun]
    | code rc =>
      obtain ⟨s', hrun, hmoves⟩ := (hs.atPath_lost false exfatResolveEntry fun result => result.isOk).2 rc hplace
      rwa [fsExists, hrun]
  | ok place =>
    obtain ⟨s₁, hmoves, -, -, -, hresult⟩ :=
      hs.atPath_found false exfatResolveEntry (fun result => result.isOk) hplace
    have hlookup : ∃ result, call (exfatResolveEntry place.name) s₁ = .ok result s₁ := by
      rw [call, hmoves.ready.sound.resolve_quiet hmoves.ready.volume_ready]
      cases findSlot s₁.volume.cwd place.name with
      | none => exact ⟨_, rfl⟩
      | some k => exact ⟨_, rfl⟩
    obtain ⟨result, hcall⟩ := hlookup
    obtain ⟨s', hrun, hmoves'⟩ := hresult _ _ hcall hmoves.ready
    rw [fsExists, hrun]
    exact hmoves.trans hmoves'

/-- An entry that is to be removed is the first with its name in a reachable directory. -/
theorem FsState.Ready.fate_removed (hs : s.Ready) (h : s.fate path = .removed place k) :
    findSlot (s.directory place) place.name = some k ∧ 4 ≤ place.cluster := by
  unfold fate at h
  cases hplace : s.place path with
  | error e =>
    rw [hplace] at h
    cases e <;> cases h
  | ok found =>
    obtain ⟨s₁, hmoves, -, hcluster, -, -⟩ :=
      hs.atPath_found false exfatResolveEntry (fun result => result.isOk) hplace
    rw [hplace] at h
    dsimp only at h
    unfold fateAt at h
    cases hfind : findSlot (s.directory found) found.name with
    | none =>
      rw [hfind] at h
      cases h
    | some j =>
      rw [hfind] at h
      dsimp only at h
      split_ifs at h
      obtain ⟨rfl, rfl⟩ := Fate.removed.inj h
      refine ⟨hfind, ?_⟩
      rw [← hcluster]
      exact (hmoves.ready.sound.reach_bounds hmoves.ready.current).1

/-- Removing an entry empties its slot and no other slot of a directory. -/
theorem Removed.node (h : Removed s s' place k) (d : Fin 2) {c : ℕ} (hc : c ≠ 2) (j : ℕ) :
    s'.node d c j =
      if d = place.drive ∧ c = place.cluster ∧ j = k then none else s.node d c j := by
  unfold FsState.node
  by_cases hd : d = place.drive
  · by_cases hcluster : c = place.cluster
    · have hnodes := h.nodes j
      unfold directory at hnodes
      rw [hd, hcluster, hnodes]
      by_cases hj : j = k
      · rw [if_pos hj, if_pos ⟨rfl, rfl, hj⟩]
      · rw [if_neg hj, if_neg fun hall => hj hall.2.2]
    · rw [if_neg fun hall => hcluster hall.2.1, hd, h.keeps.clusterAt]
      rintro (htwo | heq)
      · exact hc htwo
      · exact hcluster heq
  · rw [if_neg fun hall => hd hall.1, h.others d hd]

/-!
## Creating entries on a booted machine

Creating a file or a directory keeps the machine booted, and a machine whose drive has just been
formatted is booted, so files and directories can be laid out on a drive step by step.
-/

open Holds

variable {v : Volume} {before : Bytes} {totalSectors : ℕ}

/-- Creating an entry where the layer works keeps the machine booted. -/
theorem FsState.Ready.call_create (hs : s.Ready) (name : Text) (isDir : Bool) :
    ∃ result s', call (exfatCreateNode name isDir) s = .ok result s' ∧ s'.Ready := by
  unfold call
  rcases hs.sound.create_settles hs.volume_ready with ⟨v', hcreate⟩ | ⟨-, rc, hcreate⟩ | ⟨hfalse, -⟩
  · rw [hcreate]
    refine ⟨_, _, rfl, ?_⟩
    have hready := ((steady.respects_exfatCreateNode name isDir).ok hcreate).ready hs.volume_ready
    obtain ⟨-, k, first, bytes, outcomes, rfl, hplaced⟩ := hs.sound.create_ok hcreate
    obtain rfl : outcomes = [] := hready.quiet
    exact hs.changed hplaced.keeps (hs.sound.create_node hcreate).1
  · rw [hcreate]
    exact ⟨_, _, rfl, hs⟩
  · exact hfalse.elim

/-- Creating an entry at a path keeps the machine booted. -/
theorem FsState.Ready.create (hs : s.Ready) (path : Text) (isDir : Bool) :
    (finalState (atPath path (-1) (fun leaf => exfatCreateNode leaf isDir) returnCode s)).Ready := by
  cases hplace : s.place path with
  | error e =>
    cases e with
    | undefined =>
      obtain ⟨s', hrun, hmoves⟩ := (hs.atPath_lost (-1) (exfatCreateNode · isDir) returnCode).1 hplace
      rw [hrun]
      exact hmoves.ready
    | code rc =>
      obtain ⟨s', hrun, hmoves⟩ := (hs.atPath_lost (-1) (exfatCreateNode · isDir) returnCode).2 rc hplace
      rw [hrun]
      exact hmoves.ready
  | ok place =>
    obtain ⟨s₁, hmoves, -, -, -, hresult⟩ := hs.atPath_found (-1) (exfatCreateNode · isDir) returnCode hplace
    obtain ⟨result, s₂, hcall, hready⟩ := hmoves.ready.call_create place.name isDir
    obtain ⟨s', hrun, hmoves'⟩ := hresult _ _ hcall hready
    rw [hrun]
    exact hmoves'.ready

/-- A drive that has just been formatted holds a sound volume. -/
theorem Holds.of_fresh (hv : v.Fresh before totalSectors) (hready : v.Ready) (hsound : v.Sound) :
    Holds (v.drives v.ataDrive) := by
  obtain ⟨fatLength, hboot⟩ := formatted_boot hv.total
  rw [← hv.contents] at hboot
  have hmost := hv.count ▸ hv.atMost
  have hsmall : formatClusters totalSectors < 2 ^ 32 := hmost.trans_lt (by decide)
  obtain ⟨hname, hshift, hper, hheap, hroot, hclusters⟩ := bootSector_fields hsmall hboot
  have hcount : v.clusterCount = bootCount (v.drives v.ataDrive).bytes := by
    change _ = min (field (sectorAt v.bytes partitionLba) 92 4) _
    rw [hclusters, Nat.min_eq_left hmost, hv.count]
  have hvolume : v = onDrive v.drives v.ataDrive 4 rootPath := by
    change Volume.mk v.drives v.ataDrive v.outcomes v.currentCluster v.currentPath
      v.clusterHeapOffset v.sectorsPerCluster v.rootCluster v.clusterCount = _
    rw [hready.quiet, hv.cluster, hv.path, hv.heapOffset, hv.perCluster, hv.root, hcount, onDrive]
  refine of_sound hv.present ?_ (hvolume ▸ hsound)
  exact ⟨hname, hshift, hper, hheap, hroot⟩

/-- The drives of a machine that has only the first one. -/
def oneDrive (drive : Drive) : Fin 2 → Drive :=
  fun d => if d = 0 then drive else ⟨fun _ => 0, false, 0, fun _ => 0⟩

/-- A machine with one drive, at its root. -/
def oneDriveMachine (drive : Drive) : FsState where
  volume := onDrive (oneDrive drive) 0 4 rootPath
  currentDrive := 0
  driveMounted := fun d => d = 0
  workingDirs := fun _ => rootPath

/-- A machine whose only drive holds a sound volume is booted. -/
theorem oneDriveMachine_ready {drive : Drive} (hdrive : Holds drive) : (oneDriveMachine drive).Ready := by
  refine ⟨rfl, rfl, fun d hd => ?_, fun d hd hpresent => ?_, Forest.Reach.refl, pathString_root,
    fun _ => pathString_root⟩
  · have hzero : oneDrive drive d = drive := if_pos (of_decide_eq_true hd)
    change Holds (oneDrive drive d)
    rwa [hzero]
  · have hother : oneDrive drive d = ⟨fun _ => 0, false, 0, fun _ => 0⟩ := if_neg (of_decide_eq_false hd)
    change (oneDrive drive d).present = true at hpresent
    rw [hother] at hpresent
    cases hpresent

/-- A machine with one zeroed drive that has just been formatted. -/
def freshMachine : FsState := oneDriveMachine (blank.drives blank.ataDrive)

theorem freshMachine_ready : freshMachine.Ready := by
  obtain ⟨hready, totalSectors, hfresh⟩ := blank_fresh
  exact oneDriveMachine_ready (of_fresh hfresh hready blank_sound)

end Windoge.Vfs
