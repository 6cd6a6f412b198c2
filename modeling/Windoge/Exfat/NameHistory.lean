import Windoge.Exfat.Quiet

/-!
# Directories filled by creates and deletes

Histories of `exfat_create_node` and `exfat_delete_node` in the current directory. A change may
succeed in spite of sector failures; one that is refused has met none and leaves the volume as
it was. A delete meets no entry set that continues in another sector, for which the driver leaves
its buffer. What one successful change preserves holds along a whole history.
-/

namespace Windoge.Exfat

open Windoge.Flow

/-- A change to the names of the current directory. -/
inductive NameChange
  | create (name : List UInt8) (isDir : Bool)
  | delete (name : List UInt8)

/-- The name that is created or deleted. -/
def NameChange.name : NameChange → List UInt8
  | .create name _ => name
  | .delete name => name

/-- The driver's function for a change. -/
def NameChange.run : NameChange → Driver Unit
  | .create name isDir => exfatCreateNode name isDir
  | .delete name => exfatDeleteNode name

/-- A delete finds, if anything, an entry set that lies within one sector. -/
def NameChange.InBounds (v : Volume) : NameChange → Prop
  | .create _ _ => True
  | .delete name => v.FitsName name

/-- The volumes that creates and deletes of accepted names lead to, each within the driver's buffer. -/
inductive Filled (accepted : List UInt8 → Prop) (start : Volume) : Volume → Prop
  | start : Filled accepted start start
  | changed {v v' : Volume} (change : NameChange) (outcomes : List SectorOutcome) :
      Filled accepted start v → accepted change.name → change.InBounds v →
      change.run { v with outcomes := outcomes } = .ok () v' → Filled accepted start v'
  | refused {v v' : Volume} (change : NameChange) (rc : ℤ) :
      Filled accepted start v → accepted change.name → change.InBounds v →
      change.run { v with outcomes := [] } = .error (.code rc) v' → Filled accepted start v'

/-- The bytes of a set are the same in two directories. -/
def SameSet (dir dir' : Bytes) (k : ℕ) : Prop :=
  ∀ x, 32 * k ≤ x → x < 32 * (k + secondaryCount dir (32 * k) + 1) → dir x = dir' x

/-- After a set has been placed in free slots the other live sets are those from before. -/
theorem DirOk.live_withSet {dir : Bytes} {name : List UInt8} {isDir : Bool} {first j k : ℕ}
    (hok : DirOk dir) (hname : name ≠ []) (hslot : freeSlot dir (totalEntries name) = some k)
    (hj : Live (withSet dir name isDir first k) j) (hne : j ≠ k) :
    Live dir j ∧ SameSet dir (withSet dir name isDir first k) j := by
  have hbounds := totalEntries_bounds hname
  obtain ⟨hfits, hfree⟩ := freeSlot_some (by omega) hslot
  have hnode := slotNode_place hok hname hfits hfree isDir first j
  rw [if_neg hne, hj.slotNode] at hnode
  have hold := (slotNode_some hnode.symm).1
  exact ⟨hold, withSet_other hok hfree hold⟩

theorem DirOk.live_cleared {dir : Bytes} {j k : ℕ} (hok : DirOk dir) (hk : Live dir k)
    (hj : Live (clearedSector dir (32 * k) (secondaryCount dir (32 * k) + 1)) j) :
    Live dir j ∧ SameSet dir (clearedSector dir (32 * k) (secondaryCount dir (32 * k) + 1)) j := by
  obtain ⟨hold, hout⟩ := cleared_file hj.2
  have hlive : Live dir j := ⟨hj.1, hold⟩
  exact ⟨hlive, cleared_other hok hk hlive (by omega)⟩

variable {accepted : List UInt8 → Prop} {start v v' : Volume} {change : NameChange}
  {outcomes : List SectorOutcome}

/-- A sound volume on a drive that is present. -/
structure Volume.Usable (v : Volume) : Prop extends v.Sound where
  present : (v.drives v.ataDrive).present = true

namespace Volume.Usable

theorem with_outcomes (h : v.Usable) : { v with outcomes := outcomes }.Usable :=
  ⟨h.toSound.with_outcomes, h.present⟩

/-- A change that succeeds leaves the volume usable. -/
theorem changed (h : v.Usable) (hrun : change.run v = .ok () v') : v'.Usable := by
  have hsteady : Steady v v' := by
    cases change with
    | create name isDir => exact (steady.respects_exfatCreateNode name isDir).ok hrun
    | delete name => exact (steady.respects_exfatDeleteNode name).ok hrun
  obtain ⟨bytes, outcomes, rfl, -⟩ := hsteady
  have hpresent : ((v.put bytes outcomes).drives (v.put bytes outcomes).ataDrive).present = true := by
    simpa [Volume.put] using h.present
  cases change with
  | create name isDir => exact ⟨(h.toSound.create_node hrun).1, hpresent⟩
  | delete name => exact ⟨(h.toSound.delete_node hrun).1, hpresent⟩

/-- A change that succeeds places a set in the first gap or clears a live set. -/
theorem cwd_changed (h : v.Usable) (hrun : change.run v = .ok () v') :
    (∃ isDir k first, change.name ≠ [] ∧ freeSlot v.cwd (totalEntries change.name) = some k ∧
      first < 2 ^ 32 ∧ v'.cwd = withSet v.cwd change.name isDir first k) ∨
    ∃ k, Live v.cwd k ∧ v'.cwd = clearedSector v.cwd (32 * k) (secondaryCount v.cwd (32 * k) + 1) := by
  cases change with
  | create name isDir =>
    obtain ⟨hname, k, first, bytes, outcomes, rfl, hplaced⟩ := h.toSound.create_ok hrun
    have hcount := h.count_le
    have hfirst := hplaced.unused.2.1
    refine Or.inl ⟨isDir, k, first, hname, hplaced.slot, by omega, ?_⟩
    exact (v.cwd_put _ _).trans hplaced.dir
  | delete name =>
    obtain ⟨k, bytes, outcomes, hfind, -, rfl, hcleared⟩ := h.toSound.delete_ok hrun
    refine Or.inr ⟨k, (findSlot_some hfind).1, ?_⟩
    exact (v.cwd_put _ _).trans hcleared.dir

theorem refused (h : v.Usable) {rc : ℤ} (hrun : change.run { v with outcomes := [] } = .error (.code rc) v') :
    v' = { v with outcomes := [] } := by
  have hready : { v with outcomes := [] }.Ready := ⟨rfl, h.present⟩
  cases change with
  | create name isDir => exact (h.with_outcomes.toSound.create_settles hready).refused hrun
  | delete name => exact (h.with_outcomes.toSound.delete_settles hready).1.refused hrun

end Volume.Usable

/-- What a successful change preserves, whatever failures are to come, holds along a history. -/
theorem Filled.invariant {P : Volume → Prop} (h : Filled accepted start v)
    (husable : ∀ {v}, P v → v.Usable) (houtcomes : ∀ {v} outcomes, P v → P { v with outcomes := outcomes })
    (hchanged : ∀ {v v' : Volume} {change : NameChange}, P v → accepted change.name →
      change.run v = .ok () v' → P v')
    (hstart : P start) : P v := by
  induction h with
  | start => exact hstart
  | changed change outcomes _ haccepted _ hrun ih => exact hchanged (houtcomes outcomes ih) haccepted hrun
  | refused change rc _ _ _ hrun ih =>
    rw [(husable ih).refused hrun]
    exact houtcomes [] ih

section Examples

/-- A new directory `d` of the blank volume, entered. -/
def emptyDirectory : Volume :=
  finalState ((exfatCreateNode [100] true >>= fun _ => exfatChangeDirectory [100]) blank)

/-- The new directory is a zeroed cluster of a sound volume. -/
theorem emptyDirectory_zeroed :
    emptyDirectory.Sound ∧ emptyDirectory.Ready ∧ emptyDirectory.cwd = fun _ => 0 := by
  obtain ⟨_, hrun⟩ := ok_of_stopReason
    ((exfatCreateNode [100] true >>= fun _ => exfatChangeDirectory [100]) blank) (by decide +kernel)
  obtain ⟨_, w, hcreate, henter⟩ := bind_eq_ok hrun
  have hsound := (blank_sound.create_node hcreate).1
  have hready := ((steady.respects_exfatCreateNode [100] true).ok hcreate).ready blank_ready
  obtain ⟨c, path, hreach, hsame⟩ := hsound.cd_ok henter
  refine ⟨hsame.sound (hsound.move hreach path), ?_, funext fun x => ?_⟩
  · rw [emptyDirectory, hsame.eq hready.quiet]
    exact ⟨hready.quiet, hready.present⟩
  · by_cases hx : x < 4096
    · have hall : ∀ i < 64, ∀ j < 64, emptyDirectory.cwd (64 * i + j) = 0 := by decide +kernel
      rw [← Nat.div_add_mod x 64]
      exact hall (x / 64) (by omega) (x % 64) (Nat.mod_lt _ (by decide))
    · exact clusterAt_of_ge (by omega)

/-- Changes one after the other. -/
def runChanges : List NameChange → Driver Unit
  | [] => pure ()
  | change :: changes => do
    change.run
    runChanges changes

theorem Filled.step (hv : Filled accepted start v) (haccepted : accepted change.name)
    (hbounds : change.InBounds v) (hrun : change.run v = .ok () v') : Filled accepted start v' :=
  hv.changed change v.outcomes haccepted hbounds hrun

/-- Changes that succeed one after the other are a history. -/
theorem filled_of_run (changes : List NameChange) (hv : Filled accepted start v)
    (haccepted : ∀ change ∈ changes, accepted change.name ∧ ∀ w, change.InBounds w)
    (hrun : runChanges changes v = .ok () v') : Filled accepted start v' := by
  induction changes generalizing v with
  | nil =>
    cases hrun
    exact hv
  | cons change changes ih =>
    obtain ⟨_, w, hfirst, hrest⟩ := bind_eq_ok hrun
    obtain ⟨hname, hbounds⟩ := haccepted change List.mem_cons_self
    exact ih (hv.step hname (hbounds v) hfirst) (fun other hmem => haccepted other (List.mem_cons_of_mem change hmem)) hrest

end Examples

end Windoge.Exfat
