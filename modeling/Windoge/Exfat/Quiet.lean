import Windoge.Exfat.FirstFit
import Windoge.Exfat.Mutators
import Windoge.Exfat.Walk

/-!
# The mutators without sector failures

On a sound volume whose drive answers, a mutator has one of three ends: it succeeds, it returns
an error code and has changed nothing, or it is undefined because the entry set it found
continues in another sector and it stores there.
-/

namespace Windoge.Exfat

open Windoge.Flow Forest List

variable {v w : Volume} {name data : List UInt8} {isDir : Bool} {k count : ℕ} {bytes : Bytes}
  {outcomes : List SectorOutcome}

/-- The name is found, and its entry set continues in another sector. -/
def Straddles (v : Volume) (name : List UInt8) : Prop :=
  ∃ k, findSlot v.cwd name = some k ∧ ¬ FitsSector v.cwd k

/-- The name is found, the stream entry of its set lies in another sector than the file entry, and the
set is not spared. -/
def Splits (v : Volume) (name : List UInt8) (spared : ℕ → Prop) : Prop :=
  ∃ k, findSlot v.cwd name = some k ∧ ¬ FitsStream k ∧ ¬ spared k

/-- There is no run of that many unused clusters. -/
def Volume.NoRoom (v : Volume) (count : ℕ) : Prop := ∀ first, ¬ UnusedRun v first count

/-- A write to the file in a slot needs another number of clusters, for which there is no room. -/
def Volume.SparesWrite (v : Volume) (data : List UInt8) (k : ℕ) : Prop :=
  clustersFor data.length ≠ clustersFor (dataLength v.cwd (32 * k)) ∧ v.NoRoom (clustersFor data.length)

/-- An append to the file in a slot stores nothing, or needs more clusters than there is room for. -/
def Volume.SparesAppend (v : Volume) (data : List UInt8) (k : ℕ) : Prop :=
  data = [] ∨
    clustersFor (dataLength v.cwd (32 * k)) < clustersFor (dataLength v.cwd (32 * k) + data.length) ∧
      v.NoRoom (clustersFor (dataLength v.cwd (32 * k) + data.length))

/-- A function succeeds, refuses without a change, or is undefined, the last two under conditions. -/
def Settles (x : Driver Unit) (v : Volume) (refusal condition : Prop) : Prop :=
  (∃ v', x v = .ok () v') ∨ (refusal ∧ ∃ rc, x v = .error (.code rc) v) ∨
    condition ∧ ∃ w, x v = .error .undefined w

section Settles

variable {x : Driver Unit} {refusal condition : Prop} (h : Settles x v refusal condition)
include h

theorem Settles.refused {rc : ℤ} (hx : x v = .error (.code rc) w) : w = v := by
  obtain ⟨w', hok⟩ | ⟨-, code, herror⟩ | ⟨-, w', hundefined⟩ := h
  · rw [hx] at hok
    cases hok
  · rw [hx] at herror
    exact (EStateM.Result.error.inj herror).2
  · rw [hx] at hundefined
    cases hundefined

/-- Outside both conditions the function succeeds. -/
theorem Settles.succeeds (hrefusal : ¬ refusal) (hcondition : ¬ condition) : ∃ v', x v = .ok () v' := by
  obtain hok | ⟨hrefused, -⟩ | ⟨hundefined, -⟩ := h
  · exact hok
  · exact absurd hrefused hrefusal
  · exact absurd hundefined hcondition

theorem Settles.returns (hnot : ¬ condition) : ∃ v', x v = .ok () v' ∨ ∃ rc, x v = .error (.code rc) v' := by
  obtain ⟨v', hok⟩ | ⟨-, rc, herror⟩ | ⟨hcondition, -⟩ := h
  · exact ⟨v', .inl hok⟩
  · exact ⟨v, .inr ⟨rc, herror⟩⟩
  · exact absurd hcondition hnot

end Settles

/-- Copying sectors succeeds. -/
theorem copySectors_quiet (source destination : ℕ) {sectors : List ℕ} (hready : v.Ready)
    (hlimit : ∀ s ∈ sectors, source + s < lbaLimit ∧ destination + s < lbaLimit) :
    ∃ w, copySectors source destination sectors v = .ok () w := by
  induction sectors generalizing v with
  | nil => exact ⟨v, rfl⟩
  | cons s sectors ih =>
    obtain ⟨hsource, hdestination⟩ := hlimit s mem_cons_self
    rw [copySectors, bind_ok (exfatSectorRead_quiet hready.quiet (hready.accepts hsource)),
      bind_ok (exfatSectorWrite_quiet hready.quiet (hready.accepts hdestination))]
    exact ih hready.put (forall_mem_cons.mp hlimit).2

/-- Appending inside a run of clusters succeeds. -/
theorem appendLoop_quiet {lba clusters fuel offset : ℕ} (hready : v.Ready)
    (hlimit : lba + 8 * clusters ≤ lbaLimit) (hend : offset + data.length ≤ 4096 * clusters) :
    ∃ w, appendLoop lba fuel offset data v = .ok () w := by
  induction fuel generalizing v offset data with
  | zero => exact ⟨v, rfl⟩
  | succ fuel ih =>
    by_cases hempty : data = []
    · exact ⟨v, by rw [appendLoop, if_pos hempty]; rfl⟩
    have hlength : data.length ≠ 0 := fun hzero => hempty (length_eq_zero_iff.mp hzero)
    have haccepts : v.Accepts (lba + offset / 512) := hready.accepts (by omega)
    obtain ⟨sector, hsector⟩ : ∃ sector, tailSector lba offset v = .ok sector v := by
      unfold tailSector
      split_ifs
      · exact ⟨_, exfatSectorRead_quiet hready.quiet haccepts⟩
      · exact ⟨_, rfl⟩
    rw [appendLoop, if_neg hempty, bind_ok hsector, bind_ok (exfatSectorWrite_quiet hready.quiet haccepts)]
    apply ih hready.put
    rw [length_drop]
    omega

theorem bufferSectors_accepts {lba first : ℕ} (buffer : Bytes) (hready : v.Ready)
    (hlimit : lba + first + count ≤ lbaLimit) :
    ∀ write ∈ bufferSectors lba buffer first count, v.Accepts write.1 := by
  intro write hwrite
  obtain ⟨s, hs, rfl⟩ := mem_map.mp hwrite
  have hrange := mem_range'_1.mp hs
  exact hready.accepts (by omega : lba + s < lbaLimit)

/-- A file that has got its run was not short of room. -/
theorem NewRun.not_spared {first : ℕ} (h : NewRun v k first count) :
    ¬ (count ≠ clustersFor (dataLength v.cwd (32 * k)) ∧ v.NoRoom count) := by
  rintro ⟨hmoves, hfull⟩
  rw [NewRun, if_neg hmoves] at h
  exact hfull first h

namespace Volume.Sound

/-- Updating the entry ends a mutator that has left the current directory alone so far. -/
theorem finish_quiet (hv : v.Sound) (spared : ℕ → Prop) (hfind : findSlot v.cwd name = some k)
    (hspared : ¬ spared k) (cluster : Option ℕ) (size : ℕ)
    (hready : (v.put bytes outcomes).Ready) (hcwd : clusterAt bytes v.currentCluster = v.cwd) :
    (∃ v', updateEntry (v.target k) cluster size (v.put bytes outcomes) = .ok () v') ∨ Splits v name spared ∧
        ∃ w, updateEntry (v.target k) cluster size (v.put bytes outcomes) = .error .undefined w := by
  have hk := (findSlot_some hfind).1
  have hlimit := hv.lba_lt hv.current (by decide : 7 < 8)
  have hset : SetAt (clusterAt (v.put bytes outcomes).bytes v.currentCluster) k := by
    rw [put_bytes, hcwd]
    exact hv.cwdOk.setAt hk
  obtain ⟨hok, hundefined⟩ := updateEntry_quiet hset
    (rfl : (v.target k).entryLba = 8 * (v.currentCluster + 766) + 32 * k / 512) rfl cluster size hready
    hlimit
  by_cases hfits : FitsStream k
  · exact .inl (hok hfits)
  · exact .inr ⟨⟨k, hfind, hfits, hspared⟩, _, hundefined hfits⟩

variable (hv : v.Sound) (hready : v.Ready)

include hv hready

/-- An allocation fails only if there is no run. -/
theorem noRoom_of_alloc (hcount : 0 < count) (h : exfatAllocBlocks count v = .ok 0 w) : v.NoRoom count := by
  have hrun := exfatAllocBlocks_find hready hv.count_le hcount
  intro first hunused
  obtain ⟨hlow, hend, hfresh⟩ := hunused
  cases hfind : FirstFit.find v.bits v.clusterCount count with
  | some start =>
    rw [hfind, h] at hrun
    cases hrun
  | none =>
    refine (FirstFit.find_eq_none_iff hcount).mp hfind (first - 2) ⟨by omega, fun j hj hj' => ?_⟩
    by_contra hbit
    have hmem : j + 2 ∈ clusterRun first count := ⟨by omega, by omega⟩
    exact Set.disjoint_left.mp hfresh hmem ⟨by omega, by omega, Bool.not_eq_false _ ▸ hbit⟩

/-- Choosing the clusters of a rewritten file succeeds, or fails without a change for lack of room. -/
theorem writeClusters_quiet (target : Target) (hcount : 0 < count) :
    (∃ first w, writeClusters target count v = .ok first w) ∨ (count ≠ clustersFor target.size ∧ v.NoRoom count) ∧
      writeClusters target count v = .error (.code (-1)) v := by
  unfold writeClusters
  split_ifs with hmoves
  · obtain ⟨allocated, w, halloc, -, hsame⟩ := exfatAllocBlocks_quiet hready hv.toFormatted count
    rw [bind_ok halloc]
    split_ifs with hzero
    · rw [hzero] at halloc
      rw [hsame hzero]
      exact .inr ⟨⟨hmoves, hv.noRoom_of_alloc hready hcount halloc⟩, rfl⟩
    obtain ⟨freed, outcomes, -, hfree⟩ := exfatFreeBlocks_ok target.cluster (clustersFor target.size) w
    rw [bind_ok hfree]
    exact .inl ⟨_, _, rfl⟩
  · exact .inl ⟨_, _, rfl⟩

/-- Choosing the clusters of a growing file succeeds, or fails without a change for lack of room. -/
theorem appendClusters_quiet (hk : Live v.cwd k) (hcount : clustersFor (dataLength v.cwd (32 * k)) ≤ count) :
    (∃ first w, appendClusters (v.target k) count v = .ok first w) ∨
      (clustersFor (dataLength v.cwd (32 * k)) < count ∧ v.NoRoom count) ∧
        appendClusters (v.target k) count v = .error (.code (-1)) v := by
  unfold appendClusters
  split_ifs with hmoves
  · obtain ⟨allocated, w, halloc, hready', hsame⟩ := exfatAllocBlocks_quiet hready hv.toFormatted count
    rw [bind_ok halloc]
    split_ifs with hzero
    · rw [hzero] at halloc
      rw [hsame hzero]
      exact .inr ⟨⟨hmoves, hv.noRoom_of_alloc hready (Nat.zero_lt_of_lt hmoves) halloc⟩, rfl⟩
    obtain ⟨hlow, hend, -, bytes₁, outcomes₁, rfl, -⟩ := alloc_ok hv.toFormatted halloc hzero
    have hmost := hv.count_le
    have hlimit : lbaLimit = 2 ^ 48 := rfl
    have hold := (hv.run_current hk).2
    have hsectors : sectorsFor (v.target k).size ≤ 8 * clustersFor (dataLength v.cwd (32 * k)) :=
      sectorsFor_le (hv.sizeOk _ k hv.current hk).1
    have hsource : exfatClusterLba (v.put bytes₁ outcomes₁) (v.target k).cluster =
        8 * (firstCluster v.cwd (32 * k) + 766) := hv.targetLba hk
    have hdestination : exfatClusterLba (v.put bytes₁ outcomes₁) allocated = 8 * (allocated + 766) :=
      hv.runLba hlow hend
    rw [get_bind, hsource, hdestination]
    have hsmall (s : ℕ) (hs : s ∈ range (sectorsFor (v.target k).size)) :
        8 * (firstCluster v.cwd (32 * k) + 766) + s < lbaLimit ∧ 8 * (allocated + 766) + s < lbaLimit := by
      have hlt := mem_range.mp hs
      omega
    obtain ⟨w, hcopy⟩ := copySectors_quiet _ _ hready' hsmall
    obtain ⟨freed, outcomes, -, hfree⟩ :=
      exfatFreeBlocks_ok (v.target k).cluster (clustersFor (v.target k).size) w
    rw [bind_ok hcopy, bind_ok hfree]
    exact .inl ⟨_, _, rfl⟩
  · exact .inl ⟨_, _, rfl⟩

/-- A function that looks a name up settles if what it does with a live entry does. -/
theorem resolve_settles {f : Target → Driver Unit} {refusal : ℕ → Prop} {condition : Prop}
    (h : ∀ k, findSlot v.cwd name = some k → Live v.cwd k → Settles (f (v.target k)) v (refusal k) condition) :
    Settles (exfatResolveEntry name >>= f) v (∀ k, findSlot v.cwd name = some k → refusal k) condition := by
  have hresolve := hv.resolve_quiet hready name
  cases hfind : findSlot v.cwd name with
  | none =>
    rw [hfind] at hresolve
    refine .inr (.inl ⟨fun k hk => ?_, -1, bind_error hresolve⟩)
    cases hk
  | some k =>
    rw [hfind] at hresolve
    have hsettles := h k hfind (findSlot_some hfind).1
    unfold Settles at hsettles ⊢
    rw [bind_ok hresolve]
    refine hsettles.imp_right (Or.imp_left (And.imp_left fun hrefusal i hi => ?_))
    rwa [← Option.some.inj hi]

/-- The three ends of a write. -/
theorem write_settles (hdata : data.length < 2 ^ 43) : Settles (exfatWriteFile name data) v
    (∀ k, findSlot v.cwd name = some k → v.SparesWrite data k) (Splits v name (v.SparesWrite data)) := by
  have hmost := hv.count_le
  have hlimit : lbaLimit = 2 ^ 48 := rfl
  refine hv.resolve_settles hready fun k hfind hk => ?_
  have hcount := clustersFor_pos (by omega : data.length + 4095 < 2 ^ 44)
  unfold Settles
  rcases hv.writeClusters_quiet hready (v.target k) hcount with ⟨first, w, hclusters⟩ | ⟨hfull, herror⟩
  · obtain ⟨hrun, bytes, outcomes, rfl, hkeep, -⟩ := writeClusters_ok hv hk hclusters
    obtain ⟨hlow, hend, -, haway⟩ := hv.newRun_bounds hk hrun
    have hready' := ((steady.respects_writeClusters _ _).ok hclusters).ready hready
    have hsectors := sectorsFor_le (by omega : data.length + 4095 < 2 ^ 44)
    have hlba : exfatClusterLba (v.put bytes outcomes) first = 8 * (first + 766) := hv.runLba hlow hend
    have hwrites := writeAll_quiet _ hready'.quiet (bufferSectors_accepts (dataBuffer data) hready'
      (by omega : 8 * (first + 766) + 0 + sectorsFor data.length ≤ lbaLimit))
    have hkeep' := keepsOutside_bufferSectors bytes (dataBuffer data)
      (rfl : 8 * (first + 766) = 8 * (first + 766))
      (by omega : 0 + sectorsFor data.length ≤ 8 * clustersFor data.length)
    have hcwd := (hkeep'.clusterAt haway).trans (hkeep.clusterAt (hv.reach_ne_two hv.current))
    rw [bind_ok hclusters, get_bind, hlba, bind_ok hwrites, put_bytes, put_put]
    exact (hv.finish_quiet _ hfind hrun.not_spared (some first) data.length hready.put hcwd).imp_right .inr
  · exact .inr (.inl ⟨hfull, -1, bind_error herror⟩)

/-- The three ends of an append. -/
theorem append_settles (hdata : data.length < 2 ^ 43) : Settles (exfatAppendFile name data) v
    (∀ k, findSlot v.cwd name = some k → v.SparesAppend data k) (Splits v name (v.SparesAppend data)) := by
  have hmost := hv.count_le
  have hlimit : lbaLimit = 2 ^ 48 := rfl
  refine hv.resolve_settles hready fun k hfind hk => ?_
  unfold Settles
  split_ifs with hempty
  · exact .inl ⟨v, rfl⟩
  obtain ⟨htotal, hexpr, hnew, hgrow⟩ := hv.append_size hk hdata hempty
  rw [htotal]
  dsimp only
  rw [hexpr]
  rcases hv.appendClusters_quiet hready hk hgrow with ⟨first, w, hclusters⟩ | ⟨hfull, herror⟩
  · obtain ⟨hrun, bytes, outcomes, rfl, hkeep, -⟩ := appendClusters_ok hv hk hgrow hclusters
    obtain ⟨hlow, hend, -, haway⟩ := hv.newRun_bounds hk hrun
    have hready' := ((steady.respects_appendClusters _ _).ok hclusters).ready hready
    have hlba : exfatClusterLba (v.put bytes outcomes) first = 8 * (first + 766) := hv.runLba hlow hend
    obtain ⟨w, hloop⟩ : ∃ w, appendLoop (8 * (first + 766)) data.length (v.target k).size data
        (v.put bytes outcomes) = .ok () w := appendLoop_quiet hready'
      (by omega : 8 * (first + 766) + 8 * clustersFor (dataLength v.cwd (32 * k) + data.length) ≤
        lbaLimit) (le_clustersFor hnew)
    have hready'' := ((steady.respects_appendLoop _ _ _).ok hloop).ready hready'
    obtain ⟨bytes', outcomes', rfl, hkeep'⟩ := appendLoop_ok (le_clustersFor hnew) hloop
    rw [put_bytes] at hkeep'
    rw [put_put] at hloop hready''
    have hcwd := (hkeep'.clusterAt haway).trans
      (hkeep.clusterAt fun hmem => hmem.elim (hv.reach_ne_two hv.current) haway)
    rw [bind_ok hclusters, get_bind, hlba, bind_ok hloop]
    have hspared : ¬ v.SparesAppend data k := fun hspared =>
      hspared.elim hempty fun hfull => hrun.not_spared ⟨hfull.1.ne', hfull.2⟩
    exact (hv.finish_quiet _ hfind hspared (some first) (dataLength v.cwd (32 * k) + data.length)
      hready'' hcwd).imp_right .inr
  · exact .inr (.inl ⟨.inr hfull, -1, bind_error herror⟩)

/-- The three ends of a truncation. -/
theorem truncate_settles : Settles (exfatTruncateLastLine name) v
    (∀ k, findSlot v.cwd name = some k → dataLength v.cwd (32 * k) = 0)
    (Splits v name fun k => dataLength v.cwd (32 * k) = 0) := by
  have hmost := hv.count_le
  have hlimit : lbaLimit = 2 ^ 48 := rfl
  refine hv.resolve_settles hready fun k hfind hk => ?_
  have hsmall := hv.size_le hk
  unfold Settles
  split_ifs with hempty
  · exact .inr (.inl ⟨hempty, -1, rfl⟩)
  have hend := (hv.run_current hk).2
  have hsector : exfatClusterLba v (v.target k).cluster + ((v.target k).size - 1) / 512 < lbaLimit := by
    have hlba : exfatClusterLba v (v.target k).cluster =
        8 * (firstCluster v.cwd (32 * k) + 766) := hv.targetLba hk
    have hsize : (v.target k).size = dataLength v.cwd (32 * k) := rfl
    omega
  rw [get_bind, bind_ok (exfatSectorRead_quiet hready.quiet (hready.accepts hsector))]
  have hfinish (size : ℕ) := hv.finish_quiet (fun k => dataLength v.cwd (32 * k) = 0) hfind hempty none size
    hready.put
    (rfl : clusterAt v.bytes v.currentCluster = v.cwd)
  rw [hready.put_bytes] at hfinish
  exact (hfinish _).imp_right .inr

/-- Deleting a name that is found clears an entry set in one sector and is undefined for another. -/
theorem delete_quiet (hfind : findSlot v.cwd name = some k) :
    (FitsSector v.cwd k → ∃ w, exfatDeleteNode name v = .ok () w) ∧
      (¬ FitsSector v.cwd k → ∃ w, exfatDeleteNode name v = .error .undefined w) := by
  have hresolve := hv.resolve_quiet hready name
  have hk := (findSlot_some hfind).1
  have hlimit := hv.lba_lt hv.current (by decide : 7 < 8)
  rw [hfind] at hresolve
  obtain ⟨bytes, outcomes, hfree, hkeep, -⟩ := free_old hv hk v.bytes v.outcomes
  rw [v.put_self] at hfree
  have hready' := ((steady.respects_exfatFreeBlocks _ _).ok hfree).ready hready
  have hcwd : clusterAt (v.put bytes outcomes).bytes v.currentCluster = v.cwd := by
    rw [put_bytes]
    exact hkeep.clusterAt (hv.reach_ne_two hv.current)
  obtain ⟨hok, hundefined⟩ := clearEntry_quiet (hcwd ▸ hv.cwdOk.setAt hk)
    (rfl : (v.target k).entryLba = 8 * (v.currentCluster + 766) + 32 * k / 512) rfl hready' hlimit
  rw [hcwd] at hok hundefined
  rw [exfatDeleteNode, bind_ok hresolve, bind_ok hfree]
  exact ⟨hok, fun hnot => ⟨_, hundefined hnot⟩⟩

theorem delete_missing (hfind : findSlot v.cwd name = none) : exfatDeleteNode name v = .error (.code (-1)) v := by
  have hresolve := hv.resolve_quiet hready name
  rw [hfind] at hresolve
  exact bind_error hresolve

/-- The ends of a delete: an entry set in one sector is cleared, another is undefined. -/
theorem delete_settles :
    Settles (exfatDeleteNode name) v (findSlot v.cwd name = none) (Straddles v name) ∧
      (Straddles v name → ∃ w, exfatDeleteNode name v = .error .undefined w) := by
  refine ⟨?_, fun ⟨k, hfind, hnot⟩ => (hv.delete_quiet hready hfind).2 hnot⟩
  cases hfind : findSlot v.cwd name with
  | none => exact .inr (.inl ⟨rfl, -1, hv.delete_missing hready hfind⟩)
  | some k =>
    by_cases hfits : FitsSector v.cwd k
    · exact .inl ((hv.delete_quiet hready hfind).1 hfits)
    · exact .inr (.inr ⟨⟨k, hfind, hfits⟩, (hv.delete_quiet hready hfind).2 hfits⟩)

/-- A create succeeds or fails without a change. -/
theorem create_settles : Settles (exfatCreateNode name isDir) v True False := by
  have hmost := hv.count_le
  have hlimit : lbaLimit = 2 ^ 48 := rfl
  have hbounds := hv.reach_bounds hv.current
  unfold Settles exfatCreateNode
  split_ifs with hname
  · exact .inr (.inl ⟨trivial, -1, rfl⟩)
  have htotal := totalEntries_bounds hname
  have hread := readSectors_quiet hready.quiet fun s (hs : s < 8) => hready.accepts (hv.lba_lt hv.current hs)
  have hbuffer : window v.bytes (512 * (8 * (v.currentCluster + 766))) (512 * 8) = v.cwd := by
    rw [← hv.directory, Volume.directory, hv.clusterLba hv.current]
  rw [hbuffer] at hread
  rw [get_bind, hv.clusterLba hv.current, bind_ok hread]
  cases hslot : freeSlot v.cwd (totalEntries name) with
  | none => exact .inr (.inl ⟨trivial, -1, rfl⟩)
  | some k =>
    obtain ⟨hfits, -⟩ := freeSlot_some (htotal.2.trans (by decide)) hslot
    obtain ⟨first, w, halloc, hready', hsame⟩ := exfatAllocBlocks_quiet hready hv.toFormatted 1
    have halloc' : exfatAllocBlock v = .ok first w := halloc
    dsimp only
    rw [bind_ok halloc']
    split_ifs with hzero
    · rw [hsame hzero]
      exact .inr (.inl ⟨trivial, -1, rfl⟩)
    obtain ⟨hlow, hend, -⟩ := alloc_ok hv.toFormatted halloc hzero
    have hlba := hv.runLba hlow hend
    obtain ⟨w', hdirectory⟩ : ∃ w', zeroDirectory (8 * (first + 766)) isDir w = .ok () w' := by
      cases isDir with
      | false => exact ⟨w, rfl⟩
      | true =>
        exact ⟨_, writeAll_quiet _ hready'.quiet (bufferSectors_accepts _ hready'
          (by omega : 8 * (first + 766) + 0 + 8 ≤ lbaLimit))⟩
    have hready'' := ((steady.respects_zeroDirectory isDir).ok hdirectory).ready hready'
    rw [hlba, bind_ok hdirectory]
    exact .inl ⟨_, writeAll_quiet _ hready''.quiet (bufferSectors_accepts _ hready'' (by omega))⟩

end Volume.Sound

/-!
## Histories of a volume

A volume that has just been formatted and mounted, with a root directory that was zeroed
before, is sound and nothing leaks. From there on the driver's operations follow one another,
each with sector outcomes of its own; the volume stays sound as long as files, not directories,
are written to, and operations that fail have not met a sector failure.
-/

open BitArray

variable {v' : Volume} {before bytes : Bytes} {totalSectors c d k : ℕ} {name : List UInt8}

/-- The drive's root directory is zero where the formatter does not write. -/
def RootZeroed (before : Bytes) : Prop := ∀ x, 512 ≤ x → x < 4096 → clusterAt before 4 x = 0

/-- The first bits of the formatter's bitmap mark the system clusters. -/
theorem formatted_bitmap (htotal : totalSectors ≤ maxTotalSectors) {i : ℕ}
    (hi : i < formatClusters totalSectors) :
    bitAt (formatted bytes totalSectors) (4096 * 6144 + i) = decide (i < 3) := by
  have hcount : formatClusters totalSectors ≤ 32768 := by
    rw [formatClusters]
    rw [maxTotalSectors, maxBitmapClusters] at htotal
    omega
  have hmem : (6144 + i / 4096, bitmapSector (i / 4096)) ∈ formatWrites totalSectors := by
    refine mem_append_left _ (mem_append_right _ (mem_map.mpr ⟨i / 4096, ?_, rfl⟩))
    rw [mem_range]
    omega
  have hsame (write : ℕ × Bytes) (hwrite : write ∈ formatWrites totalSectors)
      (hlba : write.1 = 6144 + i / 4096) : write.2 = bitmapSector (i / 4096) := by
    rw [formatWrites, mem_append, mem_append] at hwrite
    rcases hwrite with (hboot | hbitmap) | hlast
    · have hsmall := bootWrites_lba hboot
      omega
    · obtain ⟨j, -, rfl⟩ := mem_map.mp hbitmap
      have hj : j = i / 4096 := by
        rw [partitionLba] at hlba
        omega
      rw [hj]
    · rw [partitionLba] at hlast
      rcases mem_pair.mp hlast with rfl | rfl <;> dsimp only at hlba <;> omega
  have hbyte : formatted bytes totalSectors ((4096 * 6144 + i) / 8) =
      bitmapSector (i / 4096) ((4096 * 6144 + i) / 8 % 512) :=
    putSectors_mem (by omega) hmem hsame
  rw [bitAt, hbyte]
  by_cases hfirst : i < 8
  · have hsector : i / 4096 = 0 := by omega
    have hindex : (4096 * 6144 + i) / 8 % 512 = 0 := by omega
    have hbit : (4096 * 6144 + i) % 8 = i := by omega
    clear hbyte hsame hmem hi hsector hindex hbit
    interval_cases i <;> decide
  · have hzero : bitmapSector (i / 4096) ((4096 * 6144 + i) / 8 % 512) = 0 := by
      unfold bitmapSector
      split_ifs
      · change putField (fun _ => 0) 0 1 0x07 ((4096 * 6144 + i) / 8 % 512) = 0
        exact putField_of_not_mem (by omega)
      · rfl
    rw [hzero, decide_eq_false (by omega)]
    exact BitVec.getLsbD_zero

namespace Volume.Fresh

variable (hv : v.Fresh before totalSectors) (hroot : RootZeroed before)
include hv

/-- The bitmap of a fresh volume marks the system clusters. -/
theorem usedSet : v.usedSet = systemClusters := by
  have hleast := hv.atLeast
  ext c
  change 2 ≤ c ∧ c < v.clusterCount + 2 ∧ v.used c = true ↔ 2 ≤ c ∧ c ≤ 4
  have hused (hc : c < v.clusterCount + 2) (hlow : 2 ≤ c) : v.used c = decide (c - 2 < 3) := by
    rw [Volume.used, hv.toFormatted.bitmapLba, hv.contents, formatted_bitmap hv.total]
    rw [← hv.count]
    omega
  constructor
  · rintro ⟨hlow, hhigh, hbit⟩
    rw [hused hhigh hlow, decide_eq_true_eq] at hbit
    omega
  · rintro ⟨hlow, hhigh⟩
    refine ⟨hlow, by omega, ?_⟩
    rw [hused (by omega) hlow, decide_eq_true_eq]
    omega

include hroot

theorem no_file (hk : k < 128) : clusterAt v.bytes 4 (32 * k) ≠ typeFile := by
  rw [hv.contents, formatted_root hv.total (by omega)]
  split_ifs
  · exact rootSector_no_file _ (by omega)
  · rw [hroot (32 * k) (by omega) (by omega)]
    exact zero_ne_typeFile

theorem view_root : v.view 4 k = none := by
  apply if_neg
  rintro ⟨hk, hfile⟩
  exact hv.no_file hroot (by omega) hfile

theorem reach (hd : v.Reach d) : d = 4 := by
  rcases Relation.ReflTransGen.cases_head hd with rfl | ⟨c, ⟨k, n, hslot, -⟩, -⟩
  · rfl
  · rw [hv.view_root hroot] at hslot
    cases hslot

theorem not_owns {e : ℕ × ℕ} : ¬ Owns v.view 4 e c := by
  rintro ⟨hreach, n, hslot, -⟩
  rw [hv.reach hroot hreach, hv.view_root hroot] at hslot
  cases hslot

/-- A fresh volume is sound. -/
theorem sound : v.Sound where
  toFormatted := hv.toFormatted
  separated := {
    root_system := ⟨by decide, le_rfl⟩
    system_used := hv.usedSet.ge
    owned_used := fun howns => absurd howns (hv.not_owns hroot)
    owned_system := fun howns => absurd howns (hv.not_owns hroot)
    owner_unique := fun howns => absurd howns (hv.not_owns hroot)
    first_mem := fun hreach hslot => by
      rw [hv.reach hroot hreach, hv.view_root hroot] at hslot
      cases hslot }
  dirOk d hd k hk hfile := by
    rw [hv.reach hroot hd] at hfile
    exact absurd hfile (hv.no_file hroot hk)
  sizeOk d k hd hlive := by
    rw [hv.reach hroot hd] at hlive
    have hk := hlive.1
    exact absurd hlive.2 (hv.no_file hroot (by omega))
  current := by
    rw [hv.cluster]
    exact Forest.Reach.refl

omit hroot in
theorem noLeak : v.NoLeak := fun _ hc => Or.inl (hv.usedSet ▸ hc)

end Volume.Fresh

/-! ## A blank volume, from which runs of the driver can be evaluated -/

/-- The volume after a zeroed drive has been formatted and mounted. -/
def blank : Volume := finalState ((exfatWipeAndFormat >>= fun _ => exfatMount) (powerOn fun _ => 0))

theorem blank_fresh : blank.Ready ∧ ∃ totalSectors, blank.Fresh (fun _ => 0) totalSectors := by
  obtain ⟨v₁, v₂, totalSectors, hformat, hmount, hquiet, hfresh⟩ :=
    format_mount_quiet (v := powerOn fun _ => 0) rfl rfl (by decide)
  have hrun : blank = v₂ := by rw [blank, bind_ok hformat, hmount, finalState]
  rw [hrun]
  exact ⟨⟨hquiet, hfresh.present⟩, totalSectors, hfresh⟩

theorem blank_ready : blank.Ready := blank_fresh.1

theorem rootZeroed_zero : RootZeroed fun _ => 0 := by
  intro x _ hx
  rw [clusterAt, window, if_pos hx]

theorem blank_sound : blank.Sound := by
  obtain ⟨-, totalSectors, hfresh⟩ := blank_fresh
  exact hfresh.sound rootZeroed_zero

/-!
## Every used cluster has one owner

Histories of `exfat_create_node`, `exfat_write_file`, `exfat_append_file`,
`exfat_truncate_last_line`, `exfat_delete_node` and directory changes on a volume that has just
been formatted, without sector failures. The bitmap marks exactly the system clusters and the
clusters of the live entries as long as no step writes to a directory, truncates a file so far
that a cluster becomes spare, deletes a directory that has entries, or leaves one of the driver's
buffers. Every step within these bounds returns, so the histories lose none.
-/

/-- A function of the driver that changes a volume or moves in it. -/
inductive VolumeOp
  | create (name : List UInt8) (isDir : Bool)
  | write (name data : List UInt8)
  | append (name data : List UInt8)
  | truncate (name : List UInt8)
  | delete (name : List UInt8)
  | changeDirectory (path : List UInt8)

/-- The driver's function for an operation. -/
def VolumeOp.run : VolumeOp → Driver Unit
  | .create name isDir => exfatCreateNode name isDir
  | .write name data => exfatWriteFile name data
  | .append name data => exfatAppendFile name data
  | .truncate name => exfatTruncateLastLine name
  | .delete name => exfatDeleteNode name
  | .changeDirectory path => exfatChangeDirectory path

/-- If the current directory has the name, a file has it. -/
def Volume.NamesFile (v : Volume) (name : List UInt8) : Prop :=
  ∀ k, findSlot v.cwd name = some k → isDirectory v.cwd (32 * k) = false

/-- What an operation may meet: it writes to files, truncates within a cluster and deletes
directories only if they are empty. -/
def VolumeOp.Careful (v : Volume) : VolumeOp → Prop
  | .create _ _ => True
  | .write name data => data.length < 2 ^ 43 ∧ v.NamesFile name
  | .append name data => data.length < 2 ^ 43 ∧ v.NamesFile name
  | .truncate name => v.NamesFile name ∧ ∀ k, findSlot v.cwd name = some k →
      clustersFor (v.truncatedLength k) = clustersFor (dataLength v.cwd (32 * k))
  | .delete name => ∀ k, findSlot v.cwd name = some k → isDirectory v.cwd (32 * k) = true →
      ∀ j, ¬ Live (clusterAt v.bytes (firstCluster v.cwd (32 * k))) j
  | .changeDirectory _ => True

/-- The operation writes to files and truncates files only. -/
def VolumeOp.OnFiles (v : Volume) : VolumeOp → Prop
  | .write name data | .append name data => data.length < 2 ^ 43 ∧ v.NamesFile name
  | .truncate name => v.NamesFile name
  | .create _ _ | .delete _ | .changeDirectory _ => True

/-- If the current directory has the name, its entry set lies within one sector. -/
def Volume.FitsName (v : Volume) (name : List UInt8) : Prop :=
  ∀ k, findSlot v.cwd name = some k → FitsSector v.cwd k

/-- The operation stays within the driver's buffers: it edits entry sets that lie within the sector
buffer and changes the directory by a path for which there is room. -/
def VolumeOp.InBounds (v : Volume) : VolumeOp → Prop
  | .create _ _ => True
  | .write name _ | .append name _ | .truncate name | .delete name => v.FitsName name
  | .changeDirectory path => FitsFrom v.currentPath path

/-- The operation returns, with or without success. -/
def VolumeOp.Returns (op : VolumeOp) (v v' : Volume) : Prop :=
  op.run v = .ok () v' ∨ ∃ rc, op.run v = .error (.code rc) v'

/-- The volumes that operations lead to, each within a condition on the volume it meets. -/
inductive Reached (condition : Volume → VolumeOp → Prop) (start : Volume) : Volume → Prop
  | start : Reached condition start start
  | step {v v' : Volume} (op : VolumeOp) : Reached condition start v → condition v op →
      op.Returns v v' → Reached condition start v'

/-- The entry in slot `k` of the reachable directory `d` has the cluster in its run. -/
def Volume.HasCluster (v : Volume) (d k c : ℕ) : Prop :=
  v.Reach d ∧ Live (clusterAt v.bytes d) k ∧ firstCluster (clusterAt v.bytes d) (32 * k) ≤ c ∧
    c < firstCluster (clusterAt v.bytes d) (32 * k) +
      max 1 ((dataLength (clusterAt v.bytes d) (32 * k) + 4095) / 4096)

/-- A cluster is marked in the bitmap exactly if it is a system cluster or belongs to one live
entry, and different live entries share no cluster. -/
def Volume.Accounted (v : Volume) : Prop :=
  (∀ c, 2 ≤ c → c < v.clusterCount + 2 →
    (v.used c = true ↔ c ≤ 4 ∨ ∃! e : ℕ × ℕ, v.HasCluster e.1 e.2 c)) ∧
  ∀ d k d' k' c, v.HasCluster d k c → v.HasCluster d' k' c → d = d' ∧ k = k'

variable {start : Volume} {op : VolumeOp} {c d k : ℕ}

theorem clustersFor_eq {size : ℕ} (hsize : size + 4095 < 2 ^ 44) :
    clustersFor size = max 1 ((size + 4095) / 4096) := by
  unfold clustersFor
  split_ifs <;> omega

/-- Having a cluster is owning it in the directory forest. -/
theorem Volume.Sound.hasCluster_iff (hv : v.Sound) : v.HasCluster d k c ↔ Owns v.view 4 (d, k) c := by
  constructor
  · rintro ⟨hd, hk, hlow, hhigh⟩
    rw [← clustersFor_eq (hv.sizeOk d k hd hk).1] at hhigh
    exact hk.owns hd ⟨hlow, hhigh⟩
  · rintro ⟨hd, n, hslot, hc⟩
    obtain ⟨hk, rfl⟩ := slotNode_some hslot
    have hrun : c ∈ clusterRun _ _ := hc
    rw [clustersFor_eq (hv.sizeOk d k hd hk).1] at hrun
    exact ⟨hd, hk, hrun.1, hrun.2⟩

/-- On a sound volume without leaks every cluster is accounted for. -/
theorem Volume.Sound.accounted (hv : v.Sound) (hleak : v.NoLeak) : v.Accounted := by
  have hunique (d k d' k' c : ℕ) (h : v.HasCluster d k c) (h' : v.HasCluster d' k' c) : d = d' ∧ k = k' :=
    Prod.mk.inj (hv.separated.owner_unique (hv.hasCluster_iff.mp h) (hv.hasCluster_iff.mp h'))
  refine ⟨fun c hlow hhigh => ⟨fun hused => ?_, ?_⟩, hunique⟩
  · rcases hleak c ⟨hlow, hhigh, hused⟩ with hsystem | ⟨e, howns⟩
    · exact .inl hsystem.2
    · refine .inr ⟨e, hv.hasCluster_iff.mpr howns, fun e' he' => ?_⟩
      exact Prod.ext_iff.mpr (hunique _ _ _ _ c he' (hv.hasCluster_iff.mpr howns))
  · rintro (hsystem | ⟨e, he, -⟩)
    · exact (hv.separated.system_used ⟨hlow, hsystem⟩).2.2
    · exact (hv.separated.owned_used (hv.hasCluster_iff.mp he)).2.2

theorem VolumeOp.Careful.onFiles (h : op.Careful v) : op.OnFiles v := by
  cases op with
  | create | delete | changeDirectory => trivial
  | write | append => exact h
  | truncate => exact h.1

/-- An operation that fails leaves the volume as it was. -/
theorem Volume.Sound.refused (hv : v.Sound) (hready : v.Ready) (hfiles : op.OnFiles v) {rc : ℤ}
    (hrun : op.run v = .error (.code rc) v') : v' = v := by
  cases op with
  | create name isDir => exact (hv.create_settles hready).refused hrun
  | write name data => exact (hv.write_settles hready hfiles.1).refused hrun
  | append name data => exact (hv.append_settles hready hfiles.1).refused hrun
  | truncate name => exact (hv.truncate_settles hready).refused hrun
  | delete name => exact (hv.delete_settles hready).1.refused hrun
  | changeDirectory path => exact (cd_error hrun).eq hready.quiet

/-- An operation that succeeds keeps the volume sound and its drive ready. -/
theorem Volume.Sound.done (hv : v.Sound) (hready : v.Ready) (hfiles : op.OnFiles v)
    (hrun : op.run v = .ok () v') : v'.Sound ∧ v'.Ready := by
  cases op with
  | create name isDir =>
    exact ⟨(hv.create_node hrun).1, ((steady.respects_exfatCreateNode _ _).ok hrun).ready hready⟩
  | write name data =>
    exact ⟨(hv.write hfiles.1 hfiles.2 hrun).1, ((steady.respects_exfatWriteFile _ _).ok hrun).ready hready⟩
  | append name data =>
    exact ⟨(hv.append hfiles.1 hfiles.2 hrun).1, ((steady.respects_exfatAppendFile _ _).ok hrun).ready hready⟩
  | truncate name =>
    exact ⟨(hv.truncate hfiles hrun).1, ((steady.respects_exfatTruncateLastLine _).ok hrun).ready hready⟩
  | delete name => exact ⟨(hv.delete_node hrun).1, ((steady.respects_exfatDeleteNode _).ok hrun).ready hready⟩
  | changeDirectory path =>
    obtain ⟨c, path', hreach, hsame⟩ := hv.cd_ok hrun
    rw [hsame.eq hready.quiet]
    exact ⟨hv.move hreach path', ⟨hready.quiet, hready.present⟩⟩

theorem Volume.FitsName.not_straddles {name : List UInt8} (h : v.FitsName name) : ¬ Straddles v name := by
  rintro ⟨k, hfind, hnot⟩
  exact hnot (h k hfind)

theorem Splits.straddles {name : List UInt8} {spared : ℕ → Prop} (hv : v.Sound) (h : Splits v name spared) :
    ∃ k, findSlot v.cwd name = some k ∧ ¬ FitsSector v.cwd k ∧ ¬ spared k := by
  obtain ⟨k, hfind, hnot, hspared⟩ := h
  refine ⟨k, hfind, fun hfits => hnot ?_, hspared⟩
  have hcount := (hv.cwdOk.setAt (findSlot_some hfind).1).count
  rw [FitsSector] at hfits
  rw [FitsStream]
  omega

theorem Volume.FitsName.not_splits {name : List UInt8} {spared : ℕ → Prop} (hv : v.Sound)
    (h : v.FitsName name) : ¬ Splits v name spared := by
  intro hsplits
  obtain ⟨k, hfind, hnot, -⟩ := hsplits.straddles hv
  exact hnot (h k hfind)

/-- An operation within the driver's buffers returns. -/
theorem Volume.Sound.returns (hv : v.Sound) (hready : v.Ready) (hfiles : op.OnFiles v)
    (hbounds : op.InBounds v) : ∃ v', op.Returns v v' := by
  cases op with
  | create name isDir => exact (hv.create_settles hready).returns id
  | write name data => exact (hv.write_settles hready hfiles.1).returns (hbounds.not_splits hv)
  | append name data => exact (hv.append_settles hready hfiles.1).returns (hbounds.not_splits hv)
  | truncate name => exact (hv.truncate_settles hready).returns (hbounds.not_splits hv)
  | delete name => exact (hv.delete_settles hready).1.returns hbounds.not_straddles
  | changeDirectory path =>
    cases hrun : exfatChangeDirectory path v with
    | ok u v' => exact ⟨v', .inl hrun⟩
    | error e v' =>
      cases e with
      | code rc => exact ⟨v', .inr ⟨rc, hrun⟩⟩
      | undefined => exact absurd hrun (cd_defined_of_fits hbounds)

theorem Reached.mono {narrow wide : Volume → VolumeOp → Prop} (h : Reached narrow start v)
    (hwider : ∀ w op, narrow w op → wide w op) : Reached wide start v := by
  induction h with
  | start => exact .start
  | step op _ hop hreturns ih => exact .step op ih (hwider _ op hop) hreturns

theorem Reached.sound (h : Reached (fun v op => op.OnFiles v) start v) (hstart : start.Sound)
    (hready : start.Ready) : v.Sound ∧ v.Ready := by
  induction h with
  | start => exact ⟨hstart, hready⟩
  | step op _ hfiles hreturns ih =>
    rcases hreturns with hrun | ⟨rc, hrun⟩
    · exact ih.1.done ih.2 hfiles hrun
    · exact ih.1.refused ih.2 hfiles hrun ▸ ih

/-- What holds along a history of careful operations. -/
structure Volume.Tight (v : Volume) : Prop extends v.Sound where
  ready : v.Ready
  noLeak : v.NoLeak

/-- A careful operation that succeeds keeps the volume sound and without leaks. -/
theorem Volume.Tight.done (hv : v.Tight) (hcareful : op.Careful v) (hrun : op.run v = .ok () v') : v'.Tight := by
  have hready := hv.ready
  obtain ⟨hsound', hready'⟩ := hv.toSound.done hready hcareful.onFiles hrun
  refine ⟨hsound', hready', ?_⟩
  cases op with
  | create name isDir => exact (hv.create_node hrun).2 hv.noLeak
  | write name data => exact (hv.write hcareful.1 hcareful.2 hrun).2 hready hv.noLeak
  | append name data => exact (hv.append hcareful.1 hcareful.2 hrun).2 hready hv.noLeak
  | truncate name => exact (hv.truncate hcareful.1 hrun).2 hcareful.2 hv.noLeak
  | delete name => exact (hv.delete_node hrun).2 hready hcareful hv.noLeak
  | changeDirectory path =>
    obtain ⟨c, path', -, hsame⟩ := hv.cd_ok hrun
    rw [hsame.eq hready.quiet]
    exact hv.noLeak

theorem Reached.tight (h : Reached (fun v op => op.Careful v) start v) (hstart : start.Tight) : v.Tight := by
  induction h with
  | start => exact hstart
  | step op _ hcareful hreturns ih =>
    rcases hreturns with hrun | ⟨rc, hrun⟩
    · exact ih.done hcareful hrun
    · exact ih.toSound.refused ih.ready hcareful.onFiles hrun ▸ ih

/-- In every state that careful operations within the driver's buffers reach from a freshly formatted
volume with a zeroed root directory, the bitmap marks the system clusters and the clusters of the
live entries, each of which belongs to one of them; and every such operation returns. -/
theorem accounted_of_careful (start v : Volume) (before : Bytes) (totalSectors : ℕ)
    (hfresh : start.Fresh before totalSectors) (hroot : RootZeroed before)
    (hready : start.Ready) (hv : Reached (fun v op => op.Careful v ∧ op.InBounds v) start v) :
    v.Accounted ∧ ∀ op : VolumeOp, op.Careful v → op.InBounds v → ∃ v', op.Returns v v' := by
  have htight := (hv.mono fun _ _ h => h.1).tight ⟨hfresh.sound hroot, hready, hfresh.noLeak⟩
  refine ⟨htight.accounted htight.noLeak, fun op hcareful hbounds => ?_⟩
  exact htight.toSound.returns htight.ready hcareful.onFiles hbounds

section Examples

/-- The blank volume with an empty file `a`. -/
def emptyFileVolume : Volume := finalState (exfatCreateNode [97] false blank)

theorem emptyFileVolume_reached {condition : Volume → VolumeOp → Prop}
    (h : condition blank (.create [97] false)) : Reached condition blank emptyFileVolume := by
  obtain ⟨_, hcreate⟩ := ok_of_stopReason (exfatCreateNode [97] false blank) (by decide +kernel)
  exact .step (.create [97] false) .start h (.inl hcreate)

theorem namesFile_of_slot {name : List UInt8} (hslot : findSlot v.cwd name = some k)
    (hfile : isDirectory v.cwd (32 * k) = false) : v.NamesFile name :=
  fun _ hother => Option.some.inj (hslot.symm.trans hother) ▸ hfile

theorem fitsName_of_slot {name : List UInt8} (hslot : findSlot v.cwd name = some k)
    (hfits : FitsSector v.cwd k) : v.FitsName name :=
  fun _ hother => Option.some.inj (hslot.symm.trans hother) ▸ hfits

theorem emptyFileVolume_slot : findSlot emptyFileVolume.cwd [97] = some 2 := by decide +kernel

theorem emptyFileVolume_namesFile : emptyFileVolume.NamesFile [97] :=
  namesFile_of_slot emptyFileVolume_slot (by decide +kernel)

theorem emptyFileVolume_fitsName : emptyFileVolume.FitsName [97] :=
  fitsName_of_slot emptyFileVolume_slot (by decide +kernel)

/-- Every cluster is accounted for after two bytes have been written to a new file. -/
theorem accounted_of_careful_write :
    (finalState (exfatWriteFile [97] [104, 105] emptyFileVolume)).Accounted := by
  obtain ⟨hready, totalSectors, hfresh⟩ := blank_fresh
  obtain ⟨_, hwrite⟩ := ok_of_stopReason (exfatWriteFile [97] [104, 105] emptyFileVolume) (by decide +kernel)
  exact (accounted_of_careful blank _ (fun _ => 0) totalSectors hfresh rootZeroed_zero hready
    (.step (.write [97] [104, 105]) (emptyFileVolume_reached ⟨trivial, trivial⟩)
      ⟨⟨by decide, emptyFileVolume_namesFile⟩, emptyFileVolume_fitsName⟩ (.inl hwrite))).1

/-- Operations one after the other. -/
def runOps : List VolumeOp → Driver Unit
  | [] => pure ()
  | op :: ops => do
    op.run
    runOps ops

/-- Operations that succeed one after the other are a history. -/
theorem reached_of_run {condition : Volume → VolumeOp → Prop} (ops : List VolumeOp)
    (hv : Reached condition start v) (hall : ∀ w, ∀ op ∈ ops, condition w op)
    (hrun : runOps ops v = .ok () v') : Reached condition start v' := by
  induction ops generalizing v with
  | nil =>
    cases hrun
    exact hv
  | cons op ops ih =>
    obtain ⟨_, w, hfirst, hrest⟩ := bind_eq_ok hrun
    exact ih (.step op hv (hall v op mem_cons_self) (.inl hfirst))
      (fun w other hmem => hall w other (mem_cons_of_mem op hmem)) hrest

/-- A file with one line of 4096 bytes and the line `x`, whose last line is removed. -/
def truncatedFile : List VolumeOp :=
  [.create [97] false, .write [97] (List.replicate 4095 46 ++ [10, 120]), .truncate [97]]

/-- The volume on which the last line of the file has been removed. -/
def truncatedVolume : Volume := finalState (runOps truncatedFile blank)

theorem reach_eq_root (h : ∀ k, Live (clusterAt v.bytes 4) k →
    isDirectory (clusterAt v.bytes 4) (32 * k) = false) (hd : v.Reach d) : d = 4 := by
  rcases Relation.ReflTransGen.cases_head hd with rfl | ⟨c, ⟨k, n, hslot, hdir, -⟩, -⟩
  · rfl
  · obtain ⟨hk, rfl⟩ := slotNode_some hslot
    exact absurd (hdir.symm.trans (h k hk)) (by decide)

/-- Removing the last line leaves the file's second cluster marked, and no entry has it. -/
theorem truncation_leaves_cluster : ∃ start v totalSectors, start.Fresh (fun _ => 0) totalSectors ∧
    RootZeroed (fun _ => 0) ∧ start.Ready ∧ Reached (fun _ _ => True) start v ∧ ¬ v.Accounted := by
  obtain ⟨hready, totalSectors, hfresh⟩ := blank_fresh
  obtain ⟨_, hrun⟩ := ok_of_stopReason (runOps truncatedFile blank) (by decide +kernel)
  refine ⟨blank, truncatedVolume, totalSectors, hfresh, rootZeroed_zero, hready,
    reached_of_run truncatedFile .start (fun _ _ _ => trivial) hrun, fun haccounted => ?_⟩
  have hslots : ∀ k ≤ 125, clusterAt truncatedVolume.bytes 4 (32 * k) = typeFile →
      isDirectory (clusterAt truncatedVolume.bytes 4) (32 * k) = false ∧
      ¬ 7 < firstCluster (clusterAt truncatedVolume.bytes 4) (32 * k) +
        max 1 ((dataLength (clusterAt truncatedVolume.bytes 4) (32 * k) + 4095) / 4096) := by
    decide +kernel
  have hused : truncatedVolume.used 7 = true := by decide +kernel
  have hcount : 7 < truncatedVolume.clusterCount + 2 := by decide +kernel
  rcases (haccounted.1 7 (by decide) hcount).mp hused with hsystem | ⟨e, ⟨hd, hk, -, hhigh⟩, -⟩
  · exact absurd hsystem (by decide)
  · have hroot := reach_eq_root (fun k hk => (hslots k hk.1 hk.2).1) hd
    rw [hroot] at hk hhigh
    exact (hslots e.2 hk.1 hk.2).2 hhigh

end Examples

end Windoge.Exfat
