import Windoge.Exfat.Confined

/-!
# The mutators on a sound volume

What `exfat_write_file`, `exfat_append_file`, `exfat_truncate_last_line`, `exfat_delete_node` and
`exfat_create_node` have done when they report success on a sound volume, whichever of the
sector operations they tolerate have failed.
-/

namespace Windoge.Exfat

open Windoge.Flow Forest Set

variable {v v' : Volume} {name data : List UInt8} {k first count size : ℕ} {cluster : Option ℕ}
  {bytes : Bytes} {outcomes : List SectorOutcome}

/-- The drive after the entry in a slot of the current directory has got a new run and length. -/
structure FileChange (v : Volume) (k : ℕ) (cluster : Option ℕ) (first size : ℕ) (bytes : Bytes)
    (outcomes : List SectorOutcome) : Prop where
  dir : clusterAt bytes v.currentCluster = updatedSector v.cwd (32 * k) cluster size
    (seenChecksum v.behind v.cwd k cluster size)
  starts : firstCluster (clusterAt bytes v.currentCluster) (32 * k) = first
  keeps : KeepsOutside ({2, v.currentCluster} ∪ clusterRun first (clustersFor size)) v.bytes bytes
  run : NewRun v k first (clustersFor size)
  used : Marks v (exchange v k first (clustersFor size)) bytes outcomes

/-- From a cluster on the drive holds the contents of the entry in a slot, followed by data. -/
structure Appended (v : Volume) (k : ℕ) (data : List UInt8) (first : ℕ) (bytes : Bytes) : Prop where
  old : ∀ i < dataLength v.cwd (32 * k),
    bytes (clusterBase first + i) = v.bytes (clusterBase (firstCluster v.cwd (32 * k)) + i)
  new : ∀ i < data.length, bytes (clusterBase first + dataLength v.cwd (32 * k) + i) = data.getD i 0

/-- The length that `exfat_truncate_last_line` leaves the file in a slot with. -/
def Volume.truncatedLength (v : Volume) (k : ℕ) : ℕ :=
  dataLength v.cwd (32 * k) -
    removeCount (sectorAt v.bytes (8 * (firstCluster v.cwd (32 * k) + 766) +
      (dataLength v.cwd (32 * k) - 1) / 512)) ((dataLength v.cwd (32 * k) - 1) % 512)

namespace Volume.Sound

variable (hv : v.Sound)
include hv

/-- A new run lies inside the volume and away from the current directory. -/
theorem newRun_bounds (hk : Live v.cwd k) (hrun : NewRun v k first count) :
    2 ≤ first ∧ first + count ≤ v.clusterCount + 2 ∧ 2 ∉ clusterRun first count ∧
      v.currentCluster ∉ clusterRun first count := by
  unfold NewRun at hrun
  split_ifs at hrun with hsame
  · rw [hrun, hsame]
    obtain ⟨hlow, hend⟩ := hv.run_current hk
    refine ⟨hlow.trans' (by decide), hend, fun htwo => ?_, hv.separated.not_owned_by_self hv.current hk.slotNode⟩
    exact absurd (htwo.1.trans' hlow) (by decide)
  · obtain ⟨hlow, hend, hfresh⟩ := hrun
    have hnot {c : ℕ} (hc : c ∈ v.usedSet) : c ∉ clusterRun first count :=
      fun hrun => disjoint_left.mp hfresh hrun hc
    exact ⟨hlow, hend, hnot (hv.separated.system_used ⟨le_rfl, by decide⟩),
      hnot (hv.separated.reach_used hv.current)⟩

/-- Updating the entry completes a change that has so far touched the new run and the bitmap. -/
theorem finish_update (hk : Live v.cwd k) (hrun : NewRun v k first (clustersFor size))
    (hfirst : ∀ checksum, firstCluster (updatedSector v.cwd (32 * k) cluster size checksum) (32 * k) = first)
    (hkeep : KeepsOutside ({2} ∪ clusterRun first (clustersFor size)) v.bytes bytes)
    (hused : Marks v (exchange v k first (clustersFor size)) bytes outcomes)
    {u : Unit} (h : updateEntry (v.target k) cluster size (v.put bytes outcomes) = .ok u v') :
    FitsStream k ∧ ∃ bytes' outcomes', v' = v.put bytes' outcomes' ∧
      FileChange v k cluster first size bytes' outcomes' ∧ KeepsOutside {v.currentCluster} bytes bytes' := by
  obtain ⟨-, -, -, haway⟩ := hv.newRun_bounds hk hrun
  have hcwd : clusterAt bytes v.currentCluster = v.cwd := by
    apply hkeep.clusterAt
    rintro (htwo | hmem)
    · exact hv.reach_ne_two hv.current htwo
    · exact haway hmem
  have hset : SetAt (clusterAt (v.put bytes outcomes).bytes v.currentCluster) k := by
    rw [put_bytes, hcwd]
    exact hv.cwdOk.setAt hk
  obtain ⟨hfits, bytes', outcomes', rfl, hdir, hkeep'⟩ := updateEntry_ok hset rfl rfl h
  rw [put_bytes, put_behind] at hdir
  rw [put_bytes] at hkeep'
  rw [hcwd] at hdir
  refine ⟨hfits, bytes', outcomes', put_put _ _ _ _ _, ⟨hdir, by rw [hdir, hfirst], ?_, hrun, ?_⟩, hkeep'⟩
  · refine (hkeep.trans hkeep').mono ?_
    rintro c ((hc | hc) | hc)
    · exact .inl (.inl hc)
    · exact .inr hc
    · exact .inl (.inr hc)
  · exact hused.congr hv.toFormatted hkeep' (hv.reach_ne_two hv.current).symm outcomes'

theorem with_outcomes : { v with outcomes := outcomes }.Sound :=
  ⟨⟨hv.heapOffset, hv.perCluster, hv.root, hv.atLeast, hv.atMost⟩, hv.separated, hv.dirOk, hv.sizeOk, hv.current⟩

/-- A lookup leaves a sound volume with the same directory and the same slot. -/
theorem resolve_slot {target : Target} (h : exfatResolveEntry name v = .ok target v') :
    ∃ k outcomes, findSlot v.cwd name = some k ∧ Live v.cwd k ∧ target = v.target k ∧
      v' = { v with outcomes := outcomes } ∧ (v.Ready → v'.Ready) := by
  have hsteady := (steady.respects_exfatResolveEntry name).ok h
  obtain ⟨k, outcomes, hfind, rfl, rfl⟩ := hv.resolve_ok h
  exact ⟨k, outcomes, hfind, (findSlot_some hfind).1, rfl, v.put_bytes_eq outcomes, hsteady.ready⟩

/-- What a successful write has done. -/
theorem write_ok (hdata : data.length < 2 ^ 43) (h : exfatWriteFile name data v = .ok () v') :
    ∃ k first bytes outcomes, findSlot v.cwd name = some k ∧ FitsStream k ∧
      v' = v.put bytes outcomes ∧ FileChange v k (some first) first data.length bytes outcomes ∧
      ∀ i < data.length, bytes (clusterBase first + i) = data.getD i 0 := by
  have hcount := hv.count_le
  obtain ⟨target, v₁, hresolve, h⟩ := bind_eq_ok h
  obtain ⟨k, outcomes₁, hfind, hk, rfl, rfl, hready₁⟩ := hv.resolve_slot hresolve
  obtain ⟨first, v₂, hclusters, h⟩ := bind_eq_ok h
  obtain ⟨hrun, bytes₂, outcomes₂, rfl, hkeep₂, hused₂⟩ :=
    writeClusters_ok (v := { v with outcomes := outcomes₁ }) (k := k) hv.with_outcomes hk hclusters
  obtain ⟨hlow, hend, htwo, haway⟩ := hv.newRun_bounds hk hrun
  rw [get_bind] at h
  obtain ⟨_, v₃, hwrites, h⟩ := bind_eq_ok h
  obtain ⟨outcomes₃, rfl⟩ := writeAll_ok hwrites
  have hlba := hv.runLba hlow hend
  have hsectors := sectorsFor_le (by omega : data.length + 4095 < 2 ^ 44)
  have hkeep₃ := keepsOutside_bufferSectors bytes₂ (dataBuffer data) hlba
    (by omega : 0 + sectorsFor data.length ≤ 8 * clustersFor data.length)
  rw [put_put, put_bytes] at h
  have hused₃ : Marks v (exchange v k first (clustersFor data.length)) bytes₂ outcomes₂ :=
    ⟨hused₂.all, fun hready => hused₂.only (hready₁ hready)⟩
  obtain ⟨hfits, bytes, outcomes, rfl, hchange, hlast⟩ := hv.finish_update hk hrun
    (fun _ => firstCluster_update (by omega)) (hkeep₂.trans hkeep₃)
    (hused₃.congr hv.toFormatted hkeep₃ htwo outcomes₃) h
  refine ⟨k, first, bytes, outcomes, hfind, hfits, rfl, hchange, fun i hi => ?_⟩
  have hheld := le_clustersFor (by omega : data.length + 4095 < 2 ^ 44)
  have hfinal := hlast (clusterBase first + i) fun c hc heq => haway <| by
    obtain rfl : c = v.currentCluster := hc
    rw [clusterBase] at heq
    exact ⟨by omega, by omega⟩
  rw [hfinal, putSectors_bufferSectors, if_pos, dataBuffer]
  · congr 1
    rw [clusterBase]
    omega
  · unfold sectorsFor clusterBase
    omega

/-- A live entry is no larger than the volume. -/
theorem size_le (hk : Live v.cwd k) : dataLength v.cwd (32 * k) ≤ 2 ^ 27 := by
  have hcount := hv.count_le
  obtain ⟨hlow, hend⟩ := hv.run_current hk
  have hheld : dataLength v.cwd (32 * k) ≤ 4096 * clustersFor (dataLength v.cwd (32 * k)) :=
    le_clustersFor (hv.sizeOk _ k hv.current hk).1
  omega

/-- The sizes that an append of something computes. -/
theorem append_size (hk : Live v.cwd k) (hdata : data.length < 2 ^ 43) (hempty : data ≠ []) :
    ((v.target k).size + data.length) % 2 ^ 64 = dataLength v.cwd (32 * k) + data.length ∧
    (dataLength v.cwd (32 * k) + data.length + 4095) % 2 ^ 64 / 4096 % 2 ^ 32 =
      clustersFor (dataLength v.cwd (32 * k) + data.length) ∧
    dataLength v.cwd (32 * k) + data.length + 4095 < 2 ^ 44 ∧
    clustersFor (dataLength v.cwd (32 * k)) ≤ clustersFor (dataLength v.cwd (32 * k) + data.length) := by
  have hsmall := hv.size_le hk
  have hlength := List.length_pos_of_ne_nil hempty
  have hnew : dataLength v.cwd (32 * k) + data.length + 4095 < 2 ^ 44 := by omega
  refine ⟨?_, ?_, hnew, clustersFor_mono le_self_add hnew⟩
  · change (dataLength v.cwd (32 * k) + data.length) % 2 ^ 64 = _
    omega
  · rw [clustersFor, if_neg (by omega)]

/-- The steps of a successful append that stores something. -/
theorem append_stages (hdata : data.length < 2 ^ 43) (hempty : data ≠ [])
    (h : exfatAppendFile name data v = .ok () v') :
    ∃ k outcomes first w₁ w₂, findSlot v.cwd name = some k ∧ (v.Ready → { v with outcomes := outcomes }.Ready) ∧
      appendClusters (v.target k) (clustersFor (dataLength v.cwd (32 * k) + data.length))
        { v with outcomes := outcomes } = .ok first w₁ ∧
      appendLoop (8 * (first + 766)) data.length (dataLength v.cwd (32 * k)) data w₁ = .ok () w₂ ∧
      updateEntry (v.target k) (some first) (dataLength v.cwd (32 * k) + data.length) w₂ = .ok () v' := by
  obtain ⟨target, v₁, hresolve, h⟩ := bind_eq_ok h
  obtain ⟨k, outcomes₁, hfind, hk, rfl, rfl, hready₁⟩ := hv.resolve_slot hresolve
  rw [if_neg hempty] at h
  obtain ⟨htotal, hexpr, -, hgrow⟩ := hv.append_size hk hdata hempty
  rw [htotal] at h
  obtain ⟨first, w₁, hclusters, h⟩ := bind_eq_ok h
  rw [hexpr] at hclusters
  obtain ⟨hrun, bytes, outcomes, rfl, -⟩ :=
    appendClusters_ok (v := { v with outcomes := outcomes₁ }) (k := k) hv.with_outcomes hk hgrow hclusters
  obtain ⟨hlow, hend, -⟩ := hv.newRun_bounds hk hrun
  have hlba := hv.runLba hlow hend
  rw [get_bind] at h
  obtain ⟨_, w₂, hloop, hupdate⟩ := bind_eq_ok h
  change appendLoop (exfatClusterLba v first) _ (dataLength v.cwd (32 * k)) _ _ = _ at hloop
  rw [hlba] at hloop
  exact ⟨k, outcomes₁, first, _, w₂, hfind, hready₁, hclusters, hloop, hupdate⟩

/-- What a successful append has done. -/
theorem append_ok (hdata : data.length < 2 ^ 43) (h : exfatAppendFile name data v = .ok () v') :
    ∃ k, findSlot v.cwd name = some k ∧ Live v.cwd k ∧
      (data = [] ∧ (∃ outcomes, v' = { v with outcomes := outcomes }) ∨
      data ≠ [] ∧ ∃ first bytes outcomes, FitsStream k ∧ v' = v.put bytes outcomes ∧
        FileChange v k (some first) first (dataLength v.cwd (32 * k) + data.length) bytes
          outcomes ∧ Appended v k data first bytes) := by
  have hcount := hv.count_le
  by_cases hempty : data = []
  · obtain ⟨target, v₁, hresolve, h⟩ := bind_eq_ok h
    obtain ⟨k, outcomes₁, hfind, hk, rfl, rfl, -⟩ := hv.resolve_slot hresolve
    rw [if_pos hempty] at h
    cases h
    exact ⟨k, hfind, hk, .inl ⟨hempty, outcomes₁, rfl⟩⟩
  obtain ⟨k, outcomes₁, first, w₁, w₂, hfind, hready₁, hclusters, hloop, hupdate⟩ :=
    hv.append_stages hdata hempty h
  have hk := (findSlot_some hfind).1
  have hsmall := hv.size_le hk
  have hnew : dataLength v.cwd (32 * k) + data.length + 4095 < 2 ^ 44 := by omega
  obtain ⟨hrun, bytes₂, outcomes₂, rfl, hkeep₂, hused₂, hcopied⟩ :=
    appendClusters_ok (v := { v with outcomes := outcomes₁ }) (k := k) hv.with_outcomes hk
      (clustersFor_mono le_self_add hnew) hclusters
  obtain ⟨hlow, hend, htwo, haway⟩ := hv.newRun_bounds hk hrun
  have hstored := appendLoop_contents _ _ _ le_rfl hloop
  have hbefore := appendLoop_confined (le_clustersFor hnew) hloop
  obtain ⟨bytes₃, outcomes₃, rfl, hkeep₃⟩ := appendLoop_ok (le_clustersFor hnew) hloop
  rw [put_bytes] at hkeep₃
  rw [put_put] at hupdate
  have hused₃ : Marks v (exchange v k first
      (clustersFor (dataLength v.cwd (32 * k) + data.length))) bytes₂ outcomes₂ :=
    ⟨hused₂.all, fun hready => hused₂.only (hready₁ hready)⟩
  change KeepsOutside ({2} ∪ clusterRun first (clustersFor (dataLength v.cwd (32 * k) + data.length)))
    v.bytes bytes₂ at hkeep₂
  have hkeep := hkeep₂.trans hkeep₃
  rw [union_assoc, union_self] at hkeep
  obtain ⟨hfits, bytes, outcomes, rfl, hchange, hlast⟩ := hv.finish_update hk hrun
    (fun _ => firstCluster_update (by omega)) hkeep (hused₃.congr hv.toFormatted hkeep₃ htwo outcomes₃) hupdate
  have hheld := le_clustersFor hnew
  change v.currentCluster ∉ clusterRun first (clustersFor (dataLength v.cwd (32 * k) + data.length)) at haway
  have hfinal (i : ℕ) (hi : i < dataLength v.cwd (32 * k) + data.length) :
      bytes (clusterBase first + i) = bytes₃ (clusterBase first + i) := by
    refine hlast _ fun c hc heq => haway ?_
    obtain rfl : c = v.currentCluster := hc
    rw [clusterBase] at heq
    exact ⟨by omega, by omega⟩
  have hbase : 512 * (8 * (first + 766)) = clusterBase first := by
    rw [clusterBase]
    omega
  rw [hbase, put_bytes] at hstored
  refine ⟨k, hfind, hk, .inr ⟨hempty, first, bytes, outcomes, hfits, rfl, hchange, fun i hi => ?_, fun i hi => ?_⟩⟩
  · have hkept := hbefore.bytes_eq (a := clusterBase first + i) fun hin => by
      have hlow := hin.1
      omega
    rw [put_bytes, put_bytes] at hkept
    rw [hfinal i (by omega), hkept, hcopied i hi]
    rfl
  · rw [add_assoc, hfinal _ (by omega), ← add_assoc, hstored i hi]

/-- Where the contents of a live entry start. -/
theorem targetLba (hk : Live v.cwd k) :
    exfatClusterLba v (firstCluster v.cwd (32 * k)) = 8 * (firstCluster v.cwd (32 * k) + 766) := by
  obtain ⟨hlow, hend⟩ := hv.run_current hk
  exact hv.runLba (hlow.trans' (by decide)) hend

/-- What a successful truncation has done; it frees nothing. -/
theorem truncate_ok (h : exfatTruncateLastLine name v = .ok () v') :
    ∃ k bytes outcomes, findSlot v.cwd name = some k ∧ dataLength v.cwd (32 * k) ≠ 0 ∧
      FitsStream k ∧ v' = v.put bytes outcomes ∧
      clusterAt bytes v.currentCluster = updatedSector v.cwd (32 * k) none (v.truncatedLength k)
        (seenChecksum v.behind v.cwd k none (v.truncatedLength k)) ∧
      KeepsOutside {v.currentCluster} v.bytes bytes := by
  obtain ⟨target, v₁, hresolve, h⟩ := bind_eq_ok h
  obtain ⟨k, outcomes₁, hfind, hk, rfl, rfl, -⟩ := hv.resolve_slot hresolve
  split_ifs at h with hempty
  · cases h
  rw [get_bind] at h
  obtain ⟨sector, v₂, hread, h⟩ := bind_eq_ok h
  obtain ⟨hsector, rfl⟩ := exfatSectorRead_ok hread
  have hlength : removeCount sector (((v.target k).size - 1) % 512) =
      removeCount (sectorAt v.bytes (8 * (firstCluster v.cwd (32 * k) + 766) +
        (dataLength v.cwd (32 * k) - 1) / 512)) ((dataLength v.cwd (32 * k) - 1) % 512) := by
    rw [hsector, ← hv.targetLba hk]
    rfl
  rw [hlength] at h
  obtain ⟨hfits, bytes, outcomes, rfl, hdir, hkeep⟩ :=
    updateEntry_ok (by rw [put_bytes]; exact hv.cwdOk.setAt hk) rfl rfl h
  rw [put_bytes, put_behind] at hdir
  rw [put_bytes] at hkeep
  exact ⟨k, bytes, outcomes, hfind, hempty, hfits, put_put _ _ _ _ _, hdir, hkeep⟩

end Volume.Sound

/-!
## The mutators keep a volume sound

A successful write, append or truncation of a file, a create and a delete lead from a sound
volume to a sound volume, even if sector failures that the driver tolerates have left clusters
marked as used. Without failures nothing leaks either, with two exceptions that the statements
name: truncation frees nothing, and deleting a directory frees nothing that its entries own.
-/

variable {isDir : Bool} {k first size : ℕ} {bytes : Bytes} {outcomes : List SectorOutcome}
  {cluster : Option ℕ}

/-!
## Creating and deleting entries on a sound volume

What `exfat_create_node` and `exfat_delete_node` have done when they report success. A create
places a complete entry set in the first gap of the directory and takes one unused cluster; a
delete clears the in-use bits of the set and frees its clusters.
-/

/-- The drive after the entry set in a slot of the current directory has been cleared. -/
structure EntryCleared (v : Volume) (k : ℕ) (bytes : Bytes) (outcomes : List SectorOutcome) :
    Prop where
  dir : clusterAt bytes v.currentCluster =
    clearedSector v.cwd (32 * k) (secondaryCount v.cwd (32 * k) + 1)
  keeps : KeepsOutside {2, v.currentCluster} v.bytes bytes
  used : Marks v (v.usedSet \ (nodeAt v.cwd k).run) bytes outcomes

/-- The drive after an entry set with a fresh cluster has been placed in the current directory. -/
structure EntryPlaced (v : Volume) (name : List UInt8) (isDir : Bool) (k first : ℕ) (bytes : Bytes)
    (outcomes : List SectorOutcome) : Prop where
  slot : freeSlot v.cwd (totalEntries name) = some k
  unused : UnusedRun v first 1
  dir : clusterAt bytes v.currentCluster = withSet v.cwd name isDir first k
  zero : isDir = true → clusterAt bytes first = fun _ => 0
  keeps : KeepsOutside {2, first, v.currentCluster} v.bytes bytes
  used : (v.put bytes outcomes).usedSet = v.usedSet ∪ clusterRun first 1

/-- A directory's fresh cluster is zeroed; a file's is left as it is. -/
theorem zeroDirectory_ok {u : Unit} (h : zeroDirectory (8 * (first + 766)) isDir v = .ok u v') :
    ∃ bytes outcomes, v' = v.put bytes outcomes ∧ KeepsOutside (clusterRun first 1) v.bytes bytes ∧
      (isDir = true → clusterAt bytes first = fun _ => 0) := by
  cases isDir with
  | false =>
    cases h
    exact ⟨v.bytes, v.outcomes, v.put_self.symm, KeepsOutside.refl, nofun⟩
  | true =>
    obtain ⟨outcomes, rfl⟩ := writeAll_ok h
    refine ⟨_, outcomes, rfl, keepsOutside_bufferSectors _ _ rfl (by decide), fun _ => ?_⟩
    funext x
    by_cases hx : x < 4096
    · rw [clusterAt_of_lt hx, putSectors_bufferSectors, if_pos (by omega)]
    · exact clusterAt_of_ge (by omega)

namespace Volume.Sound

/-- What a successful delete has done. -/
theorem delete_ok (hv : v.Sound) (h : exfatDeleteNode name v = .ok () v') :
    ∃ k bytes outcomes, findSlot v.cwd name = some k ∧ FitsSector v.cwd k ∧
      v' = v.put bytes outcomes ∧ EntryCleared v k bytes outcomes := by
  obtain ⟨target, v₁, hresolve, h⟩ := bind_eq_ok h
  obtain ⟨k, outcomes₁, hfind, hk, rfl, rfl, hready₁⟩ := hv.resolve_slot hresolve
  obtain ⟨bytes₂, outcomes₂, hfree, hkeep₂, hused₂⟩ := free_old hv hk v.bytes outcomes₁
  rw [v.put_bytes_eq] at hfree hused₂
  rw [bind_ok hfree] at h
  have haway : 2 ∉ ({v.currentCluster} : Set ℕ) := (hv.reach_ne_two hv.current).symm
  have hcwd := hkeep₂.clusterAt fun htwo => haway htwo.symm
  obtain ⟨hfits, bytes₃, outcomes₃, rfl, hdir, hkeep₃⟩ :=
    clearEntry_ok (by rw [put_bytes, hcwd]; exact hv.cwdOk.setAt hk) rfl rfl h
  rw [put_bytes] at hfits hdir hkeep₃
  rw [hcwd] at hfits hdir
  refine ⟨k, bytes₃, outcomes₃, hfind, hfits, put_put _ _ _ _ _, hdir, hkeep₂.trans hkeep₃, ?_⟩
  exact Marks.congr hv.toFormatted ⟨hused₂.all, fun hready => hused₂.only (hready₁ hready)⟩ hkeep₃ haway outcomes₃

/-- What a successful create has done. -/
theorem create_ok (hv : v.Sound) (h : exfatCreateNode name isDir v = .ok () v') :
    name ≠ [] ∧ ∃ k first bytes outcomes, v' = v.put bytes outcomes ∧
      EntryPlaced v name isDir k first bytes outcomes := by
  unfold exfatCreateNode at h
  split_ifs at h with hname
  · cases h
  refine ⟨hname, ?_⟩
  rw [get_bind] at h
  obtain ⟨buffer, v₁, hread, h⟩ := bind_eq_ok h
  obtain ⟨hbuffer, outcomes₁, rfl⟩ := readSectors_ok hread
  obtain rfl : buffer = v.cwd := hbuffer.trans hv.directory
  rw [v.put_bytes_eq] at h
  cases hslot : freeSlot v.cwd (totalEntries name) with
  | none =>
    rw [hslot] at h
    cases h
  | some k =>
    obtain ⟨hfits, -⟩ := freeSlot_some ((totalEntries_bounds hname).2.trans (by decide)) hslot
    rw [hslot] at h
    obtain ⟨first, v₂, halloc, h⟩ := bind_eq_ok h
    split_ifs at h with hzero
    · cases h
    obtain ⟨hlow, hend, hfresh, bytes₂, outcomes₂, rfl, hkeep₂, hused₂⟩ :=
      alloc_ok (v := { v with outcomes := outcomes₁ }) hv.with_outcomes.toFormatted halloc hzero
    have hnotcwd : v.currentCluster ∉ clusterRun first 1 := fun hrun =>
      Set.disjoint_left.mp hfresh hrun (hv.separated.reach_used hv.current)
    have hnottwo : 2 ∉ clusterRun first 1 := fun hrun =>
      Set.disjoint_left.mp hfresh hrun (hv.separated.system_used ⟨le_rfl, by decide⟩)
    have hlba := hv.runLba hlow hend
    obtain ⟨_, v₃, hdirectory, h⟩ := bind_eq_ok h
    rw [hlba] at hdirectory
    obtain ⟨bytes₃, outcomes₃, rfl, hkeep₃, hzeroed⟩ := zeroDirectory_ok hdirectory
    rw [put_bytes] at hkeep₃
    have hcwd : clusterAt bytes₃ v.currentCluster = v.cwd := by
      rw [hkeep₃.clusterAt hnotcwd]
      exact hkeep₂.clusterAt (hv.reach_ne_two hv.current)
    rw [hv.clusterLba hv.current, put_put] at h
    change writeAll (bufferSectors _ (withSet v.cwd name isDir first k) _ _) (v.put bytes₃ outcomes₃) = _ at h
    obtain ⟨outcomes₄, rfl⟩ := writeAll_ok h
    rw [put_put, put_bytes]
    have hkeep₄ := keepsOutside_bufferSectors bytes₃ (withSet v.cwd name isDir first k)
      (rfl : 8 * (v.currentCluster + 766) = 8 * (v.currentCluster + 766))
      (by omega : 32 * k / 512 + ((32 * k + 32 * totalEntries name - 1) / 512 + 1 - 32 * k / 512) ≤ 8 * 1)
    rw [clusterRun_one] at hkeep₃ hkeep₄
    refine ⟨k, first, _, outcomes₄, rfl, hslot, ⟨hlow, hend, hfresh⟩, ?_, fun hdir => ?_, ?_, ?_⟩
    · rw [← hcwd]
      exact clusterAt_withSet hfits
    · rw [hkeep₄.clusterAt fun heq => hnotcwd (clusterRun_one first ▸ heq.symm), hzeroed hdir]
    · refine ((hkeep₂.trans hkeep₃).trans hkeep₄).mono ?_
      rintro c ((hc | hc) | hc)
      · exact .inl hc
      · exact .inr (.inl hc)
      · exact .inr (.inr hc)
    · rw [usedSet_congr hv.toFormatted (hkeep₃.trans hkeep₄) _ outcomes₂ outcomes₄]
      · exact hused₂
      · rintro (heq | heq)
        · exact hnottwo (clusterRun_one first ▸ heq)
        · exact hv.reach_ne_two hv.current heq.symm

/-! ## Soundness is kept -/

open Set

variable (hv : v.Sound)
include hv

/-- Only a directory's own cluster is both in its run and reachable. -/
theorem reach_not_mem_newRun (hk : Live v.cwd k)
    (hfile : isDirectory v.cwd (32 * k) = false) {p count : ℕ} (hp : v.Reach p)
    (hrun : NewRun v k first count) : p ∉ clusterRun first count := by
  intro hmem
  unfold NewRun at hrun
  split_ifs at hrun with hsame
  · rw [hrun, hsame] at hmem
    exact absurd ((hv.reach_mem_run hv.current hk hp hmem).1.symm.trans hfile) (by decide)
  · exact disjoint_left.mp hrun.2.2 hmem (hv.separated.reach_used hp)

omit hv in
theorem newRun_disjoint {count : ℕ} (hrun : NewRun v k first count) :
    Disjoint (clusterRun first count) (v.usedSet \ (nodeAt v.cwd k).run) := by
  unfold NewRun at hrun
  split_ifs at hrun with hsame
  · rw [hrun, hsame]
    exact disjoint_sdiff_self_right
  · exact hrun.2.2.mono_right sdiff_subset

/-- A changed file keeps the volume sound. -/
theorem change_file (hk : Live v.cwd k) (hfile : isDirectory v.cwd (32 * k) = false)
    (hsize : size + 4095 < 2 ^ 44) (hchange : FileChange v k cluster first size bytes outcomes) :
    (v.put bytes outcomes).Sound ∧ (v.Ready → v.NoLeak → (v.put bytes outcomes).NoLeak) := by
  have hkeep (p : ℕ) (hp : v.Reach p) (hne : p ≠ v.currentCluster) : clusterAt bytes p = clusterAt v.bytes p := by
    apply hchange.keeps.clusterAt
    rintro ((htwo | heq) | hmem)
    · exact hv.reach_ne_two hp htwo
    · exact hne heq
    · exact hv.reach_not_mem_newRun hk hfile hp hchange.run hmem
  obtain ⟨hsound, hleak⟩ := hv.replace rfl hkeep hk hfile hchange.dir hchange.starts hsize
    hchange.used.all (newRun_disjoint hchange.run)
  exact ⟨hsound, fun hready => hleak (hchange.used.only hready)⟩

section

variable (hdata : data.length < 2 ^ 43)
  (hfile : ∀ k, findSlot v.cwd name = some k → isDirectory v.cwd (32 * k) = false)
include hdata hfile

theorem write (h : exfatWriteFile name data v = .ok () v') : v'.Sound ∧ (v.Ready → v.NoLeak → v'.NoLeak) := by
  obtain ⟨k, first, bytes, outcomes, hfind, -, rfl, hchange, -⟩ := hv.write_ok hdata h
  exact hv.change_file (findSlot_some hfind).1 (hfile k hfind) (by omega) hchange

/-- A successful append keeps the volume sound. -/
theorem append (h : exfatAppendFile name data v = .ok () v') : v'.Sound ∧ (v.Ready → v.NoLeak → v'.NoLeak) := by
  obtain ⟨k, hfind, hk, ⟨-, outcomes, rfl⟩ | ⟨-, first, bytes, outcomes, -, rfl, hchange, -⟩⟩ := hv.append_ok hdata h
  · exact ⟨hv.with_outcomes, fun _ hleak => hleak⟩
  · have hsmall := hv.size_le hk
    exact hv.change_file hk (hfile k hfind) (by omega) hchange

end

theorem truncated_run (hk : Live v.cwd k) :
    clusterRun (firstCluster v.cwd (32 * k)) (clustersFor (v.truncatedLength k)) ⊆ (nodeAt v.cwd k).run := by
  rintro c ⟨hlow, hhigh⟩
  have hmono : clustersFor (v.truncatedLength k) ≤ clustersFor (dataLength v.cwd (32 * k)) :=
    clustersFor_mono tsub_le_self (hv.sizeOk _ k hv.current hk).1
  exact ⟨hlow, by omega⟩

/-- A successful truncation keeps the volume sound; nothing leaks if no cluster became spare. -/
theorem truncate (hfile : ∀ k, findSlot v.cwd name = some k → isDirectory v.cwd (32 * k) = false)
    (h : exfatTruncateLastLine name v = .ok () v') :
    v'.Sound ∧ ((∀ k, findSlot v.cwd name = some k →
      clustersFor (v.truncatedLength k) = clustersFor (dataLength v.cwd (32 * k))) → v.NoLeak → v'.NoLeak) := by
  obtain ⟨k, bytes, outcomes, hfind, -, -, rfl, hdir, hkeep⟩ := hv.truncate_ok h
  have hk := (findSlot_some hfind).1
  have hused : (v.put bytes outcomes).usedSet = v.usedSet := by
    rw [usedSet_congr hv.toFormatted hkeep _ v.outcomes outcomes, v.put_self]
    exact (hv.reach_ne_two hv.current).symm
  have hsize : v.truncatedLength k + 4095 < 2 ^ 44 :=
    (Nat.add_le_add_right tsub_le_self 4095).trans_lt (hv.sizeOk _ k hv.current hk).1
  have hfirst : firstCluster (clusterAt bytes v.currentCluster) (32 * k) =
      firstCluster v.cwd (32 * k) := by rw [hdir, firstCluster_update_none]
  have howned : (nodeAt v.cwd k).run ⊆ v.usedSet := fun c hc => hv.separated.owned_used (hk.owns hv.current hc)
  have hcover : v.usedSet \ (nodeAt v.cwd k).run ∪ clusterRun (firstCluster v.cwd (32 * k))
      (clustersFor (v.truncatedLength k)) ⊆ (v.put bytes outcomes).usedSet := by
    rw [hused]
    exact union_subset sdiff_subset ((hv.truncated_run hk).trans howned)
  obtain ⟨hsound, hleak⟩ := hv.replace rfl
    (fun p _ hne => hkeep.clusterAt hne) hk (hfile k hfind) hdir hfirst hsize hcover
    (disjoint_of_subset_left (hv.truncated_run hk) disjoint_sdiff_self_right)
  refine ⟨hsound, fun hsame => hleak ?_⟩
  rw [hused, hsame k hfind]
  exact subset_sdiff_union _ (nodeAt v.cwd k).run

/-- Placing an entry leaves the other directories as they are. -/
theorem placed_elsewhere (hplaced : EntryPlaced v name isDir k first bytes outcomes)
    {p : ℕ} (hp : v.Reach p) (hne : p ≠ v.currentCluster) :
    clusterAt bytes p = clusterAt v.bytes p := by
  apply hplaced.keeps.clusterAt
  rintro (htwo | heq | heq)
  · exact hv.reach_ne_two hp htwo
  · exact disjoint_left.mp hplaced.unused.2.2 ⟨le_rfl, by omega⟩ (heq ▸ hv.separated.reach_used hp)
  · exact hne heq

theorem cleared_elsewhere (hcleared : EntryCleared v k bytes outcomes)
    {p : ℕ} (hp : v.Reach p) (hne : p ≠ v.currentCluster) :
    clusterAt bytes p = clusterAt v.bytes p := by
  apply hcleared.keeps.clusterAt
  rintro (htwo | heq)
  · exact hv.reach_ne_two hp htwo
  · exact hne heq

/-- A successful create keeps the volume sound, and nothing leaks. -/
theorem create_node (h : exfatCreateNode name isDir v = .ok () v') : v'.Sound ∧ (v.NoLeak → v'.NoLeak) := by
  obtain ⟨hname, k, first, bytes, outcomes, rfl, hplaced⟩ := hv.create_ok h
  have hcount := hv.count_le
  obtain ⟨hlow, hend, hfresh⟩ := hplaced.unused
  exact hv.create rfl (fun p => hv.placed_elsewhere hplaced) hname hplaced.slot hplaced.dir
    (by omega) (disjoint_left.mp hfresh ⟨le_rfl, by omega⟩) hplaced.zero hplaced.used

/-- A successful delete keeps the volume sound; nothing leaks unless a directory had entries. -/
theorem delete_node (h : exfatDeleteNode name v = .ok () v') :
    v'.Sound ∧ (v.Ready → (∀ k, findSlot v.cwd name = some k → isDirectory v.cwd (32 * k) = true →
      ∀ j, ¬ Live (clusterAt v.bytes (firstCluster v.cwd (32 * k))) j) → v.NoLeak → v'.NoLeak) := by
  obtain ⟨k, bytes, outcomes, hfind, -, rfl, hcleared⟩ := hv.delete_ok h
  have hk := (findSlot_some hfind).1
  obtain ⟨hsound, hleak⟩ := hv.delete rfl (fun p => hv.cleared_elsewhere hcleared) hk
    hcleared.dir hcleared.used.all
  exact ⟨hsound, fun hready hempty => hleak (hcleared.used.only hready) (hempty k hfind)⟩

end Volume.Sound

end Windoge.Exfat
