import Windoge.Exfat.Volume

/-!
# Formatting and mounting

`exfat_wipe_and_format` as the sequence of sectors it writes, in its order, and
`exfat_mount`. The formatter gives every volume the same geometry: a cluster heap at sector
2048 of the partition, 8 sectors to a cluster, the bitmap in cluster 2, the upcase table in
cluster 3 and the root directory in cluster 4. Of the root cluster it writes only the first
sector.
-/

namespace Windoge.Exfat

open Windoge.Flow LittleEndian List EStateM.Result

/-- The path of the root directory. -/
def rootPath : List UInt8 := [47]

/-- `EXFAT_MAX_BITMAP_CLUSTERS`. -/
def maxBitmapClusters : ℕ := 32768

/-- `EXFAT_MAX_TOTAL_SECTORS`. -/
def maxTotalSectors : ℕ := 2048 + maxBitmapClusters * 8

/-- `EXFAT_MIN_TOTAL_SECTORS`. -/
def minTotalSectors : ℕ := 4096

/-- The file system name `"EXFAT   "` as the number its eight bytes encode. -/
def fsName : ℕ := 0x2020205441465845

/-- A zeroed buffer with fields stored in it, each given by offset, width and value. -/
def layout (fields : List (ℕ × ℕ × ℕ)) : Bytes :=
  fields.foldl (fun buffer f => putField buffer f.1 f.2.1 f.2.2) fun _ => 0

/-- The volume boot record. -/
def bootSector (totalSectors fatLength clusterCount : ℕ) : Bytes := layout [
  (0, 1, 0xEB), (1, 1, 0x76), (2, 1, 0x90), (3, 8, fsName),
  (64, 8, partitionLba), (72, 8, totalSectors), (80, 4, 128), (84, 4, fatLength),
  (88, 4, 2048), (92, 4, clusterCount), (96, 4, 4), (100, 4, 0x87654321), (104, 2, 0x0100),
  (108, 1, 9), (109, 1, 3), (110, 1, 1), (111, 1, 0x80), (510, 2, 0xAA55)]

/-- `exfat_calc_boot_crc` over one sector. -/
def exfatCalcBootCrc (sector : Bytes) (crc : ℕ) (isVbr : Bool) : ℕ :=
  (List.range 512).foldl (fun crc i =>
    if isVbr ∧ (i = 106 ∨ i = 107 ∨ i = 112) then crc
    else ((if crc % 2 = 1 then 0x80000000 else 0) + crc / 2 + (sector i).toNat) % 2 ^ 32) crc

/-- The checksum over the boot record and the ten zero sectors that follow it. -/
def bootChecksum (vbr : Bytes) : ℕ :=
  (List.range 10).foldl (fun crc _ => exfatCalcBootCrc (fun _ => 0) crc false)
    (exfatCalcBootCrc vbr 0 true)

/-- A sector of 128 copies of the checksum. -/
def checksumSector (crc : ℕ) : Bytes := fun k => byteAt crc (k % 4)

/-- The first sector of the allocation table. -/
def fatSector : Bytes := layout [(0, 4, 0xFFFFFFF8), (4, 4, 0xFFFFFFFF), (8, 4, 0xFFFFFFFF),
  (12, 4, 0xFFFFFFFF), (16, 4, 0xFFFFFFFF)]

/-- Sector `i` of the allocation bitmap: the three system clusters are in use. -/
def bitmapSector (i : ℕ) : Bytes := if i = 0 then layout [(0, 1, 0x07)] else fun _ => 0

/-- The upcase table. -/
def upcaseSector : Bytes := layout [(0, 1, 0x61), (4, 1, 0x1A), (6, 1, 0x41)]

/-- The first sector of the root directory: the bitmap and upcase entries. -/
def rootSector (clusterCount : ℕ) : Bytes := layout [(0, 1, 0x81), (20, 4, 2),
  (24, 8, (clusterCount + 7) / 8), (32, 1, 0x82), (36, 4, 0xE6163351), (52, 4, 3), (56, 8, 128)]

/-- The cluster count of a volume with that many sectors. -/
def formatClusters (totalSectors : ℕ) : ℕ := (totalSectors - 2048) / 8

/-- The sectors of the boot region, its backup and the allocation table, in order. -/
def bootWrites (totalSectors : ℕ) : List (ℕ × Bytes) :=
  let clusterCount := formatClusters totalSectors
  let vbr := bootSector totalSectors (((clusterCount + 2) * 4 + 511) / 512) clusterCount
  [(partitionLba, vbr), (partitionLba + 12, vbr)] ++
    (List.range' 1 10).flatMap (fun i =>
      [(partitionLba + i, fun _ => 0), (partitionLba + 12 + i, fun _ => 0)]) ++
    [(partitionLba + 11, checksumSector (bootChecksum vbr)),
     (partitionLba + 23, checksumSector (bootChecksum vbr)),
     (partitionLba + 128, fatSector)]

/-- The sectors of the allocation bitmap, in order. -/
def bitmapWrites (clusterCount : ℕ) : List (ℕ × Bytes) :=
  (List.range ((clusterCount + 4095) / 4096)).map fun i =>
    (partitionLba + 2048 + i, bitmapSector i)

/-- Every sector the formatter writes, in order. -/
def formatWrites (totalSectors : ℕ) : List (ℕ × Bytes) :=
  bootWrites totalSectors ++ bitmapWrites (formatClusters totalSectors) ++
    [(partitionLba + 2048 + 8, upcaseSector),
     (partitionLba + 2048 + 16, rootSector (formatClusters totalSectors))]

/-- Write sectors one after the other. -/
def writeAll : List (ℕ × Bytes) → Driver Unit
  | [] => pure ()
  | write :: writes => do
    exfatSectorWrite write.1 write.2
    writeAll writes

/-- `exfat_wipe_and_format`. -/
def exfatWipeAndFormat : Driver Unit := do
  let v ← get
  let driveSectors := (v.drives v.ataDrive).sectorCount
  if driveSectors ≤ partitionLba then throw (.code (-1))
  else if driveSectors - partitionLba < minTotalSectors then throw (.code (-1))
  else do
    let totalSectors := min (driveSectors - partitionLba) maxTotalSectors
    writeAll (formatWrites totalSectors)
    modify fun v => { v with
      clusterCount := formatClusters totalSectors
      currentCluster := 4
      currentPath := rootPath }

/-- `exfat_mount`: 1 if a volume was mounted, 0 if the drive holds none. -/
def exfatMount : Driver ℕ := do
  let sector ← exfatSectorRead partitionLba
  if field sector 3 8 ≠ fsName then pure 0
  else if field sector 108 1 ≠ 9 ∨ 32 ≤ field sector 109 1 ∨ field sector 88 4 = 0 ∨
      field sector 96 4 < 2 ∨ field sector 92 4 = 0 then throw (.code (-1))
  else do
    modify fun v => { v with
      clusterHeapOffset := field sector 88 4
      sectorsPerCluster := 2 ^ field sector 109 1
      rootCluster := field sector 96 4
      clusterCount := min (field sector 92 4) maxBitmapClusters
      currentCluster := field sector 96 4
      currentPath := rootPath }
    pure 1

/-- The contents of a drive after sectors have been stored one after the other. -/
def putSectors (bytes : Bytes) (writes : List (ℕ × Bytes)) : Bytes :=
  writes.foldl (fun bytes write => putSector bytes write.1 write.2) bytes

variable {v v' : Volume} {bytes : Bytes} {writes : List (ℕ × Bytes)}

/-- Writing sectors one after the other stores them all. -/
theorem writeAll_ok {u : Unit} (h : writeAll writes v = .ok u v') :
    ∃ outcomes, v' = v.put (putSectors v.bytes writes) outcomes := by
  induction writes generalizing v with
  | nil =>
    obtain ⟨-, rfl⟩ := ok.inj h
    exact ⟨v.outcomes, v.put_self.symm⟩
  | cons write writes ih =>
    obtain ⟨_, v₁, hfirst, h⟩ := bind_eq_ok h
    rw [exfatSectorWrite_ok hfirst] at h
    obtain ⟨outcomes, rfl⟩ := ih h
    exact ⟨outcomes, by simp [putSectors]⟩

/-- Without failures to come every sector is written. -/
theorem writeAll_quiet (writes : List (ℕ × Bytes)) (hquiet : v.outcomes = [])
    (haccepts : ∀ write ∈ writes, v.Accepts write.1) :
    writeAll writes v = .ok () (v.put (putSectors v.bytes writes) []) := by
  induction writes generalizing v with
  | nil =>
    have hput := v.put_self
    rw [hquiet] at hput
    exact congrArg (ok ()) hput.symm
  | cons write writes ih =>
    rw [writeAll, bind_ok (exfatSectorWrite_quiet hquiet (haccepts write mem_cons_self)),
      ih rfl fun w hw => (v.put_accepts _ _ _).mpr (haccepts w (mem_cons_of_mem _ hw))]
    simp [putSectors]

/-- Bytes of sectors that are not written stay. -/
theorem putSectors_of_not_mem {a : ℕ} (h : ∀ write ∈ writes, write.1 ≠ a / 512) :
    putSectors bytes writes a = bytes a := by
  induction writes generalizing bytes with
  | nil => rfl
  | cons write writes ih =>
    have hne : a / 512 ≠ write.1 := (h write mem_cons_self).symm
    calc putSectors (putSector bytes write.1 write.2) writes a
        = putSector bytes write.1 write.2 a := ih (forall_mem_cons.mp h).2
      _ = bytes a := if_neg hne

/-- A sector holds what was written to it last. -/
theorem putSectors_last (before after : List (ℕ × Bytes)) (lba : ℕ) (buffer : Bytes)
    (h : ∀ write ∈ after, write.1 ≠ lba) {a : ℕ} (ha : a / 512 = lba) :
    putSectors bytes (before ++ (lba, buffer) :: after) a = buffer (a % 512) := by
  have hafter : ∀ write ∈ after, write.1 ≠ a / 512 := by
    rwa [ha]
  rw [putSectors, foldl_append, foldl_cons]
  exact (putSectors_of_not_mem hafter).trans (if_pos ha)

/-- A sector that is always written with the same contents holds them. -/
theorem putSectors_mem {lba a : ℕ} {buffer : Bytes} (ha : a / 512 = lba)
    (hmem : (lba, buffer) ∈ writes) (hsame : ∀ write ∈ writes, write.1 = lba → write.2 = buffer) :
    putSectors bytes writes a = buffer (a % 512) := by
  induction writes generalizing bytes with
  | nil => cases hmem
  | cons write writes ih =>
    by_cases hlater : ∃ later ∈ writes, later.1 = lba
    · obtain ⟨later, hin, hlba⟩ := hlater
      have hlater : later = (lba, buffer) := Prod.ext hlba (hsame later (mem_cons_of_mem _ hin) hlba)
      exact ih (hlater ▸ hin) (forall_mem_cons.mp hsame).2
    · rcases mem_cons.mp hmem with rfl | hin
      · exact putSectors_last [] writes lba buffer (fun w hw heq => hlater ⟨w, hw, heq⟩) ha
      · exact absurd ⟨_, hin, rfl⟩ hlater

/-- What a successful format leaves on the drive. -/
theorem exfatWipeAndFormat_ok {u : Unit} (h : exfatWipeAndFormat v = .ok u v') :
    ∃ totalSectors, minTotalSectors ≤ totalSectors ∧ totalSectors ≤ maxTotalSectors ∧
      v'.bytes = putSectors v.bytes (formatWrites totalSectors) ∧
      v'.ataDrive = v.ataDrive := by
  rw [exfatWipeAndFormat, get_bind] at h
  split_ifs at h
  · cases h
  · cases h
  obtain ⟨_, v₁, hwrites, h⟩ := bind_eq_ok h
  obtain ⟨outcomes, rfl⟩ := writeAll_ok hwrites
  cases h
  refine ⟨_, ?_, Nat.min_le_right _ _, Volume.put_bytes v _ outcomes, rfl⟩
  have hmax : minTotalSectors ≤ maxTotalSectors := by decide
  omega

/-!
## The volume after formatting and mounting

The geometry that mounting a freshly formatted drive sets up, and what its root directory
holds: the sector the formatter wrote, followed by whatever the drive held before.
-/

open Volume

/-- The geometry of a mounted volume that this driver formatted. -/
structure Volume.Formatted (v : Volume) : Prop where
  heapOffset : v.clusterHeapOffset = 2048
  perCluster : v.sectorsPerCluster = 8
  root : v.rootCluster = 4
  atLeast : 256 ≤ v.clusterCount
  atMost : v.clusterCount ≤ maxBitmapClusters

/-- The byte address of a cluster on a volume with the formatter's geometry. -/
def clusterBase (cluster : ℕ) : ℕ := 4096 * (cluster + 766)

/-- The contents of a cluster. -/
def clusterAt (bytes : Bytes) (cluster : ℕ) : Bytes := window bytes (clusterBase cluster) 4096

/-- The drive's contents right after formatting a volume of that many sectors. -/
def formatted (bytes : Bytes) (totalSectors : ℕ) : Bytes :=
  putSectors bytes (formatWrites totalSectors)

variable {totalSectors cluster k rc : ℕ}

theorem Volume.Formatted.count_le (hv : v.Formatted) : v.clusterCount ≤ 32768 := hv.atMost

theorem Volume.Formatted.clusterLba (hv : v.Formatted) (hcluster : 2 ≤ cluster)
    (hsmall : cluster < 2 ^ 32) : exfatClusterLba v cluster = 8 * (cluster + 766) := by
  have hsub : (cluster + 2 ^ 32 - 2) % 2 ^ 32 = cluster - 2 := by omega
  rw [exfatClusterLba, hsub, hv.heapOffset, hv.perCluster, partitionLba]
  omega

theorem Volume.Formatted.runLba (hv : v.Formatted) {count : ℕ} (hlow : 2 ≤ cluster)
    (hend : cluster + count ≤ v.clusterCount + 2) : exfatClusterLba v cluster = 8 * (cluster + 766) := by
  have hcount := hv.count_le
  exact hv.clusterLba hlow (by omega)

theorem bootWrites_lba {write : ℕ × Bytes} (h : write ∈ bootWrites totalSectors) : write.1 ≤ 4224 := by
  simp only [bootWrites, partitionLba, mem_append, mem_flatMap, mem_range'_1,
    mem_cons, not_mem_nil, or_false] at h
  rcases h with ((rfl | rfl) | ⟨i, hi, rfl | rfl⟩) | rfl | rfl | rfl <;> dsimp only <;> omega

section

variable (htotal : totalSectors ≤ maxTotalSectors)
include htotal

theorem bitmapWrites_lba {write : ℕ × Bytes}
    (h : write ∈ bitmapWrites (formatClusters totalSectors)) : 6144 ≤ write.1 ∧ write.1 < 6152 := by
  obtain ⟨i, hi, rfl⟩ := mem_map.mp h
  rw [mem_range] at hi
  simp only [formatClusters, maxTotalSectors, maxBitmapClusters, partitionLba] at *
  omega

/-- The formatter writes no sector behind the first one of the root cluster. -/
theorem formatWrites_lba {write : ℕ × Bytes} (h : write ∈ formatWrites totalSectors) : write.1 ≤ 6160 := by
  rw [formatWrites, mem_append, mem_append] at h
  rcases h with (hboot | hbitmap) | hlast
  · have hlba := bootWrites_lba hboot
    omega
  · have hlba := bitmapWrites_lba htotal hbitmap
    omega
  · rw [partitionLba] at hlast
    rcases mem_pair.mp hlast with rfl | rfl <;> dsimp only <;> omega

/-- The root cluster is only written in its first sector. -/
theorem formatted_root (hk : k < 4096) : clusterAt (formatted bytes totalSectors) 4 k =
      if k < 512 then rootSector (formatClusters totalSectors) k else clusterAt bytes 4 k := by
  unfold clusterAt window clusterBase
  split_ifs
  · have hoffset : (4096 * (4 + 766) + k) % 512 = k := by omega
    rw [formatted, formatWrites, append_cons, putSectors_last _ [] _ _ (by simp), hoffset]
    rw [partitionLba]
    omega
  · apply putSectors_of_not_mem
    intro write hwrite
    have hlba := formatWrites_lba htotal hwrite
    omega

/-- The boot sector survives the rest of the format. -/
theorem formatted_boot :
    ∃ fatLength, ∀ k < 512, sectorAt (formatted bytes totalSectors) partitionLba k =
      bootSector totalSectors fatLength (formatClusters totalSectors) k := by
  refine ⟨((formatClusters totalSectors + 2) * 4 + 511) / 512, fun k hk => ?_⟩
  have hsector : (512 * partitionLba + k) / 512 = partitionLba := by omega
  have hoffset : (512 * partitionLba + k) % 512 = k := by omega
  unfold sectorAt formatted formatWrites bootWrites
  simp only [cons_append, nil_append, append_assoc]
  refine (putSectors_last [] _ _ _ ?_ hsector).trans (by rw [hoffset])
  intro write hwrite
  simp only [partitionLba, mem_append, mem_flatMap, mem_range'_1, mem_cons, not_mem_nil, or_false] at hwrite ⊢
  rcases hwrite with rfl | ⟨i, hi, rfl | rfl⟩ | rfl | rfl | rfl | hbitmap | rfl | rfl
  all_goals try dsimp only <;> omega
  have hlba := bitmapWrites_lba htotal hbitmap
  omega

end

/-- The fields of the boot sector that mounting reads. -/
theorem bootSector_fields {sector : Bytes} {fatLength clusterCount : ℕ} (hcount : clusterCount < 2 ^ 32)
    (hboot : ∀ k < 512, sector k = bootSector totalSectors fatLength clusterCount k) :
    field sector 3 8 = fsName ∧ field sector 108 1 = 9 ∧ field sector 109 1 = 3 ∧
      field sector 88 4 = 2048 ∧ field sector 96 4 = 4 ∧ field sector 92 4 = clusterCount := by
  have hfield (offset width : ℕ) (hend : offset + width ≤ 512) :
      field sector offset width = field (bootSector totalSectors fatLength clusterCount) offset width :=
    field_congr fun i hi => hboot (offset + i) (by omega)
  have hmod : clusterCount % 4294967296 = clusterCount := Nat.mod_eq_of_lt hcount
  simp (disch := decide) only [hfield, bootSector, layout, foldl_cons, foldl_nil,
    field_putField_of_disjoint, field_putField_self]
  simp [fsName, hmod]

/-- The state after a drive has been formatted and mounted: `before` is what the drive held. -/
structure Volume.Fresh (v : Volume) (before : Bytes) (totalSectors : ℕ) : Prop
    extends v.Formatted where
  total : totalSectors ≤ maxTotalSectors
  contents : v.bytes = formatted before totalSectors
  count : v.clusterCount = formatClusters totalSectors
  cluster : v.currentCluster = 4
  path : v.currentPath = rootPath
  present : (v.drives v.ataDrive).present = true

/-- The globals that mounting a freshly formatted volume sets. -/
def Volume.mounted (v : Volume) (clusterCount : ℕ) : Volume :=
  { v with
    clusterHeapOffset := 2048
    sectorsPerCluster := 8
    rootCluster := 4
    clusterCount := clusterCount
    currentCluster := 4
    currentPath := rootPath }

section

variable (hmin : minTotalSectors ≤ totalSectors) (hmax : totalSectors ≤ maxTotalSectors)
include hmin hmax

theorem formatClusters_bounds :
    256 ≤ formatClusters totalSectors ∧ formatClusters totalSectors ≤ maxBitmapClusters := by
  simp only [formatClusters, minTotalSectors, maxTotalSectors, maxBitmapClusters] at *
  omega

/-- Mounting a drive right after formatting it succeeds if the boot sector can be read. -/
theorem exfatMount_formatted {sector : Bytes} {v₁ : Volume} (hbytes : v.bytes = formatted bytes totalSectors)
    (hread : exfatSectorRead partitionLba v = .ok sector v₁) :
    exfatMount v = .ok 1 (v₁.mounted (formatClusters totalSectors)) := by
  obtain ⟨rfl, -⟩ := exfatSectorRead_ok hread
  obtain ⟨fatLength, hboot⟩ := formatted_boot hmax
  rw [← hbytes] at hboot
  have hcount := formatClusters_bounds hmin hmax
  have hsmall : formatClusters totalSectors < 2 ^ 32 := hcount.2.trans_lt (by decide)
  obtain ⟨hname, hshift, hper, hheap, hroot, hclusters⟩ := bootSector_fields hsmall hboot
  rw [exfatMount, bind_ok hread, hname, hshift, hper, hheap, hroot, hclusters, if_neg (by simp),
    if_neg (by omega), modify_bind, pure_run, min_eq_left hcount.2]
  rfl

/-- A volume mounted right after formatting is fresh. -/
theorem Volume.fresh_mounted (hbytes : v.bytes = formatted bytes totalSectors)
    (hpresent : (v.drives v.ataDrive).present = true) :
    (v.mounted (formatClusters totalSectors)).Fresh bytes totalSectors where
  heapOffset := rfl
  perCluster := rfl
  root := rfl
  atLeast := (formatClusters_bounds hmin hmax).1
  atMost := (formatClusters_bounds hmin hmax).2
  total := hmax
  contents := hbytes
  count := rfl
  cluster := rfl
  path := rfl
  present := hpresent

end

/-- A format and the mount that follows it leave a fresh volume. -/
theorem fresh_of_format_mount {v₁ : Volume} (hformat : exfatWipeAndFormat v = .ok () v₁)
    (hmount : exfatMount v₁ = .ok rc v') :
    ∃ totalSectors, rc = 1 ∧ v'.Fresh v.bytes totalSectors := by
  obtain ⟨totalSectors, hmin, hmax, hbytes, -⟩ := exfatWipeAndFormat_ok hformat
  obtain ⟨sector, v₂, hread, -⟩ := bind_eq_ok hmount
  rw [exfatMount_formatted hmin hmax hbytes hread] at hmount
  cases hmount
  have hpresent := (exfatSectorRead_accepts hread).2
  obtain ⟨-, rfl⟩ := exfatSectorRead_ok hread
  refine ⟨totalSectors, rfl, fresh_mounted hmin hmax ?_ ?_⟩
  · rwa [put_bytes]
  · simpa [put] using hpresent

theorem rootSector_no_file (clusterCount : ℕ) (hk : k < 16) : rootSector clusterCount (32 * k) ≠ typeFile := by
  unfold rootSector layout
  interval_cases k <;> simp [putField, byteAt, typeFile]

section

variable (hv : v.Fresh bytes totalSectors)
include hv

/-- Where the root directory of a fresh volume holds file entries. -/
theorem Volume.Fresh.root_entries : (∀ k ≤ 125, clusterAt v.bytes 4 (32 * k) ≠ typeFile) ↔
      ∀ k, 16 ≤ k → k ≤ 125 → clusterAt bytes 4 (32 * k) ≠ typeFile := by
  rw [hv.contents]
  constructor
  · intro hfree k hlow hk
    have hslot := hfree k hk
    rwa [formatted_root hv.total (by omega), if_neg (by omega)] at hslot
  · intro hfree k hk
    rw [formatted_root hv.total (by omega)]
    split_ifs
    · exact rootSector_no_file _ (by omega)
    · exact hfree k (by omega) hk

/-- The volume is empty: no name resolves and the listing shows none, whichever sector
operations fail. -/
def Volume.Empty (v : Volume) : Prop :=
  (∀ outcomes name, (∀ c ∈ name, c ≠ 0) →
    ∃ e v', exfatResolveEntry name { v with outcomes := outcomes } = .error e v') ∧
  ∀ outcomes names v', exfatListEntries { v with outcomes := outcomes } = .ok names v' → names = []

theorem Volume.Fresh.directory : v.directory = clusterAt v.bytes 4 := by
  rw [Volume.directory, hv.cluster, hv.clusterLba (by decide) (by decide)]
  rfl

/-- The directory listing of a fresh volume stops at the first entry behind the formatter's. -/
theorem Volume.Fresh.list_empty : listScan v.directory true 126 0 = [] := by
  have hslot (k : ℕ) (hk : k < 512) : v.directory k = rootSector (formatClusters totalSectors) k := by
    rw [hv.directory, hv.contents, formatted_root hv.total (by omega), if_pos hk]
  have h0 : v.directory 0 = 0x81 := by
    rw [hslot 0 (by decide)]
    simp [rootSector, layout, putField, byteAt]
  have h1 : v.directory 32 = 0x82 := by
    rw [hslot 32 (by decide)]
    simp [rootSector, layout, putField, byteAt]
  have h2 : v.directory 64 = 0 := by
    rw [hslot 64 (by decide)]
    simp [rootSector, layout, putField]
  simp [listScan, h0, h1, h2, typeFile]

/-- A fresh volume is empty exactly when the drive held no file entry in the sectors of the
root cluster that the formatter does not write. -/
theorem Volume.Fresh.empty_iff : v.Empty ↔ ∀ k, 16 ≤ k → k ≤ 125 → clusterAt bytes 4 (32 * k) ≠ typeFile := by
  rw [← hv.root_entries, ← hv.directory, ← resolveScan_none_iff]
  constructor
  · intro hempty name hclean
    obtain ⟨e, v', hfail⟩ := hempty.1 [] name hclean
    rw [exfatResolveEntry_quiet rfl ?_] at hfail
    · have hsame : ({ v with outcomes := [] } : Volume).directory = v.directory := rfl
      rw [hsame] at hfail
      cases hscan : resolveScan v.directory name 126 0 with
      | none => rfl
      | some i =>
        rw [hscan] at hfail
        cases hfail
    · intro s hs
      refine ⟨?_, hv.present⟩
      change exfatClusterLba v v.currentCluster + s < lbaLimit
      rw [hv.cluster, hv.clusterLba (by decide) (by decide), lbaLimit]
      omega
  · intro hnone
    refine ⟨fun outcomes name hclean => ?_, fun outcomes names v' hlist => ?_⟩
    · cases hresolve : exfatResolveEntry name { v with outcomes := outcomes } with
      | error e v' => exact ⟨e, v', rfl⟩
      | ok target v' =>
        obtain ⟨i, _, hscan, -⟩ := exfatResolveEntry_ok hresolve
        exact absurd (hscan.symm.trans (hnone name hclean)) (Option.some_ne_none i)
    · exact (exfatListEntriesImpl_ok hlist).1.trans hv.list_empty

end

/-- On a drive that is large enough and has no failures to come, formatting and mounting succeed. -/
theorem format_mount_quiet (hquiet : v.outcomes = []) (hpresent : (v.drives v.ataDrive).present = true)
    (hsize : partitionLba + minTotalSectors ≤ (v.drives v.ataDrive).sectorCount) :
    ∃ v₁ v₂ totalSectors, exfatWipeAndFormat v = .ok () v₁ ∧ exfatMount v₁ = .ok 1 v₂ ∧
      v₂.outcomes = [] ∧ v₂.Fresh v.bytes totalSectors := by
  obtain ⟨v₁, hformat⟩ : ∃ v₁, exfatWipeAndFormat v = .ok () v₁ ∧ v₁.outcomes = [] ∧
      (v₁.drives v₁.ataDrive).present = true := by
    rw [partitionLba, minTotalSectors] at hsize
    have hlarge : ¬ (v.drives v.ataDrive).sectorCount ≤ partitionLba := by
      rw [partitionLba]
      omega
    have henough : ¬ (v.drives v.ataDrive).sectorCount - partitionLba < minTotalSectors := by
      rw [partitionLba, minTotalSectors]
      omega
    have hwrites := writeAll_quiet (formatWrites
      (min ((v.drives v.ataDrive).sectorCount - partitionLba) maxTotalSectors)) hquiet ?_
    · rw [exfatWipeAndFormat, get_bind, if_neg hlarge, if_neg henough]
      exact ⟨_, bind_ok hwrites, rfl, by simpa [put] using hpresent⟩
    · intro write hwrite
      have hlba := formatWrites_lba (min_le_right _ _) hwrite
      exact ⟨hlba.trans_lt (by decide), hpresent⟩
  obtain ⟨hformat, hquiet₁, hpresent₁⟩ := hformat
  obtain ⟨totalSectors, hmin, hmax, hbytes, -⟩ := exfatWipeAndFormat_ok hformat
  have hmount := exfatMount_formatted hmin hmax hbytes (exfatSectorRead_quiet hquiet₁ ⟨by decide, hpresent₁⟩)
  exact ⟨v₁, _, totalSectors, hformat, hmount, hquiet₁, fresh_mounted hmin hmax hbytes hpresent₁⟩

/-- The drives at power-on: both present with 8192 sectors and the same contents. -/
def powerOn (bytes : Bytes) : Volume where
  drives := fun _ => ⟨bytes, true, 8192, fun _ => 0⟩
  ataDrive := 0
  outcomes := []
  currentCluster := 4
  currentPath := rootPath
  clusterHeapOffset := 2048
  sectorsPerCluster := 8
  rootCluster := 4
  clusterCount := 261888

/-- After a successful format and mount the volume is empty exactly when the drive held no
file entry in the seven sectors of the root cluster that the formatter does not write. -/
theorem format_mount_empty_iff (v v₁ v₂ : Volume) (rc : ℕ)
    (hformat : exfatWipeAndFormat v = .ok () v₁) (hmount : exfatMount v₁ = .ok rc v₂) :
    v₂.Empty ↔ ∀ k, 16 ≤ k → k ≤ 125 → clusterAt v.bytes 4 (32 * k) ≠ typeFile := by
  obtain ⟨totalSectors, -, hv⟩ := fresh_of_format_mount hformat hmount
  exact hv.empty_iff

/-- A drive full of old bytes that start no entry set is empty after formatting and mounting. -/
theorem format_mount_empty_worn :
    ∃ v₁ v₂, exfatWipeAndFormat (powerOn fun _ => 0xE5) = .ok () v₁ ∧ exfatMount v₁ = .ok 1 v₂ ∧
      v₂.Empty := by
  obtain ⟨v₁, v₂, _, hformat, hmount, -⟩ := format_mount_quiet (v := powerOn fun _ => 0xE5) rfl rfl (by decide)
  refine ⟨v₁, v₂, hformat, hmount, (format_mount_empty_iff _ _ _ _ hformat hmount).mpr ?_⟩
  intro k _ _
  simp only [clusterAt, window, powerOn, Volume.bytes]
  split_ifs <;> decide

/-- An old entry set for a file `x` in the second sector of the root cluster. -/
def staleBytes : Bytes := fun a =>
  if a < clusterBase 4 + 512 then 0
  else layout [(0, 1, 0x85), (1, 1, 2), (32, 1, 0xC0), (64, 1, 0xC1), (66, 1, 0x78)]
    (a - (clusterBase 4 + 512))

/-- The old entry set survives formatting and mounting: the volume is not empty. -/
theorem stale_entry_survives_format :
    ∃ v₁ v₂, exfatWipeAndFormat (powerOn staleBytes) = .ok () v₁ ∧ exfatMount v₁ = .ok 1 v₂ ∧
      ¬ v₂.Empty := by
  obtain ⟨v₁, v₂, _, hformat, hmount, -, hv⟩ := format_mount_quiet (v := powerOn staleBytes) rfl rfl (by decide)
  refine ⟨v₁, v₂, hformat, hmount, fun hempty => ?_⟩
  exact hv.empty_iff.mp hempty 16 (by decide) (by decide) (by decide)

/-!
## The layout of a formatted drive

The regions of a volume that this driver has formatted, for every size of the drive: the boot
sectors, the allocation table, the bitmap, the upcase table and the root directory do not meet, the
bitmap fits in its cluster, and every cluster the bitmap counts lies inside the drive.
-/

/-- `total_sectors` of the formatter on a drive of that many sectors. -/
def formatTotal (driveSectors : ℕ) : ℕ := min (driveSectors - partitionLba) maxTotalSectors

/-- `fat_len` of the formatter. -/
def fatLength (clusterCount : ℕ) : ℕ := ((clusterCount + 2) * 4 + 511) / 512

/-- The parts of a formatted volume. -/
inductive Region
  | boot
  | fat
  | bitmap
  | upcase
  | root
  deriving DecidableEq

/-- The eight sectors of a cluster. -/
def Volume.clusterSectors (v : Volume) (cluster : ℕ) : Set ℕ :=
  Set.Ico (exfatClusterLba v cluster) (exfatClusterLba v cluster + 8)

/-- The sectors of a region: the boot sectors with their backup, the table with the length
that the formatter computes, and the clusters 2, 3 and 4. -/
def Volume.regionSectors (v : Volume) : Region → Set ℕ
  | .boot => Set.Ico partitionLba (partitionLba + 24)
  | .fat => Set.Ico (partitionLba + 128) (partitionLba + 128 + fatLength v.clusterCount)
  | .bitmap => v.clusterSectors 2
  | .upcase => v.clusterSectors 3
  | .root => v.clusterSectors 4

variable {v₁ v₂ : Volume}

/-- A successful format has used the size of the drive up to the cap. -/
theorem format_total (h : exfatWipeAndFormat v = .ok () v₁) :
    partitionLba + formatTotal (v.drives v.ataDrive).sectorCount ≤ (v.drives v.ataDrive).sectorCount ∧
      minTotalSectors ≤ formatTotal (v.drives v.ataDrive).sectorCount ∧
      v₁.bytes = formatted v.bytes (formatTotal (v.drives v.ataDrive).sectorCount) := by
  rw [exfatWipeAndFormat, get_bind] at h
  split_ifs at h
  · cases h
  · cases h
  obtain ⟨_, w, hwrites, h⟩ := bind_eq_ok h
  obtain ⟨outcomes, rfl⟩ := writeAll_ok hwrites
  cases h
  have hmax : minTotalSectors ≤ maxTotalSectors := by decide
  unfold formatTotal
  exact ⟨by omega, by omega, Volume.put_bytes v _ outcomes⟩

namespace Volume.Formatted

variable (hv : v.Formatted)
include hv

/-- The regions follow one another. -/
theorem region_bounds (r : Region) : v.regionSectors r ⊆
    match r with
    | .boot => Set.Ico 4096 4120
    | .fat => Set.Ico 4224 6144
    | .bitmap => Set.Ico 6144 6152
    | .upcase => Set.Ico 6152 6160
    | .root => Set.Ico 6160 6168 := by
  have hmost := hv.count_le
  have hlba {c : ℕ} (hlow : 2 ≤ c) (hhigh : c < 2 ^ 32) := hv.clusterLba hlow hhigh
  cases r with
  | boot => exact subset_rfl
  | fat =>
    refine Set.Ico_subset_Ico le_rfl ?_
    rw [partitionLba, fatLength]
    omega
  | bitmap | upcase | root => rw [regionSectors, clusterSectors, hlba (by decide) (by decide)]

theorem regions_disjoint {r r' : Region} (hne : r ≠ r') : Disjoint (v.regionSectors r) (v.regionSectors r') := by
  refine Set.disjoint_of_subset (hv.region_bounds r) (hv.region_bounds r') ?_
  rw [Set.disjoint_left]
  cases r <;> cases r' <;> simp only [ne_eq, not_true_eq_false] at hne <;>
    rintro x ⟨hlow, hhigh⟩ ⟨hlow', hhigh'⟩ <;> omega

end Volume.Formatted

/-- After a successful format, the mount that follows returns 1 with the geometry that the formatter
computed, the regions of the volume are disjoint, the bitmap fits in cluster 2, and all clusters lie
inside the drive. -/
theorem format_mount_geometry (v v₁ v₂ : Volume) (sector : Bytes)
    (hformat : exfatWipeAndFormat v = .ok () v₁)
    (hread : exfatSectorRead partitionLba v₁ = .ok sector v₂) :
    let clusterCount := formatClusters (formatTotal (v.drives v.ataDrive).sectorCount)
    let w := v₂.mounted clusterCount
    exfatMount v₁ = .ok 1 w ∧ (∀ r r', r ≠ r' → Disjoint (w.regionSectors r) (w.regionSectors r')) ∧
      (clusterCount + 7) / 8 ≤ 4096 ∧ (∀ s < (clusterCount + 4095) / 4096,
        exfatClusterLba w 2 + s ∈ w.clusterSectors 2) ∧
      ∀ c, 2 ≤ c → c ≤ clusterCount + 1 → ∀ s < 8,
        exfatClusterLba w c + s < (v.drives v.ataDrive).sectorCount := by
  obtain ⟨hinside, hmin, hbytes⟩ := format_total hformat
  have hmax : formatTotal (v.drives v.ataDrive).sectorCount ≤ maxTotalSectors := min_le_right _ _
  have hcount := formatClusters_bounds hmin hmax
  have hformatted : (v₂.mounted (formatClusters (formatTotal (v.drives v.ataDrive).sectorCount))).Formatted :=
    ⟨rfl, rfl, rfl, hcount.1, hcount.2⟩
  rw [maxBitmapClusters] at hcount
  refine ⟨exfatMount_formatted hmin hmax hbytes hread, fun r r' => hformatted.regions_disjoint, by omega,
    fun s hs => ⟨le_self_add, by omega⟩, fun c hlow hhigh s hs => ?_⟩
  have hlba := hformatted.clusterLba hlow (by omega)
  rw [partitionLba] at hinside
  rw [formatClusters] at hhigh hcount
  omega

/-- The smallest drive that can be formatted has 256 clusters, all of them inside. -/
theorem format_mount_geometry_power_on :
    ∃ v₁ v₂, exfatWipeAndFormat (powerOn fun _ => 0) = .ok () v₁ ∧ exfatMount v₁ = .ok 1 v₂ ∧
      v₂.clusterCount = 256 ∧ ∀ c, 2 ≤ c → c ≤ 257 → ∀ s < 8, exfatClusterLba v₂ c + s < 8192 := by
  obtain ⟨v₁, v₂, -, hformat, hmount, -⟩ := format_mount_quiet (v := powerOn fun _ => 0) rfl rfl (by decide)
  obtain ⟨sector, w, hread, -⟩ := bind_eq_ok hmount
  obtain ⟨hgeometry, -, -, -, hinside⟩ := format_mount_geometry _ _ _ _ hformat hread
  rw [hmount] at hgeometry
  cases hgeometry
  exact ⟨v₁, _, hformat, hmount, rfl, hinside⟩

end Windoge.Exfat
