import Windoge.Lib.Flow
import Windoge.Lib.LittleEndian

/-!
# Drives, sectors and the state of a mounted volume

The state behind `exfat.c` and `ata.c`: the contents of the two drives byte by byte, the
drive that is selected, and the globals of the mounted volume. Sector operations may fail;
the state holds the outcomes of the coming ones, and an empty list means that all succeed.
A failed write may or may not have reached the disk. The port-level protocol of the ATA
controller and the log messages are not modelled.
-/

namespace Windoge.Exfat

open Windoge.Flow EStateM.Result

/-- Bytes by their offset, in a buffer or on a drive. -/
abbrev Bytes := ℕ → UInt8

/-- What happens to one sector operation. -/
inductive SectorOutcome
  | done
  | failed (stored : Bool)

/-- A drive as the ATA driver knows it, and what stands in memory behind a buffer that has received one
of its sectors. -/
structure Drive where
  bytes : Bytes
  present : Bool
  sectorCount : ℕ
  behind : Bytes

instance neZero_drives : NeZero 2 := ⟨by decide⟩

/-- The drives and the globals of the mounted exFAT volume. -/
structure Volume where
  drives : Fin 2 → Drive
  ataDrive : Fin 2
  outcomes : List SectorOutcome
  currentCluster : ℕ
  currentPath : List UInt8
  clusterHeapOffset : ℕ
  sectorsPerCluster : ℕ
  rootCluster : ℕ
  clusterCount : ℕ

/-- Why a function ends early: it returns a code, or its behaviour is undefined in C. -/
inductive Stop
  | code (rc : ℤ)
  | undefined
  deriving DecidableEq

/-- A function of the driver. -/
abbrev Driver := EStateM Stop Volume

/-- The contents of the selected drive. -/
def Volume.bytes (v : Volume) : Bytes := (v.drives v.ataDrive).bytes

/-- What stands behind a buffer with a sector of the selected drive. -/
def Volume.behind (v : Volume) : Bytes := (v.drives v.ataDrive).behind

/-- The volume with other contents on the selected drive and other outcomes to come. -/
def Volume.put (v : Volume) (bytes : Bytes) (outcomes : List SectorOutcome) : Volume :=
  { v with
    drives := Function.update v.drives v.ataDrive { v.drives v.ataDrive with bytes := bytes }
    outcomes := outcomes }

/-- `EXFAT_PARTITION_LBA`. -/
def partitionLba : ℕ := 4096

/-- The first sector address beyond 48 bits. -/
def lbaLimit : ℕ := 2 ^ 48

/-- The contents of one sector. -/
def sectorAt (bytes : Bytes) (lba : ℕ) : Bytes := fun k => bytes (512 * lba + k)

/-- The contents of a drive after one sector has been stored. -/
def putSector (bytes : Bytes) (lba : ℕ) (buffer : Bytes) : Bytes :=
  fun a => if a / 512 = lba then buffer (a % 512) else bytes a

/-- The part of a drive that a buffer of that size receives. -/
def window (bytes : Bytes) (base size : ℕ) : Bytes :=
  fun k => if k < size then bytes (base + k) else 0

/-- Whether the driver attempts an operation on the sector at all. -/
def Volume.Accepts (v : Volume) (lba : ℕ) : Prop :=
  lba < lbaLimit ∧ (v.drives v.ataDrive).present = true

instance (v : Volume) (lba : ℕ) : Decidable (v.Accepts lba) := by
  unfold Volume.Accepts
  infer_instance

/-- `exfat_sector_read`. -/
def exfatSectorRead (lba : ℕ) : Driver Bytes := fun v =>
  if v.Accepts lba then
    match v.outcomes.headD .done with
    | .done => .ok (sectorAt v.bytes lba) (v.put v.bytes v.outcomes.tail)
    | .failed _ => .error (.code (-1)) (v.put v.bytes v.outcomes.tail)
  else .error (.code (-1)) v

/-- `exfat_sector_write`. -/
def exfatSectorWrite (lba : ℕ) (buffer : Bytes) : Driver Unit := fun v =>
  if v.Accepts lba then
    match v.outcomes.headD .done with
    | .done => .ok () (v.put (putSector v.bytes lba buffer) v.outcomes.tail)
    | .failed stored =>
      .error (.code (-1))
        (v.put (if stored then putSector v.bytes lba buffer else v.bytes) v.outcomes.tail)
  else .error (.code (-1)) v

/-- `exfat_cluster_lba`; the first sum and the subtraction are on 32 bits. -/
def exfatClusterLba (v : Volume) (cluster : ℕ) : ℕ :=
  (partitionLba + v.clusterHeapOffset) % 2 ^ 32 + (cluster + 2 ^ 32 - 2) % 2 ^ 32 * v.sectorsPerCluster

/-- Read consecutive sectors into a buffer. -/
def readSectors (lba : ℕ) : ℕ → Driver Bytes
  | 0 => pure fun _ => 0
  | count + 1 => do
    let buffer ← readSectors lba count
    let sector ← exfatSectorRead (lba + count)
    pure fun k => if k / 512 = count then sector (k % 512) else buffer k

section Put

variable (v : Volume) (bytes bytes' : Bytes) (outcomes outcomes' : List SectorOutcome)

@[simp] theorem Volume.put_bytes : (v.put bytes outcomes).bytes = bytes := by
  simp [Volume.put, Volume.bytes]

@[simp] theorem Volume.put_put : (v.put bytes outcomes).put bytes' outcomes' = v.put bytes' outcomes' := by
  simp [Volume.put]

@[simp] theorem Volume.put_outcomes : (v.put bytes outcomes).outcomes = outcomes := rfl

@[simp] theorem Volume.put_self : v.put v.bytes v.outcomes = v := by
  simp [Volume.put, Volume.bytes]

theorem Volume.put_bytes_eq : v.put v.bytes outcomes = { v with outcomes := outcomes } := by
  simp [Volume.put, Volume.bytes]

@[simp] theorem Volume.put_accepts (lba : ℕ) : (v.put bytes outcomes).Accepts lba ↔ v.Accepts lba := by
  simp [Volume.Accepts, Volume.put]

@[simp] theorem Volume.put_behind : (v.put bytes outcomes).behind = v.behind := by
  simp [Volume.behind, Volume.put]

@[simp] theorem exfatClusterLba_put (cluster : ℕ) :
    exfatClusterLba (v.put bytes outcomes) cluster = exfatClusterLba v cluster := rfl

end Put

variable {v v' : Volume} {lba : ℕ} {buffer : Bytes}

theorem exfatSectorRead_ok (h : exfatSectorRead lba v = .ok buffer v') :
    buffer = sectorAt v.bytes lba ∧ v' = v.put v.bytes v.outcomes.tail := by
  unfold exfatSectorRead at h
  split_ifs at h
  cases hnext : v.outcomes.headD .done with
  | done =>
    rw [hnext] at h
    cases h
    exact ⟨rfl, rfl⟩
  | failed stored =>
    rw [hnext] at h
    cases h

theorem exfatSectorRead_accepts (h : exfatSectorRead lba v = .ok buffer v') : v.Accepts lba := by
  by_contra hrejected
  rw [exfatSectorRead, if_neg hrejected] at h
  cases h

theorem exfatSectorWrite_ok {u : Unit} (h : exfatSectorWrite lba buffer v = .ok u v') :
    v' = v.put (putSector v.bytes lba buffer) v.outcomes.tail := by
  unfold exfatSectorWrite at h
  split_ifs at h
  cases hnext : v.outcomes.headD .done with
  | done =>
    rw [hnext] at h
    cases h
    rfl
  | failed stored =>
    rw [hnext] at h
    cases h

theorem exfatSectorRead_final : ∃ outcomes, finalState (exfatSectorRead lba v) = v.put v.bytes outcomes := by
  unfold exfatSectorRead
  split_ifs
  · cases v.outcomes.headD .done <;> exact ⟨_, rfl⟩
  · exact ⟨v.outcomes, v.put_self.symm⟩

/-- A sector write stores the sector or leaves the drive alone. -/
theorem exfatSectorWrite_final : ∃ outcomes, finalState (exfatSectorWrite lba buffer v) = v.put v.bytes outcomes ∨
      finalState (exfatSectorWrite lba buffer v) = v.put (putSector v.bytes lba buffer) outcomes := by
  unfold exfatSectorWrite
  split_ifs
  · cases v.outcomes.headD .done with
    | done => exact ⟨_, .inr rfl⟩
    | failed stored =>
      cases stored with
      | false => exact ⟨_, .inl rfl⟩
      | true => exact ⟨_, .inr rfl⟩
  · exact ⟨v.outcomes, .inl v.put_self.symm⟩

theorem exfatSectorRead_quiet (hquiet : v.outcomes = []) (haccepts : v.Accepts lba) :
    exfatSectorRead lba v = .ok (sectorAt v.bytes lba) v := by
  have hput := v.put_self
  rw [hquiet] at hput
  simp [exfatSectorRead, haccepts, hquiet, hput]

theorem exfatSectorWrite_quiet (hquiet : v.outcomes = []) (haccepts : v.Accepts lba) :
    exfatSectorWrite lba buffer v = .ok () (v.put (putSector v.bytes lba buffer) []) := by
  simp [exfatSectorWrite, haccepts, hquiet]

/-- One more sector extends a buffer. -/
theorem window_succ (bytes : Bytes) (lba count : ℕ) :
    (fun k => if k / 512 = count then sectorAt bytes (lba + count) (k % 512)
      else window bytes (512 * lba) (512 * count) k) =
    window bytes (512 * lba) (512 * (count + 1)) := by
  funext k
  unfold window sectorAt
  by_cases hlast : k / 512 = count
  · have hoffset : 512 * (lba + count) + k % 512 = 512 * lba + k := by omega
    rw [if_pos hlast, if_pos (by omega), hoffset]
  · have hlt : k < 512 * (count + 1) ↔ k < 512 * count := by omega
    rw [if_neg hlast]
    simp only [hlt]

/-- Reading consecutive sectors gives the stored bytes. -/
theorem readSectors_ok {count : ℕ} (h : readSectors lba count v = .ok buffer v') :
    buffer = window v.bytes (512 * lba) (512 * count) ∧ ∃ outcomes, v' = v.put v.bytes outcomes := by
  induction count generalizing buffer v' with
  | zero =>
    cases h
    exact ⟨rfl, v.outcomes, v.put_self.symm⟩
  | succ count ih =>
    obtain ⟨first, v₁, hfirst, h⟩ := bind_eq_ok h
    obtain ⟨sector, v₂, hsector, h⟩ := bind_eq_ok h
    cases h
    obtain ⟨rfl, outcomes, rfl⟩ := ih hfirst
    obtain ⟨rfl, rfl⟩ := exfatSectorRead_ok hsector
    rw [Volume.put_bytes]
    exact ⟨window_succ v.bytes lba count, outcomes.tail, by simp⟩

/-- Without failures to come reading consecutive sectors succeeds. -/
theorem readSectors_quiet {count : ℕ} (hquiet : v.outcomes = []) (haccepts : ∀ i < count, v.Accepts (lba + i)) :
    readSectors lba count v = .ok (window v.bytes (512 * lba) (512 * count)) v := by
  induction count with
  | zero => rfl
  | succ count ih =>
    have hfirst := ih fun i hi => haccepts i (by omega)
    have hsector := exfatSectorRead_quiet hquiet (haccepts count (by omega))
    rw [readSectors, bind_ok hfirst, bind_ok hsector, pure_run, window_succ]

/-!
## Directory entries

A directory is one cluster of 128 entries of 32 bytes. A file or directory is an entry set:
a file entry (type 0x85), a stream entry (0xC0) and name entries (0xC1) that follow it
without a gap. This module reads the fields of an entry set, decodes its name, compares
names the way the driver does and computes the set checksum and the name hash.
-/

open LittleEndian List

/-- `EXFAT_TYPE_FILE`. -/
def typeFile : UInt8 := 0x85

/-- `EXFAT_TYPE_STREAM`. -/
def typeStream : UInt8 := 0xC0

/-- `EXFAT_TYPE_NAME`. -/
def typeName : UInt8 := 0xC1

/-- A little-endian field of a buffer. -/
def field (buffer : Bytes) (offset width : ℕ) : ℕ :=
  decode ((List.range width).map fun i => buffer (offset + i))

/-- The buffer after a little-endian field has been stored. -/
def putField (buffer : Bytes) (offset width n : ℕ) : Bytes := fun k =>
  if offset ≤ k ∧ k < offset + width then byteAt n (k - offset) else buffer k

/-- `secondary_count` of the file entry at an offset. -/
def secondaryCount (buffer : Bytes) (offset : ℕ) : ℕ := (buffer (offset + 1)).toNat

/-- `set_checksum` of the file entry at an offset. -/
def setChecksum (buffer : Bytes) (offset : ℕ) : ℕ := field buffer (offset + 2) 2

/-- Whether the attributes of the file entry at an offset mark a directory. -/
def isDirectory (buffer : Bytes) (offset : ℕ) : Bool :=
  field buffer (offset + 4) 2 &&& 0x10 ≠ 0

/-- `first_cluster` of the stream entry behind the file entry at an offset. -/
def firstCluster (buffer : Bytes) (offset : ℕ) : ℕ := field buffer (offset + 52) 4

/-- `data_length` of the stream entry behind the file entry at an offset. -/
def dataLength (buffer : Bytes) (offset : ℕ) : ℕ := field buffer (offset + 56) 8

/-- The fifteen code units of the name entry at an offset. -/
def nameUnits (buffer : Bytes) (offset : ℕ) : List ℕ :=
  (List.range 15).map fun c => field buffer (offset + 2 + 2 * c) 2

/-- The name entries that the name of the set at an offset is read from. -/
def nameOffsets (buffer : Bytes) (offset : ℕ) : List ℕ :=
  (((List.range' 2 (secondaryCount buffer offset - 1)).map fun sec => offset + 32 * sec).takeWhile
    fun entry => entry < 4096).filter fun entry => buffer entry = typeName

/-- The name that `exfat_resolve_entry` reads for the set at an offset, as a C string. -/
def entryName (buffer : Bytes) (offset : ℕ) : List UInt8 :=
  (((nameOffsets buffer offset).flatMap fun entry =>
    ((nameUnits buffer entry).takeWhile (· ≠ 0)).map UInt8.ofNat).take 255).takeWhile (· ≠ 0)

/-- The case folding of `exfat_name_equal`. -/
def lowerCase (c : UInt8) : UInt8 := if 65 ≤ c ∧ c ≤ 90 then c - 65 + 97 else c

/-- `exfat_name_equal`. -/
def exfatNameEqual : List UInt8 → List UInt8 → Bool
  | [], [] => true
  | left :: lefts, right :: rights =>
    if lowerCase left ≠ lowerCase right then false else exfatNameEqual lefts rights
  | _, _ => false

/-- One round of the 16-bit rotating checksums. -/
def rotateAdd (crc byte : ℕ) : ℕ :=
  ((if crc % 2 = 1 then 0x8000 else 0) + crc / 2 + byte) % 2 ^ 16

/-- `exfat_calc_entry_crc` over `count` entries of a buffer from an offset on. -/
def exfatCalcEntryCrc (buffer : Bytes) (offset count : ℕ) : ℕ :=
  (List.range (count * 32)).foldl (fun crc i =>
    if i = 2 ∨ i = 3 then crc else rotateAdd crc (buffer (offset + i)).toNat) 0

/-- A byte of a name as the 16-bit code unit it is stored as: `char` is signed. -/
def codeUnit (c : UInt8) : ℕ := if c < 128 then c.toNat else 0xFF00 + c.toNat

/-- `exfat_calc_name_hash`. -/
def exfatCalcNameHash (units : List ℕ) : ℕ :=
  units.foldl (fun hash unit =>
    let ch := if 97 ≤ unit ∧ unit ≤ 122 then unit - 32 else unit
    rotateAdd (rotateAdd hash (ch % 256)) (ch / 256 % 256)) 0

variable {other : Bytes} {offset width n : ℕ}

/-- A stored field is read back modulo its range. -/
theorem field_putField_self : field (putField buffer offset width n) offset width = n % 256 ^ width := by
  have hbytes : ((range width).map fun i => putField buffer offset width n (offset + i)) = encode width n := by
    apply map_congr_left
    intro i hi
    rw [mem_range] at hi
    have hin : offset ≤ offset + i ∧ offset + i < offset + width := by omega
    simp [putField, hin]
  rw [field, hbytes, decode_encode]

theorem field_congr (h : ∀ i < width, buffer (offset + i) = other (offset + i)) :
    field buffer offset width = field other offset width := by
  unfold field
  congr 1
  apply map_congr_left
  intro i hi
  exact h i (mem_range.mp hi)

theorem putField_of_not_mem {k : ℕ} (h : k < offset ∨ offset + width ≤ k) :
    putField buffer offset width n k = buffer k := by
  have hout : ¬ (offset ≤ k ∧ k < offset + width) := by omega
  simp [putField, hout]

theorem field_putField_of_disjoint {offset' width' : ℕ}
    (h : offset' + width' ≤ offset ∨ offset + width ≤ offset') :
    field (putField buffer offset width n) offset' width' = field buffer offset' width' := by
  apply field_congr
  intro i hi
  apply putField_of_not_mem
  omega

theorem field_zero : field (fun _ => 0) offset width = 0 := by
  unfold field
  induction width with
  | zero => rfl
  | succ width ih =>
    rw [range_succ_eq_map, map_cons, map_map, decode_cons]
    change (0 : UInt8).toNat + 256 * decode ((range width).map fun _ => 0) = 0
    rw [ih]
    rfl

/-- Names are equal for the driver if they are equal after case folding. -/
theorem exfatNameEqual_iff {left right : List UInt8} :
    exfatNameEqual left right = true ↔ left.map lowerCase = right.map lowerCase := by
  induction left generalizing right with
  | nil => cases right <;> simp [exfatNameEqual]
  | cons c left ih =>
    cases right with
    | nil => simp [exfatNameEqual]
    | cons d right =>
      by_cases hc : lowerCase c = lowerCase d
      · simp [exfatNameEqual, hc, ih]
      · simp [exfatNameEqual, hc]

/-- A decoded name depends on the secondary count, the entry types and the name entries. -/
theorem entryName_congr (hcount : buffer (offset + 1) = other (offset + 1))
    (htypes : ∀ j, 2 ≤ j → j ≤ secondaryCount buffer offset → buffer (offset + 32 * j) = other (offset + 32 * j))
    (hunits : ∀ j, 2 ≤ j → j ≤ secondaryCount buffer offset →
      buffer (offset + 32 * j) = typeName → ∀ x, 2 ≤ x → x < 32 →
        buffer (offset + 32 * j + x) = other (offset + 32 * j + x)) :
    entryName buffer offset = entryName other offset := by
  have hentry {entry : ℕ} (h : entry ∈ ((range' 2 (secondaryCount buffer offset - 1)).map
      fun sec => offset + 32 * sec).takeWhile fun entry => entry < 4096) :
      ∃ j, 2 ≤ j ∧ j ≤ secondaryCount buffer offset ∧ entry = offset + 32 * j := by
    obtain ⟨j, hj, rfl⟩ := mem_map.mp ((takeWhile_sublist _).subset h)
    have hrange := mem_range'_1.mp hj
    exact ⟨j, hrange.1, by omega, rfl⟩
  have hoffsets : nameOffsets buffer offset = nameOffsets other offset := by
    have hsame : secondaryCount buffer offset = secondaryCount other offset := by
      rw [secondaryCount, secondaryCount, hcount]
    unfold nameOffsets
    rw [← hsame]
    apply filter_congr
    intro entry h
    obtain ⟨j, hlow, hhigh, rfl⟩ := hentry h
    rw [htypes j hlow hhigh]
  unfold entryName
  rw [← hoffsets]
  congr 2
  apply flatMap_congr
  intro entry h
  obtain ⟨hmem, htype⟩ := mem_filter.mp h
  obtain ⟨j, hlow, hhigh, rfl⟩ := hentry hmem
  have hnames : nameUnits buffer (offset + 32 * j) = nameUnits other (offset + 32 * j) := by
    apply map_congr_left
    intro c hc
    rw [mem_range] at hc
    apply field_congr
    intro i hi
    have hx := hunits j hlow hhigh (of_decide_eq_true htype) (2 + 2 * c + i) (by omega) (by omega)
    rwa [← add_assoc, ← add_assoc] at hx
  rw [hnames]

theorem entryName_ne_zero {c : UInt8} (h : c ∈ entryName buffer offset) : c ≠ 0 := by
  have hc := mem_takeWhile_imp h
  simpa using hc

/-!
## Looking up and listing directories

`exfat_resolve_entry`, `exfat_list_entries_impl` and `exfat_print_directory` over the
cluster of the current directory. The scans run over byte offsets in steps of 32 and skip
the secondary entries of every set they pass. The text layout of the printed listing is not
modelled, only which entries it shows.
-/

/-- What `exfat_resolve_entry` reports about the entry set it found. -/
structure Target where
  cluster : ℕ
  size : ℕ
  isDir : Bool
  entryLba : ℕ
  entryOffset : ℕ
  deriving DecidableEq

/-- The scan of `exfat_resolve_entry` from offset `i` on; 126 rounds cover the cluster. -/
def resolveScan (buffer : Bytes) (name : List UInt8) : ℕ → ℕ → Option ℕ
  | 0, _ => none
  | fuel + 1, i =>
    if i ≤ 4096 - 96 then
      if buffer i = typeFile then
        if exfatNameEqual (entryName buffer i) name then some i
        else resolveScan buffer name fuel (i + 32 * secondaryCount buffer i + 32)
      else resolveScan buffer name fuel (i + 32)
    else none

/-- What is reported about the entry set at offset `i` of a directory. -/
def targetAt (base : ℕ) (buffer : Bytes) (i : ℕ) : Target where
  cluster := firstCluster buffer i
  size := dataLength buffer i
  isDir := isDirectory buffer i
  entryLba := base + i / 512
  entryOffset := i % 512

/-- `exfat_resolve_entry`. -/
def exfatResolveEntry (name : List UInt8) : Driver Target := do
  let v ← get
  let base := exfatClusterLba v v.currentCluster
  let buffer ← readSectors base 8
  match resolveScan buffer name 126 0 with
  | none => throw (.code (-1))
  | some i => pure (targetAt base buffer i)

/-- The characters a listing takes from one name entry; `none` if one is not ASCII. -/
def listUnits : List ℕ → List UInt8 → Option (List UInt8)
  | [], name => some name
  | unit :: units, name =>
    if 255 ≤ name.length then some name
    else if unit = 0 then some name
    else if 0x7F < unit then none
    else listUnits units (name ++ [UInt8.ofNat unit])

/-- The name a listing shows for the set at an offset; `none` if it is not supported. -/
def listName (buffer : Bytes) (offset : ℕ) : List ℕ → List UInt8 → Option (List UInt8)
  | [], name => some name
  | sec :: secs, name =>
    if 4096 < offset + 32 * sec + 32 then none
    else if buffer (offset + 32 * sec) ≠ typeName then listName buffer offset secs name
    else (listUnits (nameUnits buffer (offset + 32 * sec)) name).bind (listName buffer offset secs)

/-- The scan of `exfat_list_entries_impl` from offset `i` on. -/
def listScan (buffer : Bytes) (includeDirectories : Bool) : ℕ → ℕ → List (List UInt8)
  | 0, _ => []
  | fuel + 1, i =>
    if i ≤ 4096 - 96 then
      if buffer i = 0 then []
      else if buffer i ≠ typeFile then listScan buffer includeDirectories fuel (i + 32)
      else
        let next := listScan buffer includeDirectories fuel (i + 32 * secondaryCount buffer i + 32)
        if !includeDirectories && isDirectory buffer i then next
        else
          match listName buffer i (List.range' 2 (secondaryCount buffer i - 1)) [] with
          | some (c :: name) => (c :: name) :: next
          | _ => next
    else []

/-- `exfat_list_entries_impl`: the names in order, of which the caller keeps a prefix. -/
def exfatListEntriesImpl (includeDirectories : Bool) : Driver (List (List UInt8)) := do
  let v ← get
  let buffer ← readSectors (exfatClusterLba v v.currentCluster) 8
  pure (listScan buffer includeDirectories 126 0)

/-- `exfat_list_entries`. -/
def exfatListEntries : Driver (List (List UInt8)) := exfatListEntriesImpl true

/-- A line of the printed listing: the size is shown for files only. -/
structure Listed where
  name : List UInt8
  size : Option ℕ

/-- The entries `exfat_print_directory` shows from one sector and whether it met the end.

The sector is the whole buffer: an entry set that leaves it makes the listing read past the
buffer, which has no defined outcome (`none`). -/
def printSector (hidden : Bool) (sector : Bytes) : ℕ → ℕ → Option (List Listed × Bool)
  | 0, _ => some ([], false)
  | fuel + 1, i =>
    if 512 ≤ i then some ([], false)
    else if sector i = 0 then some ([], true)
    else if sector i ≠ typeFile then printSector hidden sector fuel (i + 32)
    else if 2 ≤ secondaryCount sector i ∧ 512 ≤ i + 32 * secondaryCount sector i then none
    else
      let next := printSector hidden sector fuel (i + 32 * secondaryCount sector i + 32)
      let name := entryName sector i
      if !hidden && (name.head? = some 46 || field sector (i + 4) 2 &&& 0x02 ≠ 0) then next
      else if isDirectory sector i then next.map fun shown => (⟨name, none⟩ :: shown.1, shown.2)
      else if 512 ≤ i + 32 then none
      else next.map fun shown => (⟨name, some (dataLength sector i)⟩ :: shown.1, shown.2)

/-- The sectors of `exfat_print_directory` from `lba` on. -/
def printSectors (hidden : Bool) (lba : ℕ) : ℕ → Driver (List Listed)
  | 0 => pure []
  | count + 1 => do
    let sector ← exfatSectorRead lba
    match printSector hidden sector 16 0 with
    | none => throw .undefined
    | some (shown, true) => pure shown
    | some (shown, false) => do
      let rest ← printSectors hidden (lba + 1) count
      pure (shown ++ rest)

/-- `exfat_print_directory`. -/
def exfatPrintDirectory (hidden : Bool) : Driver (List Listed) := do
  let v ← get
  printSectors hidden (exfatClusterLba v v.currentCluster) 8

/-- The contents of the current directory. -/
def Volume.directory (v : Volume) : Bytes :=
  window v.bytes (512 * exfatClusterLba v v.currentCluster) 4096

section Lookup

variable {v v' : Volume} {name : List UInt8} {target : Target}

/-- A lookup that succeeds reports the set that the scan of the directory found. -/
theorem exfatResolveEntry_ok (h : exfatResolveEntry name v = .ok target v') :
    ∃ i outcomes, resolveScan v.directory name 126 0 = some i ∧
      target = targetAt (exfatClusterLba v v.currentCluster) v.directory i ∧
      v' = v.put v.bytes outcomes := by
  rw [exfatResolveEntry, get_bind] at h
  obtain ⟨buffer, v₁, hread, h⟩ := bind_eq_ok h
  obtain ⟨rfl, outcomes, rfl⟩ := readSectors_ok hread
  change (match resolveScan v.directory name 126 0 with
    | none => throw (.code (-1))
    | some i => pure (targetAt _ v.directory i) : Driver Target) _ = _ at h
  cases hscan : resolveScan v.directory name 126 0 with
  | none =>
    rw [hscan] at h
    cases h
  | some i =>
    rw [hscan] at h
    cases h
    exact ⟨i, outcomes, rfl, rfl, rfl⟩

/-- Without failures to come a lookup only depends on the scan of the directory. -/
theorem exfatResolveEntry_quiet (hquiet : v.outcomes = [])
    (haccepts : ∀ s < 8, v.Accepts (exfatClusterLba v v.currentCluster + s)) :
    exfatResolveEntry name v =
      match resolveScan v.directory name 126 0 with
      | none => .error (.code (-1)) v
      | some i => .ok (targetAt (exfatClusterLba v v.currentCluster) v.directory i) v := by
  rw [exfatResolveEntry, get_bind, bind_ok (readSectors_quiet hquiet haccepts)]
  change (match resolveScan v.directory name 126 0 with
    | none => throw (.code (-1))
    | some i => pure (targetAt _ v.directory i) : Driver Target) _ = _
  cases resolveScan v.directory name 126 0 <;> rfl

/-- A listing that succeeds shows what the scan of the directory yields. -/
theorem exfatListEntriesImpl_ok {includeDirectories : Bool} {names : List (List UInt8)}
    (h : exfatListEntriesImpl includeDirectories v = .ok names v') :
    names = listScan v.directory includeDirectories 126 0 ∧ ∃ outcomes, v' = v.put v.bytes outcomes := by
  rw [exfatListEntriesImpl, get_bind] at h
  obtain ⟨buffer, v₁, hread, h⟩ := bind_eq_ok h
  cases h
  obtain ⟨rfl, outcomes, rfl⟩ := readSectors_ok hread
  exact ⟨rfl, outcomes, rfl⟩

end Lookup

variable {name : List UInt8}

/-- A scan that meets no file entry finds nothing. -/
theorem resolveScan_eq_none (fuel i : ℕ) (h : ∀ j, i + 32 * j ≤ 4000 → buffer (i + 32 * j) ≠ typeFile) :
    resolveScan buffer name fuel i = none := by
  induction fuel generalizing i with
  | zero => rfl
  | succ fuel ih =>
    rw [resolveScan]
    by_cases hi : i ≤ 4096 - 96
    · have hrest : resolveScan buffer name fuel (i + 32) = none :=
        ih (i + 32) fun j hj => by
          have hstep : i + 32 + 32 * j = i + 32 * (j + 1) := by omega
          rw [hstep] at hj ⊢
          exact h (j + 1) hj
      have hhead : buffer i ≠ typeFile := h 0 hi
      rw [if_pos hi, if_neg hhead, hrest]
    · rw [if_neg hi]

/-- A scan finds the first file entry under the name it decodes to. -/
theorem resolveScan_ne_none (fuel i j : ℕ) (hfuel : j < fuel) (hj : i + 32 * j ≤ 4000)
    (hfile : buffer (i + 32 * j) = typeFile) :
    ∃ name, (∀ c ∈ name, c ≠ 0) ∧ resolveScan buffer name fuel i ≠ none := by
  induction fuel generalizing i j with
  | zero => omega
  | succ fuel ih =>
    have hi : i ≤ 4096 - 96 := by omega
    by_cases hhead : buffer i = typeFile
    · refine ⟨entryName buffer i, fun c hc => entryName_ne_zero hc, ?_⟩
      have hself : exfatNameEqual (entryName buffer i) (entryName buffer i) = true := exfatNameEqual_iff.mpr rfl
      rw [resolveScan, if_pos hi, if_pos hhead, if_pos hself]
      exact Option.some_ne_none i
    · cases j with
      | zero => exact absurd hfile hhead
      | succ j =>
        have hstep : i + 32 * (j + 1) = i + 32 + 32 * j := by omega
        rw [hstep] at hj hfile
        obtain ⟨found, hclean, hscan⟩ := ih (i + 32) j (by omega) hj hfile
        refine ⟨found, hclean, ?_⟩
        rwa [resolveScan, if_pos hi, if_neg hhead]

/-- A directory has no entry to find exactly when no slot holds a file entry. -/
theorem resolveScan_none_iff :
    (∀ name, (∀ c ∈ name, c ≠ 0) → resolveScan buffer name 126 0 = none) ↔
      ∀ k ≤ 125, buffer (32 * k) ≠ typeFile := by
  constructor
  · intro hnone k hk hfile
    obtain ⟨name, hclean, hscan⟩ := resolveScan_ne_none 126 0 k (by omega) (by omega) (by simpa using hfile)
    exact hscan (hnone name hclean)
  · intro hfree name _
    apply resolveScan_eq_none
    intro j hj
    have hfree' := hfree j (by omega)
    simpa using hfree'

/-!
## Changing the directory

`exfat_change_directory` walks a path token by token from the root or from the current
directory and keeps the path string and the cluster in step; `..` shortens the string and
walks it again from the root. Tokens are cut at 63 characters. The globals are only set at
the end of a walk that succeeds. A path that does not fit the 256-byte buffers overruns
them, which C leaves undefined.
-/

/-- `'/'`. -/
def slash : UInt8 := 47

/-- The token `"."`. -/
def dot : List UInt8 := [46]

/-- The token `".."`. -/
def dotDot : List UInt8 := [46, 46]

/-- The tokens of a path between slashes, cut at 63 characters, without empty ones. -/
def pathTokens (path : List UInt8) : List (List UInt8) :=
  ((path.splitOn slash).map (List.take 63)).filter (· ≠ [])

/-- Look a name up in another directory; the current directory is restored. -/
def resolveIn (cluster : ℕ) (name : List UInt8) : Driver Target := do
  let v ← get
  modify fun v => { v with currentCluster := cluster }
  let found ← tryCatch (some <$> exfatResolveEntry name) fun _ => pure none
  modify fun v' => { v' with currentCluster := v.currentCluster }
  match found with
  | none => throw (.code (-1))
  | some target => pure target

/-- The path string without its last component. -/
def parentPath (path : List UInt8) : List UInt8 :=
  let kept := path.rdropWhile (· ≠ slash)
  if kept.length ≤ 1 then [slash] else kept.dropLast

/-- The path string with a component appended. -/
def extendPath (path token : List UInt8) : List UInt8 :=
  (if path = [slash] then path else path ++ [slash]) ++ token

/-- The second walk that `..` makes, from the root; tokens that lead nowhere are skipped. -/
def rewalk : ℕ → List (List UInt8) → Driver ℕ
  | cluster, [] => pure cluster
  | cluster, token :: tokens => do
    let found ← tryCatch (some <$> resolveIn cluster token) fun _ => pure none
    match found with
    | some target => rewalk (if target.isDir then target.cluster else cluster) tokens
    | none => rewalk cluster tokens

/-- The step to a parent directory: the shortened path string is walked from the root. -/
def climb (path : List UInt8) : Driver (ℕ × List UInt8) := do
  let v ← get
  let cluster ← rewalk v.rootCluster (pathTokens ((parentPath path).drop 1))
  pure (cluster, parentPath path)

/-- The step into a directory. -/
def descend (cluster : ℕ) (path token : List UInt8) : Driver (ℕ × List UInt8) := do
  let target ← resolveIn cluster token
  if target.isDir = false then throw (.code (-2))
  else if 256 ≤ (extendPath path token).length then throw .undefined
  else pure (target.cluster, extendPath path token)

/-- The cluster and the path string after one token. -/
def walkStep (cluster : ℕ) (path token : List UInt8) : Driver (ℕ × List UInt8) :=
  if token = dotDot then if path = [slash] then pure (cluster, path) else climb path
  else if token = dot then pure (cluster, path)
  else descend cluster path token

/-- The main walk: the cluster and the path string after each token. -/
def walk : ℕ → List UInt8 → List (List UInt8) → Driver (ℕ × List UInt8)
  | cluster, path, [] => pure (cluster, path)
  | cluster, path, token :: tokens => do
    let next ← walkStep cluster path token
    walk next.1 next.2 tokens

/-- The path argument without trailing line ends and blanks and without leading blanks. -/
def trimPath (path : List UInt8) : List UInt8 :=
  (path.rdropWhile fun c => c = 10 ∨ c = 13 ∨ c = 32).dropWhile (· = 32)

/-- Where the walk of a path starts: at the root or in the current directory. -/
def Volume.walkStart (v : Volume) (path : List UInt8) : ℕ × List UInt8 :=
  if path.head? = some slash then (v.rootCluster, [slash]) else (v.currentCluster, v.currentPath)

/-- `exfat_change_directory`. -/
def exfatChangeDirectory (path : List UInt8) : Driver Unit :=
  if path = [] then pure ()
  else if 256 ≤ path.length then throw .undefined
  else if trimPath path = [] then pure ()
  else do
    let v ← get
    let start := v.walkStart (trimPath path)
    let place ← walk start.1 start.2 (pathTokens (trimPath path))
    modify fun v => { v with currentCluster := place.1, currentPath := place.2 }

end Windoge.Exfat
