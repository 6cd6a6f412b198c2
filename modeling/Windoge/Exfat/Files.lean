import Windoge.Exfat.Bitmap

/-!
# Creating files and directories

`exfat_create_node`: it reads the current directory, takes the first gap of free entries that
the new entry set fits in, allocates one cluster (zeroed if it will hold a directory), builds
the set in its copy of the directory and writes the sectors the set touches. Nothing checks
whether the name is taken.
-/

namespace Windoge.Exfat

open Windoge.Flow LittleEndian

/-- The length a name is stored with. -/
def storedLength (name : List UInt8) : ℕ := min name.length 255

/-- `name_entries`. -/
def nameEntries (name : List UInt8) : ℕ := (storedLength name + 14) / 15

/-- `total_entries`: the file and stream entries and the name entries. -/
def totalEntries (name : List UInt8) : ℕ := 2 + nameEntries name

/-- Whether the in-use bit of an entry type is clear. -/
def entryFree (type : UInt8) : Bool := type &&& 0x80 = 0

/-- The first entry of the first gap that holds so many entries. -/
def freeSlot (buffer : Bytes) (entries : ℕ) : Option ℕ :=
  (List.range (128 - entries + 1)).find? fun k =>
    (List.range entries).all fun j => entryFree (buffer (32 * (k + j)))

/-- The code units of a stored name: `unicode_buf`. -/
def unicodeUnit (name : List UInt8) (i : ℕ) : ℕ :=
  if i < storedLength name then codeUnit (name.getD i 0) else 0

/-- Byte `k` of the name entries of a set, counted from the first name entry. -/
def nameByte (name : List UInt8) (k : ℕ) : UInt8 :=
  if k % 32 = 0 then typeName
  else if k % 32 = 1 then 0
  else byteAt (unicodeUnit name (15 * (k / 32) + (k % 32 - 2) / 2)) (k % 2)

/-- A new entry set before its checksum is stored. -/
def plainSet (name : List UInt8) (isDir : Bool) (cluster : ℕ) : Bytes := fun k =>
  if k < 64 then
    layout [(0, 1, 0x85), (1, 1, totalEntries name - 1), (4, 2, if isDir then 0x10 else 0x20),
      (32, 1, 0xC0), (33, 1, 0x03), (35, 1, storedLength name),
      (36, 2, exfatCalcNameHash ((List.range (storedLength name)).map (unicodeUnit name))),
      (52, 4, cluster)] k
  else nameByte name (k - 64)

/-- A new entry set. -/
def newSet (name : List UInt8) (isDir : Bool) (cluster : ℕ) : Bytes :=
  let set := plainSet name isDir cluster
  putField set 2 2 (exfatCalcEntryCrc set 0 (totalEntries name))

/-- A directory with a set stored at an offset. -/
def placeSet (buffer set : Bytes) (offset size : ℕ) : Bytes := fun k =>
  if offset ≤ k ∧ k < offset + size then set (k - offset) else buffer k

/-- The sectors `first`, …, `first + count - 1` of a buffer, for a place on the drive. -/
def bufferSectors (lba : ℕ) (buffer : Bytes) (first count : ℕ) : List (ℕ × Bytes) :=
  (List.range' first count).map fun s => (lba + s, fun k => buffer (512 * s + k))

/-- Zero the eight sectors of a cluster that will hold a directory. -/
def zeroDirectory (lba : ℕ) (isDir : Bool) : Driver Unit :=
  if isDir then writeAll (bufferSectors lba (fun _ => 0) 0 8) else pure ()

/-- Write the sectors of the directory that a set in slot `slot` touches. -/
def writeSet (lba : ℕ) (buffer : Bytes) (slot entries : ℕ) : Driver Unit :=
  writeAll (bufferSectors lba buffer (32 * slot / 512)
    ((32 * slot + 32 * entries - 1) / 512 + 1 - 32 * slot / 512))

/-- `exfat_create_node`. -/
def exfatCreateNode (name : List UInt8) (isDir : Bool) : Driver Unit :=
  if name = [] then throw (.code (-1))
  else do
    let v ← get
    let buffer ← readSectors (exfatClusterLba v v.currentCluster) 8
    match freeSlot buffer (totalEntries name) with
    | none => throw (.code (-1))
    | some slot => do
      let cluster ← exfatAllocBlock
      if cluster = 0 then throw (.code (-1))
      else do
        zeroDirectory (exfatClusterLba v cluster) isDir
        writeSet (exfatClusterLba v v.currentCluster)
          (placeSet buffer (newSet name isDir cluster) (32 * slot) (32 * totalEntries name))
          slot (totalEntries name)

/-!
## Reading, writing and deleting files

`exfat_write_file`, `exfat_append_file`, `exfat_read_file_at`, `exfat_delete_node` and
`exfat_truncate_last_line`. All of them find the entry set with `exfat_resolve_entry` and the
mutators then work on the one sector that holds the file entry: a set that continues in the
next sector makes them access memory past their 512-byte buffer. Stores there are undefined; a
checksum that is only read there is a number that nothing specifies.
-/

/-- The clusters a file of that size occupies, in the driver's arithmetic. -/
def clustersFor (size : ℕ) : ℕ := if size = 0 then 1 else (size + 4095) % 2 ^ 64 / 4096 % 2 ^ 32

/-- The sectors a file of that size occupies, in the driver's arithmetic. -/
def sectorsFor (size : ℕ) : ℕ := (size + 511) % 2 ^ 64 / 512

/-- File contents as a buffer, padded with zeros. -/
def dataBuffer (data : List UInt8) : Bytes := fun k => data.getD k 0

/-- A sector with the stream fields of an entry set stored. -/
def updatedStream (sector : Bytes) (offset : ℕ) (cluster : Option ℕ) (size : ℕ) : Bytes :=
  putField (putField (cluster.elim sector (putField sector (offset + 52) 4)) (offset + 56) 8 size)
    (offset + 40) 8 size

/-- A sector with the stream fields of an entry set and a checksum stored. -/
def updatedSector (sector : Bytes) (offset : ℕ) (cluster : Option ℕ) (size checksum : ℕ) : Bytes :=
  putField (updatedStream sector offset cluster size) (offset + 2) 2 checksum

/-- The checksum of an entry set in a buffer with its stream fields stored. -/
def updatedChecksum (buffer : Bytes) (offset : ℕ) (cluster : Option ℕ) (size : ℕ) : ℕ :=
  exfatCalcEntryCrc (updatedStream buffer offset cluster size) offset
    ((secondaryCount buffer offset + 1) % 256)

/-- A sector buffer followed by what stands behind it in memory. -/
def overrun (sector behind : Bytes) : Bytes := fun i => if i < 512 then sector i else behind (i - 512)

/-- Store a new length, and a new first cluster if one is given, in an entry set. The stores have to
stay in the buffer; the checksum of a longer set reads on behind it. -/
def updateEntry (target : Target) (cluster : Option ℕ) (size : ℕ) : Driver Unit := do
  let v ← get
  let sector ← exfatSectorRead target.entryLba
  if 512 < target.entryOffset + 64 then throw .undefined
  else exfatSectorWrite target.entryLba (updatedSector sector target.entryOffset cluster size
    (updatedChecksum (overrun sector v.behind) target.entryOffset cluster size))

/-- The first cluster that `exfat_write_file` stores the new contents at. -/
def writeClusters (target : Target) (clusters : ℕ) : Driver ℕ :=
  if clusters ≠ clustersFor target.size then do
    let allocated ← exfatAllocBlocks clusters
    if allocated = 0 then throw (.code (-1))
    else do
      exfatFreeBlocks target.cluster (clustersFor target.size)
      pure allocated
  else pure target.cluster

/-- `exfat_write_file`. -/
def exfatWriteFile (name data : List UInt8) : Driver Unit := do
  let target ← exfatResolveEntry name
  let cluster ← writeClusters target (clustersFor data.length)
  let v ← get
  writeAll (bufferSectors (exfatClusterLba v cluster) (dataBuffer data) 0 (sectorsFor data.length))
  updateEntry target (some cluster) data.length

/-- Copy sectors one after the other. -/
def copySectors (source destination : ℕ) : List ℕ → Driver Unit
  | [] => pure ()
  | s :: rest => do
    let sector ← exfatSectorRead (source + s)
    exfatSectorWrite (destination + s) sector
    copySectors source destination rest

/-- A sector with data stored from an offset on. -/
def spliceSector (sector : Bytes) (offset : ℕ) (data : List UInt8) : Bytes := fun k =>
  if offset ≤ k ∧ k < offset + data.length then data.getD (k - offset) 0 else sector k

/-- The sector that data at a file offset goes to: read if it keeps bytes before the offset. -/
def tailSector (lba offset : ℕ) : Driver Bytes :=
  if 0 < offset % 512 then exfatSectorRead (lba + offset / 512) else pure fun _ => 0

/-- The write loop of `exfat_append_file` from a file offset on. -/
def appendLoop (lba : ℕ) : ℕ → ℕ → List UInt8 → Driver Unit
  | 0, _, _ => pure ()
  | fuel + 1, offset, data =>
    if data = [] then pure ()
    else do
      let length := min (512 - offset % 512) data.length
      let sector ← tailSector lba offset
      exfatSectorWrite (lba + offset / 512) (spliceSector sector (offset % 512) (data.take length))
      appendLoop lba fuel (offset + length) (data.drop length)

/-- The first cluster that `exfat_append_file` continues at: a larger file is moved. -/
def appendClusters (target : Target) (clusters : ℕ) : Driver ℕ :=
  if clustersFor target.size < clusters then do
    let allocated ← exfatAllocBlocks clusters
    if allocated = 0 then throw (.code (-1))
    else do
      let v ← get
      copySectors (exfatClusterLba v target.cluster) (exfatClusterLba v allocated)
        (List.range (sectorsFor target.size))
      exfatFreeBlocks target.cluster (clustersFor target.size)
      pure allocated
  else pure target.cluster

/-- `exfat_append_file`. -/
def exfatAppendFile (name data : List UInt8) : Driver Unit := do
  let target ← exfatResolveEntry name
  if data = [] then pure ()
  else do
    let total := (target.size + data.length) % 2 ^ 64
    let cluster ← appendClusters target ((total + 4095) % 2 ^ 64 / 4096 % 2 ^ 32)
    let v ← get
    appendLoop (exfatClusterLba v cluster) data.length target.size data
    updateEntry target (some cluster) total

/-- The read loop of `exfat_read_file_at`. -/
def readLoop : ℕ → ℕ → ℕ → ℕ → Driver (List UInt8)
  | 0, _, _, _ => pure []
  | fuel + 1, lba, offset, left =>
    if left = 0 then pure []
    else do
      let sector ← exfatSectorRead lba
      let chunk := min (512 - offset) left
      let rest ← readLoop fuel (lba + 1) 0 (left - chunk)
      pure ((List.range chunk).map (fun k => sector (offset + k)) ++ rest)

/-- `exfat_read_file_at`: the bytes read, at most `maxBytes` of them. -/
def exfatReadFileAt (name : List UInt8) (offset maxBytes : ℕ) : Driver (List UInt8) := do
  let target ← exfatResolveEntry name
  if target.size ≤ offset ∨ maxBytes = 0 then pure []
  else do
    let v ← get
    let left := min (target.size - offset) maxBytes
    readLoop left (exfatClusterLba v target.cluster + offset / 512) (offset % 512) left

/-- A sector with the in-use bits of the entries from an offset on cleared. -/
def clearedSector (sector : Bytes) (offset count : ℕ) : Bytes := fun k =>
  if offset ≤ k ∧ k < offset + 32 * count ∧ (k - offset) % 32 = 0 then sector k &&& 0x7F else sector k

/-- Clear the in-use bits of an entry set. -/
def clearEntry (target : Target) : Driver Unit := do
  let sector ← exfatSectorRead target.entryLba
  if 512 < target.entryOffset + 32 * ((secondaryCount sector target.entryOffset + 1) % 256) then
    throw .undefined
  else exfatSectorWrite target.entryLba (clearedSector sector target.entryOffset
    ((secondaryCount sector target.entryOffset + 1) % 256))

/-- `exfat_delete_node`. -/
def exfatDeleteNode (name : List UInt8) : Driver Unit := do
  let target ← exfatResolveEntry name
  exfatFreeBlocks target.cluster (clustersFor target.size)
  clearEntry target

/-- The bytes from `tail` back to a newline or to the start of the sector. -/
def backToNewline (sector : Bytes) : ℕ → ℕ
  | 0 => if sector 0 = 10 then 0 else 1
  | tail + 1 => if sector (tail + 1) = 10 then 0 else backToNewline sector tail + 1

/-- `remove_count` of `exfat_truncate_last_line`; a final newline goes with its line. -/
def removeCount (sector : Bytes) (tail : ℕ) : ℕ :=
  if sector tail = 10 then
    if 0 < tail ∧ sector (tail - 1) ≠ 10 then backToNewline sector (tail - 1) + 1
    else backToNewline sector tail + 1
  else backToNewline sector tail

/-- `exfat_truncate_last_line`; it stores no new first cluster and frees nothing. -/
def exfatTruncateLastLine (name : List UInt8) : Driver Unit := do
  let target ← exfatResolveEntry name
  if target.size = 0 then throw (.code (-1))
  else do
    let v ← get
    let sector ← exfatSectorRead (exfatClusterLba v target.cluster + (target.size - 1) / 512)
    updateEntry target none (target.size - removeCount sector ((target.size - 1) % 512))

/-!
## What the file operations never change

Lookups, allocation and the file operations are sequences of sector reads and writes: whatever
each of those respects, they respect too, whether they succeed, fail or run into undefined
behaviour. In particular they change nothing but the contents of the selected drive: the current
directory, the geometry and the selection stay, and without failures to come none appear.
-/

/-- Only the contents of the selected drive differ, and no failures to come appear. -/
def Steady (v v' : Volume) : Prop :=
  ∃ bytes outcomes, v' = v.put bytes outcomes ∧ (v.outcomes = [] → outcomes = [])

/-- A relation between volumes that holds across every sector operation and composes. -/
structure Sectorwise (R : Volume → Volume → Prop) : Prop where
  refl : ∀ v, R v v
  trans : ∀ {v v' v''}, R v v' → R v' v'' → R v v''
  read : ∀ {lba}, Respects R (exfatSectorRead lba)
  write : ∀ {lba buffer}, Respects R (exfatSectorWrite lba buffer)

variable {v v' v'' : Volume} {lba : ℕ} {buffer : Bytes}

theorem Steady.refl (v : Volume) : Steady v v := ⟨v.bytes, v.outcomes, v.put_self.symm, id⟩

theorem Steady.trans (h : Steady v v') (h' : Steady v' v'') : Steady v v'' := by
  obtain ⟨bytes, outcomes, rfl, hquiet⟩ := h
  obtain ⟨bytes', outcomes', rfl, hquiet'⟩ := h'
  exact ⟨bytes', outcomes', v.put_put _ _ _ _, fun hv => hquiet' (hquiet hv)⟩

theorem steady_put_tail (bytes : Bytes) : Steady v (v.put bytes v.outcomes.tail) :=
  ⟨bytes, _, rfl, fun hquiet => by rw [hquiet, List.tail_nil]⟩

theorem steady_exfatSectorRead : Respects Steady (exfatSectorRead lba) := by
  intro v
  unfold exfatSectorRead
  split_ifs
  · cases v.outcomes.headD .done <;> exact steady_put_tail v.bytes
  · exact Steady.refl v

theorem steady_exfatSectorWrite : Respects Steady (exfatSectorWrite lba buffer) := by
  intro v
  unfold exfatSectorWrite
  split_ifs
  · cases v.outcomes.headD .done <;> exact steady_put_tail _
  · exact Steady.refl v

theorem steady : Sectorwise Steady :=
  ⟨Steady.refl, fun h h' => h.trans h', steady_exfatSectorRead, steady_exfatSectorWrite⟩

section Reads

variable {R : Volume → Volume → Prop} [IsPreorder Volume R]
  (hread : ∀ {lba}, Respects R (exfatSectorRead lba))
include hread

theorem respects_readSectors (count : ℕ) : Respects R (readSectors lba count) := by
  induction count with
  | zero => exact .pure _
  | succ count ih => exact ih.bind fun _ => hread.bind fun _ => .pure _

theorem respects_exfatResolveEntry (name : List UInt8) : Respects R (exfatResolveEntry name) := by
  refine Respects.get.bind fun v => (respects_readSectors hread 8).bind fun buffer => ?_
  cases resolveScan buffer name 126 0 with
  | none => exact .throw _
  | some i => exact .pure _

/-- Scanning the bitmap only reads. -/
theorem respects_scanSectors (total count left s consecutive start : ℕ) :
    Respects R (scanSectors lba total count left s consecutive start) := by
  induction left generalizing s consecutive start with
  | zero => exact .pure _
  | succ left ih =>
    refine hread.bind fun sector => ?_
    cases scanBits sector total count 4096 (4096 * s) consecutive start with
    | found start => exact .pure _
    | going consecutive start => exact ih _ _ _

end Reads

namespace Sectorwise

variable {R : Volume → Volume → Prop} (h : Sectorwise R)
include h

theorem isPreorder : IsPreorder Volume R where
  refl := h.refl
  trans _ _ _ := h.trans

protected theorem bind {α β : Type} {x : Driver α} {f : α → Driver β} (hx : Respects R x)
    (hf : ∀ a, Respects R (f a)) : Respects R (x >>= f) :=
  have := h.isPreorder
  hx.bind hf

protected theorem pure {α : Type} (a : α) : Respects R (pure a : Driver α) := h.refl

protected theorem throw {α : Type} (e : Stop) : Respects R (throw e : Driver α) := h.refl

protected theorem get : Respects R (get : Driver Volume) := h.refl

protected theorem tryCatch {α : Type} {x : Driver α} {handler : Stop → Driver α}
    (hx : Respects R x) (hhandler : ∀ e, Respects R (handler e)) :
    Respects R (tryCatch x handler) :=
  have := h.isPreorder
  hx.tryCatch hhandler

theorem respects_readSectors (count : ℕ) : Respects R (readSectors lba count) := have := h.isPreorder
  Exfat.respects_readSectors h.read count

theorem respects_writeAll (writes : List (ℕ × Bytes)) : Respects R (writeAll writes) := by
  induction writes with
  | nil => exact h.pure _
  | cons write writes ih => exact h.bind h.write fun _ => ih

theorem respects_exfatResolveEntry (name : List UInt8) : Respects R (exfatResolveEntry name) :=
  have := h.isPreorder
  Exfat.respects_exfatResolveEntry h.read name

theorem respects_storeBit (i : ℕ) (on : Bool) : Respects R (storeBit lba i on) := h.bind h.read fun _ => h.write

theorem respects_storeBits (indices : List ℕ) : Respects R (storeBits lba indices) := by
  induction indices with
  | nil => exact h.pure _
  | cons i indices ih => exact h.bind (h.respects_storeBit i true) fun _ => ih

theorem respects_clearBits (indices : List ℕ) : Respects R (clearBits lba indices) := by
  induction indices with
  | nil => exact h.pure _
  | cons i indices ih => exact h.bind (h.tryCatch (h.respects_storeBit i false) fun _ => h.pure _) fun _ => ih

/-- Allocating clusters. -/
theorem respects_exfatAllocBlocks (count : ℕ) : Respects R (exfatAllocBlocks count) := by
  have := h.isPreorder
  unfold exfatAllocBlocks
  split_ifs
  · exact h.pure _
  refine h.tryCatch (h.bind h.get fun v =>
    h.bind (Exfat.respects_scanSectors h.read _ _ _ _ _ _) fun found => ?_) fun _ => h.pure _
  cases found with
  | none => exact h.pure _
  | some start => exact h.bind (h.respects_storeBits _) fun _ => h.pure _

theorem respects_exfatFreeBlocks (cluster count : ℕ) : Respects R (exfatFreeBlocks cluster count) := by
  unfold exfatFreeBlocks
  split_ifs
  · exact h.pure _
  · exact h.bind h.get fun v => h.respects_clearBits _

theorem respects_updateEntry (target : Target) (cluster : Option ℕ) (size : ℕ) :
    Respects R (updateEntry target cluster size) := by
  refine h.bind h.get fun v => h.bind h.read fun sector => ?_
  split_ifs
  · exact h.throw _
  · exact h.write

theorem respects_zeroDirectory (isDir : Bool) : Respects R (zeroDirectory lba isDir) := by
  cases isDir with
  | false => exact h.pure _
  | true => exact h.respects_writeAll _

/-- Creating an entry. -/
theorem respects_exfatCreateNode (name : List UInt8) (isDir : Bool) :
    Respects R (exfatCreateNode name isDir) := by
  unfold exfatCreateNode
  split_ifs
  · exact h.throw _
  refine h.bind h.get fun v => h.bind (h.respects_readSectors 8) fun buffer => ?_
  cases freeSlot buffer (totalEntries name) with
  | none => exact h.throw _
  | some slot =>
    refine h.bind (h.respects_exfatAllocBlocks 1) fun cluster => ?_
    split_ifs
    · exact h.throw _
    · exact h.bind (h.respects_zeroDirectory isDir) fun _ => h.respects_writeAll _

theorem respects_copySectors (source destination : ℕ) (sectors : List ℕ) :
    Respects R (copySectors source destination sectors) := by
  induction sectors with
  | nil => exact h.pure _
  | cons s sectors ih => exact h.bind h.read fun _ => h.bind h.write fun _ => ih

/-- The append loop. -/
theorem respects_appendLoop (fuel offset : ℕ) (data : List UInt8) :
    Respects R (appendLoop lba fuel offset data) := by
  induction fuel generalizing offset data with
  | zero => exact h.pure _
  | succ fuel ih =>
    rw [appendLoop]
    split_ifs
    · exact h.pure _
    refine h.bind ?_ fun _ => h.bind h.write fun _ => ih _ _
    unfold tailSector
    split_ifs
    · exact h.read
    · exact h.pure _

theorem respects_writeClusters (target : Target) (clusters : ℕ) : Respects R (writeClusters target clusters) := by
  unfold writeClusters
  split_ifs
  · refine h.bind (h.respects_exfatAllocBlocks _) fun allocated => ?_
    split_ifs
    · exact h.throw _
    · exact h.bind (h.respects_exfatFreeBlocks _ _) fun _ => h.pure _
  · exact h.pure _

/-- Choosing the clusters of a growing file. -/
theorem respects_appendClusters (target : Target) (clusters : ℕ) :
    Respects R (appendClusters target clusters) := by
  unfold appendClusters
  split_ifs
  · refine h.bind (h.respects_exfatAllocBlocks _) fun allocated => ?_
    split_ifs
    · exact h.throw _
    · exact h.bind h.get fun _ => h.bind (h.respects_copySectors _ _ _) fun _ =>
        h.bind (h.respects_exfatFreeBlocks _ _) fun _ => h.pure _
  · exact h.pure _

theorem respects_exfatWriteFile (name data : List UInt8) : Respects R (exfatWriteFile name data) :=
  h.bind (h.respects_exfatResolveEntry _) fun _ => h.bind (h.respects_writeClusters _ _) fun _ =>
    h.bind h.get fun _ => h.bind (h.respects_writeAll _) fun _ => h.respects_updateEntry _ _ _

theorem respects_exfatAppendFile (name data : List UInt8) : Respects R (exfatAppendFile name data) := by
  refine h.bind (h.respects_exfatResolveEntry _) fun target => ?_
  split_ifs
  · exact h.pure _
  · exact h.bind (h.respects_appendClusters _ _) fun _ => h.bind h.get fun _ =>
      h.bind (h.respects_appendLoop _ _ _) fun _ => h.respects_updateEntry _ _ _

theorem respects_clearEntry (target : Target) : Respects R (clearEntry target) := by
  refine h.bind h.read fun sector => ?_
  split_ifs
  · exact h.throw _
  · exact h.write

theorem respects_exfatDeleteNode (name : List UInt8) : Respects R (exfatDeleteNode name) :=
  h.bind (h.respects_exfatResolveEntry _) fun target =>
    h.bind (h.respects_exfatFreeBlocks _ _) fun _ => h.respects_clearEntry target

theorem respects_exfatTruncateLastLine (name : List UInt8) : Respects R (exfatTruncateLastLine name) := by
  refine h.bind (h.respects_exfatResolveEntry _) fun target => ?_
  split_ifs
  · exact h.throw _
  · exact h.bind h.get fun _ => h.bind h.read fun _ => h.respects_updateEntry _ _ _

end Sectorwise

end Windoge.Exfat
