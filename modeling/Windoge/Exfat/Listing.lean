import Windoge.Exfat.NameHistory

/-!
# Listing a directory

The two listings of the driver on a tidy directory. A directory is tidy if its sets are
complete, its names are ASCII and not empty, and no entry follows one that was never used.
Both listings then show the sets of the directory in the order of their slots; the printed one
needs every set to lie in one sector, because it looks at one sector at a time.
-/

namespace Windoge.Exfat

open Windoge.Flow List

/-- The slots among the next `count` from `k` on that hold a file entry. -/
def fileSlots (dir : Bytes) (k count : ℕ) : List ℕ :=
  (List.range' k count).filter fun j => dir (32 * j) = typeFile

/-- The line of the printed listing for the set in a slot. -/
def lineAt (dir : Bytes) (k : ℕ) : Listed where
  name := entryName dir (32 * k)
  size := if isDirectory dir (32 * k) then none else some (dataLength dir (32 * k))

/-- The characters that one name entry contributes to a name. -/
def nameChunk (buffer : Bytes) (entry : ℕ) : List UInt8 :=
  ((nameUnits buffer entry).takeWhile (· ≠ 0)).map UInt8.ofNat

/-- Every code unit of the name of a set is an ASCII character or zero. -/
def AsciiSet (dir : Bytes) (k : ℕ) : Prop :=
  ∀ j, 2 ≤ j → j ≤ secondaryCount dir (32 * k) →
    ∀ unit ∈ nameUnits dir (32 * k + 32 * j), unit ≤ 0x7F

/-- A directory whose complete sets have ASCII names and stand before every unused entry. -/
structure Tidy (dir : Bytes) : Prop where
  ok : DirOk dir
  packed : ∀ j k, j ≤ k → k < 128 → dir (32 * j) = 0 → dir (32 * k) = 0
  ascii : ∀ k, Live dir k → AsciiSet dir k
  named : ∀ k, Live dir k → entryName dir (32 * k) ≠ []

variable {dir buffer : Bytes} {k count offset s i : ℕ}

section Slots

theorem fileSlots_append (m n : ℕ) : fileSlots dir k (m + n) = fileSlots dir k m ++ fileSlots dir (k + m) n := by
  rw [fileSlots, ← range'_append_1, filter_append]
  rfl

theorem fileSlots_eq_nil (h : ∀ i, k ≤ i → i < k + count → dir (32 * i) ≠ typeFile) :
    fileSlots dir k count = [] := by
  rw [fileSlots, filter_eq_nil_iff]
  intro i hi
  have hrange := mem_range'_1.mp hi
  simp [h i hrange.1 hrange.2]

/-- Entries that are not file entries can be skipped. -/
theorem fileSlots_skip (skip : ℕ) (h : ∀ i, k ≤ i → i < k + skip → dir (32 * i) ≠ typeFile) :
    fileSlots dir k count = fileSlots dir (k + skip) (count - skip) := by
  by_cases hle : skip ≤ count
  · obtain ⟨rest, rfl⟩ := Nat.exists_eq_add_of_le hle
    rw [fileSlots_append, fileSlots_eq_nil h, Nat.add_sub_cancel_left, nil_append]
  · have hzero : count - skip = 0 := by omega
    rw [hzero, fileSlots_eq_nil fun i hlow hhigh => h i hlow (by omega)]
    rfl

theorem fileSlots_succ (h : dir (32 * k) ≠ typeFile) :
    fileSlots dir k count = fileSlots dir (k + 1) (count - 1) :=
  fileSlots_skip 1 fun i hlow hhigh => by rwa [(by omega : i = k)]

/-- A set is one file slot; what follows stands behind the set. -/
theorem SetAt.fileSlots (hset : SetAt dir k) (hfile : dir (32 * k) = typeFile) (hpos : 0 < count) :
    fileSlots dir k count = k :: fileSlots dir (k + (secondaryCount dir (32 * k) + 1))
      (count - (secondaryCount dir (32 * k) + 1)) := by
  obtain ⟨rest, rfl⟩ : ∃ rest, count = 1 + rest := ⟨count - 1, by omega⟩
  have hhead : Exfat.fileSlots dir k 1 = [k] := by
    rw [Exfat.fileSlots, range'_one, filter_cons_of_pos (by simpa using hfile), filter_nil]
  have htail := @fileSlots_skip dir (k + 1) rest (secondaryCount dir (32 * k))
    fun i hlow hhigh => hset.not_file (by omega) (by omega)
  have hstart : k + (secondaryCount dir (32 * k) + 1) = k + 1 + secondaryCount dir (32 * k) := by omega
  have hcount : 1 + rest - (secondaryCount dir (32 * k) + 1) = rest - secondaryCount dir (32 * k) := by
    omega
  rw [fileSlots_append, hhead, htail, hstart, hcount]
  rfl

theorem DirOk.mem_fileSlots (hok : DirOk dir) : k ∈ fileSlots dir 0 128 ↔ Live dir k := by
  rw [fileSlots, mem_filter, mem_range'_1, decide_eq_true_eq]
  constructor
  · rintro ⟨⟨-, hk⟩, hfile⟩
    exact hok.live (by omega) hfile
  · rintro ⟨hk, hfile⟩
    exact ⟨⟨by omega, by omega⟩, hfile⟩

end Slots

section Names

theorem take_append_take {α : Type} (n : ℕ) (left right : List α) :
    (left.take n ++ right).take n = (left ++ right).take n := by
  have hsub : n - min n left.length = n - left.length := by omega
  rw [take_append, take_append, take_take, Nat.min_self, length_take, hsub]

/-- The name of a set whose entries behind the stream entry are name entries. -/
theorem entryName_of_names (hend : offset + 32 * secondaryCount buffer offset < 4096)
    (hnames : ∀ j, 2 ≤ j → j ≤ secondaryCount buffer offset → buffer (offset + 32 * j) = typeName) :
    entryName buffer offset = (((List.range' 2 (secondaryCount buffer offset - 1)).flatMap
      fun sec => nameChunk buffer (offset + 32 * sec)).take 255).takeWhile (· ≠ 0) := by
  have hall : ∀ entry ∈ (range' 2 (secondaryCount buffer offset - 1)).map
      (fun sec => offset + 32 * sec), entry < 4096 ∧ buffer entry = typeName := by
    intro entry h
    obtain ⟨j, hj, rfl⟩ := mem_map.mp h
    have hrange := mem_range'_1.mp hj
    exact ⟨by omega, hnames j hrange.1 (by omega)⟩
  have hoffsets : nameOffsets buffer offset =
      (range' 2 (secondaryCount buffer offset - 1)).map fun sec => offset + 32 * sec := by
    rw [nameOffsets, takeWhile_eq_self_iff.mpr fun entry h => decide_eq_true (hall entry h).1,
      filter_eq_self.mpr fun entry h => decide_eq_true (hall entry h).2]
  rw [entryName, hoffsets, flatMap_map]
  rfl

theorem SetAt.names_at (hset : SetAt dir k) (hlow : 2 ≤ i) (hhigh : i ≤ secondaryCount dir (32 * k)) :
    dir (32 * k + 32 * i) = typeName := by
  rw [← mul_add]
  exact hset.names i hlow hhigh

theorem SetAt.entryName_eq (hset : SetAt dir k) :
    entryName dir (32 * k) = (((List.range' 2 (secondaryCount dir (32 * k) - 1)).flatMap
      fun sec => nameChunk dir (32 * k + 32 * sec)).take 255).takeWhile (· ≠ 0) :=
  entryName_of_names (by have hfits := hset.fits; omega) fun _ => hset.names_at

/-- A listing takes the characters of a name entry up to the end of the buffer. -/
theorem listUnits_eq (units : List ℕ) (name : List UInt8) (hlength : name.length ≤ 255)
    (hascii : ∀ unit ∈ units, unit ≤ 0x7F) : listUnits units name =
      some ((name ++ (units.takeWhile (· ≠ 0)).map UInt8.ofNat).take 255) := by
  have hkeep (tail : List UInt8) (hfull : 255 ≤ name.length) : (name ++ tail).take 255 = name := by
    rw [take_append_of_le_length hfull, take_of_length_le hlength]
  induction units generalizing name with
  | nil => simp [listUnits, take_of_length_le hlength]
  | cons unit units ih =>
    rw [listUnits]
    by_cases hfull : 255 ≤ name.length
    · rw [if_pos hfull, hkeep _ hfull]
    rw [if_neg hfull]
    by_cases hzero : unit = 0
    · simp [hzero, take_of_length_le hlength]
    have hsmall := Nat.not_lt.mpr (hascii unit mem_cons_self)
    have hnext : (name ++ [UInt8.ofNat unit]).length ≤ 255 := by
      rw [length_append, length_singleton]
      omega
    rw [if_neg hzero, if_neg hsmall, ih _ hnext (fun unit' hmem => hascii unit' (mem_cons_of_mem unit hmem))
        (fun tail hfull => by rw [take_append_of_le_length hfull, take_of_length_le hnext]),
      takeWhile_cons_of_pos (by simpa using hzero), map_cons, append_assoc]
    rfl

/-- A listing takes the characters of all name entries up to the end of the buffer. -/
theorem listName_eq (secs : List ℕ) (name : List UInt8) (hlength : name.length ≤ 255)
    (hentries : ∀ sec ∈ secs, offset + 32 * sec + 32 ≤ 4096 ∧ buffer (offset + 32 * sec) = typeName ∧
        ∀ unit ∈ nameUnits buffer (offset + 32 * sec), unit ≤ 0x7F) :
    listName buffer offset secs name =
      some ((name ++ secs.flatMap fun sec => nameChunk buffer (offset + 32 * sec)).take 255) := by
  induction secs generalizing name with
  | nil => simp [listName, take_of_length_le hlength]
  | cons sec secs ih =>
    obtain ⟨hend, htype, hascii⟩ := hentries sec mem_cons_self
    have hcut : ((name ++ nameChunk buffer (offset + 32 * sec)).take 255).length ≤ 255 := (length_take_le _ _)
    rw [listName, if_neg (Nat.not_lt.mpr hend), if_neg (not_not_intro htype),
      listUnits_eq _ name hlength hascii, Option.bind_some]
    change listName buffer offset secs ((name ++ nameChunk buffer (offset + 32 * sec)).take 255) = _
    rw [ih _ hcut fun sec' hmem => hentries sec' (mem_cons_of_mem sec hmem), take_append_take,
      flatMap_cons, append_assoc]

variable (htidy : Tidy dir) (hk : Live dir k)
include htidy hk

/-- The listing of names shows the name that lookups compare with. -/
theorem Tidy.listName : listName dir (32 * k) (List.range' 2 (secondaryCount dir (32 * k) - 1)) [] =
    some (entryName dir (32 * k)) := by
  have hset := htidy.ok.setAt hk
  have hfits := hset.fits
  rw [listName_eq _ _ zero_le, hset.entryName_eq, nil_append, takeWhile_eq_self_iff.mpr]
  · intro c hc
    obtain ⟨sec, hsec, hchunk⟩ := mem_flatMap.mp (mem_of_mem_take hc)
    obtain ⟨unit, hunit, rfl⟩ := mem_map.mp hchunk
    have hrange := mem_range'_1.mp hsec
    have hsmall := htidy.ascii k hk sec hrange.1 (by omega) unit ((takeWhile_sublist _).subset hunit)
    have hne := mem_takeWhile_imp hunit
    rw [decide_eq_true_eq] at hne ⊢
    intro hzero
    have hval := congrArg UInt8.toNat hzero
    rw [UInt8.toNat_ofNat', UInt8.toNat_zero] at hval
    omega
  · intro sec hsec
    have hrange := mem_range'_1.mp hsec
    exact ⟨by omega, hset.names_at hrange.1 (by omega), htidy.ascii k hk sec hrange.1 (by omega)⟩

end Names

theorem DirOk.fileSlots_late (hok : DirOk dir) (hlow : 126 ≤ k) : fileSlots dir k (128 - k) = [] :=
  fileSlots_eq_nil fun i hle hi hfile => by
    have hlive := (hok.live (by omega : i < 128) hfile).1
    omega

theorem Tidy.unused (htidy : Tidy dir) (hzero : dir (32 * k) = 0) (hle : k ≤ i) (hi : i < 128) :
    dir (32 * i) ≠ typeFile := by
  rw [htidy.packed k i hle hi hzero]
  exact zero_ne_typeFile

/-- The listing of names, from a slot on. -/
theorem Tidy.listScan_from (htidy : Tidy dir) (fuel k : ℕ) (hfuel : 126 ≤ k + fuel) (hk : k ≤ 128) :
    listScan dir true fuel (32 * k) = (fileSlots dir k (128 - k)).map fun j => entryName dir (32 * j) := by
  induction fuel generalizing k with
  | zero =>
    rw [htidy.ok.fileSlots_late (by omega)]
    rfl
  | succ fuel ih =>
    rw [listScan]
    by_cases hend : 32 * k ≤ 4096 - 96
    · rw [if_pos hend]
      by_cases hzero : dir (32 * k) = 0
      · rw [if_pos hzero, fileSlots_eq_nil fun i hle hi => htidy.unused hzero hle (by omega)]
        rfl
      rw [if_neg hzero]
      by_cases hfile : dir (32 * k) = typeFile
      · have hlive : Live dir k := ⟨by omega, hfile⟩
        have hset := htidy.ok.setAt hlive
        have hfits := hset.fits
        have hnext : 32 * k + 32 * secondaryCount dir (32 * k) + 32 =
            32 * (k + (secondaryCount dir (32 * k) + 1)) := by omega
        have hcount : 128 - k - (secondaryCount dir (32 * k) + 1) =
            128 - (k + (secondaryCount dir (32 * k) + 1)) := by omega
        rw [if_neg (not_not_intro hfile), htidy.listName hlive, hset.fileSlots hfile (by omega), hnext,
          hcount, map_cons, ← ih _ (by omega) (by omega)]
        obtain ⟨c, name, hname⟩ := exists_cons_of_ne_nil (htidy.named k hlive)
        rw [hname]
        rfl
      · have hnext : 32 * k + 32 = 32 * (k + 1) := by omega
        have hcount : 128 - k - 1 = 128 - (k + 1) := by omega
        rw [if_pos hfile, hnext, ih _ (by omega) (by omega), ← hcount, ← fileSlots_succ hfile]
    · rw [if_neg hend, htidy.ok.fileSlots_late (by omega)]
      rfl

section Print

variable {sector : Bytes}

theorem Shifted.field (h : Shifted (512 * s) sector dir) (width : ℕ) (hend : offset + width ≤ 512) :
    field sector offset width = field dir (512 * s + offset) width := by
  unfold Exfat.field
  congr 1
  apply map_congr_left
  intro x hx
  rw [mem_range] at hx
  rw [h _ (by omega), add_assoc]

theorem Shifted.secondaryCount_slot (h : Shifted (512 * s) sector dir) (hi : i < 16) :
    Exfat.secondaryCount sector (32 * i) = Exfat.secondaryCount dir (32 * (16 * s + i)) := by
  rw [h.secondaryCount (32 * i) (by omega), (by omega : 512 * s + 32 * i = 32 * (16 * s + i))]

theorem FitsSector.end_le (h : FitsSector dir (16 * s + i)) (hi : i < 16) :
    32 * i + 32 * (secondaryCount dir (32 * (16 * s + i)) + 1) ≤ 512 := by
  rwa [FitsSector, (by omega : 32 * (16 * s + i) % 512 = 32 * i)] at h

/-- A set that lies in one sector has the same line in the sector and in the directory. -/
theorem lineAt_shifted (h : Shifted (512 * s) sector dir) (hi : i < 16)
    (hset : SetAt dir (16 * s + i)) (hfits : FitsSector dir (16 * s + i)) :
    lineAt sector i = lineAt dir (16 * s + i) := by
  have hoffset (x : ℕ) : 512 * s + (32 * i + x) = 32 * (16 * s + i) + x := by omega
  have hcount := h.secondaryCount_slot hi
  have htwo := hset.count
  have hend := hfits.end_le hi
  have hname : entryName sector (32 * i) = entryName dir (32 * (16 * s + i)) := by
    rw [entryName_of_names (by omega) fun j hlow hhigh => ?_, hcount, hset.entryName_eq]
    · congr 2
      apply flatMap_congr
      intro j hj
      have hrange := mem_range'_1.mp hj
      unfold nameChunk nameUnits
      congr 2
      apply map_congr_left
      intro c hc
      rw [mem_range] at hc
      rw [h.field 2 (by omega)]
      congr 1
      omega
    · rw [hcount] at hhigh
      rw [h _ (by omega), hoffset]
      exact hset.names_at hlow hhigh
  have hdir : isDirectory sector (32 * i) = isDirectory dir (32 * (16 * s + i)) := by
    rw [isDirectory, isDirectory, h.field 2 (by omega), hoffset]
  have hlength : dataLength sector (32 * i) = dataLength dir (32 * (16 * s + i)) := by
    rw [dataLength, dataLength, h.field 8 (by omega), hoffset]
  rw [lineAt, lineAt, hname, hdir, hlength]

/-- One sector of the printed listing, from an entry of the sector on. -/
theorem Tidy.printSector_from (htidy : Tidy dir) (h : Shifted (512 * s) sector dir) (hs : s < 8)
    (hfits : ∀ j, Live dir j → FitsSector dir j) (fuel i : ℕ) (hi : i ≤ 16) (hfuel : 16 ≤ i + fuel) :
    ∃ ended, printSector true sector fuel (32 * i) =
        some ((fileSlots dir (16 * s + i) (16 - i)).map (lineAt dir), ended) ∧
      (ended = true → ∀ j, 16 * s + 16 ≤ j → j < 128 → dir (32 * j) ≠ typeFile) := by
  induction fuel generalizing i with
  | zero =>
    have hzero : 16 - i = 0 := by omega
    rw [hzero]
    exact ⟨false, rfl, nofun⟩
  | succ fuel ih =>
    rw [printSector]
    by_cases hend : 512 ≤ 32 * i
    · have hzero : 16 - i = 0 := by omega
      rw [if_pos hend, hzero]
      exact ⟨false, rfl, nofun⟩
    have htype : sector (32 * i) = dir (32 * (16 * s + i)) := by
      rw [h _ (by omega), (by omega : 512 * s + 32 * i = 32 * (16 * s + i))]
    rw [if_neg hend, htype]
    by_cases hzero : dir (32 * (16 * s + i)) = 0
    · rw [if_pos hzero, fileSlots_eq_nil fun j hle hj => htidy.unused hzero hle (by omega)]
      exact ⟨true, rfl, fun _ j hle hj => htidy.unused hzero (by omega) hj⟩
    rw [if_neg hzero]
    by_cases hfile : dir (32 * (16 * s + i)) = typeFile
    · have hlive := htidy.ok.live (by omega) hfile
      have hset := htidy.ok.setAt hlive
      have htwo := hset.count
      have hsector := (hfits _ hlive).end_le (by omega)
      have hcount := h.secondaryCount_slot (by omega : i < 16)
      have hline := lineAt_shifted h (by omega) hset (hfits _ hlive)
      obtain ⟨ended, hrest, hbehind⟩ :=
        ih (i + (secondaryCount dir (32 * (16 * s + i)) + 1)) (by omega) (by omega)
      have hnext : 32 * i + 32 * secondaryCount dir (32 * (16 * s + i)) + 32 =
          32 * (i + (secondaryCount dir (32 * (16 * s + i)) + 1)) := by omega
      have hleft : 16 - i - (secondaryCount dir (32 * (16 * s + i)) + 1) =
          16 - (i + (secondaryCount dir (32 * (16 * s + i)) + 1)) := by omega
      refine ⟨ended, ?_, hbehind⟩
      rw [if_neg (not_not_intro hfile), hcount, if_neg (by omega), hnext, hrest,
        hset.fileSlots hfile (by omega), hleft, map_cons, add_assoc, ← hline]
      unfold lineAt
      by_cases hdir : isDirectory sector (32 * i)
      · simp [hdir]
      · simp [hdir]
        omega
    · obtain ⟨ended, hrest, hbehind⟩ := ih (i + 1) (by omega) (by omega)
      have hnext : 32 * i + 32 = 32 * (i + 1) := by omega
      have hleft : 16 - i - 1 = 16 - (i + 1) := by omega
      refine ⟨ended, ?_, hbehind⟩
      rw [if_pos hfile, hnext, hrest, ← hleft, ← add_assoc, ← fileSlots_succ hfile]

variable {v : Volume} {d : ℕ}

/-- The sectors of the printed listing, from a sector of the directory on. -/
theorem Tidy.printSectors_from (htidy : Tidy (clusterAt v.bytes d)) (hready : v.Ready)
    (hlba : 8 * (d + 766) + 8 ≤ lbaLimit)
    (hfits : ∀ j, Live (clusterAt v.bytes d) j → FitsSector (clusterAt v.bytes d) j)
    (count s : ℕ) (hs : s + count = 8) :
    printSectors true (8 * (d + 766) + s) count v =
      .ok ((fileSlots (clusterAt v.bytes d) (16 * s) (16 * count)).map (lineAt (clusterAt v.bytes d))) v := by
  induction count generalizing s with
  | zero => rfl
  | succ count ih =>
    have hshift : Shifted (512 * s) (sectorAt v.bytes (8 * (d + 766) + s)) (clusterAt v.bytes d) :=
      fun x hx => sectorAt_cluster (by omega) hx
    obtain ⟨ended, hsector, hbehind⟩ :=
      htidy.printSector_from hshift (by omega) hfits 16 0 (by decide) (by decide)
    have hread := exfatSectorRead_quiet hready.quiet (hready.accepts (by omega : 8 * (d + 766) + s < lbaLimit))
    have hsplit : 16 * (count + 1) = 16 + 16 * count := by omega
    rw [printSectors, bind_ok hread, hsector, hsplit, fileSlots_append, map_append]
    cases ended with
    | true =>
      rw [fileSlots_eq_nil (k := 16 * s + 16) fun i hlow hhigh => hbehind rfl i hlow (by omega),
        map_nil, append_nil]
      rfl
    | false =>
      have hrest := ih (s + 1) (by omega)
      have hnext : 16 * (s + 1) = 16 * s + 16 := by omega
      rw [← add_assoc, hnext] at hrest
      exact bind_ok hrest

theorem Tidy.print (htidy : Tidy v.cwd) (hv : v.Sound) (hready : v.Ready)
    (hfits : ∀ j, Live v.cwd j → FitsSector v.cwd j) :
    exfatPrintDirectory true v = .ok ((fileSlots v.cwd 0 128).map (lineAt v.cwd)) v := by
  have hlast := hv.lba_lt hv.current (by decide : 7 < 8)
  rw [exfatPrintDirectory, get_bind, hv.clusterLba hv.current]
  exact htidy.printSectors_from hready (by omega) hfits 8 0 rfl

/-- The listing of the names of a tidy directory. -/
theorem Tidy.list (htidy : Tidy v.cwd) (hv : v.Sound) (hready : v.Ready) :
    exfatListEntries v = .ok ((fileSlots v.cwd 0 128).map fun j => entryName v.cwd (32 * j)) v := by
  have hread := readSectors_quiet hready.quiet fun s (hs : s < 8) => hready.accepts (hv.lba_lt hv.current hs)
  have hscan := htidy.listScan_from 126 0 le_rfl (by decide)
  rw [exfatListEntries, exfatListEntriesImpl, get_bind, hv.clusterLba hv.current, bind_ok hread]
  rw [← hv.clusterLba hv.current, ← Volume.directory, hv.directory]
  exact congrArg (EStateM.Result.ok · v) hscan

end Print

/-!
## Whether the directory readers agree

`exfat_print_directory`, `exfat_list_entries` and `exfat_resolve_entry` on a directory that
creates and deletes of ASCII names have filled, starting from a zeroed cluster. The invariant
is a tidy directory without written files. Three things make the readers disagree: the printed
listing reads past its sector buffer when a set continues in the next sector, it shows a file's name
in a column of sixteen characters, and `exfat_create_node` accepts a name that is taken, after which
lookups see one entry and the listing shows both.
-/

open NameChange

/-- The name as it is printed: `str_pad` cuts the name of a file or fills it up with blanks. -/
def Listed.printedName (line : Listed) : List UInt8 :=
  match line.size with
  | none => line.name
  | some _ => line.name.take 16 ++ replicate (16 - line.name.length) 32

/-- The name that a reader of the line sees, for a file without the blanks at the end of its column. -/
def Listed.seenName (line : Listed) : List UInt8 :=
  match line.size with
  | none => line.printedName
  | some _ => line.printedName.rdropWhile (· = 32)

/-- Names up to letter case, with the size of a file; a directory has none. -/
abbrev EntrySet := Set (List UInt8 × Option ℕ)

/-- What the printed listing tells. -/
def printedEntries (lines : List Listed) : EntrySet :=
  { e | ∃ line ∈ lines, e = (line.seenName.map lowerCase, line.size) }

/-- What lookups of all names tell. -/
def resolvedEntries (v : Volume) : EntrySet :=
  { e | ∃ name target v', exfatResolveEntry name v = .ok target v' ∧
    e = (name.map lowerCase, if target.isDir then none else some target.size) }

/-- The three readers succeed and show the same names, kinds and sizes. -/
def ReadersAgree (v : Volume) : Prop :=
  ∃ lines names v₁ v₂, exfatPrintDirectory true v = .ok lines v₁ ∧
    exfatListEntries v = .ok names v₂ ∧ printedEntries lines = resolvedEntries v ∧
    { n | ∃ name ∈ names, n = name.map lowerCase } = Set.image Prod.fst (resolvedEntries v)

/-- A string of ASCII characters. -/
def Ascii (name : List UInt8) : Prop := ∀ c ∈ name, c ≠ 0 ∧ c < 128

/-- A tidy directory in which no file has been written. -/
structure Unwritten (dir : Bytes) : Prop extends Tidy dir where
  empty : ∀ k, Live dir k → dataLength dir (32 * k) = 0

variable {dir' : Bytes} {name : List UInt8} {isDir : Bool} {cluster j k : ℕ}

section Invariant

/-- The facts about one set that the invariant collects. -/
structure PlainSet (dir : Bytes) (k : ℕ) : Prop where
  ascii : AsciiSet dir k
  named : entryName dir (32 * k) ≠ []
  empty : dataLength dir (32 * k) = 0

/-- Sets with the same bytes share these facts. -/
theorem PlainSet.congr (h : PlainSet dir k) (hset : SetAt dir k) (hsame : SameSet dir dir' k) :
    PlainSet dir' k := by
  have htwo := hset.count
  have hcount : secondaryCount dir' (32 * k) = secondaryCount dir (32 * k) := by
    rw [secondaryCount, secondaryCount, hsame _ (by omega) (by omega)]
  refine ⟨fun j hlow hhigh unit hunit => ?_, ?_, ?_⟩
  · rw [hcount] at hhigh
    have hunits : nameUnits dir (32 * k + 32 * j) = nameUnits dir' (32 * k + 32 * j) := by
      apply map_congr_left
      intro c hc
      rw [mem_range] at hc
      exact field_congr fun i hi => hsame _ (by omega) (by omega)
    exact h.ascii j hlow hhigh unit (hunits ▸ hunit)
  · have hname : entryName dir (32 * k) = entryName dir' (32 * k) :=
      entryName_congr (hsame _ (by omega) (by omega)) (fun j _ _ => hsame _ (by omega) (by omega))
        fun j _ _ _ x _ _ => hsame _ (by omega) (by omega)
    exact hname ▸ h.named
  · have hlength : dataLength dir (32 * k) = dataLength dir' (32 * k) :=
      field_congr fun i hi => hsame _ (by omega) (by omega)
    exact hlength ▸ h.empty

theorem unwritten_of_sets (hok : DirOk dir)
    (hpacked : ∀ j k, j ≤ k → k < 128 → dir (32 * j) = 0 → dir (32 * k) = 0)
    (hsets : ∀ k, Live dir k → PlainSet dir k) : Unwritten dir :=
  ⟨⟨hok, hpacked, fun k hk => (hsets k hk).ascii, fun k hk => (hsets k hk).named⟩, fun k hk => (hsets k hk).empty⟩

theorem Unwritten.plain (h : Unwritten dir) (hk : Live dir k) : PlainSet dir k :=
  ⟨h.ascii k hk, h.named k hk, h.empty k hk⟩

theorem unwritten_zero : Unwritten fun _ => 0 :=
  unwritten_of_sets (fun _ _ hfile => absurd hfile zero_ne_typeFile) (fun _ _ _ _ _ => rfl)
    fun _ hk => absurd hk.2 zero_ne_typeFile

/-- A new set with an ASCII name is plain. -/
theorem plainSet_withSet (hname : name ≠ []) (hascii : Ascii name) (hcluster : cluster < 2 ^ 32)
    (hfits : k + totalEntries name ≤ 128) : PlainSet (withSet dir name isDir cluster k) k := by
  obtain ⟨hcount, -, -, hlength⟩ := withSet_fields hname hcluster dir isDir k
  refine ⟨fun j hlow hhigh unit hunit => ?_, ?_, hlength⟩
  · have hentries : totalEntries name = nameEntries name + 2 := add_comm _ _
    have hoffset : 32 * k + 32 * j = 32 * (k + (j - 2 + 2)) := by omega
    rw [hoffset, nameUnits_withSet (by omega)] at hunit
    obtain ⟨c, -, rfl⟩ := mem_map.mp hunit
    cases hchar : ((name.take 255).drop (15 * (j - 2)))[c]? with
    | none => exact zero_le
    | some char =>
      have hmem := mem_of_mem_take (mem_of_mem_drop (mem_of_getElem? hchar))
      have hsmall : char < 128 := (hascii char hmem).2
      change codeUnit char ≤ 0x7F
      rw [codeUnit, if_pos hsmall]
      exact Nat.le_of_lt_succ hsmall
  · rw [entryName_withSet hname hcluster (fun c hc => (hascii c hc).1) hfits]
    intro hnil
    rw [take_eq_nil_iff] at hnil
    exact hnil.elim (by decide) hname

/-- The gap a new set goes to has no unused entry before it. -/
theorem Tidy.freeSlot_packed (htidy : Tidy dir) {entries : ℕ} (hslot : freeSlot dir entries = some k)
    (hentries : entries ≤ 128) (hj : j < k) : dir (32 * j) ≠ 0 := by
  intro hzero
  obtain ⟨-, hmem, hfirst⟩ := find?_range_eq_some.mp hslot
  rw [mem_range] at hmem
  have hgap : ((range entries).all fun i => entryFree (dir (32 * (j + i)))) = true := by
    rw [all_eq_true]
    intro i hi
    rw [mem_range] at hi
    rw [htidy.packed j (j + i) (by omega) (by omega) hzero]
    rfl
  have hno := hfirst j hj
  rw [hgap] at hno
  contradiction

/-- Placing a set with an ASCII name keeps the invariant. -/
theorem Unwritten.place (h : Unwritten dir) (hname : name ≠ []) (hascii : Ascii name)
    (hcluster : cluster < 2 ^ 32) (hslot : freeSlot dir (totalEntries name) = some k) :
    Unwritten (withSet dir name isDir cluster k) := by
  have hbounds := totalEntries_bounds hname
  obtain ⟨hfits, hfree⟩ := freeSlot_some (by omega) hslot
  refine unwritten_of_sets (h.ok.place hname hcluster hfits hfree) ?_ ?_
  · intro i j hle hj hzero
    by_cases hin : k ≤ i ∧ i < k + totalEntries name
    · obtain ⟨x, rfl⟩ := Nat.exists_eq_add_of_le hin.1
      rw [withSet_type dir isDir cluster k (by omega)] at hzero
      split_ifs at hzero <;> contradiction
    · rw [withSet_type_out (by omega)] at hzero
      have hbehind : ¬ i < k := fun hlt => h.toTidy.freeSlot_packed hslot (by omega) hlt hzero
      rw [withSet_type_out (by omega)]
      exact h.packed i j hle hj hzero
  · intro j hj
    by_cases hjk : j = k
    · rw [hjk]
      exact plainSet_withSet hname hascii hcluster hfits
    · obtain ⟨hold, hsame⟩ := h.ok.live_withSet hname hslot hj hjk
      exact (h.plain hold).congr (h.ok.setAt hold) hsame

theorem SetAt.cleared_ne_zero (hset : SetAt dir k) (hfile : dir (32 * k) = typeFile)
    (hj : j ≤ secondaryCount dir (32 * k)) : dir (32 * (k + j)) &&& 0x7F ≠ 0 := by
  rcases Nat.eq_zero_or_pos j with rfl | hpos
  · rw [add_zero, hfile]
    decide
  · rcases hset.secondary hpos hj with h | h <;> rw [h] <;> decide

/-- Clearing a set keeps the invariant. -/
theorem Unwritten.clear (h : Unwritten dir) (hk : Live dir k) :
    Unwritten (clearedSector dir (32 * k) (secondaryCount dir (32 * k) + 1)) := by
  have hset := h.ok.setAt hk
  refine unwritten_of_sets (h.ok.clear hk) ?_ ?_
  · have hzero_iff (i : ℕ) : clearedSector dir (32 * k) (secondaryCount dir (32 * k) + 1) (32 * i) = 0 ↔
        dir (32 * i) = 0 := by
      by_cases hin : k ≤ i ∧ i ≤ k + secondaryCount dir (32 * k)
      · obtain ⟨x, rfl⟩ := Nat.exists_eq_add_of_le hin.1
        have huse := hset.in_use hk.2 hin.1 hin.2
        rw [clearedSector_type (by omega)]
        refine ⟨fun hzero => absurd hzero (hset.cleared_ne_zero hk.2 (by omega)), fun hzero => ?_⟩
        rw [hzero] at huse
        exact absurd rfl huse
      · rw [clearedSector_of_ne fun x hx => by omega]
    intro i j hle hj hzero
    rw [hzero_iff] at hzero ⊢
    exact h.packed i j hle hj hzero
  · intro j hj
    obtain ⟨hold, hsame⟩ := h.ok.live_cleared hk hj
    exact (h.plain hold).congr (h.ok.setAt hold) hsame

end Invariant

section Runs

variable {start v v' : Volume} {change : NameChange}

/-- What holds of the volume along a history. -/
structure Volume.Plain (v : Volume) : Prop extends v.Usable where
  unwritten : Unwritten v.cwd

theorem Volume.Plain.changed (h : v.Plain) (hascii : Ascii change.name)
    (hrun : change.run v = .ok () v') : v'.Plain := by
  refine ⟨h.toUsable.changed hrun, ?_⟩
  rcases h.toUsable.cwd_changed hrun with ⟨isDir, k, first, hname, hslot, hfirst, hcwd⟩ | ⟨k, hk, hcwd⟩
  · rw [hcwd]
    exact h.unwritten.place hname hascii hfirst hslot
  · rw [hcwd]
    exact h.unwritten.clear hk

theorem Filled.plain (h : Filled Ascii start v) (hstart : start.Plain) : v.Plain :=
  h.invariant Volume.Plain.toUsable (fun _ hv => ⟨hv.toUsable.with_outcomes, hv.unwritten⟩)
    (fun hv hascii hrun => hv.changed hascii hrun) hstart

/-- A lookup without failures to come succeeds exactly for the names of live slots. -/
theorem Volume.Plain.mem_resolved (h : v.Plain) (hready : v.Ready) {e : List UInt8 × Option ℕ} :
    e ∈ resolvedEntries v ↔ ∃ name k, findSlot v.cwd name = some k ∧
      e = (name.map lowerCase, (lineAt v.cwd k).size) := by
  have hresolve := h.toSound.resolve_quiet hready
  constructor
  · rintro ⟨name, target, v', hok, rfl⟩
    rw [hresolve] at hok
    cases hfind : findSlot v.cwd name with
    | none =>
      rw [hfind] at hok
      cases hok
    | some k =>
      rw [hfind] at hok
      cases hok
      exact ⟨name, k, hfind, rfl⟩
  · rintro ⟨name, k, hfind, rfl⟩
    refine ⟨name, v.target k, v, ?_, rfl⟩
    rw [hresolve, hfind]

/-- The name of a live slot is found, in the first slot that has it. -/
theorem findSlot_name (hk : Live dir k) : ∃ j, findSlot dir (entryName dir (32 * k)) = some j ∧
    Live dir j ∧ exfatNameEqual (entryName dir (32 * j)) (entryName dir (32 * k)) := by
  have hself : exfatNameEqual (entryName dir (32 * k)) (entryName dir (32 * k)) = true :=
    exfatNameEqual_iff.mpr rfl
  cases hfind : findSlot dir (entryName dir (32 * k)) with
  | none =>
    have hk' := hk.1
    have hno := find?_eq_none.mp hfind k (mem_range'_1.mpr ⟨by omega, by omega⟩)
    exact absurd (decide_eq_true ⟨hk.2, hself⟩) hno
  | some j => exact ⟨j, rfl, findSlot_some hfind⟩

/-- A name of at most sixteen characters that does not end in a blank is seen as it is. -/
theorem seen_of_short (hshort : name.length ≤ 16) (hend : name.getLast? ≠ some 32) :
    (name.take 16 ++ replicate (16 - name.length) 32).rdropWhile (· = 32) = name := by
  rw [take_of_length_le hshort, rdropWhile, reverse_append, reverse_replicate,
    dropWhile_append_of_pos fun c hc => decide_eq_true (eq_of_mem_replicate hc), ← rdropWhile,
    rdropWhile_eq_self_iff]
  intro hne hblank
  exact hend ((getLast?_eq_getLast_of_ne_nil hne).trans (congrArg some (of_decide_eq_true hblank)))

variable (hfits : ∀ k, Live v.cwd k → FitsSector v.cwd k)
  (hshort : ∀ k, Live v.cwd k → isDirectory v.cwd (32 * k) = false →
    (entryName v.cwd (32 * k)).length ≤ 16 ∧ (entryName v.cwd (32 * k)).getLast? ≠ some 32)
  (hkind : ∀ j k, Live v.cwd j → Live v.cwd k →
    exfatNameEqual (entryName v.cwd (32 * j)) (entryName v.cwd (32 * k)) →
      isDirectory v.cwd (32 * j) = isDirectory v.cwd (32 * k))
include hfits hshort hkind

/-- The readers agree if every set lies in one sector, file names have at most sixteen characters
without a blank at the end and entries with the same name are of one kind. -/
theorem Volume.Plain.readers_agree (h : v.Plain) (hready : v.Ready) : ReadersAgree v := by
  have hslots {k : ℕ} := h.unwritten.ok.mem_fileSlots (k := k)
  have hprinted (k : ℕ) (hk : Live v.cwd k) : (lineAt v.cwd k).seenName = entryName v.cwd (32 * k) := by
    unfold Listed.seenName Listed.printedName lineAt
    by_cases hdir : isDirectory v.cwd (32 * k) = true
    · simp only [if_pos hdir]
    · obtain ⟨hlength, hend⟩ := hshort k hk (Bool.eq_false_iff.mpr hdir)
      simp only [if_neg hdir]
      exact seen_of_short hlength hend
  -- the first slot with a name has the same line as every other slot with that name
  have hfirst (k : ℕ) (hk : Live v.cwd k) : ((entryName v.cwd (32 * k)).map lowerCase,
      (lineAt v.cwd k).size) ∈ resolvedEntries v := by
    obtain ⟨j, hfind, hj, hname⟩ := findSlot_name hk
    refine (h.mem_resolved hready).mpr ⟨_, j, hfind, ?_⟩
    unfold lineAt
    rw [hkind j k hj hk hname, h.unwritten.empty j hj, h.unwritten.empty k hk]
  have hfound {e : List UInt8 × Option ℕ} (he : e ∈ resolvedEntries v) : ∃ k, Live v.cwd k ∧
      e = ((entryName v.cwd (32 * k)).map lowerCase, (lineAt v.cwd k).size) := by
    obtain ⟨name, k, hfind, rfl⟩ := (h.mem_resolved hready).mp he
    obtain ⟨hk, hname⟩ := findSlot_some hfind
    exact ⟨k, hk, by rw [exfatNameEqual_iff.mp hname]⟩
  refine ⟨_, _, v, v, h.unwritten.print h.toSound hready hfits, h.unwritten.list h.toSound hready,
    Set.ext fun e => ⟨?_, fun he => ?_⟩, Set.ext fun n => ⟨?_, ?_⟩⟩
  · rintro ⟨line, hline, rfl⟩
    obtain ⟨k, hk, rfl⟩ := mem_map.mp hline
    rw [hslots] at hk
    rw [hprinted k hk]
    exact hfirst k hk
  · obtain ⟨k, hk, rfl⟩ := hfound he
    exact ⟨lineAt v.cwd k, mem_map_of_mem (hslots.mpr hk), by rw [hprinted k hk]⟩
  · rintro ⟨name, hname, rfl⟩
    obtain ⟨k, hk, rfl⟩ := mem_map.mp hname
    exact ⟨_, hfirst k (hslots.mp hk), rfl⟩
  · rintro ⟨e, he, rfl⟩
    obtain ⟨k, hk, rfl⟩ := hfound he
    exact ⟨_, mem_map_of_mem (hslots.mpr hk), rfl⟩

/-- On every directory that creates and deletes of ASCII names have filled from a zeroed cluster the
readers agree, if its sets lie in one sector each, its files have at most sixteen characters in
their names and no blank at the end, and entries with the same name are of one kind. -/
theorem readers_agree_of_filled (start : Volume) (hsound : start.Sound) (hready : start.Ready)
    (hzero : start.cwd = fun _ => 0) (hv : Filled Ascii start v) : ReadersAgree { v with outcomes := [] } := by
  have hplain := hv.plain ⟨⟨hsound, hready.present⟩, hzero ▸ unwritten_zero⟩
  have hquiet : { v with outcomes := [] }.Plain := ⟨hplain.toUsable.with_outcomes, hplain.unwritten⟩
  exact hquiet.readers_agree hfits hshort hkind ⟨rfl, hplain.present⟩

end Runs

section Examples

/-- The files `a` to `f` are created. -/
def sixFiles : List NameChange := [97, 98, 99, 100, 101, 102].map fun c => .create [c] false

/-- With six files in a new directory the printed listing reads past its buffer. -/
theorem six_files_not_printed : ∃ start v, start.Sound ∧ start.Ready ∧ (start.cwd = fun _ => 0) ∧
    Filled Ascii start v ∧ (∃ w, exfatPrintDirectory true { v with outcomes := [] } = .error .undefined w) ∧
      ¬ ReadersAgree { v with outcomes := [] } := by
  obtain ⟨hsound, hready, hzero⟩ := emptyDirectory_zeroed
  obtain ⟨_, hrun⟩ := ok_of_stopReason (runChanges sixFiles emptyDirectory) (by decide +kernel)
  have hprint := error_of_stopReason (by decide +kernel : stopReason (exfatPrintDirectory true
    { finalState (runChanges sixFiles emptyDirectory) with outcomes := [] }) = some .undefined)
  have hascii : ∀ change ∈ sixFiles, Ascii change.name ∧ ∀ w, change.InBounds w := by
    simp [sixFiles, NameChange.name, Ascii, InBounds]
  refine ⟨emptyDirectory, _, hsound, hready, hzero, filled_of_run sixFiles .start hascii hrun, ⟨_, hprint⟩, ?_⟩
  rintro ⟨lines, names, v₁, v₂, hok, -⟩
  rw [hprint] at hok
  cases hok

/-- The files `a` and `c` and a directory `B` are created. -/
def filesAndDirectory : List NameChange := [.create [97] false, .create [66] true, .create [99] false]

/-- The directory with the three entries. -/
def threeEntries : Volume := finalState (runChanges filesAndDirectory emptyDirectory)

/-- The directory after the file `a` has been deleted. -/
def twoEntries : Volume := finalState (exfatDeleteNode [97] threeEntries)

theorem twoEntries_filled : Filled Ascii emptyDirectory twoEntries := by
  obtain ⟨_, hrun⟩ := ok_of_stopReason (runChanges filesAndDirectory emptyDirectory) (by decide +kernel)
  obtain ⟨_, hdelete⟩ := ok_of_stopReason (exfatDeleteNode [97] threeEntries) (by decide +kernel)
  have hascii : ∀ change ∈ filesAndDirectory, Ascii change.name ∧ ∀ w, change.InBounds w := by
    simp [filesAndDirectory, NameChange.name, Ascii, InBounds]
  have hname : Ascii (NameChange.delete [97]).name := by simp [NameChange.name, Ascii]
  exact (filled_of_run filesAndDirectory .start hascii hrun).step hname
    (fitsName_of_slot (by decide +kernel : findSlot threeEntries.cwd [97] = some 0) (by decide +kernel)) hdelete

/-- The readers agree on the file and the directory that are left. -/
theorem readers_agree_of_filled_two : ReadersAgree { twoEntries with outcomes := [] } := by
  obtain ⟨hsound, hready, hzero⟩ := emptyDirectory_zeroed
  have honly : ∀ k ≤ 125, twoEntries.cwd (32 * k) = typeFile → k ∈ [3, 6] := by decide +kernel
  have hfits : ∀ k ∈ [3, 6], FitsSector twoEntries.cwd k := by decide +kernel
  have hshort : ∀ k ∈ [3, 6], (entryName twoEntries.cwd (32 * k)).length ≤ 16 ∧
      (entryName twoEntries.cwd (32 * k)).getLast? ≠ some 32 := by decide +kernel
  have hdiffer : ∀ j ∈ [3, 6], ∀ k ∈ [3, 6],
      exfatNameEqual (entryName twoEntries.cwd (32 * j)) (entryName twoEntries.cwd (32 * k)) = true → j = k := by
    decide +kernel
  refine readers_agree_of_filled (fun k hk => hfits k (honly k hk.1 hk.2))
    (fun k hk _ => hshort k (honly k hk.1 hk.2)) (fun j k hj hk hname => ?_)
    emptyDirectory hsound hready hzero twoEntries_filled
  rw [hdiffer j (honly j hj.1 hj.2) k (honly k hk.1 hk.2) hname]

end Examples

end Windoge.Exfat
