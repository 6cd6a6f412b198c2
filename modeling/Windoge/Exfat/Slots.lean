import Windoge.Exfat.Files
import Windoge.Lib.Forest

/-!
# Well-formed directories

A directory is well formed if every slot of type 0x85 starts a complete entry set: a stream
entry and name entries fill the slots its secondary count announces. In such a directory the
scan of `exfat_resolve_entry`, which jumps from set to set, finds exactly the first slot of
type 0x85 whose name matches.
-/

namespace Windoge.Exfat

open List

/-- The slot starts a complete entry set. -/
structure SetAt (dir : Bytes) (k : ℕ) : Prop where
  count : 2 ≤ secondaryCount dir (32 * k)
  fits : k + secondaryCount dir (32 * k) < 128
  stream : dir (32 * (k + 1)) = typeStream
  names : ∀ j, 2 ≤ j → j ≤ secondaryCount dir (32 * k) → dir (32 * (k + j)) = typeName

/-- Every file entry of the directory starts a complete entry set. -/
def DirOk (dir : Bytes) : Prop := ∀ k < 128, dir (32 * k) = typeFile → SetAt dir k

/-- The slot holds a live file entry. -/
def Live (dir : Bytes) (k : ℕ) : Prop := k ≤ 125 ∧ dir (32 * k) = typeFile

/-- The slot holds a live file entry with that name. -/
def Matches (dir : Bytes) (name : List UInt8) (k : ℕ) : Bool :=
  dir (32 * k) = typeFile ∧ exfatNameEqual (entryName dir (32 * k)) name

variable {dir : Bytes} {name : List UInt8} {j k : ℕ}

/-- The entries behind the first are stream and name entries. -/
theorem SetAt.secondary (hset : SetAt dir k) (hpos : 1 ≤ j) (hle : j ≤ secondaryCount dir (32 * k)) :
    dir (32 * (k + j)) = typeStream ∨ dir (32 * (k + j)) = typeName := by
  by_cases hone : j = 1
  · rw [hone]
    exact Or.inl hset.stream
  · exact Or.inr (hset.names j (by omega) hle)

/-- No set starts within another. -/
theorem SetAt.not_file (hset : SetAt dir k) (hlt : k < j)
    (hle : j ≤ k + secondaryCount dir (32 * k)) : dir (32 * j) ≠ typeFile := by
  obtain ⟨i, rfl⟩ := Nat.exists_eq_add_of_le hlt.le
  rcases hset.secondary (j := i) (by omega) (by omega) with h | h <;> rw [h] <;> decide

/-- Every entry of a live set is in use. -/
theorem SetAt.in_use (hset : SetAt dir k) (hfile : dir (32 * k) = typeFile) (hle : k ≤ j)
    (hend : j ≤ k + secondaryCount dir (32 * k)) : dir (32 * j) &&& 0x80 ≠ 0 := by
  obtain ⟨i, rfl⟩ := Nat.exists_eq_add_of_le hle
  rcases Nat.eq_zero_or_pos i with rfl | hpos
  · rw [Nat.add_zero, hfile]
    decide
  · rcases hset.secondary hpos (by omega) with h | h <;> rw [h] <;> decide

/-- Live sets do not overlap. -/
theorem DirOk.apart (hok : DirOk dir) (hj : Live dir j) (hk : Live dir k) (hlt : j < k) :
    j + secondaryCount dir (32 * j) < k := by
  by_contra hle
  exact (hok j (by have := hj.1; omega) hj.2).not_file hlt (by omega) hk.2

/-- Skipping slots without a match does not change what is found. -/
theorem find_range'_skip {p : ℕ → Bool} (start skip count : ℕ)
    (h : ∀ i, start ≤ i → i < start + skip → p i = false) :
    (List.range' start (skip + count)).find? p = (List.range' (start + skip) count).find? p := by
  rw [← range'_append_1, find?_append]
  have hnone : (range' start skip).find? p = none := by
    rw [find?_eq_none]
    intro i hi
    have hrange := mem_range'_1.mp hi
    simp [h i hrange.1 hrange.2]
  rw [hnone, Option.none_or]

/-- Jumping over slots without a match does not change what is found before a bound. -/
theorem find_range'_jump {p : ℕ → Bool} (start skip bound : ℕ)
    (h : ∀ i, start ≤ i → i < start + skip → p i = false) :
    (List.range' start (bound - start)).find? p =
      (List.range' (start + skip) (bound - (start + skip))).find? p := by
  by_cases hle : start + skip ≤ bound
  · have hsplit : bound - start = skip + (bound - (start + skip)) := by omega
    rw [hsplit, find_range'_skip start skip _ h]
  have hzero : bound - (start + skip) = 0 := by omega
  rw [hzero, range'_zero, find?_nil, find?_eq_none]
  intro i hi
  have hrange := mem_range'_1.mp hi
  simp [h i hrange.1 (by omega)]

/-- The scan of a well-formed directory finds the first slot with the name. -/
theorem DirOk.resolveScan_from (hok : DirOk dir) (fuel k : ℕ) (hfuel : 126 ≤ k + fuel) :
    resolveScan dir name fuel (32 * k) = ((List.range' k (126 - k)).find? (Matches dir name)).map (32 * ·) := by
  induction fuel generalizing k with
  | zero =>
    have hzero : 126 - k = 0 := by omega
    rw [hzero]
    rfl
  | succ fuel ih =>
    rw [resolveScan]
    by_cases hend : 32 * k ≤ 4096 - 96
    · have hsplit : 126 - k = (126 - (k + 1)) + 1 := by omega
      rw [if_pos hend]
      by_cases hfile : dir (32 * k) = typeFile
      · rw [if_pos hfile]
        by_cases hname : exfatNameEqual (entryName dir (32 * k)) name
        · rw [if_pos hname, hsplit, range'_succ, find?_cons_of_pos (by simp [Matches, hfile, hname])]
          rfl
        have hset := hok k (by omega) hfile
        have hnext : 32 * k + 32 * secondaryCount dir (32 * k) + 32 =
            32 * (k + secondaryCount dir (32 * k) + 1) := by omega
        have hskip (i : ℕ) (hlow : k ≤ i) (hhigh : i < k + (secondaryCount dir (32 * k) + 1)) :
            Matches dir name i = false := by
          rcases Nat.eq_or_lt_of_le hlow with rfl | hlt
          · simp [Matches, hname]
          · simp [Matches, hset.not_file hlt (by omega)]
        rw [if_neg hname, hnext, ih _ (by omega)]
        exact congrArg _ (find_range'_jump k (secondaryCount dir (32 * k) + 1) 126 hskip).symm
      · have hnext : 32 * k + 32 = 32 * (k + 1) := by omega
        rw [if_neg hfile, hnext, ih _ (by omega), hsplit, range'_succ,
          find?_cons_of_neg (by simp [Matches, hfile])]
    · have hzero : 126 - k = 0 := by omega
      rw [if_neg hend, hzero]
      rfl

/-- The first slot of a directory with that name. -/
def findSlot (dir : Bytes) (name : List UInt8) : Option ℕ :=
  (List.range' 0 126).find? (Matches dir name)

/-- The scan for a name finds the first live set that has it. -/
theorem DirOk.resolveScan_eq (hok : DirOk dir) : resolveScan dir name 126 0 = (findSlot dir name).map (32 * ·) :=
  hok.resolveScan_from 126 0 le_rfl

/-- What is found is live and has the name. -/
theorem findSlot_some (h : findSlot dir name = some k) :
    Live dir k ∧ exfatNameEqual (entryName dir (32 * k)) name := by
  have hmatch := find?_some h
  have hrange := mem_range'_1.mp (mem_of_find?_eq_some h)
  rw [Matches, decide_eq_true_eq] at hmatch
  exact ⟨⟨by omega, hmatch.1⟩, hmatch.2⟩

/-!
## What the mutators do to a directory

The three ways the driver changes a directory, each on a whole cluster: the stream fields and
the checksum of a set are updated, the in-use bits of a set are cleared, and a new set is
placed in free slots. Each keeps the directory well formed and changes one slot of it.
-/

open Forest LittleEndian

/-- The clusters of a run. -/
def clusterRun (first count : ℕ) : Set ℕ := { c | first ≤ c ∧ c < first + count }

/-- A run of one cluster. -/
theorem clusterRun_one (first : ℕ) : clusterRun first 1 = {first} := by
  ext c
  change first ≤ c ∧ c < first + 1 ↔ c = first
  omega

/-- The entry set that starts in a slot, as a node of the directory forest. -/
def nodeAt (dir : Bytes) (k : ℕ) : Node ℕ (List UInt8) where
  name := (entryName dir (32 * k)).map lowerCase
  first := firstCluster dir (32 * k)
  run := clusterRun (firstCluster dir (32 * k)) (clustersFor (dataLength dir (32 * k)))
  isDir := isDirectory dir (32 * k) = true

/-- The node in a slot, if the slot holds a live file entry. -/
def slotNode (dir : Bytes) (k : ℕ) : Option (Node ℕ (List UInt8)) :=
  if k ≤ 125 ∧ dir (32 * k) = typeFile then some (nodeAt dir k) else none

variable {dir' : Bytes} {j k size : ℕ} {cluster : Option ℕ}

/-- A live slot has a node. -/
theorem Live.slotNode (h : Live dir k) : slotNode dir k = some (nodeAt dir k) := if_pos h

/-- A slot with a node is live. -/
theorem slotNode_some {n : Node ℕ (List UInt8)} (h : slotNode dir k = some n) :
    Live dir k ∧ n = nodeAt dir k := by
  unfold slotNode at h
  split_ifs at h with hlive
  exact ⟨hlive, (Option.some.inj h).symm⟩

/-- A slot matches a name exactly if its node has it. -/
theorem matches_iff {name : List UInt8} (hk : k ≤ 125) :
    Matches dir name k = true ↔ ∃ n, slotNode dir k = some n ∧ n.name = name.map lowerCase := by
  rw [Matches, decide_eq_true_eq, exfatNameEqual_iff]
  constructor
  · rintro ⟨hfile, hname⟩
    exact ⟨_, Live.slotNode ⟨hk, hfile⟩, hname⟩
  · rintro ⟨n, hslot, hname⟩
    obtain ⟨hlive, rfl⟩ := slotNode_some hslot
    exact ⟨hlive.2, hname⟩

section Same

variable (hpos : 1 ≤ secondaryCount dir (32 * k))
  (h : ∀ x, 32 * k ≤ x → x < 32 * (k + secondaryCount dir (32 * k) + 1) → dir x = dir' x)

include hpos h

/-- Directories that agree on a set agree on its stream and its attributes. -/
theorem stream_congr : firstCluster dir (32 * k) = firstCluster dir' (32 * k) ∧
    dataLength dir (32 * k) = dataLength dir' (32 * k) ∧
      isDirectory dir (32 * k) = isDirectory dir' (32 * k) := by
  have hfield (offset width : ℕ) (hend : offset + width ≤ 64) :
      field dir (32 * k + offset) width = field dir' (32 * k + offset) width :=
    field_congr fun i hi => h _ (by omega) (by omega)
  refine ⟨hfield 52 4 (by decide), hfield 56 8 (by decide), ?_⟩
  rw [isDirectory, isDirectory, hfield 4 2 (by decide)]

/-- Directories that agree on a set agree on its node. -/
theorem nodeAt_congr : nodeAt dir k = nodeAt dir' k := by
  have hname : entryName dir (32 * k) = entryName dir' (32 * k) :=
    entryName_congr (h _ (by omega) (by omega)) (fun j _ _ => h _ (by omega) (by omega))
      fun j _ _ _ x _ _ => h _ (by omega) (by omega)
  obtain ⟨hfirst, hlength, hdir⟩ := stream_congr hpos h
  rw [nodeAt, nodeAt, hname, hfirst, hlength, hdir]

end Same

/-- Directories that agree on a set agree on its being complete. -/
theorem SetAt.congr (hset : SetAt dir k)
    (h : ∀ x, 32 * k ≤ x → x < 32 * (k + secondaryCount dir (32 * k) + 1) → dir x = dir' x) :
    SetAt dir' k := by
  have hcount : secondaryCount dir (32 * k) = secondaryCount dir' (32 * k) := by
    rw [secondaryCount, secondaryCount, h _ (by omega) (by omega)]
  refine ⟨hcount ▸ hset.count, hcount ▸ hset.fits, ?_, fun j hlow hhigh => ?_⟩
  · have hpos := hset.count
    rw [← h _ (by omega) (by omega)]
    exact hset.stream
  · rw [← hcount] at hhigh
    rw [← h _ (by omega) (by omega)]
    exact hset.names j hlow hhigh

variable {offset count checksum : ℕ}

section Update

/-- Updating the stream fields of a set leaves every other byte alone. -/
theorem updatedSector_of_untouched {sector : Bytes} {x : ℕ}
    (h : ¬ (offset + 2 ≤ x ∧ x < offset + 4 ∨ offset + 40 ≤ x ∧ x < offset + 48 ∨
      offset + 52 ≤ x ∧ x < offset + 64)) : updatedSector sector offset cluster size checksum x = sector x := by
  unfold updatedSector updatedStream
  rw [putField_of_not_mem (by omega), putField_of_not_mem (by omega), putField_of_not_mem (by omega)]
  cases cluster with
  | none => rfl
  | some c => exact putField_of_not_mem (by omega)

/-- The update stores the first cluster. -/
theorem firstCluster_update {c : ℕ} (hc : c < 2 ^ 32) :
    firstCluster (updatedSector dir offset (some c) size checksum) offset = c := by
  unfold firstCluster updatedSector updatedStream
  rw [field_putField_of_disjoint (by omega), field_putField_of_disjoint (by omega),
    field_putField_of_disjoint (by omega)]
  exact field_putField_self.trans (Nat.mod_eq_of_lt hc)

/-- An update without a cluster keeps the old one. -/
theorem firstCluster_update_none :
    firstCluster (updatedSector dir offset none size checksum) offset = firstCluster dir offset :=
  field_congr fun i hi => by
    unfold updatedSector updatedStream
    rw [putField_of_not_mem (by omega), putField_of_not_mem (by omega), putField_of_not_mem (by omega)]
    rfl

/-- The update stores the length. -/
theorem dataLength_update (hsize : size < 2 ^ 64) :
    dataLength (updatedSector dir offset cluster size checksum) offset = size := by
  unfold dataLength updatedSector updatedStream
  rw [field_putField_of_disjoint (by omega), field_putField_of_disjoint (by omega)]
  exact field_putField_self.trans (Nat.mod_eq_of_lt hsize)

/-- The checksum depends on the bytes of the set without the checksum. -/
theorem exfatCalcEntryCrc_congr {buffer other : Bytes} {offset' : ℕ}
    (h : ∀ x < 32 * count, x ≠ 2 → x ≠ 3 → buffer (offset + x) = other (offset' + x)) :
    exfatCalcEntryCrc buffer offset count = exfatCalcEntryCrc other offset' count := by
  apply foldl_ext
  intro crc x hx
  rw [mem_range] at hx
  split_ifs
  · rfl
  · rw [h x (by omega) (by omega) (by omega)]

/-- The checksum has sixteen bits. -/
theorem exfatCalcEntryCrc_lt (buffer : Bytes) (offset count : ℕ) :
    exfatCalcEntryCrc buffer offset count < 2 ^ 16 := by
  refine foldlRecOn (motive := fun crc => crc < 2 ^ 16) _ _ (by decide) ?_
  intro crc hcrc x _
  split_ifs
  · exact hcrc
  · exact Nat.mod_lt _ (by decide)

/-- A stored checksum is the checksum of the set that holds it. -/
theorem setChecksum_putField (buffer : Bytes) (offset count : ℕ) :
    setChecksum (putField buffer (offset + 2) 2 (exfatCalcEntryCrc buffer offset count)) offset =
      exfatCalcEntryCrc (putField buffer (offset + 2) 2 (exfatCalcEntryCrc buffer offset count))
        offset count := by
  have hcrc := exfatCalcEntryCrc_lt buffer offset count
  calc setChecksum (putField buffer (offset + 2) 2 (exfatCalcEntryCrc buffer offset count)) offset
      = exfatCalcEntryCrc buffer offset count := field_putField_self.trans (Nat.mod_eq_of_lt hcrc)
    _ = _ := exfatCalcEntryCrc_congr fun x _ h2 h3 => (putField_of_not_mem (by omega)).symm

/-- The update keeps the types of the entries. -/
theorem updatedSector_type : updatedSector dir (32 * k) cluster size checksum (32 * j) = dir (32 * j) :=
  updatedSector_of_untouched (by omega)

/-- The update keeps the lengths of the sets. -/
theorem updatedSector_count :
    secondaryCount (updatedSector dir (32 * k) cluster size checksum) (32 * j) = secondaryCount dir (32 * j) := by
  rw [secondaryCount, secondaryCount, updatedSector_of_untouched (by omega)]

/-- Updating a set keeps the directory well formed. -/
theorem DirOk.update (hok : DirOk dir) : DirOk (updatedSector dir (32 * k) cluster size checksum) := by
  intro j hj hfile
  rw [updatedSector_type] at hfile
  have hset := hok j hj hfile
  refine ⟨?_, ?_, ?_, fun i hlow hhigh => ?_⟩
  · rw [updatedSector_count]
    exact hset.count
  · rw [updatedSector_count]
    exact hset.fits
  · rw [updatedSector_type]
    exact hset.stream
  · rw [updatedSector_count] at hhigh
    rw [updatedSector_type]
    exact hset.names i hlow hhigh

/-- The update keeps the fields of other sets. -/
theorem field_update_of_ne {width : ℕ} (hne : j ≠ k)
    (hmid : 4 ≤ offset ∧ offset + width ≤ 8 ∨ 52 ≤ offset ∧ offset + width ≤ 64) :
    field (updatedSector dir (32 * k) cluster size checksum) (32 * j + offset) width = field dir (32 * j + offset) width :=
  field_congr fun i hi => updatedSector_of_untouched (by omega)

/-- The update keeps the kinds. -/
theorem isDirectory_update :
    isDirectory (updatedSector dir (32 * k) cluster size checksum) (32 * j) = isDirectory dir (32 * j) := by
  have hfield : field (updatedSector dir (32 * k) cluster size checksum) (32 * j + 4) 2 =
      field dir (32 * j + 4) 2 := field_congr fun i hi => updatedSector_of_untouched (by omega)
  rw [isDirectory, isDirectory, hfield]

variable (hfile : dir (32 * k) = typeFile) (hset : SetAt dir k)
include hfile hset

/-- Updating a set changes no name. -/
theorem updatedSector_name :
    entryName (updatedSector dir (32 * k) cluster size checksum) (32 * j) = entryName dir (32 * j) := by
  symm
  apply entryName_congr
  · exact (updatedSector_of_untouched (by omega)).symm
  · intro i _ _
    exact (updatedSector_of_untouched (by omega)).symm
  · intro i _ _ htype x hlow hhigh
    -- a name entry is neither the file entry nor the stream entry of the updated set
    have hne : j + i ≠ k := by
      intro heq
      have hoffset : 32 * j + 32 * i = 32 * k := by omega
      rw [hoffset, hfile] at htype
      contradiction
    have hne' : j + i ≠ k + 1 := by
      intro heq
      have hoffset : 32 * j + 32 * i = 32 * (k + 1) := by omega
      rw [hoffset, hset.stream] at htype
      contradiction
    exact (updatedSector_of_untouched (by omega)).symm

/-- Updating a set changes no other node. -/
theorem slotNode_update_of_ne (hne : j ≠ k) :
    slotNode (updatedSector dir (32 * k) cluster size checksum) j = slotNode dir j := by
  have hnode : nodeAt (updatedSector dir (32 * k) cluster size checksum) j = nodeAt dir j := by
    have hfirst : firstCluster (updatedSector dir (32 * k) cluster size checksum) (32 * j) =
        firstCluster dir (32 * j) := field_update_of_ne hne (by decide)
    have hlength : dataLength (updatedSector dir (32 * k) cluster size checksum) (32 * j) =
        dataLength dir (32 * j) := field_update_of_ne hne (by decide)
    rw [nodeAt, nodeAt, updatedSector_name hfile hset, hfirst, hlength, isDirectory_update]
  rw [slotNode, slotNode, updatedSector_type, hnode]

end Update

section Clear

/-- A file entry of the cluster is live. -/
theorem DirOk.live (hok : DirOk dir) (hk : k < 128) (hfile : dir (32 * k) = typeFile) : Live dir k := by
  have hset := hok k hk hfile
  have hcount := hset.count
  have hfits := hset.fits
  exact ⟨by omega, hfile⟩

/-- A live slot starts a set. -/
theorem DirOk.setAt (hok : DirOk dir) (hk : Live dir k) : SetAt dir k :=
  hok k (Nat.lt_of_le_of_lt hk.1 (by decide)) hk.2

/-- The clear keeps all but the types of the set. -/
theorem clearedSector_of_ne {x : ℕ} (h : ∀ i < count, x ≠ offset + 32 * i) :
    clearedSector dir offset count x = dir x := by
  apply if_neg
  rintro ⟨hlow, hhigh, hmod⟩
  exact h ((x - offset) / 32) (by omega) (by omega)

/-- The clear takes the in-use bits away. -/
theorem clearedSector_type {i : ℕ} (hi : i < count) :
    clearedSector dir (32 * k) count (32 * (k + i)) = dir (32 * (k + i)) &&& 0x7F :=
  if_pos ⟨by omega, by omega, by omega⟩

/-- An entry that is not in use starts no set. -/
theorem and_mask_ne_typeFile (type : UInt8) : type &&& 0x7F ≠ typeFile := by
  intro h
  have hbit := congrArg (fun b : UInt8 => b.toBitVec.getLsbD 7) h
  simp [typeFile] at hbit

/-- A slot of the cleared directory that still holds a file entry was not part of the set. -/
theorem cleared_file (hfile : clearedSector dir (32 * k) (secondaryCount dir (32 * k) + 1) (32 * j) = typeFile) :
    dir (32 * j) = typeFile ∧ (j < k ∨ k + secondaryCount dir (32 * k) < j) := by
  by_cases hin : k ≤ j ∧ j ≤ k + secondaryCount dir (32 * k)
  · obtain ⟨i, rfl⟩ := Nat.exists_eq_add_of_le hin.1
    rw [clearedSector_type (by omega)] at hfile
    exact absurd hfile (and_mask_ne_typeFile _)
  · rw [clearedSector_of_ne fun i hi => by omega] at hfile
    exact ⟨hfile, by omega⟩

variable (hok : DirOk dir) (hk : Live dir k)
include hok hk

/-- The clear keeps the other sets. -/
theorem cleared_other (hj : Live dir j) (hne : j ≠ k) (x : ℕ) (hlow : 32 * j ≤ x)
    (hhigh : x < 32 * (j + secondaryCount dir (32 * j) + 1)) :
    dir x = clearedSector dir (32 * k) (secondaryCount dir (32 * k) + 1) x := by
  symm
  apply clearedSector_of_ne
  intro i hi heq
  rcases Nat.lt_or_gt_of_ne hne with hlt | hgt
  · have hapart := hok.apart hj hk hlt
    omega
  · have hapart := hok.apart hk hj hgt
    omega

/-- The clear keeps the directory in order. -/
theorem DirOk.clear : DirOk (clearedSector dir (32 * k) (secondaryCount dir (32 * k) + 1)) := by
  intro j hj hfile
  obtain ⟨hold, hout⟩ := cleared_file hfile
  exact (hok j hj hold).congr (cleared_other hok hk (hok.live hj hold) (by omega))

/-- Clearing a set empties its slot and changes no other node. -/
theorem slotNode_clear (j : ℕ) :
    slotNode (clearedSector dir (32 * k) (secondaryCount dir (32 * k) + 1)) j =
      if j = k then none else slotNode dir j := by
  by_cases hlive : j ≤ 125 ∧ clearedSector dir (32 * k) (secondaryCount dir (32 * k) + 1) (32 * j) = typeFile
  · obtain ⟨hold, hout⟩ := cleared_file hlive.2
    have hj : Live dir j := ⟨hlive.1, hold⟩
    have hcount := (hok.setAt hj).count
    rw [slotNode, if_pos hlive, if_neg (by omega), hj.slotNode,
      nodeAt_congr (by omega) (cleared_other hok hk hj (by omega))]
  · rw [slotNode, if_neg hlive]
    split_ifs with hjk
    · rfl
    rw [slotNode, if_neg]
    rintro ⟨hle, hfile⟩
    refine hlive ⟨hle, ?_⟩
    rwa [← cleared_other hok hk ⟨hle, hfile⟩ hjk _ le_rfl (by omega)]

end Clear

end Windoge.Exfat
