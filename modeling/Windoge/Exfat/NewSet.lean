import Windoge.Exfat.Slots

/-!
# New entry sets

The set that `exfat_create_node` builds is complete, decodes to the name it was made for (cut
at 255 characters) and starts with length zero. Placed in free slots of a well-formed
directory it keeps the directory well formed and fills one slot.
-/

namespace Windoge.Exfat

open Forest LittleEndian List

variable {dir : Bytes} {name : List UInt8} {isDir : Bool} {cluster j k : ℕ}

variable {buffer set : Bytes} {i offset size x : ℕ}

/-- A set has from 3 to 19 entries. -/
theorem totalEntries_bounds (hname : name ≠ []) : 3 ≤ totalEntries name ∧ totalEntries name ≤ 19 := by
  have hlength : name.length ≠ 0 := fun h => hname (length_eq_zero_iff.mp h)
  unfold totalEntries nameEntries storedLength
  omega

/-- The checksum is all that comes to the first two entries. -/
theorem newSet_of_lt (hx : x < 64) (h2 : x ≠ 2) (h3 : x ≠ 3) :
    newSet name isDir cluster x = plainSet name isDir cluster x :=
  putField_of_not_mem (by omega)

/-- The name entries. -/
theorem newSet_name : newSet name isDir cluster (64 + x) = nameByte name x := by
  rw [newSet, putField_of_not_mem (by omega), plainSet, if_neg (by omega), Nat.add_sub_cancel_left]

/-- The first byte of every entry of a new set. -/
theorem newSet_type : newSet name isDir cluster (32 * i) =
    if i = 0 then typeFile else if i = 1 then typeStream else typeName := by
  by_cases hname : 2 ≤ i
  · have hoffset : 32 * i = 64 + 32 * (i - 2) := by omega
    have hmod : 32 * (i - 2) % 32 = 0 := by omega
    rw [hoffset, newSet_name, nameByte, if_pos hmod, if_neg (by omega), if_neg (by omega)]
  · rw [newSet_of_lt (by omega) (by omega) (by omega), plainSet, if_pos (by omega)]
    unfold layout
    have hcases : i = 0 ∨ i = 1 := by omega
    rcases hcases with rfl | rfl <;> simp [putField, byteAt, typeFile, typeStream]

/-- The fields of a new set, the checksum apart. -/
theorem field_newSet {width : ℕ} (hlow : offset + width ≤ 2 ∨ 4 ≤ offset) (hhigh : offset + width ≤ 64) :
    field (newSet name isDir cluster) offset width = field (plainSet name isDir cluster) offset width :=
  field_congr fun i hi => newSet_of_lt (by omega) (by omega) (by omega)

/-- The fields of a new set that lookups read. -/
theorem newSet_fields (hname : name ≠ []) (hcluster : cluster < 2 ^ 32) :
    secondaryCount (newSet name isDir cluster) 0 = totalEntries name - 1 ∧
      isDirectory (newSet name isDir cluster) 0 = isDir ∧
      firstCluster (newSet name isDir cluster) 0 = cluster ∧
      dataLength (newSet name isDir cluster) 0 = 0 := by
  have hbounds := totalEntries_bounds hname
  have hplain (offset width : ℕ) (hhigh : offset + width ≤ 64) :
      field (plainSet name isDir cluster) offset width = field (layout
        [(0, 1, 0x85), (1, 1, totalEntries name - 1), (4, 2, if isDir then 0x10 else 0x20),
          (32, 1, 0xC0), (33, 1, 0x03), (35, 1, storedLength name),
          (36, 2, exfatCalcNameHash ((range (storedLength name)).map (unicodeUnit name))),
          (52, 4, cluster)]) offset width :=
    field_congr fun i hi => if_pos (by omega)
  have hcount : secondaryCount (newSet name isDir cluster) 0 = totalEntries name - 1 := by
    have hfield : field (newSet name isDir cluster) 1 1 = totalEntries name - 1 := by
      rw [field_newSet (by decide) (by decide), hplain 1 1 (by decide)]
      simp (disch := decide) only [layout, foldl_cons, foldl_nil, field_putField_of_disjoint, field_putField_self]
      exact Nat.mod_eq_of_lt (by omega)
    rw [← hfield]
    simp [secondaryCount, field, decode]
  refine ⟨hcount, ?_, ?_, ?_⟩
  · have hfield : field (newSet name isDir cluster) 4 2 = if isDir then 0x10 else 0x20 := by
      rw [field_newSet (by decide) (by decide), hplain 4 2 (by decide)]
      simp (disch := decide) only [layout, foldl_cons, foldl_nil, field_putField_of_disjoint, field_putField_self]
      cases isDir <;> rfl
    rw [isDirectory, hfield]
    cases isDir <;> rfl
  · rw [firstCluster, field_newSet (by decide) (by decide), hplain _ _ (by decide)]
    simp only [layout, foldl_cons, foldl_nil, field_putField_self]
    exact Nat.mod_eq_of_lt hcluster
  · rw [dataLength, field_newSet (by decide) (by decide), hplain _ _ (by decide)]
    simp (disch := decide) only [layout, foldl_cons, foldl_nil, field_putField_of_disjoint, field_zero]

section Name

/-- The nonzero values that a list yields before its end are those of the list. -/
theorem takeWhile_getElem? {α : Type} (f : α → ℕ) (n : ℕ) (l : List α) (h : ∀ a ∈ l, f a ≠ 0) :
    ((List.range n).map fun c => (l[c]?.map f).getD 0).takeWhile (· ≠ 0) = (l.take n).map f := by
  induction n generalizing l with
  | zero => simp
  | succ n ih =>
    rw [range_succ_eq_map, map_cons, map_map]
    cases l with
    | nil => simp
    | cons a l =>
      have hhead := h a mem_cons_self
      have htail := ih l fun b hb => h b (mem_cons_of_mem a hb)
      rw [take_succ_cons, map_cons, ← htail]
      simp [Function.comp_def, hhead]

/-- A list is put together from its pieces of fifteen. -/
theorem flatMap_chunks {α : Type} (l : List α) (n : ℕ) :
    ((List.range n).flatMap fun e => (l.drop (15 * e)).take 15) = l.take (15 * n) := by
  induction n with
  | zero => simp
  | succ n ih =>
    have hlength : 15 * (n + 1) = 15 * n + 15 := by omega
    rw [range_succ, flatMap_append, ih, hlength, take_add]
    simp

/-- Code units keep the character and are zero for the terminator only. -/
theorem codeUnit_spec (c : UInt8) : codeUnit c < 2 ^ 16 ∧ UInt8.ofNat (codeUnit c) = c ∧
    (c ≠ 0 → codeUnit c ≠ 0) := by
  have hlt := c.toNat_lt
  have hzero : c ≠ 0 → c.toNat ≠ 0 := fun hne hval => hne (UInt8.toNat_inj.mp hval)
  unfold codeUnit
  split_ifs
  · exact ⟨by omega, UInt8.ofNat_toNat, hzero⟩
  · refine ⟨by omega, UInt8.toNat_inj.mp ?_, fun _ => by omega⟩
    rw [UInt8.toNat_ofNat']
    omega

/-- A code unit of the name in its entry. -/
theorem unicodeUnit_eq (e c : ℕ) : unicodeUnit name (15 * e + c) =
    ((((name.take 255).drop (15 * e))[c]?).map codeUnit).getD 0 := by
  unfold unicodeUnit storedLength
  rw [getElem?_drop]
  split_ifs
  · rw [getElem?_take_of_lt (by omega), getD_eq_getElem?_getD]
    rw [getElem?_eq_getElem (by omega)]
    rfl
  · rw [getElem?_eq_none (by rw [length_take]; omega)]
    rfl

end Name

section Place

/-- The bytes of the set. -/
theorem placeSet_in (hx : x < size) : placeSet buffer set offset size (offset + x) = set x := by
  rw [placeSet, if_pos ⟨by omega, by omega⟩, Nat.add_sub_cancel_left]

/-- The bytes around the set. -/
theorem placeSet_out (hx : x < offset ∨ offset + size ≤ x) : placeSet buffer set offset size x = buffer x :=
  if_neg (by omega)

/-- A directory with a new set in its slots. -/
def withSet (dir : Bytes) (name : List UInt8) (isDir : Bool) (cluster k : ℕ) : Bytes :=
  placeSet dir (newSet name isDir cluster) (32 * k) (32 * totalEntries name)

variable (hname : name ≠ []) (hcluster : cluster < 2 ^ 32)

/-- The types of the entries of the new set. -/
theorem withSet_type (dir : Bytes) (isDir : Bool) (cluster k : ℕ) (hi : i < totalEntries name) :
    withSet dir name isDir cluster k (32 * (k + i)) =
      if i = 0 then typeFile else if i = 1 then typeStream else typeName := by
  have hoffset : 32 * (k + i) = 32 * k + 32 * i := by omega
  rw [hoffset, withSet, placeSet_in (by omega), newSet_type]

include hname hcluster

/-- The fields of a placed set. -/
theorem withSet_fields (dir : Bytes) (isDir : Bool) (k : ℕ) :
    secondaryCount (withSet dir name isDir cluster k) (32 * k) = totalEntries name - 1 ∧
      isDirectory (withSet dir name isDir cluster k) (32 * k) = isDir ∧
      firstCluster (withSet dir name isDir cluster k) (32 * k) = cluster ∧
      dataLength (withSet dir name isDir cluster k) (32 * k) = 0 := by
  have hbounds := totalEntries_bounds hname
  have hfield (offset width : ℕ) (hend : offset + width ≤ 64) :
      field (withSet dir name isDir cluster k) (32 * k + offset) width =
        field (newSet name isDir cluster) (0 + offset) width := by
    unfold field
    congr 1
    apply map_congr_left
    intro i hi
    rw [mem_range] at hi
    rw [withSet, add_assoc, placeSet_in (by omega), zero_add]
  obtain ⟨hcount, hdir, hfirst, hlength⟩ := newSet_fields hname hcluster
  have hsame : isDirectory (withSet dir name isDir cluster k) (32 * k) =
      isDirectory (newSet name isDir cluster) 0 := by
    rw [isDirectory, isDirectory, hfield 4 2 (by decide)]
  refine ⟨?_, hsame.trans hdir, (hfield 52 4 (by decide)).trans hfirst, (hfield 56 8 (by decide)).trans hlength⟩
  rw [← hcount, secondaryCount, secondaryCount, withSet, placeSet_in (by omega)]

/-- There is a set in the slot. -/
theorem withSet_setAt (hfits : k + totalEntries name ≤ 128) : SetAt (withSet dir name isDir cluster k) k := by
  have hbounds := totalEntries_bounds hname
  have hcount := (withSet_fields hname hcluster dir isDir k).1
  refine ⟨by omega, by omega, ?_, fun j hlow hhigh => ?_⟩
  · rw [withSet_type dir isDir cluster k (by omega)]
    rfl
  · rw [withSet_type dir isDir cluster k (by omega), if_neg (by omega), if_neg (by omega)]

/-- The name entries of a placed set. -/
theorem nameOffsets_withSet (hfits : k + totalEntries name ≤ 128) :
    nameOffsets (withSet dir name isDir cluster k) (32 * k) =
      (List.range (nameEntries name)).map fun e => 32 * (k + (e + 2)) := by
  have hcount := (withSet_fields hname hcluster dir isDir k).1
  have hentries : totalEntries name = nameEntries name + 2 := add_comm _ _
  have hlength : totalEntries name - 1 - 1 = nameEntries name := by omega
  have hlist : (range' 2 (nameEntries name)).map (fun sec => 32 * k + 32 * sec) =
      (range (nameEntries name)).map fun e => 32 * (k + (e + 2)) := by
    rw [range'_eq_map_range, map_map]
    apply map_congr_left
    intro e _
    change 32 * k + 32 * (2 + e) = 32 * (k + (e + 2))
    omega
  have hin : ∀ entry ∈ (range (nameEntries name)).map fun e => 32 * (k + (e + 2)),
      entry < 4096 ∧ withSet dir name isDir cluster k entry = typeName := by
    intro entry h
    obtain ⟨e, he, rfl⟩ := mem_map.mp h
    rw [mem_range] at he
    refine ⟨by omega, ?_⟩
    rw [withSet_type dir isDir cluster k (by omega), if_neg (by omega), if_neg (by omega)]
  rw [nameOffsets, hcount, hlength, hlist, takeWhile_eq_self_iff.mpr, filter_eq_self]
  · exact fun entry h => decide_eq_true (hin entry h).2
  · exact fun entry h => decide_eq_true (hin entry h).1

omit hname hcluster in
/-- The code units in a name entry of a placed set. -/
theorem nameUnits_withSet {e : ℕ} (he : e < nameEntries name) :
    nameUnits (withSet dir name isDir cluster k) (32 * (k + (e + 2))) =
      (List.range 15).map fun c => ((((name.take 255).drop (15 * e))[c]?).map codeUnit).getD 0 := by
  have hentries : totalEntries name = nameEntries name + 2 := add_comm _ _
  apply map_congr_left
  intro c hc
  rw [mem_range] at hc
  have hbytes : ((range 2).map fun i =>
      withSet dir name isDir cluster k (32 * (k + (e + 2)) + 2 + 2 * c + i)) =
      encode 2 (unicodeUnit name (15 * e + c)) := by
    apply map_congr_left
    intro i hi
    rw [mem_range] at hi
    have hoffset : 32 * (k + (e + 2)) + 2 + 2 * c + i = 32 * k + (64 + (32 * e + 2 + 2 * c + i)) := by omega
    have hindex : 15 * ((32 * e + 2 + 2 * c + i) / 32) + ((32 * e + 2 + 2 * c + i) % 32 - 2) / 2 =
        15 * e + c := by omega
    have hparity : (32 * e + 2 + 2 * c + i) % 2 = i := by omega
    rw [hoffset, withSet, placeSet_in (by omega), newSet_name, nameByte, if_neg (by omega),
      if_neg (by omega), hindex, hparity]
  have hsmall : unicodeUnit name (15 * e + c) < 256 ^ 2 := by
    unfold unicodeUnit
    split_ifs
    · exact (codeUnit_spec _).1
    · decide
  rw [field, hbytes, decode_encode_of_lt hsmall, unicodeUnit_eq]

/-- A placed set decodes to the stored name. -/
theorem entryName_withSet (hclean : ∀ c ∈ name, c ≠ 0) (hfits : k + totalEntries name ≤ 128) :
    entryName (withSet dir name isDir cluster k) (32 * k) = name.take 255 := by
  have hchunk : ∀ e ∈ range (nameEntries name),
      ((nameUnits (withSet dir name isDir cluster k) (32 * (k + (e + 2)))).takeWhile (· ≠ 0)).map
        UInt8.ofNat = ((name.take 255).drop (15 * e)).take 15 := by
    intro e he
    rw [nameUnits_withSet (mem_range.mp he), takeWhile_getElem?, map_map]
    · have hid : UInt8.ofNat ∘ codeUnit = id := funext fun c => (codeUnit_spec c).2.1
      rw [hid, map_id]
    · intro c hc
      exact (codeUnit_spec c).2.2 (hclean c (mem_of_mem_take (mem_of_mem_drop hc)))
  have hall : (name.take 255).length ≤ 15 * nameEntries name := by
    rw [length_take, nameEntries, storedLength]
    omega
  rw [entryName, nameOffsets_withSet hname hcluster hfits, flatMap_map, flatMap_congr hchunk, flatMap_chunks,
    take_of_length_le hall, take_take, Nat.min_self, takeWhile_eq_self_iff.mpr]
  intro c hc
  exact decide_eq_true (hclean c (mem_of_mem_take hc))

end Place

section Slot

/-- The slots found are in the cluster and not in use. -/
theorem freeSlot_some {entries : ℕ} (hentries : entries ≤ 128) (h : freeSlot dir entries = some k) :
    k + entries ≤ 128 ∧ ∀ i < entries, dir (32 * (k + i)) &&& 0x80 = 0 := by
  have hrange := mem_range.mp (mem_of_find?_eq_some h)
  have hfree := find?_some h
  rw [all_eq_true] at hfree
  refine ⟨by omega, fun i hi => ?_⟩
  exact of_decide_eq_true (hfree i (mem_range.mpr hi))

variable (hok : DirOk dir) (hname : name ≠ []) (hcluster : cluster < 2 ^ 32)
  (hfits : k + totalEntries name ≤ 128)
  (hfree : ∀ i < totalEntries name, dir (32 * (k + i)) &&& 0x80 = 0)

include hok hfree in
/-- The bytes of a live set stay when a new set is placed in free slots. -/
theorem withSet_other (hj : Live dir j) (x : ℕ) (hlow : 32 * j ≤ x)
    (hhigh : x < 32 * (j + secondaryCount dir (32 * j) + 1)) :
    dir x = withSet dir name isDir cluster k x := by
  have huse (i : ℕ) (hle : j ≤ i) (hend : i ≤ j + secondaryCount dir (32 * j)) :
      i < k ∨ k + totalEntries name ≤ i := by
    by_contra hin
    obtain ⟨y, rfl⟩ : ∃ y, i = k + y := ⟨i - k, by omega⟩
    exact (hok.setAt hj).in_use hj.2 hle hend (hfree y (by omega))
  symm
  apply placeSet_out
  have hfirst := huse j le_rfl (by omega)
  by_cases hbefore : j < k
  · by_cases hover : j + secondaryCount dir (32 * j) < k
    · omega
    · have hk := huse k (by omega) (by omega)
      omega
  · omega

/-- The types of the entries around the new set. -/
theorem withSet_type_out (hout : j < k ∨ k + totalEntries name ≤ j) :
    withSet dir name isDir cluster k (32 * j) = dir (32 * j) :=
  placeSet_out (by omega)

include hok hname hfits hfree

include hcluster in
/-- Placing a new set in free slots keeps the directory well formed. -/
theorem DirOk.place : DirOk (withSet dir name isDir cluster k) := by
  intro j hj hfile
  by_cases hin : k ≤ j ∧ j < k + totalEntries name
  · obtain ⟨i, rfl⟩ := Nat.exists_eq_add_of_le hin.1
    rw [withSet_type dir isDir cluster k (by omega)] at hfile
    have hzero : i = 0 := by
      by_contra hne
      split_ifs at hfile <;> contradiction
    rw [hzero]
    exact withSet_setAt hname hcluster hfits
  · rw [withSet_type_out (by omega)] at hfile
    exact (hok j hj hfile).congr (withSet_other hok hfree (hok.live hj hfile))

/-- Placing a new set fills its slot and changes no other node. -/
theorem slotNode_place (isDir : Bool) (cluster j : ℕ) : slotNode (withSet dir name isDir cluster k) j =
    if j = k then some (nodeAt (withSet dir name isDir cluster k) k) else slotNode dir j := by
  have hbounds := totalEntries_bounds hname
  by_cases hjk : j = k
  · have hfile := withSet_type dir isDir cluster k (by omega : 0 < totalEntries name)
    rw [if_pos hjk, hjk]
    exact if_pos ⟨by omega, hfile⟩
  rw [if_neg hjk]
  by_cases hin : k ≤ j ∧ j < k + totalEntries name
  · obtain ⟨i, rfl⟩ := Nat.exists_eq_add_of_le hin.1
    have hnew : withSet dir name isDir cluster k (32 * (k + i)) ≠ typeFile := by
      rw [withSet_type dir isDir cluster k (by omega), if_neg (by omega)]
      split_ifs <;> decide
    have hold : dir (32 * (k + i)) ≠ typeFile := by
      intro hfile
      have hbit := hfree i (by omega)
      rw [hfile] at hbit
      contradiction
    rw [slotNode, slotNode, if_neg fun h => hnew h.2, if_neg fun h => hold h.2]
  · rw [slotNode, slotNode, withSet_type_out (by omega)]
    split_ifs with hlive
    · have hcount := (hok.setAt hlive).count
      rw [nodeAt_congr (by omega) (withSet_other hok hfree hlive)]
    · rfl

end Slot

/-!
## From sectors to clusters

Sector writes seen cluster by cluster on a volume with the formatter's geometry: which
clusters a change of the drive leaves alone, what the bitmap marks as used afterwards, and
what a directory holds after the sector of one of its sets has been rewritten.
-/

open BitArray

/-- Only the given clusters differ. -/
def KeepsOutside (clusters : Set ℕ) (bytes bytes' : Bytes) : Prop :=
  ∀ a, (∀ c ∈ clusters, a / 4096 ≠ c + 766) → bytes' a = bytes a

variable {bytes bytes' bytes'' buffer : Bytes} {S T : Set ℕ} {c d lba : ℕ} {v : Volume}

/-- Nothing changed. -/
theorem KeepsOutside.refl : KeepsOutside S bytes bytes := fun _ _ => rfl

/-- Two changes in a row. -/
theorem KeepsOutside.trans (h : KeepsOutside S bytes bytes') (h' : KeepsOutside T bytes' bytes'') :
    KeepsOutside (S ∪ T) bytes bytes'' := fun a ha =>
  (h' a fun c hc => ha c (Or.inr hc)).trans (h a fun c hc => ha c (Or.inl hc))

/-- A larger set of clusters. -/
theorem KeepsOutside.mono (h : KeepsOutside S bytes bytes') (hsub : S ⊆ T) :
    KeepsOutside T bytes bytes' := fun a ha => h a fun c hc => ha c (hsub hc)

/-- A cluster outside the set is the same. -/
theorem KeepsOutside.clusterAt (h : KeepsOutside S bytes bytes') (hd : d ∉ S) :
    clusterAt bytes' d = clusterAt bytes d := by
  funext k
  unfold Exfat.clusterAt window clusterBase
  split_ifs
  · apply h
    intro c hc heq
    have hcd : c = d := by omega
    exact hd (hcd ▸ hc)
  · rfl

/-- The bytes of a cluster. -/
theorem clusterAt_of_lt {x : ℕ} (hx : x < 4096) :
    clusterAt bytes d x = bytes (4096 * (d + 766) + x) := if_pos hx

/-- A cluster ends after 4096 bytes. -/
theorem clusterAt_of_ge {x : ℕ} (hx : 4096 ≤ x) : clusterAt bytes d x = 0 := if_neg (Nat.not_lt.mpr hx)

/-- A sector is written within its cluster. -/
theorem keepsOutside_putSector (bytes buffer : Bytes) (hlba : lba / 8 = c + 766) :
    KeepsOutside {c} bytes (putSector bytes lba buffer) := by
  intro a ha
  apply if_neg
  intro heq
  exact ha c rfl (by omega)

/-- The bitmap is in cluster 2. -/
theorem keepsOutside_putBits {indices : List ℕ} {on : Bool} (h : ∀ i ∈ indices, i < 32768) :
    KeepsOutside {2} bytes (putBits bytes (4096 * 6144) indices on) := by
  intro a ha
  apply putBits_of_ne
  intro i hi heq
  have hlt := h i hi
  exact ha 2 rfl (by omega)

/-- What a drive holds after consecutive sectors of a buffer have been stored. -/
theorem putSectors_bufferSectors (first count a : ℕ) :
    putSectors bytes (bufferSectors lba buffer first count) a =
      if lba + first ≤ a / 512 ∧ a / 512 < lba + first + count then buffer (a - 512 * lba)
      else bytes a := by
  induction count with
  | zero => exact (if_neg (by omega)).symm
  | succ count ih =>
    rw [bufferSectors, range'_1_concat, map_append, putSectors, foldl_append, ← putSectors, ← bufferSectors]
    change putSector (putSectors bytes (bufferSectors lba buffer first count)) (lba + (first + count))
      (fun k => buffer (512 * (first + count) + k)) a = _
    unfold putSector
    by_cases hlast : a / 512 = lba + (first + count)
    · have hoffset : 512 * (first + count) + a % 512 = a - 512 * lba := by omega
      rw [if_pos hlast, if_pos (by omega)]
      exact congrArg buffer hoffset
    · rw [if_neg hlast, ih]
      have hiff : (lba + first ≤ a / 512 ∧ a / 512 < lba + first + count) ↔
          (lba + first ≤ a / 512 ∧ a / 512 < lba + first + (count + 1)) := by omega
      simp only [hiff]

/-- Sectors written from a buffer stay within the run. -/
theorem keepsOutside_bufferSectors (bytes buffer : Bytes) {first count clusters : ℕ} (hlba : lba = 8 * (c + 766))
    (hend : first + count ≤ 8 * clusters) :
    KeepsOutside (clusterRun c clusters) bytes (putSectors bytes (bufferSectors lba buffer first count)) := by
  intro a ha
  rw [putSectors_bufferSectors, if_neg]
  rintro ⟨hlow, hhigh⟩
  exact ha (a / 4096 - 766) ⟨by omega, by omega⟩ (by omega)

/-- A cluster after one of its sectors has been stored. -/
theorem clusterAt_putSector {s : ℕ} (hs : s < 8) :
    clusterAt (putSector bytes (8 * (d + 766) + s) buffer) d =
      fun k => if k / 512 = s then buffer (k % 512) else clusterAt bytes d k := by
  funext k
  unfold clusterAt window clusterBase putSector
  by_cases hk : k < 4096
  · have hmod : (4096 * (d + 766) + k) % 512 = k % 512 := by omega
    have hiff : (4096 * (d + 766) + k) / 512 = 8 * (d + 766) + s ↔ k / 512 = s := by omega
    simp only [if_pos hk, hmod, hiff]
  · rw [if_neg hk, if_neg hk, if_neg (by omega)]

/-- A sector is a part of its cluster. -/
theorem sectorAt_cluster {s x : ℕ} (hs : s < 8) (hx : x < 512) :
    sectorAt bytes (8 * (d + 766) + s) x = clusterAt bytes d (512 * s + x) := by
  have haddress : 512 * (8 * (d + 766) + s) + x = 4096 * (d + 766) + (512 * s + x) := by omega
  rw [sectorAt, clusterAt, window, if_pos (by omega), clusterBase, haddress]

section Shift

/-- A sector buffer that agrees with a directory from an offset on. -/
def Shifted (base : ℕ) (sector dir : Bytes) : Prop := ∀ x < 512, sector x = dir (base + x)

variable {sector dir : Bytes} {base offset width n size count : ℕ} {cluster : Option ℕ}

section

variable (h : Shifted base sector dir)
include h

/-- A field put into both. -/
theorem Shifted.putField :
    Shifted base (putField sector offset width n) (putField dir (base + offset) width n) := by
  intro x hx
  have hiff : (base + offset ≤ base + x ∧ base + x < base + offset + width) ↔
      (offset ≤ x ∧ x < offset + width) := by omega
  simp only [Exfat.putField, hiff, Nat.add_sub_add_left, h x hx]

/-- The length of a set, read from the sector. -/
theorem Shifted.secondaryCount (offset : ℕ) (hoffset : offset + 1 < 512) :
    secondaryCount sector offset = secondaryCount dir (base + offset) := by
  rw [Exfat.secondaryCount, Exfat.secondaryCount, h _ hoffset, add_assoc]

/-- The stream entry updated in both. -/
theorem Shifted.updatedStream (cluster : Option ℕ) (size : ℕ) :
    Shifted base (updatedStream sector offset cluster size) (updatedStream dir (base + offset) cluster size) := by
  cases cluster with
  | none => exact h.putField.putField
  | some c => exact h.putField.putField.putField

/-- Updating a set in its sector is updating it in the directory. -/
theorem Shifted.updatedSector (cluster : Option ℕ) (size checksum : ℕ) :
    Shifted base (updatedSector sector offset cluster size checksum)
      (updatedSector dir (base + offset) cluster size checksum) :=
  (h.updatedStream cluster size).putField

/-- The checksum of a set that lies in the buffer does not depend on what is behind it. -/
theorem Shifted.updatedChecksum (behind : Bytes) (cluster : Option ℕ) (size : ℕ) (hstream : offset + 64 ≤ 512)
    (hset : offset + 32 * ((Exfat.secondaryCount dir (base + offset) + 1) % 256) ≤ 512) :
    updatedChecksum (overrun sector behind) offset cluster size =
      updatedChecksum dir (base + offset) cluster size := by
  have hbuffer : Shifted base (overrun sector behind) dir := by
    intro x hx
    rw [overrun, if_pos hx, h x hx]
  unfold Exfat.updatedChecksum
  rw [hbuffer.secondaryCount offset (by omega)]
  apply exfatCalcEntryCrc_congr
  intro x hx _ _
  rw [add_assoc]
  exact hbuffer.updatedStream cluster size _ (by omega)

/-- Clearing a set in its sector is clearing it in the directory. -/
theorem Shifted.clearedSector (offset count : ℕ) :
    Shifted base (clearedSector sector offset count) (clearedSector dir (base + offset) count) := by
  intro x hx
  have hiff : (base + offset ≤ base + x ∧ base + x < base + offset + 32 * count ∧
      (base + x - (base + offset)) % 32 = 0) ↔
      (offset ≤ x ∧ x < offset + 32 * count ∧ (x - offset) % 32 = 0) := by
    rw [Nat.add_sub_add_left]
    omega
  simp only [Exfat.clearedSector, hiff, h x hx]

end

end Shift

section Rewrite

variable {k size checksum : ℕ} {cluster : Option ℕ}

/-- A sector of the directory is shifted by its place. -/
theorem shifted_sectorAt (bytes : Bytes) (d : ℕ) (hk : k ≤ 127) : Shifted (512 * (32 * k / 512))
    (sectorAt bytes (8 * (d + 766) + 32 * k / 512)) (clusterAt bytes d) :=
  fun x hx => sectorAt_cluster (by omega) hx

/-- A directory after the sector of a set has been rewritten with the set updated. -/
theorem clusterAt_updatedSector (hk : k ≤ 127) (hstream : 32 * k % 512 + 64 ≤ 512) :
    clusterAt (putSector bytes (8 * (d + 766) + 32 * k / 512) (updatedSector
      (sectorAt bytes (8 * (d + 766) + 32 * k / 512)) (32 * k % 512) cluster size checksum)) d =
      updatedSector (clusterAt bytes d) (32 * k) cluster size checksum := by
  have hupdated := @Shifted.updatedSector _ _ _ (32 * k % 512) (shifted_sectorAt bytes d hk) cluster size checksum
  rw [clusterAt_putSector (by omega)]
  funext x
  split_ifs
  · rw [hupdated _ (by omega)]
    congr 1 <;> omega
  · exact (updatedSector_of_untouched (by omega)).symm

/-- A directory after the sector of a set has been rewritten with the set cleared. -/
theorem clusterAt_clearedSector {count : ℕ} (hk : k ≤ 127) (hset : 32 * k % 512 + 32 * count ≤ 512) :
    clusterAt (putSector bytes (8 * (d + 766) + 32 * k / 512)
      (clearedSector (sectorAt bytes (8 * (d + 766) + 32 * k / 512)) (32 * k % 512) count)) d =
      clearedSector (clusterAt bytes d) (32 * k) count := by
  have hcleared := (shifted_sectorAt bytes d hk).clearedSector (32 * k % 512) count
  rw [clusterAt_putSector (by omega)]
  funext x
  split_ifs
  · rw [hcleared _ (by omega)]
    congr 1 <;> omega
  · exact (clearedSector_of_ne fun i hi => by omega).symm

/-- A directory after the sectors that a new set touches have been rewritten. -/
theorem clusterAt_withSet {name : List UInt8} {isDir : Bool} {first : ℕ} (hfits : k + totalEntries name ≤ 128) :
    clusterAt (putSectors bytes (bufferSectors (8 * (d + 766))
      (withSet (clusterAt bytes d) name isDir first k) (32 * k / 512)
      ((32 * k + 32 * totalEntries name - 1) / 512 + 1 - 32 * k / 512))) d =
      withSet (clusterAt bytes d) name isDir first k := by
  funext x
  by_cases hx : x < 4096
  · rw [clusterAt_of_lt hx, putSectors_bufferSectors]
    split_ifs
    · have hoffset : 4096 * (d + 766) + x - 512 * (8 * (d + 766)) = x := by omega
      rw [hoffset]
    · rw [withSet, placeSet_out (by omega), clusterAt_of_lt hx]
  · rw [clusterAt_of_ge (by omega), withSet, placeSet_out (by omega), clusterAt_of_ge (by omega)]

end Rewrite

end Windoge.Exfat
