import Windoge.Exfat.NameHistory
import Windoge.Exfat.Contents

/-!
# What rewriting an entry set leaves on the drive

A write, append, truncation or delete that reports success in a directory that creates and
deletes have filled. The set of the name has its new first cluster, its new length and the
checksum of the whole set, or its in-use bits are clear, and every other byte of the directory
is as it was. The driver rewrites the one sector in which the set starts; for a set that
continues in the next sector it works past the end of its buffer: it stores there, or computes the
checksum from whatever stands there.
-/

namespace Windoge.Exfat

open Windoge.Flow Volume

/-- A C string. -/
def CString (name : List UInt8) : Prop := ∀ c ∈ name, c ≠ 0

/-- The stored checksum of a set is the checksum of the whole set. -/
def ChecksumOk (dir : Bytes) (k : ℕ) : Prop :=
  setChecksum dir (32 * k) = exfatCalcEntryCrc dir (32 * k) (secondaryCount dir (32 * k) + 1)

/-- Bytes outside the set in a slot are the same in both directories. -/
def SameOutside (dir dir' : Bytes) (k : ℕ) : Prop :=
  ∀ x, x < 32 * k ∨ 32 * (k + secondaryCount dir (32 * k) + 1) ≤ x → dir' x = dir x

/-- Afterwards the name resolves to a run that the file had or that was unused, with the new length;
the checksum is right and the rest of the directory is unchanged. -/
def EntryUpdated (name : List UInt8) (length : ℕ → ℕ) (v v' : Volume) : Prop :=
  ∃ k first target, findSlot v.cwd name = some k ∧
    (first = firstCluster v.cwd (32 * k) ∨ UnusedRun v first (clustersFor (length k))) ∧
    exfatResolveEntry name { v' with outcomes := [] } = .ok target { v' with outcomes := [] } ∧
    target.cluster = first ∧ target.size = length k ∧
    ChecksumOk v'.cwd k ∧ SameOutside v.cwd v'.cwd k

/-- Afterwards the in-use bit of every entry of the set is clear and nothing else has changed. -/
def EntryRemoved (name : List UInt8) (v v' : Volume) : Prop :=
  ∃ k, findSlot v.cwd name = some k ∧
    (∀ j ≤ secondaryCount v.cwd (32 * k),
      v'.cwd (32 * (k + j)) = v.cwd (32 * (k + j)) &&& 0x7F) ∧
    ∀ x, (∀ j ≤ secondaryCount v.cwd (32 * k), x ≠ 32 * (k + j)) → v'.cwd x = v.cwd x

/-- What a successful operation on a name leaves in the current directory. -/
def VolumeOp.Edited (v v' : Volume) : VolumeOp → Prop
  | .write name data => EntryUpdated name (fun _ => data.length) v v'
  | .append name data => EntryUpdated name (fun k => dataLength v.cwd (32 * k) + data.length) v v'
  | .truncate name => EntryUpdated name v.truncatedLength v v'
  | .delete name => EntryRemoved name v v'
  | .create _ _ => True
  | .changeDirectory _ => True

/-- The name whose entry set an operation rewrites and the data it stores. -/
def VolumeOp.edits : VolumeOp → Option (List UInt8 × List UInt8)
  | .write name data => some (name, data)
  | .append name data => some (name, data)
  | .truncate name => some (name, [])
  | .delete name => some (name, [])
  | .create _ _ => none
  | .changeDirectory _ => none

/-- The operation does not come to touch the set in a slot. -/
def VolumeOp.Spares (v : Volume) (k : ℕ) : VolumeOp → Prop
  | .write _ data => v.SparesWrite data k
  | .append _ data => v.SparesAppend data k
  | .truncate _ => dataLength v.cwd (32 * k) = 0
  | .delete _ | .create _ _ | .changeDirectory _ => False

/-- The volume with other bytes in memory behind the sector buffers. -/
def Volume.recall (v : Volume) (behind : Bytes) : Volume :=
  { v with drives := fun d => { v.drives d with behind := behind } }

/-- The operation has defined behaviour and, if it reports success, has edited the set. -/
def VolumeOp.EditsSafely (op : VolumeOp) (v : Volume) : Prop :=
  (∀ w, op.run { v with outcomes := [] } ≠ .error .undefined w) ∧
    ∀ outcomes v', op.run { v with outcomes := outcomes } = .ok () v' → op.Edited v v'

variable {dir dir' : Bytes} {name data : List UInt8} {isDir : Bool} {j k first size checksum : ℕ}
  {cluster : Option ℕ} {v v' start : Volume} {bytes : Bytes} {outcomes : List SectorOutcome}

section Checksums

/-- Sets with the same bytes have the same checksums. -/
theorem ChecksumOk.congr (h : ChecksumOk dir k) (hsame : SameSet dir dir' k) : ChecksumOk dir' k := by
  have hcount : secondaryCount dir' (32 * k) = secondaryCount dir (32 * k) := by
    rw [secondaryCount, secondaryCount, hsame _ (by omega) (by omega)]
  have hstored : setChecksum dir (32 * k) = setChecksum dir' (32 * k) :=
    field_congr fun i hi => hsame _ (by omega) (by omega)
  rw [ChecksumOk, hcount, ← hstored, h]
  exact exfatCalcEntryCrc_congr fun x hx _ _ => hsame _ (by omega) (by omega)

/-- A new set carries its checksum. -/
theorem checksumOk_withSet (hname : name ≠ []) (hcluster : first < 2 ^ 32) :
    ChecksumOk (withSet dir name isDir first k) k := by
  have hbounds := totalEntries_bounds hname
  have hbytes (x : ℕ) (hx : x < 32 * totalEntries name) :
      withSet dir name isDir first k (32 * k + x) = newSet name isDir first x :=
    placeSet_in hx
  have hstored : setChecksum (withSet dir name isDir first k) (32 * k) =
      setChecksum (newSet name isDir first) 0 := by
    unfold setChecksum field
    congr 1
    apply List.map_congr_left
    intro i hi
    rw [List.mem_range] at hi
    rw [add_assoc, hbytes _ (by omega), zero_add]
  have hcrc := @setChecksum_putField (plainSet name isDir first) 0 (totalEntries name)
  have hcount : totalEntries name - 1 + 1 = totalEntries name := by omega
  rw [ChecksumOk, (withSet_fields hname hcluster dir isDir k).1, hcount, hstored]
  refine hcrc.trans (exfatCalcEntryCrc_congr fun x hx _ _ => ?_)
  change newSet name isDir first (0 + x) = _
  rw [hbytes x hx, zero_add]

/-- A set with its new checksum stored carries it. -/
theorem checksumOk_update (hset : SetAt dir k) :
    ChecksumOk (updatedSector dir (32 * k) cluster size (updatedChecksum dir (32 * k) cluster size)) k := by
  have hfits := hset.fits
  have hmod : (secondaryCount dir (32 * k) + 1) % 256 = secondaryCount dir (32 * k) + 1 :=
    Nat.mod_eq_of_lt (by omega)
  rw [ChecksumOk, updatedSector_count, ← hmod]
  exact setChecksum_putField _ _ _

/-- The only checksum that is right for an updated set. -/
theorem ChecksumOk.eq_updated (hset : SetAt dir k) (hsmall : checksum < 2 ^ 16)
    (h : ChecksumOk (updatedSector dir (32 * k) cluster size checksum) k) :
    checksum = updatedChecksum dir (32 * k) cluster size := by
  have hfits := hset.fits
  have hmod : (secondaryCount dir (32 * k) + 1) % 256 = secondaryCount dir (32 * k) + 1 :=
    Nat.mod_eq_of_lt (by omega)
  have hstored : setChecksum (updatedSector dir (32 * k) cluster size checksum) (32 * k) = checksum :=
    field_putField_self.trans (Nat.mod_eq_of_lt hsmall)
  rw [ChecksumOk, updatedSector_count, ← hmod, hstored] at h
  exact h.trans (exfatCalcEntryCrc_congr fun x _ _ _ => putField_of_not_mem (by omega))

/-- A checksum depends on the last byte. -/
theorem exfatCalcEntryCrc_ne {buffer other : Bytes} {offset offset' count : ℕ} (hcount : 0 < count)
    (h : ∀ x < 32 * count - 1, buffer (offset + x) = other (offset' + x))
    (hlast : buffer (offset + (32 * count - 1)) ≠ other (offset' + (32 * count - 1))) :
    exfatCalcEntryCrc buffer offset count ≠ exfatCalcEntryCrc other offset' count := by
  obtain ⟨m, hm⟩ : ∃ m, 32 * count = m + 1 := ⟨32 * count - 1, by omega⟩
  rw [hm, Nat.add_sub_cancel] at h hlast
  unfold exfatCalcEntryCrc
  rw [Nat.mul_comm, hm, List.range_succ, List.foldl_append, List.foldl_append]
  have hfront : (List.range m).foldl (fun crc i => if i = 2 ∨ i = 3 then crc
      else rotateAdd crc (buffer (offset + i)).toNat) 0 = (List.range m).foldl (fun crc i =>
      if i = 2 ∨ i = 3 then crc else rotateAdd crc (other (offset' + i)).toNat) 0 := by
    apply List.foldl_ext
    intro crc x hx
    rw [h x (List.mem_range.mp hx)]
  rw [hfront, List.foldl_cons, List.foldl_cons, List.foldl_nil, List.foldl_nil, if_neg (by omega),
    if_neg (by omega)]
  intro heq
  have hbound := (buffer (offset + m)).toNat_lt
  have hbound' := (other (offset' + m)).toNat_lt
  unfold rotateAdd at heq
  exact hlast (UInt8.toNat_inj.mp (by omega))

theorem putField_congr_at {buffer other : Bytes} {offset offset' x start width n : ℕ}
    (h : buffer (offset + x) = other (offset' + x)) :
    putField buffer (offset + start) width n (offset + x) =
      putField other (offset' + start) width n (offset' + x) := by
  simp only [putField, h, Nat.add_le_add_iff_left, Nat.add_sub_add_left, add_assoc, Nat.add_lt_add_iff_left]

theorem updatedStream_congr {buffer other : Bytes} {offset offset' x : ℕ}
    (h : buffer (offset + x) = other (offset' + x)) :
    updatedStream buffer offset cluster size (offset + x) =
      updatedStream other offset' cluster size (offset' + x) := by
  cases cluster with
  | none => exact putField_congr_at (putField_congr_at h)
  | some c => exact putField_congr_at (putField_congr_at (putField_congr_at h))

/-- Memory that continues a directory behind the sector at `base`, with one byte changed. -/
def spoiled (dir : Bytes) (base last : ℕ) : Bytes := fun i =>
  if base + 512 + i = last then dir last + 1 else dir (base + 512 + i)

theorem overrun_spoiled {base last x : ℕ} (hne : base + x ≠ last) :
    overrun (fun i => dir (base + i)) (spoiled dir base last) x = dir (base + x) := by
  unfold overrun spoiled
  split_ifs with hlow hlast
  · rfl
  · omega
  · have hindex : base + 512 + (x - 512) = base + x := by omega
    rw [hindex]

theorem overrun_spoiled_last {base x : ℕ} (hx : 512 ≤ x) :
    overrun (fun i => dir (base + i)) (spoiled dir base (base + x)) x ≠ dir (base + x) := by
  rw [overrun, if_neg (by omega), spoiled, if_pos (by omega)]
  intro heq
  have hbound := (dir (base + x)).toNat_lt
  have hnat := congrArg UInt8.toNat heq
  rw [UInt8.toNat_add, UInt8.toNat_one] at hnat
  omega

/-- For a set that leaves its sector there are bytes behind the buffer that spoil every checksum: those
of the directory itself, with another last byte of the set. -/
theorem seenChecksum_ne (hset : SetAt dir k) (hnot : ¬ FitsSector dir k) :
    ∃ behind, ∀ cluster size,
      seenChecksum behind dir k cluster size ≠ updatedChecksum dir (32 * k) cluster size := by
  have hcount := hset.count
  have hfits := hset.fits
  rw [FitsSector] at hnot
  obtain ⟨last, hlast⟩ : ∃ last, 32 * (secondaryCount dir (32 * k) + 1) - 1 = last := ⟨_, rfl⟩
  have hoffset (x : ℕ) : 512 * (32 * k / 512) + (32 * k % 512 + x) = 32 * k + x := by omega
  refine ⟨spoiled dir (512 * (32 * k / 512)) (32 * k + last), fun cluster size => ?_⟩
  have hbuffer (x : ℕ) (hne : x ≠ last) := @overrun_spoiled dir (512 * (32 * k / 512)) (32 * k + last)
    (32 * k % 512 + x) (by omega)
  have hend := @overrun_spoiled_last dir (512 * (32 * k / 512)) (32 * k % 512 + last) (by omega)
  rw [hoffset] at hend
  simp only [hoffset] at hbuffer
  have hseen : secondaryCount (overrun _ _) (32 * k % 512) = secondaryCount dir (32 * k) :=
    congrArg UInt8.toNat (hbuffer 1 (by omega))
  unfold seenChecksum updatedChecksum
  rw [hseen, Nat.mod_eq_of_lt (by omega : secondaryCount dir (32 * k) + 1 < 256)]
  refine exfatCalcEntryCrc_ne (by omega) (fun x hx => updatedStream_congr (hbuffer x (by omega))) ?_
  have hkept (buffer : Bytes) (offset : ℕ) :
      updatedStream buffer offset cluster size (offset + last) = buffer (offset + last) := by
    unfold updatedStream
    rw [putField_of_not_mem (by omega), putField_of_not_mem (by omega)]
    cases cluster with
    | none => rfl
    | some c => exact putField_of_not_mem (by omega)
  rwa [hlast, hkept, hkept]

end Checksums

section Histories

/-- A usable volume whose current directory has right checksums. -/
structure Volume.Checked (v : Volume) : Prop extends v.Usable where
  sums : ∀ k, Live v.cwd k → ChecksumOk v.cwd k

/-- Along a history the checksums of the directory are right. -/
theorem Filled.checked (h : Filled CString start v) (hstart : start.Checked) : v.Checked := by
  refine h.invariant Volume.Checked.toUsable
    (fun _ hv => ⟨hv.toUsable.with_outcomes, hv.sums⟩) (fun {v v' change} hv _ hrun => ?_) hstart
  refine ⟨hv.toUsable.changed hrun, fun j hj => ?_⟩
  rcases hv.toUsable.cwd_changed hrun with ⟨isDir, k, first, hname, hslot, hfirst, hcwd⟩ | ⟨k, hk, hcwd⟩
  · rw [hcwd] at hj ⊢
    by_cases hjk : j = k
    · rw [hjk]
      exact checksumOk_withSet hname hfirst
    · obtain ⟨hold, hsame⟩ := hv.cwdOk.live_withSet hname hslot hj hjk
      exact (hv.sums j hold).congr hsame
  · rw [hcwd] at hj ⊢
    obtain ⟨hold, hsame⟩ := hv.cwdOk.live_cleared hk hj
    exact (hv.sums j hold).congr hsame

end Histories

section Edits

theorem findSlot_update (hk : Live dir k) (hset : SetAt dir k) :
    findSlot (updatedSector dir (32 * k) cluster size checksum) name = findSlot dir name := by
  have hmatches : Matches (updatedSector dir (32 * k) cluster size checksum) name = Matches dir name := by
    funext j
    rw [Matches, Matches, updatedSector_type, updatedSector_name hk.2 hset]
  rw [findSlot, findSlot, hmatches]

/-- An updated set is what lookups report. -/
theorem entryUpdated_of_dir (length : ℕ → ℕ) (hv : v.Sound) (hfind : findSlot v.cwd name = some k)
    (hpresent : (v.drives v.ataDrive).present = true)
    (hfits : FitsSector v.cwd k) (hdir : clusterAt bytes v.currentCluster =
      updatedSector v.cwd (32 * k) cluster (length k) (seenChecksum v.behind v.cwd k cluster (length k)))
    (hfirst : firstCluster (clusterAt bytes v.currentCluster) (32 * k) = first)
    (hrun : first = firstCluster v.cwd (32 * k) ∨ UnusedRun v first (clustersFor (length k)))
    (hsize : length k < 2 ^ 64) : EntryUpdated name length v (v.put bytes outcomes) := by
  have hk := (findSlot_some hfind).1
  have hset := hv.cwdOk.setAt hk
  have hbounds := hv.reach_bounds hv.current
  rw [seenChecksum_eq hset hfits] at hdir
  have hcwd : (v.put bytes outcomes).cwd = _ := (v.cwd_put _ _).trans hdir
  have hquiet : (v.put bytes []).Ready := ⟨rfl, by simpa [put] using hpresent⟩
  have hcwd' : (v.put bytes []).cwd = _ := (v.cwd_put _ _).trans hdir
  have hresolve := (hv.toFormatted.put : (v.put bytes []).Formatted).resolve_quiet
    (by change 2 ≤ v.currentCluster; omega) hbounds.2 (hcwd' ▸ hv.cwdOk.update) hquiet name
  rw [hcwd', findSlot_update hk hset, hfind] at hresolve
  refine ⟨k, first, _, hfind, hrun, hresolve, ?_, ?_, ?_, ?_⟩
  · change firstCluster (v.put bytes []).cwd (32 * k) = first
    rw [v.cwd_put, hfirst]
  · change dataLength (v.put bytes []).cwd (32 * k) = length k
    rw [hcwd', dataLength_update hsize]
  · rw [hcwd]
    exact checksumOk_update hset
  · rw [hcwd]
    have htwo := hset.count
    exact fun x hx => updatedSector_of_untouched (by omega)

theorem FileChange.first_cases (h : FileChange v k cluster first size bytes outcomes) :
    first = firstCluster v.cwd (32 * k) ∨ UnusedRun v first (clustersFor size) := by
  have hrun := h.run
  unfold NewRun at hrun
  split_ifs at hrun
  · exact .inl hrun
  · exact .inr hrun

variable (hv : v.Checked)
include hv

/-- What a successful edit leaves in the directory, if its set lies in one sector or is spared. -/
theorem Volume.Checked.edited {op : VolumeOp} (hedits : op.edits = some (name, data))
    (hdata : data.length < 2 ^ 43)
    (hsafe : ∀ k, findSlot v.cwd name = some k → FitsSector v.cwd k ∨ op.Spares v k)
    (hrun : op.run { v with outcomes := outcomes } = .ok () v') : op.Edited v v' := by
  have husable := @Volume.Usable.with_outcomes v outcomes hv.toUsable
  cases op with
  | create _ _ => cases hedits
  | changeDirectory _ => cases hedits
  | write _ _ =>
    cases hedits
    obtain ⟨k, first, bytes, outcomes', hfind, -, rfl, hchange, -⟩ := husable.write_ok hdata hrun
    have hfits := (hsafe k hfind).resolve_right hchange.run.not_spared
    exact entryUpdated_of_dir (fun _ => data.length) hv.toSound hfind hv.present hfits hchange.dir
      hchange.starts hchange.first_cases (by omega)
  | append _ _ =>
    cases hedits
    obtain ⟨k, hfind, hk, ⟨rfl, outcomes', rfl⟩ | ⟨hne, first, bytes, outcomes', -, rfl, hchange, -⟩⟩ :=
      husable.append_ok hdata hrun
    · have hready : { v with outcomes := [] }.Ready := ⟨rfl, hv.present⟩
      have hresolve := hv.toSound.with_outcomes.resolve_quiet hready name
      have hslot : findSlot { v with outcomes := [] }.cwd name = some k := hfind
      rw [hslot] at hresolve
      exact ⟨k, _, v.target k, hfind, .inl rfl, hresolve, rfl, rfl, hv.sums k hk, fun _ _ => rfl⟩
    · have hsize := hv.toSound.size_le hk
      have hfits := (hsafe k hfind).resolve_right fun hspared => hspared.elim hne fun hfull =>
        hchange.run.not_spared ⟨hfull.1.ne', hfull.2⟩
      exact entryUpdated_of_dir (fun k => dataLength v.cwd (32 * k) + data.length) hv.toSound
        hfind hv.present hfits hchange.dir hchange.starts hchange.first_cases (by omega)
  | truncate _ =>
    cases hedits
    obtain ⟨k, bytes, outcomes', hfind, hlength, -, rfl, hdir, -⟩ := husable.truncate_ok hrun
    have hk := (findSlot_some hfind).1
    have hsize := hv.toSound.size_le hk
    exact entryUpdated_of_dir v.truncatedLength hv.toSound hfind hv.present
      ((hsafe k hfind).resolve_right hlength) hdir (hdir ▸ firstCluster_update_none) (.inl rfl)
      (by unfold truncatedLength; omega)
  | delete _ =>
    cases hedits
    obtain ⟨k, bytes, outcomes', hfind, -, rfl, hcleared⟩ := husable.delete_ok hrun
    have hcwd : (v.put bytes outcomes').cwd = clearedSector v.cwd (32 * k) (secondaryCount v.cwd (32 * k) + 1) :=
      (v.cwd_put _ _).trans hcleared.dir
    refine ⟨k, hfind, fun j hj => ?_, fun x hx => ?_⟩
    · exact (congrFun hcwd _).trans (clearedSector_type (by omega))
    · refine (congrFun hcwd x).trans (clearedSector_of_ne fun i hi => ?_)
      rw [← mul_add]
      exact hx i (by omega)

end Edits

section Outcomes

variable {op : VolumeOp} (hv : v.Sound) (hedits : op.edits = some (name, data)) (hdata : data.length < 2 ^ 43)
include hv hedits hdata

/-- The three ends of an edit. -/
theorem Volume.Sound.edit_settles (hready : v.Ready) : Settles op.run v
    (∀ k, findSlot v.cwd name = some k → op.Spares v k)
    (∃ k, findSlot v.cwd name = some k ∧ ¬ FitsSector v.cwd k ∧ ¬ op.Spares v k) := by
  cases op with
  | create _ _ => cases hedits
  | changeDirectory _ => cases hedits
  | write _ _ =>
    cases hedits
    exact (hv.write_settles hready hdata).imp_right (Or.imp_right (And.imp_left (Splits.straddles hv)))
  | append _ _ =>
    cases hedits
    exact (hv.append_settles hready hdata).imp_right (Or.imp_right (And.imp_left (Splits.straddles hv)))
  | truncate _ =>
    cases hedits
    exact (hv.truncate_settles hready).imp_right (Or.imp_right (And.imp_left (Splits.straddles hv)))
  | delete _ =>
    cases hedits
    refine (hv.delete_settles hready).1.imp_right (Or.imp (And.imp_left fun hnone k hk => ?_) (And.imp_left ?_))
    · rw [hnone] at hk
      cases hk
    · rintro ⟨k, hfind, hnot⟩
      exact ⟨k, hfind, hnot, id⟩

/-- An edit of a set that leaves its sector stores the checksum it has seen. -/
theorem Volume.Sound.edit_ok (hfind : findSlot v.cwd name = some k) (hspares : ¬ op.Spares v k)
    (hrun : op.run v = .ok () v') : FitsSector v.cwd k ∨
      (∃ cluster size, v'.cwd = updatedSector v.cwd (32 * k) cluster size
        (seenChecksum v.behind v.cwd k cluster size)) ∧
      ∀ u : Volume, u.cwd = v.cwd → op.Edited u v' → ChecksumOk v'.cwd k := by
  have hsum (length : ℕ → ℕ) (u : Volume) (hcwd : u.cwd = v.cwd) (h : EntryUpdated name length u v') :
      ChecksumOk v'.cwd k := by
    obtain ⟨i, _, _, hi, -, -, -, -, hok, -⟩ := h
    rw [hcwd, hfind] at hi
    rwa [Option.some.inj hi]
  cases op with
  | create _ _ => cases hedits
  | changeDirectory _ => cases hedits
  | write _ _ =>
    cases hedits
    obtain ⟨i, first, bytes, outcomes, hi, -, rfl, hchange, -⟩ := hv.write_ok hdata hrun
    obtain rfl : i = k := Option.some.inj (hi.symm.trans hfind)
    exact .inr ⟨⟨_, _, (v.cwd_put _ _).trans hchange.dir⟩, hsum _⟩
  | append _ _ =>
    cases hedits
    obtain ⟨i, hi, -, ⟨hnil, -⟩ | ⟨-, first, bytes, outcomes, -, rfl, hchange, -⟩⟩ := hv.append_ok hdata hrun
    · exact absurd (.inl hnil) hspares
    obtain rfl : i = k := Option.some.inj (hi.symm.trans hfind)
    exact .inr ⟨⟨_, _, (v.cwd_put _ _).trans hchange.dir⟩, fun u hcwd =>
      hsum (fun k => dataLength u.cwd (32 * k) + data.length) u hcwd⟩
  | truncate _ =>
    cases hedits
    obtain ⟨i, bytes, outcomes, hi, -, -, rfl, hdir, -⟩ := hv.truncate_ok hrun
    obtain rfl : i = k := Option.some.inj (hi.symm.trans hfind)
    exact .inr ⟨⟨_, _, (v.cwd_put _ _).trans hdir⟩, fun u hcwd => hsum u.truncatedLength u hcwd⟩
  | delete _ =>
    cases hedits
    obtain ⟨i, bytes, outcomes, hi, hfits, -⟩ := hv.delete_ok hrun
    obtain rfl : i = k := Option.some.inj (hi.symm.trans hfind)
    exact .inl hfits

end Outcomes

/-- Other bytes behind the buffers leave a volume as it is. -/
theorem Volume.Checked.recall (hv : v.Checked) (behind : Bytes) : (v.recall behind).Checked :=
  ⟨⟨⟨⟨hv.heapOffset, hv.perCluster, hv.root, hv.atLeast, hv.atMost⟩, hv.separated, hv.dirOk, hv.sizeOk,
    hv.current⟩, hv.present⟩, hv.sums⟩

/-- In every directory that creates and deletes have filled: whatever stands in memory behind the
driver's buffer, an operation on a name returns and, if it reports success, has edited the entry set
and nothing else, exactly if the set lies in one sector or the operation does not come to touch it. -/
theorem edits_safely_iff (start v : Volume) (hsound : start.Sound) (hready : start.Ready)
    (hempty : ∀ k, ¬ Live start.cwd k) (hv : Filled CString start v) (op : VolumeOp)
    (name data : List UInt8) (hedits : op.edits = some (name, data)) (hdata : data.length < 2 ^ 43) :
    (∀ behind, op.EditsSafely (v.recall behind)) ↔
      ∀ k, findSlot v.cwd name = some k → FitsSector v.cwd k ∨ op.Spares v k := by
  have hchecked := hv.checked ⟨⟨hsound, hready.present⟩, fun k hk => absurd hk (hempty k)⟩
  have hquiet (behind : Bytes) : Volume.Sound { v.recall behind with outcomes := [] } :=
    (hchecked.recall behind).toSound.with_outcomes
  have hnow (behind : Bytes) : Volume.Ready { v.recall behind with outcomes := [] } := ⟨rfl, hchecked.present⟩
  have hsettles (behind : Bytes) := (hquiet behind).edit_settles hedits hdata (hnow behind)
  constructor
  · intro hsafe k hfind
    by_contra hnot
    obtain ⟨hleaves, hspares⟩ := not_or.mp hnot
    have hset := hchecked.cwdOk.setAt (findSlot_some hfind).1
    obtain ⟨behind, hwrong⟩ := seenChecksum_ne hset hleaves
    have hspares' : ¬ op.Spares { v.recall behind with outcomes := [] } k := by
      cases op <;> exact hspares
    rcases hsettles behind with ⟨v', hrun⟩ | ⟨hrefusal, -⟩ | ⟨-, w, hundefined⟩
    · rcases (hquiet behind).edit_ok hedits hdata hfind hspares' hrun with
        hfits | ⟨⟨cluster, size, hcwd⟩, hedited⟩
      · exact hleaves hfits
      · have hsum := hedited (v.recall behind) rfl ((hsafe behind).2 [] v' hrun)
        rw [hcwd] at hsum
        exact hwrong cluster size (hsum.eq_updated hset (exfatCalcEntryCrc_lt _ _ _))
    · exact hspares' (hrefusal k hfind)
    · exact (hsafe behind).1 w hundefined
  · intro hsafe behind
    have hsafe' (k : ℕ) (hfind : findSlot (v.recall behind).cwd name = some k) :
        FitsSector (v.recall behind).cwd k ∨ op.Spares (v.recall behind) k := by
      cases op <;> exact hsafe k hfind
    refine ⟨fun w hundefined => ?_, fun outcomes v' hrun => ?_⟩
    · obtain ⟨v', hrun | ⟨rc, hrun⟩⟩ := (hsettles behind).returns (by
        rintro ⟨k, hfind, hleaves, hspares⟩
        rcases hsafe k hfind with hfits | hspared
        · exact hleaves hfits
        · cases op <;> exact hspares hspared)
      · cases hundefined.symm.trans hrun
      · cases hundefined.symm.trans hrun
    · exact (hchecked.recall behind).edited hedits hdata hsafe' hrun

section Examples

/-- The files `a` to `f` in a new directory. -/
def sixFilesVolume : Volume :=
  finalState (runChanges ([97, 98, 99, 100, 101, 102].map fun c => .create [c] false) emptyDirectory)

theorem emptyDirectory_not_live (k : ℕ) : ¬ Live emptyDirectory.cwd k := by
  rintro ⟨-, hfile⟩
  rw [emptyDirectory_zeroed.2.2] at hfile
  exact zero_ne_typeFile hfile

theorem sixFilesVolume_filled : Filled CString emptyDirectory sixFilesVolume := by
  obtain ⟨_, hrun⟩ := ok_of_stopReason
    (runChanges ([97, 98, 99, 100, 101, 102].map fun c => .create [c] false) emptyDirectory) (by decide +kernel)
  exact filled_of_run _ .start (by simp [NameChange.name, CString, NameChange.InBounds]) hrun

/-- Writing to the sixth file of a new directory works past the driver's buffer. -/
theorem sixth_file_not_written : ∃ start v op name data, start.Sound ∧ start.Ready ∧
    (∀ k, ¬ Live start.cwd k) ∧ Filled CString start v ∧ VolumeOp.edits op = some (name, data) ∧
      data.length < 2 ^ 43 ∧ ¬ op.EditsSafely v := by
  obtain ⟨hsound, hready, -⟩ := emptyDirectory_zeroed
  refine ⟨emptyDirectory, sixFilesVolume, .write [102] [104, 105], [102], [104, 105], hsound, hready,
    emptyDirectory_not_live, sixFilesVolume_filled, rfl, by decide, fun hsafe => ?_⟩
  exact hsafe.1 _ (error_of_stopReason (by decide +kernel : stopReason
    (exfatWriteFile [102] [104, 105] { sixFilesVolume with outcomes := [] }) = some .undefined))

/-- Writing to the fifth file edits its set, and appending nothing to the sixth one leaves its set alone. -/
theorem edits_safely_iff_fifth :
    (∀ behind, (VolumeOp.write [101] [104, 105]).EditsSafely (sixFilesVolume.recall behind)) ∧
      ∀ behind, (VolumeOp.append [102] []).EditsSafely (sixFilesVolume.recall behind) := by
  obtain ⟨hsound, hready, -⟩ := emptyDirectory_zeroed
  have hslot : findSlot sixFilesVolume.cwd [101] = some 12 := by decide +kernel
  constructor
  · refine (edits_safely_iff emptyDirectory sixFilesVolume hsound hready emptyDirectory_not_live
      sixFilesVolume_filled _ [101] [104, 105] rfl (by decide)).mpr fun k hfind => .inl ?_
    cases hslot.symm.trans hfind
    decide +kernel
  · exact (edits_safely_iff emptyDirectory sixFilesVolume hsound hready emptyDirectory_not_live
      sixFilesVolume_filled _ [102] [] rfl (by decide)).mpr fun k _ => .inr (.inl rfl)

end Examples

/-!
## Removing the last line of a file

`exfat_truncate_last_line` looks for the line's start only in the sector that holds the last byte of
the file. The new length is therefore the start of the last line or the start of that sector,
whichever is larger.
-/

open Forest List

/-- Contents without their last line: without the bytes behind the last newline that is not the
final byte. -/
def withoutLastLine (content : List UInt8) : List UInt8 := content.dropLast.rdropWhile (· ≠ 10)

/-- Where the sector with the last byte of so many bytes starts. -/
def lastSectorStart (size : ℕ) : ℕ := 512 * ((size - 1) / 512)

variable {k : ℕ}

section Scan

/-- Dropping from the end of two parts reaches the first part only if all of the second is
dropped. -/
theorem rdropWhile_append {α : Type} (p : α → Bool) (front back : List α) :
    (front ++ back).rdropWhile p =
      if back.rdropWhile p = [] then front.rdropWhile p else front ++ back.rdropWhile p := by
  induction back using reverseRecOn with
  | nil => simp
  | append_singleton back a ih =>
    rw [← append_assoc]
    by_cases ha : p a
    · rw [rdropWhile_concat_pos _ _ _ ha, rdropWhile_concat_pos _ _ _ ha, ih]
    · rw [rdropWhile_concat_neg _ _ _ ha, rdropWhile_concat_neg _ _ _ ha, if_neg (by simp), append_assoc]

/-- The backward scan counts the bytes behind the last newline. -/
theorem backToNewline_eq (sector : Bytes) (tail : ℕ) :
    (((List.range (tail + 1)).map sector).rdropWhile (· ≠ 10)).length + backToNewline sector tail = tail + 1 := by
  induction tail with
  | zero =>
    rw [range_one, map_singleton, backToNewline]
    split_ifs with hnewline
    · simp [hnewline, rdropWhile]
    · simp [hnewline, rdropWhile]
  | succ tail ih =>
    rw [range_succ, map_append, map_singleton, backToNewline]
    split_ifs with hnewline
    · rw [rdropWhile_concat_neg _ _ _ (by simp [hnewline])]
      simp
    · rw [rdropWhile_concat_pos _ _ _ (by simp [hnewline])]
      omega

/-- What is removed in the last sector is the line that ends there, as far as it lies in the
sector. -/
theorem removeCount_eq (sector : Bytes) (tail : ℕ) :
    (((List.range tail).map sector).rdropWhile (· ≠ 10)).length + removeCount sector tail = tail + 1 := by
  unfold removeCount
  cases tail with
  | zero =>
    rw [range_zero, map_nil, backToNewline]
    split_ifs with hnewline hbefore
    · omega
    · simp
    · simp
  | succ tail =>
    have hscan := backToNewline_eq sector tail
    rw [Nat.add_sub_cancel]
    split_ifs with hnewline hbefore
    · omega
    · -- an empty last line: the newline before it is where the scan stops
      have hempty : sector tail = 10 := by
        by_contra hne
        exact hbefore ⟨Nat.succ_pos tail, hne⟩
      have hback : backToNewline sector (tail + 1) = 0 := by rw [backToNewline, if_pos hnewline]
      have hstop : backToNewline sector tail = 0 := by cases tail <;> rw [backToNewline, if_pos hempty]
      omega
    · rw [backToNewline, if_neg hnewline]
      omega

/-- The contents up to the last byte are those before the last sector and those in it. -/
theorem dropLast_split (f : ℕ → UInt8) {size : ℕ} (hsize : size ≠ 0) :
    ((List.range size).map f).dropLast = (List.range (lastSectorStart size)).map f ++
      (List.range ((size - 1) % 512)).map fun j => f (lastSectorStart size + j) := by
  obtain ⟨last, rfl⟩ := Nat.exists_eq_succ_of_ne_zero hsize
  have hsplit : last = lastSectorStart (last + 1) + last % 512 := by
    rw [lastSectorStart, Nat.add_sub_cancel]
    omega
  rw [Nat.succ_eq_add_one, range_succ, map_append, map_singleton, dropLast_concat, Nat.add_sub_cancel]
  nth_rewrite 1 [hsplit]
  rw [range_add, map_append, map_map]
  rfl

/-- The new length is the start of the last line or of the last sector, whichever is larger. -/
theorem truncated_eq_max (f : ℕ → UInt8) {size : ℕ} (hsize : size ≠ 0) :
    size - removeCount (fun j => f (lastSectorStart size + j)) ((size - 1) % 512) =
      max (withoutLastLine ((List.range size).map f)).length (lastSectorStart size) := by
  have hremove := removeCount_eq (fun j => f (lastSectorStart size + j)) ((size - 1) % 512)
  have hend : size = lastSectorStart size + (size - 1) % 512 + 1 := by
    rw [lastSectorStart]
    omega
  rw [withoutLastLine, dropLast_split f hsize, rdropWhile_append]
  split_ifs with hempty
  · have hshort : (((range (lastSectorStart size)).map f).rdropWhile (· ≠ 10)).length ≤ lastSectorStart size := by
      have hle := IsPrefix.length_le <| rdropWhile_prefix (· ≠ 10) (l := (range (lastSectorStart size)).map f)
      rwa [length_map, length_range] at hle
    rw [hempty, length_nil] at hremove
    omega
  · rw [length_append, length_map, length_range]
    omega

end Scan

/-- The length that a truncation leaves the file in a slot with. -/
theorem Volume.truncatedLength_eq (hsize : dataLength v.cwd (32 * k) ≠ 0) : v.truncatedLength k =
    max (withoutLastLine (v.fileBytes v.currentCluster k)).length
      (lastSectorStart (dataLength v.cwd (32 * k))) := by
  have hmax := truncated_eq_max (fun i => v.bytes (clusterBase (firstCluster v.cwd (32 * k)) + i)) hsize
  have hsector : sectorAt v.bytes (8 * (firstCluster v.cwd (32 * k) + 766) +
      (dataLength v.cwd (32 * k) - 1) / 512) = fun j => v.bytes (clusterBase (firstCluster v.cwd (32 * k)) +
        (lastSectorStart (dataLength v.cwd (32 * k)) + j)) := by
    funext j
    rw [sectorAt, clusterBase, lastSectorStart]
    congr 1
    omega
  rwa [truncatedLength, hsector]

/-- After a successful `exfat_truncate_last_line` the file has lost exactly its last line if and only
if that line starts in the sector of the file's last byte. -/
theorem truncate_removes_last_line_iff (v v' : Volume) (name : List UInt8) (hv : v.Sound)
    (h : exfatTruncateLastLine name v = .ok () v') :
    ∃ k, findSlot v.cwd name = some k ∧ findSlot v'.cwd name = some k ∧
      (dataLength v'.cwd (32 * k) = (withoutLastLine (v.fileBytes v.currentCluster k)).length ↔
        lastSectorStart (v.fileBytes v.currentCluster k).length ≤
          (withoutLastLine (v.fileBytes v.currentCluster k)).length) := by
  obtain ⟨k, bytes, outcomes, hfind, hsize, -, rfl, hdir, -⟩ := hv.truncate_ok h
  have hk := (findSlot_some hfind).1
  have hsmall := hv.size_le hk
  have hlength : (v.fileBytes v.currentCluster k).length = dataLength v.cwd (32 * k) := by
    rw [fileBytes, length_map, length_range]
    rfl
  have hle : v.truncatedLength k ≤ dataLength v.cwd (32 * k) := tsub_le_self
  have hcwd : (v.put bytes outcomes).cwd = _ := (v.cwd_put _ _).trans hdir
  refine ⟨k, hfind, ?_, ?_⟩
  · rw [hcwd, findSlot_update hk (hv.cwdOk.setAt hk), hfind]
  · rw [hcwd, dataLength_update (by omega), v.truncatedLength_eq hsize, hlength]
    exact max_eq_left_iff

/-- A last line of more than one byte takes the byte before the final one away. -/
theorem Volume.withoutLastLine_le (v : Volume) {size : ℕ} (hsize : dataLength v.cwd (32 * k) = size + 2)
    (hbyte : v.bytes (clusterBase (firstCluster v.cwd (32 * k)) + size) ≠ 10) :
    (withoutLastLine (v.fileBytes v.currentCluster k)).length ≤ size := by
  change (withoutLastLine ((range (dataLength v.cwd (32 * k))).map fun i =>
    v.bytes (clusterBase (firstCluster v.cwd (32 * k)) + i))).length ≤ size
  rw [hsize, withoutLastLine, range_succ, map_append, map_singleton, dropLast_concat, range_succ, map_append,
    map_singleton, rdropWhile_concat_pos _ _ _ (by simpa using hbyte)]
  refine (IsPrefix.length_le <| rdropWhile_prefix _ _).trans ?_
  rw [length_map, length_range]

/-- A file `a` of 513 bytes without a newline. -/
def longLineVolume : Volume := finalState
  ((exfatCreateNode [97] false >>= fun _ => exfatWriteFile [97] (List.replicate 513 120)) blank)

/-- A file `a` of two lines. -/
def twoLineVolume : Volume := finalState
  ((exfatCreateNode [97] false >>= fun _ => exfatWriteFile [97] [120, 10, 121, 122, 10]) blank)

/-- A file that is written to a blank volume leaves it sound. -/
theorem written_sound {data : List UInt8} (hdata : data.length < 2 ^ 43)
    (hrun : stopReason ((exfatCreateNode [97] false >>= fun _ => exfatWriteFile [97] data) blank) = none) :
    (finalState ((exfatCreateNode [97] false >>= fun _ => exfatWriteFile [97] data) blank)).Sound := by
  obtain ⟨_, hok⟩ := ok_of_stopReason _ hrun
  obtain ⟨_, w, hcreate, hwrite⟩ := bind_eq_ok hok
  have hfile : w.NamesFile [97] := by
    have hnames := emptyFileVolume_namesFile
    rwa [emptyFileVolume, hcreate, finalState] at hnames
  exact ((blank_sound.create_node hcreate).1.write hdata hfile hwrite).1

/-- Of a line of 513 bytes only the last byte is removed. -/
theorem long_line_kept : ∃ v v' name k, v.Sound ∧ exfatTruncateLastLine name v = .ok () v' ∧
    findSlot v'.cwd name = some k ∧
    dataLength v'.cwd (32 * k) ≠ (withoutLastLine (v.fileBytes v.currentCluster k)).length := by
  have hsound : longLineVolume.Sound := written_sound (by rw [length_replicate]; decide) (by decide +kernel)
  obtain ⟨_, hrun⟩ := ok_of_stopReason (exfatTruncateLastLine [97] longLineVolume) (by decide +kernel)
  have hlength : dataLength (finalState (exfatTruncateLastLine [97] longLineVolume)).cwd (32 * 2) = 512 := by
    decide +kernel
  have hsize : dataLength longLineVolume.cwd (32 * 2) = 513 := by decide +kernel
  have hlast : longLineVolume.bytes (clusterBase (firstCluster longLineVolume.cwd (32 * 2)) + 511) = 120 := by
    decide +kernel
  refine ⟨longLineVolume, _, [97], 2, hsound, hrun, by decide +kernel, fun hsame => ?_⟩
  have hshort := longLineVolume.withoutLastLine_le hsize (by rw [hlast]; decide)
  omega

/-- The second of two short lines is removed. -/
theorem truncate_removes_last_line_short : ∃ v', exfatTruncateLastLine [97] twoLineVolume = .ok () v' ∧
    findSlot v'.cwd [97] = some 2 ∧ dataLength v'.cwd 64 = 2 := by
  have hsound : twoLineVolume.Sound := written_sound (by decide) (by decide +kernel)
  obtain ⟨_, hrun⟩ := ok_of_stopReason (exfatTruncateLastLine [97] twoLineVolume) (by decide +kernel)
  obtain ⟨k, hfind, hfind', hiff⟩ := truncate_removes_last_line_iff _ _ _ hsound hrun
  have hslot : findSlot twoLineVolume.cwd [97] = some 2 := by decide +kernel
  cases hslot.symm.trans hfind
  exact ⟨_, hrun, hfind', (hiff.mpr (by decide +kernel)).trans (by decide +kernel)⟩

end Windoge.Exfat
