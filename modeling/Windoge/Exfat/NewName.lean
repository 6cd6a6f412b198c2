import Windoge.Exfat.EntryUpdates

/-!
# Looking up a new name

`exfat_create_node` followed by `exfat_resolve_entry`, on any geometry in which the current
directory shares no sector with the bitmap or with an unused cluster. The set that a create
places in the first gap of a well-formed directory is found under every case variant of its
name, and every other name is found where it was.
-/

namespace Windoge.Exfat

open Windoge.Flow BitArray List Volume Bool

/-- The volume without sector failures to come. -/
def Volume.calm (v : Volume) : Volume := { v with outcomes := [] }

/-- The current directory shares no sector with the bitmap or with an unused cluster. -/
structure Volume.DirectoryApart (v : Volume) : Prop where
  atMost : v.clusterCount ≤ maxBitmapClusters
  bitmap : ∀ s < 8, ∀ t < (v.clusterCount + 4095) / 4096,
    exfatClusterLba v v.currentCluster + s ≠ exfatClusterLba v 2 + t
  unused : ∀ c, 2 ≤ c → c < v.clusterCount + 2 → v.used c = false → ∀ s < 8, ∀ t < 8,
    exfatClusterLba v v.currentCluster + s ≠ exfatClusterLba v c + t

variable {v v' : Volume} {dir dir' : Bytes} {name other : List UInt8} {isDir : Bool}
  {base first j k : ℕ}

section Place

/-- A lookup reports the same about the same set. -/
theorem SameSet.targetAt (h : SameSet dir dir' k) (hcount : 1 ≤ secondaryCount dir (32 * k)) :
    targetAt base dir (32 * k) = targetAt base dir' (32 * k) := by
  obtain ⟨hfirst, hlength, hdir⟩ := stream_congr hcount h
  rw [Exfat.targetAt, Exfat.targetAt, hfirst, hlength, hdir]

variable (hok : DirOk dir) (hname : name ≠ []) (hlength : name.length ≤ 255) (hclean : ∀ c ∈ name, c ≠ 0)
  (hslot : freeSlot dir (totalEntries name) = some k)

include hname hslot in
theorem freeSlot_bounds : k ≤ 125 ∧ k + totalEntries name ≤ 128 ∧
    ∀ i < totalEntries name, dir (32 * (k + i)) &&& 0x80 = 0 := by
  have hbounds := totalEntries_bounds hname
  obtain ⟨hfits, hfree⟩ := freeSlot_some (by omega) hslot
  exact ⟨by omega, hfits, hfree⟩

include hname hslot in
theorem freeSlot_matches (other : List UInt8) : Matches dir other k = false := by
  have hbounds := totalEntries_bounds hname
  have hfree := (freeSlot_bounds hname hslot).2.2 0 (by omega)
  have hfile : dir (32 * k) ≠ typeFile := fun hfile => by
    rw [add_zero, hfile] at hfree
    contradiction
  simp [Matches, hfile]

include hok hname hslot in
theorem matches_withSet_other (hj : j ≤ 125) (hne : j ≠ k) :
    Matches (withSet dir name isDir first k) other j = Matches dir other j := by
  obtain ⟨-, hfits, hfree⟩ := freeSlot_bounds hname hslot
  have hsame := slotNode_place hok hname hfits hfree isDir first j
  rw [if_neg hne] at hsame
  rw [Bool.eq_iff_iff, matches_iff hj, matches_iff hj, hsame]

variable (hfirst : first < 2 ^ 32)
include hname hlength hclean hslot hfirst

/-- The slot of a placed set matches the case variants of its name. -/
theorem matches_withSet_self :
    Matches (withSet dir name isDir first k) other k = true ↔ other.map lowerCase = name.map lowerCase := by
  have hbounds := totalEntries_bounds hname
  obtain ⟨-, hfits, -⟩ := freeSlot_bounds hname hslot
  have htype := withSet_type dir isDir first k (by omega : 0 < totalEntries name)
  rw [Matches, decide_eq_true_eq, exfatNameEqual_iff, entryName_withSet hname hfirst hclean hfits,
    take_of_length_le hlength, eq_comm (a := other.map lowerCase)]
  exact and_iff_right htype

include hok

/-- A new name is found where its set was placed. -/
theorem findSlot_withSet_self (hnew : findSlot dir name = none)
    (hother : other.map lowerCase = name.map lowerCase) :
    findSlot (withSet dir name isDir first k) other = some k := by
  have hk := (freeSlot_bounds hname hslot).1
  rw [findSlot, ← range_eq_range', find?_range_eq_some]
  refine ⟨(matches_withSet_self hname hlength hclean hslot hfirst).mpr hother,
    mem_range.mpr (by omega), fun j hj => ?_⟩
  have hnone := find?_eq_none.mp hnew j (mem_range'_1.mpr (by omega))
  rw [matches_withSet_other hok hname hslot (by omega) (by omega)]
  rw [Matches, decide_eq_true_eq, exfatNameEqual_iff] at hnone
  rwa [Matches, not_eq_true', decide_eq_false_iff_not, exfatNameEqual_iff, hother]

/-- Every other name is found where it was. -/
theorem findSlot_withSet_other (hother : other.map lowerCase ≠ name.map lowerCase) :
    findSlot (withSet dir name isDir first k) other = findSlot dir other := by
  refine find?_congr fun j hj => ?_
  have hrange := mem_range'_1.mp hj
  by_cases hjk : j = k
  · rw [hjk, freeSlot_matches hname hslot other, ← not_eq_true,
      matches_withSet_self hname hlength hclean hslot hfirst]
    exact hother
  · exact matches_withSet_other hok hname hslot (by omega) hjk

end Place

section Create

/-- Reading sectors succeeds on accepted ones only. -/
theorem readSectors_accepts {lba count : ℕ} {buffer : Bytes} (h : readSectors lba count v = .ok buffer v')
    (i : ℕ) (hi : i < count) : v.Accepts (lba + i) := by
  induction count generalizing buffer v' with
  | zero => exact absurd hi (Nat.not_lt_zero i)
  | succ count ih =>
    obtain ⟨front, w, hfront, h⟩ := bind_eq_ok h
    obtain ⟨sector, w', hsector, -⟩ := bind_eq_ok h
    obtain ⟨-, outcomes, rfl⟩ := readSectors_ok hfront
    rcases Nat.lt_succ_iff_lt_or_eq.mp hi with hlt | rfl
    · exact ih hfront hlt
    · exact (v.put_accepts _ _ _).mp (exfatSectorRead_accepts hsector)

/-- A directory's fresh sectors are zeroed and no other sector changes. -/
theorem zeroDirectory_window {lba base : ℕ} {u : Unit} (hapart : ∀ s < 8, ∀ t < 8, base + s ≠ lba + t)
    (h : zeroDirectory lba isDir v = .ok u v') : ∃ bytes outcomes, v' = v.put bytes outcomes ∧
      window bytes (512 * base) 4096 = window v.bytes (512 * base) 4096 := by
  cases isDir with
  | false =>
    cases h
    exact ⟨v.bytes, v.outcomes, v.put_self.symm, rfl⟩
  | true =>
    obtain ⟨outcomes, rfl⟩ := writeAll_ok h
    refine ⟨_, outcomes, rfl, funext fun x => ?_⟩
    unfold window
    split_ifs
    · rw [putSectors_bufferSectors, if_neg]
      rintro ⟨hlow, hhigh⟩
      exact hapart (x / 512) (by omega) ((512 * base + x) / 512 - lba) (by omega) (by omega)
    · rfl

/-- A directory after the sectors that a new set touches have been rewritten. -/
theorem window_withSet {bytes : Bytes} {base : ℕ} (hfits : k + totalEntries name ≤ 128)
    (hdir : window bytes (512 * base) 4096 = dir) :
    window (putSectors bytes (bufferSectors base (withSet dir name isDir first k) (32 * k / 512)
      ((32 * k + 32 * totalEntries name - 1) / 512 + 1 - 32 * k / 512))) (512 * base) 4096 =
      withSet dir name isDir first k := by
  subst hdir
  funext x
  unfold window
  split_ifs with hx
  · rw [putSectors_bufferSectors]
    split_ifs
    · rw [Nat.add_sub_cancel_left]
    · rw [withSet, placeSet_out (by omega), if_pos hx]
  · rw [withSet, placeSet_out (by omega), if_neg hx]

/-- What a successful create has done to the current directory, in any geometry. -/
theorem exfatCreateNode_directory (hapart : v.DirectoryApart) (h : exfatCreateNode name isDir v = .ok () v') :
    name ≠ [] ∧ (∀ s < 8, v.Accepts (exfatClusterLba v v.currentCluster + s)) ∧
      ∃ k first bytes outcomes, freeSlot v.directory (totalEntries name) = some k ∧ 2 ≤ first ∧
        first < v.clusterCount + 2 ∧ v.used first = false ∧ v' = v.put bytes outcomes ∧
        window bytes (512 * exfatClusterLba v v.currentCluster) 4096 =
          withSet v.directory name isDir first k := by
  unfold exfatCreateNode at h
  split_ifs at h with hname
  · cases h
  rw [get_bind] at h
  obtain ⟨buffer, v₁, hread, h⟩ := bind_eq_ok h
  refine ⟨hname, fun s hs => readSectors_accepts hread s hs, ?_⟩
  obtain ⟨hbuffer, outcomes₁, rfl⟩ := readSectors_ok hread
  obtain rfl : buffer = v.directory := hbuffer
  rw [v.put_bytes_eq] at h
  cases hslot : freeSlot v.directory (totalEntries name) with
  | none =>
    rw [hslot] at h
    cases h
  | some k =>
    rw [hslot] at h
    obtain ⟨cluster, v₂, halloc, h⟩ := bind_eq_ok h
    split_ifs at h with hzero
    · cases h
    obtain ⟨start, outcomes₂, rfl, -, hend, hclear, rfl⟩ := exfatAllocBlocks_ok halloc hzero
    have hend : start + 1 ≤ v.clusterCount := hend
    have hunused := hclear start le_rfl (by omega)
    -- the bit of the new cluster lies in a bitmap sector, and the directory in none
    have hbits : window (putBits v.bytes (4096 * exfatClusterLba v 2) (range' start 1) true)
        (512 * exfatClusterLba v v.currentCluster) 4096 = v.directory := by
      funext x
      unfold directory window
      split_ifs
      · refine putBits_of_ne fun i hi heq => ?_
        have hrange := mem_range'_1.mp hi
        exact hapart.bitmap (x / 512) (by omega) (i / 4096) (by omega) (by omega)
      · rfl
    obtain ⟨_, v₃, hdirectory, h⟩ := bind_eq_ok h
    obtain ⟨bytes₃, outcomes₃, rfl, hkept⟩ :=
      zeroDirectory_window (hapart.unused (start + 2) (by omega) (by omega) hunused) hdirectory
    rw [put_put] at h
    obtain ⟨outcomes₄, rfl⟩ := writeAll_ok h
    rw [put_put, put_bytes]
    rw [put_bytes] at hkept
    have hfits := (freeSlot_bounds hname hslot).2.1
    exact ⟨k, start + 2, _, outcomes₄, rfl, by omega, by omega, hunused, rfl,
      window_withSet hfits (hkept.trans hbits)⟩

/-- A lookup in a well-formed directory that can be read finds the first slot with the name. -/
theorem resolve_calm (hok : DirOk v.directory)
    (haccepts : ∀ s < 8, v.Accepts (exfatClusterLba v v.currentCluster + s)) (other : List UInt8) :
    exfatResolveEntry other v.calm = match findSlot v.directory other with
      | none => .error (.code (-1)) v.calm
      | some k => .ok (targetAt (exfatClusterLba v v.currentCluster) v.directory (32 * k)) v.calm := by
  have hscan : resolveScan v.calm.directory other 126 0 = (findSlot v.directory other).map (32 * ·) :=
    hok.resolveScan_eq
  have hcalm : ∀ s < 8, v.calm.Accepts (exfatClusterLba v.calm v.calm.currentCluster + s) := haccepts
  rw [exfatResolveEntry_quiet rfl hcalm, hscan]
  cases findSlot v.directory other <;> rfl

/-- After a create every case variant of the name resolves to the new, empty entry, whose cluster was
unused, and every other name resolves as before. -/
theorem create_resolves (hapart : v.DirectoryApart) (hok : DirOk v.directory) (hlength : name.length ≤ 255)
    (hclean : ∀ c ∈ name, c ≠ 0)
    (hnew : ∀ k, Live v.directory k → exfatNameEqual (entryName v.directory (32 * k)) name = false)
    (h : exfatCreateNode name isDir v = .ok () v') :
    (∃ k target, freeSlot v.directory (totalEntries name) = some k ∧
      target.entryLba = exfatClusterLba v v.currentCluster + 32 * k / 512 ∧
      target.entryOffset = 32 * k % 512 ∧ target.size = 0 ∧ target.isDir = isDir ∧
      2 ≤ target.cluster ∧ target.cluster < v.clusterCount + 2 ∧ v.used target.cluster = false ∧
      ∀ other, other.map lowerCase = name.map lowerCase →
        exfatResolveEntry other v'.calm = .ok target v'.calm) ∧
    ∀ other, other.map lowerCase ≠ name.map lowerCase →
      returned (exfatResolveEntry other v'.calm) = returned (exfatResolveEntry other v.calm) := by
  have hcount : v.clusterCount ≤ 32768 := hapart.atMost
  obtain ⟨hname, haccepts, k, first, bytes, outcomes, hslot, hlow, hhigh, hunused, rfl, hwindow⟩ :=
    exfatCreateNode_directory hapart h
  have hfirst : first < 2 ^ 32 := by omega
  obtain ⟨-, hfits, hfree⟩ := freeSlot_bounds hname hslot
  have hdir : (v.put bytes outcomes).directory = withSet v.directory name isDir first k := by
    rw [← hwindow, directory, v.put_bytes]
    rfl
  have hok' : DirOk (v.put bytes outcomes).directory := by
    rw [hdir]
    exact hok.place hname hfirst hfits hfree
  have hresolve := resolve_calm hok' fun s hs => (v.put_accepts _ _ _).mpr (haccepts s hs)
  rw [hdir] at hresolve
  have hnone : findSlot v.directory name = none := by
    by_contra hsome
    obtain ⟨j, hfind⟩ := Option.ne_none_iff_exists'.mp hsome
    obtain ⟨hlive, hequal⟩ := findSlot_some hfind
    rw [hnew j hlive] at hequal
    cases hequal
  obtain ⟨-, hkind, hcluster, hsize⟩ := withSet_fields hname hfirst v.directory isDir k
  refine ⟨⟨k, targetAt (exfatClusterLba v v.currentCluster) (withSet v.directory name isDir first k) (32 * k),
    hslot, rfl, rfl, hsize, hkind, ?_, ?_, ?_, fun other hother => ?_⟩, fun other hother => ?_⟩
  · exact hlow.trans_eq hcluster.symm
  · exact hcluster.trans_lt hhigh
  · exact (congrArg v.used hcluster).trans hunused
  · rw [hresolve, findSlot_withSet_self hok hname hlength hclean hslot hfirst hnone hother]
    rfl
  · rw [hresolve, findSlot_withSet_other hok hname hlength hclean hslot hfirst hother, resolve_calm hok haccepts]
    cases hfind : findSlot v.directory other with
    | none => rfl
    | some j =>
      have hlive := (findSlot_some hfind).1
      have hsame : SameSet v.directory (withSet v.directory name isDir first k) j := withSet_other hok hfree hlive
      have hcount := (hok.setAt hlive).count
      exact congrArg some (hsame.targetAt (by omega)).symm

/-- The current directory of a sound volume lies apart from the bitmap and the unused clusters. -/
theorem Volume.Sound.directoryApart (hv : v.Sound) : v.DirectoryApart := by
  have hbounds := hv.reach_bounds hv.current
  have hcount := hv.count_le
  refine ⟨hv.atMost, fun s hs t ht => ?_, fun c hlow hhigh hunused s hs t ht heq => ?_⟩
  · rw [hv.clusterLba hv.current, hv.toFormatted.bitmapLba]
    omega
  · rw [hv.clusterLba hv.current, hv.toFormatted.clusterLba hlow (by omega)] at heq
    obtain rfl : c = v.currentCluster := by omega
    have hused := (hv.separated.reach_used hv.current).2.2
    rw [hunused] at hused
    cases hused

/-- A file `f` of the blank volume is found as `F`. -/
theorem create_resolves_blank : ∃ v' target, exfatCreateNode [102] false blank = .ok () v' ∧
    target.size = 0 ∧ exfatResolveEntry [70] v'.calm = .ok target v'.calm := by
  obtain ⟨_, hrun⟩ := ok_of_stopReason (exfatCreateNode [102] false blank) (by decide +kernel)
  have hdir : DirOk blank.directory := by
    rw [blank_sound.directory]
    exact blank_sound.cwdOk
  have hnone : ∀ k ≤ 125, blank.directory (32 * k) ≠ typeFile := by decide +kernel
  have hnew (k : ℕ) (hlive : Live blank.directory k) :
      exfatNameEqual (entryName blank.directory (32 * k)) [102] = false :=
    absurd hlive.2 (hnone k hlive.1)
  obtain ⟨⟨k, target, -, -, -, hsize, -, -, -, -, hfound⟩, -⟩ := create_resolves
    blank_sound.directoryApart hdir (by decide) (by simp) hnew hrun
  exact ⟨_, target, hrun, hsize, hfound [70] rfl⟩

end Create

/-!
## Reading back what was appended

After `exfat_append_file` the file reads back as the old contents followed by the data, also if it
had to move to a larger run, and no other file has changed. The number of clusters is computed
in 32 bits, so this needs an append of fewer than 2 ^ 43 bytes: one of 2 ^ 44 bytes counts as
needing no cluster at all and runs over the clusters behind the file.
-/

open Forest

variable {data : List UInt8} {bytes : Bytes} {outcomes : List SectorOutcome} {cluster : Option ℕ}
  {first j k p size : ℕ}

theorem resolved_present {target : Target} (h : exfatResolveEntry name v = .ok target v') :
    (v.drives v.ataDrive).present = true := by
  rw [exfatResolveEntry, get_bind] at h
  obtain ⟨buffer, w, hread, -⟩ := bind_eq_ok h
  exact (readSectors_accepts hread 0 (by decide)).2

theorem appended_present (h : exfatAppendFile name data v = .ok () v') :
    (v'.drives v'.ataDrive).present = true := by
  obtain ⟨bytes, outcomes, rfl, -⟩ := (steady.respects_exfatAppendFile name data).ok h
  obtain ⟨target, w, hresolve, -⟩ := bind_eq_ok h
  simpa [put] using resolved_present hresolve

theorem map_getD_range (data : List UInt8) : (List.range data.length).map (data.getD · 0) = data := by
  apply ext_getElem
  · simp
  · intro i hi hi'
    simp [hi']

theorem fileBytes_eq {d n first : ℕ} (hlength : dataLength (clusterAt v.bytes d) (32 * k) = n)
    (hfirst : firstCluster (clusterAt v.bytes d) (32 * k) = first) :
    v.fileBytes d k = (List.range n).map fun i => v.bytes (clusterBase first + i) := by
  rw [fileBytes, hlength, hfirst]

/-- A changed file leaves the contents of every other file. -/
theorem FileChange.fileBytes_other (hv : v.Sound) (hk : Live v.cwd k)
    (hfile : isDirectory v.cwd (32 * k) = false) (h : FileChange v k cluster first size bytes outcomes)
    (hp : v.Reach p) (hj : Live (clusterAt v.bytes p) j)
    (hother : isDirectory (clusterAt v.bytes p) (32 * j) = false) (hne : (p, j) ≠ (v.currentCluster, k)) :
    (v.put bytes outcomes).fileBytes p j = v.fileBytes p j := by
  have hfields : dataLength (clusterAt bytes p) (32 * j) = dataLength (clusterAt v.bytes p) (32 * j) ∧
      firstCluster (clusterAt bytes p) (32 * j) = firstCluster (clusterAt v.bytes p) (32 * j) := by
    by_cases hpd : p = v.currentCluster
    · have hjk : j ≠ k := fun heq => hne (Prod.ext hpd heq)
      rw [hpd, h.dir]
      exact ⟨field_update_of_ne hjk (by decide), field_update_of_ne hjk (by decide)⟩
    rw [h.keeps.clusterAt]
    · exact ⟨rfl, rfl⟩
    rintro ((htwo | heq) | hmem)
    · exact hv.reach_ne_two hp htwo
    · exact hpd heq
    · exact hv.reach_not_mem_newRun hk hfile hp h.run hmem
  obtain ⟨hlow, -⟩ := hv.run_bounds hp hj
  have hheld := le_clustersFor (hv.sizeOk p j hp hj).1
  unfold fileBytes
  rw [v.put_bytes, hfields.1, hfields.2]
  refine map_congr_left fun i hi => h.keeps _ fun c hc heq => ?_
  rw [mem_range] at hi
  rw [clusterBase] at heq
  have hmem : c ∈ (nodeAt (clusterAt v.bytes p) j).run := ⟨by omega, by omega⟩
  have howns := hj.owns hp hmem
  -- the cluster belongs to the other file, so it is neither the directory's nor in the new run
  rcases hc with (htwo | hcurrent) | hrun
  · have heq := htwo
    omega
  · obtain rfl : c = v.currentCluster := hcurrent
    rw [(hv.reach_mem_run hp hj hv.current hmem).1] at hother
    cases hother
  · refine Set.disjoint_left.mp (Volume.Sound.newRun_disjoint h.run) hrun
      ⟨hv.separated.owned_used howns, fun hown => ?_⟩
    exact hne (hv.separated.owner_unique howns (hk.owns hv.current hown))

/-- After an append the file holds its old contents followed by the data, reads back so, and no other
file has changed. -/
theorem append_reads_back (hv : v.Sound) (hdata : data.length < 2 ^ 43) (hfind : findSlot v.cwd name = some k)
    (hfile : isDirectory v.cwd (32 * k) = false) (h : exfatAppendFile name data v = .ok () v') :
    (∀ offset count, exfatReadFileAt name offset count v'.calm =
      .ok (((v.fileBytes v.currentCluster k ++ data).drop offset).take count) v'.calm) ∧
    ∀ p j, v.Reach p → Live (clusterAt v.bytes p) j → isDirectory (clusterAt v.bytes p) (32 * j) = false →
      (p, j) ≠ (v.currentCluster, k) → v'.fileBytes p j = v.fileBytes p j := by
  have hsound : v'.calm.Sound := (hv.append hdata
    (fun i hi => Option.some.inj (hi.symm.trans hfind) ▸ hfile) h).1.with_outcomes
  have hpresent := appended_present h
  have hready : v'.calm.Ready := ⟨rfl, hpresent⟩
  obtain ⟨i, hi, hk, hcases⟩ := hv.append_ok hdata h
  obtain rfl : i = k := Option.some.inj (hi.symm.trans hfind)
  suffices hself : findSlot v'.cwd name = some i ∧
      v'.fileBytes v'.currentCluster i = v.fileBytes v.currentCluster i ++ data ∧ _ from
    ⟨fun offset count => by
      have hread := hsound.readFileAt_quiet hready name offset count
      have hfound : findSlot v'.calm.cwd name = some i := hself.1
      have hbytes : v'.calm.fileBytes v'.calm.currentCluster i = v.fileBytes v.currentCluster i ++ data :=
        hself.2.1
      rw [hfound] at hread
      rw [hread, ← hbytes], hself.2.2⟩
  rcases hcases with ⟨rfl, outcomes, rfl⟩ | ⟨-, first, bytes, outcomes, -, rfl, hchange, hold, hnew⟩
  · exact ⟨hfind, (append_nil _).symm, fun _ _ _ _ _ _ => rfl⟩
  have hsmall := hv.size_le hk
  have hcwd : (v.put bytes outcomes).cwd = _ := (v.cwd_put bytes outcomes).trans hchange.dir
  refine ⟨?_, ?_, fun p j hp hj hother hne => hchange.fileBytes_other hv hk hfile hp hj hother hne⟩
  · rwa [hcwd, findSlot_update hk (hv.cwdOk.setAt hk)]
  · rw [fileBytes_eq ((congrArg (dataLength · _) hcwd).trans (dataLength_update (by omega)))
      ((congrArg (firstCluster · _) (v.cwd_put bytes outcomes)).trans hchange.starts), range_add, map_append, map_map,
      fileBytes, v.put_bytes]
    congr 1
    · exact map_congr_left fun x hx => hold x (mem_range.mp hx)
    · refine Eq.trans (map_congr_left fun x hx => ?_) (map_getD_range data)
      exact (congrArg bytes (add_assoc _ _ _).symm).trans (hnew x (mem_range.mp hx))

/-- Five empty files in the root directory of the blank volume. -/
def fiveFiles : Volume := finalState (runOps ([97, 98, 99, 100, 101].map fun c => .create [c] false) blank)

/-- The entry set of the fifth file continues in another sector behind its stream entry. A byte appended
to it is read back. -/
theorem append_reads_back_fifth : ¬ FitsSector fiveFiles.cwd 14 ∧
    ∃ v', exfatAppendFile [101] [7] fiveFiles = .ok () v' ∧
      exfatReadFileAt [101] 0 9 v'.calm = .ok [7] v'.calm := by
  obtain ⟨_, hcreate⟩ := ok_of_stopReason
    (runOps ([97, 98, 99, 100, 101].map fun c => .create [c] false) blank) (by decide +kernel)
  have hreached : Reached (fun v op => op.OnFiles v) blank fiveFiles :=
    reached_of_run _ .start (by simp [VolumeOp.OnFiles]) hcreate
  obtain ⟨_, hrun⟩ := ok_of_stopReason (exfatAppendFile [101] [7] fiveFiles) (by decide +kernel)
  obtain ⟨hread, -⟩ := append_reads_back (hreached.sound blank_sound blank_ready).1 (by decide)
    (by decide +kernel : findSlot fiveFiles.cwd [101] = some 14) (by decide +kernel) hrun
  have hold : fiveFiles.fileBytes fiveFiles.currentCluster 14 = [] := by decide +kernel
  have hfirst := hread 0 9
  rw [hold] at hfirst
  exact ⟨by decide +kernel, _, hrun, hfirst⟩

/-- Empty files `a` and `b` of the blank volume. -/
def emptyFiles : Volume := finalState ((exfatCreateNode [97] false >>= fun _ => exfatCreateNode [98] false) blank)

/-- The file `b` behind the file `a` has got one byte. -/
def twoFiles : Volume := finalState (exfatWriteFile [98] [1] emptyFiles)

/-- The volume with the two files is sound. -/
theorem twoFiles_sound : twoFiles.Sound ∧ twoFiles.Ready := by
  obtain ⟨_, hcreate⟩ := ok_of_stopReason
    ((exfatCreateNode [97] false >>= fun _ => exfatCreateNode [98] false) blank) (by decide +kernel)
  obtain ⟨_, hwrite⟩ := ok_of_stopReason (exfatWriteFile [98] [1] emptyFiles) (by decide +kernel)
  have hready : emptyFiles.Ready := ((steady.bind (steady.respects_exfatCreateNode _ _)
    fun _ => steady.respects_exfatCreateNode _ _).ok hcreate).ready blank_ready
  obtain ⟨_, w, hfirst, hsecond⟩ := bind_eq_ok hcreate
  have hsound : emptyFiles.Sound := ((blank_sound.create_node hfirst).1.create_node hsecond).1
  have hfile : emptyFiles.NamesFile [98] := namesFile_of_slot (by decide +kernel : _ = some 5) (by decide +kernel)
  exact ⟨(hsound.write (by decide) hfile hwrite).1, ((steady.respects_exfatWriteFile _ _).ok hwrite).ready hready⟩

/-- After a write a file whose entry set lies in one sector holds the data and nothing of what it held
before, reads back so, and no other file has changed. -/
theorem write_reads_back (hv : v.Sound) (hdata : data.length < 2 ^ 43)
    (hslot : findSlot v.cwd name = some k ∧ FitsSector v.cwd k)
    (hfile : isDirectory v.cwd (32 * k) = false) (h : exfatWriteFile name data v = .ok () v') :
    (∀ offset count, exfatReadFileAt name offset count v'.calm =
      .ok ((data.drop offset).take count) v'.calm) ∧
    ∀ p j, v.Reach p → Live (clusterAt v.bytes p) j → isDirectory (clusterAt v.bytes p) (32 * j) = false →
      (p, j) ≠ (v.currentCluster, k) → v'.fileBytes p j = v.fileBytes p j := by
  obtain ⟨hfind, -⟩ := hslot
  have hsound : v'.calm.Sound := (hv.write hdata
    (fun i hi => Option.some.inj (hi.symm.trans hfind) ▸ hfile) h).1.with_outcomes
  obtain ⟨target, w, hresolve, -⟩ := bind_eq_ok h
  obtain ⟨i, first, bytes, outcomes, hi, -, rfl, hchange, hnew⟩ := hv.write_ok hdata h
  obtain rfl : i = k := Option.some.inj (hi.symm.trans hfind)
  have hk := (findSlot_some hfind).1
  have hready : (v.put bytes outcomes).calm.Ready := ⟨rfl, by simpa [put, calm] using resolved_present hresolve⟩
  have hcwd : (v.put bytes outcomes).calm.cwd = _ := (v.cwd_put bytes outcomes).trans hchange.dir
  refine ⟨fun offset count => ?_, fun p j hp hj hother hne => hchange.fileBytes_other hv hk hfile hp hj hother hne⟩
  have hread := hsound.readFileAt_quiet hready name offset count
  have hbytes : (v.put bytes outcomes).calm.fileBytes v.currentCluster i = data :=
    (fileBytes_eq ((congrArg (dataLength · _) hcwd).trans (dataLength_update (by omega)))
      ((congrArg (firstCluster · _) (v.cwd_put bytes outcomes)).trans hchange.starts)).trans <|
    (map_congr_left fun x hx => (congrFun (v.put_bytes ..) _).trans (hnew x (mem_range.mp hx))).trans
      (map_getD_range data)
  rw [hcwd, findSlot_update hk (hv.cwdOk.setAt hk), hfind] at hread
  rw [hread, ← hbytes]
  rfl

/-- Two bytes written over the one that the file `b` had are what it then holds. -/
theorem write_reads_back_twoFiles : ∃ v', exfatWriteFile [98] [2, 3] twoFiles = .ok () v' ∧
    exfatReadFileAt [98] 0 9 v'.calm = .ok [2, 3] v'.calm := by
  obtain ⟨_, hrun⟩ := ok_of_stopReason (exfatWriteFile [98] [2, 3] twoFiles) (by decide +kernel)
  have hslot : findSlot twoFiles.cwd [98] = some 5 ∧ FitsSector twoFiles.cwd 5 := by decide +kernel
  obtain ⟨hread, -⟩ := write_reads_back twoFiles_sound.1 (by decide) hslot (by decide +kernel) hrun
  exact ⟨_, hrun, hread 0 9⟩

end Windoge.Exfat
