import Windoge.Exfat.Quiet

/-!
# The contents of files

The bytes of a file and what `exfat_read_file_at` returns of them. A change of the drive that
leaves the reachable directories and the bytes of their files alone keeps every file: it still
resolves, with the same contents, and no two entries come to share a cluster.
-/

namespace Windoge.Exfat

open Windoge.Flow Forest List Volume

/-- The bytes of the file in slot `k` of directory `d`. -/
def Volume.fileBytes (v : Volume) (d k : ℕ) : List UInt8 :=
  (List.range (dataLength (clusterAt v.bytes d) (32 * k))).map fun i =>
    v.bytes (clusterBase (firstCluster (clusterAt v.bytes d) (32 * k)) + i)

/-- Every file that a name in a reachable directory resolves to is still found under that name, with
the same contents. -/
def FilesKept (v v' : Volume) : Prop :=
  ∀ d name k, v.Reach d → findSlot (clusterAt v.bytes d) name = some k →
    isDirectory (clusterAt v.bytes d) (32 * k) = false →
      v'.Reach d ∧ ∃ k', findSlot (clusterAt v'.bytes d) name = some k' ∧
        isDirectory (clusterAt v'.bytes d) (32 * k') = false ∧ v'.fileBytes d k' = v.fileBytes d k

/-- No cluster belongs to two live entries. -/
def Volume.Unshared (v : Volume) : Prop :=
  ∀ d k d' k' c, v.HasCluster d k c → v.HasCluster d' k' c → d = d' ∧ k = k'

/-- The bytes of the reachable directories and of their files. -/
def Volume.Vital (v : Volume) (a : ℕ) : Prop :=
  ∃ d, v.Reach d ∧ (a / 4096 = d + 766 ∨
    ∃ k, Live (clusterAt v.bytes d) k ∧ isDirectory (clusterAt v.bytes d) (32 * k) = false ∧
      clusterBase (firstCluster (clusterAt v.bytes d) (32 * k)) ≤ a ∧
      a < clusterBase (firstCluster (clusterAt v.bytes d) (32 * k)) +
        dataLength (clusterAt v.bytes d) (32 * k))

variable {v v' : Volume} {bytes : Bytes} {outcomes : List SectorOutcome} {d k c : ℕ}
  {name : List UInt8}

section Kept

variable (hkeep : ∀ a, v.Vital a → v'.bytes a = v.bytes a)
include hkeep

theorem clusterAt_of_vital (hd : v.Reach d) : clusterAt v'.bytes d = clusterAt v.bytes d := by
  funext x
  unfold clusterAt window clusterBase
  split_ifs
  · exact hkeep _ ⟨d, hd, Or.inl (by omega)⟩
  · rfl

theorem reach_of_vital : v'.Reach d ↔ v.Reach d :=
  reach_congr fun _ hreach => by
    funext k
    rw [view, view, clusterAt_of_vital hkeep hreach]

theorem filesKept_of_vital : FilesKept v v' := by
  intro d name k hd hfind hfile
  have hdir := clusterAt_of_vital hkeep hd
  refine ⟨(reach_of_vital hkeep).mpr hd, k, by rwa [hdir], by rwa [hdir], ?_⟩
  unfold fileBytes
  rw [hdir]
  apply map_congr_left
  intro i hi
  rw [mem_range] at hi
  exact hkeep _ ⟨d, hd, Or.inr ⟨k, (findSlot_some hfind).1, hfile, by omega, by omega⟩⟩

theorem hasCluster_of_vital : v'.HasCluster d k c ↔ v.HasCluster d k c := by
  unfold Volume.HasCluster
  rw [reach_of_vital hkeep]
  constructor
  · rintro ⟨hd, h⟩
    rw [clusterAt_of_vital hkeep hd] at h
    exact ⟨hd, h⟩
  · rintro ⟨hd, h⟩
    rw [clusterAt_of_vital hkeep hd]
    exact ⟨hd, h⟩

theorem unshared_of_vital (hv : v.Sound) : v'.Unshared := by
  intro d k d' k' c h h'
  rw [hasCluster_of_vital hkeep] at h h'
  exact Prod.mk.inj (hv.separated.owner_unique (hv.hasCluster_iff.mp h) (hv.hasCluster_iff.mp h'))

end Kept

section Read

theorem map_range_stretch {α : Type} (f : ℕ → α) (n offset count : ℕ) :
    (((List.range n).map f).drop offset).take count =
      (List.range (min (n - offset) count)).map fun i => f (offset + i) := by
  apply ext_getElem
  · simp only [length_take, length_drop, length_map, length_range]
    omega
  · intro i hi hi'
    simp

/-- Without failures to come the read loop returns the bytes from an offset on. -/
theorem readLoop_quiet (hready : v.Ready) (fuel lba offset left : ℕ) (hfuel : left ≤ fuel)
    (hoffset : offset < 512) (hlba : 512 * lba + offset + left ≤ 512 * lbaLimit) :
    readLoop fuel lba offset left v =
      .ok ((List.range left).map fun i => v.bytes (512 * lba + offset + i)) v := by
  induction fuel generalizing lba offset left with
  | zero =>
    obtain rfl : left = 0 := by omega
    rfl
  | succ fuel ih =>
    by_cases hzero : left = 0
    · rw [hzero]
      rfl
    have hread := exfatSectorRead_quiet hready.quiet (hready.accepts (by omega : lba < lbaLimit))
    have hrest := ih (lba + 1) 0 (left - min (512 - offset) left) (by omega) (by decide) (by omega)
    have hsplit : left = min (512 - offset) left + (left - min (512 - offset) left) := by omega
    rw [readLoop, if_neg hzero, bind_ok hread, bind_ok hrest, pure_run]
    congr 1
    conv_rhs => rw [hsplit, range_add, map_append, map_map]
    congr 1
    · apply map_congr_left
      intro i _
      rw [sectorAt, Nat.add_assoc]
    · apply map_congr_left
      intro i hi
      rw [mem_range] at hi
      change v.bytes (512 * (lba + 1) + 0 + i) = v.bytes (512 * lba + offset + (min (512 - offset) left + i))
      congr 1
      omega

/-- Without failures to come `exfat_read_file_at` returns a stretch of the file. -/
theorem Volume.Sound.readFileAt_quiet (hv : v.Sound) (hready : v.Ready) (name : List UInt8)
    (offset count : ℕ) : exfatReadFileAt name offset count v =
      match findSlot v.cwd name with
      | none => .error (.code (-1)) v
      | some k => .ok (((v.fileBytes v.currentCluster k).drop offset).take count) v := by
  have hresolve := hv.resolve_quiet hready name
  cases hfind : findSlot v.cwd name with
  | none =>
    rw [hfind] at hresolve
    rw [exfatReadFileAt, bind_error hresolve]
  | some k =>
    rw [hfind] at hresolve
    have hk := (findSlot_some hfind).1
    have hlba := hv.targetLba hk
    have hcount := hv.count_le
    have hend := (hv.run_current hk).2
    have hsize := hv.size_le hk
    have hlimit : lbaLimit = 2 ^ 48 := rfl
    dsimp only
    rw [exfatReadFileAt, bind_ok hresolve, fileBytes, map_range_stretch]
    change (if dataLength v.cwd (32 * k) ≤ offset ∨ count = 0 then pure [] else _ :
      Driver (List UInt8)) v = .ok ((range (min (dataLength v.cwd (32 * k) - offset) count)).map
        fun i => v.bytes (clusterBase (firstCluster v.cwd (32 * k)) + (offset + i))) v
    split_ifs
    · have hzero : min (dataLength v.cwd (32 * k) - offset) count = 0 := by omega
      rw [hzero]
      rfl
    rw [get_bind]
    change readLoop (min (dataLength v.cwd (32 * k) - offset) count)
      (exfatClusterLba v (firstCluster v.cwd (32 * k)) + offset / 512) (offset % 512)
      (min (dataLength v.cwd (32 * k) - offset) count) v = _
    rw [readLoop_quiet hready _ _ _ _ le_rfl (Nat.mod_lt _ (by decide)) (by rw [hlba]; omega), hlba]
    congr 1
    apply map_congr_left
    intro i _
    rw [clusterBase]
    congr 1
    omega

end Read

/-!
## Where the driver writes when sectors fail

Which bytes of the drive the loops of the driver can change, wherever a sector operation fails
in them, and which bytes the files of a volume depend on.
-/

open BitArray EStateM.Result

/-- No failed write reaches the disk. -/
def Lost (outcomes : List SectorOutcome) : Prop := ∀ o ∈ outcomes, o ≠ .failed true

/-- The drive differs from a volume's in nothing that its files depend on. -/
def KeepsVital (v v' : Volume) : Prop :=
  ∃ bytes outcomes, v' = v.put bytes outcomes ∧ ∀ a, v.Vital a → bytes a = v.bytes a

/-- The bytes of the sectors that hold the bitmap's bits. -/
def Volume.bitmapBytes (v : Volume) : Set ℕ :=
  { a | ∃ i < v.clusterCount, a / 512 = exfatClusterLba v 2 + i / 4096 }

variable {w : Volume} {name data : List UInt8} {isDir : Bool} {lba c k first count : ℕ} {buffer bytes : Bytes}
  {outcomes : List SectorOutcome} {e : Stop} {writes : List (ℕ × Bytes)}

section Outcomes

theorem Lost.tail (h : Lost outcomes) : Lost outcomes.tail := fun o ho => h o (mem_of_mem_tail ho)

theorem lost_sectorwise : Sectorwise fun v v' => Lost v.outcomes → Lost v'.outcomes where
  refl _ := id
  trans h h' := h' ∘ h
  read := by
    intro lba v h
    unfold exfatSectorRead
    split_ifs
    · cases v.outcomes.headD .done <;> exact h.tail
    · exact h
  write := by
    intro lba buffer v h
    unfold exfatSectorWrite
    split_ifs
    · cases v.outcomes.headD .done <;> exact h.tail
    · exact h

/-- A sector write that fails and is lost leaves the drive as it was. -/
theorem exfatSectorWrite_lost (h : exfatSectorWrite lba buffer v = .error e v')
    (hlost : Lost v.outcomes) : v'.bytes = v.bytes ∧ ∃ outcomes, v' = v.put v.bytes outcomes := by
  unfold exfatSectorWrite at h
  split_ifs at h
  · cases hnext : v.outcomes.headD .done with
    | done =>
      rw [hnext] at h
      cases h
    | failed stored =>
      have hmem : SectorOutcome.failed stored ∈ v.outcomes := by
        cases houtcomes : v.outcomes with
        | nil =>
          rw [houtcomes] at hnext
          cases hnext
        | cons o rest =>
          rw [houtcomes, headD_cons] at hnext
          rw [hnext]
          exact mem_cons_self
      cases stored with
      | true => exact absurd rfl (hlost _ hmem)
      | false =>
        rw [hnext] at h
        cases h
        exact ⟨v.put_bytes _ _, _, rfl⟩
  · cases h
    exact ⟨rfl, v.outcomes, v.put_self.symm⟩

end Outcomes

section Vital

/-- The bytes that files depend on lie in used clusters behind the upcase table. -/
theorem Volume.Sound.vital_used (hv : v.Sound) {a : ℕ} (ha : v.Vital a) :
    ∃ c, a / 4096 = c + 766 ∧ 4 ≤ c ∧ c ∈ v.usedSet := by
  obtain ⟨d, hd, hdir | ⟨k, hk, -, hlow, hhigh⟩⟩ := ha
  · exact ⟨d, hdir, (hv.reach_bounds hd).1, hv.separated.reach_used hd⟩
  · have hsize := hv.sizeOk d k hd hk
    have hheld := le_clustersFor hsize.1
    have hbounds := hv.run_bounds hd hk
    rw [clusterBase] at hlow hhigh
    refine ⟨a / 4096 - 766, by omega, by omega, hv.separated.owned_used (hk.owns hd ?_)⟩
    exact ⟨by omega, by omega⟩

end Vital

section Confined

variable {A B : Set ℕ} {v'' : Volume}

/-- An allocation always returns and changes the bitmap only. -/
theorem alloc_confined (v : Volume) (count : ℕ) :
    ∃ first w, exfatAllocBlocks count v = .ok first w ∧ Confined v.bitmapBytes v w := by
  unfold exfatAllocBlocks
  split_ifs
  · exact ⟨0, v, rfl, Confined.refl v⟩
  refine (tryCatch_pure_final _ 0 v).imp fun first hrun => ⟨_, hrun, ?_⟩
  refine (Runs.bind (P := fun _ _ => True) ⟨respects_scanSectors confined_read _ _ _ _ _ _ v, fun _ _ hscan =>
    (scanSectors_ok _ 0 (Or.inr ClearRun.zero) hscan).2⟩ fun found w _ hfound => ?_).1
  cases found with
  | none => exact .pure trivial
  | some start =>
    have hstore : Respects (Confined v.bitmapBytes) (storeBits (exfatClusterLba v 2) (range' start count)) :=
      confined_storeBits fun i hi a ha =>
        ⟨i, Nat.lt_of_lt_of_le (mem_range'_1.mp hi).2 (hfound start rfl).1, ha⟩
    exact (hstore.bind fun _ => .pure _).runs w

theorem alloc_formatted (hv : v.Formatted) (count : ℕ) :
    ∃ first w, exfatAllocBlocks count v = .ok first w ∧ Confined (clusterBytes {2}) v w := by
  obtain ⟨first, w, halloc, hconfined⟩ := alloc_confined v count
  refine ⟨first, w, halloc, hconfined.mono fun a ⟨i, hi, ha⟩ => ⟨2, rfl, ?_⟩⟩
  have hcount := hv.count_le
  rw [hv.bitmapLba] at ha
  omega

variable {A : Set ℕ} {target : Target}

theorem Confined.keepsVital (h : Confined A v v') (hA : ∀ a ∈ A, ¬ v.Vital a) : KeepsVital v v' := by
  obtain ⟨bytes, outcomes, rfl, hkeep⟩ := h
  exact ⟨bytes, outcomes, rfl, fun a ha => hkeep a fun hin => hA a hin ha⟩

theorem confined_outcomes : Confined A v (v.put v.bytes outcomes) := ⟨v.bytes, outcomes, rfl, fun _ _ => rfl⟩

theorem confined_with : Confined A v { v with outcomes := outcomes } :=
  v.put_bytes_eq outcomes ▸ confined_outcomes

theorem Unchanged.confined (h : Unchanged v v') : Confined A v v' := by
  obtain ⟨outcomes, rfl, -⟩ := h
  exact confined_with

theorem KeepsOutside.confined {S : Set ℕ} (h : KeepsOutside S v.bytes bytes) :
    Confined (clusterBytes S) v (v.put bytes outcomes) :=
  ⟨bytes, outcomes, rfl, fun a ha => h a fun c hc heq => ha ⟨c, hc, heq⟩⟩

/-- The bitmap and unused clusters are nothing that files depend on. -/
theorem Volume.Sound.not_vital (hv : v.Sound) (hfresh : Disjoint (clusterRun first count) v.usedSet)
    (a : ℕ) (ha : a ∈ clusterBytes ({2} ∪ clusterRun first count)) : ¬ v.Vital a := by
  intro hvital
  obtain ⟨c, hc, heq⟩ := ha
  obtain ⟨c', hc', hlow, hused⟩ := hv.vital_used hvital
  obtain rfl : c' = c := by omega
  rcases hc with htwo | hrun
  · have heq2 : c' = 2 := htwo
    omega
  · exact Set.disjoint_left.mp hfresh hrun hused

theorem Volume.Sound.bitmap_not_vital (hv : v.Sound) (a : ℕ) (ha : a ∈ clusterBytes {2}) : ¬ v.Vital a := by
  have hnone : Disjoint (clusterRun 0 0) v.usedSet := Set.disjoint_left.mpr fun c hc => by
    have hlt := hc.2
    omega
  obtain ⟨c, hc, heq⟩ := ha
  exact hv.not_vital hnone a ⟨c, Or.inl hc, heq⟩

theorem clusterBytes_mono {S T : Set ℕ} (h : S ⊆ T) : clusterBytes S ⊆ clusterBytes T :=
  fun _ ⟨c, hc, heq⟩ => ⟨c, h hc, heq⟩

theorem confined_zeroDirectory (isDir : Bool) (h : ∀ s < 8, ∀ a, a / 512 = lba + s → a ∈ A) :
    Respects (Confined A) (zeroDirectory lba isDir) := by
  cases isDir with
  | false => exact .pure _
  | true => exact confined_bufferSectors _ fun s hs => h s (by omega)

/-- Rewriting a sector that fails and is lost leaves the drive as it was. -/
theorem rewrite_lost {skips : Bytes → Prop} [DecidablePred skips] {change : Bytes → Bytes}
    (h : (exfatSectorRead lba >>= fun sector => if skips sector then throw .undefined
      else exfatSectorWrite lba (change sector)) v = .error e v') (hlost : Lost v.outcomes) :
    Confined A v v' := by
  rcases bind_eq_error h with hread | ⟨sector, w, hread, h⟩
  · exact confined_read.error hread
  obtain ⟨rfl, rfl⟩ := exfatSectorRead_ok hread
  split_ifs at h
  · cases h
    exact confined_outcomes
  · obtain ⟨-, outcomes, rfl⟩ := exfatSectorWrite_lost h hlost.tail
    rw [v.put_put, v.put_bytes]
    exact confined_outcomes

end Confined

/-!
## Operations that fail on a sector

What `exfat_create_node`, `exfat_write_file`, `exfat_append_file`, `exfat_truncate_last_line` and
`exfat_delete_node` leave behind when they return an error code because sector operations
failed. Each prepares the bitmap and unused clusters first and rewrites the directory last, so a
failed write that did not reach the disk leaves every file as it was. Two cases differ:
`exfat_write_file` overwrites a file in place if it keeps its number of clusters, and
`exfat_create_node` writes a set that crosses a sector border in two steps.
-/

open EStateM.Result Confined Set

section Operations

/-- Moving a file that is rewritten fails with at most the bitmap changed. -/
theorem writeClusters_fails (hv : v.Formatted) {target : Target}
    (h : writeClusters target count v = .error e v') : Confined (clusterBytes {2}) v v' := by
  unfold writeClusters at h
  split_ifs at h
  · obtain ⟨first, w, halloc, hconfined⟩ := alloc_formatted hv count
    rw [bind_ok halloc] at h
    split_ifs at h
    · cases h
      exact hconfined
    obtain ⟨freed, outcomes, -, hfree⟩ := exfatFreeBlocks_ok target.cluster (clustersFor target.size) w
    rw [bind_ok hfree] at h
    cases h
  · cases h

/-- Moving a file that grows fails with at most the bitmap and an unused run changed. -/
theorem appendClusters_fails (hv : v.Formatted) {target : Target}
    (hsectors : ∀ s ∈ List.range (sectorsFor target.size), s < 8 * count)
    (h : appendClusters target count v = .error e v') : ∃ first, Disjoint (clusterRun first count) v.usedSet ∧
        Confined (clusterBytes ({2} ∪ clusterRun first count)) v v' := by
  unfold appendClusters at h
  split_ifs at h
  · obtain ⟨first, w, halloc, hconfined⟩ := alloc_formatted hv count
    have hbitmap : Confined (clusterBytes ({2} ∪ clusterRun first count)) v w :=
      hconfined.mono (clusterBytes_mono subset_union_left)
    rw [bind_ok halloc] at h
    split_ifs at h with hzero
    · cases h
      refine ⟨v.clusterCount + 2, disjoint_left.mpr ?_, hconfined.mono (clusterBytes_mono subset_union_left)⟩
      rintro c ⟨hlow, -⟩ ⟨-, hhigh, -⟩
      omega
    · obtain ⟨hlow, hend, hfresh, bytes, outcomes, rfl, -⟩ := alloc_ok hv halloc hzero
      rw [get_bind] at h
      have hlba : exfatClusterLba (v.put bytes outcomes) first = 8 * (first + 766) := hv.runLba hlow hend
      rw [hlba] at h
      rcases bind_eq_error h with hcopy | ⟨_, w, -, h⟩
      · exact ⟨first, hfresh, hbitmap.trans (((confined_copySectors _ fun s hs _ =>
          mem_clusterBytes (hsectors s hs)).error hcopy).mono (clusterBytes_mono subset_union_right))⟩
      obtain ⟨freed, outcomes, -, hfree⟩ := exfatFreeBlocks_ok target.cluster (clustersFor target.size) w
      rw [bind_ok hfree] at h
      cases h
  · cases h

variable (hv : v.Sound) (hlost : Lost v.outcomes)
include hv

namespace Volume.Sound

/-- The bytes behind the end of a file are nothing that files depend on. -/
theorem tail_not_vital (hk : Live v.cwd k) (hfile : isDirectory v.cwd (32 * k) = false)
    (a : ℕ) (hlow : clusterBase (firstCluster v.cwd (32 * k)) + dataLength v.cwd (32 * k) ≤ a)
    (hhigh : a < clusterBase (firstCluster v.cwd (32 * k)) +
      4096 * clustersFor (dataLength v.cwd (32 * k))) : ¬ v.Vital a := by
  rw [clusterBase] at hlow hhigh
  have hrun : a / 4096 - 766 ∈ (nodeAt v.cwd k).run := by
    change firstCluster v.cwd (32 * k) ≤ _ ∧
      _ < firstCluster v.cwd (32 * k) + clustersFor (dataLength v.cwd (32 * k))
    omega
  rintro ⟨d, hd, hdir | ⟨j, hj, -, hfrom, hto⟩⟩
  · rw [Nat.sub_eq_of_eq_add hdir] at hrun
    have hkind : isDirectory v.cwd (32 * k) = true := (hv.reach_mem_run hv.current hk hd hrun).1
    rw [hfile] at hkind
    cases hkind
  · have hsize := hv.sizeOk d j hd hj
    have hheld := le_clustersFor hsize.1
    rw [clusterBase] at hfrom hto
    have hother : a / 4096 - 766 ∈ (nodeAt (clusterAt v.bytes d) j).run := by
      change firstCluster (clusterAt v.bytes d) (32 * j) ≤ _ ∧
        _ < firstCluster (clusterAt v.bytes d) (32 * j) + clustersFor (dataLength (clusterAt v.bytes d) (32 * j))
      omega
    obtain ⟨rfl, rfl⟩ := Prod.mk.inj (hv.separated.owner_unique (hj.owns hd hother) (hk.owns hv.current hrun))
    change _ < 4096 * (firstCluster v.cwd (32 * j) + 766) + dataLength v.cwd (32 * j) at hto
    omega

include hlost

/-- A function that looks a name up keeps every file when it fails, if what it does with a live
entry does. -/
theorem resolve_fails {f : Target → Driver Unit} (h : (exfatResolveEntry name >>= f) v = .error e v')
    (hrest : ∀ k outcomes, findSlot v.cwd name = some k → Live v.cwd k → Lost outcomes →
      f (v.target k) { v with outcomes := outcomes } = .error e v' → KeepsVital v v') :
    KeepsVital v v' := by
  rcases bind_eq_error h with hresolve | ⟨target, v₁, hresolve, h⟩
  · exact ((respects_exfatResolveEntry unchanged_exfatSectorRead name).error
      hresolve).confined.keepsVital hv.bitmap_not_vital
  have hlost₁ := (lost_sectorwise.respects_exfatResolveEntry name).ok hresolve hlost
  obtain ⟨k, outcomes, hfind, hk, rfl, rfl, -⟩ := hv.resolve_slot hresolve
  exact hrest k outcomes hfind hk hlost₁ h

/-- A create that fails keeps every file if its set would have been written in one step. -/
theorem create_fails (hone : ∀ k, freeSlot v.cwd (totalEntries name) = some k →
      32 * k % 512 + 32 * totalEntries name ≤ 512)
    (h : exfatCreateNode name isDir v = .error e v') : KeepsVital v v' := by
  have hsame (h : Confined ∅ v v') : KeepsVital v v' := h.keepsVital fun a ha => absurd ha (by simp)
  unfold exfatCreateNode at h
  split_ifs at h with hname
  · cases h
    exact hsame (Confined.refl v)
  have htotal := totalEntries_bounds hname
  rw [get_bind] at h
  rcases bind_eq_error h with hread | ⟨buffer, v₁, hread, h⟩
  · exact hsame ((respects_readSectors unchanged_exfatSectorRead 8).error hread).confined
  obtain ⟨hbuffer, outcomes₁, rfl⟩ := readSectors_ok hread
  obtain rfl : buffer = v.cwd := hbuffer.trans hv.directory
  have hlost₁ := (lost_sectorwise.respects_readSectors 8).ok hread hlost
  cases hslot : freeSlot v.cwd (totalEntries name) with
  | none =>
    rw [hslot] at h
    cases h
    exact hsame confined_outcomes
  | some k =>
    rw [hslot] at h
    obtain ⟨first, w, halloc, hconfined⟩ :=
      alloc_formatted (hv.toFormatted.put : (v.put v.bytes outcomes₁).Formatted) 1
    have hlost₂ := (lost_sectorwise.respects_exfatAllocBlocks 1).ok halloc hlost₁
    have halloc' : exfatAllocBlock (v.put v.bytes outcomes₁) = .ok first w := halloc
    dsimp only at h
    rw [bind_ok halloc'] at h
    have hbitmap : Confined (clusterBytes ({2} ∪ clusterRun first 1)) v w :=
      confined_outcomes.trans (hconfined.mono (clusterBytes_mono subset_union_left))
    split_ifs at h with hzero
    · cases h
      exact (confined_outcomes.trans hconfined).keepsVital hv.bitmap_not_vital
    obtain ⟨hlow, hend, hfresh, -⟩ :=
      alloc_ok (hv.toFormatted.put : (v.put v.bytes outcomes₁).Formatted) halloc hzero
    have hfresh : Disjoint (clusterRun first 1) v.usedSet := by rwa [v.put_bytes_eq] at hfresh
    have hlba := hv.runLba hlow hend
    refine keepsVital ?_ (hv.not_vital hfresh)
    have hunion : clusterBytes (clusterRun first 1) ⊆ clusterBytes ({2} ∪ clusterRun first 1) :=
      clusterBytes_mono subset_union_right
    have hzeros : Respects (Confined (clusterBytes (clusterRun first 1)))
        (zeroDirectory (exfatClusterLba v first) isDir) :=
      confined_zeroDirectory isDir fun s hs _ ha => mem_clusterBytes hs (hlba ▸ ha)
    rcases bind_eq_error h with hdirectory | ⟨_, w₂, hdirectory, hset⟩
    · exact hbitmap.trans ((hzeros.error hdirectory).mono hunion)
    have hzeroed := (hzeros.ok hdirectory).mono hunion
    have hlost₃ := (lost_sectorwise.respects_zeroDirectory isDir).ok hdirectory hlost₂
    have hfits := hone k hslot
    have hsectors : (32 * k + 32 * totalEntries name - 1) / 512 + 1 - 32 * k / 512 = 1 := by omega
    rw [writeSet, hsectors] at hset
    rcases bind_eq_error hset with hwrite | ⟨_, w₃, -, hrest⟩
    · obtain ⟨-, outcomes, rfl⟩ := exfatSectorWrite_lost hwrite hlost₃
      exact (hbitmap.trans hzeroed).trans confined_outcomes
    · cases hrest

/-- A write that fails keeps every file if the file would have moved. -/
theorem write_fails (hdata : data.length < 2 ^ 43) (hmoved : ∀ k, findSlot v.cwd name = some k →
      clustersFor data.length ≠ clustersFor (dataLength v.cwd (32 * k)))
    (h : exfatWriteFile name data v = .error e v') : KeepsVital v v' := by
  refine hv.resolve_fails hlost h fun k outcomes₁ hfind hk hlost₁ h => ?_
  rcases bind_eq_error h with hclusters | ⟨first, w, hclusters, h⟩
  · have hfails := writeClusters_fails (@with_outcomes v outcomes₁ hv).toFormatted hclusters
    exact (confined_with.trans hfails).keepsVital hv.bitmap_not_vital
  have hlost₂ := (lost_sectorwise.respects_writeClusters _ _).ok hclusters hlost₁
  obtain ⟨hrun, bytes, outcomes₂, rfl, hkeep, -⟩ :=
    writeClusters_ok (v := { v with outcomes := outcomes₁ }) (k := k) hv.with_outcomes hk hclusters
  obtain ⟨hlow, hend, hfresh⟩ : UnusedRun v first (clustersFor data.length) := by
    have hrun : NewRun v k first (clustersFor data.length) := hrun
    unfold NewRun at hrun
    rwa [if_neg (hmoved k hfind)] at hrun
  have hlba := hv.runLba hlow hend
  have hsectors := sectorsFor_le (by omega : data.length + 4095 < 2 ^ 44)
  have hbitmap : Confined (clusterBytes ({2} ∪ clusterRun first (clustersFor data.length))) v
      (v.put bytes outcomes₂) :=
    hkeep.confined.mono (clusterBytes_mono subset_union_left)
  have hunion := clusterBytes_mono (subset_union_right : clusterRun first (clustersFor data.length) ⊆ {2} ∪ _)
  have hwrites : Respects (Confined (clusterBytes (clusterRun first (clustersFor data.length))))
      (writeAll (bufferSectors (exfatClusterLba v first) (dataBuffer data) 0 (sectorsFor data.length))) := by
    exact confined_bufferSectors _ fun s hs _ ha => mem_clusterBytes (by omega) (hlba ▸ ha)
  refine keepsVital ?_ (hv.not_vital hfresh)
  rw [get_bind] at h
  rcases bind_eq_error h with hdataWrite | ⟨_, w, hdataWrite, hupdate⟩
  · exact hbitmap.trans ((hwrites.error hdataWrite).mono hunion)
  · have hlost₃ := (lost_sectorwise.respects_writeAll _).ok hdataWrite hlost₂
    exact (hbitmap.trans ((hwrites.ok hdataWrite).mono hunion)).trans (rewrite_lost hupdate hlost₃)

/-- An append that fails keeps every file. -/
theorem append_fails (hdata : data.length < 2 ^ 43)
    (hfile : ∀ k, findSlot v.cwd name = some k → isDirectory v.cwd (32 * k) = false)
    (h : exfatAppendFile name data v = .error e v') : KeepsVital v v' := by
  refine hv.resolve_fails hlost h fun k outcomes₁ hfind hk hlost₁ h => ?_
  split_ifs at h with hempty
  · cases h
  obtain ⟨htotal, hexpr, hnew, hgrow⟩ := hv.append_size hk hdata hempty
  rw [htotal] at h
  dsimp only at h
  rw [hexpr] at h
  rcases bind_eq_error h with hclusters | ⟨first, w, hclusters, h⟩
  · obtain ⟨first, hfresh, hfails⟩ :=
      appendClusters_fails (@with_outcomes v outcomes₁ hv).toFormatted (hv.sectors_fit hk hgrow) hclusters
    exact (confined_with.trans hfails).keepsVital (hv.not_vital hfresh)
  have hlost₂ := (lost_sectorwise.respects_appendClusters _ _).ok hclusters hlost₁
  -- what the loop may touch: an unused run, or the rest of the clusters the file has
  have hloop : ∃ A : Set ℕ, (∀ a ∈ A, ¬ v.Vital a) ∧ Confined A v w ∧
      { a | 512 * exfatClusterLba w first + dataLength v.cwd (32 * k) ≤ a ∧ a < 512 * exfatClusterLba w first +
          4096 * clustersFor (dataLength v.cwd (32 * k) + data.length) } ⊆ A := by
    by_cases hmoved : clustersFor (dataLength v.cwd (32 * k)) <
        clustersFor (dataLength v.cwd (32 * k) + data.length)
    · obtain ⟨hrun, bytes, outcomes₂, rfl, hkeep, -⟩ :=
        appendClusters_ok (v := { v with outcomes := outcomes₁ }) (k := k) hv.with_outcomes hk hgrow hclusters
      have hrun : NewRun v k first (clustersFor (dataLength v.cwd (32 * k) + data.length)) := hrun
      unfold NewRun at hrun
      rw [if_neg hmoved.ne'] at hrun
      obtain ⟨hlow, hend, hfresh⟩ := hrun
      have hlba := hv.runLba hlow hend
      refine ⟨_, hv.not_vital hfresh, KeepsOutside.confined hkeep, ?_⟩
      rintro a ⟨hfrom, hto⟩
      change 512 * exfatClusterLba v first + _ ≤ a at hfrom
      change a < 512 * exfatClusterLba v first + _ at hto
      exact ⟨a / 4096 - 766, Or.inr ⟨by omega, by omega⟩, by omega⟩
    · have hstay : appendClusters (v.target k) (clustersFor (dataLength v.cwd (32 * k) + data.length)) =
          pure (v.target k).cluster := if_neg hmoved
      rw [hstay] at hclusters
      cases hclusters
      have hsame : clustersFor (dataLength v.cwd (32 * k) + data.length) =
          clustersFor (dataLength v.cwd (32 * k)) := by omega
      have hlba := hv.targetLba hk
      refine ⟨{ a | clusterBase (firstCluster v.cwd (32 * k)) + dataLength v.cwd (32 * k) ≤ a ∧
        a < clusterBase (firstCluster v.cwd (32 * k)) + 4096 * clustersFor (dataLength v.cwd (32 * k)) },
        fun a ha => hv.tail_not_vital hk (hfile k hfind) a ha.1 ha.2, confined_with, ?_⟩
      rintro a ⟨hfrom, hto⟩
      change 512 * exfatClusterLba v (firstCluster v.cwd (32 * k)) + _ ≤ a at hfrom
      change a < 512 * exfatClusterLba v (firstCluster v.cwd (32 * k)) + _ at hto
      rw [mem_ofPred_eq, clusterBase]
      omega
  obtain ⟨A, hA, hbefore, hsub⟩ := hloop
  refine keepsVital ?_ hA
  rw [get_bind] at h
  have hrest := confined_appendLoop (exfatClusterLba w first) data.length
    (dataLength v.cwd (32 * k)) data (le_clustersFor hnew) w
  rcases bind_eq_error h with happend | ⟨_, w₂, happend, hupdate⟩
  · change appendLoop _ _ (dataLength v.cwd (32 * k)) _ w = _ at happend
    rw [happend] at hrest
    exact hbefore.trans (hrest.mono hsub)
  · change appendLoop _ _ (dataLength v.cwd (32 * k)) _ w = _ at happend
    have hlost₃ := (lost_sectorwise.respects_appendLoop _ _ _).ok happend hlost₂
    rw [happend] at hrest
    exact (hbefore.trans (hrest.mono hsub)).trans (rewrite_lost hupdate hlost₃)

/-- A delete that fails keeps every file. -/
theorem delete_fails (h : exfatDeleteNode name v = .error e v') : KeepsVital v v' := by
  refine hv.resolve_fails hlost h fun k outcomes₁ hfind hk hlost₁ h => keepsVital ?_ hv.bitmap_not_vital
  obtain ⟨bytes, outcomes₂, hfree, hkeep, -⟩ := free_old hv hk v.bytes outcomes₁
  rw [v.put_bytes_eq] at hfree
  have hlost₂ := (lost_sectorwise.respects_exfatFreeBlocks _ _).ok hfree hlost₁
  rw [bind_ok hfree] at h
  exact hkeep.confined.trans (rewrite_lost h hlost₂)

/-- A truncation that fails keeps every file. -/
theorem truncate_fails (h : exfatTruncateLastLine name v = .error e v') : KeepsVital v v' := by
  refine hv.resolve_fails hlost h fun k outcomes₁ hfind hk hlost₁ h => keepsVital ?_ hv.bitmap_not_vital
  split_ifs at h
  · cases h
    exact confined_with
  rw [get_bind] at h
  rcases bind_eq_error h with hread | ⟨sector, w, hread, h⟩
  · exact confined_with.trans (confined_read.error hread)
  · have hlost₂ := lost_sectorwise.read.ok hread hlost₁
    exact (confined_with.trans (confined_read.ok hread)).trans (rewrite_lost h hlost₂)

end Volume.Sound

end Operations

/-- The operation changes the directory in one step and nothing of a file before that. -/
def VolumeOp.Recoverable (v : Volume) : VolumeOp → Prop
  | .create name _ => ∀ k, freeSlot v.cwd (totalEntries name) = some k →
      32 * k % 512 + 32 * totalEntries name ≤ 512
  | .write name data => data.length < 2 ^ 43 ∧ v.NamesFile name ∧
      ∀ k, findSlot v.cwd name = some k →
        clustersFor data.length ≠ clustersFor (dataLength v.cwd (32 * k))
  | .append name data => data.length < 2 ^ 43 ∧ v.NamesFile name
  | .truncate _ | .delete _ | .changeDirectory _ => True

/-- A recoverable operation that fails with failed writes lost keeps every file. -/
theorem Volume.Sound.keepsVital_of_fails {op : VolumeOp} (hv : v.Sound) (hlost : Lost v.outcomes)
    (hop : op.Recoverable v) (h : op.run v = .error e v') : KeepsVital v v' := by
  cases op with
  | create name isDir => exact hv.create_fails hlost hop h
  | write name data => exact hv.write_fails hlost hop.1 hop.2.2 h
  | append name data => exact hv.append_fails hlost hop.1 hop.2 h
  | truncate name => exact hv.truncate_fails hlost h
  | delete name => exact hv.delete_fails hlost h
  | changeDirectory path => exact (cd_error h).confined.keepsVital hv.bitmap_not_vital

/-- On every volume that operations on files within the driver's buffers reach from a freshly
formatted one, a recoverable operation that returns an error because sectors fail keeps every file
and shares no cluster, if the writes that failed did not reach the disk. On this volume every
operation within the buffers returns as long as no sector fails. -/
theorem files_kept_of_recoverable (start v v' : Volume) (before : Bytes) (totalSectors : ℕ)
    (outcomes : List SectorOutcome) (op : VolumeOp) (rc : ℤ)
    (hfresh : start.Fresh before totalSectors) (hroot : RootZeroed before) (hready : start.Ready)
    (hv : Reached (fun v op => op.OnFiles v ∧ op.InBounds v) start v)
    (hop : op.Recoverable v ∧ op.InBounds v) (hlost : Lost outcomes)
    (h : op.run { v with outcomes := outcomes } = .error (.code rc) v') :
    (FilesKept v v' ∧ v'.Unshared) ∧
      ∀ op : VolumeOp, op.OnFiles v → op.InBounds v → ∃ w, op.Returns v w := by
  obtain ⟨hsound, hnow⟩ := (hv.mono fun _ _ h => h.1).sound (hfresh.sound hroot) hready
  have hsound' : Volume.Sound { v with outcomes := outcomes } := hsound.with_outcomes
  obtain ⟨bytes, outcomes', rfl, hkeep⟩ := hsound'.keepsVital_of_fails hlost hop.1 h
  have hkeep' (a : ℕ) (ha : v.Vital a) :
      (put { v with outcomes := outcomes } bytes outcomes').bytes a = v.bytes a := by
    rw [put_bytes]
    exact hkeep a ha
  exact ⟨⟨filesKept_of_vital hkeep', unshared_of_vital hkeep' hsound⟩,
    fun op hfiles hbounds => hsound.returns hnow hfiles hbounds⟩

section Examples

/-- The volume whose file `a` holds 1024 bytes `x`. -/
def filledVolume : Volume :=
  finalState (exfatWriteFile [97] (List.replicate 1024 120) emptyFileVolume)

/-- The filled volume is reached by operations on files within the driver's buffers. -/
theorem filledVolume_reached :
    Reached (fun v op => op.OnFiles v ∧ op.InBounds v) blank filledVolume := by
  obtain ⟨_, hwrite⟩ := ok_of_stopReason
    (exfatWriteFile [97] (replicate 1024 120) emptyFileVolume) (by decide +kernel)
  have hlength : (replicate 1024 (120 : UInt8)).length < 2 ^ 43 := by
    rw [length_replicate]
    decide
  exact .step (.write [97] (replicate 1024 120)) (emptyFileVolume_reached ⟨trivial, trivial⟩)
    ⟨⟨hlength, emptyFileVolume_namesFile⟩, emptyFileVolume_fitsName⟩ (Or.inl hwrite)

/-- Nine sector operations succeed and the next one fails without effect. -/
def tenthFails : List SectorOutcome := List.replicate 9 .done ++ [.failed false]

/-- The volume after a failed attempt to overwrite the file with 1024 bytes `y`. -/
def halfWrittenVolume : Volume := finalState (exfatWriteFile [97] (List.replicate 1024 121)
  { filledVolume with outcomes := tenthFails })

/-- Overwriting the file fails at its second sector, when the first one has been replaced. -/
theorem failed_write_changes_file : ∃ start v v' totalSectors,
    start.Fresh (fun _ => 0) totalSectors ∧ RootZeroed (fun _ => 0) ∧ start.Ready ∧
      Reached (fun v op => op.OnFiles v ∧ op.InBounds v) start v ∧
      exfatWriteFile [97] (List.replicate 1024 121) { v with outcomes := tenthFails } =
        .error (.code (-1)) v' ∧ ¬ FilesKept v v' := by
  obtain ⟨hready, totalSectors, hfresh⟩ := blank_fresh
  have hrun := error_of_stopReason (by decide +kernel :
    stopReason (exfatWriteFile [97] (replicate 1024 121)
      { filledVolume with outcomes := tenthFails }) = some (.code (-1)))
  refine ⟨blank, filledVolume, halfWrittenVolume, totalSectors, hfresh, rootZeroed_zero, hready,
    filledVolume_reached, hrun, fun hkept => ?_⟩
  have hbefore : (filledVolume.fileBytes 4 2).head? = some 120 := by decide +kernel
  have hafter : (halfWrittenVolume.fileBytes 4 2).head? = some 121 := by decide +kernel
  have hslot : findSlot (clusterAt halfWrittenVolume.bytes 4) [97] = some 2 := by decide +kernel
  obtain ⟨-, k, hfind, -, hbytes⟩ := hkept 4 [97] 2 .refl (by decide +kernel) (by decide +kernel)
  cases hslot.symm.trans hfind
  rw [hbytes, hbefore] at hafter
  exact absurd hafter (by decide)

/-- An append of one byte that fails after the byte has been stored keeps every file. -/
theorem files_kept_of_failed_append :
    FilesKept filledVolume (finalState (exfatAppendFile [97] [122]
      { filledVolume with outcomes := tenthFails })) ∧
    (finalState (exfatAppendFile [97] [122] { filledVolume with outcomes := tenthFails })).Unshared := by
  obtain ⟨hready, totalSectors, hfresh⟩ := blank_fresh
  have hrun := error_of_stopReason (by decide +kernel :
    stopReason (exfatAppendFile [97] [122] { filledVolume with outcomes := tenthFails }) = some (.code (-1)))
  have hslot : findSlot filledVolume.cwd [97] = some 2 := by decide +kernel
  have hfile : filledVolume.NamesFile [97] := namesFile_of_slot hslot (by decide +kernel)
  have hfits : filledVolume.FitsName [97] := fitsName_of_slot hslot (by decide +kernel)
  refine (files_kept_of_recoverable blank filledVolume _ (fun _ => 0) totalSectors tenthFails
    (.append [97] [122]) (-1) hfresh rootZeroed_zero hready filledVolume_reached
    ⟨⟨by decide, hfile⟩, hfits⟩ (fun o ho => ?_) hrun).1
  rcases mem_append.mp ho with hdone | hlast
  · rw [eq_of_mem_replicate hdone]
    rintro ⟨⟩
  · rw [mem_singleton.mp hlast]
    rintro ⟨⟩

end Examples

end Windoge.Exfat
