import Windoge.Exfat.Tree

/-!
# Where the loops of the driver write

Which bytes of the drive the loops of the driver can change, wherever a sector operation fails
in them.
-/

namespace Windoge.Exfat

open Windoge.Flow Forest BitArray List EStateM.Result Volume

variable {v v' v'' w : Volume} {lba c count : ℕ} {buffer bytes : Bytes} {writes : List (ℕ × Bytes)}
  {A B : Set ℕ}

/-- Only the given bytes of the drive may differ. -/
def Confined (A : Set ℕ) (v v' : Volume) : Prop :=
  ∃ bytes outcomes, v' = v.put bytes outcomes ∧ ∀ a, a ∉ A → bytes a = v.bytes a

/-- The bytes of clusters. -/
def clusterBytes (clusters : Set ℕ) : Set ℕ := { a | ∃ c ∈ clusters, a / 4096 = c + 766 }

variable {data : List UInt8} {sectors : List ℕ} {u : Unit} {a clusters destination offset : ℕ}

theorem Confined.refl (v : Volume) : Confined A v v := ⟨v.bytes, v.outcomes, v.put_self.symm, fun _ _ => rfl⟩

theorem Confined.trans (h : Confined A v v') (h' : Confined A v' v'') : Confined A v v'' := by
  obtain ⟨bytes, outcomes, rfl, hkeep⟩ := h
  obtain ⟨bytes', outcomes', rfl, hkeep'⟩ := h'
  refine ⟨bytes', outcomes', v.put_put _ _ _ _, fun a ha => ?_⟩
  rw [hkeep' a ha, v.put_bytes, hkeep a ha]

instance : IsPreorder Volume (Confined A) where
  refl := Confined.refl
  trans _ _ _ := Confined.trans

theorem Confined.mono (h : Confined A v v') (hsub : A ⊆ B) : Confined B v v' := by
  obtain ⟨bytes, outcomes, rfl, hkeep⟩ := h
  exact ⟨bytes, outcomes, rfl, fun a ha => hkeep a fun hin => ha (hsub hin)⟩

theorem Confined.bytes_eq (h : Confined A v w) (ha : a ∉ A) : w.bytes a = v.bytes a := by
  obtain ⟨bytes, outcomes, rfl, hkeep⟩ := h
  rw [v.put_bytes, hkeep a ha]

theorem Confined.keepsOutside {S : Set ℕ} (h : Confined (clusterBytes S) v w) :
    ∃ bytes outcomes, w = v.put bytes outcomes ∧ KeepsOutside S v.bytes bytes := by
  obtain ⟨bytes, outcomes, rfl, hkeep⟩ := h
  exact ⟨bytes, outcomes, rfl, fun a ha => hkeep a fun ⟨c, hc, heq⟩ => ha c hc heq⟩

theorem confined_read : Respects (Confined A) (exfatSectorRead lba) := by
  intro v
  obtain ⟨outcomes, hfinal⟩ := @exfatSectorRead_final v lba
  exact ⟨v.bytes, outcomes, hfinal, fun _ _ => rfl⟩

theorem confined_write (h : ∀ a, a / 512 = lba → a ∈ A) : Respects (Confined A) (exfatSectorWrite lba buffer) := by
  intro v
  obtain ⟨outcomes, hkept | hstored⟩ := @exfatSectorWrite_final v lba buffer
  · exact ⟨v.bytes, outcomes, hkept, fun _ _ => rfl⟩
  · exact ⟨_, outcomes, hstored, fun a ha => if_neg fun heq => ha (h a heq)⟩

theorem confined_writeAll (h : ∀ write ∈ writes, ∀ a, a / 512 = write.1 → a ∈ A) :
    Respects (Confined A) (writeAll writes) := by
  induction writes with
  | nil => exact .pure _
  | cons write writes ih =>
    exact .bind (confined_write (h write mem_cons_self)) fun _ =>
      ih fun other hmem => h other (mem_cons_of_mem write hmem)

/-- The sectors of a buffer go to consecutive sectors. -/
theorem confined_bufferSectors (buffer : Bytes) {start : ℕ}
    (h : ∀ s, s < start + count → ∀ a, a / 512 = lba + s → a ∈ A) :
    Respects (Confined A) (writeAll (bufferSectors lba buffer start count)) := by
  refine confined_writeAll fun write hwrite a ha => ?_
  obtain ⟨s, hs, rfl⟩ := mem_map.mp hwrite
  exact h s (mem_range'_1.mp hs).2 a ha

/-- Copied sectors go behind the destination. -/
theorem confined_copySectors (source : ℕ) (h : ∀ s ∈ sectors, ∀ a, a / 512 = destination + s → a ∈ A) :
    Respects (Confined A) (copySectors source destination sectors) := by
  induction sectors with
  | nil => exact .pure _
  | cons s sectors ih =>
    exact .bind confined_read fun sector =>
      .bind (confined_write (h s mem_cons_self)) fun _ => ih (forall_mem_cons.mp h).2

/-- Sectors of a run of clusters on a formatted volume. -/
theorem mem_clusterBytes {s : ℕ} (hs : s < 8 * clusters) (ha : a / 512 = 8 * (c + 766) + s) :
    a ∈ clusterBytes (clusterRun c clusters) :=
  ⟨a / 4096 - 766, ⟨by omega, by omega⟩, by omega⟩

/-- Bits of the bitmap lie in its sectors. -/
theorem confined_storeBits {indices : List ℕ} (h : ∀ i ∈ indices, ∀ a, a / 512 = lba + i / 4096 → a ∈ A) :
    Respects (Confined A) (storeBits lba indices) := by
  induction indices with
  | nil => exact .pure _
  | cons i indices ih =>
    exact .bind (.bind confined_read fun sector => confined_write (h i mem_cons_self))
      fun _ => ih (forall_mem_cons.mp h).2

/-- The sector that data is spliced into holds the drive's bytes before the offset. -/
theorem tailSector_ok {lba : ℕ} {sector : Bytes} (h : tailSector lba offset v = .ok sector w) :
    (∃ outcomes, w = v.put v.bytes outcomes) ∧
      ∀ x < offset % 512, sector x = v.bytes (512 * (lba + offset / 512) + x) := by
  unfold tailSector at h
  split_ifs at h
  · obtain ⟨rfl, rfl⟩ := exfatSectorRead_ok h
    exact ⟨⟨_, rfl⟩, fun x _ => rfl⟩
  · cases h
    exact ⟨⟨v.outcomes, v.put_self.symm⟩, fun x hx => absurd hx (by omega)⟩

/-- The append loop changes nothing before the offset or behind the clusters. -/
theorem confined_appendLoop (lba fuel offset : ℕ) (data : List UInt8)
    (hend : offset + data.length ≤ 4096 * clusters) (v : Volume) :
    Confined { a | 512 * lba + offset ≤ a ∧ a < 512 * lba + 4096 * clusters } v
      (finalState (appendLoop lba fuel offset data v)) := by
  induction fuel generalizing v offset data with
  | zero => exact Confined.refl v
  | succ fuel ih =>
    rw [appendLoop]
    split_ifs with hempty
    · exact Confined.refl v
    have hlength : data.length ≠ 0 := fun hzero => hempty (length_eq_zero_iff.mp hzero)
    have htail : Respects (Confined { a | 512 * lba + offset ≤ a ∧ a < 512 * lba + 4096 * clusters })
        (tailSector lba offset) := by
      unfold tailSector
      split_ifs
      · exact confined_read
      · exact .pure _
    refine (Runs.bind (P := fun _ _ => True) ⟨htail v, fun _ _ => tailSector_ok⟩ fun sector w _ hread => ?_).1
    obtain ⟨⟨outcomes₁, rfl⟩, hbefore⟩ := hread
    refine .bind ⟨?_, fun _ _ _ => trivial⟩ fun _ w _ _ => Respects.runs (fun w =>
      (ih _ _ (by rw [length_drop]; omega) w).mono ?_) w
    · obtain ⟨outcomes, hkept | hstored⟩ := @exfatSectorWrite_final (v.put v.bytes outcomes₁)
        (lba + offset / 512) (spliceSector sector (offset % 512)
          (data.take (min (512 - offset % 512) data.length)))
      · rw [hkept]
        exact ⟨_, outcomes, rfl, fun _ _ => rfl⟩
      · rw [hstored]
        refine ⟨_, outcomes, rfl, fun a ha => ?_⟩
        rw [v.put_bytes]
        by_cases hin : a / 512 = lba + offset / 512
        · have hout : ¬ (512 * lba + offset ≤ a ∧ a < 512 * lba + 4096 * clusters) := ha
          have hx : a % 512 < offset % 512 := by omega
          rw [putSector, if_pos hin, spliceSector, if_neg (by omega), hbefore _ hx]
          congr 1
          omega
        · exact if_neg hin
    · rintro a ⟨hlow, hhigh⟩
      exact ⟨by omega, hhigh⟩

theorem appendLoop_confined {fuel : ℕ}
    (hend : offset + data.length ≤ 4096 * clusters) (h : appendLoop lba fuel offset data v = .ok u w) :
    Confined { a | 512 * lba + offset ≤ a ∧ a < 512 * lba + 4096 * clusters } v w := by
  have hconfined := confined_appendLoop lba fuel offset data hend v
  rwa [h] at hconfined

theorem putSector_byte (bytes buffer : Bytes) (lba b x : ℕ) (hx : x < 512) :
    putSector bytes lba buffer (512 * b + x) = if b = lba then buffer x else bytes (512 * b + x) := by
  have hdiv : (512 * b + x) / 512 = b := by omega
  have hmod : (512 * b + x) % 512 = x := by omega
  rw [putSector, hdiv, hmod]

/-- Copied sectors hold what their sources held; nothing else changes. -/
theorem copySectors_contents {source : ℕ} (hapart : ∀ s ∈ sectors, ∀ t ∈ sectors, destination + s ≠ source + t)
    (h : copySectors source destination sectors v = .ok u w) (b x : ℕ) (hx : x < 512) :
    w.bytes (512 * b + x) = if ∃ t ∈ sectors, b = destination + t
      then v.bytes (512 * (source + (b - destination)) + x) else v.bytes (512 * b + x) := by
  induction sectors generalizing v with
  | nil =>
    cases h
    rw [if_neg (by simp)]
  | cons t sectors ih =>
    obtain ⟨sector, v₁, hread, h⟩ := bind_eq_ok h
    obtain ⟨rfl, rfl⟩ := exfatSectorRead_ok hread
    obtain ⟨_, v₂, hwrite, h⟩ := bind_eq_ok h
    obtain rfl := exfatSectorWrite_ok hwrite
    rw [ih (fun a ha c hc => hapart a (mem_cons_of_mem _ ha) c (mem_cons_of_mem _ hc)) h, put_bytes, put_bytes]
    split_ifs with hrest hall hall
    · obtain ⟨s, hs, rfl⟩ := hrest
      rw [putSector_byte _ _ _ _ _ hx, if_neg]
      rw [Nat.add_sub_cancel_left]
      exact fun heq => hapart t mem_cons_self s (mem_cons_of_mem _ hs) heq.symm
    · obtain ⟨s, hs, rfl⟩ := hrest
      exact absurd ⟨s, mem_cons_of_mem _ hs, rfl⟩ hall
    · obtain ⟨s, hs, rfl⟩ := hall
      rcases mem_cons.mp hs with rfl | hs
      · rw [putSector_byte _ _ _ _ _ hx, if_pos rfl, Nat.add_sub_cancel_left]
        rfl
      · exact absurd ⟨s, hs, rfl⟩ hrest
    · rw [putSector_byte _ _ _ _ _ hx, if_neg]
      exact fun heq => hall ⟨t, mem_cons_self, heq⟩

/-- The append loop stores the data from the offset on. -/
theorem appendLoop_contents (lba fuel offset : ℕ) (hfuel : data.length ≤ fuel)
    (h : appendLoop lba fuel offset data v = .ok u w) (i : ℕ) (hi : i < data.length) :
    w.bytes (512 * lba + offset + i) = data.getD i 0 := by
  induction fuel generalizing v offset data i with
  | zero => omega
  | succ fuel ih =>
    have hlength : data.length ≠ 0 := by omega
    rw [appendLoop, if_neg fun hempty => hlength (length_eq_zero_iff.mpr hempty)] at h
    obtain ⟨sector, v₁, -, h⟩ := bind_eq_ok h
    obtain ⟨_, v₂, hwrite, h⟩ := bind_eq_ok h
    obtain rfl := exfatSectorWrite_ok hwrite
    by_cases hnow : i < min (512 - offset % 512) data.length
    · -- the later rounds stay behind this one
      have hkeep := appendLoop_confined (by rw [length_drop]; omega : _ ≤ 4096 * (offset + data.length)) h
      have hindex : (512 * lba + offset + i) % 512 - offset % 512 = i := by omega
      have hlen : (data.take (min (512 - offset % 512) data.length)).length =
          min (512 - offset % 512) data.length := by
        rw [length_take]
        omega
      rw [hkeep.bytes_eq fun hin => by have hlow := hin.1; omega, put_bytes, putSector, if_pos (by omega),
        spliceSector, if_pos ⟨by omega, by omega⟩, hindex,
        getD_eq_getElem?_getD, getElem?_take_of_lt hnow, ← getD_eq_getElem?_getD]
    · have hlater := ih (offset + min (512 - offset % 512) data.length)
        (by rw [length_drop]; omega) h (i - min (512 - offset % 512) data.length)
        (by rw [length_drop]; omega)
      have haddress : 512 * lba + (offset + min (512 - offset % 512) data.length) +
          (i - min (512 - offset % 512) data.length) = 512 * lba + offset + i := by omega
      rw [haddress] at hlater
      rw [hlater, getD_eq_getElem?_getD, getElem?_drop, ← getD_eq_getElem?_getD]
      congr 1
      omega

/-!
## Where a changed file is stored

Writing and appending either keep the clusters of the file or move it to a run that was
unused. Either way only the bitmap and the run itself are touched, and without sector
failures the bitmap ends with the old run exchanged for the new one.
-/

open Set KeepsOutside

variable {w' : Volume} {outcomes : List SectorOutcome} {k first count : ℕ}

/-- A run that was unused. -/
def UnusedRun (v : Volume) (first count : ℕ) : Prop :=
  2 ≤ first ∧ first + count ≤ v.clusterCount + 2 ∧ Disjoint (clusterRun first count) v.usedSet

/-- Where a file goes: it stays if it needs as many clusters as before, else it moves. -/
def NewRun (v : Volume) (k first count : ℕ) : Prop :=
  if count = clustersFor (dataLength v.cwd (32 * k)) then first = firstCluster v.cwd (32 * k)
  else UnusedRun v first count

/-- The clusters in use once the old run of the file in a slot is exchanged for a new one. -/
def exchange (v : Volume) (k first count : ℕ) : Set ℕ :=
  v.usedSet \ (nodeAt v.cwd k).run ∪ clusterRun first count

/-- The bitmap marks these clusters, and without failures to come no others. -/
structure Marks (v : Volume) (clusters : Set ℕ) (bytes : Bytes) (outcomes : List SectorOutcome) :
    Prop where
  all : clusters ⊆ (v.put bytes outcomes).usedSet
  only : v.Ready → (v.put bytes outcomes).usedSet ⊆ clusters

theorem Marks.congr (hv : v.Formatted) {clusters S : Set ℕ} {bytes bytes' : Bytes}
    (hmarks : Marks v clusters bytes outcomes) (hkeep : KeepsOutside S bytes bytes') (hS : 2 ∉ S)
    (outcomes' : List SectorOutcome) : Marks v clusters bytes' outcomes' := by
  have hsame := usedSet_congr hv hkeep hS outcomes outcomes'
  exact ⟨hsame ▸ hmarks.all, hsame ▸ hmarks.only⟩

theorem marks_same (hv : v.Sound) (hk : Live v.cwd k) :
    Marks v (exchange v k (firstCluster v.cwd (32 * k)) (clustersFor (dataLength v.cwd (32 * k))))
      v.bytes v.outcomes := by
  refine ⟨?_, fun _ => ?_⟩ <;> rw [v.put_self]
  · rintro c (⟨hc, -⟩ | hrun)
    · exact hc
    · exact hv.separated.owned_used (hk.owns hv.current hrun)
  · exact subset_sdiff_union _ (nodeAt v.cwd k).run

/-- A file that moves to an unused run exchanges its old run for it. -/
theorem marks_moved (hv : v.Sound) (hk : Live v.cwd k) {bytes bytes' : Bytes}
    {outcomes' : List SectorOutcome} (hfresh : Disjoint (clusterRun first count) v.usedSet)
    (hused : (v.put bytes outcomes).usedSet = v.usedSet ∪ clusterRun first count)
    (hready : v.Ready → (v.put bytes outcomes).Ready)
    (hfreed : Marks (v.put bytes outcomes) ((v.put bytes outcomes).usedSet \ (nodeAt v.cwd k).run)
      bytes' outcomes') : Marks v (exchange v k first count) bytes' outcomes' := by
  have heq : (v.put bytes outcomes).usedSet \ (nodeAt v.cwd k).run = exchange v k first count := by
    have hapart : Disjoint (clusterRun first count) (nodeAt v.cwd k).run :=
      Set.disjoint_left.mpr fun c hc hrun => Set.disjoint_left.mp hfresh hc
        (hv.separated.owned_used (hk.owns hv.current hrun))
    rw [hused, exchange, union_sdiff_distrib, sdiff_eq_left.mpr hapart]
  obtain ⟨hall, honly⟩ := hfreed
  rw [put_put, heq] at hall honly
  exact ⟨hall, fun h => honly (hready h)⟩

/-- Allocating a run for a file touches the bitmap only. -/
theorem alloc_ok (hv : v.Formatted) (h : exfatAllocBlocks count v = .ok first w) (hne : first ≠ 0) :
    2 ≤ first ∧ first + count ≤ v.clusterCount + 2 ∧ Disjoint (clusterRun first count) v.usedSet ∧
      ∃ bytes outcomes, w = v.put bytes outcomes ∧ KeepsOutside {2} v.bytes bytes ∧
        (v.put bytes outcomes).usedSet = v.usedSet ∪ clusterRun first count := by
  obtain ⟨start, outcomes, rfl, -, hend, hclear, rfl⟩ := exfatAllocBlocks_ok h hne
  have hcount := hv.count_le
  refine ⟨by omega, by omega, ?_, _, outcomes, rfl, ?_, usedSet_alloc hend⟩
  · rw [Set.disjoint_left]
    rintro c ⟨hlow, hhigh⟩ ⟨-, -, hused⟩
    have hfalse := hclear (c - 2) (by omega) (by omega)
    have hc : c - 2 + 2 = c := by omega
    rw [hc, hused] at hfalse
    cases hfalse
  · rw [hv.bitmapLba]
    apply keepsOutside_putBits
    intro i hi
    have hrange := mem_range'_1.mp hi
    omega

/-- Freeing the run of a file touches the bitmap only, and there only the bits of the run. -/
theorem free_ok (hv : v.Formatted) (hfirst : 2 ≤ first) (hpos : 0 < count)
    (hend : first + count ≤ v.clusterCount + 2) :
    ∃ bytes outcomes, exfatFreeBlocks first count v = .ok () (v.put bytes outcomes) ∧
      KeepsOutside {2} v.bytes bytes ∧ Marks v (v.usedSet \ clusterRun first count) bytes outcomes := by
  have hcount := hv.count_le
  by_cases hready : v.Ready
  · have hquiet := exfatFreeBlocks_quiet hready hv hfirst hpos (by omega)
    have hused := usedSet_free (v := v) [] hfirst count
    refine ⟨_, [], hquiet, ?_, hused.ge, fun _ => hused.le⟩
    rw [hv.bitmapLba]
    apply keepsOutside_putBits
    intro i hi
    have hrange := mem_range'_1.mp hi
    omega
  · obtain ⟨freed, outcomes, hfreed, hfree⟩ := exfatFreeBlocks_ok first count v
    refine ⟨_, outcomes, hfree, ?_, ?_, fun h => absurd h hready⟩
    · rw [hv.bitmapLba]
      apply keepsOutside_putBits
      intro i hi
      have hrange := hfreed i hi
      omega
    · rintro c ⟨⟨hlow, hhigh, hused⟩, hout⟩
      have hkept : c - 2 ∉ freed := by
        intro hmem
        have hrange := hfreed _ hmem
        exact hout ⟨by omega, by omega⟩
      refine ⟨hlow, hhigh, ?_⟩
      rw [used_putBits, if_neg hkept, hused]

theorem Steady.ready (h : Steady v w) (hready : v.Ready) : w.Ready := by
  obtain ⟨bytes, outcomes, rfl, hquiet⟩ := h
  exact ⟨hquiet hready.quiet, by simpa [put] using hready.present⟩

/-- The clusters of an entry of the current directory. -/
theorem Volume.Sound.run_current (hv : v.Sound) (hk : Live v.cwd k) : 5 ≤ firstCluster v.cwd (32 * k) ∧
    firstCluster v.cwd (32 * k) + clustersFor (dataLength v.cwd (32 * k)) ≤ v.clusterCount + 2 :=
  hv.run_bounds hv.current hk

/-- The old run of a live file is freed in the bitmap only. -/
theorem free_old (hv : v.Sound) (hk : Live v.cwd k) (bytes : Bytes) (outcomes : List SectorOutcome) :
    ∃ bytes' outcomes', exfatFreeBlocks (v.target k).cluster (clustersFor (v.target k).size)
        (v.put bytes outcomes) = .ok () (v.put bytes' outcomes') ∧ KeepsOutside {2} bytes bytes' ∧
      Marks (v.put bytes outcomes) ((v.put bytes outcomes).usedSet \ (nodeAt v.cwd k).run) bytes' outcomes' := by
  have hpos := clustersFor_pos (hv.sizeOk _ k hv.current hk).1
  obtain ⟨hlow, hend⟩ := hv.run_current hk
  obtain ⟨bytes', outcomes', hfree, hkeep, hused⟩ := free_ok hv.toFormatted.put
    (hlow.trans' (by decide)) hpos hend
  rw [put_put] at hfree
  rw [put_bytes] at hkeep
  exact ⟨bytes', outcomes', hfree, hkeep, hused⟩

/-- Where a rewritten file goes, and what that changes. -/
theorem writeClusters_ok (hv : v.Sound) (hk : Live v.cwd k)
    (h : writeClusters (v.target k) count v = .ok first w) :
    NewRun v k first count ∧ ∃ bytes outcomes, w = v.put bytes outcomes ∧
      KeepsOutside {2} v.bytes bytes ∧ Marks v (exchange v k first count) bytes outcomes := by
  unfold writeClusters at h
  split_ifs at h with hmoved
  · obtain ⟨allocated, w₁, halloc, h⟩ := bind_eq_ok h
    split_ifs at h with hzero
    · cases h
    obtain ⟨hlow, hend, hfresh, bytes₁, outcomes₁, rfl, hkeep₁, hused₁⟩ := alloc_ok hv.toFormatted halloc hzero
    obtain ⟨bytes₂, outcomes₂, hfree, hkeep₂, hused₂⟩ := free_old hv hk bytes₁ outcomes₁
    rw [bind_ok hfree] at h
    cases h
    refine ⟨(if_neg hmoved).mpr ⟨hlow, hend, hfresh⟩, bytes₂, outcomes₂, rfl, ?_, ?_⟩
    · exact (hkeep₁.trans hkeep₂).mono (union_self _).subset
    · exact marks_moved hv hk hfresh hused₁ ((steady.respects_exfatAllocBlocks count).ok halloc).ready hused₂
  · cases h
    have hcount := not_not.mp hmoved
    rw [hcount]
    exact ⟨(if_pos rfl).mpr rfl, v.bytes, v.outcomes, v.put_self.symm, refl, marks_same hv hk⟩

/-- A file that moves to a run that was unused takes its contents along. -/
theorem copied_contents {u : Unit} {bytes₁ bytes₃ : Bytes} {outcomes₁ : List SectorOutcome} (hv : v.Sound)
    (hk : Live v.cwd k) (hfresh : Disjoint (clusterRun first count) v.usedSet)
    (hgrow : clustersFor (dataLength v.cwd (32 * k)) ≤ count) (hkeep₁ : KeepsOutside {2} v.bytes bytes₁)
    (hcopy : copySectors (exfatClusterLba (v.put bytes₁ outcomes₁) (firstCluster v.cwd (32 * k)))
      (8 * (first + 766)) (range (sectorsFor (dataLength v.cwd (32 * k)))) (v.put bytes₁ outcomes₁) = .ok u w)
    (hkeep₃ : KeepsOutside {2} w.bytes bytes₃) (i : ℕ) (hi : i < dataLength v.cwd (32 * k)) :
    bytes₃ (clusterBase first + i) = v.bytes (clusterBase (firstCluster v.cwd (32 * k)) + i) := by
  have hsize : dataLength v.cwd (32 * k) + 4095 < 2 ^ 44 := (hv.sizeOk _ k hv.current hk).1
  have hsectors := sectorsFor_le hsize
  obtain ⟨hlow, hend⟩ := hv.run_current hk
  have hused (c : ℕ) (hc : c ∈ (nodeAt v.cwd k).run) : c ∈ v.usedSet :=
    hv.separated.owned_used (hk.owns hv.current hc)
  have hne (c : ℕ) (hc : c ∈ clusterRun first count) : c ∉ v.usedSet := Set.disjoint_left.mp hfresh hc
  have hlba : exfatClusterLba (v.put bytes₁ outcomes₁) (firstCluster v.cwd (32 * k)) =
      8 * (firstCluster v.cwd (32 * k) + 766) := hv.runLba (by omega) hend
  have hin : i / 512 < sectorsFor (dataLength v.cwd (32 * k)) := by
    unfold sectorsFor
    omega
  have htwo : 2 ∉ clusterRun first count := fun hrun => hne 2 hrun (hv.separated.system_used ⟨le_rfl, by decide⟩)
  rw [hlba] at hcopy
  have hmoved := copySectors_contents (fun s hs t ht heq => ?_) hcopy (8 * (first + 766) + i / 512) (i % 512)
    (Nat.mod_lt _ (by decide))
  · have haddress (c : ℕ) : 512 * (8 * (c + 766) + i / 512) + i % 512 = clusterBase c + i := by
      rw [clusterBase]
      omega
    rw [if_pos ⟨i / 512, mem_range.mpr hin, rfl⟩, Nat.add_sub_cancel_left, haddress, haddress,
      put_bytes] at hmoved
    have hbase : clusterBase first = 4096 * (first + 766) := rfl
    have hold : clusterBase (firstCluster v.cwd (32 * k)) = 4096 * (firstCluster v.cwd (32 * k) + 766) := rfl
    rw [hkeep₃, hmoved, hkeep₁]
    · rintro c (rfl : c = 2)
      omega
    · rintro c (rfl : c = 2) heq
      exact htwo ⟨by omega, by omega⟩
  · have hs := mem_range.mp hs
    have ht := mem_range.mp ht
    refine hne (first + s / 8) ⟨by omega, by omega⟩ ?_
    have hsame : first + s / 8 = firstCluster v.cwd (32 * k) + t / 8 := by omega
    rw [hsame]
    exact hused _ ⟨le_self_add, Nat.add_lt_add_left (by omega) _⟩

section

variable (hv : v.Sound) (hk : Live v.cwd k) (hgrow : clustersFor (dataLength v.cwd (32 * k)) ≤ count)
include hv hk hgrow

/-- The sectors of a file fit into a run that is not shorter than its own. -/
theorem Volume.Sound.sectors_fit : ∀ s ∈ range (sectorsFor (v.target k).size), s < 8 * count := by
  intro s hs
  have hlt := mem_range.mp hs
  have hle := sectorsFor_le (hv.sizeOk _ k hv.current hk).1
  exact hlt.trans_le (hle.trans (Nat.mul_le_mul_left 8 hgrow))

/-- Where a growing file goes, and what that changes. -/
theorem appendClusters_ok (h : appendClusters (v.target k) count v = .ok first w) :
    NewRun v k first count ∧ ∃ bytes outcomes, w = v.put bytes outcomes ∧
      KeepsOutside ({2} ∪ clusterRun first count) v.bytes bytes ∧
      Marks v (exchange v k first count) bytes outcomes ∧ ∀ i < dataLength v.cwd (32 * k),
        bytes (clusterBase first + i) = v.bytes (clusterBase (firstCluster v.cwd (32 * k)) + i) := by
  unfold appendClusters at h
  split_ifs at h with hmoved
  · obtain ⟨allocated, w₁, halloc, h⟩ := bind_eq_ok h
    split_ifs at h with hzero
    · cases h
    obtain ⟨hlow, hend, hfresh, bytes₁, outcomes₁, rfl, hkeep₁, hused₁⟩ := alloc_ok hv.toFormatted halloc hzero
    rw [get_bind] at h
    obtain ⟨_, w₂, hcopy, h⟩ := bind_eq_ok h
    have hsteady := ((steady.respects_exfatAllocBlocks count).ok halloc).trans
      ((steady.respects_copySectors _ _ _).ok hcopy)
    rw [exfatClusterLba_put v bytes₁ outcomes₁ allocated, hv.runLba hlow hend] at hcopy
    obtain ⟨bytes₂, outcomes₂, rfl, hkeep₂⟩ := ((confined_copySectors _ fun s hs _ =>
      mem_clusterBytes (hv.sectors_fit hk hgrow s hs)).ok hcopy).keepsOutside
    rw [put_bytes] at hkeep₂
    rw [put_put] at hsteady h
    obtain ⟨bytes₃, outcomes₃, hfree, hkeep₃, hused₃⟩ := free_old hv hk bytes₂ outcomes₂
    rw [bind_ok hfree] at h
    obtain ⟨rfl, rfl⟩ := ok.inj h
    have htwo : 2 ∉ clusterRun allocated count := fun hrun =>
      Set.disjoint_left.mp hfresh hrun (hv.separated.system_used ⟨le_rfl, by decide⟩)
    refine ⟨(if_neg hmoved.ne').mpr ⟨hlow, hend, hfresh⟩, bytes₃, outcomes₃, rfl, ?_, ?_, fun i hi => ?_⟩
    · refine ((hkeep₁.trans hkeep₂).trans hkeep₃).mono ?_
      rintro c ((hc | hc) | hc)
      · exact .inl hc
      · exact .inr hc
      · exact .inl hc
    · have hsame := usedSet_congr hv.toFormatted hkeep₂ htwo outcomes₁ outcomes₂
      exact marks_moved hv hk hfresh (hsame.trans hused₁) hsteady.ready hused₃
    · exact copied_contents hv hk hfresh hgrow hkeep₁ hcopy (by rwa [put_bytes]) i hi
  · cases h
    have hcount := le_antisymm (Nat.not_lt.mp hmoved) hgrow
    rw [hcount]
    exact ⟨(if_pos rfl).mpr rfl, v.bytes, v.outcomes, v.put_self.symm, refl,
      marks_same hv hk, fun _ _ => rfl⟩

end

/-- Appending inside a run of clusters changes that run. -/
theorem appendLoop_ok {u : Unit} {c clusters fuel offset : ℕ} {data : List UInt8}
    (hend : offset + data.length ≤ 4096 * clusters)
    (h : appendLoop (8 * (c + 766)) fuel offset data v = .ok u w) :
    ∃ bytes outcomes, w = v.put bytes outcomes ∧ KeepsOutside (clusterRun c clusters) v.bytes bytes := by
  refine ((appendLoop_confined hend h).mono ?_).keepsOutside
  rintro a ⟨hlow, hhigh⟩
  exact ⟨a / 4096 - 766, ⟨by omega, by omega⟩, by omega⟩

end Windoge.Exfat
