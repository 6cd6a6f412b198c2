import Windoge.Exfat.Format
import Windoge.Lib.BitArray

/-!
# The allocation bitmap

`exfat_alloc_blocks` and `exfat_free_blocks`. Bit `i` of the bitmap stands for cluster
`i + 2`. The allocator scans the bitmap sector by sector for a run of clear bits and then
sets them one at a time, rereading and rewriting a sector for each; freeing clears them the
same way and ignores sector errors.
-/

namespace Windoge.Exfat

open Windoge.Flow BitArray Volume

/-- Store one bit of a bitmap that starts at a sector: read the sector, change it, write it. -/
def storeBit (lba i : ℕ) (on : Bool) : Driver Unit := do
  let sector ← exfatSectorRead (lba + i / 4096)
  exfatSectorWrite (lba + i / 4096) (putBit sector (i % 4096) on)

/-- Set bits one after the other and stop at the first error. -/
def storeBits (lba : ℕ) : List ℕ → Driver Unit
  | [] => pure ()
  | i :: indices => do
    storeBit lba i true
    storeBits lba indices

/-- The state of the search for a run of clear bits. -/
inductive Scan
  | found (start : ℕ)
  | going (consecutive start : ℕ)

/-- The scan over the bits of one sector; `i` is the bit's index in the whole bitmap. -/
def scanBits (sector : Bytes) (total count : ℕ) : ℕ → ℕ → ℕ → ℕ → Scan
  | 0, _, consecutive, start => .going consecutive start
  | left + 1, i, consecutive, start =>
    if total ≤ i then .going consecutive start
    else if bitAt sector (i % 4096) then scanBits sector total count left (i + 1) 0 start
    else
      let start := if consecutive = 0 then i else start
      if consecutive + 1 = count then .found start
      else scanBits sector total count left (i + 1) (consecutive + 1) start

/-- The scan over the sectors of the bitmap from sector `s` on. -/
def scanSectors (lba total count : ℕ) : ℕ → ℕ → ℕ → ℕ → Driver (Option ℕ)
  | 0, _, _, _ => pure none
  | left + 1, s, consecutive, start => do
    let sector ← exfatSectorRead (lba + s)
    match scanBits sector total count 4096 (4096 * s) consecutive start with
    | .found start => pure (some start)
    | .going consecutive start => scanSectors lba total count left (s + 1) consecutive start

/-- `exfat_alloc_blocks`: the first cluster of the run, or 0. -/
def exfatAllocBlocks (count : ℕ) : Driver ℕ :=
  if count = 0 then pure 0
  else tryCatch (do
    let v ← get
    let lba := exfatClusterLba v 2
    match ← scanSectors lba v.clusterCount count ((v.clusterCount + 4095) / 4096) 0 0 0 with
    | none => pure 0
    | some start => do
      storeBits lba (List.range' start count)
      pure (start + 2)) fun _ => pure 0

/-- `exfat_alloc_block`. -/
def exfatAllocBlock : Driver ℕ := exfatAllocBlocks 1

/-- Clear bits one after the other and carry on after errors. -/
def clearBits (lba : ℕ) : List ℕ → Driver Unit
  | [] => pure ()
  | i :: indices => do
    tryCatch (storeBit lba i false) fun _ => pure ()
    clearBits lba indices

/-- `exfat_free_blocks`; the end of the range is a 32-bit sum. -/
def exfatFreeBlocks (cluster count : ℕ) : Driver Unit :=
  if cluster < 2 ∨ count = 0 then pure ()
  else do
    let v ← get
    let start := cluster - 2
    clearBits (exfatClusterLba v 2) (List.range' start ((start + count) % 2 ^ 32 - start))

/-- Whether the bitmap marks a cluster as used. -/
def Volume.used (v : Volume) (cluster : ℕ) : Bool :=
  bitAt v.bytes (4096 * exfatClusterLba v 2 + (cluster - 2))

section Bits

variable {bytes : Bytes} {lba i : ℕ} {on : Bool}

/-- Rewriting the sector of a bit stores that bit of the drive. -/
theorem putSector_putBit :
    putSector bytes (lba + i / 4096) (putBit (sectorAt bytes (lba + i / 4096)) (i % 4096) on) =
      putBit bytes (4096 * lba + i) on := by
  funext a
  have hbit : (4096 * lba + i) % 8 = i % 4096 % 8 := by omega
  unfold putSector putBit sectorAt
  by_cases ha : a = (4096 * lba + i) / 8
  · have hsector : a / 512 = lba + i / 4096 := by omega
    have hoffset : a % 512 = i % 4096 / 8 := by omega
    have haddress : 512 * (lba + i / 4096) + i % 4096 / 8 = (4096 * lba + i) / 8 := by omega
    rw [if_pos hsector, hoffset, ha, Function.update_self, Function.update_self, haddress, hbit]
  rw [Function.update_of_ne ha]
  split_ifs
  · have hne : a % 512 ≠ i % 4096 / 8 := by omega
    have haddress : 512 * (lba + i / 4096) + a % 512 = a := by omega
    rw [Function.update_of_ne hne, haddress]
  · rfl

end Bits

variable {v v' : Volume} {lba i count total : ℕ} {on : Bool} {indices : List ℕ}

theorem storeBit_ok {u : Unit} (h : storeBit lba i on v = .ok u v') :
    ∃ outcomes, v' = v.put (putBit v.bytes (4096 * lba + i) on) outcomes := by
  obtain ⟨sector, v₁, hread, h⟩ := bind_eq_ok h
  obtain ⟨rfl, rfl⟩ := exfatSectorRead_ok hread
  have hwrite := exfatSectorWrite_ok h
  rw [put_bytes, putSector_putBit, put_put] at hwrite
  exact ⟨_, hwrite⟩

/-- Setting bits that succeeds changes these bits. -/
theorem storeBits_ok {u : Unit} (h : storeBits lba indices v = .ok u v') :
    ∃ outcomes, v' = v.put (putBits v.bytes (4096 * lba) indices true) outcomes := by
  induction indices generalizing v with
  | nil =>
    obtain ⟨-, rfl⟩ := EStateM.Result.ok.inj h
    exact ⟨v.outcomes, v.put_self.symm⟩
  | cons i indices ih =>
    obtain ⟨_, v₁, hfirst, h⟩ := bind_eq_ok h
    obtain ⟨_, rfl⟩ := storeBit_ok hfirst
    obtain ⟨outcomes, rfl⟩ := ih h
    exact ⟨outcomes, by simp [putBits]⟩

/-!
## What allocating and freeing clusters does

A run that `exfat_alloc_blocks` returns lies inside the volume, was unused and is used
afterwards; freeing a run clears its bits. Neither touches a byte outside the bitmap.
Without sector failures an allocation that fails leaves the volume as it was.
-/

open EStateM.Result List

/-- The drive is present and no coming sector operation fails. -/
structure Volume.Ready (v : Volume) : Prop where
  quiet : v.outcomes = []
  present : (v.drives v.ataDrive).present = true

/-- A run of clear bits that ends before bit `i`, as the scan keeps track of it. -/
def ClearRun (bytes : Bytes) (base i consecutive start : ℕ) : Prop :=
  consecutive ≤ i ∧ (consecutive ≠ 0 → start = i - consecutive) ∧
    ∀ j, i - consecutive ≤ j → j < i → bitAt bytes (base + j) = false

variable {bytes sector : Bytes} {base lba i count total consecutive start : ℕ} {indices : List ℕ}

theorem ClearRun.zero : ClearRun bytes base i 0 start :=
  ⟨Nat.zero_le i, fun h => absurd rfl h, fun j hlow hhigh => absurd hhigh (by omega)⟩

/-- A run grows by the next clear bit. -/
theorem ClearRun.succ (hrun : ClearRun bytes base i consecutive start) (hbit : bitAt bytes (base + i) = false) :
    ClearRun bytes base (i + 1) (consecutive + 1) (if consecutive = 0 then i else start) := by
  obtain ⟨hle, hstart, hclear⟩ := hrun
  refine ⟨by omega, fun _ => ?_, fun j hlow hhigh => ?_⟩
  · split_ifs with hzero
    · omega
    · have hvalue := hstart hzero
      omega
  · by_cases hlast : j = i
    · rwa [hlast]
    · exact hclear j (by omega) (by omega)

/-- What the scan of one sector establishes. -/
def Scan.Sound (bytes : Bytes) (base total count i : ℕ) : Scan → Prop
  | .found start => start + count ≤ total ∧
      ∀ j, start ≤ j → j < start + count → bitAt bytes (base + j) = false
  | .going consecutive start => total ≤ i ∨ ClearRun bytes base i consecutive start

/-- The scan of one sector finds runs of clear bits only. -/
theorem scanBits_sound (count left : ℕ)
    (hsector : ∀ j, i ≤ j → j < i + left → bitAt sector (j % 4096) = bitAt bytes (base + j))
    (hrun : total ≤ i ∨ ClearRun bytes base i consecutive start) :
    (scanBits sector total count left i consecutive start).Sound bytes base total count (i + left) := by
  induction left generalizing i consecutive start with
  | zero => exact hrun
  | succ left ih =>
    have hnext (consecutive' start' : ℕ) (hrun' : ClearRun bytes base (i + 1) consecutive' start') :
        (scanBits sector total count left (i + 1) consecutive' start').Sound bytes base total count
          (i + (left + 1)) := by
      have hstep := ih (fun j hlow hhigh => hsector j (by omega) (by omega)) (.inr hrun')
      rwa [add_assoc, add_comm 1 left] at hstep
    rw [scanBits]
    by_cases hend : total ≤ i
    · rw [if_pos hend]
      exact .inl (by omega)
    rw [if_neg hend]
    by_cases hbit : bitAt sector (i % 4096)
    · rw [if_pos hbit]
      exact hnext 0 start ClearRun.zero
    have hclear : bitAt bytes (base + i) = false := by
      rw [← hsector i le_rfl (by omega)]
      exact Bool.eq_false_iff.mpr hbit
    have hgrown := (hrun.resolve_left hend).succ hclear
    rw [if_neg hbit]
    by_cases hfound : consecutive + 1 = count
    · obtain ⟨hle, hstart, hall⟩ := hgrown
      rw [if_pos hfound]
      exact ⟨by omega, fun j hlow hhigh => hall j (by omega) (by omega)⟩
    · rw [if_neg hfound]
      exact hnext _ _ hgrown

theorem bitAt_sectorAt {s j : ℕ} (h : j / 4096 = s) :
    bitAt (sectorAt bytes (lba + s)) (j % 4096) = bitAt bytes (4096 * lba + j) := by
  have hbyte : 512 * (lba + s) + j % 4096 / 8 = (4096 * lba + j) / 8 := by omega
  have hbit : j % 4096 % 8 = (4096 * lba + j) % 8 := by omega
  rw [bitAt, bitAt, sectorAt, hbyte, hbit]

/-- The scan over all sectors finds runs of clear bits only and changes nothing. -/
theorem scanSectors_ok (left s : ℕ) {found : Option ℕ}
    (hrun : total ≤ 4096 * s ∨ ClearRun v.bytes (4096 * lba) (4096 * s) consecutive start)
    (h : scanSectors lba total count left s consecutive start v = .ok found v') :
    (∃ outcomes, v' = v.put v.bytes outcomes) ∧ ∀ start ∈ found, start + count ≤ total ∧
        ∀ j, start ≤ j → j < start + count → bitAt v.bytes (4096 * lba + j) = false := by
  induction left generalizing s consecutive start v with
  | zero =>
    obtain ⟨rfl, rfl⟩ := ok.inj h
    exact ⟨⟨v.outcomes, v.put_self.symm⟩, by simp⟩
  | succ left ih =>
    obtain ⟨sector, v₁, hread, h⟩ := bind_eq_ok h
    obtain ⟨rfl, rfl⟩ := exfatSectorRead_ok hread
    have hsound := scanBits_sound count 4096
      (fun j hlow hhigh => bitAt_sectorAt (s := s) (j := j) (by omega)) hrun
    cases hscan : scanBits (sectorAt v.bytes (lba + s)) total count 4096 (4096 * s) consecutive start with
    | found first =>
      rw [hscan] at h hsound
      cases h
      exact ⟨⟨_, rfl⟩, by simpa [Scan.Sound] using hsound⟩
    | going consecutive' start' =>
      rw [hscan] at h hsound
      have hnext : 4096 * s + 4096 = 4096 * (s + 1) := by omega
      rw [hnext] at hsound
      obtain ⟨⟨outcomes, rfl⟩, hfound⟩ := ih (s + 1) (by simpa [Scan.Sound] using hsound) h
      exact ⟨⟨outcomes, by simp⟩, by simpa using hfound⟩

/-- A successful allocation marks a run of unused clusters inside the volume. -/
theorem exfatAllocBlocks_ok {first : ℕ} (h : exfatAllocBlocks count v = .ok first v') (hfirst : first ≠ 0) :
    ∃ start outcomes, first = start + 2 ∧ 0 < count ∧ start + count ≤ v.clusterCount ∧
      (∀ j, start ≤ j → j < start + count → v.used (j + 2) = false) ∧
      v' = v.put (putBits v.bytes (4096 * exfatClusterLba v 2) (List.range' start count) true) outcomes := by
  rw [exfatAllocBlocks] at h
  split_ifs at h
  · cases h
    exact absurd rfl hfirst
  have hcatch := tryCatch_pure_ok h hfirst
  rw [get_bind] at hcatch
  obtain ⟨found, v₁, hscan, hcatch⟩ := bind_eq_ok hcatch
  obtain ⟨⟨outcomes, rfl⟩, hfound⟩ := scanSectors_ok _ 0 (.inr ClearRun.zero) hscan
  cases found with
  | none =>
    cases hcatch
    exact absurd rfl hfirst
  | some start =>
    obtain ⟨hend, hclear⟩ := hfound start rfl
    obtain ⟨_, v₂, hstore, hcatch⟩ := bind_eq_ok hcatch
    obtain ⟨outcomes', rfl⟩ := storeBits_ok hstore
    cases hcatch
    refine ⟨start, outcomes', rfl, by omega, hend, fun j hlow hhigh => ?_, by simp⟩
    exact hclear j hlow hhigh

section Frees

/-- Storing a bit ends with that bit changed or not, whether it reports success or not. -/
theorem storeBit_final (on : Bool) : ∃ outcomes, finalState (storeBit lba i on v) = v.put v.bytes outcomes ∨
      finalState (storeBit lba i on v) = v.put (putBit v.bytes (4096 * lba + i) on) outcomes := by
  cases hread : exfatSectorRead (lba + i / 4096) v with
  | error e v₁ =>
    obtain ⟨outcomes, hfinal⟩ := exfatSectorRead_final (v := v)
    rw [hread] at hfinal
    rw [storeBit, bind_error hread]
    exact ⟨outcomes, .inl hfinal⟩
  | ok sector v₁ =>
    obtain ⟨rfl, rfl⟩ := exfatSectorRead_ok hread
    rw [storeBit, bind_ok hread]
    obtain ⟨outcomes, hkept | hstored⟩ := exfatSectorWrite_final (v := v.put v.bytes v.outcomes.tail)
    · exact ⟨outcomes, .inl (by simpa using hkept)⟩
    · rw [put_bytes, putSector_putBit, put_put] at hstored
      exact ⟨outcomes, .inr hstored⟩

/-- Freeing clears some of the bits, those whose sector operations reach the disk. -/
theorem clearBits_ok : ∃ freed outcomes, freed ⊆ indices ∧
    clearBits lba indices v = .ok () (v.put (putBits v.bytes (4096 * lba) freed false) outcomes) := by
  induction indices generalizing v with
  | nil => exact ⟨[], v.outcomes, List.Subset.refl _, congrArg _ v.put_self.symm⟩
  | cons i indices ih =>
    have hfirst := tryCatch_ignore (storeBit lba i false) v
    rw [clearBits, bind_ok hfirst]
    obtain ⟨outcomes, hkept | hcleared⟩ := storeBit_final (i := i) (v := v) false
    · obtain ⟨freed, outcomes', hsub, hrest⟩ := ih (v := v.put v.bytes outcomes)
      rw [hkept, hrest]
      exact ⟨freed, outcomes', subset_cons_of_subset i hsub, by simp⟩
    · obtain ⟨freed, outcomes', hsub, hrest⟩ := ih (v := v.put (putBit v.bytes (4096 * lba + i) false) outcomes)
      rw [hcleared, hrest]
      exact ⟨i :: freed, outcomes', cons_subset_cons i hsub, by simp [putBits]⟩

/-- Freeing a run of clusters clears bits of that run only. -/
theorem exfatFreeBlocks_ok (cluster count : ℕ) (v : Volume) : ∃ freed outcomes,
    (∀ i ∈ freed, cluster - 2 ≤ i ∧ i < cluster - 2 + count) ∧
    exfatFreeBlocks cluster count v =
      .ok () (v.put (putBits v.bytes (4096 * exfatClusterLba v 2) freed false) outcomes) := by
  rw [exfatFreeBlocks]
  split_ifs
  · exact ⟨[], v.outcomes, by simp, congrArg _ v.put_self.symm⟩
  rw [get_bind]
  obtain ⟨freed, outcomes, hsub, hclear⟩ := clearBits_ok (v := v)
  refine ⟨freed, outcomes, fun i hi => ?_, hclear⟩
  have hrange := mem_range'_1.mp (hsub hi)
  omega

end Frees

section Quiet

theorem Volume.Ready.accepts (hv : v.Ready) (h : lba < lbaLimit) : v.Accepts lba := ⟨h, hv.present⟩

theorem Volume.Ready.put (hv : v.Ready) : (v.put bytes []).Ready := ⟨rfl, by simpa [Volume.put] using hv.present⟩

theorem Volume.Ready.put_bytes (hv : v.Ready) : v.put v.bytes [] = v := by
  have hput := v.put_self
  rwa [hv.quiet] at hput

theorem storeBit_quiet {on : Bool} (hv : v.Ready) (h : lba + i / 4096 < lbaLimit) :
    storeBit lba i on v = .ok () (v.put (putBit v.bytes (4096 * lba + i) on) []) := by
  rw [storeBit, bind_ok (exfatSectorRead_quiet hv.quiet (hv.accepts h)),
    exfatSectorWrite_quiet hv.quiet (hv.accepts h), putSector_putBit]

/-- Without failures to come bits are set. -/
theorem storeBits_quiet (lba : ℕ) (indices : List ℕ) (hv : v.Ready) (h : ∀ i ∈ indices, lba + i / 4096 < lbaLimit) :
    storeBits lba indices v = .ok () (v.put (putBits v.bytes (4096 * lba) indices true) []) := by
  induction indices generalizing v with
  | nil => exact congrArg _ hv.put_bytes.symm
  | cons i indices ih =>
    rw [storeBits, bind_ok (storeBit_quiet hv (h i mem_cons_self)),
      ih hv.put (forall_mem_cons.mp h).2]
    simp [putBits]

/-- Without failures to come bits are cleared. -/
theorem clearBits_quiet (hv : v.Ready) (h : ∀ i ∈ indices, lba + i / 4096 < lbaLimit) :
    clearBits lba indices v = .ok () (v.put (putBits v.bytes (4096 * lba) indices false) []) := by
  induction indices generalizing v with
  | nil => exact congrArg _ hv.put_bytes.symm
  | cons i indices ih =>
    rw [clearBits, bind_ok (tryCatch_ok (storeBit_quiet hv (h i mem_cons_self))),
      ih hv.put (forall_mem_cons.mp h).2]
    simp [putBits]

/-- Without failures to come the scan of the bitmap ends. -/
theorem scanSectors_quiet (total count : ℕ) (hv : v.Ready) (left s consecutive start : ℕ)
    (h : lba + (s + left) ≤ lbaLimit) :
    ∃ found, scanSectors lba total count left s consecutive start v = .ok found v := by
  induction left generalizing s consecutive start with
  | zero => exact ⟨none, rfl⟩
  | succ left ih =>
    have hread := exfatSectorRead_quiet hv.quiet (hv.accepts (by omega : lba + s < lbaLimit))
    rw [scanSectors, bind_ok hread]
    cases scanBits (sectorAt v.bytes (lba + s)) total count 4096 (4096 * s) consecutive start with
    | found first => exact ⟨some first, rfl⟩
    | going consecutive' start' => exact ih (s + 1) consecutive' start' (by omega)

variable (hv : v.Ready) (hformatted : v.Formatted)
include hv hformatted

/-- Without failures to come an allocation either fails and changes nothing or succeeds. -/
theorem exfatAllocBlocks_quiet (count : ℕ) : ∃ first v', exfatAllocBlocks count v = .ok first v' ∧
    v'.Ready ∧ (first = 0 → v' = v) := by
  rw [exfatAllocBlocks]
  split_ifs
  · exact ⟨0, v, rfl, hv, fun _ => rfl⟩
  have hlba : exfatClusterLba v 2 = 6144 := hformatted.clusterLba (by decide) (by decide)
  have hcount := hformatted.atMost
  rw [maxBitmapClusters] at hcount
  have hlimit : lbaLimit = 2 ^ 48 := rfl
  obtain ⟨found, hscan⟩ := scanSectors_quiet v.clusterCount count hv
    ((v.clusterCount + 4095) / 4096) 0 0 0 (by omega : 6144 + (0 + (v.clusterCount + 4095) / 4096) ≤ lbaLimit)
  have hsound := (scanSectors_ok _ 0 (.inr ClearRun.zero) hscan).2
  cases found with
  | none =>
    refine ⟨0, v, tryCatch_ok ?_, hv, fun _ => rfl⟩
    rw [get_bind, hlba, bind_ok hscan]
    rfl
  | some start =>
    have hend := (hsound start rfl).1
    have hstore := storeBits_quiet 6144 (range' start count) hv fun i hi => by
        have hrange := mem_range'_1.mp hi
        omega
    refine ⟨start + 2, v.put (putBits v.bytes (4096 * 6144) (range' start count) true) [],
      tryCatch_ok ?_, hv.put, fun h => absurd h (by omega)⟩
    rw [get_bind, hlba, bind_ok hscan]
    exact bind_ok hstore

/-- Without failures to come freeing a run of clusters clears exactly its bits. -/
theorem exfatFreeBlocks_quiet {cluster : ℕ} (hcluster : 2 ≤ cluster) (hcount : 0 < count)
    (hend : cluster + count < 2 ^ 32) :
    exfatFreeBlocks cluster count v = .ok ()
      (v.put (putBits v.bytes (4096 * exfatClusterLba v 2) (List.range' (cluster - 2) count) false) []) := by
  have hlba : exfatClusterLba v 2 = 6144 := hformatted.clusterLba (by decide) (by decide)
  have hlimit : lbaLimit = 2 ^ 48 := rfl
  have hlength : (cluster - 2 + count) % 2 ^ 32 - (cluster - 2) = count := by omega
  rw [exfatFreeBlocks, if_neg (by omega), get_bind, hlength]
  apply clearBits_quiet hv
  intro i hi
  have hrange := mem_range'_1.mp hi
  omega

end Quiet

end Windoge.Exfat
