import Windoge.Exfat.Bitmap
import Windoge.Lib.FirstFit

/-!
# The allocator takes the lowest run

Without sector failures `exfat_alloc_blocks` finds the lowest run of clear bits of the length it is
asked for, sets these bits and no others, and changes nothing if there is no such run; freeing the
run brings the drive back to what it was.
-/

namespace Windoge.Exfat

open Windoge.Flow BitArray FirstFit List Volume

/-- The bits of the bitmap. -/
def Volume.bits (v : Volume) (i : ℕ) : Bool := v.used (i + 2)

/-- What the scan of the bits up to bit `i` has established: there is no run left, or the search goes
on. -/
def SearchedTo (bits : ℕ → Bool) (total count i consecutive start : ℕ) : Prop :=
  (total ≤ i ∧ ∀ s, ¬ Free bits total count s) ∨ Searched bits total count i consecutive start

variable {v : Volume} {sector : Bytes} {bits : ℕ → Bool} {lba total count i consecutive start : ℕ}

/-- The scan of a sector finds the lowest run or carries the search on behind the sector. -/
theorem scanBits_search (left : ℕ) (hsector : ∀ j, i ≤ j → j < i + left → bitAt sector (j % 4096) = bits j)
    (hseen : SearchedTo bits total count i consecutive start) :
    match scanBits sector total count left i consecutive start with
    | .found first => First bits total count first
    | .going consecutive' start' => SearchedTo bits total count (i + left) consecutive' start' := by
  induction left generalizing i consecutive start with
  | zero => exact hseen
  | succ left ih =>
    have hnext (consecutive' start' : ℕ) (hseen' : Searched bits total count (i + 1) consecutive' start') :
        match scanBits sector total count left (i + 1) consecutive' start' with
        | .found first => First bits total count first
        | .going consecutive'' start'' =>
          SearchedTo bits total count (i + (left + 1)) consecutive'' start'' := by
      have hstep := ih (fun j hlow hhigh => hsector j (by omega) (by omega)) (.inr hseen')
      rwa [add_assoc, add_comm 1 left] at hstep
    rw [scanBits]
    by_cases hend : total ≤ i
    · rw [if_pos hend]
      refine .inl ⟨by omega, ?_⟩
      rcases hseen with ⟨-, hnone⟩ | hsearched
      · exact hnone
      · exact hsearched.none_left hend
    rw [if_neg hend]
    have hsearched := hseen.resolve_left fun h => hend h.1
    have hbit := hsector i le_rfl (by omega)
    by_cases hset : bitAt sector (i % 4096)
    · rw [if_pos hset]
      exact hnext 0 start (hsearched.set (hbit.symm.trans hset))
    have hclear := hbit.symm.trans (Bool.eq_false_iff.mpr hset)
    rw [if_neg hset]
    by_cases hlast : consecutive + 1 = count
    · rw [if_pos hlast]
      exact hsearched.found hclear hlast (by omega)
    · rw [if_neg hlast]
      exact hnext _ _ (hsearched.clear_bit hclear hlast)

/-- The scan of the whole bitmap finds what first fit finds. -/
theorem scanSectors_find (hv : v.Ready) (hcount : 0 < count) (left s : ℕ) (hlba : lba + (s + left) ≤ lbaLimit)
    (htotal : total ≤ 4096 * (s + left))
    (hseen : SearchedTo (fun j => bitAt v.bytes (4096 * lba + j)) total count (4096 * s) consecutive start) :
    scanSectors lba total count left s consecutive start v =
      .ok (find (fun j => bitAt v.bytes (4096 * lba + j)) total count) v := by
  induction left generalizing s consecutive start with
  | zero =>
    have hnone : ∀ s, ¬ Free (fun j => bitAt v.bytes (4096 * lba + j)) total count s := by
      rcases hseen with ⟨-, hnone⟩ | hsearched
      · exact hnone
      · exact hsearched.none_left htotal
    rw [(find_eq_none_iff hcount).mpr hnone]
    rfl
  | succ left ih =>
    have hread := exfatSectorRead_quiet hv.quiet (hv.accepts (by omega : lba + s < lbaLimit))
    have hscan := scanBits_search 4096 (fun j hlow hhigh => bitAt_sectorAt (s := s) (j := j) (by omega)) hseen
    rw [scanSectors, bind_ok hread]
    cases hcase : scanBits (sectorAt v.bytes (lba + s)) total count 4096 (4096 * s) consecutive start with
    | found first =>
      rw [hcase] at hscan
      rw [(find_eq_some_iff hcount).mpr hscan]
      rfl
    | going consecutive' start' =>
      rw [hcase] at hscan
      exact ih (s + 1) (by omega) (by omega) hscan

section Allocate

variable (hv : v.Ready) (htotal : v.clusterCount ≤ 32768) (hcount : 0 < count)

theorem bitmap_in_range (hi : i < 32768) : exfatClusterLba v 2 + i / 4096 < lbaLimit := by
  have hlba : exfatClusterLba v 2 = (partitionLba + v.clusterHeapOffset) % 2 ^ 32 := by
    rw [exfatClusterLba, Nat.add_sub_cancel_left, Nat.mod_self, Nat.zero_mul, Nat.add_zero]
  have hlimit : lbaLimit = 2 ^ 48 := rfl
  rw [hlba, partitionLba]
  omega

include hv htotal hcount

/-- An allocation takes the lowest run, or fails and changes nothing. -/
theorem exfatAllocBlocks_find : exfatAllocBlocks count v =
    match find v.bits v.clusterCount count with
    | some start => .ok (start + 2)
        (v.put (putBits v.bytes (4096 * exfatClusterLba v 2) (range' start count) true) [])
    | none => .ok 0 v := by
  have hrange := @bitmap_in_range v _ (by decide : 32767 < 32768)
  have hscan : scanSectors (exfatClusterLba v 2) v.clusterCount count ((v.clusterCount + 4095) / 4096)
      0 0 0 v = .ok (find v.bits v.clusterCount count) v :=
    scanSectors_find hv hcount _ 0 (by omega) (by omega) (.inr (Searched.zero hcount))
  rw [exfatAllocBlocks, if_neg (by omega)]
  cases hfind : find v.bits v.clusterCount count with
  | none =>
    rw [hfind] at hscan
    refine tryCatch_ok ?_
    rw [get_bind, bind_ok hscan]
    rfl
  | some start =>
    have hfits := ((find_eq_some_iff hcount).mp hfind).fits
    have hstore := storeBits_quiet (exfatClusterLba v 2) (range' start count) hv fun i hi => by
      have hrange := mem_range'_1.mp hi
      exact bitmap_in_range (by omega)
    rw [hfind] at hscan
    refine tryCatch_ok ?_
    rw [get_bind, bind_ok hscan]
    exact bind_ok hstore

/-- Freeing the run that an allocation took brings the drive back to what it was. -/
theorem exfatFreeBlocks_restore (hfree : Free v.bits v.clusterCount count start) :
    exfatFreeBlocks (start + 2) count
      (v.put (putBits v.bytes (4096 * exfatClusterLba v 2) (range' start count) true) []) =
      .ok () v := by
  have hfits := hfree.fits
  have hlength : (start + count) % 2 ^ 32 - start = count := by omega
  have hinside : ∀ i ∈ range' start count, exfatClusterLba v 2 + i / 4096 < lbaLimit := fun i hi => by
    have hrange := mem_range'_1.mp hi
    exact bitmap_in_range (by omega)
  have hclear := clearBits_quiet
    (v := v.put (putBits v.bytes (4096 * exfatClusterLba v 2) (range' start count) true) []) hv.put hinside
  rw [exfatFreeBlocks, if_neg (by omega), get_bind, Nat.add_sub_cancel, hlength]
  refine hclear.trans (congrArg (EStateM.Result.ok ()) ?_)
  rw [put_bytes, put_put, putBits_restore, hv.put_bytes]
  intro i hi
  have hrange := mem_range'_1.mp hi
  exact hfree.clear i (by omega) (by omega)

end Allocate

/-- `exfat_alloc_blocks` returns the lowest run of clear bits below the cluster count and sets exactly
these bits of the drive, and `exfat_free_blocks` undoes it; without such a run it returns 0 and changes
nothing. -/
theorem alloc_takes_lowest_run (v : Volume) (count : ℕ) (hv : v.Ready)
    (htotal : v.clusterCount ≤ 32768) (hcount : 0 < count) :
    (∀ start, First v.bits v.clusterCount count start → ∃ bytes,
      exfatAllocBlocks count v = .ok (2 + start) (v.put bytes []) ∧
      (∀ i, bitAt bytes i = (bitAt v.bytes i ||
        decide (4096 * exfatClusterLba v 2 + start ≤ i ∧ i < 4096 * exfatClusterLba v 2 + (start + count)))) ∧
      exfatFreeBlocks (2 + start) count (v.put bytes []) = .ok () v) ∧
    ((∀ start, ¬ Free v.bits v.clusterCount count start) → exfatAllocBlocks count v = .ok 0 v) := by
  have hrun := exfatAllocBlocks_find hv htotal hcount
  constructor
  · intro start hfirst
    rw [(find_eq_some_iff hcount).mpr hfirst] at hrun
    rw [add_comm 2 start]
    refine ⟨_, hrun, fun i => ?_, exfatFreeBlocks_restore hv htotal hcount hfirst.toFree⟩
    by_cases hi : i < 4096 * exfatClusterLba v 2
    · rw [bitAt_putBits_of_lt hi, decide_eq_false (by omega), Bool.or_false]
    obtain ⟨j, rfl⟩ := Nat.exists_eq_add_of_le (le_of_not_gt hi)
    rw [bitAt_putBits]
    by_cases hj : start ≤ j ∧ j < start + count
    · rw [if_pos (mem_range'_1.mpr (by omega)), decide_eq_true (by omega), Bool.or_true]
    · rw [if_neg fun hmem => hj (by have := mem_range'_1.mp hmem; omega),
        decide_eq_false (by omega), Bool.or_false]
  · intro hnone
    rwa [(find_eq_none_iff hcount).mpr hnone] at hrun

/-- A volume of 300 clusters on a zeroed drive. -/
def zeroedVolume : Volume where
  drives := fun _ => ⟨fun _ => 0, true, 8192, fun _ => 0⟩
  ataDrive := 0
  outcomes := []
  currentCluster := 4
  currentPath := [47]
  clusterHeapOffset := 2048
  sectorsPerCluster := 8
  rootCluster := 4
  clusterCount := 300

/-- Seven clusters of the zeroed volume are taken from the first one on and given back; 301 are
refused. -/
theorem alloc_takes_lowest_run_zeroed :
    (∃ bytes, exfatAllocBlocks 7 zeroedVolume = .ok 2 (zeroedVolume.put bytes []) ∧
      exfatFreeBlocks 2 7 (zeroedVolume.put bytes []) = .ok () zeroedVolume) ∧
    exfatAllocBlocks 301 zeroedVolume = .ok 0 zeroedVolume := by
  have hready : zeroedVolume.Ready := ⟨rfl, rfl⟩
  have hclear (j : ℕ) : zeroedVolume.bits j = false := BitVec.getLsbD_zero
  have hfirst : First zeroedVolume.bits zeroedVolume.clusterCount 7 0 :=
    ⟨⟨by decide, fun j _ _ => hclear j⟩, fun s hs => absurd hs (Nat.not_lt_zero s)⟩
  obtain ⟨bytes, hrun, -, hfree⟩ :=
    (alloc_takes_lowest_run zeroedVolume 7 hready (by decide) (by decide)).1 0 hfirst
  refine ⟨⟨bytes, hrun, hfree⟩,
    (alloc_takes_lowest_run zeroedVolume 301 hready (by decide) (by decide)).2 ?_⟩
  intro start hfree
  have hfits : start + 301 ≤ 300 := hfree.fits
  omega

/-!
## An allocation that another task interrupts

`exfat_alloc_blocks` one sector operation at a time, in a task that the timer may interrupt between
any two of them. Another task then performs a whole allocation, and the first one goes on with what
it has read. Nothing is lost as long as the run that the other task takes, the lowest free one, has
none of the bits that the first task relies on: those it has found clear and those of the sector
that it is about to write back.
-/

open Function

/-- Where `exfat_alloc_blocks` stands between two sector operations: it goes on to read sector `s` of
the bitmap, to read the sector of bit `i` or to write that sector back, or it has returned. -/
inductive Progress
  | scan (s consecutive start : ℕ)
  | mark (start i : ℕ)
  | store (start i : ℕ) (sector : Bytes)
  | stop (result : ℕ)

namespace Progress

/-- The allocator before its first sector operation. -/
def begin (total count : ℕ) : Progress := if count = 0 ∨ total = 0 then .stop 0 else .scan 0 0 0

/-- The next sector operation and where it leads. -/
def step (lba total count : ℕ) : Progress → Driver Progress
  | .scan s consecutive start => do
    let sector ← exfatSectorRead (lba + s)
    match scanBits sector total count 4096 (4096 * s) consecutive start with
    | .found start => pure (.mark start start)
    | .going consecutive start =>
      pure (if s + 1 < (total + 4095) / 4096 then .scan (s + 1) consecutive start else .stop 0)
  | .mark start i => do
    let sector ← exfatSectorRead (lba + i / 4096)
    pure (.store start i sector)
  | .store start i sector => do
    exfatSectorWrite (lba + i / 4096) (putBit sector (i % 4096) true)
    pure (if i + 1 < start + count then .mark start (i + 1) else .stop (start + 2))
  | .stop result => pure (.stop result)

/-- The first sector operations. -/
def steps (lba total count : ℕ) : ℕ → Progress → Driver Progress
  | 0, p => pure p
  | n + 1, p => do
    let q ← p.step lba total count
    steps lba total count n q

/-- What is left of the allocation. -/
def rest (lba total count : ℕ) : Progress → Driver ℕ
  | .scan s consecutive start => do
    match ← scanSectors lba total count ((total + 4095) / 4096 - s) s consecutive start with
    | none => pure 0
    | some start => do
      storeBits lba (List.range' start count)
      pure (start + 2)
  | .mark start i => do
    storeBits lba (List.range' i (start + count - i))
    pure (start + 2)
  | .store start i sector => do
    exfatSectorWrite (lba + i / 4096) (putBit sector (i % 4096) true)
    storeBits lba (List.range' (i + 1) (start + count - (i + 1)))
    pure (start + 2)
  | .stop result => pure result

/-- The bits that the allocator takes to be its own: the clear ones it has just seen, or its run. -/
def Claims (count : ℕ) : Progress → ℕ → Prop
  | .scan s consecutive _, j => 4096 * s - consecutive ≤ j ∧ j < 4096 * s
  | .mark start _, j | .store start _ _, j => start ≤ j ∧ j < start + count
  | .stop result, j => result ≠ 0 ∧ result ≤ j + 2 ∧ j + 2 < result + count

/-- The bits that the allocator relies on: its own and those of the sector that it writes back. -/
def Holds (count : ℕ) (p : Progress) (j : ℕ) : Prop :=
  p.Claims count j ∨ ∃ start i sector, p = .store start i sector ∧ j / 4096 = i / 4096

end Progress

/-- A task allocates `count` clusters and is interrupted after `n` sector operations by one that
allocates `other`; the first clusters of the two runs. -/
def preemptedAlloc (n count other : ℕ) : Driver (ℕ × ℕ) := do
  let v ← get
  let p ← Progress.steps (exfatClusterLba v 2) v.clusterCount count n (.begin v.clusterCount count)
  let second ← exfatAllocBlocks other
  let first ← p.rest (exfatClusterLba v 2) v.clusterCount count
  pure (first, second)

/-- The clusters of the run that an allocation returns. -/
def returnedRun (first count : ℕ) : Set ℕ := { c | first ≠ 0 ∧ first ≤ c ∧ c < first + count }

/-- Bits of the bitmap are set. -/
def BitsSet (bytes : Bytes) (base start stop : ℕ) : Prop :=
  ∀ j, start ≤ j → j < stop → bitAt bytes (base + j) = true

/-- What the allocator knows about the bitmap. -/
def Progress.Stands (lba total count : ℕ) (bytes : Bytes) : Progress → Prop
  | .scan s consecutive start => 0 < count ∧ s < (total + 4095) / 4096 ∧
      ClearRun bytes (4096 * lba) (4096 * s) consecutive start
  | .mark start i => start ≤ i ∧ i < start + count ∧ start + count ≤ total ∧
      BitsSet bytes (4096 * lba) start i
  | .store start i sector => start ≤ i ∧ i < start + count ∧ start + count ≤ total ∧
      BitsSet bytes (4096 * lba) start i ∧ ∀ k < 512, sector k = sectorAt bytes (lba + i / 4096) k
  | .stop result => result ≠ 0 → ∃ start, result = start + 2 ∧
      BitsSet bytes (4096 * lba) start (start + count)

/-- The sector operations that are left at most. -/
def Progress.left (total count : ℕ) : Progress → ℕ
  | .scan s _ _ => (total + 4095) / 4096 - s + 2 * count
  | .mark start i => 2 * (start + count - i)
  | .store start i _ => 2 * (start + count - i) - 1
  | .stop _ => 0

/-- What a sector operation does: bits stay set, and only clear ones are added to the allocator's own. -/
structure Advances (lba total count : ℕ) (p : Progress) (bytes : Bytes) (q : Progress) (bytes' : Bytes) :
    Prop where
  stands : q.Stands lba total count bytes'
  mono : ∀ j, bitAt bytes (4096 * lba + j) = true → bitAt bytes' (4096 * lba + j) = true
  claims : ∀ j, q.Claims count j → p.Claims count j ∨ bitAt bytes (4096 * lba + j) = false
  less : q.left total count < p.left total count ∨ ∃ result, p = .stop result

variable {bytes : Bytes} {p : Progress} {lba total count i j start : ℕ}

/-- The bit that has been stored is set with those before it. -/
theorem BitsSet.succ (h : BitsSet bytes (4096 * lba) start i) :
    BitsSet (putBit bytes (4096 * lba + i) true) (4096 * lba) start (i + 1) := by
  intro j hlow hhigh
  rw [bitAt_putBit]
  split_ifs
  · rfl
  · exact h j hlow (by omega)

/-- Writing a sector back with one more bit sets this bit. -/
theorem store_ok {sector : Bytes} (hv : v.Ready) (h : lba + i / 4096 < lbaLimit)
    (hsector : ∀ k < 512, sector k = sectorAt bytes (lba + i / 4096) k) :
    exfatSectorWrite (lba + i / 4096) (putBit sector (i % 4096) true) (v.put bytes []) =
      .ok () (v.put (putBit bytes (4096 * lba + i) true) []) := by
  have hready : (v.put bytes []).Ready := hv.put
  have hsame : putSector bytes (lba + i / 4096) (putBit sector (i % 4096) true) =
      putBit bytes (4096 * lba + i) true := by
    rw [← putSector_putBit]
    funext a
    unfold putSector putBit
    split_ifs
    · rw [hsector (i % 4096 / 8) (by omega)]
      by_cases ha : a % 512 = i % 4096 / 8
      · rw [ha, update_self, update_self]
      · rw [update_of_ne ha, update_of_ne ha, hsector (a % 512) (by omega)]
    · rfl
  rw [exfatSectorWrite_quiet hready.quiet (hready.accepts h), v.put_bytes, hsame, v.put_put]

section Machine

variable (hv : v.Ready) (hlba : lba + 8 ≤ lbaLimit) (htotal : total ≤ 32768)
include hv hlba htotal

/-- One sector operation goes on with what is left. -/
theorem Progress.step_ok (hp : p.Stands lba total count bytes) : ∃ q bytes',
    p.step lba total count (v.put bytes []) = .ok q (v.put bytes' []) ∧
    p.rest lba total count (v.put bytes []) = q.rest lba total count (v.put bytes' []) ∧
    Advances lba total count p bytes q bytes' := by
  have hready : (v.put bytes []).Ready := hv.put
  have hread {sector : ℕ} (h : lba + sector < lbaLimit) : exfatSectorRead (lba + sector) (v.put bytes []) =
      .ok (sectorAt bytes (lba + sector)) (v.put bytes []) := by
    rw [exfatSectorRead_quiet hready.quiet (hready.accepts h), v.put_bytes]
  cases p with
  | scan s consecutive start =>
    obtain ⟨hcount, hs, hrun⟩ := hp
    have hsector := hread (by omega : lba + s < lbaLimit)
    have hsound := scanBits_sound count 4096
      (fun j hlow hhigh => bitAt_sectorAt (s := s) (j := j) (by omega)) (.inr hrun : total ≤ _ ∨ _)
    have hleft : (total + 4095) / 4096 - s = ((total + 4095) / 4096 - (s + 1)) + 1 := by omega
    rw [step, bind_ok hsector, rest, hleft, scanSectors, bind_assoc, bind_ok hsector]
    cases hscan : scanBits (sectorAt bytes (lba + s)) total count 4096 (4096 * s) consecutive start with
    | found first =>
      rw [hscan] at hsound
      refine ⟨_, bytes, rfl, ?_, ⟨⟨le_rfl, by omega, hsound.1, fun j _ _ => by omega⟩, fun _ h => h,
        fun j hj => .inr (hsound.2 j hj.1 hj.2), .inl ?_⟩⟩
      · rw [rest, Nat.add_sub_cancel_left]
        rfl
      · rw [left, left]
        omega
    | going consecutive' start' =>
      rw [hscan] at hsound
      split_ifs with hmore
      · have hclear := hsound.resolve_left (by omega)
        refine ⟨_, bytes, rfl, rfl, ⟨⟨hcount, hmore, hclear⟩, fun _ h => h,
          fun j hj => .inr (hclear.2.2 j hj.1 hj.2), .inl ?_⟩⟩
        rw [left, left]
        omega
      · refine ⟨_, bytes, rfl, ?_, ⟨fun h => absurd rfl h, fun _ h => h, fun j hj => absurd rfl hj.1, .inl ?_⟩⟩
        · rw [Nat.sub_eq_zero_of_le (by omega)]
          rfl
        · rw [left, left]
          omega
  | mark start i =>
    obtain ⟨hlow, hhigh, hend, hset⟩ := hp
    have hsector := hread (by omega : lba + i / 4096 < lbaLimit)
    have hleft : start + count - i = (start + count - (i + 1)) + 1 := by omega
    refine ⟨_, bytes, bind_ok hsector, ?_, ⟨⟨hlow, hhigh, hend, hset, fun _ _ => rfl⟩, fun _ h => h,
      fun _ h => .inl h, .inl ?_⟩⟩
    · rw [rest, hleft, range'_succ, storeBits, storeBit, bind_assoc, bind_assoc, bind_ok hsector]
      rfl
    · rw [left, left]
      omega
  | store start i sector =>
    obtain ⟨hlow, hhigh, hend, hset, hsector⟩ := hp
    have hwrite := store_ok hv (by omega) hsector
    have hmono (j : ℕ) (hj : bitAt bytes (4096 * lba + j) = true) :
        bitAt (putBit bytes (4096 * lba + i) true) (4096 * lba + j) = true := by
      rw [bitAt_putBit, hj, ite_self]
    rw [rest, bind_ok hwrite, step, bind_ok hwrite]
    by_cases hmore : i + 1 < start + count
    · rw [if_pos hmore]
      refine ⟨_, _, rfl, rfl, ⟨⟨by omega, hmore, hend, hset.succ⟩, hmono, fun _ h => .inl h, .inl ?_⟩⟩
      rw [left, left]
      omega
    · have hlast : i + 1 = start + count := by omega
      rw [if_neg hmore]
      refine ⟨_, _, rfl, ?_, ⟨fun _ => ⟨start, rfl, hlast ▸ hset.succ⟩, hmono,
        fun j hj => have hin := hj.2; .inl ⟨by omega, by omega⟩, .inl ?_⟩⟩
      · rw [Nat.sub_eq_zero_of_le (by omega)]
        rfl
      · rw [left, left]
        omega
  | stop result => exact ⟨_, bytes, rfl, rfl, ⟨hp, fun _ h => h, fun _ h => .inl h, .inr ⟨result, rfl⟩⟩⟩

/-- The first sector operations go on with what is left. -/
theorem Progress.steps_ok (n : ℕ) (hp : p.Stands lba total count bytes) : ∃ q bytes',
    steps lba total count n p (v.put bytes []) = .ok q (v.put bytes' []) ∧
    p.rest lba total count (v.put bytes []) = q.rest lba total count (v.put bytes' []) ∧
    q.Stands lba total count bytes' := by
  induction n generalizing p bytes with
  | zero => exact ⟨p, bytes, rfl, rfl, hp⟩
  | succ n ih =>
    obtain ⟨q, bytes', hstep, hrest, hadvances⟩ := Progress.step_ok hv hlba htotal hp
    obtain ⟨r, bytes'', hsteps, hrest', hr⟩ := ih hadvances.stands
    exact ⟨r, bytes'', (bind_ok hstep).trans hsteps, hrest.trans hrest', hr⟩

/-- What is left of an allocation ends, and the bits that are set and not its own stay so. -/
theorem Progress.rest_ok (hp : p.Stands lba total count bytes) (indices : List ℕ)
    (hset : ∀ j ∈ indices, bitAt bytes (4096 * lba + j) = true ∧ ¬ p.Claims count j) : ∃ first bytes',
    p.rest lba total count (v.put bytes []) = .ok first (v.put bytes' []) ∧
    (stop first).Stands lba total count bytes' ∧
    ∀ j ∈ indices, bitAt bytes' (4096 * lba + j) = true ∧ ¬ (stop first).Claims count j := by
  induction hleft : p.left total count using Nat.strong_induction_on generalizing p bytes with
  | _ n ih =>
    subst hleft
    obtain ⟨q, bytes', -, hrest, hstands, hmono, hclaims, hless | ⟨result, rfl⟩⟩ :=
      Progress.step_ok hv hlba htotal hp
    · rw [hrest]
      refine ih _ hless hstands (fun j hj => ⟨hmono j (hset j hj).1, fun hclaim => ?_⟩) rfl
      rcases hclaims j hclaim with hbefore | hclear
      · exact (hset j hj).2 hbefore
      · exact absurd ((hset j hj).1.symm.trans hclear) (by decide)
    · exact ⟨result, bytes, rfl, hp, hset⟩

omit hv hlba htotal in
/-- Setting bits that the allocator does not rely on leaves what it knows. -/
theorem Progress.Stands.disturbed {indices : List ℕ} (hp : p.Stands lba total count bytes)
    (hapart : ∀ j ∈ indices, ¬ p.Holds count j) :
    p.Stands lba total count (putBits bytes (4096 * lba) indices true) := by
  have hmono {start stop : ℕ} (h : BitsSet bytes (4096 * lba) start stop) :
      BitsSet (putBits bytes (4096 * lba) indices true) (4096 * lba) start stop := fun j hlow hhigh => by
    rw [bitAt_putBits, h j hlow hhigh, ite_self]
  cases p with
  | scan s consecutive start =>
    obtain ⟨hcount, hs, hle, hstart, hclear⟩ := hp
    refine ⟨hcount, hs, hle, hstart, fun j hlow hhigh => ?_⟩
    rw [bitAt_putBits, if_neg fun hj => hapart j hj (.inl ⟨hlow, hhigh⟩), hclear j hlow hhigh]
  | mark start i => exact ⟨hp.1, hp.2.1, hp.2.2.1, hmono hp.2.2.2⟩
  | store start i sector =>
    obtain ⟨hlow, hhigh, hend, hset, hsector⟩ := hp
    refine ⟨hlow, hhigh, hend, hmono hset, fun k hk => (hsector k hk).trans ?_⟩
    rw [sectorAt, sectorAt, putBits_of_ne fun j hj heq => hapart j hj (.inr ⟨start, i, sector, rfl, by omega⟩)]
  | stop result =>
    intro hresult
    obtain ⟨start, rfl, hset⟩ := hp hresult
    exact ⟨start, rfl, hmono hset⟩

end Machine

/-- An allocation sets the bits of the run that it returns, the lowest one, or changes nothing. -/
theorem alloc_indices (count : ℕ) (hv : v.Ready)
    (htotal : v.clusterCount ≤ 32768) : ∃ first indices,
    exfatAllocBlocks count v = .ok first
      (v.put (putBits v.bytes (4096 * exfatClusterLba v 2) indices true) []) ∧
    (∀ j ∈ indices, ∃ start, First v.bits v.clusterCount count start ∧ start ≤ j ∧ j < start + count) ∧
    ∀ c ∈ returnedRun first count, 2 ≤ c ∧ c - 2 ∈ indices := by
  have hnone := hv.put_bytes.symm
  rcases Nat.eq_zero_or_pos count with rfl | hcount
  · exact ⟨0, [], congrArg _ hnone, fun j hj => absurd hj not_mem_nil, fun c hc => absurd rfl hc.1⟩
  have hrun := exfatAllocBlocks_find hv htotal hcount
  cases hfind : find v.bits v.clusterCount count with
  | none =>
    rw [hfind] at hrun
    exact ⟨0, [], hrun.trans (congrArg _ hnone), fun j hj => absurd hj not_mem_nil, fun c hc => absurd rfl hc.1⟩
  | some start =>
    rw [hfind] at hrun
    refine ⟨_, _, hrun, fun j hj => ⟨start, (find_eq_some_iff hcount).mp hfind, mem_range'_1.mp hj⟩,
      fun c hc => ?_⟩
    obtain ⟨-, hlow, hhigh⟩ := hc
    exact ⟨by omega, mem_range'_1.mpr (by omega)⟩

/-- The allocation of a task that is interrupted after any number of sector operations goes on with
what is left of it. If the run that the other task takes has no bit that the first task relies on, the
two runs are disjoint and all their bits are set in the end. -/
theorem preempted_alloc_disjoint (v : Volume) (n count other : ℕ) (hv : v.Ready)
    (htotal : v.clusterCount ≤ 32768) :
    ∃ p w, Progress.steps (exfatClusterLba v 2) v.clusterCount count n (.begin v.clusterCount count) v = .ok p w ∧
      exfatAllocBlocks count v = p.rest (exfatClusterLba v 2) v.clusterCount count w ∧
      ((∀ start, First w.bits w.clusterCount other start →
          ∀ j, start ≤ j → j < start + other → ¬ p.Holds count j) →
        ∃ first second v', preemptedAlloc n count other v = .ok (first, second) v' ∧
          Disjoint (returnedRun first count) (returnedRun second other) ∧
          ∀ c ∈ returnedRun first count ∪ returnedRun second other, v'.used c = true) := by
  have hlba : exfatClusterLba v 2 + 8 ≤ lbaLimit := by
    have hrange := @bitmap_in_range v _ (by decide : 32767 < 32768)
    omega
  have hbegin : (Progress.begin v.clusterCount count).Stands (exfatClusterLba v 2) v.clusterCount count v.bytes := by
    unfold Progress.begin
    split_ifs with hnone
    · exact fun h => absurd rfl h
    · exact ⟨by omega, by omega, ClearRun.zero⟩
  obtain ⟨p, bytes, hsteps, hrest, hp⟩ := Progress.steps_ok hv hlba htotal n hbegin
  rw [hv.put_bytes] at hsteps hrest
  refine ⟨p, _, hsteps, ?_, fun hapart => ?_⟩
  · obtain ⟨first, bytes', hrun, -⟩ := Progress.rest_ok hv hlba htotal hbegin [] fun j hj => absurd hj not_mem_nil
    rw [hv.put_bytes] at hrun
    rw [← hrest, hrun, exfatAllocBlocks]
    unfold Progress.begin at hrun
    split_ifs with hcount
    · rwa [if_pos (.inl hcount)] at hrun
    refine tryCatch_ok ?_
    rw [get_bind]
    split_ifs at hrun with hnone
    · rwa [hnone.resolve_left hcount]
    · exact hrun
  · have hready : (v.put bytes []).Ready := hv.put
    obtain ⟨second, indices, hother, hindices, hsecond⟩ := alloc_indices other hready htotal
    have hlba' : exfatClusterLba (v.put bytes []) 2 = exfatClusterLba v 2 := rfl
    rw [v.put_put, v.put_bytes, hlba'] at hother
    have hfree (j : ℕ) (hj : j ∈ indices) : ¬ p.Holds count j := by
      obtain ⟨start, hstart, hlow, hhigh⟩ := hindices j hj
      exact hapart start hstart j hlow hhigh
    obtain ⟨first, bytes', hfinish, hfirst, hset⟩ := Progress.rest_ok hv hlba htotal (hp.disturbed hfree)
      indices fun j hj => ⟨by rw [bitAt_putBits, if_pos hj], fun hclaim => hfree j hj (.inl hclaim)⟩
    refine ⟨first, second, v.put bytes' [], ?_, Set.disjoint_left.mpr fun c hc hc' => ?_, fun c hc => ?_⟩
    · rw [preemptedAlloc, get_bind, bind_ok hsteps, bind_ok hother, bind_ok hfinish]
      rfl
    · obtain ⟨htwo, hmem⟩ := hsecond c hc'
      obtain ⟨hne, hlow, hhigh⟩ := hc
      exact (hset _ hmem).2 ⟨hne, by omega, by omega⟩
    · rw [Volume.used, v.put_bytes]
      rcases hc with ⟨hne, hlow, hhigh⟩ | hc
      · obtain ⟨start, rfl, hbits⟩ := hfirst hne
        exact hbits (c - 2) (by omega) (by omega)
      · exact (hset _ (hsecond c hc).2).1

section Examples

/-- The zeroed volume with cluster 3 taken. -/
def gapVolume : Volume := zeroedVolume.put (fun a => if a = 3145728 then 2 else 0) []

/-- A task that has read the bitmap and chosen a run of two clusters behind the gap is not disturbed by
one that takes the gap. -/
theorem preempted_alloc_disjoint_gap : ∃ first second v',
    preemptedAlloc 1 2 1 gapVolume = .ok (first, second) v' ∧
    Disjoint (returnedRun first 2) (returnedRun second 1) ∧
    ∀ c ∈ returnedRun first 2 ∪ returnedRun second 1, v'.used c = true := by
  obtain ⟨p, w, hsteps, -, hrun⟩ := preempted_alloc_disjoint gapVolume 1 2 1 ⟨rfl, rfl⟩ (by decide)
  cases hsteps
  refine hrun fun start hstart j _ hj hholds => ?_
  have hgap : Free gapVolume.bits gapVolume.clusterCount 1 0 := ⟨by decide, by decide +kernel⟩
  have hzero : start = 0 := by
    by_contra hne
    exact hstart.lowest 0 (by omega) hgap
  rcases hholds with hclaim | ⟨_, _, _, hstore, -⟩
  · have hlow : 2 ≤ j := hclaim.1
    omega
  · cases hstore

/-- A task that is interrupted between reading the bitmap and marking its run is given the cluster
that the other one has been given. -/
theorem preempted_alloc_shares : ∃ (v : Volume) (n count other first second : ℕ) (v' : Volume),
    v.Ready ∧ v.clusterCount ≤ 32768 ∧
    preemptedAlloc n count other v = .ok (first, second) v' ∧
    ¬ Disjoint (returnedRun first count) (returnedRun second other) := by
  have hrun : returned (preemptedAlloc 1 1 1 zeroedVolume) = some (2, 2) := by decide +kernel
  refine ⟨zeroedVolume, 1, 1, 1, 2, 2, _, ⟨rfl, rfl⟩, by decide, ok_of_returned hrun, fun h => ?_⟩
  have hmem : 2 ∈ returnedRun 2 1 := ⟨by decide, by decide, by decide⟩
  exact Set.disjoint_left.mp h hmem hmem

end Examples

end Windoge.Exfat
