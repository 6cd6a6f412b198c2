import Windoge.Exec.FreshLoad
import Windoge.Kernel.Task

/-!
# A machine without frames

A machine on which one page is mapped and no frame is left. The next allocation unmaps the
page and frees its frame and its tables, so that the page loop of a mapping request finds
frames for the tables of its first page but has only frame 0 to map there.
-/

namespace Windoge.Kernel

open Paging Exec FrameTree Windoge.Flow Multiset LoadState

/-- Memory of four frames. -/
def fullMemmap : List MemmapEntry := [⟨0x100000, 0x4000, limineMemmapUsable⟩]

variable {s : Mmu} {length start v : ℕ}

theorem fullMemmap_ok : MemmapOk fullMemmap := by
  constructor <;> simp [fullMemmap]

theorem fullMachine_boot : BootState fullMemmap smallMachine := { smallMachine_boot with outside := by decide }

/-- The frames of the machine. -/
def fullFrames : FrameSet := bootFrames fullMemmap_ok fullMachine_boot

/-- A machine with one mapped page and no frame left. -/
structure FullMachine (s : Mmu) (v : ℕ) : Prop where
  spaces : Spaces fullMemmap fullFrames s {(4, 0x1000)} 0
  loaded : s.loaded = 0x1000
  ram : s.outOfRam = false
  upcoming : s.Upcoming fullMemmap []
  mapped : userMapping s 0x1000 (.ofNat 64 v) ≠ none
  only : ∀ w < 0x800000000000, w / 4096 ≠ v / 4096 →
    userMapping s 0x1000 (.ofNat 64 w) = none

/-- For every page there is a machine on which only that page is mapped and no frame is left. -/
theorem exists_fullMachine (hv : v < 0x800000000000) : ∃ s, FullMachine s v := by
  have hspaces := BootState.spaces fullMemmap_ok fullMachine_boot
  have hloaded : (mk smallMachine noProgram).mmu.loaded = 0x1000 := by decide
  have hroot := loaded_mem_singleton hloaded
  have hup : (mk smallMachine noProgram).mmu.Upcoming fullMemmap
      [0x100000, 0x101000, 0x102000, 0x103000] := ⟨[], rfl, by decide⟩
  have hempty : ∀ w < 0x800000000000, userMapping smallMachine 0x1000 (.ofNat 64 w) = none :=
    fun w hw => (empty_space fun i _ => child_zero (by decide)).2 _ (ofNat_user hw)
  obtain ⟨st, hmap, hram, k, -, hup', hexact⟩ := mapNewPage_takes hspaces hroot hv rfl hup (by decide)
  obtain rfl : k = 3 := hexact BitVec.zero_and
  obtain ⟨-, -, hmapped, htouches, hentry, -⟩ := mapNewPage_maps hmap hram hspaces hroot hv
  rw [hloaded] at hmapped htouches hentry
  rw [mappedFrame, hempty v hv] at hmapped
  refine ⟨st.mmu, hmapped, ?_, hram, hup', by rw [hentry]; exact Option.some_ne_none _, ?_⟩
  · exact (loaded_congr htouches.cr3).trans hloaded
  · intro w hw hother
    rw [(htouches.untouched _ (mem_singleton_self _) _ (ofNat_user hw) ?_).1]
    · exact hempty w hw
    · rintro ⟨-, hpath⟩
      exact hother ((pagePath_eq_iff hw hv).mp hpath)

/-- When the allocator has run out on the full machine, its one page is gone and its frames are free. -/
theorem FullMachine.alloc (h : FullMachine s v) :
    ∃ t queue, pmmAllocZeroedPage fullMemmap s = (0, t.reported true) ∧ t.outOfRam = false ∧
      t.loaded = 0x1000 ∧ Spaces fullMemmap fullFrames t {(4, 0x1000)} 0 ∧
      t.Upcoming fullMemmap queue ∧ queue.length = 4 ∧
      ∀ virtAddr < 0x800000000000, userMapping t 0x1000 virtAddr = none := by
  have hforest : ({(4, 0x1000)} : Forest) = (4, s.loaded) ::ₘ 0 := by rw [h.loaded]; rfl
  obtain ⟨t, halloc, hram, hloaded, hspaces, hframes, hnone⟩ := (hforest ▸ h.spaces).alloc_exhausted h.upcoming
  rw [← hforest] at hspaces
  rw [h.loaded] at hframes hnone hloaded
  obtain ⟨queue, hup⟩ := hspaces.balanced.exists_upcoming
  have hcard := congrArg card (hspaces.balanced.upcoming hup)
  have hall : fullFrames.frames.card = 5 := rfl
  rw [forestFrames_singleton, hframes, add_zero, hall] at hcard
  have hlength : queue.length = 4 := by simpa using hcard
  have hback : (t.reported false).reported true = t := by
    rw [← hram]
    rfl
  exact ⟨t.reported false, queue, by rw [hback, halloc], rfl, hloaded, hspaces.reported false, hup,
    hlength, hnone⟩

/-- The page loop of a mapping request on the full machine stops at its first page, and nothing is
mapped afterwards. -/
theorem FullMachine.mapUserPages (h : FullMachine s v)
    {load : Word → Word → Mmu → Option Mmu} {access : Access} {page : Word} {rest : List Word}
    (hpage : page < 0x800000000000)
    (hload : ∀ t t' : Mmu, load page 0 t = some t' → (∀ q ≠ 0, t'.mem q = t.mem q) ∧
      t'.loaded = t.loaded ∧ t'.outOfRam = t.outOfRam) :
    ∃ s', Kernel.mapUserPages fullMemmap load access [] (page :: rest) s = (false, s') ∧ s'.outOfRam = true ∧
      ∀ virtAddr < 0x800000000000, userMapping s' 0x1000 virtAddr = none := by
  have hroot : (4, 0x1000) ∈ ({(4, 0x1000)} : Forest) := mem_singleton_self _
  obtain ⟨t, queue, halloc, hram, hloaded, hspaces, hup, hlength, hnone⟩ := h.alloc
  obtain ⟨-, -, hram₁, -⟩ := hspaces.mapUserPage_takes (hloaded ▸ hroot) hpage hram hup 0 (by omega)
  obtain ⟨hzero, htouches, hpageNone⟩ := hspaces.mapUserPage_zero (hloaded ▸ hroot) hpage hram₁
  have hmap : mapUserPage fullMemmap page 0 (t.reported true) = _ := mapUserPage_reported hram₁
  have hloaded₁ : (mapUserPage fullMemmap page 0 t).loaded = 0x1000 := (loaded_congr htouches.cr3).trans hloaded
  rw [hloaded] at htouches hpageNone
  -- frame 0 maps nothing, and all other pages are gone
  have hall : ∀ virtAddr < 0x800000000000,
      userMapping (mapUserPage fullMemmap page 0 t) 0x1000 virtAddr = none := by
    intro virtAddr hvirt
    by_cases hsame : pagePath virtAddr = pagePath page
    · rw [userMapping_congr hsame, hpageNone]
    · rw [(htouches.untouched _ hroot _ hvirt fun hpath => hsame hpath.2).1, hnone virtAddr hvirt]
  have hstuck : ∀ s' : Mmu, s'.loaded = 0x1000 → userMapping s' 0x1000 page = none →
      unmapUserPages ([] ++ [page]) s' = s' := by
    intro s' hloaded' hnone'
    rw [← hloaded'] at hnone'
    rw [List.nil_append, unmapUserPages, List.foldl_cons, List.foldl_nil, unmapUserPage_unmapped hnone']
  rw [Kernel.mapUserPages, halloc]
  dsimp only
  rw [hmap]
  cases hfilled : load page 0 ((mapUserPage fullMemmap page 0 t).reported true) with
  | none =>
    refine ⟨(mapUserPage fullMemmap page 0 t).reported true, congrArg (Prod.mk false) ?_, rfl, hall⟩
    exact hstuck _ hloaded₁ (hall page hpage)
  | some s₂ =>
    obtain ⟨hmem, hloaded₂, hram₂⟩ := hload _ _ hfilled
    have hloaded₂ := hloaded₂.trans hloaded₁
    have hall₂ : ∀ virtAddr < 0x800000000000, userMapping s₂ 0x1000 virtAddr = none := by
      intro virtAddr hvirt
      rw [hzero.mapping_of_tables hroot (fun below q htable => hmem q ?_) hvirt, hall virtAddr hvirt]
      have hframe := hzero.balanced.mem_all (mem_add.mpr (.inl (mem_forestFrames hroot htable.mem_frames)))
      exact (fullFrames.isFrame q hframe).1
    have hprotect := protectUserPage_unmapped (hloaded₂.symm ▸ hall₂ page hpage) access.present
      access.writeAccess access.executeAccess
    dsimp only
    rw [hprotect]
    exact ⟨s₂, congrArg (Prod.mk false) (hstuck s₂ hloaded₂ (hall₂ page hpage)), hram₂, hall₂⟩

theorem pageAddresses_cons {stop : ℕ} (h : start < stop) :
    ∃ rest, pageAddresses start stop = .ofNat 64 start :: rest := by
  have hpos : 0 < (stop - start + (pageSize - 1)) / pageSize := by
    rw [pageSize]
    omega
  obtain ⟨count, hcount⟩ := Nat.exists_eq_succ_of_ne_zero hpos.ne'
  rw [pageAddresses, hcount, List.range_succ_eq_map, List.map_cons, mul_zero, add_zero]
  exact ⟨_, rfl⟩

/-- A page away from a range. -/
def farPage (start : ℕ) : ℕ := if 2 ^ 40 ≤ start then 0x400000 else 2 ^ 41

theorem farPage_user (start : ℕ) : farPage start < 0x800000000000 := by
  rw [farPage]
  split_ifs <;> decide

theorem farPage_ne {w : ℕ} (hlength : length ≤ userMemoryMaxSize) (hlow : start ≤ w)
    (hhigh : w < start + length) : w / 4096 ≠ farPage start / 4096 := by
  rw [userMemoryMaxSize] at hlength
  rw [farPage]
  split_ifs <;> omega

/-- On the full machine no page of a range away from its page is mapped. -/
theorem FullMachine.rangeMapped (h : FullMachine s (farPage start))
    (hlength : length ≤ userMemoryMaxSize) (hlimit : start + length ≤ 0x800000000000) :
    Kernel.rangeMapped start (start + length) s = false := by
  rw [Kernel.rangeMapped, List.any_eq_false]
  intro page hpage hmapped
  obtain ⟨w, rfl, hlow, hhigh, -⟩ := mem_pageAddresses hpage
  rw [userPageMapped_iff, h.loaded, h.only w (by omega) (farPage_ne hlength hlow hhigh)] at hmapped
  cases hmapped

/-- The page loop of a mapping request over a range on the full machine. -/
theorem FullMachine.mapRange (h : FullMachine s v) (hpos : 0 < length)
    (hlimit : start + length ≤ 0x800000000000) (load : Word → Word → Mmu → Option Mmu)
    (access : Access)
    (hload : ∀ page, ∀ t t' : Mmu, load page 0 t = some t' → (∀ q ≠ 0, t'.mem q = t.mem q) ∧
      t'.loaded = t.loaded ∧ t'.outOfRam = t.outOfRam) :
    ∃ s', Kernel.mapUserPages fullMemmap load access [] (pageAddresses start (start + length)) s =
        (false, s') ∧ s'.outOfRam = true ∧
      ∀ virtAddr < 0x800000000000, userMapping s' 0x1000 virtAddr = none := by
  obtain ⟨rest, hpages⟩ := pageAddresses_cons (Nat.lt_add_of_pos_right hpos : start < start + length)
  rw [hpages]
  exact h.mapUserPages (ofNat_user (by omega)) (hload _)

/-!
## Unmapping in Linux programs

`LINUX_SYS_MUNMAP` compares the length with `USER_ADDRESS_LIMIT - address`, which wraps for an address
behind the limit, and the page walk looks at 48 bits of an address. So the loop may reach a page of the
program under an address that is none of its own.
-/

open List Option

/-- The pages that `LINUX_SYS_MUNMAP` visits; none if it refuses its arguments. -/
def munmapPages (address length : Word) : List Word :=
  if length = 0 ∨ address &&& pageOffsetMask ≠ 0 ∨ userAddressLimit - address < length then []
  else pageAddresses address.toNat (frameOf (address + length + 4095)).toNat

/-- `LINUX_SYS_MUNMAP`. -/
def linuxMunmap (address length : Word) (s : Mmu) : Mmu := unmapUserPages (munmapPages address length) s

/-- The user page that the walk finds for an address, if it starts in the lower half. -/
def walkedPage (page : Word) : Option Word :=
  if page.toNat % 2 ^ 48 < 2 ^ 47 then some (.ofNat 64 (page.toNat % 2 ^ 48)) else none

variable {memmap : List MemmapEntry} {all : FrameSet} {s : Mmu} {forest : Forest} {held : Multiset Word}

/-- The walk takes an address for the user page that has the same 48 bits. -/
theorem unmapUserPage_walked {page user : Word} (h : walkedPage page = some user) :
    (unmapUserPage page s).2 = (unmapUserPage user s).2 ∧ user < userAddressLimit := by
  unfold walkedPage at h
  split_ifs at h with hlower
  cases h
  have hindex (shift : ℕ) := @tableIndex_val shift _ page.isLt
  rw [BitVec.ofNat_toNat, BitVec.setWidth_eq] at hindex
  have hsame (shift : ℕ) (hshift : shift = 39 ∨ shift = 30 ∨ shift = 21 ∨ shift = 12) :
      tableIndex shift page = tableIndex shift (.ofNat 64 (page.toNat % 2 ^ 48)) := by
    rw [Fin.ext_iff, hindex, tableIndex_val (by omega)]
    rcases hshift with rfl | rfl | rfl | rfl <;> omega
  constructor
  · simp only [unmapUserPage, userPageTable, hsame 39, hsame 30, hsame 21, hsame 12, true_or, or_true]
  · exact ofNat_user hlower

/-- In the kernel half there is nothing to unmap. -/
theorem unmapUserPage_kernel {page : Word} (hkernel : KernelHalf s s.loaded) (h : walkedPage page = none) :
    (unmapUserPage page s).2 = s := by
  unfold walkedPage at h
  split_ifs at h
  have hindex := @tableIndex_val 39 _ page.isLt
  rw [BitVec.ofNat_toNat, BitVec.setWidth_eq] at hindex
  have htable := hkernel (tableIndex 39 page) (by omega)
  simp [unmapUserPage, userPageTable, walkUserTables, htable]

/-- Unmapping pages is unmapping the user pages that the walk takes them for. -/
theorem unmapUserPages_walked (pages : List Word) (h : Spaces memmap all s forest held)
    (hroot : (4, s.loaded) ∈ forest) :
    unmapUserPages pages s = (pages.filterMap walkedPage).foldl unmapIfMapped s := by
  induction pages generalizing s with
  | nil => rfl
  | cons page pages ih =>
    rw [unmapUserPages, List.foldl_cons, ← unmapUserPages]
    cases hwalk : walkedPage page with
    | none =>
      rw [unmapUserPage_kernel (h.kernel _ hroot) hwalk, filterMap_cons_none hwalk]
      exact ih h hroot
    | some user =>
      obtain ⟨hsame, huser⟩ := unmapUserPage_walked (s := s) hwalk
      obtain ⟨hs, htouch, -⟩ := h.unmapUserPage hroot huser
      have hstep : unmapIfMapped s user = (unmapUserPage user s).2 := by
        rw [unmapIfMapped]
        split_ifs with hmapped
        · rfl
        · rw [userPageMapped_iff, not_isSome_iff_eq_none] at hmapped
          rw [unmapUserPage_unmapped hmapped]
      rw [hsame, filterMap_cons_some hwalk, List.foldl_cons, hstep]
      exact ih hs (loaded_congr htouch.cr3 ▸ hroot)

variable {address length page user : Word}

/-- The pages that are visited lie in the interval, in the lower half if it starts there. -/
theorem mem_munmapPages (h : page ∈ munmapPages address length) : page.toNat % 4096 = 0 ∧
    address.toNat ≤ page.toNat ∧
    page.toNat + 4096 ≤ (address.toNat + length.toNat + 4095) / 4096 * 4096 ∧
    (address < userAddressLimit → page < userAddressLimit) := by
  unfold munmapPages at h
  split_ifs at h with hrefused
  · cases h
  have hend := toNat_frameOf (address + length + 4095)
  have haligned := pageOffset_eq address
  obtain ⟨k, hk, rfl⟩ := mem_map.mp h
  rw [List.mem_range, pageSize] at hk
  have hzero : pageOffset address = 0 := by
    rw [pageOffset, not_not.mp fun hne => hrefused (.inr (.inl hne))]
    rfl
  rw [pageSize]
  have hpage : (BitVec.ofNat 64 (address.toNat + 4096 * k)).toNat = address.toNat + 4096 * k := by
    rw [BitVec.toNat_ofNat, Nat.mod_eq_of_lt (by omega)]
  bv_omega

section Spaces

variable (h : Spaces memmap all s forest held) (hroot : (4, s.loaded) ∈ forest)

include h hroot

/-- The loop unmaps the user pages that its walks find, and no others. -/
theorem linuxMunmap_spec (address length : Word) :
    (∀ page ∈ munmapPages address length, ∀ user, walkedPage page = some user →
      userMapping (linuxMunmap address length s) s.loaded user = none) ∧
    ∀ virtAddr < userAddressLimit, (∀ page ∈ munmapPages address length, ∀ user, walkedPage page = some user →
        pagePath virtAddr ≠ pagePath user) →
      userMapping (linuxMunmap address length s) s.loaded virtAddr = userMapping s s.loaded virtAddr := by
  rw [linuxMunmap, unmapUserPages_walked _ h hroot]
  obtain ⟨-, htouches, hnone⟩ := Spaces.unmapPages ((munmapPages address length).filterMap walkedPage)
    (fun user huser => by
      obtain ⟨page, -, hwalk⟩ := mem_filterMap.mp huser
      exact (unmapUserPage_walked (s := s) hwalk).2) h hroot
  refine ⟨fun page hpage user hwalk => hnone user (mem_filterMap.mpr ⟨page, hpage, hwalk⟩), ?_⟩
  intro virtAddr hvirt hother
  refine (htouches.untouched _ hroot virtAddr hvirt ?_).1
  rintro ⟨user, huser, -, hpath⟩
  obtain ⟨page, hpage, hwalk⟩ := mem_filterMap.mp huser
  exact hother page hpage user hwalk hpath

end Spaces

/-- In every address space a call unmaps no page outside its interval iff no page that it visits is
taken for a user page that lies elsewhere. -/
theorem munmap_keeps_outside_iff (address length : Word) :
    (∀ memmap all s forest held, Spaces memmap all s forest held → (4, s.loaded) ∈ forest →
      ∀ v < userAddressLimit.toNat, userMapping s s.loaded (.ofNat 64 v) ≠ none →
        userMapping (linuxMunmap address length s) s.loaded (.ofNat 64 v) = none →
          address.toNat ≤ v ∧ v < (address.toNat + length.toNat + 4095) / 4096 * 4096) ↔
    ∀ page ∈ munmapPages address length, page < userAddressLimit ∨ walkedPage page = none := by
  have hlimit : userAddressLimit.toNat = 2 ^ 47 := rfl
  constructor
  · intro hinside page hpage
    by_contra hstray
    rw [not_or, walkedPage] at hstray
    obtain ⟨hhigh, hwalk⟩ := hstray
    split_ifs at hwalk with hlower
    · obtain ⟨s, hs⟩ := exists_fullMachine hlower
      have hroot := loaded_mem_singleton hs.loaded
      have hmapped := hs.mapped
      rw [← hs.loaded] at hmapped
      have hunmapped := (linuxMunmap_spec hs.spaces hroot address length).1 page hpage _ (if_pos hlower)
      have hrange := hinside _ _ _ _ _ hs.spaces hroot _ hlower hmapped hunmapped
      have hstart := (mem_munmapPages hpage).2.2.2
      bv_omega
    · exact hwalk rfl
  · intro hcond memmap all s forest held h hroot v hv hmapped hunmapped
    by_contra hout
    refine hmapped (((linuxMunmap_spec h hroot address length).2 _ (ofNat_user hv) ?_).symm.trans hunmapped)
    intro page hpage user hwalk hpath
    rcases hcond page hpage with hlow | hnone
    · obtain ⟨haligned, hfrom, hto, -⟩ := mem_munmapPages hpage
      rw [walkedPage] at hwalk
      split_ifs at hwalk with hlower
      cases hwalk
      rw [pagePath_eq_iff hv hlower] at hpath
      have hlow : page.toNat < 2 ^ 47 := hlow
      omega
    · rw [hnone] at hwalk
      cases hwalk

/-- A program whose one page is at 4 MiB loses it by unmapping a page at an address of 49 bits. -/
theorem munmap_unmaps_elsewhere : ∃ s, FullMachine s 0x400000 ∧
    userMapping (linuxMunmap 0x1000000400000 0x1000 s) 0x1000 0x400000 = none := by
  obtain ⟨s, hs⟩ := exists_fullMachine (v := 0x400000) (by decide)
  have hroot := loaded_mem_singleton hs.loaded
  have hunmapped := (linuxMunmap_spec hs.spaces hroot 0x1000000400000 0x1000).1 0x1000000400000
    (by decide) 0x400000 (by decide)
  rw [hs.loaded] at hunmapped
  exact ⟨s, hs, hunmapped⟩

end Windoge.Kernel
