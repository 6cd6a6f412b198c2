import Windoge.Paging.MapPages
import Windoge.Paging.FrameUse

/-!
# Tearing address spaces down

`cleanup_user_pages` empties the loaded address space and `destroy_user_pml4` takes an
address space away for good. In marked page tables both give every frame back: what the
address space reached is on the free list afterwards, once, and no other address space has
been touched.
-/

namespace Windoge.Paging

open FrameTree FreeList Multiset Mmu

variable {memmap : List MemmapEntry} {all : FrameSet} {s s' : Mmu} {others : Forest}
  {held : Multiset Word} {root : Word}

/-- An address space without present tables reaches its PML4 only and maps nothing. -/
theorem empty_space (hempty : ∀ i ∈ lowerHalf, pageFormat.child 3 (s.mem root i) = none) :
    frames pageFormat s.mem 4 root = {root} ∧
      ∀ virtAddr < 0x800000000000, userMapping s root virtAddr = none := by
  constructor
  · rw [frames_pml4, Finset.sum_eq_zero fun i hi => frames_of_empty (hempty i hi)]
    rfl
  · intro virtAddr hvirt
    have hslot := hempty _ (tableIndex_lower hvirt)
    have habsent : isUserTable (s.mem root (tableIndex 39 virtAddr)) ≠ true := by
      intro huser
      rw [child_present (by decide) (by decide) (isUserTable_present huser)] at hslot
      cases hslot
    rw [userMapping, tablePath, walkUserTables, if_neg habsent]
    rfl

/-- A marked PML4 after its user tables have been detached has no present entry left. -/
theorem child_detached (hmarked : Marked s s.loaded) (i : Fin 512) (hi : i ∈ lowerHalf) :
    pageFormat.child 3 ((detachUserTables s).mem s.loaded i) = none := by
  have hword : (detachUserTables s).mem s.loaded i =
      if i.val < 256 ∧ isUserTable (s.mem s.loaded i) then 0 else s.mem s.loaded i := by
    simp [detachUserTables, fill]
  have hlower := mem_lowerHalf.mp hi
  by_cases huser : isUserTable (s.mem s.loaded i) = true
  · rw [hword, if_pos ⟨hlower, huser⟩]
    exact child_zero (by decide)
  rw [hword, if_neg fun h => huser h.2]
  apply child_absent (by decide) (by decide)
  by_contra hpresent
  have hflags := (hmarked.2 s.loaded (child_cr3 _) i hi).self
  rw [entryMarked_table (by decide) (by decide)] at hflags
  exact huser (isUserTable_of_flags (hflags hpresent))

theorem collected_marked (hmarked : Marked s s.loaded) (i : Fin 256) :
    Every pageFormat EntryMarked s.mem 3 (collectedEntry s i) := by
  rw [collectedEntry]
  split_ifs
  · exact hmarked.2 s.loaded (child_cr3 _) _ (mem_lowerHalf.mpr i.isLt)
  · exact Every.of_empty (child_zero (by decide)) (entryMarked_zero 3)

namespace Spaces

/-- `cleanup_user_pages` empties the loaded address space, gives all its frames but the PML4
back and leaves all other page tables and held frames alone. -/
theorem cleanupUserPages (h : Spaces memmap all s ((4, s.loaded) ::ₘ others) held) :
    Spaces memmap all (Paging.cleanupUserPages s) ((4, s.loaded) ::ₘ others) held ∧
      Keeps s (Paging.cleanupUserPages s) others held ∧
      frames pageFormat (Paging.cleanupUserPages s).mem 4 s.loaded = {s.loaded} ∧
      ∀ virtAddr < 0x800000000000, userMapping (Paging.cleanupUserPages s) s.loaded virtAddr = none := by
  have hroot : (4, s.loaded) ∈ (4, s.loaded) ::ₘ others := mem_cons_self _ _
  have hmarked := h.space_marked hroot
  have hself : s.loaded ∈ frames pageFormat s.mem 4 s.loaded :=
    follow_mem_frames (follow_nil.trans (child_cr3 s.loaded))
  obtain ⟨hothers, hheld⟩ := apart h.balanced hself
  -- detaching changes the words of the PML4 only
  have hoff : ∀ frame, frame ≠ s.loaded → (detachUserTables s).mem frame = s.mem frame :=
    fun frame hne => Function.update_of_ne hne _ _
  obtain ⟨hdetached, -⟩ := detachUserTables_exact (TableIn.pml4 hroot) h.balanced
  have hcollected : ∀ i ∈ List.finRange 256,
      Every pageFormat EntryMarked (detachUserTables s).mem 3 (collectedEntry s i) := by
    intro i _
    apply (collected_marked hmarked i).congr
    intro frame hframe
    apply hoff
    rintro rfl
    rw [collectedEntry] at hframe
    split_ifs at hframe
    · exact (Table.root (child_cr3 s.loaded)).not_mem_slot (h.balanced.space_nodup hroot)
        (mem_lowerHalf.mpr i.isLt : lowerSlot i ∈ pageFormat.slots 3) hframe
    · rw [frames_of_empty (child_zero (by decide))] at hframe
      exact notMem_zero _ hframe
  obtain ⟨lost, hdone, hloop, hlost⟩ := freeCollected_exact _ _ hdetached
  rw [hlost hcollected, add_zero] at hdone
  have hbalanced := hdone
  have hkeeps := hloop
  have hpml4 : (Paging.cleanupUserPages s).mem s.loaded = (detachUserTables s).mem s.loaded :=
    hkeeps.mem s.loaded (mem_add.mpr (.inl (pml4_mem_forestFrames hroot)))
  have hchild : ∀ i ∈ lowerHalf, pageFormat.child 3 ((Paging.cleanupUserPages s).mem s.loaded i) = none := by
    intro i hi
    rw [hpml4]
    exact child_detached hmarked i hi
  have hkept : Keeps s (Paging.cleanupUserPages s) others held := by
    have hdetach : Keeps s (detachUserTables s) others held := by
      refine ⟨fun frame hframe => hoff frame ?_, rfl, rfl, rfl⟩
      rintro rfl
      exact (mem_add.mp hframe).elim hothers hheld
    have hfreed : Keeps (detachUserTables s) (Paging.cleanupUserPages s) others held := by
      apply hkeeps.mono
      intro frame hframe
      rw [forestFrames_cons, add_assoc]
      exact mem_add.mpr (.inr hframe)
    exact hdetach.trans hfreed
  obtain ⟨hframes, hnone⟩ := empty_space hchild
  refine ⟨⟨hbalanced, ?_, ?_⟩, hkept, hframes, hnone⟩
  · intro top htop
    rcases mem_cons.mp htop with rfl | hother
    · refine ⟨trivial, fun p hp i hi => ?_⟩
      cases (child_cr3 _).symm.trans hp
      have habsent := hchild i hi
      apply Every.of_empty habsent
      rw [entryMarked_table (by decide) (by decide)]
      intro hpresent
      rw [child_present (by decide) (by decide) hpresent] at habsent
      cases habsent
    · exact (h.marked top htop).congr fun frame hframe =>
        hkept.mem frame (mem_add.mpr (.inl (mem_forestFrames hother hframe)))
  · intro space hspace i hi
    have hupper : (Paging.cleanupUserPages s).mem space i = s.mem space i := by
      rcases mem_cons.mp hspace with heq | hother
      · obtain rfl : space = s.loaded := (Prod.mk.inj heq).2
        rw [hpml4]
        simp [detachUserTables, fill, not_lt.mpr hi]
      · exact hkept.upper space hother i hi
    rw [hupper]
    exact h.kernel space hspace i hi

theorem withCr3 {forest : Forest} (h : Spaces memmap all s forest held) (cr3 : Word) :
    Spaces memmap all { s with cr3 := cr3 } forest held :=
  ⟨h.balanced, h.marked, h.kernel⟩

/-- `destroy_user_pml4` takes an address space that is not loaded away, gives all its frames
back and leaves all other page tables and held frames alone. -/
theorem destroyUserPml4 (h : Spaces memmap all s ((4, root) ::ₘ others) held) (hloaded : s.loaded ≠ root) :
    Spaces memmap all (Paging.destroyUserPml4 root s) others held ∧
      (∀ frame ∈ forestFrames pageFormat s.mem others + held,
        (Paging.destroyUserPml4 root s).mem frame = s.mem frame) ∧
      (Paging.destroyUserPml4 root s).loaded = s.loaded ∧
      (Paging.destroyUserPml4 root s).unallocated memmap = s.unallocated memmap := by
  have hframe := h.balanced.fits.isFrame (mem_add.mpr (.inl (pml4_mem_forestFrames (mem_cons_self _ _))))
  -- the machine with the doomed PML4 loaded
  have hswitched := h.withCr3 root
  have hroot : ({ s with cr3 := root } : Mmu).loaded = root := hframe.aligned
  generalize hs : ({ s with cr3 := root } : Mmu) = t at hswitched hroot
  rw [← hroot] at hswitched
  obtain ⟨hclean, hkeeps, hframes, -⟩ := hswitched.cleanupUserPages
  rw [hroot] at hclean hframes
  have hback := hclean.withCr3 s.loaded
  have hopened : Balanced memmap all { Paging.cleanupUserPages t with cr3 := s.loaded } others
      (root ::ₘ held) := by
    apply hback.balanced.regroup
    rw [forestFrames_cons]
    rw [hframes, add_cons, singleton_add, cons_add]
  obtain ⟨hfreed, hfree⟩ := hopened.free
  have hresult : Paging.destroyUserPml4 root s =
      pmmFreePage root { Paging.cleanupUserPages t with cr3 := s.loaded } := by
    rw [Paging.destroyUserPml4, if_neg hframe.1]
    simp only [hframe.aligned, ne_eq, hloaded, not_false_eq_true, if_true, hs]
  have hwithout : Spaces memmap all { Paging.cleanupUserPages t with cr3 := s.loaded } others (root ::ₘ held) :=
    ⟨hopened, fun top htop => hback.marked top (mem_cons_of_mem htop),
      fun space hspace => hback.kernel space (mem_cons_of_mem hspace)⟩
  have hmem : t.mem = s.mem := by rw [← hs]
  rw [hresult]
  refine ⟨(hwithout.keep hfree hfreed).1, fun frame hin => ?_, ?_, ?_⟩
  · have hclear : (Paging.cleanupUserPages t).mem frame = s.mem frame := by
      rw [hkeeps.mem frame (by rwa [hmem]), hmem]
    rw [← hclear]
    apply hfree.mem
    rwa [hkeeps.forestFrames_eq, hmem]
  · rw [loaded, hfree.cr3]
    rw [loaded, BitVec.and_assoc, BitVec.and_self]
  · have hregisters := pmmFreePage_registers root { Paging.cleanupUserPages t with cr3 := s.loaded }
    have hcleaned := cleanupUserPages_registers t
    rw [registers_eq_iff] at hregisters hcleaned
    rw [Mmu.unallocated, Mmu.unallocated, hregisters.1, hregisters.2.1]
    rw [hcleaned.1, hcleaned.2.1, ← hs]

end Spaces

/-!
## The pages of a program

`program_memory_t` lists the page ranges into which a program was loaded. The loader keeps
every range below the user stack, which is part of the type here. `cleanup_program_pages`
unmaps these ranges, page by page, from whatever address space is loaded at the time.
-/

open List Option

/-- `PAGE_SIZE`. -/
def pageSize : ℕ := 4096

/-- `USER_STACK_BASE` of the loader: the lowest address of the eight stack pages. -/
def userStackBase : ℕ := 0x00007FFFFFFF8000

/-- `MAX_ELF_PROGRAM_HEADERS`. -/
def maxElfProgramHeaders : ℕ := 256

/-- `program_region_t`: the pages of one segment, from `start` up to `stop`. -/
structure ProgramRegion where
  start : ℕ
  stop : ℕ
  below : stop ≤ userStackBase

/-- `program_memory_t`. -/
structure ProgramMemory where
  regions : List ProgramRegion
  regionCount : regions.length ≤ maxElfProgramHeaders
  stackBase : ℕ
  stackPages : ℕ
  stackBelow : stackBase + pageSize * stackPages ≤ 0x800000000000

theorem no_regions : ([] : List ProgramRegion).length ≤ maxElfProgramHeaders := by decide

theorem no_stack : 0 + pageSize * 0 ≤ 0x800000000000 := by decide

theorem one_page_below : 0x401000 ≤ userStackBase := by decide

theorem one_region : [(⟨0x400000, 0x401000, one_page_below⟩ : ProgramRegion)].length ≤ maxElfProgramHeaders := by
  decide

/-- The addresses a loop visits that starts at `start` and adds the page size while the
address is below `stop`. -/
def pageAddresses (start stop : ℕ) : List Word :=
  (List.range ((stop - start + (pageSize - 1)) / pageSize)).map fun k =>
    .ofNat 64 (start + pageSize * k)

/-- The addresses `cleanup_program_pages` visits, in order. -/
def ProgramMemory.pages (program : ProgramMemory) : List Word :=
  (program.regions.flatMap fun region => pageAddresses region.start region.stop) ++
    (List.range program.stackPages).map fun i =>
      .ofNat 64 (program.stackBase + i * pageSize)

/-- One round of the loops of `cleanup_program_pages`. -/
def unmapIfMapped (s : Mmu) (virtAddr : Word) : Mmu :=
  if userPageMapped virtAddr s then (unmapUserPage virtAddr s).2 else s

/-- `cleanup_program_pages`. -/
def cleanupProgramPages (program : ProgramMemory) (s : Mmu) : Mmu :=
  program.pages.foldl unmapIfMapped s

variable {forest : Forest} {held : Multiset Word} {frame pml4 : Word}

theorem cleanupProgramPages_registers (program : ProgramMemory) (s : Mmu) :
    (cleanupProgramPages program s).registers = s.registers := by
  apply foldlRecOn (motive := fun t : Mmu => t.registers = s.registers) _ _ rfl
  intro t ht page _
  rw [← ht, unmapIfMapped, unmapUserPage]
  split_ifs
  · split
    · rfl
    dsimp only
    split_ifs
    · exact pmmFreePage_registers _ _
    · rfl
  · rfl

theorem mem_pageAddresses {start stop : ℕ} {page : Word} (h : page ∈ pageAddresses start stop) :
    ∃ n, page = .ofNat 64 n ∧ start ≤ n ∧ n < stop ∧ n % pageSize = start % pageSize := by
  obtain ⟨k, hk, rfl⟩ := mem_map.mp h
  refine ⟨start + pageSize * k, rfl, by omega, ?_, by simp [Nat.add_mod]⟩
  rw [List.mem_range, pageSize] at hk
  rw [pageSize]
  omega

theorem ofNat_user {n : ℕ} (h : n < 0x800000000000) : BitVec.ofNat 64 n < 0x800000000000 := by
  rwa [BitVec.lt_def, BitVec.toNat_ofNat, Nat.mod_eq_of_lt (by omega)]

/-- All pages of a program are user pages. -/
theorem ProgramMemory.pages_user (program : ProgramMemory) : ∀ page ∈ program.pages, page < 0x800000000000 := by
  intro page hpage
  rcases mem_append.mp hpage with hregion | hstack
  · obtain ⟨region, -, hin⟩ := mem_flatMap.mp hregion
    obtain ⟨n, rfl, -, hn, -⟩ := mem_pageAddresses hin
    have hbelow := region.below
    rw [userStackBase] at hbelow
    exact ofNat_user (by omega)
  · obtain ⟨i, hi, rfl⟩ := mem_map.mp hstack
    have hbelow := program.stackBelow
    rw [List.mem_range] at hi
    rw [pageSize] at hbelow ⊢
    exact ofNat_user (by omega)

theorem userMapping_congr {root virtAddr other : Word} (h : pagePath other = pagePath virtAddr) :
    userMapping s root other = userMapping s root virtAddr := by
  simp only [pagePath, tablePath, cons_append, nil_append, cons.injEq, and_true] at h
  rw [userMapping, userMapping, tablePath, tablePath, h.1, h.2.1, h.2.2.1, h.2.2.2]

namespace Spaces

/-- Unmapping pages one after the other touches these pages only, and none of them is mapped
afterwards. -/
theorem unmapPages (pages : List Word) (hpages : ∀ page ∈ pages, page < 0x800000000000)
    (h : Spaces memmap all s forest held) (hroot : (4, s.loaded) ∈ forest) :
    Spaces memmap all (pages.foldl unmapIfMapped s) forest held ∧
      (Touches s (pages.foldl unmapIfMapped s) forest held fun space other =>
        ∃ page ∈ pages, SamePage s.loaded page space other) ∧
      ∀ page ∈ pages, userMapping (pages.foldl unmapIfMapped s) s.loaded page = none := by
  induction pages generalizing s with
  | nil => exact ⟨h, .refl, forall_mem_nil _⟩
  | cons page pages ih =>
    have hpage := hpages page mem_cons_self
    -- one round: the page is unmapped and no other page is touched
    have hround : Spaces memmap all (unmapIfMapped s page) forest held ∧
        Touches s (unmapIfMapped s page) forest held (SamePage s.loaded page) ∧
        userMapping (unmapIfMapped s page) s.loaded page = none := by
      rw [unmapIfMapped]
      split_ifs with hmapped
      · exact h.unmapUserPage hroot hpage
      · rw [userPageMapped_iff, not_isSome_iff_eq_none] at hmapped
        exact ⟨h, .refl, hmapped⟩
    obtain ⟨hs, htouch, hnone⟩ := hround
    have hloaded : (unmapIfMapped s page).loaded = s.loaded := by rw [Mmu.loaded, Mmu.loaded, htouch.cr3]
    rw [← hloaded] at hroot
    obtain ⟨hdone, hrest, hall⟩ := ih (fun q hq => hpages q (mem_cons_of_mem page hq)) hs hroot
    rw [hloaded] at hrest hall hroot
    rw [List.foldl_cons]
    refine ⟨hdone, (htouch.mono ?_ fun _ hin => hin).trans (hrest.mono ?_ fun _ hin => hin), ?_⟩
    · exact fun space other hsame => ⟨page, mem_cons_self, hsame⟩
    · exact fun space other hpage => hpage.imp fun q hq => ⟨mem_cons_of_mem page hq.1, hq.2⟩
    · intro q hq
      rcases mem_cons.mp hq with rfl | hlater
      · by_cases hagain : ∃ r ∈ pages, pagePath q = pagePath r
        · obtain ⟨r, hr, hpath⟩ := hagain
          rw [userMapping_congr hpath]
          exact hall r hr
        · have huntouched := hrest.untouched s.loaded hroot q hpage (by
            rintro ⟨r, hr, -, hpath⟩
            exact hagain ⟨r, hr, hpath⟩)
          exact huntouched.1.trans hnone
      · exact hall q hlater

theorem unmapPages_unmapped {pages : List Word}
    (h : ∀ page ∈ pages, userPageMapped page s = false) : pages.foldl unmapIfMapped s = s := by
  induction pages with
  | nil => rfl
  | cons page pages ih =>
    rw [List.foldl_cons, unmapIfMapped, h page mem_cons_self]
    exact ih fun q hq => h q (mem_cons_of_mem page hq)

end Spaces

/-!
## New frames and new address spaces

Where address spaces come from: the boot state has one, `create_user_pml4` makes another,
and both start empty. Allocating a frame touches no page of any address space.
-/

theorem marked_empty (hzero : ∀ i : Fin 512, i.val < 256 → s.mem pml4 i = 0) : Marked s pml4 := by
  refine ⟨trivial, fun p hp i hi => ?_⟩
  cases (child_cr3 pml4).symm.trans hp
  rw [hzero i (mem_lowerHalf.mp hi)]
  exact Every.of_empty (child_zero (by decide)) (entryMarked_zero 3)

/-- The machine at boot has one address space, which is empty. -/
theorem BootState.spaces (hmap : MemmapOk memmap) (hboot : BootState memmap s) :
    Spaces memmap (bootFrames hmap hboot) s {(4, s.loaded)} 0 := by
  refine ⟨hboot.balanced hmap, fun top htop => ?_, fun root hroot => ?_⟩
  · rw [Multiset.mem_singleton.mp htop]
    exact marked_empty hboot.lower
  · obtain rfl : root = s.loaded := (Prod.mk.inj (Multiset.mem_singleton.mp hroot)).2
    exact hboot.kernel

namespace Spaces

/-- Allocating a frame touches no page; the frame is held and zero filled. -/
theorem pmmAllocZeroedPage (h : Spaces memmap all s forest held)
    (hcall : Paging.pmmAllocZeroedPage memmap s = (frame, s')) (hram : s'.outOfRam = false) :
    Spaces memmap all s' forest (frame ::ₘ held) ∧
      (Touches s s' forest held fun _ _ => False) ∧ s'.mem frame = fun _ => 0 := by
  obtain ⟨htaken, hkeeps, hzero⟩ := pmmAllocZeroedPage_balanced hcall hram h.balanced
  obtain ⟨hdone, htouches⟩ := h.keep hkeeps htaken
  exact ⟨hdone, htouches, hzero⟩

/-- `create_user_pml4` adds an empty address space and touches no page of the others. -/
theorem createUserPml4 (h : Spaces memmap all s forest held)
    (hused : s.loaded ∈ forestFrames pageFormat s.mem forest + held) (hkernel : KernelHalf s s.loaded)
    (hcall : Paging.createUserPml4 memmap s = (pml4, s')) (hram : s'.outOfRam = false) :
    Spaces memmap all s' ((4, pml4) ::ₘ forest) held ∧ (Touches s s' forest held fun _ _ => False) ∧
      frames pageFormat s'.mem 4 pml4 = {pml4} ∧
      ∀ virtAddr < 0x800000000000, userMapping s' pml4 virtAddr = none := by
  obtain ⟨hheld, hkeeps, hlower, hupper⟩ := createUserPml4_balanced h.balanced hused hcall hram
  obtain ⟨hspaces, htouches⟩ := h.keep hkeeps hheld
  have hchild : ∀ i ∈ lowerHalf, pageFormat.child 3 (s'.mem pml4 i) = none := by
    intro i hi
    rw [hlower i (mem_lowerHalf.mp hi)]
    exact child_zero (by decide)
  obtain ⟨hframes, hnone⟩ := empty_space hchild
  refine ⟨⟨hheld.freshPml4 hlower, fun top htop => ?_, fun root hin i hi => ?_⟩, htouches, hframes, hnone⟩
  · rcases Multiset.mem_cons.mp htop with rfl | hother
    · exact marked_empty hlower
    · exact hspaces.marked top hother
  · rcases Multiset.mem_cons.mp hin with heq | hother
    · obtain rfl : root = pml4 := (Prod.mk.inj heq).2
      rw [hupper i hi]
      exact hkernel i hi
    · exact hspaces.kernel root hother i hi

end Spaces

end Windoge.Paging
