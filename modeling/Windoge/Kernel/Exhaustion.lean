import Windoge.Exec.Launch
import Windoge.Kernel.FullMachine

/-!
# Requests that meet an empty allocator

A request for memory should fail cleanly when the allocator runs out. None of the four
does: `pmm_alloc_zeroed_page` itself unmaps everything the caller has, `map_user_page`
goes on with frame 0, and `brk` does not look at the result at all. So the requests that
are safe are exactly those that ask for no frame.
-/

namespace Windoge.Kernel

open Paging Exec FrameTree Windoge.Flow Option List Prod

/-- A request that may take frames from the allocator. -/
inductive MemoryRequest where
  | mapUserMemory (address length : ℕ) (permissions : Word)
  | brk (address : ℕ)
  | mmap (address length : ℕ) (protection flags : Word) (fd offset : ℕ)
  | runElf (fs : FileReads) (filename : Option (List UInt8)) (size : ℕ) (argc : ℤ) (argv : Option Argv)

/-- What a request does, and whether it reports success. -/
def MemoryRequest.run (memmap : List MemmapEntry) (fs : FileReads) (context : LinuxContext) (s : Mmu) :
    MemoryRequest → Bool × Mmu
  | .mapUserMemory address length permissions =>
    let result := nativeUserMemoryMap memmap address length permissions s
    (result.1.isSome, result.2)
  | .brk address =>
    let result := linuxBrk memmap address context s
    (result.1 = address, result.2.2)
  | .mmap address length protection flags fd offset =>
    let result := linuxMmap memmap fs address length protection flags fd offset context s
    (result.1.isOk, result.2.2)
  | .runElf fs filename size argc argv =>
    match systemRunElfArgsImpl memmap fs filename size argc argv ⟨s, noProgram⟩ with
    | .ok _ st => (true, st.mmu)
    | .error _ st => (false, st.mmu)

/-- An entry of a user page table of the address space is present and refers to frame 0. -/
def ZeroEntry (s : Mmu) (root : Word) : Prop :=
  ∃ path table i, path.length ≤ 3 ∧ (∀ j ∈ (path ++ [i]).head?, j.val < 256) ∧
    walkUserTables s root path = some table ∧ s.mem table i &&& pagePresent ≠ 0 ∧
    s.mem table i &&& pageAddressMask = 0

/-- A request failed cleanly: it says so, no entry refers to frame 0, and everything that was mapped
still is. -/
structure FailsCleanly (s s' : Mmu) (success : Bool) : Prop where
  reported : success = false
  entries : ¬ ZeroEntry s' s.loaded
  mappings : ∀ virtAddr < 0x800000000000, ∀ entry,
    userMapping s s.loaded virtAddr = some entry → userMapping s' s.loaded virtAddr = some entry

/-- The heap of a Linux program starts at the heap base or behind it, and ends behind its start. -/
structure LinuxContext.HeapOk (context : LinuxContext) : Prop where
  start : userHeapBase ≤ context.heapStart
  grown : context.heapStart ≤ context.programBreak

/-- A descriptor of a file that can be read. -/
def LinuxFd.forReading (path : String) : LinuxFd := ⟨true, true, false, false, false, false, 0, path⟩

/-- A request asks for a frame, unless pages that are mapped already keep it from doing so. -/
def MemoryRequest.Allocates : MemoryRequest → Prop
  | .mapUserMemory address length permissions =>
    permissions &&& ~~~7 = 0 ∧ validUserMemoryRange address length ≠ none
  | .brk address => userHeapBase < address ∧ address < userMmapBase - pageSize
  | .mmap address length protection flags fd offset =>
    (flags &&& linuxMapAnon = 0 → fd < 32) ∧
      mmapError address length protection flags (some (.forReading "")) offset = none
  | .runElf fs filename size _ _ =>
    ∃ ehdr earlier phdr later, FirstPage fs (filename.getD []) size ehdr earlier phdr later

/-- A request that leaves nothing mapped on the full machine did not fail cleanly. -/
theorem FullMachine.not_cleanly {s s' : Mmu} {v : ℕ} {success : Bool} (h : FullMachine s v)
    (hv : v < 0x800000000000) (hnone : ∀ virtAddr < 0x800000000000, userMapping s' 0x1000 virtAddr = none) :
    ¬ FailsCleanly s s' success := by
  intro hclean
  obtain ⟨entry, hentry⟩ := ne_none_iff_exists'.mp h.mapped
  have hkept := hclean.mappings _ (ofNat_user hv) entry (h.loaded.symm ▸ hentry)
  rw [h.loaded, hnone _ (ofNat_user hv)] at hkept
  cases hkept

/-- The Linux state of a program that has just started; all its descriptors can be read. -/
def freshContext : LinuxContext := ⟨fun _ => .forReading "", userHeapBase, userMmapBase, userHeapBase⟩

theorem freshContext_heapOk : freshContext.HeapOk := ⟨le_rfl, le_rfl⟩

/-- The request meets an empty allocator on some machine and does not fail cleanly there. -/
def MemoryRequest.FailsBadly (r : MemoryRequest) : Prop :=
  ∃ s v, FullMachine s v ∧ ∀ fs success s', r.run fullMemmap fs freshContext s = (success, s') →
    s'.outOfRam = true ∧ ¬ FailsCleanly s s' success

variable {address length offset : ℕ} {protection flags : Word} {fs : FileReads}

/-- A range that is accepted is not empty, not too long and ends at the limit at most. -/
theorem validUserMemoryRange_some {rounded : ℕ} (h : validUserMemoryRange address length = some rounded) :
    0 < rounded ∧ rounded ≤ userMemoryMaxSize ∧ address + rounded ≤ 0x800000000000 := by
  have hlimit : userAddressLimit.toNat = 0x800000000000 := rfl
  rw [validUserMemoryRange, hlimit] at h
  split_ifs at h with hrange hround
  cases h
  simp only [not_or, not_lt, not_le, ne_eq, not_not] at hrange hround
  rw [userMemoryMaxSize] at hrange ⊢
  rw [alignUpPage, pageSize] at hround ⊢
  omega

/-- `native_user_memory_map` fails badly. -/
theorem mapUserMemory_fails_badly {permissions : Word}
    (h : (MemoryRequest.mapUserMemory address length permissions).Allocates) :
    (MemoryRequest.mapUserMemory address length permissions).FailsBadly := by
  obtain ⟨hpermissions, hvalid⟩ := h
  obtain ⟨rounded, hrounded⟩ := ne_none_iff_exists'.mp hvalid
  obtain ⟨hpos, hmax, hlimit⟩ := validUserMemoryRange_some hrounded
  obtain ⟨s, hfull⟩ := exists_fullMachine (farPage_user address)
  refine ⟨s, _, hfull, fun fs success s' hrun => ?_⟩
  obtain ⟨t, hloop, hram, hnone⟩ := hfull.mapRange hpos hlimit (fun _ _ s => some s) (.ofWord permissions) (by
      intro _ t t' heq
      cases heq
      exact ⟨fun _ _ => rfl, rfl, rfl⟩)
  have hcall : nativeUserMemoryMap fullMemmap address length permissions s = (none, t) := by
    rw [nativeUserMemoryMap, if_neg (not_not.mpr hpermissions), hrounded]
    dsimp only
    rw [hfull.rangeMapped hmax hlimit, if_neg Bool.false_ne_true, hloop]
  rw [MemoryRequest.run, hcall] at hrun
  cases hrun
  exact ⟨hram, hfull.not_cleanly (farPage_user address) hnone⟩

/-- Mapping pages does not take the out-of-memory report back. -/
theorem mapNewPages_report (memmap : List MemmapEntry) {pages : List Word} {s : Mmu} (h : s.outOfRam = true) :
    (pages.foldl (fun s page =>
      let (physical, s) := pmmAllocZeroedPage memmap s
      mapUserPage memmap page physical s) s).outOfRam = true := by
  apply foldlRecOn (motive := fun t : Mmu => t.outOfRam = true) _ _ h
  intro t ht page _
  have halloc : (pmmAllocZeroedPage memmap t).2.outOfRam = true := pmmAllocZeroedPage_outOfRam ht
  cases hcall : pmmAllocZeroedPage memmap t with
  | mk physical t' =>
    rw [hcall] at halloc
    by_contra hfalse
    rw [mapUserPage_report (Bool.eq_false_of_not_eq_true hfalse)] at halloc
    cases halloc

/-- `brk` fails badly: it reports success. -/
theorem brk_fails_badly (h : (MemoryRequest.brk address).Allocates) : (MemoryRequest.brk address).FailsBadly := by
  obtain ⟨hlow, hhigh⟩ := h
  obtain ⟨s, hfull⟩ := exists_fullMachine (by decide : 0x400000 < 0x800000000000)
  refine ⟨s, _, hfull, fun fs success s' hrun => ?_⟩
  obtain ⟨t, queue, halloc, -⟩ := hfull.alloc
  have hold : alignUpPage freshContext.programBreak = userHeapBase := by decide
  have hmore : userHeapBase < alignUpPage address := by
    rw [userHeapBase] at hlow ⊢
    rw [alignUpPage, pageSize]
    omega
  have hlimit : alignUpPage address < 0x800000000000 := by
    rw [userMmapBase, pageSize] at hhigh
    rw [alignUpPage, pageSize]
    omega
  have hunmapped : rangeMapped userHeapBase (alignUpPage address) s = false := by
    rw [rangeMapped, List.any_eq_false]
    intro page hpage hmapped
    obtain ⟨w, rfl, hstart, hstop, -⟩ := mem_pageAddresses hpage
    rw [userHeapBase] at hstart
    rw [userPageMapped_iff, hfull.loaded, hfull.only w (by omega) (by omega)] at hmapped
    cases hmapped
  obtain ⟨rest, hpages⟩ := pageAddresses_cons hmore
  have hcheck : ¬ (address = 0 ∨ address < freshContext.heapStart ∨ userMmapBase - pageSize ≤ address) := by
    have hstart : freshContext.heapStart = userHeapBase := rfl
    rw [hstart]
    omega
  have hcall : ∃ t, linuxBrk fullMemmap address freshContext s =
      (address, { freshContext with programBreak := address }, t) ∧ t.outOfRam = true := by
    rw [linuxBrk, if_neg hcheck]
    rw [hold, if_pos hmore, hunmapped, if_neg Bool.false_ne_true, hpages, foldl_cons, halloc]
    refine ⟨_, rfl, mapNewPages_report fullMemmap ?_⟩
    by_contra hfalse
    have hreport := mapUserPage_report (Bool.eq_false_of_not_eq_true hfalse)
    cases hreport
  obtain ⟨t', hcall, hram⟩ := hcall
  rw [MemoryRequest.run, hcall] at hrun
  cases hrun
  refine ⟨hram, fun hclean => ?_⟩
  have hreported := hclean.reported
  simp at hreported

theorem mmapError_anonymous (h : flags &&& linuxMapAnon ≠ 0) (fd fd' : Option LinuxFd) :
    mmapError address length protection flags fd offset =
      mmapError address length protection flags fd' offset := by
  have hfile := eq_false (not_not.mpr h)
  simp only [mmapError, hfile, false_and, if_false]

/-- What the checks of `linux_map_memory` make sure of. -/
theorem mmapError_none {fd : Option LinuxFd} (h : mmapError address length protection flags fd offset = none) :
    0 < alignUpPage length ∧ alignUpPage length ≤ userMemoryMaxSize ∧
      (flags &&& linuxMapFixed ≠ 0 → address + alignUpPage length ≤ userMmapLimit) := by
  simp only [mmapError] at h
  split_ifs at h with hlength _ _ _ _ _ hfixed
  rw [not_or, not_or] at hlength
  have hbounds : 0 < alignUpPage length ∧ alignUpPage length ≤ userMemoryMaxSize := by
    rw [alignUpPage, userMemoryMaxSize, pageSize]
    omega
  refine ⟨hbounds.1, hbounds.2, fun hflag => ?_⟩
  have hrange := not_and.mp hfixed hflag
  omega

theorem unmapUserPages_unmapped {pages : List Word} {s : Mmu}
    (h : ∀ page ∈ pages, userMapping s s.loaded page = none) : unmapUserPages pages s = s := by
  induction pages with
  | nil => rfl
  | cons page rest ih =>
    rw [unmapUserPages, foldl_cons, unmapUserPage_unmapped (h page mem_cons_self)]
    exact ih fun q hq => h q (mem_cons_of_mem page hq)

/-- A part of a file that is read into frame 0 changes no other frame. -/
theorem mmapLoad_zero {page : Word} {fd : Option LinuxFd} {t t' : Mmu}
    (h : mmapLoad fs flags fd address offset page 0 t = some t') :
    (∀ q ≠ 0, t'.mem q = t.mem q) ∧ t'.loaded = t.loaded ∧ t'.outOfRam = t.outOfRam := by
  rw [mmapLoad] at h
  split_ifs at h
  · cases h
    exact ⟨fun _ _ => rfl, rfl, rfl⟩
  obtain ⟨bytes, -, rfl⟩ := map_eq_some_iff.mp h
  refine ⟨fun q hq => putBytes_mem (fun i hi => ?_) t, putBytes_loaded _ _ _, putBytes_outOfRam _ _ _⟩
  rw [length_take, pageSize] at hi
  rw [(frameOf_add (by decide) (by omega)).1]
  exact hq.symm

/-- The range that a mapping request gets on the full machine. -/
theorem mmapHint_fresh (address : ℕ) {mapLength : ℕ} (h : mapLength ≤ userMemoryMaxSize) :
    userMmapBase ≤ mmapHint freshContext address mapLength ∧
      mmapHint freshContext address mapLength + mapLength ≤ userMmapLimit := by
  have hcursor : alignUpPage freshContext.mmapCursor % 2 ^ 64 = userMmapBase := by decide
  rw [userMemoryMaxSize] at h
  rw [mmapHint, hcursor]
  split_ifs with hhint
  · rw [userMmapBase, userMmapLimit]
    omega
  · rw [not_or, not_or] at hhint
    omega

/-- `mmap` fails badly. -/
theorem mmap_fails_badly {fd : ℕ} (h : (MemoryRequest.mmap address length protection flags fd offset).Allocates) :
    (MemoryRequest.mmap address length protection flags fd offset).FailsBadly := by
  obtain ⟨hfd, herror⟩ := h
  obtain ⟨hpos, hmax, hfixed⟩ := mmapError_none herror
  obtain ⟨start, hstart⟩ : ∃ start, start = if flags &&& linuxMapFixed ≠ 0 then address
    else mmapHint freshContext address (alignUpPage length) := ⟨_, rfl⟩
  have hlimit : start + alignUpPage length ≤ userMmapLimit := by
    rw [hstart]
    split_ifs with hflag
    · exact hfixed hflag
    · exact (mmapHint_fresh address hmax).2
  have huser : start + alignUpPage length ≤ 0x800000000000 := hlimit.trans (by decide)
  obtain ⟨s, hfull⟩ := exists_fullMachine (farPage_user start)
  refine ⟨s, _, hfull, fun fs success s' hrun => ?_⟩
  have hrange := hfull.rangeMapped hmax huser
  have hfile : mmapError address length protection flags
      (if flags &&& linuxMapAnon = 0 then getFileDescriptor freshContext fd else none) offset = none := by
    split_ifs with hanon
    · rwa [getFileDescriptor, dif_pos (hfd hanon)]
    · rw [mmapError_anonymous hanon, herror]
  have hsearch : (if flags &&& linuxMapFixed ≠ 0 then address
      else findUnmapped s (alignUpPage length) (mmapHint freshContext address (alignUpPage length))) =
        start := by
    split_ifs at hstart ⊢
    · exact hstart.symm
    · rw [← hstart, findUnmapped, if_neg]
      rw [hrange]
      exact fun hfound => Bool.false_ne_true hfound.2.2.2
  have hunmap : unmapUserPages (pageAddresses start (start + alignUpPage length)) s = s := by
    apply unmapUserPages_unmapped
    intro page hpage
    obtain ⟨w, rfl, hlow, hhigh, -⟩ := mem_pageAddresses hpage
    rw [hfull.loaded]
    exact hfull.only w (by omega) (farPage_ne hmax hlow hhigh)
  obtain ⟨t, hloop, hram, hnone⟩ := hfull.mapRange hpos huser
    (mmapLoad fs flags (if flags &&& linuxMapAnon = 0 then getFileDescriptor freshContext fd else none)
      start offset) (.ofWord protection) fun _ _ _ hload => mmapLoad_zero hload
  have hcall : linuxMmap fullMemmap fs address length protection flags fd offset freshContext s =
      (.error 22, freshContext, t) := by
    rw [linuxMmap, linuxMapMemory, hfile]
    dsimp only
    rw [hsearch, if_neg (by omega), hrange, if_neg (fun hboth => Bool.false_ne_true hboth.2), hunmap,
      ite_self, hloop]
  rw [MemoryRequest.run, hcall] at hrun
  cases hrun
  exact ⟨hram, hfull.not_cleanly (farPage_user start) hnone⟩

/-- An ELF load fails badly. -/
theorem runElf_fails_badly {filename : Option (List UInt8)} {size : ℕ} {argc : ℤ} {argv : Option Argv}
    (h : (MemoryRequest.runElf fs filename size argc argv).Allocates) :
    (MemoryRequest.runElf fs filename size argc argv).FailsBadly := by
  obtain ⟨ehdr, earlier, phdr, later, hfirst⟩ := h
  obtain ⟨s, hfull⟩ := exists_fullMachine (by decide : 0x400000 < 0x800000000000)
  refine ⟨s, _, hfull, fun _ success s' hrun => ?_⟩
  obtain ⟨t, queue, halloc, -, hloaded, -, -, -, hnone⟩ := hfull.alloc
  obtain ⟨program, hcall⟩ := hfirst.run_exhausted argc argv halloc
  have hclean : cleanupProgramPages program (t.reported true) = t.reported true := by
    apply Spaces.unmapPages_unmapped
    intro page hpage
    have hgone : userMapping (t.reported true) (t.reported true).loaded page = none := by
      have hroot : (t.reported true).loaded = 0x1000 := hloaded
      rw [hroot]
      exact hnone page (program.pages_user page hpage)
    rw [← Bool.not_eq_true, userPageMapped_iff, hgone]
    exact nofun
  rw [MemoryRequest.run, hcall, hclean] at hrun
  cases hrun
  exact ⟨rfl, hfull.not_cleanly (by decide) hnone⟩

theorem unmapUserPages_outOfRam (pages : List Word) (s : Mmu) :
    (unmapUserPages pages s).outOfRam = s.outOfRam := by
  apply foldlRecOn (motive := fun t : Mmu => t.outOfRam = s.outOfRam) _ _ rfl
  intro t ht page _
  rw [← ht, unmapUserPage]
  split
  · rfl
  dsimp only
  split_ifs
  · exact (registers_eq_iff.mp (pmmFreePage_registers _ _)).2.2.2.2
  · rfl

theorem alignUpPage_mono {a b : ℕ} (h : a ≤ b) : alignUpPage a ≤ alignUpPage b := by
  rw [alignUpPage, alignUpPage, pageSize]
  omega

/-- A mapping request that passes the checks with its own descriptor passes them with a good one. -/
theorem mmapError_forReading {fd : ℕ} {context : LinuxContext} (h : mmapError address length protection flags
      (if flags &&& linuxMapAnon = 0 then getFileDescriptor context fd else none) offset = none) :
    (flags &&& linuxMapAnon = 0 → fd < 32) ∧
      mmapError address length protection flags (some (.forReading "")) offset = none := by
  split_ifs at h with hanon
  · have hfile := eq_true (not_not.mpr hanon)
    simp only [mmapError, hfile, true_and] at h ⊢
    split_ifs at h with hlength hdescriptor hshared hprotection hround hoffset hfixed
    rw [if_neg hlength, if_neg hshared, if_neg hprotection, if_neg hround, if_neg hoffset, if_neg hfixed]
    cases hfd : getFileDescriptor context fd with
    | none =>
      rw [hfd] at hdescriptor
      exact absurd rfl hdescriptor
    | some file =>
      rw [hfd, all_some] at hdescriptor
      have hlt : fd < 32 := by
        by_contra hge
        rw [getFileDescriptor, dif_neg hge] at hfd
        cases hfd
      have haligned : offset % pageSize = 0 := by
        by_contra hne
        exact hdescriptor (by simp [hne])
      refine ⟨fun _ => hlt, if_neg ?_⟩
      simp [LinuxFd.forReading, haligned]
  · exact ⟨fun hzero => absurd hzero hanon, by rw [mmapError_anonymous hanon, h]⟩

/-- A request that asks for no frame reports nothing about memory. -/
theorem MemoryRequest.run_outOfRam (r : MemoryRequest) {memmap : List MemmapEntry}
    {context : LinuxContext} (hheap : context.HeapOk) (hno : ¬ r.Allocates) (s : Mmu) :
    (r.run memmap fs context s).2.outOfRam = s.outOfRam := by
  cases r with
  | mapUserMemory address length permissions =>
    rw [MemoryRequest.run, nativeUserMemoryMap]
    split_ifs with hpermissions
    · rfl
    have hnone : validUserMemoryRange address length = none := by
      by_contra hsome
      exact hno ⟨not_not.mp hpermissions, hsome⟩
    rw [hnone]
  | brk address =>
    rw [MemoryRequest.run, linuxBrk]
    dsimp only
    split_ifs
    · rfl
    · rfl
    · have hstart := hheap.start
      have hgrown := hheap.grown
      have hlow : ¬ userHeapBase < address := fun hlt => hno ⟨hlt, by omega⟩
      have hless := alignUpPage_mono (by omega : address ≤ context.programBreak)
      omega
    · exact unmapUserPages_outOfRam _ s
  | mmap address length protection flags fd offset =>
    rw [MemoryRequest.run, linuxMmap, linuxMapMemory]
    cases herror : mmapError address length protection flags
        (if flags &&& linuxMapAnon = 0 then getFileDescriptor context fd else none) offset with
    | none => exact absurd (mmapError_forReading herror) hno
    | some e => rfl
  | runElf fs filename size argc argv =>
    obtain ⟨e, st, hcall, hram⟩ := systemRunElfArgsImpl_untouched fun ehdr earlier phdr later hfirst =>
      hno ⟨ehdr, earlier, phdr, later, hfirst⟩
    rwa [MemoryRequest.run, hcall]

/-- A request fails cleanly whenever the allocator runs out on it exactly if it asks for no frame. -/
theorem exhaustion_fails_cleanly_iff (r : MemoryRequest) :
    (∀ (memmap : List MemmapEntry) (all : FrameSet) (forest : Forest) (held : Multiset Word)
        (fs : FileReads) (context : LinuxContext) (s s' : Mmu) (success : Bool),
      Spaces memmap all s forest held → (4, s.loaded) ∈ forest → context.HeapOk → s.outOfRam = false →
        r.run memmap fs context s = (success, s') → s'.outOfRam = true → FailsCleanly s s' success) ↔
      ¬ r.Allocates := by
  constructor
  · intro hall hallocates
    have hbad : r.FailsBadly := by
      cases r with
      | mapUserMemory => exact mapUserMemory_fails_badly hallocates
      | brk => exact brk_fails_badly hallocates
      | mmap => exact mmap_fails_badly hallocates
      | runElf => exact runElf_fails_badly hallocates
    obtain ⟨s, v, hfull, hrun⟩ := hbad
    have hroot := loaded_mem_singleton hfull.loaded
    obtain ⟨hram, hnot⟩ := hrun ⟨fun _ => false, fun _ _ _ => none⟩ _ _ rfl
    exact hnot (hall _ _ _ _ _ _ _ _ _ hfull.spaces hroot freshContext_heapOk hfull.ram rfl hram)
  · intro hno memmap all forest held fs context s s' success _ _ hheap hram hrun hreport
    have hsame : (r.run memmap fs context s).2.outOfRam = s.outOfRam := r.run_outOfRam hheap hno s
    rw [hrun, hram] at hsame
    exact absurd (hsame.symm.trans hreport) Bool.false_ne_true

/-- One page of `MAP_USER_MEMORY`, one page of heap and one anonymous page of `mmap` fail badly. -/
theorem one_page_fails_badly :
    (MemoryRequest.mapUserMemory 0x10000000 0x1000 3).FailsBadly ∧
      (MemoryRequest.brk 0x600000001000).FailsBadly ∧
      (MemoryRequest.mmap 0 0x1000 3 0x22 0 0).FailsBadly :=
  ⟨mapUserMemory_fails_badly ⟨by decide, by decide⟩, brk_fails_badly ⟨by decide, by decide⟩,
    mmap_fails_badly ⟨fun _ => by decide, by decide⟩⟩

end Windoge.Kernel
