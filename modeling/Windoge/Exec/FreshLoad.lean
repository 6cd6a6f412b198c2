import Windoge.Exec.Image
import Windoge.Paging.Upcoming

/-!
# Loads that go through

When enough frames are left, the steps of the loader succeed, and the order in which the
allocator hands out frames decides which frame each page gets. A page costs its own frame
and at most three tables.
-/

namespace Windoge.Exec

open Paging FrameTree Windoge.Flow Multiset

variable {memmap : List MemmapEntry} {all : FrameSet} {forest : Forest} {held : Multiset Word}
  {fs : FileReads} {filename : List UInt8} {st : LoadState} {frame : Word}
  {queue rest : List Word}

variable {args : List CString} {st' : LoadState} {argv : Option Argv} {phdr : Phdr} {argc result : ℤ}

theorem refuse_ok {bad : Prop} [Decidable bad] (h : ¬ bad) (st : LoadState) :
    refuse bad result st = .ok () st := by
  rw [refuse, if_neg h]
  rfl

variable {bytes : List UInt8}

theorem readHeader_takes {offset count : ℕ}
    (hread : fs.fsReadRawAt filename offset count = some bytes) (hlength : bytes.length = count)
    (st : LoadState) : readHeader fs filename offset count result st = .ok bytes st := by
  rw [readHeader, hread]
  dsimp only
  rw [if_pos hlength, pure_run]

/-- A segment that passes every check is loaded when its pages are. -/
theorem loadSegment_takes {size : ℕ} {ehdr : Ehdr} {earlier : List Phdr} {p : Progress} {st₁ : LoadState}
    (hload : phdr.loadable = true) (hfits : phdr.Fits size) (haligned : phdr.misaligned = false)
    (hregion : addRegion ⟨phdr.pageStart, phdr.pageEnd, hfits.below⟩ st = .ok () st₁)
    (hpages : ¬ maxElfMemorySize / pageSize - p.totalPages < phdr.segmentPages)
    (hapart : (earlier.any fun other => other.loadable && phdr.overlaps other) = false)
    (hloop : (phdr.pageList.forM fun page => loadPage memmap fs filename phdr page) st₁ = .ok () st') :
    loadSegment memmap fs filename size ehdr earlier phdr p st = .ok (p.next phdr ehdr.entry) st' := by
  rw [loadSegment, hload, Bool.not_true, if_neg Bool.false_ne_true, dif_pos hfits,
    bind_ok (refuse_ok (by rw [haligned]; exact Bool.false_ne_true) st), bind_ok hregion,
    bind_ok (refuse_ok hpages st₁),
    bind_ok (refuse_ok (by rw [hapart]; exact Bool.false_ne_true) st₁), bind_ok hloop, pure_run]

/-- With four frames left a new page is mapped, and gets the first of them. -/
theorem mapNewPage_takes {virtAddr : ℕ} (h : Spaces memmap all st.mmu forest held)
    (hroot : (4, st.mmu.loaded) ∈ forest) (hvirt : virtAddr < 0x800000000000) (hram : st.mmu.outOfRam = false)
    (hup : st.mmu.Upcoming memmap (frame :: rest)) (hroom : 3 ≤ rest.length) :
    ∃ st', mapNewPage memmap virtAddr st = .ok frame st' ∧ st'.mmu.outOfRam = false ∧
      ∃ k ≤ 3, st'.mmu.Upcoming memmap (rest.drop k) ∧
        (st.mmu.mem st.mmu.loaded (tableIndex 39 (.ofNat 64 virtAddr)) &&& pagePresent = 0 → k = 3) := by
  obtain ⟨mmu, halloc, hram₁, hup₁⟩ := h.balanced.alloc_upcoming hram hup
  obtain ⟨htaken, htouches, -⟩ := h.pmmAllocZeroedPage halloc hram₁
  have hloaded := loaded_congr htouches.cr3
  have hpml4 : mmu.mem st.mmu.loaded = st.mmu.mem st.mmu.loaded := by
    obtain ⟨-, hkeeps, -⟩ := pmmAllocZeroedPage_balanced halloc hram₁ h.balanced
    exact hkeeps.mem _ (mem_add.mpr (.inl (pml4_mem_forestFrames hroot)))
  rw [← hloaded] at hroot
  obtain ⟨k, hk, hram₂, hup₂, hexact⟩ := htaken.mapUserPage_takes hroot (ofNat_user hvirt) hram₁ hup₁ frame hroom
  rw [hloaded, hpml4] at hexact
  refine ⟨{ st with mmu := mapUserPage memmap (.ofNat 64 virtAddr) frame mmu }, ?_, hram₂, k, hk,
    hup₂, hexact⟩
  rw [mapNewPage, halloc]
  exact if_neg htaken.isFrame.1

/-- A page is loaded once it is mapped and its part of the file has been read. -/
theorem loadPage_takes {pageVaddr : ℕ} (hmap : mapNewPage memmap pageVaddr st = .ok frame st')
    (hcopy : phdr.copyStart pageVaddr < phdr.copyEnd pageVaddr)
    (hread : fs.fsReadRawAt filename (phdr.offset + (phdr.copyStart pageVaddr - phdr.vaddr))
      (phdr.copyEnd pageVaddr - phdr.copyStart pageVaddr) = some bytes)
    (hlength : bytes.length = phdr.copyEnd pageVaddr - phdr.copyStart pageVaddr) :
    loadPage memmap fs filename phdr pageVaddr st = .ok () { st' with
      mmu := st'.mmu.putBytes (frame + .ofNat 64 (phdr.copyStart pageVaddr - pageVaddr)) bytes } := by
  rw [loadPage, bind_ok hmap, if_pos hcopy, hread]
  dsimp only
  rw [writePhys, modify_bind, if_neg (not_not.mpr hlength), pure_run, ← hlength, List.take_length]

/-- Storing bytes inside a mapped page does not change which frames come next. -/
theorem upcoming_putBytes {s : Mmu} {root virtAddr : Word} {o : ℕ} (h : Spaces memmap all s forest held)
    (hroot : (4, root) ∈ forest) (hvirt : virtAddr < 0x800000000000) (hframe : IsFrame frame)
    (hmapped : userMapping s root virtAddr = some (frame ||| pageUserFlags))
    (hroom : o + bytes.length ≤ 4096) (hup : s.Upcoming memmap queue) :
    (s.putBytes (frame + .ofNat 64 o) bytes).Upcoming memmap queue := by
  have hpath := follow_page (h.space_marked hroot) hvirt hmapped
  rw [hframe.leaf] at hpath
  obtain ⟨words, hfill⟩ := putBytes_eq_fill hframe.offset hroom s
  rw [hfill]
  apply hup.fill
  exact h.balanced.not_upcoming hup
    (mem_add.mpr (.inl (mem_forestFrames hroot (follow_mem_frames hpath))))

/-- Given arguments are stored. -/
theorem storeArguments_takes (hgiven : Given argc argv args) (stackPhys : Word) (st : LoadState) :
    storeArguments stackPhys argc argv st = .ok (userStackBase + vectorOffset args)
      { st with mmu := argumentState stackPhys args st.mmu } := by
  rw [storeArguments, prepareUserArguments_ok hgiven (hgiven.room.trans (by decide))]
  rfl

theorem Given.accepted
    (h : Given argc argv args) : ¬ (argc < 0 ∨ 32 < argc) ∧ ¬ (0 < argc ∧ argv.isNone = true) := by
  have hargc := h.argc
  have hcount := h.count
  refine ⟨by omega, ?_⟩
  rintro ⟨hpos, hnull⟩
  obtain ⟨strings, rfl, -⟩ := h.passes 0 (args.get ⟨0, by omega⟩) (by simp)
  cases hnull

/-!
## Loading into a new address space

In an address space without mappings no page is mapped over another one, so that a load
loses no frame: what it takes is in the new tree, and whatever else was in use stays as it
was.
-/

open LittleEndian List Set

/-- A load into an address space that was empty at the start and has at most the given pages so far. -/
structure Loading (memmap : List MemmapEntry) (all : FrameSet) (root : Word) (held : Multiset Word)
    (start : Mmu) (room : ℕ) (mapped : Set ℕ) (s : Mmu) : Prop where
  spaces : Spaces memmap all s {(4, root)} held
  loaded : s.loaded = root
  ram : s.outOfRam = false
  upcoming : ∃ queue, s.Upcoming memmap queue ∧ room ≤ queue.length
  kept : ∀ frame ∈ held, s.mem frame = start.mem frame
  unmapped : ∀ page, page % 4096 = 0 → page < 0x800000000000 → page ∉ mapped →
    userMapping s root (.ofNat 64 page) = none

namespace Loading

variable {root : Word} {start s : Mmu} {room page : ℕ} {mapped : Set ℕ}

theorem root_mem (h : Loading memmap all root held start room mapped s) :
    (4, s.loaded) ∈ ({(4, root)} : Forest) := by
  rw [h.loaded]
  exact Multiset.mem_singleton_self _

/-- With four frames left, a page that is not there yet is mapped. -/
theorem mapNewPage (h : Loading memmap all root held start (room + 4) mapped st.mmu)
    (hpage : page % 4096 = 0) (hlimit : page < 0x800000000000) (hnew : page ∉ mapped) :
    ∃ frame st', Exec.mapNewPage memmap page st = .ok frame st' ∧
      Loading memmap all root held start room (insert page mapped) st'.mmu ∧
      st'.program = st.program ∧ IsFrame frame ∧
      userMapping st'.mmu root (.ofNat 64 page) = some (frame ||| pageUserFlags) ∧
      (∀ other, other % 4096 = 0 → other < 0x800000000000 → other ≠ page →
        userMapping st'.mmu root (.ofNat 64 other) = userMapping st.mmu root (.ofNat 64 other)) ∧
      ∀ first rest, st.mmu.Upcoming memmap (first :: rest) → 3 ≤ rest.length → frame = first ∧
        (st.mmu.mem root (tableIndex 39 (.ofNat 64 page)) &&& pagePresent = 0 →
          st'.mmu.Upcoming memmap (rest.drop 3)) := by
  obtain ⟨queue, hup, hroom⟩ := h.upcoming
  obtain ⟨frame, rest, rfl⟩ := exists_cons_of_length_pos (by omega : 0 < queue.length)
  rw [length_cons] at hroom
  obtain ⟨st', hcall, hram, k, hk, hup', -⟩ := mapNewPage_takes h.spaces h.root_mem hlimit h.ram hup (by omega)
  obtain ⟨hprogram, hframe, hspaces, htouches, hmapped, -⟩ :=
    mapNewPage_maps hcall hram h.spaces h.root_mem hlimit
  have hnone := h.unmapped page hpage hlimit hnew
  rw [h.loaded] at hspaces htouches hmapped
  rw [mappedFrame, hnone] at hspaces
  have hsame : ∀ other, other % 4096 = 0 → other < 0x800000000000 → other ≠ page →
      userMapping st'.mmu root (.ofNat 64 other) = userMapping st.mmu root (.ofNat 64 other) := by
    intro other hother hbelow hne
    refine (htouches.untouched root (Multiset.mem_singleton_self _) _ (ofNat_user hbelow) ?_).1
    rintro ⟨-, hpath⟩
    rw [pagePath_eq_iff hbelow hlimit] at hpath
    omega
  refine ⟨frame, st', hcall, ⟨?_, ?_, hram, ⟨_, hup', ?_⟩, ?_, ?_⟩, hprogram, hframe, hmapped, hsame,
    fun first rest hfirst hrest => ?_⟩
  · simpa using hspaces
  · rw [Mmu.loaded, htouches.cr3]
    exact h.loaded
  · rw [length_drop]
    omega
  · exact fun q hq => (htouches.held q hq).trans (h.kept q hq)
  · intro other hother hbelow hin
    rw [mem_insert_iff, not_or] at hin
    exact (hsame other hother hbelow hin.1).trans (h.unmapped other hother hbelow hin.2)
  · obtain ⟨st₁, hcall₁, -, k, -, hup₁, hexact⟩ := mapNewPage_takes h.spaces h.root_mem hlimit h.ram hfirst hrest
    cases hcall.symm.trans hcall₁
    rw [h.loaded] at hexact
    exact ⟨rfl, fun habsent => hexact habsent ▸ hup₁⟩

/-- Storing bytes inside a page that is mapped keeps everything. -/
theorem putBytes {o : ℕ} {bytes : List UInt8} (h : Loading memmap all root held start room mapped s)
    (hlimit : page < 0x800000000000) (hframe : IsFrame frame)
    (hmapped : userMapping s root (.ofNat 64 page) = some (frame ||| pageUserFlags))
    (hroom : o + bytes.length ≤ 4096) :
    Loading memmap all root held start room mapped (s.putBytes (frame + .ofNat 64 o) bytes) ∧
      userMapping (s.putBytes (frame + .ofNat 64 o) bytes) root (.ofNat 64 page) =
        some (frame ||| pageUserFlags) := by
  have hroot := Multiset.mem_singleton_self (4, root)
  have hhere := hmapped
  rw [← h.loaded] at hhere
  obtain ⟨hspaces, htouches, hsame⟩ := putBytes_touches h.spaces h.root_mem hframe hhere hroom hlimit
  obtain ⟨queue, hup, hleft⟩ := h.upcoming
  refine ⟨⟨hspaces, ?_, ?_, ⟨queue, ?_, hleft⟩, ?_, ?_⟩, ?_⟩
  · rw [putBytes_loaded, h.loaded]
  · rw [putBytes_outOfRam, h.ram]
  · exact upcoming_putBytes h.spaces hroot (ofNat_user hlimit) hframe hmapped hroom hup
  · exact fun q hq => (htouches.held q hq).trans (h.kept q hq)
  · intro other hother hbelow hin
    rw [hsame root hroot _ (ofNat_user hbelow)]
    exact h.unmapped other hother hbelow hin
  · rw [hsame root hroot _ (ofNat_user hlimit), hmapped]

/-- With four frames left for each of them, stack pages that are not there yet are mapped. -/
theorem stackLoop {indices : List ℕ} (stackPhys : Word)
    (h : Loading memmap all root held start (room + 4 * indices.length) mapped st.mmu)
    (hindices : ∀ i ∈ indices, i < userStackPageCount) (hnodup : indices.Nodup)
    (hnew : ∀ i ∈ indices, userStackBase + i * pageSize ∉ mapped) (hzero : 0 ∉ indices) :
    ∃ st' mapped', indices.foldlM (stackStep memmap) stackPhys st = .ok stackPhys st' ∧
      Loading memmap all root held start room mapped' st'.mmu ∧ st'.program = st.program ∧
      ∀ other, other % 4096 = 0 → other < 0x800000000000 → (∀ i ∈ indices, other ≠ userStackBase + i * pageSize) →
        userMapping st'.mmu root (.ofNat 64 other) = userMapping st.mmu root (.ofNat 64 other) := by
  induction indices generalizing st mapped with
  | nil => exact ⟨st, mapped, rfl, h, rfl, fun _ _ _ _ => rfl⟩
  | cons i others ih =>
    obtain ⟨hfirst, hrest⟩ := forall_mem_cons.mp hindices
    obtain ⟨hi, hnodup⟩ := nodup_cons.mp hnodup
    obtain ⟨hnewi, hnewrest⟩ := forall_mem_cons.mp hnew
    rw [List.mem_cons, not_or] at hzero
    have hlimit := stackPages_limit hfirst
    rw [length_cons, mul_add, ← add_assoc] at h
    obtain ⟨frame, st₁, hmap, h₁, hprogram, -, -, hsame, -⟩ := h.mapNewPage (stackPage_aligned i) (by omega) hnewi
    have hother : ∀ j ∈ others, userStackBase + j * pageSize ∉ insert (userStackBase + i * pageSize) mapped := by
      intro j hj hin
      rcases mem_insert_iff.mp hin with heq | hin
      · rw [userStackBase, pageSize] at heq
        obtain rfl : j = i := by omega
        exact hi hj
      · exact hnewrest j hj hin
    obtain ⟨st', mapped', hloop, h', hprogram', hsame'⟩ := ih h₁ hrest hnodup hother hzero.2
    have hstep : stackStep memmap stackPhys i st = .ok stackPhys st₁ := by
      rw [stackStep, bind_ok hmap, if_neg (Ne.symm hzero.1), pure_run]
    refine ⟨st', mapped', ?_, h', hprogram'.trans hprogram, fun other hother hbelow hne => ?_⟩
    · rw [foldlM_cons, bind_ok hstep, hloop]
    · rw [hsame' other hother hbelow fun j hj => hne j (mem_cons_of_mem i hj),
        hsame other hother hbelow (hne i mem_cons_self)]

/-- With 32 frames left a stack is mapped. -/
theorem mapStack (h : Loading memmap all root held start (room + 32) mapped st.mmu)
    (hnew : ∀ i < userStackPageCount, userStackBase + i * pageSize ∉ mapped) :
    ∃ frame st' mapped', Exec.mapStack memmap st = .ok frame st' ∧
      Loading memmap all root held start room mapped' st'.mmu ∧ st'.program = st.program ∧
      IsFrame frame ∧
      userMapping st'.mmu root (.ofNat 64 userStackBase) = some (frame ||| pageUserFlags) ∧
      (∀ other, other % 4096 = 0 → other < userStackBase → userMapping st'.mmu root (.ofNat 64 other) =
          userMapping st.mmu root (.ofNat 64 other)) ∧
      ∀ first rest, st.mmu.Upcoming memmap (first :: rest) → 3 ≤ rest.length → frame = first := by
  have hlowest := hnew 0 (by decide)
  rw [zero_mul, add_zero] at hlowest
  obtain ⟨frame, st₁, hmap, h₁, hprogram, hframe, hmapped, hkept, hfirst⟩ :=
    (h : Loading memmap all root held start (room + 28 + 4) mapped st.mmu).mapNewPage
      (by decide) (by decide) hlowest
  have hother : ∀ i ∈ [1, 2, 3, 4, 5, 6, 7], userStackBase + i * pageSize ∉ insert userStackBase mapped := by
    intro i hi hin
    have hrange : ∀ i ∈ [1, 2, 3, 4, 5, 6, 7], 0 < i ∧ i < userStackPageCount := by decide
    obtain ⟨hpos, hcount⟩ := hrange i hi
    rcases mem_insert_iff.mp hin with heq | hin
    · rw [pageSize] at heq
      omega
    · exact hnew i hcount hin
  obtain ⟨st', mapped', hloop, h', hprogram', hsame⟩ :=
    @stackLoop _ _ _ st₁ _ _ room _ [1, 2, 3, 4, 5, 6, 7] frame h₁ (by decide) (by decide) hother (by decide)
  have hstep : stackStep memmap 0 0 st = .ok frame st₁ := by
    rw [stackStep, zero_mul, add_zero, bind_ok hmap, if_pos rfl, pure_run]
  refine ⟨frame, st', mapped', ?_, h', hprogram'.trans hprogram, hframe, ?_, fun other hother hbelow => ?_,
    fun first rest hup hrest => (hfirst first rest hup hrest).1⟩
  · change ([0, 1, 2, 3, 4, 5, 6, 7].foldlM (stackStep memmap) 0) st = _
    rw [foldlM_cons, bind_ok hstep, hloop]
  · rw [hsame userStackBase (by decide) (by decide) (by decide), hmapped]
  · have hlimit : userStackBase < 0x800000000000 := by decide
    rw [hsame other hother (by omega) (fun i _ => by omega), hkept other hother (by omega) (by omega)]

/-- Storing no arguments keeps everything. -/
theorem noArguments (h : Loading memmap all root held start room mapped s) (hframe : IsFrame frame)
    (hmapped : userMapping s root (.ofNat 64 userStackBase) = some (frame ||| pageUserFlags)) :
    Loading memmap all root held start room mapped (argumentState frame [] s) := by
  have hstrings : ∀ s : Mmu, s.putBytes frame (argumentStrings []) = s := fun _ => rfl
  have hpointers : vectorOffset [] + (pointerBytes userStackBase []).length ≤ 4096 := by decide
  have hnull : pointersEnd [] + (encode 8 0).length ≤ 4096 := by decide
  obtain ⟨h₁, hmapped₁⟩ := h.putBytes (by decide) hframe hmapped hpointers
  rw [argumentState, withArguments, hstrings]
  exact (h₁.putBytes (by decide) hframe hmapped₁ hnull).1

end Loading

/-!
## A small program on a used machine

A machine that has freed frames hands them out again, last freed first. Here the loader
builds the smallest executable on such a machine; its code gets the frame that follows the
one of the lowest stack page. Later modules ask what becomes of the program.
-/

open LittleEndian List

/-- The headers of an executable with one segment of one byte at 0x400000. -/
def tinyHeaders : List UInt8 :=
  [0x7F, 0x45, 0x4C, 0x46, 2, 1, 1, 0, 0, 0, 0, 0, 0, 0, 0, 0,
    2, 0, 62, 0, 1, 0, 0, 0, 0, 0, 0x40, 0, 0, 0, 0, 0,
    64, 0, 0, 0, 0, 0, 0, 0, 0, 0, 0, 0, 0, 0, 0, 0,
    0, 0, 0, 0, 64, 0, 56, 0, 1, 0, 0, 0, 0, 0, 0, 0,
    1, 0, 0, 0, 5, 0, 0, 0, 120, 0, 0, 0, 0, 0, 0, 0,
    0, 0, 0x40, 0, 0, 0, 0, 0, 0, 0, 0x40, 0, 0, 0, 0, 0,
    1, 0, 0, 0, 0, 0, 0, 0, 1, 0, 0, 0, 0, 0, 0, 0,
    0, 0, 0, 0, 0, 0, 0, 0]

/-- The executable with a given byte of code. -/
def tinyFile (code : UInt8) (offset : ℕ) : UInt8 :=
  if offset = 120 then code else tinyHeaders.getD offset 0

/-- The length of the executable. -/
def tinySize : ℕ := 121

/-- A file system on which every file is this executable. -/
def tinyReads (code : UInt8) : FileReads where
  fsExists _ := true
  fsReadRawAt _ offset count := some (slice (tinyFile code) offset count)

variable {memmap : List MemmapEntry} {s start : Mmu} {held : Multiset Word} {argv : Option Argv}
  {code : UInt8} {frame root : Word} {room : ℕ} {argc : ℤ}

/-- The program header of the executable. -/
def tinySegment : Phdr := ⟨ptLoad, 5, 120, 0x400000, 1, 1, 0⟩

/-- Memory with a gap behind the first two frames. -/
def gapMemmap : List MemmapEntry :=
  [⟨0x100000, 0x2000, limineMemmapUsable⟩, ⟨0x110000, 0x28000, limineMemmapUsable⟩]

/-- The frames that were handed out and came back, last freed first. -/
def freedFrames : List Word := [0x101000, 0x110000, 0x111000, 0x112000, 0x100000]

/-- A machine with one empty address space that has freed these frames. -/
def recycledMachine : Mmu where
  mem frame i := if i = 0 then (freedFrames.getD (freedFrames.idxOf frame + 1) 0) else 0
  freePageHead := 0x101000
  allocIndex := 1
  allocOffset := 0x3000
  cr3 := 0x1000
  nxe := false
  outOfRam := false

/-- The frames that were never handed out. -/
def freshFrames : List Word :=
  (List.range 37).map fun k => .ofNat 64 (0x113000 + 4096 * k)

theorem slice_tinyFile (code : UInt8) {offset count : ℕ} (h : offset + count ≤ 120) :
    slice (tinyFile code) offset count = (List.range count).map fun i => tinyHeaders.getD (offset + i) 0 := by
  apply map_congr_left
  intro i hi
  rw [List.mem_range] at hi
  rw [tinyFile, if_neg (by omega)]

theorem fileHeader_tinyFile (code : UInt8) : fileHeader (tinyFile code) =
    ⟨tinyHeaders.take 16, 2, 62, 1, 0x400000, 64, 64, 56, 1⟩ := by
  rw [fileHeader, slice_tinyFile code (by decide)]
  decide

theorem fileSegments_tinyFile (code : UInt8) : fileSegments (tinyFile code) = [tinySegment] := by
  rw [fileSegments, fileHeader_tinyFile]
  rw [range_one, List.map_singleton, slice_tinyFile code (by decide)]
  decide

/-- The frames of the machine. -/
def recycledFrames : FrameSet where
  frames := 0x1000 ::ₘ ↑(freedFrames ++ freshFrames)
  nodup := by
    rw [Multiset.cons_coe, Multiset.coe_nodup]
    decide
  isFrame frame hin := by
    have hnames : 0x1000 :: freedFrames =
        [0x1000, 0x101000, 0x110000, 0x111000, 0x112000, 0x100000].map (BitVec.ofNat 64) := rfl
    have hrange : ∀ n ∈ [0x1000, 0x101000, 0x110000, 0x111000, 0x112000, 0x100000],
        0 < n ∧ n < 2 ^ 52 ∧ n % 4096 = 0 := by decide
    rw [Multiset.cons_coe, Multiset.mem_coe, ← List.cons_append, hnames, List.mem_append] at hin
    rcases hin with hin | hin
    · obtain ⟨n, hn, rfl⟩ := List.mem_map.mp hin
      obtain ⟨hpos, hlt, haligned⟩ := hrange n hn
      exact isFrame_ofNat hpos hlt haligned
    · obtain ⟨k, hk, rfl⟩ := List.mem_map.mp hin
      rw [List.mem_range] at hk
      exact isFrame_ofNat (by omega) (by omega) (by omega)

theorem recycledMachine_upcoming : recycledMachine.Upcoming gapMemmap (freedFrames ++ freshFrames) := by
  refine ⟨freedFrames, ?_, rfl⟩
  refine ⟨rfl, by decide, rfl, by decide, rfl, by decide, rfl, by decide, rfl, by decide, ?_⟩
  rfl

theorem recycledMachine_pml4 (i : Fin 512) : recycledMachine.mem 0x1000 i = 0 := by
  by_cases hi : i = 0
  · subst hi
    decide
  · simp [recycledMachine, hi]

theorem recycledMachine_child (i : Fin 512) (_ : i ∈ lowerHalf) :
    pageFormat.child 3 (recycledMachine.mem 0x1000 i) = none := by
  rw [recycledMachine_pml4 i]
  exact child_zero (by decide)

/-- The frames of the machine are accounted for, and it has one address space, which is empty. -/
theorem recycledMachine_spaces : Spaces gapMemmap recycledFrames recycledMachine {(4, 0x1000)} 0 := by
  refine ⟨recycledMachine_upcoming.balanced ?_, fun top htop => ?_, fun root hroot i _ => ?_⟩
  · rw [forestFrames_singleton, (empty_space recycledMachine_child).1, add_zero]
    rfl
  · rw [Multiset.mem_singleton.mp htop]
    exact marked_empty fun i _ => recycledMachine_pml4 i
  · obtain rfl : root = 0x1000 := (Prod.mk.inj (Multiset.mem_singleton.mp hroot)).2
    rw [recycledMachine_pml4 i]
    decide

theorem recycledMachine_loaded : recycledMachine.loaded = 0x1000 := by decide

theorem recycledMachine_root : (4, recycledMachine.loaded) ∈ ({(4, 0x1000)} : Forest) :=
  loaded_mem_singleton recycledMachine_loaded

/-- What the loader has built of the executable on the recycled machine before it stores the
arguments: the code is in the frame behind the one of the lowest stack page. -/
structure TinyBuilt (s : Mmu) : Prop where
  spaces : ∃ held, Spaces gapMemmap recycledFrames s {(4, 0x1000)} held
  loaded : s.loaded = 0x1000
  ram : s.outOfRam = false
  code : userMapping s 0x1000 (.ofNat 64 0x400000) = some (0x101000 ||| pageUserFlags)
  stack : ∀ i < userStackPageCount, ∃ frame, StackPage s 0x1000 i frame
  lowest : StackPage s 0x1000 0 0x100000
  null : userByte s 0x1000 0 = none

/-- With four frames left the page of the executable is loaded into the first of them. -/
theorem Loading.tinySegment (code : UInt8) (name : List UInt8)
    (program : ProgramMemory) (h : Loading memmap all root held start (room + 4) ∅ s) :
    ∃ frame s', loadPage memmap (tinyReads code) name Exec.tinySegment 0x400000 ⟨s, program⟩ =
        .ok () ⟨s', program⟩ ∧ Loading memmap all root held start room {0x400000} s' ∧
      userMapping s' root (.ofNat 64 0x400000) = some (frame ||| pageUserFlags) ∧
      ∀ first rest, s.Upcoming memmap (first :: rest) → 3 ≤ rest.length → frame = first ∧
        (s.mem root (tableIndex 39 (.ofNat 64 0x400000)) &&& pagePresent = 0 →
          s'.Upcoming memmap (rest.drop 3)) := by
  obtain ⟨frame, ⟨s₁, other⟩, hmap, h₁, hprogram, hframe, hmapped, -, hfirst⟩ :=
    @mapNewPage _ _ _ ⟨s, program⟩ _ _ _ 0x400000 _ h (by decide) (by decide) (Set.notMem_empty _)
  obtain rfl : other = program := hprogram
  have hstart : Exec.tinySegment.copyStart 0x400000 = 0x400000 := by decide
  have hstop : Exec.tinySegment.copyEnd 0x400000 = 0x400001 := by decide
  have hroom : 0 + (slice (tinyFile code) 120 1).length ≤ 4096 := by
    rw [slice_length]
    decide
  have hread : (tinyReads code).fsReadRawAt name
      (Exec.tinySegment.offset + (Exec.tinySegment.copyStart 0x400000 - Exec.tinySegment.vaddr))
      (Exec.tinySegment.copyEnd 0x400000 - Exec.tinySegment.copyStart 0x400000) =
        some (slice (tinyFile code) 120 1) := by
    rw [hstart, hstop]
    rfl
  have hload := loadPage_takes hmap (by rw [hstart, hstop]; decide) hread (by rw [hstart, hstop, slice_length])
  rw [hstart] at hload
  rw [insert_empty_eq] at h₁
  obtain ⟨h', hmapped'⟩ := h₁.putBytes (by decide) hframe hmapped hroom
  refine ⟨frame, _, hload, h', hmapped', fun first rest hup hrest => ?_⟩
  refine And.imp_right (fun hexact habsent => ?_) (hfirst first rest hup hrest)
  exact upcoming_putBytes h₁.spaces (Multiset.mem_singleton_self _) (ofNat_user (by decide)) hframe
    hmapped hroom (hexact habsent)

/-- No page of the stack is the page of the executable. -/
theorem stackPage_notMem : ∀ i < userStackPageCount, userStackBase + i * pageSize ∉ ({0x400000} : Set ℕ) := by
  intro i _ hin
  have heq : userStackBase + i * pageSize = 0x400000 := hin
  rw [userStackBase] at heq
  omega

theorem recycledMachine_loading :
    Loading gapMemmap recycledFrames 0x1000 0 recycledMachine 36 ∅ recycledMachine where
  spaces := recycledMachine_spaces
  loaded := recycledMachine_loaded
  ram := rfl
  upcoming := ⟨_, recycledMachine_upcoming, by decide⟩
  kept _ _ := rfl
  unmapped _ _ hlimit _ := (empty_space recycledMachine_child).2 _ (ofNat_user hlimit)

/-- The region list after the executable has been loaded. -/
def tinyProgram : ProgramMemory := ⟨[⟨0x400000, 0x401000, one_page_below⟩], one_region, 0, 0, no_stack⟩

/-- The headers of the executable are read, whatever the state. -/
theorem tinyFile_headers (code : UInt8) (name : List UInt8) (st : LoadState) :
    readEhdr (tinyReads code) name tinySize st = .ok (fileHeader (tinyFile code)) st ∧
      readPhdrs (tinyReads code) name (fileHeader (tinyFile code)) 1 0 st = .ok [tinySegment] st := by
  constructor
  · rw [readEhdr, bind_ok (readHeader_takes rfl (slice_length _ _ _) _)]
    rw [← fileHeader, fileHeader_tinyFile, bind_ok (refuse_ok (by decide) _),
      bind_ok (refuse_ok (by decide) _), pure_run]
  · rw [← fileSegments_tinyFile code]
    rw [readPhdrs, bind_ok (readHeader_takes rfl (slice_length _ _ _) _), readPhdrs,
      bind_ok (pure_run _ _), pure_run, fileSegments, fileHeader_tinyFile]
    rfl

/-- The image of the executable is built when its page is loaded and the stack is mapped. -/
theorem tinyFile_image {name : List UInt8} {s₁ s₂ : Mmu}
    (hpage : loadPage memmap (tinyReads code) name tinySegment 0x400000 ⟨s, tinyProgram⟩ =
      .ok () ⟨s₁, tinyProgram⟩)
    (hstack : mapStack memmap ⟨s₁, tinyProgram⟩ = .ok frame ⟨s₂, tinyProgram⟩) :
    loadImage memmap (tinyReads code) name tinySize ⟨s, noProgram⟩ =
      .ok (fileHeader (tinyFile code), [tinySegment], ⟨1, 0x400001, true⟩, frame) ⟨s₂, tinyProgram⟩ := by
  obtain ⟨hehdr, hphdrs⟩ := tinyFile_headers code name ⟨s, noProgram⟩
  have hfits : tinySegment.Fits tinySize := by decide
  have hregion : addRegion ⟨tinySegment.pageStart, tinySegment.pageEnd, hfits.below⟩
      ⟨s, noProgram⟩ = .ok () ⟨s, tinyProgram⟩ := rfl
  have hloop : (tinySegment.pageList.forM fun page =>
      loadPage memmap (tinyReads code) name tinySegment page) ⟨s, tinyProgram⟩ = .ok () ⟨s₁, tinyProgram⟩ := by
    have hlist : tinySegment.pageList = [0x400000] := by decide
    rw [hlist]
    exact (bind_ok hpage).trans rfl
  have hsegments : loadSegments memmap (tinyReads code) name tinySize (fileHeader (tinyFile code))
      [] [tinySegment] ⟨0, 0, false⟩ ⟨s, noProgram⟩ = .ok ⟨1, 0x400001, true⟩ ⟨s₁, tinyProgram⟩ := by
    rw [loadSegments, bind_ok (loadSegment_takes (by decide) hfits (by decide) hregion (by decide) rfl
      hloop), loadSegments, pure_run, fileHeader_tinyFile]
    rfl
  have hcount : (fileHeader (tinyFile code)).phnum = 1 := by rw [fileHeader_tinyFile]
  rw [loadImage, bind_ok hehdr, hcount, bind_ok hphdrs, bind_ok hsegments,
    bind_ok (refuse_ok (by decide) _), bind_ok (refuse_ok (by decide) _),
    bind_ok (refuse_ok (by rw [fileHeader_tinyFile]; decide) _), bind_ok hstack, pure_run]

/-- The image of the executable is built on the recycled machine. -/
theorem tinyFile_builds (code : UInt8) (name : List UInt8) :
    ∃ ehdr phdrs p s, loadImage gapMemmap (tinyReads code) name tinySize
        ⟨recycledMachine, noProgram⟩ = .ok (ehdr, phdrs, p, 0x100000) ⟨s, tinyProgram⟩ ∧
      TinyBuilt s := by
  obtain ⟨code', s₁, hpage, h₁, hcode, hfirst⟩ :=
    @Loading.tinySegment _ _ _ _ _ _ 32 code name tinyProgram recycledMachine_loading
  obtain ⟨rfl, hup₁⟩ := hfirst _ _ recycledMachine_upcoming (by decide)
  have hup := hup₁ (by rw [recycledMachine_pml4]; exact BitVec.zero_and)
  obtain ⟨frame, ⟨s, other⟩, mapped, hstack, h₂, hprogram, -, -, hsame, hlowestFrame⟩ :=
    @Loading.mapStack _ _ _ ⟨s₁, tinyProgram⟩ _ _ 0 _ h₁ stackPage_notMem
  obtain rfl : other = tinyProgram := hprogram
  obtain rfl := hlowestFrame _ _ hup (by decide)
  have himage := tinyFile_image hpage hstack
  obtain ⟨-, hpages, hlowest⟩ := loadImage_stack himage h₂.ram recycledMachine_spaces recycledMachine_root
  rw [recycledMachine_loaded] at hpages hlowest
  refine ⟨_, _, _, s, himage, ⟨⟨_, h₂.spaces⟩, h₂.loaded, h₂.ram, ?_, hpages, hlowest, ?_⟩⟩
  · exact (hsame 0x400000 (by decide) (by decide)).trans hcode
  · have hnull := (hsame 0 (by decide) (by decide)).trans (h₁.unmapped 0 (by decide) (by decide) (by simp))
    rw [userByte, hnull]
    rfl

/-- The name under which the executable is loaded. -/
def tinyName : List UInt8 := [0x61]

/-- The executable is loaded once its image is built, whatever arguments are given. -/
theorem tinyFile_starts {s' : Mmu} {ehdr : Ehdr} {phdrs : List Phdr}
    {p : Progress} (hgiven : Given argc argv args)
    (himage : loadImage memmap (tinyReads code) tinyName tinySize ⟨s, noProgram⟩ =
      .ok (ehdr, phdrs, p, frame) ⟨s', tinyProgram⟩) :
    ∃ result, result.userArgv = userStackBase + vectorOffset args ∧
      systemLoadElfArgs memmap (tinyReads code) (some tinyName) tinySize argc argv ⟨s, noProgram⟩ =
        .ok result ⟨argumentState frame args s', tinyProgram⟩ := by
  obtain ⟨hargc, hargv⟩ := hgiven.accepted
  have hexists : ¬ (!(tinyReads code).fsExists tinyName) = true := Bool.false_ne_true
  refine ⟨⟨ehdr.entry, userStackVaddr + pageSize - 8, userStackBase + vectorOffset args,
    elfUsesLinuxAbi (tinyReads code) tinyName ehdr phdrs tinySize,
    alignUpPage p.highestLoadAddress⟩, rfl, ?_⟩
  rw [systemLoadElfArgs, Option.getD_some, bind_ok (refuse_ok (by decide) _), bind_ok (refuse_ok hargc _),
    bind_ok (refuse_ok hargv _), bind_ok (refuse_ok hexists _), bind_ok himage]
  dsimp only
  rw [bind_ok (storeArguments_takes hgiven _ _), pure_run]

theorem no_arguments_given : Given 0 none [] where
  argc := rfl
  count := by decide
  short a ha := absurd ha not_mem_nil
  passes i a ha := absurd ha (by simp)

/-- The executable is loaded on the recycled machine, whatever arguments are given. -/
theorem tinyFile_loads (hgiven : Given argc argv args) (code : UInt8) :
    ∃ result s, TinyBuilt s ∧ result.userArgv = userStackBase + vectorOffset args ∧
      systemLoadElfArgs gapMemmap (tinyReads code) (some tinyName) tinySize argc argv
        ⟨recycledMachine, noProgram⟩ = .ok result ⟨argumentState 0x100000 args s, tinyProgram⟩ := by
  obtain ⟨ehdr, phdrs, p, s, himage, hbuilt⟩ := tinyFile_builds code tinyName
  obtain ⟨result, hargv, hcall⟩ := tinyFile_starts hgiven himage
  exact ⟨result, s, hbuilt, hargv, hcall⟩

/-- With 36 frames left the executable is loaded into an empty address space. -/
theorem Loading.tinyFile (code : UInt8) (h : Loading memmap all root held start (room + 36) ∅ s) :
    ∃ result s' mapped, systemLoadElfArgs memmap (tinyReads code) (some tinyName) tinySize 0 none
        ⟨s, noProgram⟩ = .ok result ⟨s', tinyProgram⟩ ∧
      Loading memmap all root held start room mapped s' := by
  obtain ⟨-, s₁, hpage, h₁, -, -⟩ := tinySegment code tinyName tinyProgram
    (h : Loading memmap all root held start (room + 32 + 4) ∅ s)
  obtain ⟨frame, ⟨s₂, other⟩, mapped, hstack, h₂, hprogram, hframe, hmapped, -⟩ :=
    @mapStack _ _ _ ⟨s₁, tinyProgram⟩ _ _ _ _ h₁ stackPage_notMem
  obtain rfl : other = tinyProgram := hprogram
  obtain ⟨result, -, hcall⟩ := tinyFile_starts no_arguments_given (tinyFile_image hpage hstack)
  exact ⟨result, _, mapped, hcall, h₂.noArguments hframe hmapped⟩

end Windoge.Exec
