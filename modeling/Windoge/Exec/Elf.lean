import Windoge.Exec.Arguments

/-!
# The ELF loader

`system_load_elf_args` reads the headers of an executable, maps and fills the pages of its
segments, maps eight stack pages and stores the arguments in the first ones. Every failure
leaves what was mapped so far; the caller is expected to clean up after it. Numbers of the
headers are natural numbers below the range of their fields; sums of them that the source
forms stay below 2^64 behind its checks. Output pointers are not null at the one call, and
the messages on the screen and in the log are left out.
-/

namespace Windoge.Exec

open Paging LittleEndian Windoge.Flow

/-- What the loader asks of the file system: `fs_exists`, and `fs_read_raw_at` at an offset for a
number of bytes, with the bytes that were read or no result for an error. -/
structure FileReads where
  fsExists : List UInt8 → Bool
  fsReadRawAt : List UInt8 → ℕ → ℕ → Option (List UInt8)

/-- The little-endian field at an offset of a header. -/
def field (bytes : List UInt8) (offset width : ℕ) : ℕ := decode ((bytes.drop offset).take width)

/-- `elf64_ehdr`, without the fields that the loader does not read. -/
structure Ehdr where
  ident : List UInt8
  type : ℕ
  machine : ℕ
  version : ℕ
  entry : ℕ
  phoff : ℕ
  ehsize : ℕ
  phentsize : ℕ
  phnum : ℕ
  deriving DecidableEq

/-- `elf64_phdr`, without the physical address. -/
structure Phdr where
  type : ℕ
  flags : ℕ
  offset : ℕ
  vaddr : ℕ
  filesz : ℕ
  memsz : ℕ
  align : ℕ
  deriving DecidableEq

/-- `sizeof(elf64_ehdr)`. -/
def ehdrSize : ℕ := 64

/-- `sizeof(elf64_phdr)`. -/
def phdrSize : ℕ := 56

/-- The file header in the bytes that were read. -/
def Ehdr.ofBytes (bytes : List UInt8) : Ehdr :=
  ⟨bytes.take 16, field bytes 16 2, field bytes 18 2, field bytes 20 4, field bytes 24 8,
    field bytes 32 8, field bytes 52 2, field bytes 54 2, field bytes 56 2⟩

/-- A program header in the bytes that were read. -/
def Phdr.ofBytes (bytes : List UInt8) : Phdr :=
  ⟨field bytes 0 4, field bytes 4 4, field bytes 8 8, field bytes 16 8, field bytes 32 8,
    field bytes 40 8, field bytes 48 8⟩

/-- `PT_LOAD`. -/
def ptLoad : ℕ := 1

/-- `PT_NOTE`. -/
def ptNote : ℕ := 4

/-- `PF_X`. -/
def pfX : ℕ := 1

/-- `MAX_ELF_FILE_SIZE`. -/
def maxElfFileSize : ℕ := 16 * 1024 * 1024

/-- `MAX_ELF_MEMORY_SIZE`. -/
def maxElfMemorySize : ℕ := 64 * 1024 * 1024

/-- `USER_STACK_VADDR`, the highest stack page. -/
def userStackVaddr : ℕ := 0x00007FFFFFFFF000

/-- `USER_STACK_PAGE_COUNT`. -/
def userStackPageCount : ℕ := 8

/-- `USER_ARGUMENT_AREA_SIZE`, half of the stack. -/
def userArgumentAreaSize : ℕ := pageSize * userStackPageCount / 2

/-- `align_down_page`. -/
def alignDownPage (value : ℕ) : ℕ := value / pageSize * pageSize

/-- `align_up_page`. -/
def alignUpPage (value : ℕ) : ℕ := (value + pageSize - 1) / pageSize * pageSize

/-- The header names a 64-bit little-endian executable for this machine. -/
def Ehdr.accepted (ehdr : Ehdr) : Bool :=
  ehdr.ident.take 7 = [0x7F, 0x45, 0x4C, 0x46, 2, 1, 1] ∧ ehdr.type = 2 ∧ ehdr.machine = 62 ∧
    ehdr.version = 1 ∧ ehdr.ehsize = ehdrSize ∧ ehdr.phentsize = phdrSize ∧ ehdr.phnum ≠ 0 ∧
    ehdr.phnum ≤ maxElfProgramHeaders

/-- The segment is one to load. -/
def Phdr.loadable (phdr : Phdr) : Bool := phdr.type = ptLoad ∧ phdr.memsz ≠ 0

/-- The end of a segment in memory. -/
def Phdr.segEnd (phdr : Phdr) : ℕ := phdr.vaddr + phdr.memsz

/-- The first page of a segment. -/
def Phdr.pageStart (phdr : Phdr) : ℕ := alignDownPage phdr.vaddr

/-- The end of the last page of a segment. -/
def Phdr.pageEnd (phdr : Phdr) : ℕ := alignUpPage phdr.segEnd

/-- The number of pages of a segment. -/
def Phdr.segmentPages (phdr : Phdr) : ℕ := (phdr.pageEnd - phdr.pageStart) / pageSize

/-- The addresses that the page loop visits. -/
def Phdr.pageList (phdr : Phdr) : List ℕ :=
  (List.range phdr.segmentPages).map fun k => phdr.pageStart + pageSize * k

/-- The segment lies inside the file and inside the memory below the user stack. -/
def Phdr.Fits (phdr : Phdr) (size : ℕ) : Prop :=
  phdr.filesz ≤ phdr.memsz ∧ phdr.offset ≤ size ∧ phdr.filesz ≤ size - phdr.offset ∧
    pageSize ≤ phdr.vaddr ∧ phdr.vaddr < userStackBase ∧ phdr.memsz ≤ userStackBase - phdr.vaddr

instance (phdr : Phdr) (size : ℕ) : Decidable (phdr.Fits size) :=
  inferInstanceAs (Decidable (_ ∧ _ ∧ _ ∧ _ ∧ _ ∧ _))

/-- The alignment of the segment is no power of two, or address and offset disagree on it. -/
def Phdr.misaligned (phdr : Phdr) : Bool :=
  1 < phdr.align ∧ (phdr.align &&& (phdr.align - 1) ≠ 0 ∨
    phdr.vaddr &&& (phdr.align - 1) ≠ phdr.offset &&& (phdr.align - 1))

/-- The page ranges of two segments overlap. -/
def Phdr.overlaps (phdr other : Phdr) : Bool :=
  phdr.pageStart < other.pageEnd ∧ other.pageStart < phdr.pageEnd

/-- Where the file part of a segment starts in a page. -/
def Phdr.copyStart (phdr : Phdr) (pageVaddr : ℕ) : ℕ :=
  if phdr.vaddr < pageVaddr then pageVaddr else phdr.vaddr

/-- Where the file part of a segment ends in a page. -/
def Phdr.copyEnd (phdr : Phdr) (pageVaddr : ℕ) : ℕ :=
  if pageVaddr + pageSize < phdr.vaddr + phdr.filesz then pageVaddr + pageSize
  else phdr.vaddr + phdr.filesz

theorem Phdr.Fits.below {phdr : Phdr} {size : ℕ} (h : phdr.Fits size) : phdr.pageEnd ≤ userStackBase := by
  obtain ⟨-, -, -, -, hvaddr, hmemsz⟩ := h
  rw [userStackBase] at hvaddr hmemsz ⊢
  rw [Phdr.pageEnd, alignUpPage, Phdr.segEnd, pageSize]
  omega

/-- The machine and the region list that the loader changes. -/
structure LoadState where
  mmu : Mmu
  program : ProgramMemory

/-- The region list that `memset` leaves: no program has been loaded. -/
def noProgram : ProgramMemory := ⟨[], no_regions, 0, 0, no_stack⟩

/-- A step of the loader: it may stop with a negative result. -/
abbrev ElfM := EStateM ℤ LoadState

/-- The counters of the segment loop. -/
structure Progress where
  totalPages : ℕ
  highestLoadAddress : ℕ
  entryIsExecutable : Bool

/-- The segment is executable and holds the address. -/
def Phdr.Executes (phdr : Phdr) (entry : ℕ) : Prop :=
  phdr.flags &&& pfX ≠ 0 ∧ phdr.vaddr ≤ entry ∧ entry < phdr.segEnd

instance (phdr : Phdr) (entry : ℕ) : Decidable (phdr.Executes entry) :=
  inferInstanceAs (Decidable (_ ∧ _ ∧ _))

/-- The counters after one more segment. -/
def Progress.next (p : Progress) (phdr : Phdr) (entry : ℕ) : Progress :=
  ⟨p.totalPages + phdr.segmentPages,
    if p.highestLoadAddress < phdr.segEnd then phdr.segEnd else p.highestLoadAddress,
    p.entryIsExecutable || decide (phdr.Executes entry)⟩

/-- What the loader reports on success. -/
structure LoadedProgram where
  entry : ℕ
  stack : ℕ
  userArgv : ℕ
  linuxAbi : Bool
  heapBase : ℕ

section Loader

variable (memmap : List MemmapEntry) (fs : FileReads) (filename : List UInt8)

/-- Stop with the given result if a check fails. -/
def refuse (bad : Prop) [Decidable bad] (result : ℤ) : ElfM Unit :=
  if bad then throw result else pure ()

/-- Read a whole header, or stop with the given result. -/
def readHeader (offset count : ℕ) (result : ℤ) : ElfM (List UInt8) :=
  match fs.fsReadRawAt filename offset count with
  | none => throw result
  | some bytes => if bytes.length = count then pure bytes else throw result

/-- The loop that reads the program headers, from header `i` on. -/
def readPhdrs (ehdr : Ehdr) : ℕ → ℕ → ElfM (List Phdr)
  | 0, _ => pure []
  | count + 1, i => do
    let bytes ← readHeader fs filename (ehdr.phoff + i * ehdr.phentsize) phdrSize (-5)
    let rest ← readPhdrs ehdr count (i + 1)
    pure (Phdr.ofBytes bytes :: rest)

/-- Append a page range to the region list. -/
def addRegion (region : ProgramRegion) : ElfM Unit := fun st =>
  if h : st.program.regions.length < maxElfProgramHeaders then
    .ok () { st with program :=
      { st.program with
        regions := st.program.regions ++ [region]
        regionCount := by rw [List.length_append, List.length_singleton]; exact h } }
  else .error (-5) st

/-- Allocate a zeroed page and map it at a user address. -/
def mapNewPage (virtAddr : ℕ) : ElfM Word := fun st =>
  let (pagePhys, mmu) := pmmAllocZeroedPage memmap st.mmu
  if pagePhys = 0 then .error (-3) { st with mmu := mmu }
  else .ok pagePhys { st with mmu := mapUserPage memmap (.ofNat 64 virtAddr) pagePhys mmu }

/-- Store bytes from a physical address on. -/
def writePhys (addr : Word) (bytes : List UInt8) : ElfM Unit :=
  modify fun st => { st with mmu := st.mmu.putBytes addr bytes }

/-- The body of the page loop: map one page of a segment and copy the part of the file into it
that falls into the page. -/
def loadPage (phdr : Phdr) (pageVaddr : ℕ) : ElfM Unit := do
  let pagePhys ← mapNewPage memmap pageVaddr
  let copyStart := phdr.copyStart pageVaddr
  let copySize := phdr.copyEnd pageVaddr - copyStart
  if copyStart < phdr.copyEnd pageVaddr then
    match fs.fsReadRawAt filename (phdr.offset + (copyStart - phdr.vaddr)) copySize with
    | none => throw (-4)
    | some bytes =>
      writePhys (pagePhys + .ofNat 64 (copyStart - pageVaddr)) (bytes.take copySize)
      if bytes.length ≠ copySize then throw (-4)

/-- The body of the segment loop; `earlier` are the headers before this one. -/
def loadSegment (size : ℕ) (ehdr : Ehdr) (earlier : List Phdr) (phdr : Phdr) (p : Progress) :
    ElfM Progress :=
  if !phdr.loadable then pure p
  else if hfits : phdr.Fits size then do
    refuse phdr.misaligned (-5)
    addRegion ⟨phdr.pageStart, phdr.pageEnd, hfits.below⟩
    refuse (maxElfMemorySize / pageSize - p.totalPages < phdr.segmentPages) (-5)
    refuse (earlier.any fun other => other.loadable && phdr.overlaps other) (-5)
    phdr.pageList.forM fun page => loadPage memmap fs filename phdr page
    pure (p.next phdr ehdr.entry)
  else throw (-5)

/-- The segment loop. -/
def loadSegments (size : ℕ) (ehdr : Ehdr) : List Phdr → List Phdr → Progress → ElfM Progress
  | _, [], p => pure p
  | earlier, phdr :: rest, p => do
    let p ← loadSegment memmap fs filename size ehdr earlier phdr p
    loadSegments size ehdr (earlier ++ [phdr]) rest p

/-- The stack loop; the result is the physical address of the lowest stack page. -/
def mapStack : ElfM Word :=
  (List.range userStackPageCount).foldlM (fun stackPhys i => do
    let pagePhys ← mapNewPage memmap (userStackBase + i * pageSize)
    pure (if i = 0 then pagePhys else stackPhys)) 0

/-- The scan of one note segment in `elf_uses_linux_abi`, from a cursor on. -/
def noteUsesLinuxAbi (phdr : Phdr) (cursor : ℕ) : Bool :=
  if cursor ≤ phdr.filesz ∧ 12 ≤ phdr.filesz - cursor then
    let note := (fs.fsReadRawAt filename (phdr.offset + cursor) 12).getD []
    let start := cursor + 12
    let nameSize := (field note 0 4 + 3) / 4 * 4
    let descSize := (field note 4 4 + 3) / 4 * 4
    if note.length ≠ 12 ∨ phdr.filesz - start < nameSize ∨
        phdr.filesz - start - nameSize < descSize then false
    else if field note 8 4 = 1 ∧ field note 0 4 = 4 ∧ 4 ≤ field note 4 4 then
      let name := (fs.fsReadRawAt filename (phdr.offset + start) 4).getD []
      if name.length ≠ 4 then false
      else if name = [0x47, 0x4E, 0x55, 0] then
        let os := (fs.fsReadRawAt filename (phdr.offset + start + nameSize) 4).getD []
        if os.length ≠ 4 then false
        else if decode os = 0 then true
        else noteUsesLinuxAbi phdr (start + (nameSize + descSize))
      else noteUsesLinuxAbi phdr (start + (nameSize + descSize))
    else noteUsesLinuxAbi phdr (start + (nameSize + descSize))
  else false
termination_by phdr.filesz - cursor

/-- `elf_uses_linux_abi`. -/
def elfUsesLinuxAbi (ehdr : Ehdr) (phdrs : List Phdr) (size : ℕ) : Bool :=
  ehdr.ident[7]? = some 3 || phdrs.any fun phdr =>
    decide (phdr.type = ptNote ∧ phdr.offset ≤ size ∧ phdr.filesz ≤ size - phdr.offset) &&
      noteUsesLinuxAbi fs filename phdr 0

/-- The file header, read and checked. -/
def readEhdr (size : ℕ) : ElfM Ehdr := do
  let ehdr := Ehdr.ofBytes (← readHeader fs filename 0 ehdrSize (-4))
  refuse (!ehdr.accepted) (-5)
  refuse (size < ehdr.phoff ∨ size - ehdr.phoff < ehdr.phnum * ehdr.phentsize) (-5)
  pure ehdr

/-- Everything before the arguments: headers, segments and stack. The result is the headers, the
counters and the physical address of the lowest stack page. -/
def loadImage (size : ℕ) : ElfM (Ehdr × List Phdr × Progress × Word) := do
  let ehdr ← readEhdr fs filename size
  let phdrs ← readPhdrs fs filename ehdr ehdr.phnum 0
  let p ← loadSegments memmap fs filename size ehdr [] phdrs ⟨0, 0, false⟩
  refuse (p.totalPages = 0) (-5)
  refuse (!p.entryIsExecutable) (-5)
  refuse (userAddressLimit.toNat ≤ ehdr.entry) (-5)
  let stackPhys ← mapStack memmap
  pure (ehdr, phdrs, p, stackPhys)

/-- The argument step of the loader. -/
def storeArguments (stackPhys : Word) (argc : ℤ) (argv : Option Argv) : ElfM ℕ := fun st =>
  match prepareUserArguments stackPhys userStackBase userArgumentAreaSize argc argv st.mmu with
  | .ok userArgv mmu => .ok userArgv { st with mmu := mmu }
  | .error _ mmu => .error (-5) { st with mmu := mmu }

end Loader

/-- `system_load_elf_args`. -/
def systemLoadElfArgs (memmap : List MemmapEntry) (fs : FileReads) (filename : Option (List UInt8))
    (size : ℕ) (argc : ℤ) (argv : Option Argv) : ElfM LoadedProgram := do
  let name := filename.getD []
  refuse (name = [] ∨ size < ehdrSize ∨ maxElfFileSize < size) (-1)
  refuse (argc < 0 ∨ 32 < argc) (-1)
  refuse (0 < argc ∧ argv.isNone) (-1)
  refuse (!fs.fsExists name) (-1)
  let (ehdr, phdrs, p, stackPhys) ← loadImage memmap fs name size
  let userArgv ← storeArguments stackPhys argc argv
  pure ⟨ehdr.entry, userStackVaddr + pageSize - 8, userArgv,
    elfUsesLinuxAbi fs name ehdr phdrs size, alignUpPage p.highestLoadAddress⟩

end Windoge.Exec
