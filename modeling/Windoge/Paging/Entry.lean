import Windoge.Lib.FrameTree

/-!
# Page-table words

The four-level page tables of `mmu.c` hold 64-bit words. This module fixes the flag bits
and masks of the source, the index fields of a virtual address, and the reading of a
word as a tree entry: a table entry names its table when it is present, a leaf entry
names its page when its address field is not zero, and the value of CR3 names a PML4,
of which only the lower half belongs to the address space. Large pages do not occur in
lower halves and are not modelled.
-/

namespace Windoge.Paging

open FrameTree BitVec

/-- A 64-bit machine word: a physical address, a virtual address or a page-table entry. -/
abbrev Word := BitVec 64

instance lawfulBEq_word : LawfulBEq Word := inferInstance

instance neZero_slots : NeZero 512 := ⟨by decide⟩

/-- `PAGE_PRESENT`. -/
def pagePresent : Word := 1

/-- `PAGE_WRITABLE`. -/
def pageWritable : Word := 2

/-- `PAGE_USER`. -/
def pageUser : Word := 4

/-- `PAGE_NO_EXECUTE`. -/
def pageNoExecute : Word := 0x8000000000000000

/-- `PAGE_ADDRESS_MASK`, the bits of an entry that hold a physical address. -/
def pageAddressMask : Word := 0x000FFFFFFFFFF000

/-- `PAGE_USER_FLAGS`, the flags of every table entry and of a freshly mapped page. -/
def pageUserFlags : Word := pagePresent ||| pageWritable ||| pageUser

/-- `USER_ADDRESS_LIMIT`. -/
def userAddressLimit : Word := 0x800000000000

/-- The offset bits of an address inside its page. -/
def pageOffsetMask : Word := 0xFFF

/-- The index of a virtual address in a table: nine bits above the given shift. -/
def tableIndex (shift : ℕ) (virtAddr : Word) : Fin 512 :=
  Fin.ofNat 512 ((virtAddr >>> shift) &&& 0x1FF).toNat

/-- The slots of a PML4 that map user addresses. -/
def lowerHalf : Finset (Fin 512) := Finset.univ.filter fun i => i.val < 256

/-- Page tables as trees: height 0 is a leaf entry, heights 1 to 3 are the entries of the
three upper table levels, height 4 is the value of CR3. -/
def pageFormat : Format Word Word (Fin 512) where
  child
    | 0, entry => if entry &&& pageAddressMask = 0 then none else some (entry &&& pageAddressMask)
    | 4, entry => some entry
    | _, entry => if entry &&& pagePresent = 0 then none else some (entry &&& ~~~pageOffsetMask)
  slots height := if height = 3 then lowerHalf else Finset.univ

/-- The marks of an entry: a present table entry carries the user flags, a leaf entry with an
address carries the user bit. -/
def EntryMarked : ℕ → Word → Prop
  | 0, entry => entry &&& pageAddressMask ≠ 0 → entry &&& pageUser ≠ 0
  | 4, _ => True
  | _, entry => entry &&& pagePresent ≠ 0 → entry ||| pageUserFlags = entry

/-- The address of a usable frame: page aligned, not frame 0, within the address field. -/
def IsFrame (frame : Word) : Prop := frame ≠ 0 ∧ frame &&& pageAddressMask = frame

theorem or_and_mask (a b mask : Word) : (a ||| b) &&& mask = (a &&& mask) ||| (b &&& mask) := by
  ext i
  simp [Bool.and_or_distrib_right]

theorem IsFrame.offset {frame : Word} (h : IsFrame frame) : frame &&& pageOffsetMask = 0 := by
  have hmask : pageAddressMask &&& pageOffsetMask = 0 := by decide
  rw [← h.2, BitVec.and_assoc, hmask]
  exact BitVec.and_zero

theorem IsFrame.aligned {frame : Word} (h : IsFrame frame) : frame &&& ~~~pageOffsetMask = frame := by
  have hmask : pageAddressMask &&& ~~~pageOffsetMask = pageAddressMask := by decide
  rw [← h.2, BitVec.and_assoc, hmask]

@[simp] theorem mem_lowerHalf {i : Fin 512} : i ∈ lowerHalf ↔ i.val < 256 := by
  simp [lowerHalf]

attribute [irreducible] lowerHalf

theorem tableIndex_lower {virtAddr : Word} (h : virtAddr < 0x800000000000) :
    tableIndex 39 virtAddr ∈ lowerHalf := by
  have hlt : virtAddr.toNat < 0x800000000000 := h
  have hmask : (0x1FF : Word).toNat = 2 ^ 9 - 1 := rfl
  rw [mem_lowerHalf, tableIndex, Fin.val_ofNat, toNat_and, toNat_ushiftRight, hmask,
    Nat.and_two_pow_sub_one_eq_mod, Nat.shiftRight_eq_div_pow]
  omega

variable {height : ℕ} {entry : Word}

theorem mem_slots {i : Fin 512} (h : height ≠ 3) : i ∈ pageFormat.slots height := by
  simp [pageFormat, h]

theorem child_zero (h : height < 4) : pageFormat.child height 0 = none := by
  match height, h with
  | 0, _ | 1, _ | 2, _ | 3, _ => simp [pageFormat]

@[simp] theorem child_cr3 (frame : Word) : pageFormat.child 4 frame = some frame := rfl

theorem child_absent (h0 : 0 < height) (h4 : height < 4) (h : entry &&& pagePresent = 0) :
    pageFormat.child height entry = none := by
  match height, h0, h4 with
  | 1, _, _ | 2, _, _ | 3, _, _ => exact if_pos h

theorem child_present (h0 : 0 < height) (h4 : height < 4) (h : entry &&& pagePresent ≠ 0) :
    pageFormat.child height entry = some (entry &&& ~~~pageOffsetMask) := by
  match height, h0, h4 with
  | 1, _, _ | 2, _, _ | 3, _, _ => exact if_neg h

theorem child_leaf (h : entry &&& pageAddressMask ≠ 0) :
    pageFormat.child 0 entry = some (entry &&& pageAddressMask) :=
  if_neg h

theorem child_leaf_empty (h : entry &&& pageAddressMask = 0) : pageFormat.child 0 entry = none := if_pos h

theorem userFlags_present (entry : Word) : (entry ||| pageUserFlags) &&& pagePresent ≠ 0 := by
  have hflag : pageUserFlags &&& pagePresent = 1 := by decide
  rw [or_and_mask, hflag]
  intro h
  have hbit := congrArg (fun w : Word => w.getLsbD 0) h
  simp at hbit

theorem userFlags_table (entry : Word) :
    (entry ||| pageUserFlags) &&& ~~~pageOffsetMask = entry &&& ~~~pageOffsetMask := by
  have hflag : pageUserFlags &&& ~~~pageOffsetMask = 0 := by decide
  rw [or_and_mask, hflag]
  exact or_zero

theorem IsFrame.leaf {frame : Word} (h : IsFrame frame) :
    (frame ||| pageUserFlags) &&& pageAddressMask = frame := by
  have hflag : pageUserFlags &&& pageAddressMask = 0 := by decide
  rw [or_and_mask, hflag, h.2]
  exact or_zero

theorem entryMarked_table (h0 : 0 < height) (h4 : height < 4) :
    EntryMarked height entry ↔ (entry &&& pagePresent ≠ 0 → entry ||| pageUserFlags = entry) := by
  match height, h0, h4 with
  | 1, _, _ | 2, _, _ | 3, _, _ => rfl

theorem entryMarked_zero (height : ℕ) : EntryMarked height 0 := by
  match height with
  | 0 => simp [EntryMarked]
  | 1 | 2 | 3 => simp [EntryMarked]
  | 4 => trivial
  | _ + 5 => simp [EntryMarked]

/-- A marked entry without the user bit is empty. -/
theorem child_unmarked (h4 : height < 4) (hmarked : EntryMarked height entry)
    (huser : entry &&& pageUser = 0) : pageFormat.child height entry = none := by
  cases height with
  | zero =>
    apply child_leaf_empty
    by_contra haddr
    exact hmarked haddr huser
  | succ height =>
    apply child_absent (Nat.succ_pos height) h4
    by_contra hpresent
    have hflags := (entryMarked_table (Nat.succ_pos height) h4).mp hmarked hpresent
    have hbits : pageUserFlags &&& pageUser = pageUser := by decide
    rw [← hflags, or_and_mask, hbits] at huser
    have hbit := congrArg (fun w : Word => w.getLsbD 2) huser
    simp [pageUser] at hbit

/-!
## The memory manager

The functions of `mmu.c` that hand out physical frames and build, change and tear down
user address spaces. Physical memory is a function from the address of a frame to its
512 words; the higher-half window through which the kernel reaches it is a fixed offset
and is left out, and so are the checks for absent bootloader responses and the TLB. The
state records the two static cursors of the allocator, CR3, the NXE bit of EFER and
whether the allocator has reported that memory ran out.
-/

/-- One entry of the bootloader's memory map. -/
structure MemmapEntry where
  base : ℕ
  length : ℕ
  type : ℕ
  deriving DecidableEq, Repr

/-- `LIMINE_MEMMAP_USABLE`. -/
def limineMemmapUsable : ℕ := 0

/-- The machine state that the memory manager reads and writes. -/
structure Mmu where
  mem : Word → Fin 512 → Word
  freePageHead : Word
  allocIndex : ℕ
  allocOffset : ℕ
  cr3 : Word
  nxe : Bool
  outOfRam : Bool

/-- The PML4 that CR3 points to. -/
def Mmu.loaded (s : Mmu) : Word := s.cr3 &&& ~~~pageOffsetMask

/-- The state after one word of a frame has been stored. -/
def Mmu.store (s : Mmu) (frame : Word) (i : Fin 512) (value : Word) : Mmu :=
  { s with mem := Function.update s.mem frame (Function.update (s.mem frame) i value) }

/-- The state after a frame has been filled with the given words. -/
def Mmu.fill (s : Mmu) (frame : Word) (words : Fin 512 → Word) : Mmu :=
  { s with mem := Function.update s.mem frame words }

/-- `pmm_free_page`: push a frame on the free list; frame 0 and unaligned addresses are ignored. -/
def pmmFreePage (physAddr : Word) (s : Mmu) : Mmu :=
  if physAddr = 0 ∨ physAddr &&& pageOffsetMask ≠ 0 then s
  else { s.store physAddr 0 s.freePageHead with freePageHead := physAddr }

/-- The body of the loop of `free_user_table` for one entry of a table; `freeTable` frees a
table one level below. -/
def freeUserEntry (level : ℕ) (freeTable : Word → Mmu → Mmu) (entry : Word) (s : Mmu) : Mmu :=
  if entry &&& pageUser = 0 then s
  else if level = 1 then
    if entry &&& pageAddressMask ≠ 0 then pmmFreePage (entry &&& pageAddressMask) s else s
  else if entry &&& pagePresent ≠ 0 then freeTable (entry &&& ~~~pageOffsetMask) s
  else s

/-- `free_user_table`: free the pages and tables below a table, then the table itself. The
source calls it with levels 3, 2 and 1 only. -/
def freeUserTable : ℕ → Word → Mmu → Mmu
  | 0, _, s => s
  | level + 1, physAddr, s =>
    pmmFreePage physAddr <| (List.finRange 512).foldl (fun s i =>
      freeUserEntry (level + 1) (freeUserTable level) (s.mem physAddr i) s) s

/-- Whether an entry is both present and user accessible. -/
def isUserTable (entry : Word) : Bool :=
  entry &&& (pagePresent ||| pageUser) = (pagePresent ||| pageUser)

/-- Slot `i` of the lower half of a table. -/
def lowerSlot (i : Fin 256) : Fin 512 := i.castLE (by decide)

/-- The array `user_tables` that `cleanup_user_pages` collects from the loaded PML4. -/
def userTables (s : Mmu) (i : Fin 256) : Word :=
  if isUserTable (s.mem s.loaded (lowerSlot i)) then
    s.mem s.loaded (lowerSlot i) &&& ~~~pageOffsetMask
  else 0

/-- The loaded PML4 after `cleanup_user_pages` has cleared the slots it collected. -/
def detachUserTables (s : Mmu) : Mmu :=
  s.fill s.loaded fun i =>
    if i.val < 256 ∧ isUserTable (s.mem s.loaded i) then 0 else s.mem s.loaded i

/-- `cleanup_user_pages`: detach every user table from the loaded PML4, then free each. -/
def cleanupUserPages (s : Mmu) : Mmu :=
  (List.finRange 256).foldl (fun t i =>
    if userTables s i ≠ 0 then freeUserTable 3 (userTables s i) t else t) (detachUserTables s)

/-- The scan of the memory map in `pmm_alloc_zeroed_page`, over the entries from `alloc_index`
on. When the map is used up the allocator frees the current user pages and returns 0. -/
def scanMemmap : List MemmapEntry → Mmu → Word × Mmu
  | [], s => (0, cleanupUserPages { s with outOfRam := true })
  | entry :: rest, s =>
    if entry.type ≠ limineMemmapUsable then
      scanMemmap rest { s with allocIndex := s.allocIndex + 1, allocOffset := 0 }
    else if s.allocOffset + 4096 ≤ entry.length then
      let physAddr := BitVec.ofNat 64 (entry.base + s.allocOffset)
      (physAddr, { s.fill physAddr fun _ => 0 with allocOffset := s.allocOffset + 4096 })
    else
      scanMemmap rest { s with allocIndex := s.allocIndex + 1, allocOffset := 0 }

variable (memmap : List MemmapEntry)

/-- `pmm_alloc_zeroed_page`: pop the free list, or take the next frame of the memory map. -/
def pmmAllocZeroedPage (s : Mmu) : Word × Mmu :=
  if s.freePageHead ≠ 0 then
    let physAddr := s.freePageHead
    (physAddr, { s.fill physAddr fun _ => 0 with freePageHead := s.mem physAddr 0 })
  else scanMemmap (memmap.drop s.allocIndex) s

/-- `create_user_pml4`: a new PML4 that shares the upper half of the loaded one. -/
def createUserPml4 (s : Mmu) : Word × Mmu :=
  let (newPml4, s) := pmmAllocZeroedPage memmap s
  if newPml4 = 0 then (0, s)
  else (newPml4, s.fill newPml4 fun i =>
    if i.val < 256 then s.mem newPml4 i else s.mem s.loaded i)

/-- `switch_user_pml4`. -/
def switchUserPml4 (pml4Phys : Word) (s : Mmu) : Mmu :=
  if pml4Phys ≠ 0 then { s with cr3 := pml4Phys &&& ~~~pageOffsetMask } else s

/-- `destroy_user_pml4`: clean the address space up with its PML4 loaded, then free the PML4. -/
def destroyUserPml4 (pml4Phys : Word) (s : Mmu) : Mmu :=
  if pml4Phys = 0 then s
  else
    let currentCr3 := s.loaded
    let targetCr3 := pml4Phys &&& ~~~pageOffsetMask
    let s := if currentCr3 ≠ targetCr3 then { s with cr3 := targetCr3 } else s
    let s := cleanupUserPages s
    let s := if currentCr3 ≠ targetCr3 then { s with cr3 := currentCr3 } else s
    pmmFreePage targetCr3 s

/-- `suspend_user_pages`: move the lower half of the loaded PML4 into a saved context. -/
def suspendUserPages (s : Mmu) : (Fin 256 → Word) × Mmu :=
  let pml4 := s.mem s.loaded
  (fun i => pml4 (lowerSlot i), s.fill s.loaded fun i => if i.val < 256 then 0 else pml4 i)

/-- `restore_user_pages`: clean up the loaded address space and put a saved context back. -/
def restoreUserPages (context : Fin 256 → Word) (s : Mmu) : Mmu :=
  let s := cleanupUserPages s
  s.fill s.loaded fun i => if h : i.val < 256 then context ⟨i, h⟩ else s.mem s.loaded i

/-- `get_or_alloc_table`: the table behind a slot, allocated when the slot is not present. -/
def getOrAllocTable (table : Word) (index : Fin 512) (s : Mmu) : Word × Mmu :=
  let s :=
    if s.mem table index &&& pagePresent = 0 then
      let (page, s) := pmmAllocZeroedPage memmap s
      s.store table index (page ||| pageUserFlags)
    else s.store table index (s.mem table index ||| pageUserFlags)
  (s.mem table index &&& ~~~pageOffsetMask, s)

/-- `map_user_page`. -/
def mapUserPage (virtAddr physAddr : Word) (s : Mmu) : Mmu :=
  let (pdpt, s) := getOrAllocTable memmap s.loaded (tableIndex 39 virtAddr) s
  let (pd, s) := getOrAllocTable memmap pdpt (tableIndex 30 virtAddr) s
  let (pt, s) := getOrAllocTable memmap pd (tableIndex 21 virtAddr) s
  s.store pt (tableIndex 12 virtAddr) ((physAddr &&& ~~~pageOffsetMask) ||| pageUserFlags)

/-- The descent shared by `protect_user_page` and `unmap_user_page`: follow the given slots
through tables that are present and user accessible. -/
def walkUserTables (s : Mmu) : Word → List (Fin 512) → Option Word
  | table, [] => some table
  | table, index :: rest =>
    let entry := s.mem table index
    if isUserTable entry then walkUserTables s (entry &&& ~~~pageOffsetMask) rest else none

/-- The page table that holds the leaf entry of a virtual address, if all tables exist. -/
def userPageTable (virtAddr : Word) (s : Mmu) : Option Word :=
  walkUserTables s s.loaded [tableIndex 39 virtAddr, tableIndex 30 virtAddr, tableIndex 21 virtAddr]

/-- Whether a leaf entry holds a user page, present or not. -/
def isUserPage (entry : Word) : Bool :=
  entry &&& pageUser ≠ 0 ∧ entry &&& pageAddressMask ≠ 0

/-- `user_page_mapped`. -/
def userPageMapped (virtAddr : Word) (s : Mmu) : Bool :=
  match userPageTable virtAddr s with
  | none => false
  | some table => isUserPage (s.mem table (tableIndex 12 virtAddr))

/-- The leaf entry `protect_user_page` writes. -/
def protectedEntry (nxe present writeAccess executeAccess : Bool) (entry : Word) : Word :=
  let entry := entry &&& ~~~(pagePresent ||| pageWritable ||| pageNoExecute)
  let entry := if present then entry ||| pagePresent else entry
  let entry := if writeAccess then entry ||| pageWritable else entry
  if !executeAccess && nxe then entry ||| pageNoExecute else entry

/-- `protect_user_page`. -/
def protectUserPage (virtAddr : Word) (present writeAccess executeAccess : Bool) (s : Mmu) :
    Bool × Mmu :=
  match userPageTable virtAddr s with
  | none => (false, s)
  | some table =>
    let entry := s.mem table (tableIndex 12 virtAddr)
    if isUserPage entry then
      (true, s.store table (tableIndex 12 virtAddr)
        (protectedEntry s.nxe present writeAccess executeAccess entry))
    else (false, s)

/-- `unmap_user_page`. -/
def unmapUserPage (virtAddr : Word) (s : Mmu) : Bool × Mmu :=
  match userPageTable virtAddr s with
  | none => (false, s)
  | some table =>
    let entry := s.mem table (tableIndex 12 virtAddr)
    if isUserPage entry then
      (true, pmmFreePage (entry &&& pageAddressMask) (s.store table (tableIndex 12 virtAddr) 0))
    else (false, s)

end Windoge.Paging
