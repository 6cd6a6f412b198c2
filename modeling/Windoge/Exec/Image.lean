import Windoge.Exec.Segments

/-!
# The image of a program

What the loader has built before it stores the arguments: the segments of the file in
their pages, and above them eight zero-filled stack pages.
-/

namespace Windoge.Exec

open Paging FrameTree Windoge.Flow EStateM.Result List

/-- The header of a file. -/
def fileHeader (content : ℕ → UInt8) : Ehdr := Ehdr.ofBytes (slice content 0 ehdrSize)

/-- The program headers of a file. -/
def fileSegments (content : ℕ → UInt8) : List Phdr :=
  (List.range (fileHeader content).phnum).map fun i =>
    Phdr.ofBytes (slice content ((fileHeader content).phoff + i * (fileHeader content).phentsize) phdrSize)

/-- A zero-filled page is mapped at stack page `i`. -/
def StackPage (s : Mmu) (root : Word) (i : ℕ) (frame : Word) : Prop :=
  IsFrame frame ∧
    userMapping s root (.ofNat 64 (userStackBase + i * pageSize)) = some (frame ||| pageUserFlags) ∧
    s.mem frame = fun _ => 0

/-- The body of the stack loop. -/
def stackStep (memmap : List MemmapEntry) (stackPhys : Word) (i : ℕ) : ElfM Word := do
  let pagePhys ← mapNewPage memmap (userStackBase + i * pageSize)
  pure (if i = 0 then pagePhys else stackPhys)

variable {memmap : List MemmapEntry} {all : FrameSet} {forest : Forest} {held : Multiset Word}
  {fs : FileReads} {filename : List UInt8} {content : ℕ → UInt8} {size : ℕ} {s s' : Mmu}
  {root : Word} {st st' : LoadState} {ehdr : Ehdr} {p : Progress}

variable {phdrs : List Phdr} {stackPhys : Word} {count i : ℕ}

theorem StackPage.keep {frame : Word} (h : StackPage s root i frame)
    (huntouched : Untouched s s' root (.ofNat 64 (userStackBase + i * pageSize))) :
    StackPage s' root i frame := by
  obtain ⟨hframe, hmapped, hzero⟩ := h
  refine ⟨hframe, huntouched.1.trans hmapped, ?_⟩
  have hcontents := huntouched.2 _ hmapped
  rw [hframe.leaf] at hcontents
  rw [hcontents, hzero]

theorem stackLoop_report (indices : List ℕ) (stackPhys : Word) :
    Respects KeepsReport (indices.foldlM (stackStep memmap) stackPhys) := by
  induction indices generalizing stackPhys with
  | nil => exact .pure stackPhys
  | cons i rest ih =>
    apply Respects.bind _ fun next => ih next
    exact (mapNewPage_report _).bind fun _ => .pure _

theorem stackPage_aligned (i : ℕ) : (userStackBase + i * pageSize) % 4096 = 0 := by
  rw [userStackBase, pageSize]
  omega

theorem stackPages_limit (hi : i < userStackPageCount) :
    userStackBase + i * pageSize + 4096 ≤ 0x800000000000 := by
  rw [userStackPageCount] at hi
  rw [userStackBase, pageSize]
  omega

theorem stackPage_user (hi : i < userStackPageCount) : userStackBase + i * pageSize < 0x800000000000 :=
  lt_of_lt_of_le (Nat.lt_add_of_pos_right (by decide)) (stackPages_limit hi)

/-- The stack loop maps a zero-filled page for each index and changes no other page. -/
theorem stackLoop_ok {indices : List ℕ} {start : Word}
    (hcall : indices.foldlM (stackStep memmap) start st = .ok stackPhys st') (hram : st'.mmu.outOfRam = false)
    (h : Spaces memmap all st.mmu forest held) (hroot : (4, st.mmu.loaded) ∈ forest) (hnodup : indices.Nodup)
    (hindices : ∀ i ∈ indices, i < userStackPageCount) :
    st'.program = st.program ∧ (ChangesPages memmap all forest held st.mmu st'.mmu fun page =>
        ∃ i ∈ indices, page = userStackBase + i * pageSize) ∧
      (∀ i ∈ indices, ∃ frame, StackPage st'.mmu st.mmu.loaded i frame) ∧
      (0 ∈ indices → StackPage st'.mmu st.mmu.loaded 0 stackPhys) ∧
      (0 ∉ indices → stackPhys = start) := by
  induction indices generalizing st held start with
  | nil =>
    cases hcall
    exact ⟨rfl, .refl h, forall_mem_nil _, fun hin => absurd hin not_mem_nil, fun _ => rfl⟩
  | cons i rest ih =>
    obtain ⟨next, _, hstep, hrest⟩ := bind_eq_ok hcall
    obtain ⟨frame, st₁, hmap, hnext⟩ := bind_eq_ok hstep
    obtain ⟨rfl, rfl⟩ := ok.inj hnext
    have hram₁ := (stackLoop_report rest _).ok hrest hram
    have hi := hindices i mem_cons_self
    obtain ⟨hnotin, hnodup'⟩ := nodup_cons.mp hnodup
    have hlimit := stackPage_user hi
    obtain ⟨hprogram₁, hframe, hchanged₁, hmapped, hzero⟩ := mapNewPage_ok hmap hram₁ h hroot hlimit
    have hloaded := hchanged₁.loaded
    have hroot₁ := hloaded ▸ hroot
    have hloop := fun (held' : Multiset Word) (h' : Spaces memmap all st₁.mmu forest held') =>
      ih hrest h' hroot₁ hnodup' fun j hj => hindices j (mem_cons_of_mem i hj)
    obtain ⟨lost, hlost⟩ := hchanged₁.spaces
    obtain ⟨hprogram, hchanged, hpages, hzeroth, hstart⟩ := hloop _ hlost
    rw [hloaded] at hpages hzeroth
    -- the page just mapped is none of the later ones
    have hself : StackPage st'.mmu st.mmu.loaded i frame := by
      refine StackPage.keep ⟨hframe, hmapped, hzero⟩ ?_
      have hkept := hchanged.touches.untouched st₁.mmu.loaded hroot₁
        (.ofNat 64 (userStackBase + i * pageSize)) (ofNat_user hlimit) (by
          rintro ⟨page, ⟨j, hj, rfl⟩, -, hpath⟩
          have hsame := (pagePath_eq_iff hlimit (stackPage_user (hindices j (mem_cons_of_mem i hj)))).mp hpath
          rw [userStackBase, pageSize] at hsame
          have hij : i = j := by omega
          exact hnotin (hij ▸ hj))
      rwa [hloaded] at hkept
    refine ⟨hprogram.trans hprogram₁, ?_, fun j hj => ?_, fun hin => ?_, fun hout => ?_⟩
    · refine (hchanged₁.mono fun page hpage => ?_).trans fun lost hlost =>
        (hloop _ hlost).2.1.mono fun page hpage => hpage.imp fun j hj => ⟨mem_cons_of_mem i hj.1, hj.2⟩
      exact ⟨i, mem_cons_self, hpage⟩
    · rcases mem_cons.mp hj with rfl | hlater
      · exact ⟨frame, hself⟩
      · exact hpages j hlater
    · rcases mem_cons.mp hin with rfl | hlater
      · rwa [hstart hnotin, if_pos rfl]
      · exact hzeroth hlater
    · have hne : i ≠ 0 := fun heq => hout (heq ▸ mem_cons_self)
      rw [hstart fun hin => hout (mem_cons_of_mem i hin), if_neg hne]

/-- `mapStack` maps eight zero-filled pages and reports the frame of the first. -/
theorem mapStack_ok (hcall : mapStack memmap st = .ok stackPhys st') (hram : st'.mmu.outOfRam = false)
    (h : Spaces memmap all st.mmu forest held) (hroot : (4, st.mmu.loaded) ∈ forest) :
    st'.program = st.program ∧ (ChangesPages memmap all forest held st.mmu st'.mmu fun page =>
        userStackBase ≤ page ∧ page + 4096 ≤ 0x800000000000) ∧
      (∀ i < userStackPageCount, ∃ frame, StackPage st'.mmu st.mmu.loaded i frame) ∧
      StackPage st'.mmu st.mmu.loaded 0 stackPhys := by
  obtain ⟨hprogram, hchanged, hpages, hzeroth, -⟩ := stackLoop_ok hcall hram h hroot
    nodup_range fun i hi => mem_range.mp hi
  refine ⟨hprogram, hchanged.mono ?_, fun i hi => hpages i (mem_range.mpr hi),
    hzeroth (mem_range.mpr (by decide))⟩
  rintro page ⟨i, hi, rfl⟩
  exact ⟨le_self_add, stackPages_limit (mem_range.mp hi)⟩

section

variable (fs : FileReads) (filename : List UInt8)

theorem readHeader_same (offset count : ℕ) (result : ℤ) :
    Respects Eq (readHeader fs filename offset count result) := by
  intro st
  rw [readHeader]
  cases fs.fsReadRawAt filename offset count with
  | none => rfl
  | some found =>
    dsimp only
    split_ifs <;> rfl

/-- Reading the program headers leaves the machine alone. -/
theorem readPhdrs_same (ehdr : Ehdr) (count i : ℕ) : Respects Eq (readPhdrs fs filename ehdr count i) := by
  induction count generalizing i with
  | zero => exact .pure _
  | succ count ih =>
    exact (readHeader_same fs filename _ phdrSize (-5)).bind fun _ => (ih _).bind fun _ => .pure _

/-- Reading the file header leaves the machine alone. -/
theorem readEhdr_same (size : ℕ) : Respects Eq (readEhdr fs filename size) := by
  refine (readHeader_same fs filename 0 ehdrSize (-4)).bind fun _ st => ?_
  rw [refuse, refuse]
  split_ifs <;> rfl

end

/-- A header that was read was read in full. -/
theorem readHeader_full {offset : ℕ} {result : ℤ} {bytes : List UInt8}
    (hcall : readHeader fs filename offset count result st = .ok bytes st') :
    ReadsFull fs filename offset count bytes := by
  rw [readHeader] at hcall
  cases hread : fs.fsReadRawAt filename offset count with
  | none => rw [hread] at hcall; cases hcall
  | some found =>
    rw [hread] at hcall
    dsimp only at hcall
    split_ifs at hcall with hlength
    · cases hcall
      exact ⟨hread, hlength⟩
    · cases hcall

/-- The file header that was read passed its checks. -/
theorem readEhdr_full (hcall : readEhdr fs filename size st = .ok ehdr st') :
    (∃ bytes, ReadsFull fs filename 0 ehdrSize bytes ∧ ehdr = Ehdr.ofBytes bytes) ∧
      ehdr.accepted = true ∧ ehdr.phoff ≤ size ∧
      ehdr.phnum * ehdr.phentsize ≤ size - ehdr.phoff := by
  obtain ⟨bytes, st₁, hfirst, hchecks⟩ := bind_eq_ok hcall
  obtain ⟨haccepted, hbounds⟩ := refuse_bind_ok hchecks
  obtain ⟨htable, hdone⟩ := refuse_bind_ok hbounds
  cases hdone
  refine ⟨⟨bytes, readHeader_full hfirst, rfl⟩, by simpa using haccepted, ?_⟩
  rwa [not_or, not_lt, not_lt] at htable

/-- The program headers that were read were read in full, one after the other. -/
theorem readPhdrs_full (hcall : readPhdrs fs filename ehdr count i st = .ok phdrs st') :
    phdrs.length = count ∧ ∀ k phdr, phdrs[k]? = some phdr →
      ∃ bytes, ReadsFull fs filename (ehdr.phoff + (i + k) * ehdr.phentsize) phdrSize bytes ∧
        phdr = Phdr.ofBytes bytes := by
  induction count generalizing i phdrs st with
  | zero =>
    cases hcall
    exact ⟨rfl, fun k phdr hk => absurd hk (by simp)⟩
  | succ count ih =>
    obtain ⟨bytes, st₁, hfirst, hsecond⟩ := bind_eq_ok hcall
    obtain ⟨rest, st₂, hlater, hdone⟩ := bind_eq_ok hsecond
    cases hdone
    obtain ⟨hlength, hrest⟩ := ih hlater
    refine ⟨by rw [length_cons, hlength], fun k phdr hk => ?_⟩
    cases k with
    | zero => exact ⟨bytes, readHeader_full hfirst, (Option.some.inj hk).symm⟩
    | succ k =>
      have hindex : i + (k + 1) = i + 1 + k := by omega
      rw [hindex]
      exact hrest k phdr hk

/-- Before the loop no segment has been checked. -/
theorem SegmentsChecked.nil (fs : FileReads) (filename : List UInt8) (size entry : ℕ) :
    SegmentsChecked fs filename size entry [] ⟨0, 0, false⟩ := by
  constructor
  · exact forall_mem_nil _
  · exact forall_mem_nil _
  · exact List.Pairwise.nil
  · rfl
  · exact zero_le
  · exact forall_mem_nil _
  · exact forall_mem_nil _
  · exact nofun

/-- Segments stay loaded when only stack pages change. -/
theorem SegmentsLoaded.keep {entry : ℕ} {done : List Phdr}
    (h : SegmentsLoaded fs filename content size entry s s.loaded done p) (hroot : (4, s.loaded) ∈ forest)
    (hchanged : ChangesPages memmap all forest held s s' fun page =>
      userStackBase ≤ page ∧ page + 4096 ≤ 0x800000000000) :
    SegmentsLoaded fs filename content size entry s' s.loaded done p := by
  refine ⟨h.toSegmentsChecked, fun phdr hin virtAddr hlow hhigh => ?_⟩
  have hbelow := (h.fits phdr hin).below
  rw [userStackBase] at hbelow
  rw [hchanged.userByte hroot _ (by omega) _, h.shown phdr hin virtAddr hlow hhigh]
  · rintro page ⟨-, hpage⟩
    omega
  · rintro page ⟨hpage, -⟩ heq
    rw [userStackBase] at hpage
    omega

/-- The steps of `loadImage` that succeed. -/
theorem loadImage_steps (hcall : loadImage memmap fs filename size st = .ok (ehdr, phdrs, p, stackPhys) st') :
    readEhdr fs filename size st = .ok ehdr st ∧ readPhdrs fs filename ehdr ehdr.phnum 0 st = .ok phdrs st ∧
      p.entryIsExecutable = true ∧
      ∃ st₁, loadSegments memmap fs filename size ehdr [] phdrs ⟨0, 0, false⟩ st = .ok p st₁ ∧
        mapStack memmap st₁ = .ok stackPhys st' := by
  obtain ⟨ehdr₁, stEhdr, hehdr, hafterHeader⟩ := bind_eq_ok hcall
  obtain rfl := (readEhdr_same fs filename size).ok hehdr
  obtain ⟨phdrs₁, stPhdrs, hphdrs, hafterTable⟩ := bind_eq_ok hafterHeader
  obtain rfl := (readPhdrs_same fs filename ehdr₁ ehdr₁.phnum 0).ok hphdrs
  obtain ⟨p₁, st₁, hsegments, hchecks⟩ := bind_eq_ok hafterTable
  obtain ⟨-, hchecks⟩ := refuse_bind_ok hchecks
  obtain ⟨hexecutable, hchecks⟩ := refuse_bind_ok hchecks
  obtain ⟨-, hchecks⟩ := refuse_bind_ok hchecks
  obtain ⟨stackPhys₁, stStack, hstack, hdone⟩ := bind_eq_ok hchecks
  obtain ⟨hresult, rfl⟩ := ok.inj hdone
  simp only [Prod.mk.injEq] at hresult
  obtain ⟨rfl, rfl, rfl, rfl⟩ := hresult
  exact ⟨hehdr, hphdrs, by simpa using hexecutable, st₁, hsegments, hstack⟩

section Built

variable {phdrs : List Phdr} {stackPhys : Word}
  (hcall : loadImage memmap fs filename size st = .ok (ehdr, phdrs, p, stackPhys) st')
  (hram : st'.mmu.outOfRam = false) (h : Spaces memmap all st.mmu forest held)
  (hroot : (4, st.mmu.loaded) ∈ forest)

include hcall hram h hroot

/-- A loaded image changes user pages only, not the first one, and ends with eight zero-filled stack pages. -/
theorem loadImage_stack :
    (ChangesPages memmap all forest held st.mmu st'.mmu fun page =>
        4096 ≤ page ∧ page + 4096 ≤ 0x800000000000) ∧
      (∀ i < userStackPageCount, ∃ frame, StackPage st'.mmu st.mmu.loaded i frame) ∧
      StackPage st'.mmu st.mmu.loaded 0 stackPhys := by
  obtain ⟨-, -, -, st₁, hsegments, hstack⟩ := loadImage_steps hcall
  have hram₁ := (stackLoop_report _ _).ok hstack hram
  have hchanged := (loadSegments_step size ehdr [] phdrs _).loads.ok hsegments hram₁ h hroot
  have hroot₁ := hchanged.loaded ▸ hroot
  obtain ⟨lost, hlost⟩ := hchanged.spaces
  obtain ⟨-, -, hpages, hlowest⟩ := mapStack_ok hstack hram hlost hroot₁
  rw [hchanged.loaded] at hpages hlowest
  refine ⟨?_, hpages, hlowest⟩
  refine (hchanged.mono fun page hpage => ?_).trans fun lost hlost =>
    (mapStack_ok hstack hram hlost hroot₁).2.1.mono fun page hpage => ?_
  all_goals
    rw [userStackBase] at hpage
    omega

/-- A loaded image shows the segments of the file. -/
theorem loadImage_segments (hreads : TrueReads fs filename content) :
    ehdr = fileHeader content ∧ p.entryIsExecutable = true ∧
      SegmentsLoaded fs filename content size (fileHeader content).entry st'.mmu st.mmu.loaded
        (fileSegments content) p := by
  obtain ⟨hehdr, hphdrs, hexecutable, st₁, hsegments, hstack⟩ := loadImage_steps hcall
  obtain ⟨⟨bytes, ⟨hread, hlength⟩, rfl⟩, -⟩ := readEhdr_full hehdr
  obtain rfl := hreads 0 ehdrSize bytes hread hlength
  obtain rfl : phdrs = fileSegments content := by
    obtain ⟨hcount, hheaders⟩ := readPhdrs_full hphdrs
    refine ext_getElem (by simpa [fileSegments, fileHeader] using hcount) fun k hk _ => ?_
    obtain ⟨bytes, ⟨hread, hlength⟩, hphdr⟩ := hheaders k _ (getElem?_eq_getElem hk)
    obtain rfl := hreads _ _ bytes hread hlength
    simpa [fileSegments, fileHeader] using hphdr
  have hram₁ := (stackLoop_report _ _).ok hstack hram
  have hchanged := (loadSegments_step size _ [] _ _).loads.ok hsegments hram₁ h hroot
  have hloaded := loadSegments_ok hreads hsegments hram₁ h hroot ⟨.nil fs filename size _, forall_mem_nil _⟩
  have hroot₁ := hchanged.loaded ▸ hroot
  obtain ⟨lost, hlost⟩ := hchanged.spaces
  rw [nil_append, ← hchanged.loaded] at hloaded
  have hkept := hloaded.keep hroot₁ (mapStack_ok hstack hram hlost hroot₁).2.1
  rw [hchanged.loaded] at hkept
  exact ⟨rfl, hexecutable, hkept⟩

end Built

/-!
## Arguments behind the image

The arguments are stored through the physical address of the lowest stack page. As long
as they end inside that page, the program finds them where the loader says, and the image
stays as it was built.
-/

open LittleEndian Phdr Option

/-- Memory after the argument step of the loader. -/
def argumentState (stackPhys : Word) (args : List CString) (s : Mmu) : Mmu :=
  (withArguments stackPhys userStackBase args s).putBytes
    (stackPhys + .ofNat 64 (pointersEnd args)) (encode 8 0)

/-- The image that a file asks for is in place, and the results of the loader describe it. -/
structure ImageInPlace (content : ℕ → UInt8) (s : Mmu) (root : Word) (result : LoadedProgram) :
    Prop where
  apart : ((fileSegments content).filter Phdr.loadable).Pairwise Apart
  inside : ∀ phdr ∈ (fileSegments content).filter Phdr.loadable,
    pageSize ≤ phdr.pageStart ∧ phdr.pageEnd ≤ userStackBase
  total : (((fileSegments content).filter Phdr.loadable).map Phdr.segmentPages).sum * pageSize ≤
    maxElfMemorySize
  bytes : ∀ phdr ∈ (fileSegments content).filter Phdr.loadable, ∀ i < phdr.memsz,
    userByte s root (phdr.vaddr + i) =
      some (if i < phdr.filesz then content (phdr.offset + i) else 0)
  entry : ∃ phdr ∈ (fileSegments content).filter Phdr.loadable, phdr.Executes result.entry
  heap : result.heapBase % pageSize = 0 ∧
    ∀ phdr ∈ (fileSegments content).filter Phdr.loadable, phdr.segEnd ≤ result.heapBase

variable {filename : Option (List UInt8)} {content : ℕ → UInt8} {size : ℕ} {argc : ℤ} {argv : Option Argv}
  {args : List CString} {s s' : Mmu} {stackPhys : Word} {st st' : LoadState} {result : LoadedProgram}

@[simp] theorem putBytes_loaded (s : Mmu) (addr : Word) (bytes : List UInt8) :
    (s.putBytes addr bytes).loaded = s.loaded := by
  induction bytes generalizing s addr with
  | nil => rfl
  | cons b rest ih => exact ih (s.putByte addr b) (addr + 1)

/-- The argument step stores the arguments of the call. -/
theorem storeArguments_ok {userArgv : ℕ} (hcall : storeArguments stackPhys argc argv st = .ok userArgv st') :
    ∃ args, Given argc argv args ∧ userArgv = userStackBase + vectorOffset args ∧
      st'.mmu = argumentState stackPhys args st.mmu ∧ st'.program = st.program := by
  rw [storeArguments] at hcall
  cases hprepare : prepareUserArguments stackPhys userStackBase userArgumentAreaSize argc argv st.mmu with
  | error e mmu => rw [hprepare] at hcall; cases hcall
  | ok address mmu =>
    rw [hprepare] at hcall
    cases hcall
    obtain ⟨args, hgiven, -, hargv, hmmu⟩ := prepareUserArguments_given hprepare
    exact ⟨args, hgiven, hargv, hmmu, rfl⟩

/-- The steps of `system_load_elf_args` that succeed. -/
theorem systemLoadElfArgs_steps
    (hcall : systemLoadElfArgs memmap fs filename size argc argv st = .ok result st') :
    ∃ ehdr phdrs p stackPhys st₁ args,
      loadImage memmap fs (filename.getD []) size st = .ok (ehdr, phdrs, p, stackPhys) st₁ ∧
      Given argc argv args ∧ st'.mmu = argumentState stackPhys args st₁.mmu ∧
      st'.program = st₁.program ∧ result.entry = ehdr.entry ∧
      result.userArgv = userStackBase + vectorOffset args ∧
      result.heapBase = alignUpPage p.highestLoadAddress := by
  obtain ⟨-, hcall⟩ := refuse_bind_ok hcall
  obtain ⟨-, hcall⟩ := refuse_bind_ok hcall
  obtain ⟨-, hcall⟩ := refuse_bind_ok hcall
  obtain ⟨-, hcall⟩ := refuse_bind_ok hcall
  obtain ⟨⟨ehdr, phdrs, p, stackPhys⟩, st₁, himage, hcall⟩ := bind_eq_ok hcall
  obtain ⟨userArgv, st₂, hstore, hdone⟩ := bind_eq_ok hcall
  cases hdone
  obtain ⟨args, hgiven, hargv, hmmu, hprogram⟩ := storeArguments_ok hstore
  exact ⟨ehdr, phdrs, p, stackPhys, st₁, args, himage, hgiven, hmmu, hprogram, rfl, hargv, rfl⟩

theorem argumentState_outOfRam : (argumentState stackPhys args s).outOfRam = s.outOfRam := by
  rw [argumentState, withArguments, putBytes_outOfRam, putBytes_outOfRam, putBytes_outOfRam]

theorem argumentState_loaded : (argumentState stackPhys args s).loaded = s.loaded := by
  rw [argumentState, withArguments, putBytes_loaded, putBytes_loaded, putBytes_loaded]

/-- A call gives one list of arguments. -/
theorem Given.unique {args' : List CString} (h : Given argc argv args) (h' : Given argc argv args') :
    args = args' := by
  have hlength : args.length = args'.length := by
    have hargc := h.argc.symm.trans h'.argc
    omega
  apply ext_getElem? fun i => ?_
  cases hi : args[i]? with
  | none =>
    rw [getElem?_eq_none_iff] at hi
    rw [getElem?_eq_none (by omega)]
  | some a =>
    have hlt := hlength ▸ (List.getElem?_eq_some_iff.mp hi).1
    obtain ⟨strings, rfl, hstring⟩ := h.passes i a hi
    obtain ⟨strings', hsame, hstring'⟩ := h'.passes i _ (getElem?_eq_getElem hlt)
    rw [getElem?_eq_getElem hlt]
    cases hsame
    rw [← hstring, hstring']

section Lowest

variable (h : Spaces memmap all s forest held) (hroot : (4, s.loaded) ∈ forest)
  (hframe : IsFrame stackPhys)
  (hmapped : userMapping s s.loaded (.ofNat 64 userStackBase) =
    some (stackPhys ||| pageUserFlags))

include h hroot hframe hmapped

omit h in
/-- Storing inside the lowest stack page, where at most that page has changed, changes that page only
and keeps all mappings. -/
theorem putBytes_lowest {o : ℕ} {bytes : List UInt8} (hroom : o + bytes.length ≤ 4096)
    (hdone : ChangesPages memmap all forest held s s' (· = userStackBase) ∧
      ∀ root, (4, root) ∈ forest → ∀ virtAddr < 0x800000000000,
        userMapping s' root virtAddr = userMapping s root virtAddr) :
    ChangesPages memmap all forest held s (s'.putBytes (stackPhys + .ofNat 64 o) bytes)
        (· = userStackBase) ∧
      ∀ root, (4, root) ∈ forest → ∀ virtAddr < 0x800000000000,
        userMapping (s'.putBytes (stackPhys + .ofNat 64 o) bytes) root virtAddr =
          userMapping s root virtAddr := by
  obtain ⟨hchanged, hsame⟩ := hdone
  have hroot' : (4, s'.loaded) ∈ forest := hchanged.loaded.symm ▸ hroot
  have hmapped' : userMapping s' s'.loaded (.ofNat 64 userStackBase) =
      some (stackPhys ||| pageUserFlags) := by
    rw [hchanged.loaded, hsame _ hroot _ (ofNat_user (by decide)), hmapped]
  have hput := fun lost (hlost : Spaces memmap all s' forest (lost + held)) =>
    putBytes_page hlost hroot' hframe hmapped' hroom (by decide) (by decide)
  obtain ⟨lost, hlost⟩ := hchanged.spaces
  refine ⟨hchanged.trans fun lost hlost => (hput lost hlost).1, fun root hin virtAddr hvirt => ?_⟩
  rw [(hput lost hlost).2.1 root hin virtAddr hvirt, hsame root hin virtAddr hvirt]

/-- Storing strings and pointers that end inside the lowest stack page changes that page only. -/
theorem withArguments_changes (hend : pointersEnd args ≤ 4096) :
    ChangesPages memmap all forest held s (withArguments stackPhys userStackBase args s) (· = userStackBase) ∧
      ∀ root, (4, root) ∈ forest → ∀ virtAddr < 0x800000000000,
        userMapping (withArguments stackPhys userStackBase args s) root virtAddr =
          userMapping s root virtAddr := by
  obtain ⟨hbehind, -⟩ := vectorOffset_spec args
  rw [pointersEnd] at hend
  have hroom : vectorOffset args + (pointerBytes userStackBase args).length ≤ 4096 := by
    rwa [pointerBytes_length]
  have hstrings : 0 + (argumentStrings args).length ≤ 4096 := by omega
  have hfirst := putBytes_lowest hroot hframe hmapped hstrings ⟨.refl h, fun _ _ _ _ => rfl⟩
  rw [BitVec.add_zero] at hfirst
  exact putBytes_lowest hroot hframe hmapped hroom hfirst

/-- Storing arguments that end inside the lowest stack page changes that page only and keeps all
mappings. -/
theorem argumentState_changes (hend : pointersEnd args + 8 ≤ 4096) :
    ChangesPages memmap all forest held s (argumentState stackPhys args s) (· = userStackBase) ∧
      ∀ root, (4, root) ∈ forest → ∀ virtAddr < 0x800000000000,
        userMapping (argumentState stackPhys args s) root virtAddr = userMapping s root virtAddr := by
  have hroom : pointersEnd args + (encode 8 0).length ≤ 4096 := by
    rwa [encode_length]
  exact putBytes_lowest hroot hframe hmapped hroom (withArguments_changes h hroot hframe hmapped (by omega))

end Lowest

/-- The loaded segments with the counters of the loop are an image in place. -/
theorem SegmentsLoaded.inPlace {name : List UInt8} {p : Progress} {root : Word}
    (h : SegmentsLoaded fs name content size (fileHeader content).entry s root (fileSegments content) p)
    (hexecutable : p.entryIsExecutable = true) (hentry : result.entry = (fileHeader content).entry)
    (hheap : result.heapBase = alignUpPage p.highestLoadAddress) :
    ImageInPlace content s root result := by
  refine ⟨h.apart, fun phdr hin => ⟨?_, (h.fits phdr hin).below⟩, ?_, fun phdr hin i hi => ?_, ?_,
    ?_, fun phdr hin => ?_⟩
  · obtain ⟨-, -, -, hvaddr, -, -⟩ := h.fits phdr hin
    obtain ⟨halign, -, hstart⟩ := phdr.pageStart_spec
    rw [pageSize] at hvaddr ⊢
    omega
  · have hbound := h.bound
    rw [h.total]
    rw [maxElfMemorySize, pageSize] at hbound ⊢
    omega
  · obtain ⟨-, hlow, -⟩ := phdr.pageStart_spec
    obtain ⟨-, hhigh, -⟩ := phdr.pageEnd_spec
    rw [segEnd] at hhigh
    rw [h.shown phdr hin (phdr.vaddr + i) (by omega) (by omega), image]
    by_cases hfile : i < phdr.filesz
    · rw [if_pos hfile, if_pos (by omega), Nat.add_sub_cancel_left]
    · rw [if_neg hfile, if_neg (by omega)]
  · rw [hentry]
    exact h.executable hexecutable
  · rw [hheap, alignUpPage]
    exact Nat.mul_mod_left _ _
  · have hhighest := h.highest phdr hin
    rw [hheap, alignUpPage, pageSize]
    omega

/-- Where the arguments end inside the lowest stack page, a loaded program has its image in
place. -/
theorem image_in_place_of_fits (hreads : TrueReads fs (filename.getD []) content)
    (hfits : ∀ args, Given argc argv args → pointersEnd args + 8 ≤ pageSize)
    (h : Spaces memmap all st.mmu forest held) (hroot : (4, st.mmu.loaded) ∈ forest)
    (hcall : systemLoadElfArgs memmap fs filename size argc argv st = .ok result st')
    (hram : st'.mmu.outOfRam = false) :
    ImageInPlace content st'.mmu st'.mmu.loaded result := by
  obtain ⟨ehdr, phdrs, p, stackPhys, st₁, args, himage, hgiven, hmmu, -, hentry, -, hheap⟩ :=
    systemLoadElfArgs_steps hcall
  rw [hmmu, argumentState_outOfRam] at hram
  obtain ⟨rfl, hexecutable, hsegments⟩ := loadImage_segments himage hram h hroot hreads
  obtain ⟨hchanged, -, hframe, hmapped, -⟩ := loadImage_stack himage hram h hroot
  rw [← hchanged.loaded] at hroot hsegments hmapped
  obtain ⟨lost, hlost⟩ := hchanged.spaces
  obtain ⟨hstored, -⟩ := argumentState_changes hlost hroot hframe hmapped (hfits args hgiven)
  have hkept := hsegments.keep hroot (hstored.mono fun page hpage => by
    rw [hpage]
    decide)
  rw [hmmu, argumentState_loaded]
  exact hkept.inPlace hexecutable hentry hheap

theorem nullBytes_getD (k : ℕ) : ((encode 8 0)[k]?).getD 0 = 0 := by
  have hzeros : encode 8 0 = replicate 8 0 := by decide
  rw [hzeros, getElem?_replicate]
  split_ifs <;> rfl

section Stack

variable (h : Spaces memmap all s forest held) (hroot : (4, s.loaded) ∈ forest)
  (hlowest : StackPage s s.loaded 0 stackPhys) (hgiven : Given argc argv args)
  (hend : pointersEnd args ≤ pageSize)

include h hroot hlowest hend

/-- Storing strings and pointers that end with the lowest stack page at the latest keeps the
mappings of the first two stack pages, wherever the null pointer goes. -/
theorem argumentState_mapping {i : ℕ} (hi : i < 2) :
    userMapping (argumentState stackPhys args s) s.loaded (.ofNat 64 (userStackBase + i * pageSize)) =
      userMapping s s.loaded (.ofNat 64 (userStackBase + i * pageSize)) := by
  obtain ⟨hframe, hmapped, -⟩ := hlowest
  rw [zero_mul, Nat.add_zero] at hmapped
  have hvirt := ofNat_user (stackPage_user (lt_trans hi (by decide)))
  rw [pageSize] at hend
  by_cases hinside : pointersEnd args + 8 ≤ 4096
  · exact (argumentState_changes h hroot hframe hmapped hinside).2 _ hroot _ hvirt
  -- the null pointer is the first word behind the page
  obtain ⟨-, hmod⟩ := vectorOffset_spec args
  have hlast : pointersEnd args = 4096 := by
    rw [pointersEnd] at hend hinside ⊢
    omega
  have hnext := aligned_add hframe.offset 1
  have hslots : ∀ j ∈ pagePath (.ofNat 64 (userStackBase + i * pageSize)), j ≠ (0 : Fin 512) := by
    intro j hj hzero
    have hval := congrArg Fin.val hzero
    have hsmall : userStackBase + i * pageSize < 2 ^ 64 := by
      rw [userStackBase, pageSize]
      omega
    simp only [pagePath, tablePath, mem_append, mem_cons, not_mem_nil, or_false] at hj
    rcases hj with (rfl | rfl | rfl) | rfl
    all_goals
      rw [tableIndex_val hsmall, userStackBase, pageSize, Fin.val_zero] at hval
      omega
  have hwords : ∀ table, ∀ j ∈ pagePath (.ofNat 64 (userStackBase + i * pageSize)),
      (argumentState stackPhys args s).mem table j =
        (withArguments stackPhys userStackBase args s).mem table j := by
    intro table j hj
    have hnull : 0 + (encode 8 0).length ≤ 4096 := by decide
    have hput := putBytes_word hnext hnull (j := j) (by
      intro k hk
      have hword : wordIndex (0 + k) = 0 := by
        rw [encode_length] at hk
        rw [wordIndex, zero_add, Nat.div_eq_of_lt hk]
        rfl
      rw [hword]
      exact (hslots j hj).symm) (withArguments stackPhys userStackBase args s) table
    rw [BitVec.add_zero] at hput
    rw [argumentState, hlast, hput]
  rw [userMapping_of_words hwords, (withArguments_changes h hroot hframe hmapped hend).2 _ hroot _ hvirt]

include hgiven

/-- Arguments that end with the lowest stack page at the latest can be read through the page
tables. -/
theorem argumentState_argvAt (hsecond : ∃ frame, StackPage s s.loaded 1 frame) :
    ArgvAt (userByte (argumentState stackPhys args s) s.loaded) (userStackBase + vectorOffset args) args := by
  obtain ⟨hbehind, hmod⟩ := vectorOffset_spec args
  have hmapping := fun i (hi : i < 2) => argumentState_mapping h hroot hlowest hend hi
  have hlow := hmapping 0 (by decide)
  have hhigh := hmapping 1 (by decide)
  obtain ⟨hframe, hmapped, -⟩ := hlowest
  rw [hmapped, zero_mul, Nat.add_zero] at hlow
  rw [zero_mul, Nat.add_zero] at hmapped
  rw [pageSize] at hend
  obtain ⟨hstrings, hpointers, hnull⟩ := storedArguments_bytes hgiven stackPhys userStackBase s
  -- a byte of the lowest stack page
  have hbyte : ∀ c < 4096, ∀ b, (argumentState stackPhys args s).byte (stackPhys + .ofNat 64 c) = b →
      userByte (argumentState stackPhys args s) s.loaded (userStackBase + c) = some b := by
    intro c hc b hb
    have hlimit : userStackBase + c < 0x800000000000 := by
      rw [userStackBase]
      omega
    rw [userByte_eq (by decide) hc hlimit hlow, hframe.leaf, hb]
  rw [pointersEnd] at hend
  refine argvAt_of_stored (fun c b hb => ?_) (fun c b hb => ?_) (fun j hj => ?_) (by
    rw [userStackBase]
    omega)
  · have hc : c < (argumentStrings args).length := (List.getElem?_eq_some_iff.mp hb).1
    exact hbyte c (by omega) b (hstrings c b hb)
  · have hc : c < 8 * args.length := by
      rw [← pointerBytes_length userStackBase args]
      exact (List.getElem?_eq_some_iff.mp hb).1
    exact hbyte _ (by omega) b (hpointers c b hb)
  · by_cases hinside : pointersEnd args + j < 4096
    · exact hbyte _ hinside 0 (hnull j hj)
    -- the null pointer is read from the second stack page, which is zero
    have hlast : pointersEnd args = 4096 := by
      rw [pointersEnd] at hinside ⊢
      omega
    obtain ⟨second, hsecondFrame, hsecondMapped, hsecondZero⟩ := hsecond
    rw [hsecondMapped] at hhigh
    have hpointers := hlast.le
    have hchanged := (withArguments_changes h hroot hframe hmapped hpointers).1
    have huntouched := hchanged.touches.untouched s.loaded hroot
      (.ofNat 64 (userStackBase + 1 * pageSize)) (ofNat_user (by decide)) (by
        rintro ⟨page, rfl, -, hpath⟩
        rw [pagePath_eq_iff (by decide) (by decide)] at hpath
        contradiction)
    have hcontents := huntouched.2 _ hsecondMapped
    rw [hsecondFrame.leaf, hsecondZero] at hcontents
    have hzero := byte_zero hsecondFrame (c := j) (by omega) hcontents
    have hsplit : userStackBase + (pointersEnd args + j) = userStackBase + 1 * pageSize + j := by
      rw [hlast, pageSize]
      omega
    have hlimit : userStackBase + 1 * pageSize + j < 0x800000000000 := by
      rw [userStackBase, pageSize]
      omega
    rw [hsplit, userByte_eq (by decide) (by omega) hlimit hhigh, hsecondFrame.leaf, argumentState,
      byte_putBytes _ _ _ _ (by decide), hzero, nullBytes_getD]

end Stack

/-- Where the pointers end with the lowest stack page at the latest, a loaded program can read its
arguments. -/
theorem argv_readable_of_fits (hgiven : Given argc argv args) (hfits : pointersEnd args ≤ pageSize)
    (h : Spaces memmap all st.mmu forest held) (hroot : (4, st.mmu.loaded) ∈ forest)
    (hcall : systemLoadElfArgs memmap fs filename size argc argv st = .ok result st')
    (hram : st'.mmu.outOfRam = false) :
    ArgvAt (userByte st'.mmu st'.mmu.loaded) result.userArgv args := by
  obtain ⟨ehdr, phdrs, p, stackPhys, st₁, args', himage, hgiven', hmmu, -, -, hargv, -⟩ :=
    systemLoadElfArgs_steps hcall
  obtain rfl : args' = args := hgiven'.unique hgiven
  rw [hmmu, argumentState_outOfRam] at hram
  obtain ⟨hchanged, hstack, hlowest⟩ := loadImage_stack himage hram h hroot
  have hsecond := hstack 1 (by decide)
  rw [← hchanged.loaded] at hroot hlowest hsecond
  obtain ⟨lost, hlost⟩ := hchanged.spaces
  rw [hmmu, argumentState_loaded, hargv]
  exact argumentState_argvAt hlost hroot hlowest hgiven hfits hsecond

end Windoge.Exec
