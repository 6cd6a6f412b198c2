import Windoge.Exec.FreshLoad

/-!
# Arguments past the first stack page

The arguments are stored through the physical address of the lowest stack page, but the
stack pages need not lie next to each other. What is stored past the end of that page
lands wherever the next physical frame is used, and the program reads something else in
its stack. So the conditions under which the image is in place and the arguments can be
read are exact.
-/

namespace Windoge.Exec

open Paging FrameTree Windoge.Flow LittleEndian List Option

variable {argc : ℤ} {argv : Option Argv} {args : List CString} {s : Mmu} {stackPhys : Word}

/-- Storing at most three pages from a frame on changes that frame and the two behind it only. -/
theorem putBytes_range {frame q : Word} {o : ℕ} {bytes : List UInt8}
    (hframe : frame &&& pageOffsetMask = 0) (hroom : o + bytes.length ≤ 3 * 4096)
    (hfirst : frame ≠ q) (hsecond : frame + 0x1000 ≠ q) (hthird : frame + 0x2000 ≠ q) (s : Mmu) :
    (s.putBytes (frame + .ofNat 64 o) bytes).mem q = s.mem q := by
  apply putBytes_mem
  intro i hi
  have haddr : frame + .ofNat 64 o + .ofNat 64 i =
      frame + .ofNat 64 (4096 * ((o + i) / 4096)) + .ofNat 64 ((o + i) % 4096) := by
    rw [add_assoc, add_assoc, ← BitVec.ofNat_add, ← BitVec.ofNat_add, Nat.div_add_mod]
  rw [haddr, (frameOf_add (aligned_add hframe _) (Nat.mod_lt _ (by decide))).1]
  have hcases : (o + i) / 4096 = 0 ∨ (o + i) / 4096 = 1 ∨ (o + i) / 4096 = 2 := by omega
  rcases hcases with hk | hk | hk
  · rw [hk, mul_zero, BitVec.add_zero]
    exact hfirst
  · rw [hk]
    exact hsecond
  · rwa [hk]

/-- Storing the arguments changes the frame of the lowest stack page and the two frames behind it
only. -/
theorem argumentState_mem {q : Word} (hgiven : Given argc argv args) (hframe : stackPhys &&& pageOffsetMask = 0)
    (hfirst : stackPhys ≠ q) (hsecond : stackPhys + 0x1000 ≠ q) (hthird : stackPhys + 0x2000 ≠ q) :
    (argumentState stackPhys args s).mem q = s.mem q := by
  have hpages := hgiven.room
  obtain ⟨hbehind, -⟩ := vectorOffset_spec args
  have hpointers : vectorOffset args + (pointerBytes userStackBase args).length ≤ 3 * 4096 := by
    rw [pointerBytes_length, ← pointersEnd]
    omega
  have hstrings : 0 + (argumentStrings args).length ≤ 3 * 4096 := by
    rw [pointersEnd] at hpages
    omega
  have hkept := putBytes_range hframe hstrings hfirst hsecond hthird s
  rw [BitVec.add_zero] at hkept
  rw [argumentState, putBytes_range hframe (by rw [encode_length]; omega) hfirst hsecond hthird, withArguments,
    putBytes_range hframe hpointers hfirst hsecond hthird, hkept]

/-- The byte that the arguments leave just behind the lowest stack page does not depend on what was
there before. -/
theorem argumentState_stray (hgiven : Given argc argv args) (hlong : 4096 < pointersEnd args + 8)
    (stackPhys : Word) :
    ∃ stray, ∀ s : Mmu, (argumentState stackPhys args s).byte (stackPhys + .ofNat 64 4096) = stray := by
  have hbytes := storedArguments_bytes hgiven stackPhys userStackBase
  obtain ⟨-, hmod⟩ := vectorOffset_spec args
  by_cases hnull : pointersEnd args ≤ 4096
  · -- the null pointer
    obtain ⟨j, hj⟩ := Nat.exists_eq_add_of_le hnull
    rw [hj]
    exact ⟨0, fun s => (hbytes s).2.2 j (by omega)⟩
  rw [pointersEnd] at hnull
  by_cases hvector : vectorOffset args ≤ 4096
  · -- a pointer
    obtain ⟨c, hc⟩ := Nat.exists_eq_add_of_le hvector
    rw [hc]
    have hin : c < (pointerBytes userStackBase args).length := by
      rw [pointerBytes_length]
      omega
    exact ⟨_, fun s => (hbytes s).2.1 c _ (getElem?_eq_getElem hin)⟩
  · -- a character
    rw [vectorOffset] at hvector hmod
    have hin : 4096 < (argumentStrings args).length := by omega
    exact ⟨_, fun s => (hbytes s).1 4096 _ (getElem?_eq_getElem hin)⟩

/-- On the recycled machine the arguments are stored in no page table. -/
theorem TinyBuilt.mapping (h : TinyBuilt s) (hgiven : Given argc argv args) {virtAddr : Word}
    (hvirt : virtAddr < 0x800000000000) :
    userMapping (argumentState 0x100000 args s) 0x1000 virtAddr = userMapping s 0x1000 virtAddr := by
  obtain ⟨held, hspaces⟩ := h.spaces
  have hroot : (4, 0x1000) ∈ ({(4, 0x1000)} : Forest) := Multiset.mem_singleton_self _
  apply hspaces.mapping_of_tables hroot _ hvirt
  intro below q htable
  apply argumentState_mem hgiven (by decide)
  · rintro rfl
    exact hspaces.page_not_table hroot (by decide) h.lowest.2.1 _ hroot below htable
  · rintro rfl
    exact hspaces.page_not_table hroot (by decide) h.code _ hroot below htable
  · -- the third frame is not in memory
    rintro rfl
    exact absurd (hspaces.balanced.mem_all (Multiset.mem_add.mpr (.inl
      (mem_forestFrames hroot htable.mem_frames)))) (by decide)

theorem isFrame_code : IsFrame 0x101000 := isFrame_ofNat (n := 0x101000) (by decide) (by decide) (by decide)

/-- On the recycled machine the program finds the bytes behind the lowest stack page in its code. -/
theorem TinyBuilt.code_byte (h : TinyBuilt s) (hgiven : Given argc argv args) :
    userByte (argumentState 0x100000 args s) 0x1000 0x400000 =
      some ((argumentState 0x100000 args s).byte (0x100000 + .ofNat 64 4096)) := by
  have hmapped := (h.mapping hgiven (ofNat_user (by decide : 0x400000 < _))).trans h.code
  have hshown := userByte_eq (o := 0) (by decide) (by decide) (by decide) hmapped
  have hnext : (0x100000 : Word) + .ofNat 64 4096 = 0x101000 := rfl
  rw [hnext, hshown, isFrame_code.leaf, BitVec.add_zero]

/-- On the recycled machine the program finds zeros in its stack behind the lowest page. -/
theorem TinyBuilt.stack_byte (h : TinyBuilt s) (hgiven : Given argc argv args) {c : ℕ}
    (hlow : 4096 ≤ c) (hhigh : c < userStackPageCount * pageSize) :
    userByte (argumentState 0x100000 args s) 0x1000 (userStackBase + c) = some 0 := by
  obtain ⟨held, hspaces⟩ := h.spaces
  have hroot : (4, 0x1000) ∈ ({(4, 0x1000)} : Forest) := Multiset.mem_singleton_self _
  rw [userStackPageCount, pageSize] at hhigh
  have hin : c / 4096 < userStackPageCount := by
    rw [userStackPageCount]
    omega
  obtain ⟨frame, hframe, hmapped, hzero⟩ := h.stack (c / 4096) hin
  have hlimit := stackPage_user hin
  -- another page of the program is in another frame
  have hother : ∀ (other : Word) (page : ℕ), IsFrame other → page < 0x800000000000 →
      userMapping s 0x1000 (.ofNat 64 page) = some (other ||| pageUserFlags) →
      page / 4096 ≠ (userStackBase + c / 4096 * pageSize) / 4096 → other ≠ frame := by
    intro other page hisFrame hpage hmap hne heq
    subst heq
    obtain ⟨-, hpath⟩ := hspaces.samePage_of_frame hroot (ofNat_user hlimit) hmapped
      hroot (ofNat_user hpage) hmap rfl
    exact hne ((pagePath_eq_iff hpage hlimit).mp hpath)
  have hkept : (argumentState 0x100000 args s).mem frame = s.mem frame := by
    apply argumentState_mem hgiven (by decide)
    · obtain ⟨hisFrame, hlowest, -⟩ := h.lowest
      refine hother _ (userStackBase + 0 * pageSize) hisFrame (by decide) hlowest ?_
      rw [userStackBase, pageSize]
      omega
    · refine hother 0x101000 0x400000 isFrame_code (by decide) h.code ?_
      rw [userStackBase, pageSize]
      omega
    · rintro rfl
      have hpath := follow_page (hspaces.space_marked hroot) (ofNat_user hlimit) hmapped
      rw [hframe.leaf] at hpath
      exact absurd (hspaces.balanced.mem_all (Multiset.mem_add.mpr (.inl
        (mem_forestFrames hroot (follow_mem_frames hpath))))) (by decide)
  have hsplit : userStackBase + c = userStackBase + c / 4096 * pageSize + c % 4096 := by
    rw [pageSize]
    omega
  have hmod : c % 4096 < 4096 := Nat.mod_lt _ (by decide)
  rw [hsplit, userByte_eq (stackPage_aligned _) hmod
    (Nat.lt_of_lt_of_le (Nat.add_lt_add_left hmod _) (stackPages_limit hin))
    ((h.mapping hgiven (ofNat_user hlimit)).trans hmapped), hframe.leaf,
    byte_zero hframe hmod (hkept.trans hzero)]

/-- Arguments that end past the lowest stack page overwrite the code of a program that holds another
byte there. -/
theorem stray_breaks_image (hgiven : Given argc argv args) (hlong : pageSize < pointersEnd args + 8) :
    ∃ code result st', systemLoadElfArgs gapMemmap (tinyReads code) (some tinyName) tinySize argc argv
        ⟨recycledMachine, noProgram⟩ = .ok result st' ∧ st'.mmu.outOfRam = false ∧
      ¬ ImageInPlace (tinyFile code) st'.mmu st'.mmu.loaded result := by
  obtain ⟨stray, hstray⟩ := argumentState_stray hgiven hlong 0x100000
  obtain ⟨result, s, hbuilt, -, hcall⟩ := tinyFile_loads hgiven (stray + 1)
  refine ⟨stray + 1, result, _, hcall, argumentState_outOfRam.trans hbuilt.ram, fun himage => ?_⟩
  have hsegment : tinySegment ∈ (fileSegments (tinyFile (stray + 1))).filter Phdr.loadable := by
    rw [fileSegments_tinyFile]
    decide
  have hbyte := himage.bytes tinySegment hsegment 0 (by decide)
  have hloaded : (argumentState 0x100000 args s).loaded = 0x1000 := argumentState_loaded.trans hbuilt.loaded
  have hcode : userByte (argumentState 0x100000 args s) 0x1000 0x400000 = some (stray + 1) := by
    rwa [hloaded] at hbyte
  rw [hbuilt.code_byte hgiven, hstray s] at hcode
  have hne : stray ≠ stray + 1 := by
    intro heq
    have hnat := congrArg UInt8.toNat heq
    have hone : (1 : UInt8).toNat = 1 := rfl
    rw [UInt8.toNat_add, hone] at hnat
    omega
  exact hne (some.inj hcode)

/-- A word whose bytes are zero is zero. -/
theorem WordAt.eq_zero {view : ℕ → Option UInt8} {address value : ℕ} (h : WordAt view address value)
    (hzero : ∀ j < 8, view (address + j) = some 0) : value = 0 := by
  obtain ⟨hlt, hbytes⟩ := h
  have hencode : encode 8 value = encode 8 0 := by
    apply map_congr_left
    intro j hj
    have hj' := mem_range.mp hj
    have hbyte := (hbytes j hj').symm.trans (hzero j hj')
    rw [some.inj hbyte]
    simp [byteAt]
  have hdecode := congrArg decode hencode
  rwa [decode_encode_of_lt (by omega), decode_encode_of_lt (by decide)] at hdecode

/-- Where the pointers end past the lowest stack page, the program cannot read its last argument. -/
theorem stray_breaks_argv (hgiven : Given argc argv args) (hlong : pageSize < pointersEnd args) (code : UInt8) :
    ∃ result st', systemLoadElfArgs gapMemmap (tinyReads code) (some tinyName) tinySize argc argv
        ⟨recycledMachine, noProgram⟩ = .ok result st' ∧ st'.mmu.outOfRam = false ∧
      ¬ ArgvAt (userByte st'.mmu st'.mmu.loaded) result.userArgv args := by
  obtain ⟨result, s, hbuilt, hargv, hcall⟩ := tinyFile_loads hgiven code
  refine ⟨result, _, hcall, argumentState_outOfRam.trans hbuilt.ram, fun hread => ?_⟩
  have hloaded : (argumentState 0x100000 args s).loaded = 0x1000 := argumentState_loaded.trans hbuilt.loaded
  have hpages := hgiven.room
  obtain ⟨-, hmod⟩ := vectorOffset_spec args
  rw [pageSize, pointersEnd] at hlong
  rw [pointersEnd] at hpages
  have hpos : 0 < args.length := by
    rw [vectorOffset, length_pos_iff] at *
    rintro rfl
    simp [argumentStrings] at hlong
  -- the pointer to the last argument is read as zero
  obtain ⟨address, hword, hstring⟩ := hread.strings (args.length - 1)
    (args.get ⟨args.length - 1, by omega⟩) (by simp)
  rw [hloaded, hargv] at hword
  obtain rfl : address = 0 := by
    apply hword.eq_zero
    intro j hj
    have hindex : userStackBase + vectorOffset args + 8 * (args.length - 1) + j =
        userStackBase + (vectorOffset args + 8 * (args.length - 1) + j) := by omega
    rw [hindex]
    apply hbuilt.stack_byte hgiven
    · omega
    · rw [userStackPageCount, pageSize]
      omega
  -- and no page is mapped there
  have hnull : userByte (argumentState 0x100000 args s) 0x1000 0 = none := by
    have hmapping := hbuilt.mapping hgiven (ofNat_user (by decide : 0 < _))
    have hbefore := hbuilt.null
    rw [userByte, map_eq_none_iff] at hbefore ⊢
    rw [hmapping, hbefore]
  rw [hloaded] at hstring
  have hfirst := hstring 0 _ (getElem?_eq_getElem (by simp))
  rw [add_zero, hnull] at hfirst
  cases hfirst

/-- Every program that is loaded with given arguments while frames are available has its image in
place exactly if the arguments with their null pointer end inside the lowest stack page. -/
theorem image_in_place_iff (argc : ℤ) (argv : Option Argv) :
    (∀ (memmap : List MemmapEntry) (all : FrameSet) (forest : Forest) (held : Multiset Word)
        (fs : FileReads) (filename : Option (List UInt8)) (content : ℕ → UInt8) (size : ℕ)
        (st st' : LoadState) (result : LoadedProgram),
      st.program.regions = [] → TrueReads fs (filename.getD []) content →
        Spaces memmap all st.mmu forest held → (4, st.mmu.loaded) ∈ forest →
        systemLoadElfArgs memmap fs filename size argc argv st = .ok result st' →
        st'.mmu.outOfRam = false → ImageInPlace content st'.mmu st'.mmu.loaded result) ↔
      ∀ args, Given argc argv args → pointersEnd args + 8 ≤ pageSize := by
  constructor
  · intro hall args hgiven
    by_contra hlong
    obtain ⟨code, result, st', hcall, hram, hbroken⟩ := stray_breaks_image hgiven (not_le.mp hlong)
    exact hbroken (hall _ _ _ _ _ _ _ _ _ _ _ rfl (fun _ _ _ hread _ => (some.inj hread).symm)
      recycledMachine_spaces recycledMachine_root hcall hram)
  · intro hfits memmap all forest held fs filename content size st st' result _ hreads h hroot hcall hram
    exact image_in_place_of_fits hreads hfits h hroot hcall hram

/-- An argument of 255 characters. -/
def longArgument : CString where
  bytes := List.replicate 255 0x61
  nonzero b hb := by
    rw [List.eq_of_mem_replicate hb]
    decide

theorem longArguments_given :
    Given 17 (some fun _ => some longArgument) (List.replicate 17 longArgument) where
  argc := by rw [List.length_replicate]; rfl
  count := by rw [List.length_replicate]; decide
  short a ha := by
    rw [eq_of_mem_replicate ha, longArgument, length_replicate]
    decide
  passes i a ha := by
    refine ⟨_, rfl, ?_⟩
    have hin := mem_of_getElem? ha
    rw [eq_of_mem_replicate hin]

theorem longArguments_length (count : ℕ) :
    (argumentStrings (List.replicate count longArgument)).length = count * 256 := by
  have hone : (longArgument.bytes ++ [0]).length = 256 := by
    rw [longArgument, length_append, length_replicate, length_singleton]
  rw [argumentStrings, length_flatMap, map_replicate, sum_replicate, hone, smul_eq_mul]

theorem longArguments_end : pageSize < pointersEnd (List.replicate 17 longArgument) := by
  rw [pointersEnd, vectorOffset, longArguments_length, pageSize]
  omega

/-- Seventeen arguments of 255 characters overwrite the code of the program they are given to. -/
theorem long_arguments_overwrite_code :
    ∃ code result st', systemLoadElfArgs gapMemmap (tinyReads code) (some tinyName) tinySize 17
        (some fun _ => some longArgument) ⟨recycledMachine, noProgram⟩ = .ok result st' ∧
      st'.mmu.outOfRam = false ∧ ¬ ImageInPlace (tinyFile code) st'.mmu st'.mmu.loaded result :=
  stray_breaks_image longArguments_given (lt_trans longArguments_end (Nat.lt_add_of_pos_right (by decide)))

/-- Every program that is loaded with given arguments while frames are available can read them
through its page tables exactly if the pointers end inside the lowest stack page. -/
theorem argv_readable_iff {args : List CString} (hcount : args.length ≤ 32)
    (hshort : ∀ a ∈ args, a.bytes.length < 256) :
    (∀ (memmap : List MemmapEntry) (all : FrameSet) (forest : Forest) (held : Multiset Word)
        (fs : FileReads) (filename : Option (List UInt8)) (size : ℕ) (argv : Option Argv)
        (st st' : LoadState) (result : LoadedProgram),
      Passes argv args → Spaces memmap all st.mmu forest held → (4, st.mmu.loaded) ∈ forest →
        systemLoadElfArgs memmap fs filename size args.length argv st = .ok result st' →
        st'.mmu.outOfRam = false →
        ArgvAt (userByte st'.mmu st'.mmu.loaded) result.userArgv args) ↔
      pointersEnd args ≤ pageSize := by
  constructor
  · intro hall
    by_contra hlong
    have hpasses : Passes (some fun i => args[i]?) args := fun i a ha => ⟨_, rfl, ha⟩
    obtain ⟨result, st', hcall, hram, hbroken⟩ :=
      stray_breaks_argv ⟨rfl, hcount, hshort, hpasses⟩ (not_le.mp hlong) 0
    exact hbroken (hall _ _ _ _ _ _ _ _ _ _ _ hpasses recycledMachine_spaces recycledMachine_root hcall hram)
  · intro hfits memmap all forest held fs filename size argv st st' result hpasses h hroot hcall hram
    exact argv_readable_of_fits ⟨rfl, hcount, hshort, hpasses⟩ hfits h hroot hcall hram

/-- Three arguments of 255 characters end inside the lowest stack page, and programs can read them. -/
theorem argv_readable_three :
    pointersEnd (List.replicate 3 longArgument) ≤ pageSize ∧
      ∀ (memmap : List MemmapEntry) (all : FrameSet) (forest : Forest) (held : Multiset Word)
          (fs : FileReads) (filename : Option (List UInt8)) (size : ℕ) (argv : Option Argv)
          (st st' : LoadState) (result : LoadedProgram),
        Passes argv (List.replicate 3 longArgument) → Spaces memmap all st.mmu forest held →
          (4, st.mmu.loaded) ∈ forest →
          systemLoadElfArgs memmap fs filename size 3 argv st = .ok result st' →
          st'.mmu.outOfRam = false →
          ArgvAt (userByte st'.mmu st'.mmu.loaded) result.userArgv (List.replicate 3 longArgument) := by
  have hshort : ∀ a ∈ List.replicate 3 longArgument, a.bytes.length < 256 := by
    intro a ha
    rw [eq_of_mem_replicate ha, longArgument, length_replicate]
    decide
  have hfits : pointersEnd (List.replicate 3 longArgument) ≤ pageSize := by
    rw [pointersEnd, vectorOffset, longArguments_length, pageSize]
    decide
  exact ⟨hfits, (argv_readable_iff (by decide : (List.replicate 3 longArgument).length ≤ 32) hshort).mpr hfits⟩

/-- Seventeen arguments of 255 characters cannot be read by the program they are given to. -/
theorem long_arguments_unreadable :
    ∃ result st', systemLoadElfArgs gapMemmap (tinyReads 0) (some tinyName) tinySize 17
        (some fun _ => some longArgument) ⟨recycledMachine, noProgram⟩ = .ok result st' ∧
      st'.mmu.outOfRam = false ∧
      ¬ ArgvAt (userByte st'.mmu st'.mmu.loaded) result.userArgv (List.replicate 17 longArgument) :=
  stray_breaks_argv longArguments_given longArguments_end 0

end Windoge.Exec
