import Windoge.Exec.Elf

/-!
# Pages that the loader fills

One round of the page loop maps a new page, zero filled, and copies the part of the file
into it that belongs there. Other pages of the address space are left alone, so that after
the loop every page of the segment shows the file contents followed by zeros.
-/

namespace Windoge.Exec

open Paging FrameTree Windoge.Flow EStateM.Result List Phdr Multiset Option

/-- A piece of a file. -/
def slice (content : ℕ → UInt8) (offset count : ℕ) : List UInt8 :=
  (List.range count).map fun i => content (offset + i)

@[simp] theorem slice_length (content : ℕ → UInt8) (offset count : ℕ) :
    (slice content offset count).length = count := by
  rw [slice, length_map, length_range]

/-- Reads that return as many bytes as were asked for return the contents of the file. -/
def TrueReads (fs : FileReads) (filename : List UInt8) (content : ℕ → UInt8) : Prop :=
  ∀ offset count bytes, fs.fsReadRawAt filename offset count = some bytes → bytes.length = count →
    bytes = slice content offset count

/-- The byte that a segment has at an address: a file byte, or zero past the end of the file part
and in front of the segment. -/
def Phdr.image (phdr : Phdr) (content : ℕ → UInt8) (virtAddr : ℕ) : UInt8 :=
  if phdr.vaddr ≤ virtAddr ∧ virtAddr < phdr.vaddr + phdr.filesz then
    content (phdr.offset + (virtAddr - phdr.vaddr))
  else 0

/-- A step changed at most the given pages of the loaded address space; frames that were mapped
there before are left to nobody. -/
structure ChangesPages (memmap : List MemmapEntry) (all : FrameSet) (forest : Forest)
    (held : Multiset Word) (s s' : Mmu) (pages : ℕ → Prop) : Prop where
  spaces : ∃ lost, Spaces memmap all s' forest (lost + held)
  touches : Touches s s' forest held fun space other =>
    ∃ page, pages page ∧ SamePage s.loaded (.ofNat 64 page) space other

/-- However a step of the loader ends, it changed at most the given pages, unless memory ran out. -/
def Loads {α : Type} (memmap : List MemmapEntry) (all : FrameSet) (forest : Forest) (x : ElfM α)
    (pages : ℕ → Prop) : Prop :=
  ∀ (st : LoadState) (held : Multiset Word), Spaces memmap all st.mmu forest held →
    (4, st.mmu.loaded) ∈ forest → (finalState (x st)).mmu.outOfRam = false →
    ChangesPages memmap all forest held st.mmu (finalState (x st)).mmu pages

/-- The out-of-memory report is not taken back. -/
def KeepsReport (st st' : LoadState) : Prop :=
  st'.mmu.outOfRam = false → st.mmu.outOfRam = false

/-- A step of the loader that changes at most the given pages and does not take the report back. -/
structure LoadStep {α : Type} (memmap : List MemmapEntry) (all : FrameSet) (forest : Forest) (x : ElfM α)
    (pages : ℕ → Prop) : Prop where
  report : Respects KeepsReport x
  loads : Loads memmap all forest x pages

variable {memmap : List MemmapEntry} {all : FrameSet} {forest : Forest} {held : Multiset Word}
  {fs : FileReads} {filename : List UInt8} {content : ℕ → UInt8} {s s' s'' : Mmu}
  {st st' : LoadState} {phdr : Phdr} {pages pages' : ℕ → Prop}

namespace ChangesPages

theorem loaded (h : ChangesPages memmap all forest held s s' pages) : s'.loaded = s.loaded := by
  rw [Mmu.loaded, Mmu.loaded, h.touches.cr3]

theorem mono (h : ChangesPages memmap all forest held s s' pages) (hpages : ∀ page, pages page → pages' page) :
    ChangesPages memmap all forest held s s' pages' where
  spaces := h.spaces
  touches := h.touches.mono (fun _ _ ⟨page, hpage, hsame⟩ => ⟨page, hpages page hpage, hsame⟩) fun _ hin => hin

theorem refl (h : Spaces memmap all s forest held) : ChangesPages memmap all forest held s s pages :=
  ⟨⟨0, by rwa [zero_add]⟩, .refl⟩

/-- A step after another, from whatever frames the first one left to nobody. -/
theorem trans (h : ChangesPages memmap all forest held s s' pages)
    (h' : ∀ lost, Spaces memmap all s' forest (lost + held) →
      ChangesPages memmap all forest (lost + held) s' s'' pages) :
    ChangesPages memmap all forest held s s'' pages := by
  obtain ⟨lost, hspaces⟩ := h.spaces
  have hnext := h' lost hspaces
  obtain ⟨lost', hspaces'⟩ := hnext.spaces
  have htouches := hnext.touches
  rw [h.loaded] at htouches
  refine ⟨⟨lost' + lost, by rwa [add_assoc]⟩, h.touches.trans (htouches.mono (fun _ _ hp => hp) ?_)⟩
  intro frame hframe
  exact mem_add.mpr (.inr hframe)

/-- Addresses outside the changed pages show what they did. -/
theorem userByte (h : ChangesPages memmap all forest held s s' pages) (hroot : (4, s.loaded) ∈ forest)
    (hpages : ∀ page, pages page → page < 0x800000000000) {virtAddr : ℕ} (hvirt : virtAddr < 0x800000000000)
    (hoff : ∀ page, pages page → page / 4096 ≠ virtAddr / 4096) :
    Paging.userByte s' s.loaded virtAddr = Paging.userByte s s.loaded virtAddr := by
  apply Untouched.userByte
  apply h.touches.untouched s.loaded hroot _ (ofNat_user hvirt)
  rintro ⟨page, hpage, -, hpath⟩
  exact hoff page hpage ((pagePath_eq_iff hvirt (hpages page hpage)).mp hpath).symm

end ChangesPages

instance : IsPreorder LoadState KeepsReport where
  refl _ h := h
  trans _ _ _ h h' hram := h (h' hram)

@[simp] theorem putBytes_outOfRam (s : Mmu) (addr : Word) (bytes : List UInt8) :
    (s.putBytes addr bytes).outOfRam = s.outOfRam := by
  induction bytes generalizing s addr with
  | nil => rfl
  | cons b rest ih => exact ih (s.putByte addr b) (addr + 1)

variable {pageVaddr : ℕ} {frame : Word}

/-- Mapping a page does not take the report back. -/
theorem mapUserPage_report {virtAddr : Word} (h : (mapUserPage memmap virtAddr frame s).outOfRam = false) :
    s.outOfRam = false := by
  obtain ⟨_, _, _, _, _, _, hpdpt, hram, -⟩ := mapUserPage_steps h
  exact getOrAllocTable_ram hpdpt hram

/-- Mapping a new page does not take the report back. -/
theorem mapNewPage_report (virtAddr : ℕ) : Respects KeepsReport (mapNewPage memmap virtAddr) := by
  intro st hram
  by_contra htrue
  have hreport : (pmmAllocZeroedPage memmap st.mmu).2.outOfRam = true :=
    pmmAllocZeroedPage_outOfRam (Bool.eq_true_of_not_eq_false htrue)
  unfold mapNewPage at hram
  dsimp only at hram
  split_ifs at hram
  · exact absurd (hreport.symm.trans hram) (by decide)
  · exact absurd (hreport.symm.trans (mapUserPage_report hram)) (by decide)

section NewPage

variable {virtAddr : ℕ} {frame : Word}
  (hcall : mapNewPage memmap virtAddr st = .ok frame st') (hram : st'.mmu.outOfRam = false)
  (h : Spaces memmap all st.mmu forest held) (hroot : (4, st.mmu.loaded) ∈ forest)
  (hvirt : virtAddr < 0x800000000000)

include hcall hram h hroot hvirt

/-- A new page is mapped, zero filled, and touches no other page; the frame that was mapped there
before is left to nobody. -/
theorem mapNewPage_maps :
    st'.program = st.program ∧ IsFrame frame ∧ Spaces memmap all st'.mmu forest
        (mappedFrame st.mmu st.mmu.loaded (.ofNat 64 virtAddr) + held) ∧
      Touches st.mmu st'.mmu forest held (SamePage st.mmu.loaded (.ofNat 64 virtAddr)) ∧
      userMapping st'.mmu st.mmu.loaded (.ofNat 64 virtAddr) = some (frame ||| pageUserFlags) ∧
      st'.mmu.mem frame = fun _ => 0 := by
  cases halloc : pmmAllocZeroedPage memmap st.mmu with
  | mk pagePhys mmu =>
  unfold mapNewPage at hcall
  rw [halloc] at hcall
  dsimp only at hcall
  split_ifs at hcall
  cases hcall
  obtain ⟨htaken, hnone, hzero⟩ := h.pmmAllocZeroedPage halloc (mapUserPage_report hram)
  have hloaded := loaded_congr hnone.cr3
  rw [← hloaded] at hroot
  obtain ⟨hmapped, htouches, hentry⟩ := htaken.mapUserPage hroot (ofNat_user hvirt) hram
  rw [hloaded] at hroot hmapped htouches hentry
  have hbefore := (hnone.untouched _ hroot _ (ofNat_user hvirt) not_false).1
  rw [mappedFrame, hbefore, ← mappedFrame] at hmapped
  refine ⟨rfl, htaken.isFrame, hmapped, ?_, hentry, ?_⟩
  · apply (hnone.mono (fun _ _ => False.elim) fun _ hin => hin).trans
    exact htouches.mono (fun _ _ hsame => hsame) fun q hq => mem_cons_of_mem hq
  · rw [htouches.held _ (mem_cons_self _ _), hzero]

/-- A new page is mapped, zero filled, and changes no other page. -/
theorem mapNewPage_ok :
    st'.program = st.program ∧ IsFrame frame ∧ ChangesPages memmap all forest held st.mmu st'.mmu (· = virtAddr) ∧
      userMapping st'.mmu st.mmu.loaded (.ofNat 64 virtAddr) = some (frame ||| pageUserFlags) ∧
      st'.mmu.mem frame = fun _ => 0 := by
  obtain ⟨hprogram, hframe, hspaces, htouches, hentry, hzero⟩ := mapNewPage_maps hcall hram h hroot hvirt
  refine ⟨hprogram, hframe, ⟨⟨_, hspaces⟩, htouches.mono ?_ fun _ hin => hin⟩, hentry, hzero⟩
  exact fun space other hsame => ⟨virtAddr, rfl, hsame⟩

end NewPage

section Stored

variable {page o : ℕ} {frame : Word} {bytes : List UInt8}
  (h : Spaces memmap all s forest held) (hroot : (4, s.loaded) ∈ forest) (hframe : IsFrame frame)
  (hmapped : userMapping s s.loaded (.ofNat 64 page) = some (frame ||| pageUserFlags))
  (hroom : o + bytes.length ≤ 4096)

include h hroot hframe hmapped hroom

/-- Storing bytes inside a mapped page touches that page only. -/
theorem putBytes_touches (hlimit : page < 0x800000000000) :
    Spaces memmap all (s.putBytes (frame + .ofNat 64 o) bytes) forest held ∧
      Touches s (s.putBytes (frame + .ofNat 64 o) bytes) forest held
        (SamePage s.loaded (.ofNat 64 page)) ∧
      ∀ root, (4, root) ∈ forest → ∀ virtAddr < 0x800000000000,
        userMapping (s.putBytes (frame + .ofNat 64 o) bytes) root virtAddr =
          userMapping s root virtAddr := by
  obtain ⟨words, hfill⟩ := putBytes_eq_fill hframe.offset hroom s
  have hfilled := h.fillPage hroot (ofNat_user hlimit) hmapped words
  rwa [hframe.leaf, ← hfill] at hfilled

/-- Storing bytes inside a mapped page changes that page only, and the page shows them. -/
theorem putBytes_page (hlimit : page + 4096 ≤ 0x800000000000) (hpage : page % 4096 = 0) :
    ChangesPages memmap all forest held s (s.putBytes (frame + .ofNat 64 o) bytes) (· = page) ∧
      (∀ root, (4, root) ∈ forest → ∀ virtAddr < 0x800000000000,
        userMapping (s.putBytes (frame + .ofNat 64 o) bytes) root virtAddr = userMapping s root virtAddr) ∧
      ∀ c < 4096, userByte (s.putBytes (frame + .ofNat 64 o) bytes) s.loaded (page + c) =
        some (if o ≤ c then (bytes[c - o]?).getD (s.byte (frame + .ofNat 64 c))
          else s.byte (frame + .ofNat 64 c)) := by
  have hpageLimit : page < 0x800000000000 := by omega
  have hvirt := ofNat_user hpageLimit
  obtain ⟨hspaces, htouches, hsame⟩ := putBytes_touches h hroot hframe hmapped hroom hpageLimit
  refine ⟨⟨⟨0, by rwa [zero_add]⟩, htouches.mono ?_ fun _ hin => hin⟩, hsame, ?_⟩
  · exact fun space other hpath => ⟨page, rfl, hpath⟩
  · intro c hc
    rw [userByte_eq hpage hc (by omega) ((hsame _ hroot _ hvirt).trans hmapped), hframe.leaf,
      byte_putBytes_offset (by omega) (by omega) (by omega)]

end Stored

theorem byte_zero {c : ℕ} (hframe : IsFrame frame) (hc : c < 4096) (hzero : s.mem frame = fun _ => 0) :
    s.byte (frame + .ofNat 64 c) = 0 := by
  rw [Mmu.byte, (frameOf_add hframe.offset hc).1, hzero, WordBytes.wordByte_zero]

section Loads

variable {α β : Type}

theorem Loads.ok {x : ElfM α} {a : α} (h : Loads memmap all forest x pages)
    (hcall : x st = .ok a st') (hram : st'.mmu.outOfRam = false)
    (hspaces : Spaces memmap all st.mmu forest held) (hroot : (4, st.mmu.loaded) ∈ forest) :
    ChangesPages memmap all forest held st.mmu st'.mmu pages := by
  have hchanged := h st held hspaces hroot
  rw [hcall] at hchanged
  exact hchanged hram

theorem LoadStep.mono {x : ElfM α} (h : LoadStep memmap all forest x pages)
    (hpages : ∀ page, pages page → pages' page) : LoadStep memmap all forest x pages' :=
  ⟨h.report, fun st held hspaces hroot hram => (h.loads st held hspaces hroot hram).mono hpages⟩

theorem LoadStep.of_same {x : ElfM α} (h : ∀ st, (finalState (x st)).mmu = st.mmu) :
    LoadStep memmap all forest x pages where
  report st hram := by rwa [h st] at hram
  loads st held hspaces _ _ := by
    rw [h st]
    exact .refl hspaces

/-- Steps that change given pages do so in sequence. -/
theorem LoadStep.bind {x : ElfM α} {f : α → ElfM β} (hx : LoadStep memmap all forest x pages)
    (hf : ∀ a, LoadStep memmap all forest (f a) pages) : LoadStep memmap all forest (x >>= f) pages := by
  refine ⟨hx.report.bind fun a => (hf a).report, fun st held hspaces hroot hram => ?_⟩
  have hfirst := hx.loads st held hspaces hroot
  cases hcall : x st with
  | ok a st₁ =>
    rw [bind_ok hcall] at hram ⊢
    rw [hcall] at hfirst
    have hchanged := hfirst ((hf a).report st₁ hram)
    exact hchanged.trans fun lost hlost => (hf a).loads st₁ _ hlost (hchanged.loaded.symm ▸ hroot) hram
  | error e st₁ =>
    rw [bind_error hcall] at hram ⊢
    rw [hcall] at hfirst
    exact hfirst hram

theorem refuse_step (bad : Prop) [Decidable bad] (result : ℤ) :
    LoadStep memmap all forest (refuse bad result) pages := by
  apply LoadStep.of_same
  intro st
  rw [refuse]
  split_ifs <;> rfl

end Loads

/-- A new page is refused only when memory has run out. -/
theorem mapNewPage_error {virtAddr : ℕ} {e : ℤ} (h : Spaces memmap all st.mmu forest held)
    (hcall : mapNewPage memmap virtAddr st = .error e st') : st'.mmu.outOfRam ≠ false := by
  intro hram
  cases halloc : pmmAllocZeroedPage memmap st.mmu with
  | mk pagePhys mmu =>
  unfold mapNewPage at hcall
  rw [halloc] at hcall
  dsimp only at hcall
  split_ifs at hcall with hzero
  cases hcall
  exact (h.pmmAllocZeroedPage halloc hram).1.isFrame.1 hzero

/-- The part of the file that falls into a page fits into it. -/
theorem Phdr.copy_room (phdr : Phdr) (hcopy : phdr.copyStart pageVaddr < phdr.copyEnd pageVaddr) :
    phdr.copyStart pageVaddr - pageVaddr + (phdr.copyEnd pageVaddr - phdr.copyStart pageVaddr) ≤ 4096 := by
  have hend : phdr.copyEnd pageVaddr ≤ pageVaddr + 4096 := by
    rw [copyEnd, pageSize]
    split_ifs <;> omega
  have hstart : pageVaddr ≤ phdr.copyStart pageVaddr := by
    rw [copyStart]
    split_ifs <;> omega
  omega

/-- Once a page is mapped, all that loading it does is to store bytes inside the page, however many
were read. -/
theorem loadPage_final (phdr : Phdr) (fs : FileReads) (filename : List UInt8)
    (hmap : mapNewPage memmap pageVaddr st = .ok frame st') :
    ∃ (o : ℕ) (bytes : List UInt8), o + bytes.length ≤ 4096 ∧
      finalState (loadPage memmap fs filename phdr pageVaddr st) =
        { st' with mmu := st'.mmu.putBytes (frame + .ofNat 64 o) bytes } := by
  rw [loadPage, bind_ok hmap]
  split_ifs with hcopy
  · cases fs.fsReadRawAt filename (phdr.offset + (phdr.copyStart pageVaddr - phdr.vaddr))
      (phdr.copyEnd pageVaddr - phdr.copyStart pageVaddr) with
    | none => exact ⟨0, [], zero_le, rfl⟩
    | some bytes =>
      have hroom := phdr.copy_room hcopy
      refine ⟨phdr.copyStart pageVaddr - pageVaddr,
        bytes.take (phdr.copyEnd pageVaddr - phdr.copyStart pageVaddr), ?_, ?_⟩
      · rw [length_take]
        omega
      · dsimp only
        rw [writePhys, modify_bind]
        split_ifs <;> rfl
  · exact ⟨0, [], zero_le, rfl⟩

/-- One round of the page loop changes its page only. -/
theorem loadPage_step (hpage : pageVaddr % 4096 = 0) (hlimit : pageVaddr + 4096 ≤ 0x800000000000) :
    LoadStep memmap all forest (loadPage memmap fs filename phdr pageVaddr) (· = pageVaddr) := by
  constructor
  · intro st hram
    cases hmap : mapNewPage memmap pageVaddr st with
    | error e st₁ =>
      rw [loadPage, bind_error hmap] at hram
      exact (mapNewPage_report pageVaddr).error hmap hram
    | ok frame st₁ =>
      obtain ⟨o, bytes, -, hfinal⟩ := loadPage_final phdr fs filename hmap
      rw [hfinal, putBytes_outOfRam] at hram
      exact (mapNewPage_report pageVaddr).ok hmap hram
  · intro st held hspaces hroot hram
    cases hmap : mapNewPage memmap pageVaddr st with
    | error e st₁ =>
      rw [loadPage, bind_error hmap] at hram
      exact absurd hram (mapNewPage_error hspaces hmap)
    | ok frame st₁ =>
      obtain ⟨o, bytes, hroom, hfinal⟩ := loadPage_final phdr fs filename hmap
      rw [hfinal] at hram ⊢
      rw [putBytes_outOfRam] at hram
      obtain ⟨-, hframe, hchanged, hmapped, -⟩ := mapNewPage_ok hmap hram hspaces hroot (by omega)
      rw [← hchanged.loaded] at hmapped hroot
      exact hchanged.trans fun lost hlost => (putBytes_page hlost hroot hframe hmapped hroom hlimit hpage).1

/-- One round of the page loop that succeeds lets the page show the image of the segment. -/
theorem loadPage_shows (hreads : TrueReads fs filename content)
    (hcall : loadPage memmap fs filename phdr pageVaddr st = .ok () st') (hram : st'.mmu.outOfRam = false)
    (h : Spaces memmap all st.mmu forest held) (hroot : (4, st.mmu.loaded) ∈ forest)
    (hpage : pageVaddr % 4096 = 0) (hlimit : pageVaddr + 4096 ≤ 0x800000000000) {c : ℕ} (hc : c < 4096) :
    userByte st'.mmu st.mmu.loaded (pageVaddr + c) = some (phdr.image content (pageVaddr + c)) := by
  obtain ⟨frame, st₁, hmap, hrest⟩ := bind_eq_ok hcall
  dsimp only at hrest
  have hstart : phdr.copyStart pageVaddr = max pageVaddr phdr.vaddr := by
    rw [copyStart]
    split_ifs <;> omega
  have hend : phdr.copyEnd pageVaddr = min (pageVaddr + 4096) (phdr.vaddr + phdr.filesz) := by
    rw [copyEnd, pageSize]
    split_ifs <;> omega
  rw [hstart, hend] at hrest
  split_ifs at hrest
  · -- part of the file falls into the page
    generalize hread : fs.fsReadRawAt filename (phdr.offset + (max pageVaddr phdr.vaddr - phdr.vaddr))
      (min (pageVaddr + 4096) (phdr.vaddr + phdr.filesz) - max pageVaddr phdr.vaddr) = read at hrest
    cases read with
    | none => cases hrest
    | some bytes =>
      obtain ⟨_, _, hwrite, hlast⟩ := bind_eq_ok hrest
      split_ifs at hlast with hcount
      · cases hlast
      rw [not_not] at hcount
      cases hlast
      cases hwrite
      have hbytes := hreads _ _ bytes hread hcount
      rw [← hcount, take_length] at hram ⊢
      rw [putBytes_outOfRam] at hram
      obtain ⟨-, hframe, hchanged, hmapped, hzero⟩ := mapNewPage_ok hmap hram h hroot (by omega)
      have hloaded := hchanged.loaded
      rw [← hloaded] at hroot hmapped ⊢
      obtain ⟨lost, hlost⟩ := hchanged.spaces
      have hroom : max pageVaddr phdr.vaddr - pageVaddr + bytes.length ≤ 4096 := by omega
      obtain ⟨-, -, hshown⟩ := putBytes_page hlost hroot hframe hmapped hroom hlimit hpage
      rw [hshown c hc, byte_zero hframe hc hzero, image]
      congr 1
      by_cases hinside : phdr.vaddr ≤ pageVaddr + c ∧ pageVaddr + c < phdr.vaddr + phdr.filesz
      · have hafter : max pageVaddr phdr.vaddr - pageVaddr ≤ c := by omega
        have hindex : c - (max pageVaddr phdr.vaddr - pageVaddr) <
            min (pageVaddr + 4096) (phdr.vaddr + phdr.filesz) - max pageVaddr phdr.vaddr := by omega
        have hoffset : phdr.offset + (max pageVaddr phdr.vaddr - phdr.vaddr) +
            (c - (max pageVaddr phdr.vaddr - pageVaddr)) = phdr.offset + (pageVaddr + c - phdr.vaddr) := by omega
        rw [if_pos hafter, if_pos hinside, hbytes, slice, getElem?_map,
          getElem?_range hindex, map_some, getD_some, hoffset]
      · rw [if_neg hinside]
        split_ifs
        · rw [getElem?_eq_none (by omega), getD_none]
        · rfl
  · -- the page lies past the file part
    cases hrest
    obtain ⟨-, hframe, -, hmapped, hzero⟩ := mapNewPage_ok hmap hram h hroot (by omega)
    have hoff : ¬ (phdr.vaddr ≤ pageVaddr + c ∧ pageVaddr + c < phdr.vaddr + phdr.filesz) := by omega
    rw [userByte_eq hpage hc (by omega) hmapped, hframe.leaf, byte_zero hframe hc hzero, image, if_neg hoff]

section Loop

variable {pageList : List ℕ}
  (hpages : ∀ page ∈ pageList, page % 4096 = 0 ∧ page + 4096 ≤ 0x800000000000)

include hpages

/-- The page loop changes its pages only. -/
theorem loadPages_step :
    LoadStep memmap all forest (pageList.forM fun page => loadPage memmap fs filename phdr page)
      (· ∈ pageList) := by
  induction pageList with
  | nil => exact .of_same fun _ => rfl
  | cons page rest ih =>
    obtain ⟨hpage, hlimit⟩ := hpages page mem_cons_self
    refine ((loadPage_step hpage hlimit).mono fun q hq => hq ▸ mem_cons_self).bind fun _ => ?_
    exact (ih fun q hq => hpages q (mem_cons_of_mem page hq)).mono fun q hq => mem_cons_of_mem page hq

/-- The page loop that succeeds lets every page show the image of the segment. -/
theorem loadPages_shows (hreads : TrueReads fs filename content)
    (hcall : (pageList.forM fun page => loadPage memmap fs filename phdr page) st = .ok () st')
    (hram : st'.mmu.outOfRam = false) (h : Spaces memmap all st.mmu forest held)
    (hroot : (4, st.mmu.loaded) ∈ forest) (hnodup : pageList.Nodup) :
    ∀ page ∈ pageList, ∀ c < 4096, userByte st'.mmu st.mmu.loaded (page + c) =
      some (phdr.image content (page + c)) := by
  induction pageList generalizing st held with
  | nil => exact forall_mem_nil _
  | cons page rest ih =>
    obtain ⟨_, st₁, hfirst, hrest⟩ := bind_eq_ok hcall
    obtain ⟨hpage, hlimit⟩ := hpages page mem_cons_self
    have hpages' : ∀ q ∈ rest, q % 4096 = 0 ∧ q + 4096 ≤ 0x800000000000 :=
      fun q hq => hpages q (mem_cons_of_mem page hq)
    have hlater := @loadPages_step memmap all forest fs filename phdr rest hpages'
    have hram₁ := hlater.report.ok hrest hram
    have hchanged₁ := (loadPage_step hpage hlimit).loads.ok hfirst hram₁ h hroot
    have hloaded := hchanged₁.loaded
    have hroot₁ := hloaded ▸ hroot
    obtain ⟨lost, hlost⟩ := hchanged₁.spaces
    obtain ⟨hnotin, hnodup'⟩ := nodup_cons.mp hnodup
    intro q hq c hc
    rcases mem_cons.mp hq with rfl | hin
    · -- the later pages are other pages
      have hchanged := hlater.loads.ok hrest hram hlost hroot₁
      have hvirt : q + c < 0x800000000000 := by omega
      have hkept := hchanged.userByte hroot₁ (fun r hr => by have := hpages' r hr; omega) hvirt (by
        intro r hr heq
        have hr' := hpages' r hr
        have hsame : r = q := by omega
        exact hnotin (hsame ▸ hr))
      rw [hloaded] at hkept
      rw [hkept, loadPage_shows hreads hfirst hram₁ h hroot hpage hlimit hc]
    · have hshown := ih hpages' hrest hlost hroot₁ hnodup' q hin c hc
      rwa [hloaded] at hshown

end Loop

end Windoge.Exec
