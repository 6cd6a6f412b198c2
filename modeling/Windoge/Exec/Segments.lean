import Windoge.Exec.Pages

/-!
# Segments that the loader accepts

The segment loop checks each segment against the file, the address range, the memory
limit and the segments before it, then loads its pages. The checks keep the page ranges
apart, so that loading a segment does not disturb the ones that are already there.
-/

namespace Windoge.Exec

open Paging FrameTree Windoge.Flow EStateM.Result List Phdr Bool

/-- Every page of the segment shows its image. -/
def Shown (s : Mmu) (root : Word) (content : ℕ → UInt8) (phdr : Phdr) : Prop :=
  ∀ virtAddr, phdr.pageStart ≤ virtAddr → virtAddr < phdr.pageEnd →
    userByte s root virtAddr = some (phdr.image content virtAddr)

/-- The page ranges of two segments are apart. -/
def Apart (a b : Phdr) : Prop := a.pageEnd ≤ b.pageStart ∨ b.pageEnd ≤ a.pageStart

/-- A piece of a file is read in full. -/
def ReadsFull (fs : FileReads) (filename : List UInt8) (offset count : ℕ) (bytes : List UInt8) : Prop :=
  fs.fsReadRawAt filename offset count = some bytes ∧ bytes.length = count

/-- The segments of the headers seen so far passed the checks of the loop, the file parts of their
pages were read, and the counters of the loop describe them. -/
structure SegmentsChecked (fs : FileReads) (filename : List UInt8) (size entry : ℕ) (done : List Phdr)
    (p : Progress) : Prop where
  fits : ∀ phdr ∈ done.filter Phdr.loadable, phdr.Fits size
  aligned : ∀ phdr ∈ done.filter Phdr.loadable, phdr.misaligned = false
  apart : (done.filter Phdr.loadable).Pairwise Apart
  total : ((done.filter Phdr.loadable).map Phdr.segmentPages).sum = p.totalPages
  bound : p.totalPages ≤ maxElfMemorySize / pageSize
  contents : ∀ phdr ∈ done.filter Phdr.loadable, ∀ page ∈ phdr.pageList,
    phdr.copyStart page < phdr.copyEnd page → ∃ bytes, ReadsFull fs filename
      (phdr.offset + (phdr.copyStart page - phdr.vaddr)) (phdr.copyEnd page - phdr.copyStart page) bytes
  highest : ∀ phdr ∈ done.filter Phdr.loadable, phdr.segEnd ≤ p.highestLoadAddress
  executable : p.entryIsExecutable = true → ∃ phdr ∈ done.filter Phdr.loadable, phdr.Executes entry

/-- The segments of the headers seen so far are loaded. -/
structure SegmentsLoaded (fs : FileReads) (filename : List UInt8) (content : ℕ → UInt8)
    (size entry : ℕ) (s : Mmu) (root : Word) (done : List Phdr) (p : Progress) : Prop
    extends SegmentsChecked fs filename size entry done p where
  shown : ∀ phdr ∈ done.filter Phdr.loadable, Shown s root content phdr

variable {memmap : List MemmapEntry} {all : FrameSet} {forest : Forest} {held : Multiset Word}
  {fs : FileReads} {filename : List UInt8} {content : ℕ → UInt8} {size entry : ℕ} {s s' : Mmu}
  {root : Word} {st st' : LoadState} {phdr : Phdr} {ehdr : Ehdr} {earlier : List Phdr}
  {p p' : Progress}

theorem refuse_bind_ok {β : Type} {bad : Prop} [Decidable bad] {result : ℤ} {f : Unit → ElfM β}
    {b : β} (h : (refuse bad result >>= f) st = .ok b st') : ¬ bad ∧ f () st = .ok b st' := by
  by_cases hbad : bad
  · rw [refuse, if_pos hbad, bind_error (throw_run result st)] at h
    cases h
  · rw [refuse, if_neg hbad, bind_ok (pure_run () st)] at h
    exact ⟨hbad, h⟩

theorem Phdr.pageStart_spec (phdr : Phdr) :
    phdr.pageStart % 4096 = 0 ∧ phdr.pageStart ≤ phdr.vaddr ∧ phdr.vaddr < phdr.pageStart + 4096 := by
  rw [pageStart, alignDownPage, pageSize]
  omega

theorem Phdr.pageEnd_spec (phdr : Phdr) :
    phdr.pageEnd % 4096 = 0 ∧ phdr.segEnd ≤ phdr.pageEnd ∧ phdr.pageEnd < phdr.segEnd + 4096 := by
  rw [pageEnd, alignUpPage, pageSize]
  omega

/-- The page loop visits the pages between the first and the end. -/
theorem Phdr.mem_pageList {page : ℕ} :
    page ∈ phdr.pageList ↔ page % 4096 = 0 ∧ phdr.pageStart ≤ page ∧ page < phdr.pageEnd := by
  obtain ⟨hstart, -, -⟩ := phdr.pageStart_spec
  obtain ⟨hend, -, -⟩ := phdr.pageEnd_spec
  rw [pageList, mem_map]
  constructor
  · rintro ⟨k, hk, rfl⟩
    rw [mem_range, segmentPages, pageSize] at hk
    rw [pageSize]
    omega
  · rintro ⟨halign, hlow, hhigh⟩
    refine ⟨(page - phdr.pageStart) / 4096, ?_, ?_⟩
    · rw [mem_range, segmentPages, pageSize]
      omega
    · rw [pageSize]
      omega

theorem Phdr.pageList_nodup (phdr : Phdr) : phdr.pageList.Nodup := by
  apply List.Nodup.map _ nodup_range
  intro j k hjk
  dsimp only [pageSize] at hjk
  omega

/-- A page of a segment that fits is a user page below the stack. -/
theorem Phdr.Fits.page (h : phdr.Fits size) {page : ℕ} (hin : page ∈ phdr.pageList) :
    page % 4096 = 0 ∧ 4096 ≤ page ∧ page + 4096 ≤ userStackBase := by
  obtain ⟨halign, hlow, hhigh⟩ := mem_pageList.mp hin
  have hbelow := h.below
  obtain ⟨-, -, -, hvaddr, -, -⟩ := h
  obtain ⟨hstart, -, hfirst⟩ := phdr.pageStart_spec
  obtain ⟨hend, -, -⟩ := phdr.pageEnd_spec
  rw [userStackBase] at hbelow ⊢
  rw [pageSize] at hvaddr
  omega

/-- Changing pages that belong to other segments leaves a shown segment alone. -/
theorem Shown.keep {other : Phdr} (h : Shown s s.loaded content other) (hother : other.Fits size)
    (hphdr : phdr.Fits size) (hroot : (4, s.loaded) ∈ forest) (hapart : Apart phdr other)
    (hchanged : ChangesPages memmap all forest held s s' (· ∈ phdr.pageList)) :
    Shown s' s.loaded content other := by
  intro virtAddr hlow hhigh
  have hbelow := hother.below
  rw [userStackBase] at hbelow
  rw [hchanged.userByte hroot _ (by omega) _, h virtAddr hlow hhigh]
  · intro page hpage
    obtain ⟨-, -, hlimit⟩ := hphdr.page hpage
    rw [userStackBase] at hlimit
    omega
  · intro page hpage heq
    obtain ⟨halign, hstart, hstop⟩ := mem_pageList.mp hpage
    obtain ⟨hstart', -, -⟩ := other.pageStart_spec
    obtain ⟨hend', -, -⟩ := other.pageEnd_spec
    rcases hapart with hbefore | hafter <;> omega

/-- A segment that overlaps none of the earlier ones is apart from each. -/
theorem apart_of_no_overlap {other : Phdr}
    (h : ¬ (earlier.any fun other => other.loadable && phdr.overlaps other) = true)
    (hother : other ∈ earlier) (hload : other.loadable = true) : Apart phdr other := by
  have hno : ¬ (phdr.pageStart < other.pageEnd ∧ other.pageStart < phdr.pageEnd) := by
    intro hboth
    apply h
    rw [any_eq_true]
    exact ⟨other, hother, by rw [hload, overlaps, Bool.true_and]; exact decide_eq_true hboth⟩
  rw [Apart]
  omega

/-- A segment that is not to be loaded is passed over. -/
theorem loadSegment_skip (hload : phdr.loadable = false) (st : LoadState) :
    loadSegment memmap fs filename size ehdr earlier phdr p st = .ok p st := by
  rw [loadSegment, hload, Bool.not_false, if_pos rfl, pure_run]

/-- A loadable segment that was accepted passed every check and its pages were loaded. -/
theorem loadSegment_steps (hload : phdr.loadable = true)
    (hcall : loadSegment memmap fs filename size ehdr earlier phdr p st = .ok p' st') :
    ∃ hfits : phdr.Fits size, ∃ st₁, phdr.misaligned = false ∧
      addRegion ⟨phdr.pageStart, phdr.pageEnd, hfits.below⟩ st = .ok () st₁ ∧
      ¬ maxElfMemorySize / pageSize - p.totalPages < phdr.segmentPages ∧
      (∀ other ∈ earlier, other.loadable = true → Apart phdr other) ∧
      (phdr.pageList.forM fun page => loadPage memmap fs filename phdr page) st₁ = .ok () st' ∧
      p' = p.next phdr ehdr.entry := by
  rw [loadSegment, hload, Bool.not_true, if_neg Bool.false_ne_true] at hcall
  split_ifs at hcall with hfits
  · obtain ⟨haligned, hcall⟩ := refuse_bind_ok hcall
    obtain ⟨_, st₁, hregion, hcall⟩ := bind_eq_ok hcall
    obtain ⟨hpages, hcall⟩ := refuse_bind_ok hcall
    obtain ⟨hoverlap, hcall⟩ := refuse_bind_ok hcall
    obtain ⟨_, _, hloop, hdone⟩ := bind_eq_ok hcall
    obtain ⟨hp, rfl⟩ := ok.inj hdone
    exact ⟨hfits, _, by simpa using haligned, hregion, hpages,
      fun other hother hloadable => apart_of_no_overlap hoverlap hother hloadable, hloop, hp.symm⟩
  · cases hcall

theorem addRegion_ok {region : ProgramRegion} (h : addRegion region st = .ok () st') :
    st'.mmu = st.mmu ∧ st'.program.regions = st.program.regions ++ [region] := by
  rw [addRegion] at h
  split_ifs at h
  cases h
  exact ⟨rfl, rfl⟩

theorem addRegion_step {pages : ℕ → Prop} (region : ProgramRegion) :
    LoadStep memmap all forest (addRegion region) pages := by
  apply LoadStep.of_same
  intro st
  rw [addRegion]
  split_ifs <;> rfl

theorem filter_concat (earlier : List Phdr) (phdr : Phdr) :
    (earlier ++ [phdr]).filter loadable = earlier.filter loadable ++ if phdr.loadable then [phdr] else [] := by
  rw [filter_append, filter_singleton, cond_eq_ite]

theorem Phdr.Fits.pages (h : phdr.Fits size) :
    ∀ page ∈ phdr.pageList, page % 4096 = 0 ∧ page + 4096 ≤ 0x800000000000 := by
  intro page hin
  have hpage := h.page hin
  rw [userStackBase] at hpage
  omega

/-- Loading a segment changes pages between the first page and the stack only. -/
theorem loadSegment_step (size : ℕ) (ehdr : Ehdr) (earlier : List Phdr) (phdr : Phdr) (p : Progress) :
    LoadStep memmap all forest (loadSegment memmap fs filename size ehdr earlier phdr p)
      (fun page => 4096 ≤ page ∧ page + 4096 ≤ userStackBase) := by
  rw [loadSegment]
  split_ifs with hload hfits
  · exact .of_same fun _ => rfl
  · refine (refuse_step _ _).bind fun _ => (addRegion_step _).bind fun _ => ?_
    refine (refuse_step _ _).bind fun _ => (refuse_step _ _).bind fun _ => ?_
    refine ((loadPages_step hfits.pages).mono fun page hin => (hfits.page hin).2).bind fun _ => ?_
    exact .of_same fun _ => rfl
  · exact .of_same fun _ => rfl

/-- The segment loop changes pages between the first page and the stack only. -/
theorem loadSegments_step (size : ℕ) (ehdr : Ehdr) (earlier phdrs : List Phdr) (p : Progress) :
    LoadStep memmap all forest (loadSegments memmap fs filename size ehdr earlier phdrs p)
      (fun page => 4096 ≤ page ∧ page + 4096 ≤ userStackBase) := by
  induction phdrs generalizing earlier p with
  | nil => exact .of_same fun _ => rfl
  | cons phdr rest ih => exact (loadSegment_step size ehdr earlier phdr p).bind fun p' => ih _ p'

/-- A page that was loaded was read in full. -/
theorem loadPage_reads {page : ℕ} (hcall : loadPage memmap fs filename phdr page st = .ok () st')
    (hcopy : phdr.copyStart page < phdr.copyEnd page) :
    ∃ bytes, ReadsFull fs filename (phdr.offset + (phdr.copyStart page - phdr.vaddr))
      (phdr.copyEnd page - phdr.copyStart page) bytes := by
  obtain ⟨frame, st₁, -, hrest⟩ := bind_eq_ok hcall
  rw [if_pos hcopy] at hrest
  cases hread : fs.fsReadRawAt filename (phdr.offset + (phdr.copyStart page - phdr.vaddr))
      (phdr.copyEnd page - phdr.copyStart page) with
  | none =>
    rw [hread] at hrest
    cases hrest
  | some bytes =>
    rw [hread] at hrest
    obtain ⟨_, _, -, hlast⟩ := bind_eq_ok hrest
    split_ifs at hlast with hcount
    · cases hlast
    · exact ⟨bytes, hread, not_not.mp hcount⟩

/-- Pages that were loaded were read in full. -/
theorem loadPages_reads {pageList : List ℕ}
    (hcall : (pageList.forM fun page => loadPage memmap fs filename phdr page) st = .ok () st') :
    ∀ page ∈ pageList, phdr.copyStart page < phdr.copyEnd page → ∃ bytes, ReadsFull fs filename
      (phdr.offset + (phdr.copyStart page - phdr.vaddr)) (phdr.copyEnd page - phdr.copyStart page) bytes := by
  induction pageList generalizing st with
  | nil => exact forall_mem_nil _
  | cons page rest ih =>
    obtain ⟨_, st₁, hfirst, hrest⟩ := bind_eq_ok hcall
    intro q hq
    rcases mem_cons.mp hq with rfl | hlater
    · exact loadPage_reads hfirst
    · exact ih hrest q hlater

/-- One round of the segment loop checks its segment. -/
theorem loadSegment_checked (hcall : loadSegment memmap fs filename size ehdr earlier phdr p st = .ok p' st')
    (h : SegmentsChecked fs filename size ehdr.entry earlier p) :
    SegmentsChecked fs filename size ehdr.entry (earlier ++ [phdr]) p' := by
  by_cases hload : phdr.loadable = true
  · obtain ⟨hfits, st₁, haligned, -, hpages, hapart, hloop, rfl⟩ := loadSegment_steps hload hcall
    have hconcat : (earlier ++ [phdr]).filter loadable = earlier.filter loadable ++ [phdr] := by
      rw [filter_concat, if_pos hload]
    have hall {P : Phdr → Prop} (hold : ∀ q ∈ earlier.filter loadable, P q) (hnew : P phdr) :
        ∀ q ∈ (earlier ++ [phdr]).filter loadable, P q := by
      rw [hconcat]
      exact forall_mem_append.mpr ⟨hold, forall_mem_singleton.mpr hnew⟩
    have hhighest : (p.next phdr ehdr.entry).highestLoadAddress = max p.highestLoadAddress phdr.segEnd := by
      rw [Progress.next]
      dsimp only
      split_ifs <;> omega
    refine ⟨hall h.fits hfits, hall h.aligned haligned, ?_, ?_, ?_, hall h.contents (loadPages_reads hloop),
      ?_, fun hexec => ?_⟩
    · rw [hconcat, pairwise_append]
      refine ⟨h.apart, pairwise_singleton _ _, fun other hother => forall_mem_singleton.mpr ?_⟩
      exact (hapart other (mem_of_mem_filter hother) (of_mem_filter hother)).symm
    · rw [hconcat, map_append, sum_append, h.total]
      simp [Progress.next]
    · have hbound := h.bound
      rw [Progress.next]
      dsimp only
      omega
    · rw [hhighest]
      exact hall (fun q hq => le_trans (h.highest q hq) (le_max_left _ _)) (le_max_right _ _)
    · rw [hconcat]
      rw [Progress.next, or_eq_true, decide_eq_true_eq] at hexec
      rcases hexec with hbefore | hnow
      · obtain ⟨q, hq, hentry⟩ := h.executable hbefore
        exact ⟨q, mem_append_left _ hq, hentry⟩
      · exact ⟨phdr, mem_append_right _ (mem_singleton_self phdr), hnow⟩
  · rw [not_eq_true] at hload
    rw [loadSegment_skip hload] at hcall
    cases hcall
    have hsame : (earlier ++ [phdr]).filter loadable = earlier.filter loadable := by
      rw [filter_concat, hload, if_neg Bool.false_ne_true, append_nil]
    exact ⟨hsame ▸ h.fits, hsame ▸ h.aligned, hsame ▸ h.apart, hsame ▸ h.total, h.bound,
      hsame ▸ h.contents, hsame ▸ h.highest, hsame ▸ h.executable⟩

/-- One round of the segment loop keeps its invariant. -/
theorem loadSegment_ok (hreads : TrueReads fs filename content)
    (hcall : loadSegment memmap fs filename size ehdr earlier phdr p st = .ok p' st')
    (hram : st'.mmu.outOfRam = false) (h : Spaces memmap all st.mmu forest held)
    (hroot : (4, st.mmu.loaded) ∈ forest)
    (hloaded : SegmentsLoaded fs filename content size ehdr.entry st.mmu st.mmu.loaded earlier p) :
    SegmentsLoaded fs filename content size ehdr.entry st'.mmu st.mmu.loaded (earlier ++ [phdr]) p' := by
  refine ⟨loadSegment_checked hcall hloaded.toSegmentsChecked, fun q hq => ?_⟩
  by_cases hload : phdr.loadable = true
  · obtain ⟨hfits, st₁, -, hregion, -, hapart, hloop, -⟩ := loadSegment_steps hload hcall
    obtain ⟨hmmu, -⟩ := addRegion_ok hregion
    rw [← hmmu] at h hroot hloaded ⊢
    rw [filter_concat, if_pos hload, mem_append, mem_singleton] at hq
    rcases hq with hold | rfl
    · have hchanged := (loadPages_step hfits.pages).loads.ok hloop hram h hroot
      have hother := hapart q (mem_of_mem_filter hold) (of_mem_filter hold)
      exact (hloaded.shown q hold).keep (hloaded.fits q hold) hfits hroot hother hchanged
    have hshown := loadPages_shows hfits.pages hreads hloop hram h hroot q.pageList_nodup
    intro virtAddr hlow hhigh
    obtain ⟨hstart, -, -⟩ := q.pageStart_spec
    obtain ⟨hend, -, -⟩ := q.pageEnd_spec
    have hpage : virtAddr / 4096 * 4096 ∈ q.pageList := mem_pageList.mpr ⟨by omega, by omega, by omega⟩
    have hbyte := hshown _ hpage (virtAddr % 4096) (Nat.mod_lt _ (by decide))
    rwa [Nat.div_add_mod'] at hbyte
  · rw [not_eq_true] at hload
    rw [loadSegment_skip hload] at hcall
    cases hcall
    rw [filter_concat, hload, if_neg Bool.false_ne_true, append_nil] at hq
    exact hloaded.shown q hq

/-- The segment loop loads every segment. -/
theorem loadSegments_ok {phdrs : List Phdr} (hreads : TrueReads fs filename content)
    (hcall : loadSegments memmap fs filename size ehdr earlier phdrs p st = .ok p' st')
    (hram : st'.mmu.outOfRam = false) (h : Spaces memmap all st.mmu forest held)
    (hroot : (4, st.mmu.loaded) ∈ forest)
    (hloaded : SegmentsLoaded fs filename content size ehdr.entry st.mmu st.mmu.loaded earlier p) :
    SegmentsLoaded fs filename content size ehdr.entry st'.mmu st.mmu.loaded (earlier ++ phdrs) p' := by
  induction phdrs generalizing earlier p st held with
  | nil =>
    cases hcall
    rwa [append_nil]
  | cons phdr rest ih =>
    obtain ⟨p₁, st₁, hfirst, hrest⟩ := bind_eq_ok hcall
    have hlater := @loadSegments_step memmap all forest fs filename size ehdr (earlier ++ [phdr]) rest p₁
    have hram₁ := hlater.report.ok hrest hram
    have hloaded₁ := loadSegment_ok hreads hfirst hram₁ h hroot hloaded
    have hchanged₁ := (loadSegment_step size ehdr earlier phdr p).loads.ok hfirst hram₁ h hroot
    have hsame := hchanged₁.loaded
    rw [← hsame] at hloaded₁ hroot
    obtain ⟨lost, hlost⟩ := hchanged₁.spaces
    have hdone := ih hrest hlost hroot hloaded₁
    rwa [hsame, append_assoc, singleton_append] at hdone

end Windoge.Exec
