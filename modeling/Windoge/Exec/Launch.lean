import Windoge.Exec.FreshLoad

/-!
# Launches from the shell

`system_run_elf_args_impl` loads a program into the address space of task 0, and cleans
the region list up when that fails. What a load does to memory starts with the first page of
its first segment.
-/

namespace Windoge.Exec

open Paging FrameTree Windoge.Flow Multiset

/-- `system_run_elf_args_impl` up to the jump to user mode, with the region list of its slot. -/
def systemRunElfArgsImpl (memmap : List MemmapEntry) (fs : FileReads) (filename : Option (List UInt8))
    (size : ℕ) (argc : ℤ) (argv : Option Argv) : ElfM LoadedProgram := fun st =>
  let bad : Prop := argc < 0 ∨ 32 < argc ∨ argv.isNone
  match systemLoadElfArgs memmap fs filename size (if bad then 0 else argc)
      (if bad then none else argv) { st with program := noProgram } with
  | .ok result st => .ok result st
  | .error e st => .error e { st with mmu := cleanupProgramPages st.program st.mmu }

/-- A file whose headers the loader reads and accepts. -/
structure HeadersRead (fs : FileReads) (filename : List UInt8) (size : ℕ) (ehdr : Ehdr)
    (phdrs : List Phdr) : Prop where
  named : filename ≠ [] ∧ ehdrSize ≤ size ∧ size ≤ maxElfFileSize
  existing : fs.fsExists filename = true
  header : ∃ bytes, ReadsFull fs filename 0 ehdrSize bytes ∧ ehdr = Ehdr.ofBytes bytes
  accepted : ehdr.accepted = true
  table : ehdr.phoff ≤ size ∧ ehdr.phnum * ehdr.phentsize ≤ size - ehdr.phoff
  headers : phdrs.length = ehdr.phnum ∧ ∀ i phdr, phdrs[i]? = some phdr →
    ∃ bytes, ReadsFull fs filename (ehdr.phoff + i * ehdr.phentsize) phdrSize bytes ∧
      phdr = Phdr.ofBytes bytes

variable {memmap : List MemmapEntry} {all : FrameSet} {held : Multiset Word} {fs : FileReads}
  {filename : List UInt8} {size : ℕ} {ehdr : Ehdr} {phdrs : List Phdr} {s : Mmu}
  {st st' : LoadState}

section Refused

variable {α : Type} {Q : LoadState → Prop}

/-- Behind a check a run stops with a property if it holds already and if what follows stops with
it. -/
theorem refuse_stops {bad : Prop} [Decidable bad] {result : ℤ} {f : Unit → ElfM α} (hhere : Q st)
    (hrest : ¬ bad → ∃ e st', f () st = .error e st' ∧ Q st') :
    ∃ e st', (refuse bad result >>= f) st = .error e st' ∧ Q st' := by
  by_cases hbad : bad
  · exact ⟨result, st, by rw [refuse, if_pos hbad, bind_error (throw_run result st)], hhere⟩
  · rw [refuse, if_neg hbad, bind_ok (pure_run () st)]
    exact hrest hbad

/-- A sequence stops with a property if its first part does or if what follows does. -/
theorem bind_stops {β : Type} {x : ElfM β} {f : β → ElfM α} (hfirst : ∀ e st', x st = .error e st' → Q st')
    (hrest : ∀ b st', x st = .ok b st' → ∃ e st'', f b st' = .error e st'' ∧ Q st'') :
    ∃ e st', (x >>= f) st = .error e st' ∧ Q st' := by
  cases hcall : x st with
  | error e st₁ => exact ⟨e, st₁, bind_error hcall, hfirst e st₁ hcall⟩
  | ok b st₁ =>
    rw [bind_ok hcall]
    exact hrest b st₁ hcall

/-- A load stops with a property if it holds at the start and if what follows the headers stops with
it. -/
theorem systemLoadElfArgs_stops {name : Option (List UInt8)} {argc : ℤ} {argv : Option Argv} (hhere : Q st)
    (hrest : ∀ ehdr phdrs, HeadersRead fs (name.getD []) size ehdr phdrs → ∃ e st', (do
      let p ← loadSegments memmap fs (name.getD []) size ehdr [] phdrs ⟨0, 0, false⟩
      refuse (p.totalPages = 0) (-5)
      refuse (!p.entryIsExecutable) (-5)
      refuse (userAddressLimit.toNat ≤ ehdr.entry) (-5)
      let stackPhys ← mapStack memmap
      pure (ehdr, phdrs, p, stackPhys)) st = .error e st' ∧ Q st') :
    ∃ e st', systemLoadElfArgs memmap fs name size argc argv st = .error e st' ∧ Q st' := by
  rw [systemLoadElfArgs]
  apply refuse_stops hhere
  intro hnamed
  apply refuse_stops hhere
  intro _
  apply refuse_stops hhere
  intro _
  apply refuse_stops hhere
  intro hexists
  rw [not_or, not_or, not_lt, not_lt] at hnamed
  suffices himage : ∃ e st', loadImage memmap fs (name.getD []) size st = .error e st' ∧ Q st' by
    obtain ⟨e, st', hcall, hdone⟩ := himage
    exact ⟨e, st', bind_error hcall, hdone⟩
  refine bind_stops (fun e st' hehdr => (readEhdr_same _ _ _).error hehdr ▸ hhere) fun ehdr st₁ hehdr => ?_
  obtain rfl := (readEhdr_same fs _ size).ok hehdr
  obtain ⟨hheader, haccepted, htable⟩ := readEhdr_full hehdr
  refine bind_stops (fun e st' hphdrs => (readPhdrs_same _ _ _ _ _).error hphdrs ▸ hhere)
    fun phdrs st₂ hphdrs => ?_
  obtain rfl := (readPhdrs_same fs _ ehdr ehdr.phnum 0).ok hphdrs
  obtain ⟨hcount, hheaders⟩ := readPhdrs_full hphdrs
  exact hrest ehdr phdrs ⟨hnamed, by simpa using hexists, hheader, haccepted, htable, hcount,
    by simpa using hheaders⟩

end Refused

/-!
## The first page of a load

A load asks for its first frame when it reaches the first page of the first segment. Which
files get that far is a matter of their headers alone: a load of any other file stops with
the machine as it was.
-/

open List Phdr

/-- The loader reaches the first page of a segment, the first one to load. -/
structure FirstPage (fs : FileReads) (filename : List UInt8) (size : ℕ) (ehdr : Ehdr)
    (earlier : List Phdr) (phdr : Phdr) (later : List Phdr) : Prop where
  headers : HeadersRead fs filename size ehdr (earlier ++ phdr :: later)
  first : ∀ h ∈ earlier, h.loadable = false
  loadable : phdr.loadable = true
  fits : phdr.Fits size
  aligned : phdr.misaligned = false
  bound : phdr.segmentPages ≤ maxElfMemorySize / pageSize

variable {earlier later phdrs : List Phdr} {phdr : Phdr} {st st' : LoadState} {p : Progress} {s s' : Mmu}

/-- Program headers that can be read in full are read. -/
theorem readPhdrs_takes {count i : ℕ} (hlength : phdrs.length = count) (hreads : ∀ k h, phdrs[k]? = some h →
      ∃ bytes, ReadsFull fs filename (ehdr.phoff + (i + k) * ehdr.phentsize) phdrSize bytes ∧
        h = ofBytes bytes) (st : LoadState) :
    readPhdrs fs filename ehdr count i st = .ok phdrs st := by
  induction phdrs generalizing count i with
  | nil =>
    subst hlength
    rfl
  | cons first rest ih =>
    subst hlength
    obtain ⟨bytes, ⟨hread, hfull⟩, rfl⟩ := hreads 0 first rfl
    rw [add_zero] at hread
    rw [length_cons, readPhdrs, bind_ok (readHeader_takes hread hfull st)]
    have hrest := ih rfl (i := i + 1) fun k h hk => by
      have hindex : i + 1 + k = i + (k + 1) := by omega
      rw [hindex]
      exact hreads (k + 1) h hk
    rw [bind_ok hrest, pure_run]

/-- Segments that are not to be loaded are passed over. -/
theorem loadSegments_skip (hskip : ∀ h ∈ phdrs, h.loadable = false) (st : LoadState) :
    loadSegments memmap fs filename size ehdr earlier (phdrs ++ later) p st =
      loadSegments memmap fs filename size ehdr (earlier ++ phdrs) later p st := by
  induction phdrs generalizing earlier with
  | nil => rw [append_nil, nil_append]
  | cons first rest ih =>
    rw [cons_append, loadSegments, bind_ok (loadSegment_skip (hskip first mem_cons_self) st),
      ih fun h hh => hskip h (mem_cons_of_mem first hh), append_assoc, singleton_append]

/-- A file header that can be read in full and is accepted is read. -/
theorem readEhdr_takes (h : HeadersRead fs filename size ehdr phdrs) (st : LoadState) :
    readEhdr fs filename size st = .ok ehdr st := by
  obtain ⟨bytes, ⟨hread, hfull⟩, rfl⟩ := h.header
  have htable : ¬ (size < (Ehdr.ofBytes bytes).phoff ∨ size - (Ehdr.ofBytes bytes).phoff <
      (Ehdr.ofBytes bytes).phnum * (Ehdr.ofBytes bytes).phentsize) := by
    rw [not_or, not_lt, not_lt]
    exact h.table
  have haccepted : ¬ (!(Ehdr.ofBytes bytes).accepted) = true := by simpa using h.accepted
  rw [readEhdr, bind_ok (readHeader_takes hread hfull st), bind_ok (refuse_ok haccepted st),
    bind_ok (refuse_ok htable st), pure_run]

/-- The pages of a segment to load start with its first page. -/
theorem Phdr.pageList_cons (phdr : Phdr) (hload : phdr.loadable = true) :
    ∃ rest, phdr.pageList = phdr.pageStart :: rest := by
  have hmemsz : phdr.memsz ≠ 0 := by
    rw [loadable, decide_eq_true_eq] at hload
    exact hload.2
  obtain ⟨hstart, hlow, -⟩ := phdr.pageStart_spec
  obtain ⟨hend, hhigh, -⟩ := phdr.pageEnd_spec
  have hpos : 0 < phdr.segmentPages := by
    rw [segEnd] at hhigh
    rw [segmentPages, pageSize]
    omega
  obtain ⟨count, hcount⟩ := Nat.exists_eq_succ_of_ne_zero hpos.ne'
  rw [pageList, hcount, range_succ_eq_map, List.map_cons, mul_zero, add_zero]
  exact ⟨_, rfl⟩

/-- A load that reaches the first page stops there if no frame is left. -/
theorem FirstPage.exhausted (h : FirstPage fs filename size ehdr earlier phdr later)
    (halloc : pmmAllocZeroedPage memmap s = (0, s')) :
    ∃ program, loadImage memmap fs filename size ⟨s, noProgram⟩ = .error (-3) ⟨s', program⟩ := by
  have hphdrs : readPhdrs fs filename ehdr ehdr.phnum 0 ⟨s, noProgram⟩ =
      .ok (earlier ++ phdr :: later) ⟨s, noProgram⟩ :=
    readPhdrs_takes h.headers.headers.1 (by simpa using h.headers.headers.2) _
  have hregion : ∃ program, addRegion ⟨phdr.pageStart, phdr.pageEnd, h.fits.below⟩ ⟨s, noProgram⟩ =
      .ok () ⟨s, program⟩ := ⟨_, rfl⟩
  obtain ⟨program, hregion⟩ := hregion
  have hmap : ∀ page, mapNewPage memmap page ⟨s, program⟩ = .error (-3) ⟨s', program⟩ := by
    intro page
    rw [mapNewPage, halloc]
    rfl
  have hloop : (phdr.pageList.forM fun page => loadPage memmap fs filename phdr page) ⟨s, program⟩ =
      .error (-3) ⟨s', program⟩ := by
    obtain ⟨rest, hlist⟩ := phdr.pageList_cons h.loadable
    rw [hlist]
    exact bind_error (bind_error (hmap _))
  have hsegment : loadSegment memmap fs filename size ehdr earlier phdr ⟨0, 0, false⟩ ⟨s, noProgram⟩ =
      .error (-3) ⟨s', program⟩ := by
    have hapart : (earlier.any fun other => other.loadable && phdr.overlaps other) = false := by
      rw [any_eq_false]
      intro other hin
      rw [h.first other hin]
      exact Bool.false_ne_true
    have hbound : ¬ maxElfMemorySize / pageSize - 0 < phdr.segmentPages := not_lt.mpr h.bound
    rw [loadSegment, h.loadable, Bool.not_true, if_neg Bool.false_ne_true, dif_pos h.fits,
      bind_ok (refuse_ok (by rw [h.aligned]; exact Bool.false_ne_true) _), bind_ok hregion,
      bind_ok (refuse_ok hbound _), bind_ok (refuse_ok (by rw [hapart]; exact Bool.false_ne_true) _),
      bind_error hloop]
  refine ⟨program, ?_⟩
  rw [loadImage, bind_ok (readEhdr_takes h.headers _), bind_ok hphdrs]
  apply bind_error
  rw [loadSegments_skip h.first, nil_append, loadSegments]
  exact bind_error hsegment

/-- Until its first page a load leaves the machine alone. -/
theorem loadSegments_untouched (hskip : ∀ h ∈ earlier, h.loadable = false)
    (hno : ∀ before phdr after, earlier ++ phdrs = before ++ phdr :: after →
      (∀ h ∈ before, h.loadable = false) → phdr.loadable = true → phdr.Fits size →
      phdr.misaligned = false → ¬ phdr.segmentPages ≤ maxElfMemorySize / pageSize) (st : LoadState) :
    (∃ e st', loadSegments memmap fs filename size ehdr earlier phdrs ⟨0, 0, false⟩ st = .error e st' ∧
        st'.mmu = st.mmu) ∨
      loadSegments memmap fs filename size ehdr earlier phdrs ⟨0, 0, false⟩ st = .ok ⟨0, 0, false⟩ st := by
  induction phdrs generalizing earlier with
  | nil => exact .inr rfl
  | cons first rest ih =>
    cases hload : first.loadable with
    | false =>
      rw [loadSegments, bind_ok (loadSegment_skip hload st)]
      apply ih
      · exact forall_mem_append.mpr ⟨hskip, forall_mem_singleton.mpr hload⟩
      · rwa [append_assoc, singleton_append]
    | true =>
      left
      have hrefused := hno earlier first rest rfl hskip hload
      have hone : ∃ e st', loadSegment memmap fs filename size ehdr earlier first ⟨0, 0, false⟩ st =
          .error e st' ∧ st'.mmu = st.mmu := by
        rw [loadSegment, hload, Bool.not_true, if_neg Bool.false_ne_true]
        split_ifs with hfits
        · apply refuse_stops (Q := fun st' => st'.mmu = st.mmu) rfl
          intro haligned
          have hbound := hrefused hfits (by simpa using haligned)
          apply bind_stops (Q := fun st' => st'.mmu = st.mmu)
          · intro e st' hregion
            rw [addRegion] at hregion
            split_ifs at hregion
            rw [← (EStateM.Result.error.inj hregion).2]
          · intro _ st₁ hregion
            obtain ⟨hmmu, -⟩ := addRegion_ok hregion
            apply refuse_stops (Q := fun st' => st'.mmu = st.mmu) hmmu
            intro htotal
            exact absurd (not_lt.mp htotal) hbound
        · exact ⟨_, _, rfl, rfl⟩
      obtain ⟨e, st', hcall, hmmu⟩ := hone
      exact ⟨e, st', by rw [loadSegments, bind_error hcall], hmmu⟩

variable {name : Option (List UInt8)} {argv : Option Argv} {argc : ℤ}

/-- A load that does not reach its first page stops with the machine as it was. -/
theorem systemLoadElfArgs_untouched (argc : ℤ) (argv : Option Argv)
    (hno : ∀ ehdr earlier phdr later, ¬ FirstPage fs (name.getD []) size ehdr earlier phdr later)
    (st : LoadState) :
    ∃ e st', systemLoadElfArgs memmap fs name size argc argv st = .error e st' ∧ st'.mmu = st.mmu := by
  refine systemLoadElfArgs_stops (Q := fun st' => st'.mmu = st.mmu) rfl fun ehdr phdrs hread => ?_
  have huntouched : (∃ e st', loadSegments memmap fs (name.getD []) size ehdr [] phdrs ⟨0, 0, false⟩ st =
      .error e st' ∧ st'.mmu = st.mmu) ∨ loadSegments memmap fs (name.getD []) size ehdr [] phdrs
        ⟨0, 0, false⟩ st = .ok ⟨0, 0, false⟩ st :=
    loadSegments_untouched (forall_mem_nil _)
      (fun before phdr after hsplit hfirst hload hfits haligned hbound => by
        rw [nil_append] at hsplit
        exact hno ehdr before phdr after ⟨hsplit ▸ hread, hfirst, hload, hfits, haligned, hbound⟩) st
  rcases huntouched with ⟨e, st', hcall, hmmu⟩ | hcall
  · exact ⟨e, st', bind_error hcall, hmmu⟩
  rw [bind_ok hcall]
  apply refuse_stops (Q := fun st' => st'.mmu = st.mmu) rfl
  intro hpages
  exact absurd rfl hpages

/-- `system_run_elf_args_impl` cleans up after a load that failed. -/
theorem systemRunElfArgsImpl_error {e : ℤ} {program : ProgramMemory}
    (hcall : ∀ argc argv, ¬ (argc < 0 ∨ 32 < argc) → ¬ (0 < argc ∧ argv.isNone) →
      systemLoadElfArgs memmap fs name size argc argv ⟨s, noProgram⟩ = .error e ⟨s', program⟩) :
    systemRunElfArgsImpl memmap fs name size argc argv ⟨s, noProgram⟩ =
      .error e ⟨cleanupProgramPages program s', program⟩ := by
  rw [systemRunElfArgsImpl]
  by_cases hbad : argc < 0 ∨ 32 < argc ∨ argv.isNone
  · rw [if_pos hbad, if_pos hbad, hcall 0 none (by decide) (by decide)]
  · rw [not_or, not_or] at hbad
    rw [if_neg (by rw [not_or, not_or]; exact hbad), if_neg (by rw [not_or, not_or]; exact hbad),
      hcall argc argv (by rw [not_or]; exact ⟨hbad.1, hbad.2.1⟩) fun hnone => hbad.2.2 hnone.2]

/-- A launch that reaches the first page fails if no frame is left. -/
theorem FirstPage.run_exhausted (h : FirstPage fs (name.getD []) size ehdr earlier phdr later) (argc : ℤ)
    (argv : Option Argv) (halloc : pmmAllocZeroedPage memmap s = (0, s')) :
    ∃ program, systemRunElfArgsImpl memmap fs name size argc argv ⟨s, noProgram⟩ =
      .error (-3) ⟨cleanupProgramPages program s', program⟩ := by
  obtain ⟨program, himage⟩ := h.exhausted halloc
  refine ⟨program, systemRunElfArgsImpl_error fun argc argv hargc hargv => ?_⟩
  have hnamed : ¬ (name.getD [] = [] ∨ size < ehdrSize ∨ maxElfFileSize < size) := by
    rw [not_or, not_or, not_lt, not_lt]
    exact h.headers.named
  have hexists : ¬ (!fs.fsExists (name.getD [])) = true := by simpa using h.headers.existing
  rw [systemLoadElfArgs, bind_ok (refuse_ok hnamed _), bind_ok (refuse_ok hargc _),
    bind_ok (refuse_ok hargv _), bind_ok (refuse_ok hexists _), bind_error himage]

/-- A launch that does not reach its first page fails and reports nothing about memory. -/
theorem systemRunElfArgsImpl_untouched
    (hno : ∀ ehdr earlier phdr later, ¬ FirstPage fs (name.getD []) size ehdr earlier phdr later) :
    ∃ e st', systemRunElfArgsImpl memmap fs name size argc argv ⟨s, noProgram⟩ = .error e st' ∧
      st'.mmu.outOfRam = s.outOfRam := by
  rw [systemRunElfArgsImpl]
  obtain ⟨e, st', hcall, hmmu⟩ := systemLoadElfArgs_untouched
    (if argc < 0 ∨ 32 < argc ∨ argv.isNone then 0 else argc)
    (if argc < 0 ∨ 32 < argc ∨ argv.isNone then none else argv) hno ⟨s, noProgram⟩
  rw [hcall]
  refine ⟨e, _, rfl, ?_⟩
  have hkept := (registers_eq_iff.mp (cleanupProgramPages_registers st'.program st'.mmu)).2.2.2.2
  exact hkept.trans (congrArg Mmu.outOfRam hmmu)

end Windoge.Exec
