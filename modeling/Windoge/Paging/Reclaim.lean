import Windoge.Paging.Ownership

/-!
# Freeing page tables and allocating frames

The free list grows by whole trees: `free_user_table` walks a table, frees what its slots
reach and then the table itself, while every push overwrites a word of the frame it frees.
The rules here say that the frames of the tree end up on the free list (or are forgotten,
when a slot is not marked as a user slot) and that nothing else is disturbed. The rule for
the allocator is the converse: a frame leaves the free list or the unused memory and is
held by the caller.
-/

namespace Windoge.Paging

open FrameTree FreeList List Multiset Finset Function Mmu Keeps Option

/-- Everything but the memory and the head of the free list. -/
def Mmu.registers (s : Mmu) : ℕ × ℕ × Word × Bool × Bool :=
  (s.allocIndex, s.allocOffset, s.cr3, s.nxe, s.outOfRam)

theorem pmmFreePage_registers (physAddr : Word) (s : Mmu) : (pmmFreePage physAddr s).registers = s.registers := by
  unfold pmmFreePage
  split <;> rfl

variable {freeTable : Word → Mmu → Mmu} {entry : Word} {level : ℕ}

theorem freeUserTable_registers (level : ℕ) (physAddr : Word) (s : Mmu) :
    (freeUserTable level physAddr s).registers = s.registers := by
  induction level generalizing physAddr s with
  | zero => rfl
  | succ level ih =>
    rw [freeUserTable, pmmFreePage_registers]
    apply foldlRecOn (motive := fun t : Mmu => t.registers = s.registers) _ _ rfl
    intro t ht i _
    unfold freeUserEntry
    split_ifs
    · exact ht
    · rw [pmmFreePage_registers, ht]
    · exact ht
    · rw [ih, ht]
    · exact ht

theorem cleanupUserPages_registers (s : Mmu) : (cleanupUserPages s).registers = s.registers := by
  have hdetached : (detachUserTables s).registers = s.registers := rfl
  apply foldlRecOn (motive := fun t : Mmu => t.registers = s.registers) _ _ hdetached
  intro t ht i _
  split_ifs
  · rw [freeUserTable_registers, ht]
  · exact ht

variable {memmap : List MemmapEntry} {all : FrameSet} {s s' : Mmu} {forest : Forest}
  {held : Multiset Word} {frame : Word}

theorem registers_eq_iff :
    s'.registers = s.registers ↔ s'.allocIndex = s.allocIndex ∧ s'.allocOffset = s.allocOffset ∧
      s'.cr3 = s.cr3 ∧ s'.nxe = s.nxe ∧ s'.outOfRam = s.outOfRam := by
  simp [registers]

/-- Freeing a held frame puts it on the free list. -/
theorem Balanced.free (h : Balanced memmap all s forest (frame ::ₘ held)) :
    Balanced memmap all (pmmFreePage frame s) forest held ∧ Keeps s (pmmFreePage frame s) forest held := by
  have hframe := h.held_isFrame
  have hpush : pmmFreePage frame s = { s.store frame 0 s.freePageHead with freePageHead := frame } :=
    if_neg (not_or.mpr ⟨hframe.1, not_not.mpr hframe.offset⟩)
  obtain ⟨-, hkeeps⟩ := h.fill (update (s.mem frame) 0 s.freePageHead)
  rw [hpush]
  refine ⟨?_, hkeeps.mem, rfl, rfl, rfl⟩
  obtain ⟨free, hfree, hall⟩ := h
  have hnot := Within.free_disjoint hall.le (mem_add.mpr (.inr (mem_cons_self _ _)))
  refine ⟨frame :: free, ?_, ?_⟩
  · apply Linked.push hfree hframe.1 hnot
    · simp [store]
    · intro q hq
      simp [store, hq]
  · rw [← hall]
    change forestFrames pageFormat (s.fill frame _).mem forest + held + ↑(frame :: free) +
      ↑(s.unallocated memmap) = _
    rw [hkeeps.forestFrames_eq, ← cons_coe]
    simp only [add_cons, cons_add]

/-- What the slots of a table hold, as a forest. -/
def slotEntries (s : Mmu) (table : Word) (height : ℕ) (indices : List (Fin 512)) : Forest :=
  ↑(indices.map fun i => (height, s.mem table i))

/-- A table entry is its table together with the entries of its slots. -/
theorem Balanced.openTable {height : ℕ} {table : Word} (hheight : height ≠ 3)
    (hchild : pageFormat.child (height + 1) entry = some table)
    (h : Balanced memmap all s ((height + 1, entry) ::ₘ forest) held) :
    Balanced memmap all s (slotEntries s table height (List.finRange 512) + forest) (table ::ₘ held) := by
  apply h.regroup
  have hslots : forestFrames pageFormat s.mem (slotEntries s table height (finRange 512)) =
      ∑ i ∈ pageFormat.slots height, frames pageFormat s.mem height (s.mem table i) := by
    simp only [slotEntries, forestFrames, pageFormat, if_neg hheight, Fin.sum_univ_def,
      Multiset.map_coe, Multiset.sum_coe, List.map_map, comp_def]
  rw [forestFrames_add, forestFrames_cons, frames_table hchild, hslots, add_cons, cons_add, cons_add]

theorem Balanced.openLeaf {page : Word} (hchild : pageFormat.child 0 entry = some page)
    (h : Balanced memmap all s ((0, entry) ::ₘ forest) held) :
    Balanced memmap all s forest (page ::ₘ held) := by
  apply h.regroup
  rw [forestFrames_cons, frames_data hchild, add_cons, singleton_add, cons_add]

/-- The same, with the frames named that are lost; below marked entries none are. -/
def FreesExactly (memmap : List MemmapEntry) (all : FrameSet) (level : ℕ)
    (freeTable : Word → Mmu → Mmu) : Prop :=
  ∀ (s : Mmu) (forest : Forest) (held : Multiset Word) (table : Word),
    Balanced memmap all s (slotEntries s table (level - 1) (List.finRange 512) + forest)
      (table ::ₘ held) →
    ∃ lost, Balanced memmap all (freeTable table s) forest (held + lost) ∧
      Keeps s (freeTable table s) forest held ∧
      ((∀ i, Every pageFormat EntryMarked s.mem (level - 1) (s.mem table i)) → lost = 0)

theorem Balanced.dropEmpty {height : ℕ} (h : Balanced memmap all s ((height, entry) ::ₘ forest) held)
    (hempty : pageFormat.child height entry = none) : Balanced memmap all s forest held := by
  apply h.regroup
  rw [forestFrames_cons, frames_of_empty hempty, zero_add]

/-- Processing one entry of a table removes it from the forest. -/
theorem freeUserEntry_exact (hlevel : level < 3) (hfree : 0 < level → FreesExactly memmap all level freeTable)
    (h : Balanced memmap all s ((level, entry) ::ₘ forest) held) :
    ∃ lost, Balanced memmap all (freeUserEntry (level + 1) freeTable entry s) forest (held + lost) ∧
      Keeps s (freeUserEntry (level + 1) freeTable entry s) forest held ∧
      (Every pageFormat EntryMarked s.mem level entry → lost = 0) := by
  have hnone : ∀ {t : Mmu}, Balanced memmap all t forest held →
      Balanced memmap all t forest (held + 0) := fun ht => by rwa [add_zero]
  unfold freeUserEntry
  split_ifs with huser hleaf haddr hpresent
  · refine ⟨frames pageFormat s.mem level entry, h.regroup (by rw [forestFrames_cons]; abel), .refl,
      fun hmarked => ?_⟩
    exact frames_of_empty (child_unmarked (by omega) hmarked.self huser)
  · obtain rfl : level = 0 := by omega
    obtain ⟨hdone, hkeeps⟩ := (h.openLeaf (child_leaf haddr)).free
    exact ⟨0, hnone hdone, hkeeps, fun _ => rfl⟩
  · obtain rfl : level = 0 := by omega
    exact ⟨0, hnone (h.dropEmpty (child_leaf_empty (not_not.mp haddr))), .refl, fun _ => rfl⟩
  · obtain ⟨below, rfl⟩ : ∃ below, level = below + 1 := ⟨level - 1, by omega⟩
    have hchild := child_present (Nat.succ_pos below) (by omega) hpresent
    obtain ⟨lost, hdone, hkeeps, hlost⟩ :=
      hfree (Nat.succ_pos below) s forest held _ (h.openTable (by omega) hchild)
    refine ⟨lost, hdone, hkeeps, fun hmarked => hlost fun i => ?_⟩
    exact hmarked.2 _ hchild i (mem_slots (by omega))
  · have hempty := child_absent (by omega : 0 < level) (by omega) (not_not.mp hpresent)
    exact ⟨0, hnone (h.dropEmpty hempty), .refl, fun _ => rfl⟩

/-- Processing the slots of a held table one after the other removes their entries. -/
theorem freeUserEntries_exact (hlevel : level < 3) (hfree : 0 < level → FreesExactly memmap all level freeTable)
    {table : Word} (indices : List (Fin 512))
    (h : Balanced memmap all s (slotEntries s table level indices + forest) (table ::ₘ held)) :
    let s' := indices.foldl (fun t i => freeUserEntry (level + 1) freeTable (t.mem table i) t) s
    ∃ lost, Balanced memmap all s' forest (table ::ₘ held + lost) ∧ Keeps s s' forest (table ::ₘ held) ∧
      ((∀ i ∈ indices, Every pageFormat EntryMarked s.mem level (s.mem table i)) → lost = 0) := by
  induction indices generalizing s held with
  | nil =>
    simp only [slotEntries, map_nil, coe_nil, zero_add] at h
    exact ⟨0, by rwa [add_zero], .refl, fun _ => rfl⟩
  | cons i indices ih =>
    have hcons : slotEntries s table level (i :: indices) + forest =
        (level, s.mem table i) ::ₘ (slotEntries s table level indices + forest) := by
      simp [slotEntries, ← cons_coe]
    rw [hcons] at h
    obtain ⟨first, hstep, hkeeps, hfirst⟩ := freeUserEntry_exact hlevel hfree h
    -- the table is held, so the entries still to be processed are the ones read at the start
    have hwords := hkeeps.mem table (mem_add.mpr (.inr (mem_cons_self _ _)))
    have htable : slotEntries (freeUserEntry (level + 1) freeTable (s.mem table i) s) table level
        indices = slotEntries s table level indices := by
      rw [slotEntries, hwords]
      rfl
    rw [← htable, cons_add] at hstep
    obtain ⟨rest, hdone, hrest, hlost⟩ := ih hstep
    refine ⟨first + rest, ?_, trans (hkeeps.mono ?_) ?_, fun hmarked => ?_⟩
    · rwa [← cons_add, add_assoc] at hdone
    · intro q hq
      rw [forestFrames_add, add_assoc]
      exact mem_add.mpr (.inr hq)
    · rw [← cons_add] at hrest
      exact hrest.forgetHeld
    · rw [hfirst (hmarked i mem_cons_self), hlost, add_zero]
      intro j hj
      rw [hwords]
      apply (hmarked j (mem_cons_of_mem i hj)).congr
      intro q hq
      apply hkeeps.mem
      have htop : (level, s.mem table j) ∈ slotEntries s table level indices := mem_coe.mpr (mem_map_of_mem hj)
      exact mem_add.mpr (.inl (mem_forestFrames (mem_add.mpr (.inl htop)) hq))

/-- Freeing a table with everything its slots reach, and the frames that are lost. -/
theorem freeUserTable_exact (level : ℕ) (hpos : 0 < level) (hlevel : level ≤ 3) :
    FreesExactly memmap all level (freeUserTable level) := by
  induction level with
  | zero => exact absurd hpos (lt_irrefl 0)
  | succ level ih =>
    intro s forest held table h
    rw [freeUserTable]
    obtain ⟨lost, hslots, hkeeps, hlost⟩ := freeUserEntries_exact hlevel
      (fun hbelow => ih hbelow (by omega)) (finRange 512) h
    rw [cons_add] at hslots
    obtain ⟨hdone, hfree⟩ := hslots.free
    refine ⟨lost, hdone, trans (hkeeps.mono fun q hq => ?_) hfree.forgetHeld,
      fun hmarked => hlost fun i _ => hmarked i⟩
    rw [add_cons]
    exact mem_cons_of_mem hq

theorem sum_lowerHalf {M : Type*} [AddCommMonoid M] (g : Fin 512 → M) :
    ∑ i ∈ lowerHalf, g i = ∑ i : Fin 256, g (lowerSlot i) := by
  symm
  apply sum_bij fun i _ => lowerSlot i
  · intro i _
    exact mem_lowerHalf.mpr i.isLt
  · intro i _ j _ hij
    exact Fin.castLE_injective _ hij
  · intro i hi
    exact ⟨⟨i, mem_lowerHalf.mp hi⟩, mem_univ _, rfl⟩
  · intro i _
    rfl

/-- The entry that the cleanup takes out of a slot of the loaded PML4, or an empty one. -/
def collectedEntry (s : Mmu) (i : Fin 256) : Word :=
  if isUserTable (s.mem s.loaded (lowerSlot i)) then s.mem s.loaded (lowerSlot i) else 0

theorem forestFrames_lower (mem : Word → Fin 512 → Word) (entries : Fin 256 → Word) :
    forestFrames pageFormat mem ↑((List.finRange 256).map fun i => (3, entries i)) =
      ∑ i : Fin 256, frames pageFormat mem 3 (entries i) := by
  simp only [forestFrames, Fin.sum_univ_def, Multiset.map_coe, Multiset.sum_coe, List.map_map, comp_def]

/-- Detaching the user tables moves their entries out of the loaded PML4. -/
theorem detachUserTables_exact (hroot : TableIn s forest 3 s.loaded) (h : Balanced memmap all s forest held) :
    Balanced memmap all (detachUserTables s)
        (↑((List.finRange 256).map fun i => (3, collectedEntry s i)) + forest) held ∧
      TableIn (detachUserTables s) forest 3 s.loaded := by
  apply Balanced.replace 0 _ _ hroot _ (by rwa [zero_add])
  have hslots : pageFormat.slots 3 = lowerHalf := rfl
  rw [forestFrames_lower, hslots, sum_lowerHalf, sum_lowerHalf, ← sum_add_distrib]
  have hzero : frames pageFormat s.mem 3 0 = 0 := frames_of_empty (child_zero (by decide))
  simp only [forestFrames, map_zero, sum_zero, zero_add]
  apply sum_congr rfl
  intro i _
  have hlower : (lowerSlot i).val < 256 := i.isLt
  by_cases huser : isUserTable (s.mem s.loaded (lowerSlot i))
  · simp only [collectedEntry, huser, hlower, and_self, if_true, hzero, add_zero]
  · simp only [collectedEntry, huser, and_false, if_false, hzero, zero_add, Bool.false_eq_true]

theorem isUserTable_present (h : isUserTable entry = true) : entry &&& pagePresent ≠ 0 := by
  have hboth : entry &&& (pagePresent ||| pageUser) = pagePresent ||| pageUser := by
    simpa [isUserTable] using h
  have hmask : (pagePresent ||| pageUser) &&& pagePresent = pagePresent := by decide
  have hpresent : entry &&& pagePresent = pagePresent := by rw [← hmask, ← BitVec.and_assoc, hboth]
  rw [hpresent]
  decide

theorem child_collected {i : Fin 256} (h : userTables s i ≠ 0) :
    pageFormat.child 3 (collectedEntry s i) = some (userTables s i) := by
  by_cases huser : isUserTable (s.mem s.loaded (lowerSlot i))
  · rw [collectedEntry, userTables, if_pos huser, if_pos huser]
    exact child_present (by decide : 0 < 3) (by decide) (isUserTable_present huser)
  · exact absurd (if_neg huser) h

/-- Freeing the collected tables one after the other, and the frames that are lost. -/
theorem freeCollected_exact (indices : List (Fin 256)) (t : Mmu)
    (h : Balanced memmap all t (↑(indices.map fun i => (3, collectedEntry s i)) + forest) held) :
    let t' := indices.foldl (fun t i =>
      if userTables s i ≠ 0 then freeUserTable 3 (userTables s i) t else t) t
    ∃ lost, Balanced memmap all t' forest (held + lost) ∧ Keeps t t' forest held ∧
      ((∀ i ∈ indices, Every pageFormat EntryMarked t.mem 3 (collectedEntry s i)) → lost = 0) := by
  induction indices generalizing t held with
  | nil =>
    simp only [map_nil, coe_nil, zero_add] at h
    exact ⟨0, by rwa [add_zero], .refl, fun _ => rfl⟩
  | cons i indices ih =>
    rw [List.map_cons, ← Multiset.cons_coe, Multiset.cons_add] at h
    rw [List.foldl_cons]
    split_ifs with htables
    · have hchild := child_collected htables
      obtain ⟨first, hfreed, hkeeps, hfirst⟩ := freeUserTable_exact 3 (by decide) le_rfl t _ held _
        (h.openTable (by decide) hchild)
      obtain ⟨rest, hdone, hrest, hlost⟩ := ih _ hfreed
      refine ⟨first + rest, by rwa [← add_assoc], trans (hkeeps.mono fun q hq => ?_)
        hrest.forgetHeld, fun hmarked => ?_⟩
      · rw [forestFrames_add, add_assoc]
        exact mem_add.mpr (.inr hq)
      · have hwords := (hmarked i mem_cons_self).2 _ hchild
        rw [hfirst fun j => hwords j (mem_slots (by decide)), hlost, add_zero]
        intro j hj
        apply (hmarked j (mem_cons_of_mem i hj)).congr
        intro q hq
        apply hkeeps.mem
        have htop : (3, collectedEntry s j) ∈ (↑(indices.map fun i => (3, collectedEntry s i)) : Forest) :=
          mem_coe.mpr (mem_map_of_mem hj)
        exact mem_add.mpr (.inl (mem_forestFrames (mem_add.mpr (.inl htop)) hq))
    · -- a slot without a user table: its entry is empty, for no table is at frame 0
      have hempty : pageFormat.child 3 (collectedEntry s i) = none := by
        by_contra hsome
        obtain ⟨table, htable⟩ := ne_none_iff_exists'.mp hsome
        have hmem : table ∈ forestFrames pageFormat t.mem ((3, collectedEntry s i) ::ₘ
            (↑(indices.map fun i => (3, collectedEntry s i)) + forest)) + held := by
          have hpath : table ∈ frames pageFormat t.mem 3 (collectedEntry s i) :=
            follow_mem_frames (follow_nil.trans htable)
          exact mem_add.mpr (.inl (mem_forestFrames (mem_cons_self _ _) hpath))
        apply (h.fits.isFrame hmem).1
        rw [not_not] at htables
        rw [userTables] at htables
        rw [collectedEntry] at htable
        split_ifs at htables htable with huser
        · rw [child_present (by decide) (by decide) (isUserTable_present huser)] at htable
          exact (some.inj htable).symm.trans htables
        · rw [child_zero (by decide)] at htable
          cases htable
      obtain ⟨rest, hdone, hrest, hlost⟩ := ih t (h.dropEmpty hempty)
      exact ⟨rest, hdone, hrest, fun hmarked => hlost fun j hj => hmarked j (mem_cons_of_mem i hj)⟩

/-- `cleanup_user_pages` gives the frames of the loaded lower half back and keeps the PML4. -/
theorem cleanupUserPages_spec (hroot : TableIn s forest 3 s.loaded) (h : Within memmap all s forest held) :
    Within memmap all (cleanupUserPages s) forest held ∧
      TableIn (cleanupUserPages s) forest 3 s.loaded ∧ UpperSame s (cleanupUserPages s) forest := by
  obtain ⟨before, hall⟩ := h.balanced
  obtain ⟨hdetached, htable⟩ := detachUserTables_exact hroot hall
  obtain ⟨lost, hdone, hkeeps, -⟩ := freeCollected_exact _ _ hdetached
  have hupper : UpperSame s (detachUserTables s) forest := by
    apply fill_upper
    intro i hi
    simp [not_lt.mpr hi]
  rw [add_assoc] at hdone
  exact ⟨hdone.within, htable.keep hkeeps, hupper.trans hkeeps.upper⟩

/-!
## Allocating frames

The allocator pops the free list or takes the next frame of the memory map. Both ways a
frame that nothing else refers to becomes held by the caller, zero filled.
-/

open Prod

variable {entries : List MemmapEntry} {all : FrameSet} {s s' : Mmu} {forest : Forest} {held : Multiset Word}
  {entry : MemmapEntry}

/-- The frames of a usable entry start at its offset. -/
theorem usableFrames_cons {offset : ℕ} (husable : entry.type = limineMemmapUsable)
    (hroom : offset + 4096 ≤ entry.length) :
    usableFrames entry offset = .ofNat 64 (entry.base + offset) :: usableFrames entry (offset + 4096) := by
  have hcount : (entry.length - offset) / 4096 = (entry.length - (offset + 4096)) / 4096 + 1 := by omega
  rw [usableFrames, usableFrames, if_neg (not_not.mpr husable), if_neg (not_not.mpr husable), hcount,
    List.range_succ_eq_map, List.map_cons, List.map_map, mul_zero, add_zero]
  apply congrArg (List.cons _)
  apply map_congr_left
  intro k _
  have haddr : entry.base + (offset + 4096 * (k + 1)) = entry.base + (offset + 4096 + 4096 * k) := by omega
  exact congrArg (BitVec.ofNat 64) haddr

theorem usableFrames_eq_nil {offset : ℕ} (hroom : ¬ offset + 4096 ≤ entry.length) :
    usableFrames entry offset = [] := by
  have hcount : (entry.length - offset) / 4096 = 0 := by omega
  simp [usableFrames, hcount]

theorem cleanupUserPages_outOfRam (s : Mmu) : (cleanupUserPages s).outOfRam = s.outOfRam :=
  (registers_eq_iff.mp (cleanupUserPages_registers s)).2.2.2.2

/-- A scan takes the first unallocated frame; if there is none, it tears the loaded address space down
and reports that memory ran out. Otherwise the report stays what it is. -/
theorem scanMemmap_cases (hentries : memmap.drop s.allocIndex = entries) :
    ∃ index offset, (s.unallocated memmap = [] ∧
        ({ s with allocIndex := index, allocOffset := offset } : Mmu).unallocated memmap = [] ∧
        ∀ report, scanMemmap entries { s with outOfRam := report } = (0, cleanupUserPages
          { s with allocIndex := index, allocOffset := offset, outOfRam := true })) ∨
      ∃ frame, s.unallocated memmap =
          frame :: ({ s with allocIndex := index, allocOffset := offset } : Mmu).unallocated memmap ∧
        ∀ report, scanMemmap entries { s with outOfRam := report } = (frame,
          { s with allocIndex := index, allocOffset := offset, outOfRam := report }.fill frame fun _ => 0) := by
  induction entries generalizing s with
  | nil =>
    have hnone : s.unallocated memmap = [] := by
      rw [Mmu.unallocated, hentries]
      rfl
    exact ⟨s.allocIndex, s.allocOffset, .inl ⟨hnone, hnone, fun _ => rfl⟩⟩
  | cons entry rest ih =>
    have hnext : memmap.drop (s.allocIndex + 1) = rest := by rw [← drop_drop, hentries, drop_one, tail_cons]
    have hhere : s.unallocated memmap = usableFrames entry s.allocOffset ++ unallocated rest 0 := by
      rw [Mmu.unallocated, hentries, unallocated]
    by_cases hfits : entry.type = limineMemmapUsable ∧ s.allocOffset + 4096 ≤ entry.length
    · refine ⟨s.allocIndex, s.allocOffset + 4096, .inr ⟨.ofNat 64 (entry.base + s.allocOffset), ?_,
        fun report => ?_⟩⟩
      · rw [hhere, usableFrames_cons hfits.1 hfits.2, cons_append, Mmu.unallocated, hentries, unallocated]
      · rw [scanMemmap, if_neg (not_not.mpr hfits.1)]
        exact if_pos hfits.2
    · -- an entry that is skipped contributes no frame
      have hempty : usableFrames entry s.allocOffset = [] := by
        by_cases htype : entry.type = limineMemmapUsable
        · exact usableFrames_eq_nil fun hroom => hfits ⟨htype, hroom⟩
        · exact if_pos htype
      have hskip : s.unallocated memmap =
          ({ s with allocIndex := s.allocIndex + 1, allocOffset := 0 } : Mmu).unallocated memmap := by
        rw [hhere, hempty, nil_append, Mmu.unallocated, hnext]
      have hscan : ∀ report, scanMemmap (entry :: rest) { s with outOfRam := report } = scanMemmap rest
            { s with allocIndex := s.allocIndex + 1, allocOffset := 0, outOfRam := report } := by
        intro report
        rw [scanMemmap]
        split_ifs with htype hroom
        · rfl
        · exact absurd ⟨not_not.mp htype, hroom⟩ hfits
        · rfl
      rw [hskip]
      simp only [hscan]
      exact ih hnext

/-- A frame handed out by the allocator is held by the caller, is zero filled, and was neither
reachable from a page table nor held before. -/
theorem pmmAllocZeroedPage_balanced {frame : Word} (hcall : pmmAllocZeroedPage memmap s = (frame, s'))
    (hram : s'.outOfRam = false) (h : Balanced memmap all s forest held) :
    Balanced memmap all s' forest (frame ::ₘ held) ∧ Keeps s s' forest held ∧ s'.mem frame = fun _ => 0 := by
  obtain ⟨free, hfree, hall⟩ := h
  by_cases hhead : s.freePageHead = 0
  · rw [pmmAllocZeroedPage, if_neg (not_not.mpr hhead)] at hcall
    obtain ⟨index, offset, ⟨-, -, hscan⟩ | ⟨taken, hunallocated, hscan⟩⟩ := scanMemmap_cases (s := s) rfl
    · cases hcall.symm.trans (hscan s.outOfRam)
      rw [cleanupUserPages_outOfRam] at hram
      cases hram
    cases hcall.symm.trans (hscan s.outOfRam)
    have htaken : Balanced memmap all { s with allocIndex := index, allocOffset := offset } forest
        (frame ::ₘ held) := by
      refine ⟨free, hfree, hall ▸ ?_⟩
      rw [hunallocated, ← cons_coe]
      simp only [add_cons, cons_add]
    obtain ⟨hfilled, hkeeps⟩ := htaken.fill fun _ => 0
    exact ⟨hfilled, ⟨hkeeps.mem, rfl, rfl, rfl⟩, update_self _ _ _⟩
  · rw [pmmAllocZeroedPage, if_pos hhead] at hcall
    cases hcall
    obtain ⟨rest, rfl, hrest⟩ := hfree.pop hhead
    have htaken : Balanced memmap all { s with freePageHead := s.mem s.freePageHead 0 } forest
        (s.freePageHead ::ₘ held) := by
      refine ⟨rest, hrest, hall ▸ ?_⟩
      rw [← cons_coe]
      simp only [add_cons, cons_add]
      rfl
    obtain ⟨hfilled, hkeeps⟩ := htaken.fill fun _ => 0
    exact ⟨hfilled, ⟨hkeeps.mem, rfl, rfl, rfl⟩, update_self _ _ _⟩

theorem pmmAllocZeroedPage_outOfRam (h : s.outOfRam = true) :
    (pmmAllocZeroedPage memmap s).2.outOfRam = true := by
  unfold pmmAllocZeroedPage
  split_ifs
  · exact h
  obtain ⟨index, offset, ⟨-, -, hscan⟩ | ⟨frame, -, hscan⟩⟩ := scanMemmap_cases (s := s) rfl
  · have hrun := hscan s.outOfRam
    rw [hrun, cleanupUserPages_outOfRam]
  · have hrun := hscan s.outOfRam
    rwa [hrun]

/-!
## Mapping, protecting and unmapping user pages

`map_user_page` descends from the loaded PML4, allocating the tables it misses, and stores
the leaf entry; `protect_user_page` and `unmap_user_page` descend through existing tables.
Each keeps the accounting of frames: mapping moves the page from its holder into the page
tables, protecting moves nothing, unmapping moves the page to the free list.
-/

open Mmu

variable {below : ℕ} {table virtAddr frame next found : Word} {i : Fin 512}

/-- A held zero-filled frame is an empty table. -/
theorem Balanced.freshTable (hbelow : below < 3) (h : Balanced memmap all s forest (frame ::ₘ held))
    (hzero : s.mem frame = fun _ => 0) :
    Balanced memmap all s ((below + 1, frame ||| pageUserFlags) ::ₘ forest) held := by
  have hframe := h.held_isFrame
  have hchild : pageFormat.child (below + 1) (frame ||| pageUserFlags) = some frame := by
    rw [child_present (Nat.succ_pos _) (by omega) (userFlags_present _), userFlags_table, hframe.aligned]
  have hslots : ∑ i ∈ pageFormat.slots below, frames pageFormat s.mem below (s.mem frame i) = 0 := by
    apply Finset.sum_eq_zero
    intro i _
    rw [hzero]
    exact frames_of_empty (child_zero (by omega))
  apply h.regroup
  rw [forestFrames_cons, frames_table hchild, hslots, add_cons, cons_add, cons_add, zero_add]

/-- A held frame can be put behind a leaf entry. -/
theorem Balanced.leafEntry (h : Balanced memmap all s forest (frame ::ₘ held)) :
    Balanced memmap all s ((0, (frame &&& ~~~pageOffsetMask) ||| pageUserFlags) ::ₘ forest) held := by
  have hframe := h.held_isFrame
  have haddr : ((frame &&& ~~~pageOffsetMask) ||| pageUserFlags) &&& pageAddressMask = frame := by
    rw [hframe.aligned, hframe.leaf]
  have hchild : pageFormat.child 0 ((frame &&& ~~~pageOffsetMask) ||| pageUserFlags) = some frame := by
    rw [child_leaf (by rw [haddr]; exact hframe.1), haddr]
  apply h.regroup
  rw [forestFrames_cons, frames_data hchild, add_cons, singleton_add, cons_add]

/-- A table lookup that ends without an out-of-memory report started without one. -/
theorem getOrAllocTable_ram (hcall : getOrAllocTable memmap table i s = (next, s'))
    (hram : s'.outOfRam = false) : s.outOfRam = false := by
  have hmono : s.outOfRam = true → (getOrAllocTable memmap table i s).2.outOfRam = true := by
    intro hout
    rw [getOrAllocTable]
    split_ifs
    · exact pmmAllocZeroedPage_outOfRam hout
    · exact hout
  rw [hcall, hram] at hmono
  exact Bool.eq_false_iff.mpr fun hout => Bool.false_ne_true (hmono hout)

/-- The table behind a slot: afterwards the slot names a table of the forest. -/
theorem getOrAllocTable_spec (hcall : getOrAllocTable memmap table i s = (next, s'))
    (hram : s'.outOfRam = false) (hbelow : below < 3) (hslot : i ∈ pageFormat.slots (below + 1))
    (htable : TableIn s forest (below + 1) table) (h : Within memmap all s forest held) :
    Within memmap all s' forest held ∧ TableIn s' forest below next ∧ s'.cr3 = s.cr3 ∧ UpperSame s s' forest := by
  have hpresent : ∀ entry : Word, pageFormat.child (below + 1) (entry ||| pageUserFlags) =
      some ((entry ||| pageUserFlags) &&& ~~~pageOffsetMask) := fun entry =>
    child_present (Nat.succ_pos _) (by omega) (userFlags_present entry)
  obtain ⟨lost, hall⟩ := h.balanced
  by_cases habsent : s.mem table i &&& pagePresent = 0
  · cases halloc : pmmAllocZeroedPage memmap s with
    | mk page t =>
    rw [getOrAllocTable, if_pos habsent, halloc] at hcall
    simp only [store, update_self] at hcall
    cases hcall
    obtain ⟨hheld, hkeeps, hzero⟩ := pmmAllocZeroedPage_balanced halloc hram hall
    have hthere := htable.keep hkeeps
    obtain ⟨hstored, hkept⟩ := (hheld.freshTable hbelow hzero).exchange hthere hslot
    refine ⟨hstored.within.forget, hkept.descend hslot ?_, hkeeps.cr3,
      hkeeps.upper.trans (hheld.fits.store_upper hthere hslot)⟩
    simp only [store, update_self]
    exact hpresent page
  · rw [getOrAllocTable, if_neg habsent] at hcall
    simp only [store, update_self] at hcall
    cases hcall
    have hchild : pageFormat.child (below + 1) (s.mem table i ||| pageUserFlags) =
        pageFormat.child (below + 1) (s.mem table i) := by
      rw [hpresent, userFlags_table, child_present (Nat.succ_pos _) (by omega) habsent]
    obtain ⟨hstored, hkept⟩ := hall.relabel htable hchild
    refine ⟨hstored.within, hkept.descend hslot ?_, rfl, h.store_upper htable hslot⟩
    simp only [store, update_self]
    exact hpresent (s.mem table i)

/-- The lookups that `map_user_page` makes before it stores the leaf entry. -/
theorem mapUserPage_steps (hram : (mapUserPage memmap virtAddr frame s).outOfRam = false) :
    ∃ pdpt s₁ pd s₂ pt s₃,
      getOrAllocTable memmap s.loaded (tableIndex 39 virtAddr) s = (pdpt, s₁) ∧ s₁.outOfRam = false ∧
      getOrAllocTable memmap pdpt (tableIndex 30 virtAddr) s₁ = (pd, s₂) ∧ s₂.outOfRam = false ∧
      getOrAllocTable memmap pd (tableIndex 21 virtAddr) s₂ = (pt, s₃) ∧ s₃.outOfRam = false ∧
      mapUserPage memmap virtAddr frame s =
        s₃.store pt (tableIndex 12 virtAddr) ((frame &&& ~~~pageOffsetMask) ||| pageUserFlags) := by
  have hram₂ := getOrAllocTable_ram (mk.eta (p := getOrAllocTable memmap _ _ _)).symm hram
  exact ⟨_, _, _, _, _, _, rfl, getOrAllocTable_ram rfl hram₂, rfl, hram₂, rfl, hram, rfl⟩

/-- Mapping a held frame moves it into the page tables of the loaded address space. -/
theorem mapUserPage_spec (hvirt : virtAddr < 0x800000000000)
    (hram : (mapUserPage memmap virtAddr frame s).outOfRam = false) (hroot : TableIn s forest 3 s.loaded)
    (h : Within memmap all s forest (frame ::ₘ held)) :
    Within memmap all (mapUserPage memmap virtAddr frame s) forest held ∧
      (mapUserPage memmap virtAddr frame s).cr3 = s.cr3 ∧
      UpperSame s (mapUserPage memmap virtAddr frame s) forest := by
  obtain ⟨pdpt, s₁, pd, s₂, pt, s₃, hpdpt, hram₁, hpd, hram₂, hpt, hram₃, hresult⟩ := mapUserPage_steps hram
  rw [hresult]
  have hlower : tableIndex 39 virtAddr ∈ pageFormat.slots 3 := tableIndex_lower hvirt
  obtain ⟨hs₁, htable₁, hcr₁, hup₁⟩ := getOrAllocTable_spec hpdpt hram₁ (by decide) hlower hroot h
  obtain ⟨hs₂, htable₂, hcr₂, hup₂⟩ :=
    getOrAllocTable_spec hpd hram₂ (by decide) (mem_slots (by decide)) htable₁ hs₁
  obtain ⟨hs₃, htable₃, hcr₃, hup₃⟩ :=
    getOrAllocTable_spec hpt hram₃ (by decide) (mem_slots (by decide)) htable₂ hs₂
  obtain ⟨lost, hall⟩ := hs₃.balanced
  rw [cons_add] at hall
  obtain ⟨hdone, -⟩ := hall.leafEntry.exchange htable₃ (mem_slots (by decide))
  exact ⟨hdone.within.forget, hcr₃.trans (hcr₂.trans hcr₁),
    ((hup₁.trans hup₂).trans hup₃).trans (hs₃.store_upper htable₃ (mem_slots (by decide)))⟩

/-- A descent through user tables ends at a table of the forest. -/
theorem walkUserTables_spec {indices : List (Fin 512)}
    (hwalk : walkUserTables s table indices = some found) (hlength : indices.length = below)
    (hlevels : below ≤ 3) (hslots : ∀ i rest, indices = i :: rest → i ∈ pageFormat.slots below)
    (htable : TableIn s forest below table) : TableIn s forest 0 found := by
  induction indices generalizing table below with
  | nil =>
    cases hwalk
    rwa [← hlength] at htable
  | cons i rest ih =>
    rw [walkUserTables] at hwalk
    split_ifs at hwalk with huser
    subst hlength
    have hchild := child_present (Nat.succ_pos rest.length) (Nat.lt_succ_of_le hlevels)
      (isUserTable_present huser)
    refine ih hwalk rfl (Nat.le_of_succ_le hlevels) ?_ (htable.descend (hslots i rest rfl) hchild)
    intro j _ _
    exact mem_slots (ne_of_lt hlevels)

/-- The kernel half of a PML4 holds no user table. -/
def KernelHalf (s : Mmu) (pml4 : Word) : Prop :=
  ∀ i : Fin 512, 256 ≤ i.val → isUserTable (s.mem pml4 i) = false

/-- A page table found by a descent belongs to the loaded address space: the kernel half holds
no user table, so the descent fails there. -/
theorem userPageTable_spec (hwalk : userPageTable virtAddr s = some found)
    (hkernel : KernelHalf s s.loaded) (hroot : TableIn s forest 3 s.loaded) :
    TableIn s forest 0 found := by
  have hlower : tableIndex 39 virtAddr ∈ lowerHalf := by
    rw [mem_lowerHalf]
    by_contra hupper
    have huser := hkernel _ (not_lt.mp hupper)
    rw [userPageTable, walkUserTables, huser] at hwalk
    simp at hwalk
  apply walkUserTables_spec hwalk rfl le_rfl _ hroot
  intro i rest hindices
  cases hindices
  exact hlower

/-- Changing the permissions of a leaf entry keeps the bits that are not permissions. -/
theorem protectedEntry_and {mask : Word} (hpresent : pagePresent &&& mask = 0)
    (hwritable : pageWritable &&& mask = 0) (hexecute : pageNoExecute &&& mask = 0)
    (hclear : ~~~(pagePresent ||| pageWritable ||| pageNoExecute) &&& mask = mask)
    (nxe present writeAccess executeAccess : Bool) (entry : Word) :
    protectedEntry nxe present writeAccess executeAccess entry &&& mask = entry &&& mask := by
  have hset : ∀ flag : Word, flag &&& mask = 0 → ∀ word : Word, (word ||| flag) &&& mask = word &&& mask := by
    intro flag hflag word
    rw [or_and_mask, hflag]
    exact BitVec.or_zero
  have hkept : (entry &&& ~~~(pagePresent ||| pageWritable ||| pageNoExecute)) &&& mask = entry &&& mask := by
    rw [BitVec.and_assoc, hclear]
  unfold protectedEntry
  split_ifs <;> simp only [hset _ hpresent, hset _ hwritable, hset _ hexecute, hkept]

/-- Changing permissions moves no frame. -/
theorem protectUserPage_spec (present writeAccess executeAccess : Bool) (hkernel : KernelHalf s s.loaded)
    (hroot : TableIn s forest 3 s.loaded) (h : Within memmap all s forest held) :
    let s' := (protectUserPage virtAddr present writeAccess executeAccess s).2
    Within memmap all s' forest held ∧ s'.cr3 = s.cr3 ∧ UpperSame s s' forest := by
  rw [protectUserPage]
  cases hwalk : userPageTable virtAddr s with
  | none => exact ⟨h, rfl, fun _ _ _ _ => rfl⟩
  | some found =>
    dsimp only
    split_ifs
    · have hchild : pageFormat.child 0 (protectedEntry s.nxe present writeAccess executeAccess
          (s.mem found (tableIndex 12 virtAddr))) =
          pageFormat.child 0 (s.mem found (tableIndex 12 virtAddr)) := by
        simp only [pageFormat, @protectedEntry_and pageAddressMask (by decide) (by decide) (by decide) (by decide)]
      have hfound := userPageTable_spec hwalk hkernel hroot
      obtain ⟨lost, hall⟩ := h.balanced
      exact ⟨(hall.relabel hfound hchild).1.within, rfl, h.store_upper hfound (mem_slots (by decide))⟩
    · exact ⟨h, rfl, fun _ _ _ _ => rfl⟩

/-- Unmapping a page moves it to the free list. -/
theorem unmapUserPage_spec (hkernel : KernelHalf s s.loaded) (hroot : TableIn s forest 3 s.loaded)
    (h : Within memmap all s forest held) :
    let s' := (unmapUserPage virtAddr s).2
    Within memmap all s' forest held ∧ s'.cr3 = s.cr3 ∧ UpperSame s s' forest := by
  rw [unmapUserPage]
  cases hwalk : userPageTable virtAddr s with
  | none => exact ⟨h, rfl, fun _ _ _ _ => rfl⟩
  | some found =>
    dsimp only
    split_ifs with hpage
    · have haddr : s.mem found (tableIndex 12 virtAddr) &&& pageAddressMask ≠ 0 := by
        simp only [isUserPage, decide_eq_true_eq] at hpage
        exact hpage.2
      have hfound := userPageTable_spec hwalk hkernel hroot
      have hzero : Within memmap all s ((0, 0) ::ₘ forest) held := h.regroup (by
        rw [forestFrames_cons, frames_of_empty (child_zero (by decide)), zero_add])
      obtain ⟨lost, hempty⟩ := hzero.balanced
      obtain ⟨htaken, -⟩ := hempty.exchange hfound (mem_slots (by decide))
      obtain ⟨hfreed, hkeeps⟩ := (htaken.openLeaf (child_leaf haddr)).free
      exact ⟨hfreed.within, hkeeps.cr3, (h.store_upper hfound (mem_slots (by decide))).trans hkeeps.upper⟩
    · exact ⟨h, rfl, fun _ _ _ _ => rfl⟩

end Windoge.Paging
