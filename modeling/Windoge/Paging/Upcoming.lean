import Windoge.Paging.Bytes

/-!
# The frames the allocator hands out next

The free list from its head on, and behind it the frames of the memory map that were never
handed out. The allocator takes the first of them; a state with enough of them does not
run out. This is how the order of earlier frees decides which frames a program gets.
-/

namespace Windoge.Paging

open FrameTree FreeList List Multiset Mmu BitVec

/-- The frames that will be handed out, in order. -/
def Mmu.Upcoming (memmap : List MemmapEntry) (s : Mmu) (frames : List Word) : Prop :=
  ∃ free, s.FreeFrames free ∧ frames = free ++ s.unallocated memmap

variable {memmap : List MemmapEntry} {all : FrameSet} {s s' : Mmu} {forest : Forest}
  {held : Multiset Word} {frame root table : Word} {queue rest : List Word}

theorem Mmu.Upcoming.balanced (hup : s.Upcoming memmap queue)
    (hall : forestFrames pageFormat s.mem forest + held + ↑queue = all.frames) :
    Balanced memmap all s forest held := by
  obtain ⟨free, hfree, rfl⟩ := hup
  refine ⟨free, hfree, ?_⟩
  rw [← hall, ← coe_add, add_assoc _ (free : Multiset Word)]

section Balanced

variable (h : Balanced memmap all s forest held)

include h

theorem Balanced.upcoming (hup : s.Upcoming memmap queue) :
    forestFrames pageFormat s.mem forest + held + ↑queue = all.frames := by
  obtain ⟨free, hfree, hall⟩ := h
  obtain ⟨free', hfree', rfl⟩ := hup
  obtain rfl := hfree.unique hfree'
  rw [← hall, ← coe_add, add_assoc, add_assoc, add_assoc]

theorem Balanced.exists_upcoming : ∃ queue, s.Upcoming memmap queue := by
  obtain ⟨free, hfree, -⟩ := h
  exact ⟨_, free, hfree, rfl⟩

theorem Balanced.mem_all (hused : frame ∈ forestFrames pageFormat s.mem forest + held) : frame ∈ all.frames := by
  obtain ⟨queue, hup⟩ := h.exists_upcoming
  rw [← h.upcoming hup]
  exact mem_add.mpr (.inl hused)

theorem Balanced.not_upcoming (hup : s.Upcoming memmap queue)
    (hused : frame ∈ forestFrames pageFormat s.mem forest + held) : frame ∉ queue := by
  have hnodup := all.nodup
  rw [← h.upcoming hup, nodup_add] at hnodup
  intro hin
  exact disjoint_left.mp hnodup.2.2 hused (mem_coe.mpr hin)

theorem Balanced.upcoming_nodup (hup : s.Upcoming memmap queue) : queue.Nodup := by
  have hnodup := all.nodup
  rw [← h.upcoming hup, nodup_add] at hnodup
  exact hnodup.2.1

end Balanced

theorem Mmu.Upcoming.fill (hup : s.Upcoming memmap queue) (hnot : frame ∉ queue)
    (words : Fin 512 → Word) : (s.fill frame words).Upcoming memmap queue := by
  obtain ⟨free, hfree, rfl⟩ := hup
  refine ⟨free, Linked.congr hfree fun q hq => ?_, rfl⟩
  have hne : q ≠ frame := by
    rintro rfl
    exact hnot (mem_append_left _ hq)
  simp [fill, hne]

theorem Mmu.Upcoming.store (hup : s.Upcoming memmap queue) (hnot : frame ∉ queue)
    (i : Fin 512) (value : Word) : (s.store frame i value).Upcoming memmap queue :=
  hup.fill hnot _

/-- The allocator hands out the first upcoming frame. -/
theorem Balanced.alloc_upcoming (h : Balanced memmap all s forest held) (hram : s.outOfRam = false)
    (hup : s.Upcoming memmap (frame :: rest)) :
    ∃ s', pmmAllocZeroedPage memmap s = (frame, s') ∧ s'.outOfRam = false ∧ s'.Upcoming memmap rest := by
  have hnodup := h.upcoming_nodup hup
  obtain ⟨free, hfree, hframes⟩ := hup
  cases free with
  | nil =>
    have hhead := hfree
    rw [nil_append] at hframes
    obtain ⟨index, offset, ⟨hnone, -⟩ | ⟨taken, hunallocated, hscan⟩⟩ := scanMemmap_cases (s := s) rfl
    · rw [← hframes] at hnone
      cases hnone
    rw [← hframes] at hunallocated
    obtain ⟨rfl, hrest⟩ := cons.inj hunallocated
    have hcall : pmmAllocZeroedPage memmap s = _ := if_neg (not_not.mpr hhead)
    refine ⟨_, hcall.trans (hscan s.outOfRam), hram, ?_⟩
    have hnext : ({ s with allocIndex := index, allocOffset := offset } : Mmu).Upcoming memmap rest :=
      ⟨[], hhead, hrest⟩
    exact hnext.fill (nodup_cons.mp hnodup).1 _
  | cons first free =>
    cases hframes
    obtain ⟨hhead, hnull, hlinked⟩ := hfree
    have hnext : ({ s with freePageHead := s.mem frame 0 } : Mmu).Upcoming memmap
        (free ++ s.unallocated memmap) := ⟨free, hlinked, rfl⟩
    refine ⟨{ s.fill frame fun _ => 0 with freePageHead := s.mem frame 0 }, ?_, hram,
      hnext.fill (nodup_cons.mp hnodup).1 _⟩
    rw [pmmAllocZeroedPage, if_pos (hhead ▸ hnull), hhead]

namespace Spaces

section Table

variable {below : ℕ} {way : List (Fin 512)} {i : Fin 512} (h : Spaces memmap all s forest held)
  (hroot : (4, root) ∈ forest) (hheight : way.length + (below + 1) + 1 = 4)
  (hway : follow pageFormat s.mem 4 root way = some table)

include h hroot hheight hway

/-- The table behind a slot that is present is found and nothing changes. -/
theorem getOrAllocTable_present (hslot : i ∈ pageFormat.slots (below + 1))
    (hpresent : s.mem table i &&& pagePresent ≠ 0) :
    Paging.getOrAllocTable memmap table i s = (s.mem table i &&& ~~~pageOffsetMask, s) := by
  have hword := ((h.space_marked hroot).word (table_of_follow hheight hway) hslot).self
  rw [entryMarked_table (Nat.succ_pos below) (by omega)] at hword
  rw [Paging.getOrAllocTable, if_neg hpresent, hword hpresent, store_self]

omit hheight in
/-- The table behind a slot that is absent is the first upcoming frame, zero filled. -/
theorem getOrAllocTable_absent (hram : s.outOfRam = false)
    (habsent : s.mem table i &&& pagePresent = 0) (hup : s.Upcoming memmap (frame :: rest)) :
    ∃ s', Paging.getOrAllocTable memmap table i s = (frame, s') ∧ s'.outOfRam = false ∧
      s'.Upcoming memmap rest ∧ s'.mem frame = fun _ => 0 := by
  obtain ⟨t, halloc, hramt, hupt⟩ := h.balanced.alloc_upcoming hram hup
  obtain ⟨htaken, -, hzero⟩ := pmmAllocZeroedPage_balanced halloc hramt h.balanced
  have hused := mem_forestFrames hroot (follow_mem_frames hway)
  have hne : frame ≠ table := by
    rintro rfl
    exact h.balanced.not_upcoming hup (mem_add.mpr (.inl hused)) mem_cons_self
  have hnot : table ∉ rest := fun hin =>
    h.balanced.not_upcoming hup (mem_add.mpr (.inl hused)) (mem_cons_of_mem _ hin)
  have hframe := htaken.held_isFrame
  refine ⟨t.store table i (frame ||| pageUserFlags), ?_, hramt, hupt.store hnot _ _, ?_⟩
  · rw [Paging.getOrAllocTable, if_pos habsent, halloc]
    simp only [store, Function.update_self, userFlags_table, hframe.aligned]
  · simp [store, hne, hzero]

/-- Finding or allocating a table takes at most one frame, and one if the slot is absent. -/
theorem getOrAllocTable_takes (hslot : i ∈ pageFormat.slots (below + 1)) (hram : s.outOfRam = false)
    (hup : s.Upcoming memmap queue) (hroom : 1 ≤ queue.length) :
    ∃ next s' k, Paging.getOrAllocTable memmap table i s = (next, s') ∧ s'.outOfRam = false ∧
      k ≤ 1 ∧ s'.Upcoming memmap (queue.drop k) ∧
      (s.mem table i &&& pagePresent = 0 → k = 1 ∧ s'.mem next = fun _ => 0) := by
  by_cases habsent : s.mem table i &&& pagePresent = 0
  · obtain ⟨first, others, rfl⟩ := exists_cons_of_length_pos hroom
    obtain ⟨s', hcall, hram', hup', hzero⟩ := h.getOrAllocTable_absent hroot hway hram habsent hup
    exact ⟨first, s', 1, hcall, hram', le_rfl, hup', fun _ => ⟨rfl, hzero⟩⟩
  · exact ⟨_, s, 0, h.getOrAllocTable_present hroot hheight hway hslot habsent, hram, Nat.zero_le 1,
      hup, fun hzero => absurd hzero habsent⟩

end Table

section Map

variable {virtAddr : Word} (h : Spaces memmap all s forest held) (hroot : (4, s.loaded) ∈ forest)
  (hvirt : virtAddr < 0x800000000000) (hram : s.outOfRam = false)
  (hup : s.Upcoming memmap queue)

include h hroot hvirt hram hup

/-- Mapping a page takes at most three frames for tables, and three if no table is there yet. -/
theorem mapUserPage_takes (frame : Word) (hroom : 3 ≤ queue.length) :
    ∃ k ≤ 3, (Paging.mapUserPage memmap virtAddr frame s).outOfRam = false ∧
      (Paging.mapUserPage memmap virtAddr frame s).Upcoming memmap (queue.drop k) ∧
      (s.mem s.loaded (tableIndex 39 virtAddr) &&& pagePresent = 0 → k = 3) := by
  have hlower : tableIndex 39 virtAddr ∈ pageFormat.slots (2 + 1) := tableIndex_lower hvirt
  have hway₀ : follow pageFormat s.mem 4 s.loaded [] = some s.loaded := follow_nil.trans (child_cr3 s.loaded)
  obtain ⟨pdpt, s₁, k₁, hpdpt, hram₁, hk₁, hup₁, hnew₁⟩ :=
    h.getOrAllocTable_takes hroot rfl hway₀ hlower hram hup (by omega)
  obtain ⟨hs₁, -, hway₁⟩ := h.getOrAllocTable hroot rfl hway₀ hlower hpdpt hram₁
  obtain ⟨pd, s₂, k₂, hpd, hram₂, hk₂, hup₂, hnew₂⟩ := hs₁.getOrAllocTable_takes hroot rfl hway₁
    (mem_slots (by decide) : tableIndex 30 virtAddr ∈ pageFormat.slots (1 + 1)) hram₁ hup₁
    (by rw [length_drop]; omega)
  obtain ⟨hs₂, -, hway₂⟩ := hs₁.getOrAllocTable hroot rfl hway₁
    (mem_slots (by decide) : _ ∈ pageFormat.slots (1 + 1)) hpd hram₂
  obtain ⟨pt, s₃, k₃, hpt, hram₃, hk₃, hup₃, hnew₃⟩ := hs₂.getOrAllocTable_takes hroot rfl hway₂
    (mem_slots (by decide) : tableIndex 21 virtAddr ∈ pageFormat.slots (0 + 1)) hram₂ hup₂
    (by rw [length_drop, length_drop]; omega)
  obtain ⟨hs₃, -, hway₃⟩ := hs₂.getOrAllocTable hroot rfl hway₂
    (mem_slots (by decide) : _ ∈ pageFormat.slots (0 + 1)) hpt hram₃
  have hresult : Paging.mapUserPage memmap virtAddr frame s =
      s₃.store pt (tableIndex 12 virtAddr) ((frame &&& ~~~pageOffsetMask) ||| pageUserFlags) := by
    simp only [Paging.mapUserPage, hpdpt, hpd, hpt]
  have hused := mem_forestFrames hroot (follow_mem_frames hway₃)
  rw [drop_drop, drop_drop] at hup₃
  rw [hresult]
  refine ⟨k₁ + (k₂ + k₃), by omega, hram₃,
    hup₃.store (hs₃.balanced.not_upcoming hup₃ (mem_add.mpr (.inl hused))) _ _,
    fun habsent => ?_⟩
  -- a new table is empty, so that the next one is new as well
  obtain ⟨rfl, hzero₁⟩ := hnew₁ habsent
  obtain ⟨rfl, hzero₂⟩ := hnew₂ (by rw [hzero₁]; exact zero_and)
  obtain ⟨rfl, -⟩ := hnew₃ (by rw [hzero₂]; exact zero_and)
  rfl

end Map

end Spaces

/-!
## When the allocator runs out

`pmm_alloc_zeroed_page` answers the last request with frame 0, after it has torn down the
address space that is loaded. Its callers do not stop there: they go on with what the
teardown has freed. The report that memory ran out stays up from then on; apart from it
the machine behaves as before.
-/

/-- The same machine with the given report. -/
def Mmu.reported (s : Mmu) (report : Bool) : Mmu := { s with outOfRam := report }

variable {virtAddr : Word} {i : Fin 512} {report : Bool} {others : Forest}

/-- An allocation that does not run out does not depend on the report. -/
theorem pmmAllocZeroedPage_reported (hram : (pmmAllocZeroedPage memmap s).2.outOfRam = false) :
    pmmAllocZeroedPage memmap (s.reported report) =
      ((pmmAllocZeroedPage memmap s).1, (pmmAllocZeroedPage memmap s).2.reported report) := by
  unfold pmmAllocZeroedPage at hram ⊢
  by_cases hhead : s.freePageHead = 0
  · have hhead' : (s.reported report).freePageHead = 0 := hhead
    rw [if_neg (not_not.mpr hhead)] at hram
    rw [if_neg (not_not.mpr hhead), if_neg (not_not.mpr hhead')]
    obtain ⟨index, offset, ⟨-, -, hscan⟩ | ⟨frame, -, hscan⟩⟩ := scanMemmap_cases (s := s) rfl
    · rw [hscan s.outOfRam, cleanupUserPages_outOfRam] at hram
      cases hram
    · exact (hscan report).trans (congrArg (fun result : Word × Mmu => (result.1, result.2.reported report))
        (hscan s.outOfRam)).symm
  · have hhead' : (s.reported report).freePageHead ≠ 0 := hhead
    rw [if_pos hhead, if_pos hhead']
    rfl

/-- Finding or making a table without running out does not depend on the report. -/
theorem getOrAllocTable_reported (hram : (getOrAllocTable memmap table i s).2.outOfRam = false) :
    getOrAllocTable memmap table i (s.reported report) =
      ((getOrAllocTable memmap table i s).1, (getOrAllocTable memmap table i s).2.reported report) := by
  unfold getOrAllocTable at hram ⊢
  by_cases habsent : s.mem table i &&& pagePresent = 0
  · have habsent' : (s.reported report).mem table i &&& pagePresent = 0 := habsent
    rw [if_pos habsent] at hram
    rw [if_pos habsent, if_pos habsent', pmmAllocZeroedPage_reported hram]
    rfl
  · have habsent' : (s.reported report).mem table i &&& pagePresent ≠ 0 := habsent
    rw [if_neg habsent, if_neg habsent']
    rfl

/-- Mapping a page without running out does not depend on the report. -/
theorem mapUserPage_reported {frame : Word} (hram : (mapUserPage memmap virtAddr frame s).outOfRam = false) :
    mapUserPage memmap virtAddr frame (s.reported report) =
      (mapUserPage memmap virtAddr frame s).reported report := by
  obtain ⟨pdpt, s₁, pd, s₂, pt, s₃, hpdpt, hram₁, hpd, hram₂, hpt, hram₃, hresult⟩ := mapUserPage_steps hram
  have hfirst : getOrAllocTable memmap (s.reported report).loaded (tableIndex 39 virtAddr)
      (s.reported report) = (pdpt, s₁.reported report) := by
    have hsame := @getOrAllocTable_reported memmap s s.loaded (tableIndex 39 virtAddr) report (by rwa [hpdpt])
    rwa [hpdpt] at hsame
  have hsecond : getOrAllocTable memmap pdpt (tableIndex 30 virtAddr) (s₁.reported report) =
      (pd, s₂.reported report) := by
    rw [getOrAllocTable_reported (by rwa [hpd]), hpd]
  have hthird : getOrAllocTable memmap pd (tableIndex 21 virtAddr) (s₂.reported report) =
      (pt, s₃.reported report) := by
    rw [getOrAllocTable_reported (by rwa [hpt]), hpt]
  rw [hresult]
  simp only [mapUserPage, hfirst, hsecond, hthird]
  rfl

namespace Spaces

theorem reported (h : Spaces memmap all s forest held) (report : Bool) :
    Spaces memmap all (s.reported report) forest held :=
  ⟨h.balanced, h.marked, h.kernel⟩

/-- Without frames left the allocator returns 0; it reports that memory ran out, and the loaded
address space has lost all its pages. -/
theorem alloc_exhausted (h : Spaces memmap all s ((4, s.loaded) ::ₘ others) held) (hup : s.Upcoming memmap []) :
    ∃ s', Paging.pmmAllocZeroedPage memmap s = (0, s') ∧ s'.outOfRam = true ∧ s'.loaded = s.loaded ∧
      Spaces memmap all s' ((4, s.loaded) ::ₘ others) held ∧
      frames pageFormat s'.mem 4 s.loaded = {s.loaded} ∧
      ∀ virtAddr < 0x800000000000, userMapping s' s.loaded virtAddr = none := by
  obtain ⟨free, hfree, hnil⟩ := hup
  obtain ⟨rfl, hnone⟩ := List.append_eq_nil_iff.mp hnil.symm
  have hhead := hfree
  obtain ⟨index, offset, ⟨-, hnone', hscan⟩ | ⟨frame, hsome, -⟩⟩ := scanMemmap_cases (s := s) rfl
  rotate_left
  · rw [hnone] at hsome
    cases hsome
  have hmoved : Spaces memmap all { s with allocIndex := index, allocOffset := offset, outOfRam := true }
      ((4, s.loaded) ::ₘ others) held := by
    refine ⟨?_, h.marked, h.kernel⟩
    have hup : ({ s with allocIndex := index, allocOffset := offset, outOfRam := true } :
        Mmu).Upcoming memmap [] := ⟨[], hfree, by rw [List.nil_append]; exact hnone'.symm⟩
    exact hup.balanced (h.balanced.upcoming ⟨[], hfree, by rw [hnone]; rfl⟩)
  obtain ⟨hdone, -, hframes, hgone⟩ := hmoved.cleanupUserPages
  have hregisters := registers_eq_iff.mp (cleanupUserPages_registers
    { s with allocIndex := index, allocOffset := offset, outOfRam := true })
  refine ⟨_, ?_, hregisters.2.2.2.2, loaded_congr hregisters.2.2.1, hdone, hframes, hgone⟩
  exact (if_neg (not_not.mpr hhead)).trans (hscan s.outOfRam)

end Spaces

/-- The number of frames on the free list and of frames that were never handed out. -/
def Mmu.Available (memmap : List MemmapEntry) (s : Mmu) (count : ℕ) : Prop :=
  ∃ queue, s.Upcoming memmap queue ∧ queue.length = count

theorem Mmu.Available.unique {count count' : ℕ} (h : s.Available memmap count)
    (h' : s.Available memmap count') : count = count' := by
  obtain ⟨queue, ⟨free, hfree, rfl⟩, rfl⟩ := h
  obtain ⟨queue', ⟨free', hfree', rfl⟩, rfl⟩ := h'
  rw [hfree.unique hfree']

end Windoge.Paging
