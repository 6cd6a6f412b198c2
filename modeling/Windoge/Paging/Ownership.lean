import Windoge.Lib.FreeList
import Windoge.Paging.Entry

/-!
# Accounting for frames

Every frame the memory manager ever touches belongs to a fixed duplicate-free collection.
`Within` says that what page tables reach, what the free list holds, what the memory map
has not yet handed out and what callers hold fit into that collection together. A frame
can therefore be in only one of these places. `Balanced` says that they make the collection
up, so that no frame has been lost either. The rules below say how each primitive step of
the memory manager moves frames between the places; all later proofs use the rules and not
the definitions.
-/

namespace Windoge.Paging

open FrameTree FreeList Multiset Linked

/-- A duplicate-free collection of proper frame addresses. -/
structure FrameSet where
  frames : Multiset Word
  nodup : frames.Nodup
  isFrame : ∀ frame ∈ frames, IsFrame frame

/-- Page-table entries together with the heights at which they are read. -/
abbrev Forest := Multiset (ℕ × Word)

/-- The whole frames of a memory-map entry from an offset on. -/
def usableFrames (entry : MemmapEntry) (offset : ℕ) : List Word :=
  if entry.type ≠ limineMemmapUsable then []
  else (List.range ((entry.length - offset) / 4096)).map fun k =>
    .ofNat 64 (entry.base + (offset + 4096 * k))

/-- The frames a scan of these entries can still hand out. -/
def unallocated : List MemmapEntry → ℕ → List Word
  | [], _ => []
  | entry :: rest, offset => usableFrames entry offset ++ unallocated rest 0

/-- The frames that the memory map has not handed out yet. -/
def Mmu.unallocated (memmap : List MemmapEntry) (s : Mmu) : List Word :=
  Paging.unallocated (memmap.drop s.allocIndex) s.allocOffset

/-- The frames of the free list, in order. -/
def Mmu.FreeFrames (s : Mmu) (free : List Word) : Prop :=
  Linked (fun frame => s.mem frame 0) 0 s.freePageHead free

/-- Page tables, free list, unused memory and held frames fit into the collection together. -/
def Within (memmap : List MemmapEntry) (all : FrameSet) (s : Mmu) (forest : Forest)
    (held : Multiset Word) : Prop :=
  ∃ free, s.FreeFrames free ∧
    forestFrames pageFormat s.mem forest + held + ↑free + ↑(s.unallocated memmap) ≤ all.frames

/-- Page tables, free list, unused memory and held frames make up the collection. -/
def Balanced (memmap : List MemmapEntry) (all : FrameSet) (s : Mmu) (forest : Forest)
    (held : Multiset Word) : Prop :=
  ∃ free, s.FreeFrames free ∧
    forestFrames pageFormat s.mem forest + held + ↑free + ↑(s.unallocated memmap) = all.frames

/-- A step left these page tables, these frames and the registers alone. -/
structure Keeps (s s' : Mmu) (forest : Forest) (held : Multiset Word) : Prop where
  mem : ∀ frame ∈ forestFrames pageFormat s.mem forest + held, s'.mem frame = s.mem frame
  cr3 : s'.cr3 = s.cr3
  nxe : s'.nxe = s.nxe
  outOfRam : s'.outOfRam = s.outOfRam

variable {memmap : List MemmapEntry} {all : FrameSet} {s s' s'' : Mmu} {forest forest' : Forest}
  {held held' lost : Multiset Word} {frame : Word}

/-- Frames that are lost may be left out. -/
theorem Balanced.within (h : Balanced memmap all s forest (held + lost)) : Within memmap all s forest held := by
  obtain ⟨free, hfree, hall⟩ := h
  refine ⟨free, hfree, hall ▸ ?_⟩
  gcongr
  exact le_add_right _ _

/-- What is left out is lost. -/
theorem Within.balanced (h : Within memmap all s forest held) :
    ∃ lost, Balanced memmap all s forest (held + lost) := by
  obtain ⟨free, hfree, hall⟩ := h
  obtain ⟨lost, hlost⟩ := Multiset.le_iff_exists_add.mp hall
  refine ⟨lost, free, hfree, ?_⟩
  rw [hlost]
  abel

/-- The frames of the trees stay the same. -/
theorem Keeps.forestFrames_eq (h : Keeps s s' forest held) :
    forestFrames pageFormat s'.mem forest = forestFrames pageFormat s.mem forest :=
  forestFrames_congr fun q hq => h.mem q (mem_add.mpr (.inl hq))

/-- Nothing happened. -/
theorem Keeps.refl : Keeps s s forest held := ⟨fun _ _ => rfl, rfl, rfl, rfl⟩

/-- Two steps in a row. -/
theorem Keeps.trans (h : Keeps s s' forest held) (h' : Keeps s' s'' forest held) :
    Keeps s s'' forest held where
  mem q hq := by
    rw [← h.mem q hq]
    apply h'.mem
    rwa [h.forestFrames_eq]
  cr3 := h'.cr3.trans h.cr3
  nxe := h'.nxe.trans h.nxe
  outOfRam := h'.outOfRam.trans h.outOfRam

/-- Fewer trees and held frames are kept too. -/
theorem Keeps.mono (h : Keeps s s' forest held) (hsub : ∀ frame ∈ forestFrames pageFormat s.mem forest' + held',
      frame ∈ forestFrames pageFormat s.mem forest + held) : Keeps s s' forest' held' :=
  ⟨fun q hq => h.mem q (hsub q hq), h.cr3, h.nxe, h.outOfRam⟩

/-- Frames may move between the trees and the held ones. -/
theorem Within.regroup (h : Within memmap all s forest held)
    (hle : forestFrames pageFormat s.mem forest' + held' ≤
      forestFrames pageFormat s.mem forest + held) : Within memmap all s forest' held' := by
  obtain ⟨free, hfree, hall⟩ := h
  exact ⟨free, hfree, le_trans (by gcongr) hall⟩

/-- A tree may be left out. -/
theorem Within.forget {top : ℕ × Word} (h : Within memmap all s (top ::ₘ forest) held) :
    Within memmap all s forest held := by
  apply h.regroup
  rw [forestFrames_cons]
  gcongr
  exact le_add_left _ _

/-- What is owned is a frame. -/
theorem Within.isFrame (h : Within memmap all s forest held)
    (hmem : frame ∈ forestFrames pageFormat s.mem forest + held) : IsFrame frame := by
  obtain ⟨free, -, hall⟩ := h
  apply all.isFrame
  apply mem_of_le hall
  simp only [mem_add]
  exact .inl (.inl (mem_add.mp hmem))

/-- No frame is owned twice. -/
theorem Within.nodup (h : Within memmap all s forest held) :
    (forestFrames pageFormat s.mem forest + held).Nodup := by
  obtain ⟨free, -, hall⟩ := h
  apply nodup_of_le _ all.nodup
  refine le_trans ?_ hall
  rw [add_assoc _ (free : Multiset Word)]
  exact le_add_right _ _

/-- No owned frame is free. -/
theorem Within.free_disjoint {free : List Word} {used : Multiset Word}
    (hall : used + ↑free + ↑(s.unallocated memmap) ≤ all.frames) (hmem : frame ∈ used) :
    frame ∉ free := by
  have hnodup := nodup_of_le hall all.nodup
  rw [nodup_add, nodup_add] at hnodup
  intro hfree
  exact disjoint_left.mp hnodup.1.2.2 hmem (mem_coe.mpr hfree)

/-- The balance depends on the sum of trees and held frames. -/
theorem Balanced.regroup (h : Balanced memmap all s forest held)
    (heq : forestFrames pageFormat s.mem forest' + held' =
      forestFrames pageFormat s.mem forest + held) : Balanced memmap all s forest' held' := by
  obtain ⟨free, hfree, hall⟩ := h
  exact ⟨free, hfree, heq ▸ hall⟩

/-- A balance leaves nothing out. -/
theorem Balanced.fits (h : Balanced memmap all s forest held) : Within memmap all s forest held :=
  Balanced.within (by rwa [add_zero])

/-- What is held is a frame. -/
theorem Balanced.held_isFrame {frame : Word} (h : Balanced memmap all s forest (frame ::ₘ held)) :
    IsFrame frame :=
  h.fits.isFrame (mem_add.mpr (.inr (mem_cons_self _ _)))

/-- Filling a held frame disturbs nothing else. -/
theorem Balanced.fill (h : Balanced memmap all s forest (frame ::ₘ held)) (words : Fin 512 → Word) :
    Balanced memmap all (s.fill frame words) forest (frame ::ₘ held) ∧
      Keeps s (s.fill frame words) forest held := by
  have houtside := h.fits.nodup
  rw [add_cons, nodup_cons] at houtside
  have hkeeps : Keeps s (s.fill frame words) forest held := by
    refine ⟨fun q hq => ?_, rfl, rfl, rfl⟩
    apply Function.update_of_ne
    rintro rfl
    exact houtside.1 hq
  refine ⟨?_, hkeeps⟩
  obtain ⟨free, hfree, hall⟩ := h
  have hnot := Within.free_disjoint hall.le (mem_add.mpr (.inr (mem_cons_self _ _)))
  refine ⟨free, ?_, ?_⟩
  · apply congr hfree
    intro q hq
    have hne : q ≠ frame := fun heq => hnot (heq ▸ hq)
    simp [Mmu.fill, hne]
  · rwa [hkeeps.forestFrames_eq]

/-- Held frames may be left out. -/
theorem Keeps.forgetHeld (h : Keeps s s' forest (held + lost)) : Keeps s s' forest held := by
  apply h.mono
  intro q hq
  rw [← add_assoc]
  exact mem_add.mpr (.inl hq)

/-!
## Changing page tables in place

Storing into a table exchanges entries between the table and the forest of detached
entries. One rule covers a single slot, the whole lower half of a PML4 and the clearing
of some slots; the table itself stays where it was.
-/

open Function Paging.Balanced Mmu

variable {below : ℕ} {table : Word}

/-- The frame is a table in one of the trees of the forest. -/
def TableIn (s : Mmu) (forest : Forest) (below : ℕ) (table : Word) : Prop :=
  ∃ top ∈ forest, Table pageFormat s.mem top.1 top.2 below table

/-- A table stays where it is. -/
theorem TableIn.keep (htable : TableIn s forest below table)
    (h : Keeps s s' forest held) : TableIn s' forest below table := by
  obtain ⟨top, htop, hpath⟩ := htable
  exact ⟨top, htop, hpath.congr fun q hq => h.mem q (mem_add.mpr (.inl (mem_forestFrames htop hq)))⟩

section Replace

variable (give take : Forest) (words : Fin 512 → Word) (htable : TableIn s forest below table)
  (hbalance : forestFrames pageFormat s.mem take +
      ∑ i ∈ pageFormat.slots below, frames pageFormat s.mem below (words i) =
    forestFrames pageFormat s.mem give +
      ∑ i ∈ pageFormat.slots below, frames pageFormat s.mem below (s.mem table i))

include htable hbalance

/-- Filling a table of the forest with other words: the entries given up come into the forest,
those put in leave it, and the table stays where it is. -/
theorem Balanced.replace (h : Balanced memmap all s (give + forest) held) :
    Balanced memmap all (s.fill table words) (take + forest) held ∧
      TableIn (s.fill table words) forest below table := by
  obtain ⟨top, htop, hpath⟩ := htable
  obtain ⟨others, rfl⟩ := exists_cons_of_mem htop
  have hnodup := h.fits.nodup
  rw [forestFrames_add, forestFrames_cons, nodup_add, nodup_add, nodup_add] at hnodup
  obtain ⟨⟨-, ⟨htree, -, hothers⟩, hgive⟩, -, -⟩ := hnodup
  have hin := hpath.mem_frames
  -- the table is reached once only, so neither side of the balance mentions it
  have hright : table ∉ forestFrames pageFormat s.mem give +
      ∑ i ∈ pageFormat.slots below, frames pageFormat s.mem below (s.mem table i) := by
    rw [mem_add]
    rintro (hg | hs)
    · exact disjoint_left.mp hgive hg (mem_add.mpr (.inl hin))
    · exact hpath.not_mem_slots htree hs
  rw [← hbalance, mem_add, not_or] at hright
  have hexchange := hpath.frames_update htree hright.2
  refine ⟨?_, top, mem_cons_self _ _, hpath.update htree words⟩
  have houtside : table ∉ forestFrames pageFormat s.mem others := fun ho => disjoint_left.mp hothers hin ho
  have hframes : forestFrames pageFormat (s.fill table words).mem (take + top ::ₘ others) =
      forestFrames pageFormat s.mem (give + top ::ₘ others) := by
    rw [forestFrames_add, forestFrames_add, forestFrames_cons, forestFrames_cons]
    change forestFrames pageFormat (update s.mem table words) take +
      (frames pageFormat (update s.mem table words) top.1 top.2 +
        forestFrames pageFormat (update s.mem table words) others) = _
    rw [forestFrames_update_of_not_mem hright.1, forestFrames_update_of_not_mem houtside,
      ← add_assoc, ← add_assoc]
    congr 1
    apply add_right_cancel (b := ∑ i ∈ pageFormat.slots below, frames pageFormat s.mem below (s.mem table i))
    rw [add_assoc, hexchange, add_left_comm, hbalance]
    abel
  obtain ⟨free, hfree, hall⟩ := h
  have hnot : table ∉ free := by
    apply Within.free_disjoint hall.le
    rw [forestFrames_add, forestFrames_cons]
    simp only [mem_add]
    exact .inl (.inr (.inl hin))
  refine ⟨free, ?_, ?_⟩
  · apply congr hfree
    intro q hq
    have hne : q ≠ table := fun heq => hnot (heq ▸ hq)
    simp [Mmu.fill, hne]
  · rwa [hframes]

end Replace

section Store

variable {entry : Word} {i : Fin 512} (htable : TableIn s forest below table)

include htable

/-- Storing into one slot of a table puts the new entry in and takes the old one out. -/
theorem Balanced.exchange (hslot : i ∈ pageFormat.slots below)
    (h : Balanced memmap all s ((below, entry) ::ₘ forest) held) :
    Balanced memmap all (s.store table i entry) ((below, s.mem table i) ::ₘ forest) held ∧
      TableIn (s.store table i entry) forest below table := by
  have hothers : ∀ j ∈ pageFormat.slots below, j ≠ i →
      frames pageFormat s.mem below (update (s.mem table) i entry j) =
        frames pageFormat s.mem below (s.mem table j) := by
    intro j _ hne
    rw [update_of_ne hne]
  have hsum := sum_exchange hslot hothers
  rw [update_self] at hsum
  rw [← singleton_add] at h ⊢
  apply replace _ _ _ htable _ h
  simp only [forestFrames, map_singleton, sum_singleton]
  rw [add_comm, hsum, add_comm]

/-- Storing an entry that names the same frame as the old one moves nothing. -/
theorem Balanced.relabel (hchild : pageFormat.child below entry = pageFormat.child below (s.mem table i))
    (h : Balanced memmap all s forest held) :
    Balanced memmap all (s.store table i entry) forest held ∧
      TableIn (s.store table i entry) forest below table := by
  have hslots : ∑ j ∈ pageFormat.slots below, frames pageFormat s.mem below (update (s.mem table) i entry j) =
      ∑ j ∈ pageFormat.slots below, frames pageFormat s.mem below (s.mem table j) := by
    apply Finset.sum_congr rfl
    intro j _
    by_cases hj : j = i
    · subst hj
      rw [update_self]
      exact frames_eq_of_child hchild
    · rw [update_of_ne hj]
  rw [← zero_add forest] at h
  have hdone := replace 0 0 _ htable (congrArg _ hslots) h
  rwa [zero_add] at hdone

end Store

/-- The table an entry leads to. -/
theorem TableIn.descend {i : Fin 512} {next : Word} (htable : TableIn s forest (below + 1) table)
    (hslot : i ∈ pageFormat.slots (below + 1))
    (hchild : pageFormat.child (below + 1) (s.mem table i) = some next) :
    TableIn s forest below next := by
  obtain ⟨top, htop, hpath⟩ := htable
  exact ⟨top, htop, hpath.descend hslot hchild⟩

/-- The top of a tree. -/
theorem TableIn.pml4 (h : (4, table) ∈ forest) : TableIn s forest 3 table :=
  ⟨(4, table), h, .root (child_cr3 table)⟩

/-- A step left the kernel half of every PML4 of the forest alone. -/
def UpperSame (s s' : Mmu) (forest : Forest) : Prop :=
  ∀ pml4, (4, pml4) ∈ forest → ∀ i : Fin 512, 256 ≤ i.val → s'.mem pml4 i = s.mem pml4 i

/-- Two steps in a row. -/
theorem UpperSame.trans {s'' : Mmu} (h : UpperSame s s' forest) (h' : UpperSame s' s'' forest) :
    UpperSame s s'' forest :=
  fun pml4 hin i hi => (h' pml4 hin i hi).trans (h pml4 hin i hi)

/-- An address space is its PML4 and what hangs below the lower half. -/
theorem frames_pml4 (mem : Word → Fin 512 → Word) (pml4 : Word) :
    frames pageFormat mem 4 pml4 = pml4 ::ₘ ∑ i ∈ lowerHalf, frames pageFormat mem 3 (mem pml4 i) :=
  @frames_table _ _ _ pageFormat mem 3 pml4 pml4 (child_cr3 pml4)

/-- A PML4 is a frame of its tree. -/
theorem pml4_mem_forestFrames {mem : Word → Fin 512 → Word} {pml4 : Word}
    (h : (4, pml4) ∈ forest) : pml4 ∈ forestFrames pageFormat mem forest := by
  have hself : pml4 ∈ frames pageFormat mem 4 pml4 := by
    rw [frames_pml4]
    exact mem_cons_self _ _
  exact mem_forestFrames h hself

/-- The upper halves stay the same. -/
theorem Keeps.upper (h : Keeps s s' forest held) : UpperSame s s' forest := by
  intro pml4 hin i _
  rw [h.mem pml4 (mem_add.mpr (.inl (pml4_mem_forestFrames hin)))]

/-- In an accounted forest a table below the PML4 level is no PML4. -/
theorem TableIn.ne_pml4 {pml4 : Word} (htable : TableIn s forest below table) (hbelow : below ≠ 3)
    (h : Within memmap all s forest held) (hin : (4, pml4) ∈ forest) : pml4 ≠ table := by
  rintro rfl
  obtain ⟨top, htop, hpath⟩ := htable
  have hnodup := (nodup_add.mp h.nodup).1
  obtain ⟨others, rfl⟩ := exists_cons_of_mem hin
  rw [forestFrames_cons, nodup_add] at hnodup
  obtain ⟨hroot, -, hdisjoint⟩ := hnodup
  have hself : pml4 ∈ frames pageFormat s.mem 4 pml4 := by
    rw [frames_pml4]
    exact mem_cons_self _ _
  rcases mem_cons.mp htop with rfl | hother
  · -- the table hangs below the PML4 itself
    rw [frames_pml4, nodup_cons] at hroot
    generalize hentry : pml4 = entry at hpath hroot
    cases hpath with
    | root hchild => exact hbelow rfl
    | inner hchild hslot hrest =>
      cases (child_cr3 entry).symm.trans hchild
      exact hroot.1 (mem_sum.mpr ⟨_, hslot, hentry ▸ hrest.mem_frames⟩)
  · -- another tree of the forest reaches the PML4
    obtain ⟨rest, rfl⟩ := exists_cons_of_mem hother
    apply disjoint_left.mp hdisjoint hself
    rw [forestFrames_cons]
    exact mem_add.mpr (.inl hpath.mem_frames)

/-- Storing into a slot that belongs to the forest leaves the kernel halves alone. -/
theorem Within.store_upper {entry : Word} {i : Fin 512} (htable : TableIn s forest below table)
    (hslot : i ∈ pageFormat.slots below) (h : Within memmap all s forest held) :
    UpperSame s (s.store table i entry) forest := by
  intro pml4 hin j hj
  by_cases hsame : pml4 = table
  · obtain rfl := hsame
    have hthree : below = 3 := by
      by_contra hbelow
      exact htable.ne_pml4 hbelow h hin rfl
    subst hthree
    have hne : j ≠ i := by
      rintro rfl
      exact absurd (mem_lowerHalf.mp hslot) (not_lt.mpr hj)
    simp [store, hne]
  · simp [store, hsame]

/-- Filling a lower half keeps the upper one. -/
theorem fill_upper {words : Fin 512 → Word} (hwords : ∀ i : Fin 512, 256 ≤ i.val → words i = s.mem table i) :
    UpperSame s (s.fill table words) forest := by
  intro pml4 _ i hi
  by_cases hsame : pml4 = table
  · subst hsame
    simp [Mmu.fill, hwords i hi]
  · simp [Mmu.fill, hsame]

end Windoge.Paging
