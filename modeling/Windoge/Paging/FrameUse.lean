import Windoge.Paging.AddressSpaces

/-!
# Each frame has one use

From a boot state, over every sequence of requests in which memory does not run out, a
frame is on the free list once, or is one table or one page of one address space. The one
request that breaks this is destroying the address space that CR3 still points to: its
PML4 goes to the free list while the processor keeps translating through it, and the next
allocation hands it out and clears it. The scheduler does this when a task exits.
-/

namespace Windoge.Paging

open FrameTree FreeList List Multiset Option World

/-- Usable ranges are page aligned, apart, within the physical address field, and do not
contain frame 0. -/
structure MemmapOk (memmap : List MemmapEntry) : Prop where
  aligned : ∀ e ∈ memmap, e.type = limineMemmapUsable → e.base % 4096 = 0 ∧ e.length % 4096 = 0
  physical : ∀ e ∈ memmap, e.type = limineMemmapUsable → e.base + e.length ≤ 2 ^ 52
  nonzero : ∀ e ∈ memmap, e.type = limineMemmapUsable → 0 < e.length → 0 < e.base
  disjoint : memmap.Pairwise fun a b => a.type = limineMemmapUsable →
    b.type = limineMemmapUsable → a.base + a.length ≤ b.base ∨ b.base + b.length ≤ a.base

/-- The machine as the bootloader hands it over: nothing allocated, and CR3 points to a PML4
outside usable memory whose lower half is empty and whose upper half is the kernel's. -/
structure BootState (memmap : List MemmapEntry) (s : Mmu) : Prop where
  head : s.freePageHead = 0
  index : s.allocIndex = 0
  offset : s.allocOffset = 0
  ram : s.outOfRam = false
  pml4 : IsFrame s.loaded
  outside : s.loaded ∉ unallocated memmap 0
  lower : ∀ i : Fin 512, i.val < 256 → s.mem s.loaded i = 0
  kernel : KernelHalf s s.loaded

/-- The world at boot: one live address space and nothing held or suspended. -/
def World.boot (s : Mmu) : World := ⟨s, [], [s.loaded], []⟩

/-- The address spaces in use: those created and not destroyed, and the loaded one. -/
def World.spaces (w : World) : List Word :=
  if w.mmu.loaded ∈ w.live then w.live else w.mmu.loaded :: w.live

/-- The tables and pages of the lower halves of all live and suspended address spaces. -/
def World.mapped (w : World) : Multiset Word :=
  forestFrames pageFormat w.mmu.mem (w.forest w.spaces)

/-- A frame occurs at most once among the free list, the tables and the pages. -/
def World.FramesOnce (w : World) : Prop :=
  ∃ free, w.mmu.FreeFrames free ∧ (↑free + w.mapped).Nodup

/-- A frame the allocator hands out is not on the free list, no table and no page. -/
def World.AllocFresh (memmap : List MemmapEntry) (w : World) : Prop :=
  ∀ frame s, pmmAllocZeroedPage memmap w.mmu = (frame, s) → s.outOfRam = false →
    ∃ free, s.FreeFrames free ∧ frame ∉ ↑free + World.mapped { w with mmu := s }

/-- An aligned physical address above 0 is a proper frame. -/
theorem isFrame_ofNat {n : ℕ} (hpos : 0 < n) (hlt : n < 2 ^ 52) (haligned : n % 4096 = 0) :
    IsFrame (.ofNat 64 n) := by
  have hmask : ∀ i : Fin 64, pageAddressMask.getLsbD i = decide (12 ≤ i.val ∧ i.val < 52) := by decide
  constructor
  · intro hzero
    have hnat := congrArg BitVec.toNat hzero
    rw [BitVec.toNat_ofNat, Nat.mod_eq_of_lt (by omega)] at hnat
    exact absurd hnat hpos.ne'
  · apply BitVec.eq_of_getLsbD_eq
    intro i hi
    rw [BitVec.getLsbD_and, hmask ⟨i, hi⟩, BitVec.getLsbD_ofNat]
    by_cases hlow : i < 12
    · have hbit : n.testBit i = false := by
        have hmod := Nat.testBit_mod_two_pow n 12 i
        rw [show n % 2 ^ 12 = 0 from haligned, Nat.zero_testBit, decide_eq_true hlow] at hmod
        simpa using hmod.symm
      simp [hbit]
    · by_cases hhigh : i < 52
      · simp [not_lt.mp hlow, hhigh]
      · have hbit := Nat.testBit_lt_two_pow (lt_of_lt_of_le hlt (Nat.pow_le_pow_right (by decide) (not_lt.mp
          hhigh)))
        simp [hbit]

/-- The frames of an entry are aligned addresses inside its range. -/
theorem mem_usableFrames {e : MemmapEntry} {frame : Word} (h : frame ∈ usableFrames e 0) :
    e.type = limineMemmapUsable ∧ ∃ k, 4096 * k + 4096 ≤ e.length ∧
      frame = .ofNat 64 (e.base + 4096 * k) := by
  unfold usableFrames at h
  split_ifs at h with htype
  · exact absurd h not_mem_nil
  obtain ⟨k, hk, rfl⟩ := mem_map.mp h
  rw [List.mem_range] at hk
  refine ⟨not_not.mp htype, k, by omega, ?_⟩
  rw [Nat.zero_add]

theorem ofNat_inj {m n : ℕ} (hm : m < 2 ^ 52) (hn : n < 2 ^ 52)
    (h : BitVec.ofNat 64 m = BitVec.ofNat 64 n) : m = n := by
  have hnat := congrArg BitVec.toNat h
  rwa [BitVec.toNat_ofNat, BitVec.toNat_ofNat, Nat.mod_eq_of_lt (by omega), Nat.mod_eq_of_lt (by omega)] at hnat

theorem usableFrames_nodup {e : MemmapEntry}
    (hphysical : e.type = limineMemmapUsable → e.base + e.length ≤ 2 ^ 52) :
    (usableFrames e 0).Nodup := by
  unfold usableFrames
  split_ifs with htype
  · exact nodup_nil
  apply List.Nodup.map_on _ nodup_range
  intro k hk l hl heq
  rw [List.mem_range] at hk hl
  have hsame := ofNat_inj (by omega) (by omega) heq
  omega

theorem unallocated_eq_flatMap (memmap : List MemmapEntry) :
    unallocated memmap 0 = memmap.flatMap fun e => usableFrames e 0 := by
  induction memmap with
  | nil => rfl
  | cons e rest ih => rw [unallocated, ih, flatMap_cons]

variable {memmap : List MemmapEntry}

/-- Under a well-formed memory map all its frames are proper. -/
theorem MemmapOk.isFrame (h : MemmapOk memmap) {frame : Word} (hmem : frame ∈ unallocated memmap 0) :
    IsFrame frame := by
  rw [unallocated_eq_flatMap, mem_flatMap] at hmem
  obtain ⟨e, he, hframe⟩ := hmem
  obtain ⟨htype, k, hk, rfl⟩ := mem_usableFrames hframe
  have haligned := (h.aligned e he htype).1
  have hphysical := h.physical e he htype
  have hnonzero := h.nonzero e he htype (by omega)
  exact isFrame_ofNat (by omega) (by omega) (by omega)

/-- Under a well-formed memory map all its frames are distinct. -/
theorem MemmapOk.nodup (h : MemmapOk memmap) : (unallocated memmap 0).Nodup := by
  rw [unallocated_eq_flatMap, nodup_flatMap]
  refine ⟨fun e he => usableFrames_nodup (h.physical e he), ?_⟩
  apply List.Pairwise.imp_of_mem _ h.disjoint
  intro a b ha hb hapart frame hframea hframeb
  obtain ⟨htypea, k, hk, rfl⟩ := mem_usableFrames hframea
  obtain ⟨htypeb, l, hl, heq⟩ := mem_usableFrames hframeb
  have hphysicala := h.physical a ha htypea
  have hphysicalb := h.physical b hb htypeb
  have hsame := ofNat_inj (by omega) (by omega) heq
  rcases hapart htypea htypeb with hbefore | hafter
  · omega
  · omega

/-- All frames of a booted machine: its PML4 and the usable memory. -/
def bootFrames (hmap : MemmapOk memmap) {s : Mmu} (hboot : BootState memmap s) : FrameSet where
  frames := s.loaded ::ₘ ↑(unallocated memmap 0)
  nodup := Multiset.nodup_cons.mpr ⟨hboot.outside, Multiset.coe_nodup.mpr hmap.nodup⟩
  isFrame frame hframe := by
    rcases Multiset.mem_cons.mp hframe with rfl | hmem
    · exact hboot.pml4
    · exact hmap.isFrame (Multiset.mem_coe.mp hmem)

variable {requests : List Request} {s : Mmu}

/-- At boot every frame is free, but for the PML4 of an empty address space. -/
theorem BootState.balanced (hmap : MemmapOk memmap) (hboot : BootState memmap s) :
    Balanced memmap (bootFrames hmap hboot) s {(4, s.loaded)} 0 := by
  have hempty : Balanced memmap (bootFrames hmap hboot) s 0 (s.loaded ::ₘ 0) := by
    refine ⟨[], hboot.head, ?_⟩
    rw [Mmu.unallocated, hboot.index, hboot.offset, drop_zero]
    simp [forestFrames, bootFrames]
  exact hempty.freshPml4 hboot.lower

/-- The world at boot is sound. -/
theorem World.boot_sound (hmap : MemmapOk memmap) (hboot : BootState memmap s) :
    (boot s).Sound memmap (bootFrames hmap hboot) := by
  refine ⟨?_, List.mem_singleton_self _, ?_⟩
  · have hforest : (boot s).forest [s.loaded] = {(4, s.loaded)} := by simp [forest, boot]
    change Within memmap (bootFrames hmap hboot) s ((boot s).forest [s.loaded]) 0
    rw [hforest]
    exact (hboot.balanced hmap).fits
  · intro pml4 hlive
    rw [List.mem_singleton.mp hlive]
    exact hboot.kernel

variable {all : FrameSet} {w w' : World}

/-- In a sound world a frame has at most one use. -/
theorem World.Sound.framesOnce (h : w.Sound memmap all) : w.FramesOnce := by
  obtain ⟨free, hfree, hall⟩ := h.within
  refine ⟨free, hfree, nodup_of_le ?_ all.nodup⟩
  refine le_trans ?_ hall
  rw [mapped, spaces, if_pos h.loaded, add_comm]
  calc forestFrames pageFormat w.mmu.mem (w.forest w.live) + ↑free
      ≤ forestFrames pageFormat w.mmu.mem (w.forest w.live) + ↑w.held + ↑free := by
        gcongr
        exact le_add_right _ _
    _ ≤ _ := le_add_right _ _

/-- In a sound world the allocator hands out unused frames. -/
theorem World.Sound.allocFresh (h : w.Sound memmap all) : w.AllocFresh memmap := by
  intro frame s hcall hram
  have hsound := h.alloc hcall hram
  obtain ⟨free, hfree, hall⟩ := hsound.within
  have hheld : frame ∈ (↑(frame :: w.held) : Multiset Word) := by simp
  refine ⟨free, hfree, ?_⟩
  rw [mem_add, not_or]
  constructor
  · exact Within.free_disjoint hall (mem_add.mpr (.inr hheld))
  · have hnodup := hsound.within.nodup
    rw [nodup_add] at hnodup
    have hmapped : mapped { w with mmu := s } = forestFrames pageFormat s.mem (w.forest w.live) := by
      have hspaces : spaces { w with mmu := s } = w.live := if_pos hsound.loaded
      rw [mapped, hspaces]
      rfl
    rw [hmapped]
    exact fun hin => disjoint_left.mp hnodup.2.2 hin hheld

theorem destroyUserPml4_loaded (h : IsFrame s.loaded) :
    destroyUserPml4 s.loaded s = pmmFreePage s.loaded (cleanupUserPages s) := by
  simp only [destroyUserPml4, if_neg h.1, h.aligned, ne_eq, not_true_eq_false, if_false]

section

variable (h : w.Sound memmap all) (hstep : w.step memmap (.destroy w.mmu.loaded) = some w')
include h hstep

/-- Destroying the loaded address space puts its PML4 at the head of the free list, while CR3
still points to it. -/
theorem World.Sound.destroy_loaded_head : w'.mmu.freePageHead = w.mmu.loaded ∧ w'.mmu.loaded = w.mmu.loaded := by
  have hframe := h.isFrame h.loaded
  obtain ⟨hperform, -⟩ := filter_eq_some_iff.mp hstep
  rw [World.perform, if_pos h.loaded] at hperform
  have hmmu : w'.mmu = pmmFreePage w.mmu.loaded (cleanupUserPages w.mmu) := by
    rw [← some.inj hperform, ← destroyUserPml4_loaded hframe]
  constructor
  · rw [hmmu, pmmFreePage, if_neg (not_or.mpr ⟨hframe.1, not_not.mpr hframe.offset⟩)]
  · apply loaded_congr
    rw [hmmu, (registers_eq_iff.mp (pmmFreePage_registers _ _)).2.2.1,
      (registers_eq_iff.mp (cleanupUserPages_registers _)).2.2.1]

/-- Destroying the loaded address space leaves its PML4 both free and in use. -/
theorem World.Sound.destroy_loaded : ¬ w'.FramesOnce := by
  obtain ⟨hhead, hloaded⟩ := h.destroy_loaded_head hstep
  rintro ⟨free, hfree, hnodup⟩
  obtain ⟨rest, rfl, -⟩ := hfree.pop (by rw [hhead]; exact (h.isFrame h.loaded).1)
  rw [hhead, nodup_add] at hnodup
  have hspaces : w.mmu.loaded ∈ w'.spaces := by
    rw [spaces, hloaded]
    split_ifs with hlive
    · exact hlive
    · exact mem_cons_self
  exact disjoint_left.mp hnodup.2.2 (mem_coe.mpr mem_cons_self) (pml4_mem_forestFrames (mem_forest hspaces))

theorem World.Sound.destroy_loaded_alloc : (pmmAllocZeroedPage memmap w'.mmu).1 = w'.mmu.loaded := by
  obtain ⟨hhead, hloaded⟩ := h.destroy_loaded_head hstep
  have hnonzero := hhead ▸ (h.isFrame h.loaded).1
  rw [pmmAllocZeroedPage, if_pos hnonzero, hloaded, ← hhead]

end

/-- Nothing stops a request to destroy the loaded address space. -/
theorem World.Sound.step_destroy_loaded (h : w.Sound memmap all) (hram : w.mmu.outOfRam = false) :
    w.step memmap (.destroy w.mmu.loaded) = some { w with
      mmu := destroyUserPml4 w.mmu.loaded w.mmu, live := w.live.erase w.mmu.loaded } := by
  have hram' : (destroyUserPml4 w.mmu.loaded w.mmu).outOfRam = false := by
    rw [destroyUserPml4_loaded (h.isFrame h.loaded), (registers_eq_iff.mp (pmmFreePage_registers _ _)).2.2.2.2,
      cleanupUserPages_outOfRam, hram]
  rw [World.step, World.perform, if_pos h.loaded]
  simp [Option.filter, hram']

theorem World.run_concat {request : Request} {start : World}
    (hrun : start.run memmap (requests ++ [request]) = some w') :
    ∃ w, start.run memmap requests = some w ∧ w.step memmap request = some w' := by
  rw [run, foldlM_append] at hrun
  obtain ⟨w, hbefore, hlast⟩ := bind_eq_some_iff.mp hrun
  refine ⟨w, hbefore, ?_⟩
  simpa using hlast

theorem World.run_snoc {request : Request} {start : World} (hrun : start.run memmap requests = some w)
    (hstep : w.step memmap request = some w') : start.run memmap (requests ++ [request]) = some w' := by
  rw [run, foldlM_append]
  exact bind_eq_some_iff.mpr ⟨w, hrun, by simpa using hstep⟩

/-- A run in which no request destroys the loaded address space reaches sound worlds. -/
theorem World.run_sound (hmap : MemmapOk memmap) (hboot : BootState memmap s)
    (hrun : (boot s).run memmap requests = some w)
    (hsafe : ∀ done v, (boot s).run memmap done = some v → ¬ done ++ [.destroy v.mmu.loaded] <+: requests) :
    w.Sound memmap (bootFrames hmap hboot) ∧ w.mmu.outOfRam = false := by
  induction requests using reverseRecOn generalizing w with
  | nil =>
    cases hrun
    exact ⟨boot_sound hmap hboot, hboot.ram⟩
  | append_singleton requests request ih =>
    obtain ⟨v, hbefore, hstep⟩ := run_concat hrun
    have hsound := ih hbefore fun done u hdone hpre => hsafe done u hdone (hpre.trans (prefix_append _ _))
    have hother : request ≠ .destroy v.mmu.loaded := by
      rintro rfl
      exact hsafe requests v hbefore prefix_rfl
    have hram := (filter_eq_some_iff.mp hstep).2
    exact ⟨hsound.1.step hstep hother, by simpa using hram⟩

/-- Over every run from boot, a frame never has two uses and the allocator hands out unused
frames only, exactly if no request destroys the address space that is loaded at that time. -/
theorem frames_used_once_iff (hmap : MemmapOk memmap) {s : Mmu} (hboot : BootState memmap s)
    (requests : List Request) :
    (∀ done w, done <+: requests → (World.boot s).run memmap done = some w →
        w.FramesOnce ∧ w.AllocFresh memmap) ↔
      ∀ done w, (World.boot s).run memmap done = some w →
        ¬ done ++ [.destroy w.mmu.loaded] <+: requests := by
  constructor
  · intro honce done w hrun hpre
    -- the earliest destruction of a loaded address space happens in a sound world
    induction hlength : done.length using Nat.strong_induction_on generalizing done w with
    | h n ih =>
      have hsound := run_sound hmap hboot hrun fun earlier v hearlier hin => by
        have hshort := hin.length_le
        rw [length_append, length_singleton] at hshort
        exact ih earlier.length (by omega) earlier v hearlier (hin.trans ((prefix_append _ _).trans hpre)) rfl
      have hstep := hsound.1.step_destroy_loaded hsound.2
      exact hsound.1.destroy_loaded hstep (honce _ _ hpre (run_snoc hrun hstep)).1
  · intro hsafe done w hpre hrun
    have hsound := run_sound hmap hboot hrun fun earlier v hearlier hin =>
      hsafe earlier v hearlier (hin.trans hpre)
    exact ⟨hsound.1.framesOnce, hsound.1.allocFresh⟩

/-- A machine with one usable range of sixteen frames and its PML4 in frame 1. -/
def smallMemmap : List MemmapEntry := [⟨0x100000, 0x10000, limineMemmapUsable⟩]

/-- The boot state of that machine. -/
def smallMachine : Mmu := ⟨fun _ _ => 0, 0, 0, 0, 0x1000, false, false⟩

theorem smallMemmap_ok : MemmapOk smallMemmap := by
  constructor <;> simp [smallMemmap]

theorem smallMachine_boot : BootState smallMemmap smallMachine := by
  constructor
  · rfl
  · rfl
  · rfl
  · rfl
  · exact isFrame_ofNat (n := 0x1000) (by decide) (by decide) (by decide)
  · decide
  · intro i _
    rfl
  · intro i _
    exact (by decide : isUserTable 0 = false)

/-- A task maps a page, its pages are suspended and restored, and the shell destroys it. -/
def taskRequests : List Request :=
  [.create, .switch 0x100000, .alloc, .map 0x400000 0x101000, .suspend, .restore 0, .switch 0x1000,
    .destroy 0x100000]

/-- Over the life of a task on the small machine. -/
theorem frames_used_once_task : ((World.boot smallMachine).run smallMemmap (taskRequests.take 7)).isSome ∧
    ((∀ done w, done <+: taskRequests → (World.boot smallMachine).run smallMemmap done = some w →
        w.FramesOnce ∧ w.AllocFresh smallMemmap) ↔
      ∀ done w, (World.boot smallMachine).run smallMemmap done = some w →
        ¬ done ++ [.destroy w.mmu.loaded] <+: taskRequests) :=
  ⟨by decide +kernel, frames_used_once_iff smallMemmap_ok smallMachine_boot taskRequests⟩

/-- A task that is created, loaded and then destroyed while loaded, as `scheduler_exit_current`
does: the loaded PML4 is on the free list, and the allocator returns it. -/
theorem destroy_loaded_frees_pml4_in_use :
    ∃ w, (World.boot smallMachine).run smallMemmap
        [.create, .switch 0x100000, .destroy 0x100000] = some w ∧
      ¬ w.FramesOnce ∧ (pmmAllocZeroedPage smallMemmap w.mmu).1 = w.mmu.loaded := by
  have hsome : ((boot smallMachine).run smallMemmap [.create, .switch 0x100000]).isSome := by decide
  obtain ⟨w, hrun⟩ := isSome_iff_exists.mp hsome
  have hloaded : w.mmu.loaded = 0x100000 := by
    have hall : ((boot smallMachine).run smallMemmap [.create, .switch 0x100000]).map
        (fun v => v.mmu.loaded) = some 0x100000 := by decide
    rw [hrun] at hall
    exact some.inj hall
  obtain ⟨hsound, hram⟩ := run_sound smallMemmap_ok smallMachine_boot hrun (by
    intro done v _ hin
    have hmem := hin.subset (mem_append_right done mem_cons_self)
    simp at hmem)
  have hstep := hsound.step_destroy_loaded hram
  refine ⟨_, ?_, hsound.destroy_loaded hstep, hsound.destroy_loaded_alloc hstep⟩
  have hrequests : [.create, .switch 0x100000, .destroy 0x100000] =
      [.create, .switch 0x100000] ++ [Request.destroy w.mmu.loaded] := by
    rw [hloaded]
    rfl
  rw [hrequests]
  exact run_snoc hrun hstep

end Windoge.Paging
