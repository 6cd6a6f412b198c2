import Windoge.Paging.Reclaim

/-!
# Address spaces over a whole run

A world is the machine together with what the rest of the kernel holds: frames it has
allocated and not yet mapped, the PML4s it has created and not yet destroyed, and the
lower halves it has suspended and not yet restored. Requests are the calls of the memory
manager with arguments taken from there. A run stops when the allocator reports that
memory ran out. The module shows what each request does to the accounting of frames.
-/

namespace Windoge.Paging

open FrameTree FreeList List Multiset Option Paging.Balanced TableIn

/-- The machine and what the kernel holds of it. -/
structure World where
  mmu : Mmu
  held : List Word
  live : List Word
  suspended : List (Fin 256 → Word)

/-- A call of the memory manager. -/
inductive Request
  | alloc
  | map (virtAddr physAddr : Word)
  | protect (virtAddr : Word) (present writeAccess executeAccess : Bool)
  | unmap (virtAddr : Word)
  | suspend
  | restore (index : ℕ)
  | create
  | switch (pml4 : Word)
  | destroy (pml4 : Word)
  | cleanup
  deriving DecidableEq

variable (memmap : List MemmapEntry)

/-- Carry a request out. Pages are mapped at user addresses and from held frames, and PML4
arguments are live; other arguments are refused. -/
def World.perform (w : World) : Request → Option World
  | .alloc =>
    let (frame, s) := pmmAllocZeroedPage memmap w.mmu
    some { w with mmu := s, held := frame :: w.held }
  | .map virtAddr physAddr =>
    if virtAddr < userAddressLimit ∧ physAddr ∈ w.held then
      some { w with
        mmu := mapUserPage memmap virtAddr physAddr w.mmu, held := w.held.erase physAddr }
    else none
  | .protect virtAddr present writeAccess executeAccess =>
    some { w with mmu := (protectUserPage virtAddr present writeAccess executeAccess w.mmu).2 }
  | .unmap virtAddr => some { w with mmu := (unmapUserPage virtAddr w.mmu).2 }
  | .suspend =>
    let (context, s) := suspendUserPages w.mmu
    some { w with mmu := s, suspended := context :: w.suspended }
  | .restore index =>
    match w.suspended[index]? with
    | none => none
    | some context =>
      some { w with
        mmu := restoreUserPages context w.mmu, suspended := w.suspended.eraseIdx index }
  | .create =>
    let (pml4, s) := createUserPml4 memmap w.mmu
    some { w with mmu := s, live := pml4 :: w.live }
  | .switch pml4 =>
    if pml4 ∈ w.live then some { w with mmu := switchUserPml4 pml4 w.mmu } else none
  | .destroy pml4 =>
    if pml4 ∈ w.live then
      some { w with mmu := destroyUserPml4 pml4 w.mmu, live := w.live.erase pml4 }
    else none
  | .cleanup => some { w with mmu := cleanupUserPages w.mmu }

/-- One request of a run in which the allocator never runs out. -/
def World.step (w : World) (request : Request) : Option World :=
  (w.perform memmap request).filter fun w' => !w'.mmu.outOfRam

/-- A sequence of requests. -/
def World.run (w : World) (requests : List Request) : Option World :=
  requests.foldlM (World.step memmap) w

/-- The entries of a suspended lower half. -/
def contextForest (context : Fin 256 → Word) : Forest :=
  ↑((List.finRange 256).map fun i => (3, context i))

/-- The page tables of the given address spaces and of the suspended lower halves. -/
def World.forest (w : World) (spaces : List Word) : Forest :=
  (↑spaces : Multiset Word).map (fun pml4 => (4, pml4)) + (w.suspended.map contextForest).sum

/-- Every frame is accounted for once, a live PML4 is loaded, and kernel halves hold no user
tables. -/
structure World.Sound (all : FrameSet) (w : World) : Prop where
  within : Within memmap all w.mmu (w.forest w.live) ↑w.held
  loaded : w.mmu.loaded ∈ w.live
  kernel : ∀ pml4 ∈ w.live, KernelHalf w.mmu pml4

variable {memmap} {all : FrameSet} {w w' : World} {s : Mmu} {pml4 : Word} {held : Multiset Word}
  {forest : Forest} {context : Fin 256 → Word} {spaces : List Word} {index : ℕ}

theorem World.mem_forest (h : pml4 ∈ spaces) : (4, pml4) ∈ w.forest spaces := by
  rw [World.forest, mem_add]
  exact .inl (mem_map_of_mem _ (mem_coe.mpr h))

theorem World.Sound.root (h : w.Sound memmap all) : TableIn w.mmu (w.forest w.live) 3 w.mmu.loaded :=
  pml4 (World.mem_forest h.loaded)

theorem World.Sound.isFrame (h : w.Sound memmap all) (hlive : pml4 ∈ w.live) : IsFrame pml4 :=
  h.within.isFrame (mem_add.mpr (.inl (pml4_mem_forestFrames (World.mem_forest hlive))))

theorem World.Sound.kernel_of_upper (h : w.Sound memmap all)
    (hupper : UpperSame w.mmu s (w.forest w.live)) : ∀ pml4 ∈ w.live, KernelHalf s pml4 := by
  intro pml4 hlive i hi
  rw [hupper pml4 (World.mem_forest hlive) i hi]
  exact h.kernel pml4 hlive i hi

theorem loaded_congr {s' : Mmu} (h : s'.cr3 = s.cr3) : s'.loaded = s.loaded := by
  rw [Mmu.loaded, Mmu.loaded, h]

theorem World.Sound.machine {held : List Word} (h : w.Sound memmap all)
    (hwithin : Within memmap all s (w.forest w.live) ↑held) (hcr3 : s.cr3 = w.mmu.cr3)
    (hupper : UpperSame w.mmu s (w.forest w.live)) :
    ({ w with mmu := s, held := held } : World).Sound memmap all where
  within := hwithin
  loaded := by
    rw [loaded_congr hcr3]
    exact h.loaded
  kernel := h.kernel_of_upper hupper

theorem World.forest_cons (pml4 : Word) (spaces : List Word) :
    w.forest (pml4 :: spaces) = (4, pml4) ::ₘ w.forest spaces := by
  rw [World.forest, World.forest, ← Multiset.cons_coe, Multiset.map_cons, Multiset.cons_add]

theorem World.forest_erase (h : pml4 ∈ spaces) :
    w.forest spaces = (4, pml4) ::ₘ w.forest (spaces.erase pml4) := by
  rw [← World.forest_cons]
  have hperm := coe_eq_coe.mpr (perm_cons_erase h)
  rw [World.forest, World.forest, hperm]

/-- A held frame whose lower half is zero is an empty address space. -/
theorem Balanced.freshPml4 (h : Balanced memmap all s forest (pml4 ::ₘ held))
    (hzero : ∀ i : Fin 512, i.val < 256 → s.mem pml4 i = 0) :
    Balanced memmap all s ((4, pml4) ::ₘ forest) held := by
  have hslots : ∑ i ∈ lowerHalf, frames pageFormat s.mem 3 (s.mem pml4 i) = 0 := by
    apply Finset.sum_eq_zero
    intro i hi
    rw [hzero i (mem_lowerHalf.mp hi)]
    exact frames_of_empty (child_zero (by decide))
  apply h.regroup
  rw [forestFrames_cons]
  rw [frames_pml4, hslots, add_cons, cons_add, cons_add, zero_add]

/-- A new address space has an empty lower half and the kernel half of the loaded one. -/
theorem createUserPml4_balanced {s' : Mmu} (h : Balanced memmap all s forest held)
    (hused : s.loaded ∈ forestFrames pageFormat s.mem forest + held)
    (hcall : createUserPml4 memmap s = (pml4, s')) (hram : s'.outOfRam = false) :
    Balanced memmap all s' forest (pml4 ::ₘ held) ∧ Keeps s s' forest held ∧
      (∀ i : Fin 512, i.val < 256 → s'.mem pml4 i = 0) ∧
      ∀ i : Fin 512, 256 ≤ i.val → s'.mem pml4 i = s.mem s.loaded i := by
  cases halloc : pmmAllocZeroedPage memmap s with
  | mk page t =>
  rw [createUserPml4, halloc] at hcall
  dsimp only at hcall
  have hram' : t.outOfRam = false := by
    split_ifs at hcall
    all_goals
      cases hcall
      exact hram
  obtain ⟨hheld, hkeeps, hzero⟩ := pmmAllocZeroedPage_balanced halloc hram' h
  rw [if_neg hheld.held_isFrame.1] at hcall
  obtain ⟨rfl, rfl⟩ := Prod.mk.inj hcall
  obtain ⟨hfilled, hkept⟩ := hheld.fill fun i => if i.val < 256 then t.mem page i else t.mem t.loaded i
  refine ⟨hfilled, hkeeps.trans hkept, fun i hi => ?_, fun i hi => ?_⟩
  · simp [Mmu.fill, hi, hzero]
  · have hsame := hkeeps.mem s.loaded hused
    simp [Mmu.fill, not_lt.mpr hi, loaded_congr hkeeps.cr3, hsame]

theorem Within.takePml4 (h : Within memmap all s ((4, pml4) ::ₘ forest) held) :
    Within memmap all s forest (pml4 ::ₘ held) := by
  apply h.regroup
  rw [forestFrames_cons]
  rw [frames_pml4, add_cons, cons_add, cons_add, add_assoc, cons_le_cons_iff]
  exact le_add_left _ _

section

variable (h : w.Sound memmap all)
include h

theorem World.Sound.alloc {frame : Word} (hcall : pmmAllocZeroedPage memmap w.mmu = (frame, s))
    (hram : s.outOfRam = false) :
    ({ w with mmu := s, held := frame :: w.held } : World).Sound memmap all := by
  obtain ⟨lost, hall⟩ := h.within.balanced
  obtain ⟨hheld, hkeeps, -⟩ := pmmAllocZeroedPage_balanced hcall hram hall
  rw [← cons_add] at hheld
  exact h.machine hheld.within hkeeps.cr3 hkeeps.upper

/-- Creating an address space keeps a world sound. -/
theorem World.Sound.create (hcall : createUserPml4 memmap w.mmu = (pml4, s)) (hram : s.outOfRam = false) :
    ({ w with mmu := s, live := pml4 :: w.live } : World).Sound memmap all := by
  obtain ⟨lost, hall⟩ := h.within.balanced
  obtain ⟨hheld, hkeeps, hlower, hupper⟩ := createUserPml4_balanced hall
    (mem_add.mpr (.inl (pml4_mem_forestFrames (World.mem_forest h.loaded)))) hcall hram
  refine ⟨?_, ?_, ?_⟩
  · change Within memmap all _ (w.forest (pml4 :: w.live)) _
    rw [World.forest_cons]
    exact (hheld.freshPml4 hlower).within
  · exact mem_cons_of_mem _ (loaded_congr hkeeps.cr3 ▸ h.loaded)
  · intro other hother
    rcases mem_cons.mp hother with rfl | hlive
    · intro i hi
      rw [hupper i hi]
      exact h.kernel _ h.loaded i hi
    · exact h.kernel_of_upper hkeeps.upper other hlive

/-- Loading a live address space keeps a world sound. -/
theorem World.Sound.switch (hlive : pml4 ∈ w.live) :
    ({ w with mmu := switchUserPml4 pml4 w.mmu } : World).Sound memmap all := by
  have hframe := h.isFrame hlive
  have hswitched : switchUserPml4 pml4 w.mmu = { w.mmu with cr3 := pml4 } := by
    rw [switchUserPml4, if_pos hframe.1, hframe.aligned]
  rw [hswitched]
  refine ⟨h.within, ?_, h.kernel⟩
  change pml4 &&& ~~~pageOffsetMask ∈ w.live
  rwa [hframe.aligned]

theorem World.Sound.cleanup : ({ w with mmu := cleanupUserPages w.mmu } : World).Sound memmap all := by
  obtain ⟨hwithin, -, hupper⟩ := cleanupUserPages_spec h.root h.within
  exact h.machine hwithin (registers_eq_iff.mp (cleanupUserPages_registers w.mmu)).2.2.1 hupper

/-- Destroying a live address space that is not loaded keeps a world sound. -/
theorem World.Sound.destroy (hlive : pml4 ∈ w.live) (hother : pml4 ≠ w.mmu.loaded) :
    ({ w with mmu := destroyUserPml4 pml4 w.mmu, live := w.live.erase pml4 } : World).Sound memmap all := by
  have hframe := h.isFrame hlive
  have hcleaned := (h.switch hlive).cleanup
  have hswitched : switchUserPml4 pml4 w.mmu = { w.mmu with cr3 := pml4 } := by
    rw [switchUserPml4, if_pos hframe.1, hframe.aligned]
  rw [hswitched] at hcleaned
  have hdestroyed : destroyUserPml4 pml4 w.mmu = pmmFreePage pml4
      { cleanupUserPages { w.mmu with cr3 := pml4 } with cr3 := w.mmu.loaded } := by
    simp only [destroyUserPml4, if_neg hframe.1, hframe.aligned, ne_eq, hother.symm, not_false_eq_true, if_true]
  rw [hdestroyed]
  generalize cleanupUserPages { w.mmu with cr3 := pml4 } = t at hcleaned ⊢
  have hwithin : Within memmap all t ((4, pml4) ::ₘ w.forest (w.live.erase pml4)) ↑w.held := by
    rw [← World.forest_erase hlive]
    exact hcleaned.within
  have hback : Within memmap all { t with cr3 := w.mmu.loaded } (w.forest (w.live.erase pml4))
      (pml4 ::ₘ ↑w.held) := hwithin.takePml4
  obtain ⟨lost, hall⟩ := hback.balanced
  rw [cons_add] at hall
  obtain ⟨hfreed, hkeeps⟩ := hall.free
  refine ⟨hfreed.within, ?_, ?_⟩
  · have hloaded := h.loaded
    have hsame : (pmmFreePage pml4 { t with cr3 := w.mmu.loaded }).loaded = w.mmu.loaded := by
      rw [Mmu.loaded, hkeeps.cr3]
      exact (h.isFrame hloaded).aligned
    rw [hsame]
    exact (List.mem_erase_of_ne hother.symm).mpr hloaded
  · intro other hmem i hi
    rw [hkeeps.upper other (World.mem_forest hmem) i hi]
    exact hcleaned.kernel other (mem_of_mem_erase hmem) i hi

end

/-- Clearing the lower half of a PML4 moves its entries into a context. -/
theorem Within.suspend (hroot : TableIn s forest 3 s.loaded) (h : Within memmap all s forest held) :
    Within memmap all (suspendUserPages s).2 (contextForest (suspendUserPages s).1 + forest) held := by
  obtain ⟨lost, hall⟩ := h.balanced
  refine (replace 0 _ _ hroot ?_ (by rwa [zero_add])).1.within
  have hslots : pageFormat.slots 3 = lowerHalf := rfl
  rw [hslots, contextForest, forestFrames_lower, sum_lowerHalf, sum_lowerHalf]
  have hzero : ∀ i : Fin 256, frames pageFormat s.mem 3
      (if (lowerSlot i).val < 256 then 0 else s.mem s.loaded (lowerSlot i)) = 0 := by
    intro i
    rw [if_pos (show (lowerSlot i).val < 256 from i.isLt)]
    exact frames_of_empty (child_zero (by decide))
  simp only [hzero, Finset.sum_const_zero, add_zero, forestFrames, map_zero, sum_zero, zero_add]
  rfl

/-- Suspending the loaded lower half keeps a world sound. -/
theorem World.Sound.suspend (h : w.Sound memmap all) :
    ({ w with mmu := (suspendUserPages w.mmu).2,
              suspended := (suspendUserPages w.mmu).1 :: w.suspended } : World).Sound memmap all := by
  have hupper : UpperSame w.mmu (suspendUserPages w.mmu).2 (w.forest w.live) := by
    apply fill_upper
    intro i hi
    simp [not_lt.mpr hi]
  refine ⟨?_, h.loaded, h.kernel_of_upper hupper⟩
  have hforest : World.forest { w with
        mmu := (suspendUserPages w.mmu).2,
        suspended := (suspendUserPages w.mmu).1 :: w.suspended } w.live =
      contextForest (suspendUserPages w.mmu).1 + w.forest w.live := by
    simp only [World.forest, List.map_cons, List.sum_cons]
    exact add_left_comm _ _ _
  rw [hforest]
  exact h.within.suspend h.root

/-- Filling the lower half of a PML4 from a context uses the context up. -/
theorem Within.restoreContext (hroot : TableIn s forest 3 s.loaded)
    (h : Within memmap all s (contextForest context + forest) held) :
    Within memmap all (s.fill s.loaded fun i =>
      if h : i.val < 256 then context ⟨i, h⟩ else s.mem s.loaded i) forest held := by
  have hslots : pageFormat.slots 3 = lowerHalf := rfl
  have hnew : ∀ i : Fin 256, (if h : (lowerSlot i).val < 256 then context ⟨lowerSlot i, h⟩
      else s.mem s.loaded (lowerSlot i)) = context i := by
    intro i
    rw [dif_pos (show (lowerSlot i).val < 256 from i.isLt)]
    rfl
  -- what the slots held before comes out of them, and is forgotten
  obtain ⟨lost, hall⟩ := h.balanced
  obtain ⟨hreplaced, -⟩ := replace _ (contextForest fun i => s.mem s.loaded (lowerSlot i))
    (fun i => if h : i.val < 256 then context ⟨i, h⟩ else s.mem s.loaded i) hroot (by
      rw [hslots, contextForest, contextForest, forestFrames_lower, forestFrames_lower,
        sum_lowerHalf, sum_lowerHalf]
      simp only [hnew]
      exact add_comm _ _) hall
  apply hreplaced.within.regroup
  rw [forestFrames_add]
  gcongr
  exact le_add_left _ _

/-- A suspended context can be taken out of the forest. -/
theorem World.forest_eraseIdx (h : w.suspended[index]? = some context) (spaces : List Word) :
    w.forest spaces = contextForest context +
      World.forest { w with suspended := w.suspended.eraseIdx index } spaces := by
  obtain ⟨hlt, hget⟩ := List.getElem?_eq_some_iff.mp h
  have hperm := getElem_cons_eraseIdx_perm hlt
  rw [hget] at hperm
  have hsum := (hperm.map contextForest).sum_eq
  rw [List.map_cons, List.sum_cons] at hsum
  rw [World.forest, World.forest, ← hsum]
  exact add_left_comm _ _ _

/-- Restoring a suspended context keeps a world sound. -/
theorem World.Sound.restore (h : w.Sound memmap all) (hcontext : w.suspended[index]? = some context) :
    ({ w with mmu := restoreUserPages context w.mmu,
              suspended := w.suspended.eraseIdx index } : World).Sound memmap all := by
  have hcleaned := h.cleanup
  rw [restoreUserPages]
  generalize cleanupUserPages w.mmu = t at hcleaned ⊢
  have hroot : TableIn t (World.forest { w with suspended := w.suspended.eraseIdx index } w.live) 3
      t.loaded := pml4 (World.mem_forest hcleaned.loaded)
  have hwithin : Within memmap all t (w.forest w.live) ↑w.held := hcleaned.within
  rw [World.forest_eraseIdx hcontext] at hwithin
  refine ⟨hwithin.restoreContext hroot, hcleaned.loaded, hcleaned.kernel_of_upper ?_⟩
  apply fill_upper
  intro i hi
  simp [not_lt.mpr hi]

/-- A request other than destroying the loaded address space keeps a world sound. -/
theorem World.Sound.step (h : w.Sound memmap all) {request : Request}
    (hstep : w.step memmap request = some w') (hsafe : request ≠ .destroy w.mmu.loaded) :
    w'.Sound memmap all := by
  obtain ⟨hperform, hram⟩ := filter_eq_some_iff.mp hstep
  have hram : w'.mmu.outOfRam = false := by simpa using hram
  cases request with
  | alloc =>
    cases hperform
    exact h.alloc rfl hram
  | map virtAddr physAddr =>
    rw [World.perform] at hperform
    split_ifs at hperform with hargs
    cases hperform
    have hheld : (↑w.held : Multiset Word) = physAddr ::ₘ ↑(w.held.erase physAddr) :=
      coe_eq_coe.mpr (perm_cons_erase hargs.2)
    have hwithin := h.within
    rw [hheld] at hwithin
    obtain ⟨hmapped, hcr3, hupper⟩ := mapUserPage_spec hargs.1 hram h.root hwithin
    exact h.machine hmapped hcr3 hupper
  | protect virtAddr present writeAccess executeAccess =>
    cases hperform
    obtain ⟨hdone, hcr3, hupper⟩ := protectUserPage_spec present writeAccess executeAccess
      (h.kernel _ h.loaded) h.root h.within
    exact h.machine hdone hcr3 hupper
  | unmap virtAddr =>
    cases hperform
    obtain ⟨hdone, hcr3, hupper⟩ := unmapUserPage_spec (h.kernel _ h.loaded) h.root h.within
    exact h.machine hdone hcr3 hupper
  | suspend =>
    cases hperform
    exact h.suspend
  | restore index =>
    rw [World.perform] at hperform
    split at hperform
    · exact absurd hperform (by simp)
    · next context hcontext =>
      cases hperform
      exact h.restore hcontext
  | create =>
    cases hperform
    exact h.create rfl hram
  | switch pml4 =>
    rw [World.perform] at hperform
    split_ifs at hperform with hlive
    cases hperform
    exact h.switch hlive
  | destroy pml4 =>
    rw [World.perform] at hperform
    split_ifs at hperform with hlive
    cases hperform
    exact h.destroy hlive fun heq => hsafe (heq ▸ rfl)
  | cleanup =>
    cases hperform
    exact h.cleanup

end Windoge.Paging
