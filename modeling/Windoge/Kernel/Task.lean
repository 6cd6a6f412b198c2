import Windoge.Paging.Teardown
import Windoge.Exec.Elf

/-!
# Tasks

The task table of `scheduler.c`. Each of its eight slots holds what the kernel needs to
resume a task and to take it down: its address space, the pages of its program and the
pieces of global state that are saved when it is descheduled. Slot 0 is the shell. The
kernel stack of a slot is an address and is not part of the record.
-/

namespace Windoge.Kernel

open Paging

/-- `SCHEDULER_TASK_LIMIT`. -/
abbrev schedulerTaskLimit : ℕ := 8

instance neZero_tasks : NeZero schedulerTaskLimit := ⟨by decide⟩

/-- `linux_task_fd_t`. -/
structure LinuxFd where
  isOpen : Bool
  readable : Bool
  writable : Bool
  append : Bool
  isDir : Bool
  isTerminal : Bool
  offset : ℕ
  path : String
  deriving DecidableEq

/-- `linux_task_context_t`, without its reserved bytes. -/
structure LinuxContext where
  fileDescriptors : Fin 32 → LinuxFd
  programBreak : ℕ
  mmapCursor : ℕ
  heapStart : ℕ

/-- The image that `fxsave64` stores. -/
abbrev FpuImage := Fin 512 → BitVec 8

/-- `scheduler_task_t`. -/
structure Task where
  pid : ℕ
  active : Bool
  workspaceId : ℕ
  cr3 : Word
  gsBase : Word
  kernelGsBase : Word
  linuxAbi : Bool
  fsContextValid : Bool
  drive : ℕ
  cwd : String
  frame : Word
  linuxContext : LinuxContext
  program : ProgramMemory
  fpuState : FpuImage

/-- The static variables of the scheduler and the memory manager it works on. -/
structure Scheduler where
  tasks : Fin schedulerTaskLimit → Task
  currentTask : Fin schedulerTaskLimit
  nextPid : ℕ
  mmu : Mmu

/-- The running task. -/
def Scheduler.current (k : Scheduler) : Task := k.tasks k.currentTask

/-!
## Killing another task

`scheduler_kill` first unmaps the pages of the killed program and then destroys its address
space. The first step goes through the page tables that CR3 points to, which are those of
the caller and not of the killed task. So the kill is confined to the killed task exactly
when the caller has nothing mapped at the addresses of the killed program; otherwise it
takes these pages away from the caller.
-/

open FrameTree FreeList Multiset Scheduler Spaces

/-- The slot `scheduler_kill` picks: the first active one after slot 0 with this pid. -/
def Scheduler.findTask (k : Scheduler) (pid : ℕ) : Option (Fin schedulerTaskLimit) :=
  (List.finRange schedulerTaskLimit).find? fun i =>
    i ≠ 0 && (k.tasks i).active && (k.tasks i).pid == pid

/-- `scheduler_kill`. -/
def schedulerKill (pid : ℕ) (k : Scheduler) : ℤ × Scheduler :=
  if pid = 0 then (-1, k)
  else
    match k.findTask pid with
    | none => (-1, k)
    | some i =>
      let pml4 := (k.tasks i).cr3
      (0, { k with
        tasks := Function.update k.tasks i { k.tasks i with active := false }
        mmu := destroyUserPml4 pml4 (cleanupProgramPages (k.tasks i).program k.mmu) })

/-- The slots of the active tasks. -/
def Scheduler.activeTasks (k : Scheduler) : Finset (Fin schedulerTaskLimit) :=
  Finset.univ.filter fun i => (k.tasks i).active

/-- The address spaces of the active tasks. -/
def Scheduler.forest (k : Scheduler) : Forest :=
  k.activeTasks.val.map fun i => (4, (k.tasks i).cr3)

/-- The state between two steps of the kernel: the address spaces of the active tasks are
accounted for, together with whatever else the kernel holds, and the running task is active
with its address space loaded. -/
structure Scheduler.Sound (memmap : List MemmapEntry) (all : FrameSet) (k : Scheduler) : Prop where
  spaces : ∃ rest held, Spaces memmap all k.mmu (k.forest + rest) held
  running : k.current.active = true
  loaded : k.mmu.loaded = k.current.cr3

/-- An address space has the same frames, maps the same pages and holds the same contents. -/
def SameSpace (s s' : Mmu) (root : Word) : Prop :=
  frames pageFormat s'.mem 4 root = frames pageFormat s.mem 4 root ∧
    ∀ virtAddr < userAddressLimit, Untouched s s' root virtAddr

/-- The frames came to the free list, each of them once. -/
def ReturnedOnce (s s' : Mmu) (given : Multiset Word) : Prop :=
  ∃ free free', s.FreeFrames free ∧ s'.FreeFrames free' ∧
    ∀ frame ∈ given, frame ∉ free ∧ free'.count frame = 1

/-- A kill is confined to its victim: the other active tasks keep their address spaces, and the
frames of the victim are returned. -/
def Scheduler.KillConfined (k : Scheduler) (pid : ℕ) (victim : Fin schedulerTaskLimit) : Prop :=
  (∀ j, (k.tasks j).active = true → j ≠ victim →
    SameSpace k.mmu (schedulerKill pid k).2.mmu (k.tasks j).cr3) ∧
  ReturnedOnce k.mmu (schedulerKill pid k).2.mmu
    (frames pageFormat k.mmu.mem 4 (k.tasks victim).cr3)

variable {memmap : List MemmapEntry} {all : FrameSet} {k : Scheduler} {pid : ℕ}
  {victim : Fin schedulerTaskLimit}

theorem Scheduler.findTask_active (h : k.findTask pid = some victim) : (k.tasks victim).active = true := by
  have hpick := List.find?_some h
  simp only [Bool.and_eq_true] at hpick
  exact hpick.1.2

theorem Scheduler.forest_erase (h : (k.tasks victim).active = true) :
    k.forest = (4, (k.tasks victim).cr3) ::ₘ
      (k.activeTasks.erase victim).val.map fun i => (4, (k.tasks i).cr3) := by
  have hmem : victim ∈ k.activeTasks := by simp [activeTasks, h]
  rw [forest, ← Finset.insert_erase hmem, Finset.insert_val_of_notMem
    (Finset.notMem_erase victim k.activeTasks), map_cons, Finset.insert_erase hmem]

theorem Scheduler.mem_forest_erase {j : Fin schedulerTaskLimit} (h : (k.tasks j).active = true)
    (hne : j ≠ victim) :
    (4, (k.tasks j).cr3) ∈ (k.activeTasks.erase victim).val.map fun i => (4, (k.tasks i).cr3) := by
  apply mem_map_of_mem (fun i => (4, (k.tasks i).cr3))
  have hmem : j ∈ k.activeTasks := by simp [activeTasks, h]
  exact Finset.mem_erase.mpr ⟨hne, hmem⟩

theorem schedulerKill_mmu (hpid : pid ≠ 0) (hfind : k.findTask pid = some victim) :
    (schedulerKill pid k).2.mmu = destroyUserPml4 (k.tasks victim).cr3
      (cleanupProgramPages (k.tasks victim).program k.mmu) := by
  rw [schedulerKill, if_neg hpid, hfind]

/-- Destroying an address space that is not loaded returns its frames and keeps the others. -/
theorem destroy_confined {s : Mmu} {root : Word} {others : Forest} {held : Multiset Word}
    (h : Spaces memmap all s ((4, root) ::ₘ others) held) (hloaded : s.loaded ≠ root) :
    (∀ space, (4, space) ∈ others → SameSpace s (destroyUserPml4 root s) space) ∧
      ReturnedOnce s (destroyUserPml4 root s) (frames pageFormat s.mem 4 root) := by
  obtain ⟨hdone, hmem, -, hunallocated⟩ := h.destroyUserPml4 hloaded
  constructor
  · intro space hspace
    have hsame := fun frame hframe => hmem frame (mem_add.mpr (.inl (mem_forestFrames hspace hframe)))
    exact ⟨frames_congr hsame, ((h.space_marked (mem_cons_of_mem hspace)).keep hsame).2⟩
  · obtain ⟨free, hfree, hbefore⟩ := h.balanced
    obtain ⟨free', hfree', hafter⟩ := hdone.balanced
    have hothers := forestFrames_congr fun frame hframe => hmem frame (mem_add.mpr (.inl hframe))
    -- what the other trees, the holders and the memory map have is the same before and after
    have hcounts : (↑free' : Multiset Word) = frames pageFormat s.mem 4 root + ↑free := by
      rw [hothers, hunallocated] at hafter
      rw [← hafter, forestFrames_cons] at hbefore
      apply add_left_cancel (a := forestFrames pageFormat s.mem others + held + ↑(s.unallocated memmap))
      calc _ = forestFrames pageFormat s.mem others + held + ↑free' +
            ↑(s.unallocated memmap) := by abel
        _ = _ := by rw [← hbefore]; abel
    have hnodup : (↑free' : Multiset Word).Nodup := by
      apply nodup_of_le _ all.nodup
      rw [← hafter, add_right_comm]
      exact le_add_left _ _
    refine ⟨free, free', hfree, hfree', fun frame hframe => ⟨?_, ?_⟩⟩
    · intro hin
      rw [hcounts, nodup_add] at hnodup
      exact disjoint_left.mp hnodup.2.2 hframe (mem_coe.mpr hin)
    · have hin : frame ∈ (↑free' : Multiset Word) := by
        rw [hcounts]
        exact mem_add.mpr (.inl hframe)
      rw [← coe_count]
      exact count_eq_one_of_mem hnodup hin

section Confined

variable (h : k.Sound memmap all) (hpid : pid ≠ 0) (hfind : k.findTask pid = some victim)
  (hother : victim ≠ k.currentTask)

include h hfind hother

/-- The address spaces of a sound scheduler, with that of the victim set apart. -/
theorem Scheduler.Sound.without_victim :
    ∃ others held, Spaces memmap all k.mmu ((4, (k.tasks victim).cr3) ::ₘ others) held ∧
      (∀ j, (k.tasks j).active = true → j ≠ victim → (4, (k.tasks j).cr3) ∈ others) ∧
      (4, k.mmu.loaded) ∈ others ∧ k.mmu.loaded ≠ (k.tasks victim).cr3 := by
  obtain ⟨rest, held, hspaces⟩ := h.spaces
  rw [forest_erase (findTask_active hfind), cons_add] at hspaces
  have hothers : ∀ j, (k.tasks j).active = true → j ≠ victim → (4, (k.tasks j).cr3) ∈
      ((k.activeTasks.erase victim).val.map fun i => (4, (k.tasks i).cr3)) + rest :=
    fun j hj hne => mem_add.mpr (.inl (mem_forest_erase hj hne))
  have hrunning := hothers k.currentTask h.running (Ne.symm hother)
  rw [show (k.tasks k.currentTask).cr3 = k.mmu.loaded from h.loaded.symm] at hrunning
  refine ⟨_, held, hspaces, hothers, hrunning, fun heq => ?_⟩
  -- otherwise the victim's PML4 would be reached twice
  have hpml4 : (k.tasks victim).cr3 ∈ frames pageFormat k.mmu.mem 4 (k.tasks victim).cr3 :=
    follow_mem_frames (follow_nil.trans (child_cr3 _))
  apply (apart hspaces.balanced hpml4).1
  rw [← heq]
  exact pml4_mem_forestFrames hrunning

include hpid

/-- A confined kill finds none of the victim's page addresses mapped by the running task: the
pages it finds there, it takes from the running task. -/
theorem Scheduler.KillConfined.unmapped (hconfined : k.KillConfined pid victim) :
    ∀ page ∈ (k.tasks victim).program.pages, userPageMapped page k.mmu = false := by
  obtain ⟨others, held, hspaces, -, hrunning, hloaded⟩ := h.without_victim hfind hother
  rw [Scheduler.KillConfined, schedulerKill_mmu hpid hfind, cleanupProgramPages] at hconfined
  intro page hpage
  have huser := (k.tasks victim).program.pages_user page hpage
  obtain ⟨hclean, htouch, hnone⟩ := hspaces.unmapPages (k.tasks victim).program.pages
    (k.tasks victim).program.pages_user (mem_cons_of_mem hrunning)
  have hstill : ((k.tasks victim).program.pages.foldl unmapIfMapped k.mmu).loaded ≠ (k.tasks victim).cr3 := by
    rwa [Mmu.loaded, htouch.cr3]
  have hgone := ((destroy_confined hclean hstill).1 _ hrunning).2 page huser
  have hkept := (hconfined.1 k.currentTask h.running (Ne.symm hother)).2 page huser
  rw [show (k.tasks k.currentTask).cr3 = k.mmu.loaded from h.loaded.symm] at hkept
  have hunmapped : userMapping k.mmu k.mmu.loaded page = none := by
    rw [← hkept.1, hgone.1]
    exact hnone page hpage
  rw [Bool.eq_false_iff, ne_eq, userPageMapped_iff, hunmapped]
  simp

/-- Killing another task is confined to that task exactly when the running task has nothing
mapped at the page addresses of the killed program. -/
theorem kill_confined_iff :
    k.KillConfined pid victim ↔
      ∀ page ∈ (k.tasks victim).program.pages, userPageMapped page k.mmu = false := by
  refine ⟨Scheduler.KillConfined.unmapped h hpid hfind hother, fun hunmapped => ?_⟩
  obtain ⟨others, held, hspaces, hothers, -, hloaded⟩ := h.without_victim hfind hother
  rw [Scheduler.KillConfined, schedulerKill_mmu hpid hfind, cleanupProgramPages, unmapPages_unmapped hunmapped]
  obtain ⟨hsame, hreturned⟩ := destroy_confined hspaces hloaded
  exact ⟨fun j hj hne => hsame _ (hothers j hj hne), hreturned⟩

end Confined

/-- A slot that has never been used. -/
def unusedTask : Task where
  pid := 0
  active := false
  workspaceId := 0
  cr3 := 0
  gsBase := 0
  kernelGsBase := 0
  linuxAbi := false
  fsContextValid := false
  drive := 0
  cwd := ""
  frame := 0
  linuxContext := ⟨fun _ => ⟨false, false, false, false, false, false, 0, ""⟩, 0, 0, 0⟩
  program := ⟨[], no_regions, 0, 0, no_stack⟩
  fpuState := fun _ => 0

/-- A program of one page at 0x400000. -/
def onePageProgram : ProgramMemory :=
  ⟨[⟨0x400000, 0x401000, one_page_below⟩], one_region, 0, 0, no_stack⟩

/-- The shell, running in the boot address space, and one other task with pid 2. -/
def twoTasks (mmu : Mmu) : Scheduler where
  tasks := fun i =>
    if i = 0 then { unusedTask with active := true, cr3 := 0x1000 }
    else if i = 1 then
      { unusedTask with pid := 2, active := true, cr3 := 0x100000, program := onePageProgram }
    else unusedTask
  currentTask := 0
  nextPid := 3
  mmu := mmu

/-- The small machine once a second address space has been created. -/
def twoSpaces : Mmu := (createUserPml4 smallMemmap smallMachine).2

/-- The two address spaces are accounted for. -/
theorem twoSpaces_spaces :
    Spaces smallMemmap (bootFrames smallMemmap_ok smallMachine_boot) twoSpaces
      {(4, 0x100000), (4, 0x1000)} 0 := by
  have hboot := BootState.spaces smallMemmap_ok smallMachine_boot
  have hcall : createUserPml4 smallMemmap smallMachine = (0x100000, twoSpaces) := Prod.ext (by decide) rfl
  have hdone := (hboot.createUserPml4 (mem_add.mpr (.inl (pml4_mem_forestFrames (mem_singleton_self _))))
    (hboot.kernel _ (mem_singleton_self _)) hcall (by decide)).1
  have hloaded : smallMachine.loaded = 0x1000 := by decide
  rwa [hloaded] at hdone

theorem twoTasks_sound {mmu : Mmu} {held : Multiset Word} {all : FrameSet}
    (h : Spaces smallMemmap all mmu {(4, 0x100000), (4, 0x1000)} held)
    (hloaded : mmu.loaded = 0x1000) : (twoTasks mmu).Sound smallMemmap all := by
  have hforest : (twoTasks smallMachine).forest = {(4, 0x100000), (4, 0x1000)} := by decide
  change (twoTasks mmu).forest = _ at hforest
  exact ⟨⟨0, held, by rwa [hforest, add_zero]⟩, rfl, hloaded⟩

/-- The small machine once a page has been mapped in an address space. -/
def withPage (root virtAddr : Word) (s : Mmu) : Mmu :=
  let (frame, s) := pmmAllocZeroedPage smallMemmap { s with cr3 := root }
  mapUserPage smallMemmap virtAddr frame s

/-- The page is mapped, and everything else is as before. -/
theorem withPage_spaces {all : FrameSet} {forest : Forest} {held : Multiset Word} {s : Mmu}
    (h : Spaces smallMemmap all s forest held) (root v : Word) (hroot : (4, root) ∈ forest) (hv : v < 0x800000000000)
    (hloaded : (pmmAllocZeroedPage smallMemmap { s with cr3 := root }).2.loaded = root)
    (hram : (pmmAllocZeroedPage smallMemmap { s with cr3 := root }).2.outOfRam = false)
    (hdone : (withPage root v s).outOfRam = false) :
    (∃ held', Spaces smallMemmap all (withPage root v s) forest held') ∧
      (userMapping (withPage root v s) root v).isSome ∧ ∀ space w, (4, space) ∈ forest →
        w < 0x800000000000 → ¬ SamePage root v space w →
          userMapping (withPage root v s) space w = userMapping s space w := by
  rcases hcall : pmmAllocZeroedPage smallMemmap { s with cr3 := root } with ⟨frame, t⟩
  rw [hcall] at hloaded hram
  have hwith : withPage root v s = mapUserPage smallMemmap v frame t := by rw [withPage, hcall]
  rw [hwith] at hdone ⊢
  obtain ⟨htaken, hkeeps, -⟩ := (h.withCr3 root).pmmAllocZeroedPage hcall hram
  obtain ⟨hspaces, htouch, hpage⟩ := htaken.mapUserPage (hloaded.symm ▸ hroot) hv hdone
  rw [hloaded] at htouch hpage
  exact ⟨⟨_, hspaces⟩, Option.isSome_iff_exists.mpr ⟨_, hpage⟩, fun space w hspace hw hne =>
    (htouch.untouched space hspace w hw hne).1.trans (hkeeps.untouched space hspace w hw id).1⟩

/-- The other task has a page at 0x400000 and the shell one at 0x800000. -/
def bothMapped : Mmu := withPage 0x1000 0x800000 (withPage 0x100000 0x400000 twoSpaces)

/-- The shell kills a task while each of them has a page mapped. -/
theorem kill_confined_apart : (userMapping bothMapped 0x1000 0x800000).isSome ∧
    (userMapping bothMapped 0x100000 0x400000).isSome ∧ (twoTasks bothMapped).KillConfined 2 1 := by
  obtain ⟨⟨_, hother⟩, hpage, hkept⟩ := withPage_spaces twoSpaces_spaces 0x100000 0x400000
    (by decide) (by decide) (by decide) (by decide) (by decide)
  obtain ⟨⟨_, hboth⟩, hshell, hsame⟩ := withPage_spaces hother 0x1000 0x800000
    (by decide) (by decide) (by decide) (by decide) (by decide)
  refine ⟨hshell, ?_, (kill_confined_iff (twoTasks_sound hboth (by decide)) (by decide) (by decide)
    (by decide)).mpr (List.forall_mem_singleton.mpr ?_)⟩
  · exact (hsame 0x100000 0x400000 (by decide) (by decide) (not_and_of_not_left _ (by decide))).symm ▸ hpage
  · rw [← Bool.not_eq_true, userPageMapped_iff, Option.not_isSome_iff_eq_none]
    exact (hsame _ _ (by decide) (by decide) (not_and_of_not_right _ (by decide))).trans
      ((hkept _ _ (by decide) (by decide) (not_and_of_not_left _ (by decide))).trans (by decide))

/-- The small machine once the running task has mapped a frame at 0x400000. -/
def callerMapped : Mmu := withPage 0x1000 0x400000 twoSpaces

/-- The shell kills a task while it has a page mapped at an address of the killed program: the
kill is not confined to that task. -/
theorem kill_unmaps_caller :
    (twoTasks callerMapped).Sound smallMemmap (bootFrames smallMemmap_ok smallMachine_boot) ∧
      (twoTasks callerMapped).findTask 2 = some 1 ∧
      userPageMapped 0x400000 callerMapped = true ∧ ¬ (twoTasks callerMapped).KillConfined 2 1 := by
  obtain ⟨⟨_, hspaces⟩, hmapped, -⟩ := withPage_spaces twoSpaces_spaces 0x1000 0x400000
    (by decide) (by decide) (by decide) (by decide) (by decide)
  have hsound := twoTasks_sound hspaces (by decide)
  have hpage : userPageMapped 0x400000 callerMapped = true := userPageMapped_iff.mpr hmapped
  refine ⟨hsound, by decide, hpage, fun hconfined => ?_⟩
  have hunmapped : userPageMapped 0x400000 callerMapped = false :=
    hconfined.unmapped hsound (by decide) (by decide) (by decide) 0x400000 (by decide)
  rw [hpage] at hunmapped
  cases hunmapped

/-!
## User memory requests

The system calls through which a running program asks for pages: `MAP_USER_MEMORY` of the
native calls, and `brk` and `mmap` of the Linux ones. Addresses and lengths are natural
numbers below 2^64; behind the checks of the source no sum of them leaves that range,
except where a hint is rounded up.
-/

open Exec

/-- `USER_MEMORY_MAX_SIZE`. -/
def userMemoryMaxSize : ℕ := 16 * 1024 * 1024

/-- `USER_HEAP_BASE`. -/
def userHeapBase : ℕ := 0x0000600000000000

/-- `USER_MMAP_BASE`. -/
def userMmapBase : ℕ := 0x0000700000000000

/-- `USER_MMAP_LIMIT`. -/
def userMmapLimit : ℕ := 0x00007F0000000000

/-- `valid_user_memory_range`, with the length rounded up to pages. -/
def validUserMemoryRange (address length : ℕ) : Option ℕ :=
  if address = 0 ∨ userAddressLimit.toNat ≤ address ∨ length = 0 ∨ userMemoryMaxSize < length ∨
      address % pageSize ≠ 0 ∨ userAddressLimit.toNat - address < length then none
  else if alignUpPage length < length ∨ userAddressLimit.toNat - address < alignUpPage length then none
  else some (alignUpPage length)

/-- The arguments that `protect_user_page` gets besides the address. -/
structure Access where
  present : Bool
  writeAccess : Bool
  executeAccess : Bool
  deriving DecidableEq

/-- The access that a permission word asks for. -/
def Access.ofWord (permissions : Word) : Access :=
  ⟨permissions ≠ 0, permissions &&& 2 ≠ 0, permissions &&& 4 ≠ 0⟩

/-- Unmap pages one after the other, mapped or not. -/
def unmapUserPages (pages : List Word) (s : Mmu) : Mmu :=
  pages.foldl (fun s page => (unmapUserPage page s).2) s

/-- Whether a page of the range is mapped. -/
def rangeMapped (start stop : ℕ) (s : Mmu) : Bool :=
  (pageAddresses start stop).any fun page => userPageMapped page s

/-- The page loop of `native_user_memory_map` and `linux_map_memory`: every page is allocated, mapped,
filled and given its permissions; when a page fails, it and the ones before are unmapped. -/
def mapUserPages (memmap : List MemmapEntry) (load : Word → Word → Mmu → Option Mmu) (access : Access) :
    List Word → List Word → Mmu → Bool × Mmu
  | _, [], s => (true, s)
  | done, page :: rest, s =>
    let (physical, s) := pmmAllocZeroedPage memmap s
    let s := mapUserPage memmap page physical s
    match load page physical s with
    | none => (false, unmapUserPages (done ++ [page]) s)
    | some s =>
      match protectUserPage page access.present access.writeAccess access.executeAccess s with
      | (true, s) => mapUserPages memmap load access (done ++ [page]) rest s
      | (false, s) => (false, unmapUserPages (done ++ [page]) s)

/-- `native_user_memory_map`: the address, or no result for -1. -/
def nativeUserMemoryMap (memmap : List MemmapEntry) (address length : ℕ) (permissions : Word) (s : Mmu) :
    Option ℕ × Mmu :=
  if permissions &&& ~~~7 ≠ 0 then (none, s)
  else match validUserMemoryRange address length with
    | none => (none, s)
    | some rounded =>
      if rangeMapped address (address + rounded) s then (none, s)
      else match mapUserPages memmap (fun _ _ s => some s) (.ofWord permissions) []
          (pageAddresses address (address + rounded)) s with
        | (true, s) => (some address, s)
        | (false, s) => (none, s)

/-- `LINUX_SYS_BRK`: the break afterwards. -/
def linuxBrk (memmap : List MemmapEntry) (address : ℕ) (context : LinuxContext) (s : Mmu) :
    ℕ × LinuxContext × Mmu :=
  if address = 0 ∨ address < context.heapStart ∨ userMmapBase - pageSize ≤ address then
    (context.programBreak, context, s)
  else
    let oldEnd := alignUpPage context.programBreak
    let newEnd := alignUpPage address
    if oldEnd < newEnd then
      if rangeMapped oldEnd newEnd s then (context.programBreak, context, s)
      else (address, { context with programBreak := address },
        (pageAddresses oldEnd newEnd).foldl (fun s page =>
          let (physical, s) := pmmAllocZeroedPage memmap s
          mapUserPage memmap page physical s) s)
    else (address, { context with programBreak := address },
      unmapUserPages (pageAddresses newEnd oldEnd) s)

/-- `get_file_descriptor`. -/
def getFileDescriptor (context : LinuxContext) (fd : ℕ) : Option LinuxFd :=
  if h : fd < 32 then
    if (context.fileDescriptors ⟨fd, h⟩).isOpen then some (context.fileDescriptors ⟨fd, h⟩) else none
  else none

/-- `LINUX_MAP_SHARED`. -/
def linuxMapShared : Word := 0x01

/-- `LINUX_MAP_PRIVATE`. -/
def linuxMapPrivate : Word := 0x02

/-- `LINUX_MAP_FIXED`. -/
def linuxMapFixed : Word := 0x10

/-- `LINUX_MAP_ANON`. -/
def linuxMapAnon : Word := 0x20

/-- The checks of `linux_map_memory` on its arguments: the error number, or nothing. -/
def mmapError (address length : ℕ) (protection flags : Word) (fd : Option LinuxFd) (offset : ℕ) :
    Option ℕ :=
  let sharing := flags &&& (linuxMapPrivate ||| linuxMapShared)
  let anonymous := flags &&& linuxMapAnon ≠ 0
  let fixed := flags &&& linuxMapFixed ≠ 0
  if length = 0 ∨ 16 * 1024 * 1024 < length ∨ userAddressLimit.toNat - pageSize < length ∨
      sharing = 0 ∨ sharing = linuxMapPrivate ||| linuxMapShared then some 22
  else if ¬ anonymous ∧ fd.all (fun fd =>
      !fd.isOpen || !fd.readable || fd.isTerminal || decide (offset % pageSize ≠ 0)) then some 9
  else if flags &&& linuxMapShared ≠ 0 ∧ ¬ anonymous then some 38
  else if protection &&& ~~~7 ≠ 0 then some 22
  else if alignUpPage length < length then some 12
  else if ¬ anonymous ∧ 2 ^ 64 - 1 - alignUpPage length < offset then some 75
  else if fixed ∧ (address % pageSize ≠ 0 ∨ address < pageSize ∨ userMmapLimit ≤ address ∨
      userMmapLimit - address < alignUpPage length) then some 22
  else none

/-- The search of `linux_map_memory` for a range without mapped pages, in steps of its length. -/
def findUnmapped (s : Mmu) (mapLength address : ℕ) : ℕ :=
  if 0 < mapLength ∧ address < userMmapLimit ∧ mapLength ≤ userMmapLimit - address ∧
      rangeMapped address (address + mapLength) s then findUnmapped s mapLength (address + mapLength)
  else address
termination_by userMmapLimit - address

/-- Where the search for a range starts: at the hint if it is usable, else at the cursor. -/
def mmapHint (context : LinuxContext) (address mapLength : ℕ) : ℕ :=
  let hint := alignUpPage address % 2 ^ 64
  if hint < userMmapBase ∨ userMmapLimit ≤ hint ∨ userMmapLimit - hint < mapLength then
    alignUpPage context.mmapCursor % 2 ^ 64
  else hint

/-- How `linux_map_memory` fills a page: with a part of the file, or not at all. -/
def mmapLoad (fs : FileReads) (flags : Word) (fd : Option LinuxFd) (address offset : ℕ) (page physical : Word)
    (s : Mmu) : Option Mmu :=
  if flags &&& linuxMapAnon ≠ 0 then some s
  else (fs.fsReadRawAt ((fd.map fun fd => fd.path.toUTF8.toList).getD [])
    (offset + (page.toNat - address)) pageSize).map fun bytes => s.putBytes physical (bytes.take pageSize)

/-- `linux_map_memory`: the address, or the error number. -/
def linuxMapMemory (memmap : List MemmapEntry) (fs : FileReads) (requested length : ℕ)
    (protection flags : Word) (fd : Option LinuxFd) (offset : ℕ) (context : LinuxContext) (s : Mmu) :
    Except ℕ ℕ × LinuxContext × Mmu :=
  match mmapError requested length protection flags fd offset with
  | some e => (.error e, context, s)
  | none =>
    let mapLength := alignUpPage length
    let fixed := flags &&& linuxMapFixed ≠ 0
    let address := if fixed then requested
      else findUnmapped s mapLength (mmapHint context requested mapLength)
    if ¬ fixed ∧ (userMmapLimit ≤ address ∨ userMmapLimit - address < mapLength) then
      (.error 12, context, s)
    else
      let pages := pageAddresses address (address + mapLength)
      if ¬ fixed ∧ rangeMapped address (address + mapLength) s then (.error 22, context, s)
      else
        let s := if fixed then unmapUserPages pages s else s
        match mapUserPages memmap (mmapLoad fs flags fd address offset) (.ofWord protection) [] pages s with
        | (true, s) =>
          (.ok address, if fixed then context else { context with mmapCursor := address + mapLength }, s)
        | (false, s) => (.error 22, context, s)

/-- `LINUX_SYS_MMAP`. -/
def linuxMmap (memmap : List MemmapEntry) (fs : FileReads) (requested length : ℕ) (protection flags : Word)
    (fd offset : ℕ) (context : LinuxContext) (s : Mmu) : Except ℕ ℕ × LinuxContext × Mmu :=
  let file := if flags &&& linuxMapAnon = 0 then getFileDescriptor context fd else none
  linuxMapMemory memmap fs requested length protection flags file offset context s

/-!
## File descriptors

`linux_open_file` over the calls of the file system that it makes. It creates or truncates the file
before it looks for a free descriptor, so an error does not always mean that nothing has happened.
Paths come from buffers of the size of `path` in a descriptor and are never cut.
-/

/-- The calls of the file system behind the descriptors, on states of type `W`. -/
structure FileCalls (W : Type) where
  fsGetInfo : String → W → Option (ℕ × Bool) × W
  fsCreate : String → W → Bool × W
  fsWriteBytes : String → List UInt8 → W → Bool × W

/-- `LINUX_O_WRONLY | LINUX_O_RDWR`. -/
def linuxOWrite : Word := 0x0003

/-- `LINUX_O_CREAT`. -/
def linuxOCreat : Word := 0x0040

/-- `LINUX_O_TRUNC`. -/
def linuxOTrunc : Word := 0x0200

variable {W : Type} (fs : FileCalls W) (context : LinuxContext) (path : String) (flags : Word) (w : W)

/-- The file part of `linux_open_file`: look the file up, create or truncate it, and apply the rules
for directories. The size and the kind of the file, or the number of the error. -/
def openTarget : Except ℕ (ℕ × Bool) × W :=
  match fs.fsGetInfo path w with
  | (none, w) =>
    if flags &&& linuxOCreat = 0 then (.error 2, w)
    else match fs.fsCreate path w with
      | (true, w) => (.ok (0, false), w)
      | (false, w) => (.error 13, w)
  | (some (fileSize, isDir), w) =>
    if flags &&& linuxOTrunc ≠ 0 then
      if flags &&& linuxOWrite = 0 ∨ isDir then (.error (if isDir then 21 else 13), w)
      else match fs.fsWriteBytes path [] w with
        | (true, w) => (.ok (0, isDir), w)
        | (false, w) => (.error 13, w)
    else if isDir ∧ flags &&& linuxOWrite ≠ 0 then (.error 21, w)
    else (.ok (fileSize, isDir), w)

/-- The lowest descriptor that is not open. -/
def freeDescriptor : Option (Fin 32) :=
  (List.finRange 32).find? fun fd => !(context.fileDescriptors fd).isOpen

/-- `linux_open_file`: the descriptor or the number of the error. `is_terminal` stays as it was. -/
def linuxOpenFile : Except ℕ (Fin 32) × LinuxContext × W :=
  match openTarget fs path flags w with
  | (.error number, w) => (.error number, context, w)
  | (.ok (fileSize, isDir), w) =>
    match freeDescriptor context with
    | none => (.error 24, context, w)
    | some fd =>
      let append := decide (flags &&& 0x0400 ≠ 0)
      let entry : LinuxFd := { context.fileDescriptors fd with
        isOpen := true, readable := flags &&& 1 = 0, writable := flags &&& linuxOWrite ≠ 0,
        append, isDir, offset := if append then fileSize else 0, path }
      (.ok fd, { context with fileDescriptors := Function.update context.fileDescriptors fd entry }, w)

/-- What the calls do to the contents of a file system: a lookup changes nothing, a file that was
created was not there before, and the truncation of a file is a change unless the file is empty. -/
structure FileCalls.Lawful : Prop where
  lookup : ∀ path w, (fs.fsGetInfo path w).2 = w
  create : ∀ path w, (fs.fsGetInfo path w).1 = none → (fs.fsCreate path w).1 = true →
    (fs.fsCreate path w).2 ≠ w
  truncate : ∀ path w fileSize, (fs.fsGetInfo path w).1 = some (fileSize, false) →
    (fs.fsWriteBytes path [] w).1 = true → ((fs.fsWriteBytes path [] w).2 = w ↔ fileSize = 0)

variable {fs context path flags w}

end Windoge.Kernel
