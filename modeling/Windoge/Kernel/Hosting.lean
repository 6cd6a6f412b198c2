import Windoge.Exec.Launch
import Windoge.Kernel.Machine

/-!
# Spawning and killing seen from the frames

The memory manager while the shell runs in an address space without mappings. Loading the
small executable into a new address space takes at most 37 frames, and destroying that
address space gives them back, so that this can be done again and again.
-/

namespace Windoge.Kernel

open Paging FrameTree Exec Multiset

/-- The shell's address space is loaded and empty, and the other frames in use are accounted for. -/
structure Idle (memmap : List MemmapEntry) (all : FrameSet) (shell : Word) (held : Multiset Word)
    (s : Mmu) : Prop where
  spaces : Spaces memmap all s 0 (shell ::ₘ held)
  lower : ∀ i : Fin 512, i.val < 256 → s.mem shell i = 0
  kernel : KernelHalf s shell
  loaded : s.loaded = shell
  ram : s.outOfRam = false

/-- Besides the shell's address space there is another one. -/
structure Hosting (memmap : List MemmapEntry) (all : FrameSet) (shell : Word) (held : Multiset Word)
    (pml4 : Word) (start s : Mmu) : Prop where
  spaces : Spaces memmap all s {(4, pml4)} (shell ::ₘ held)
  kept : ∀ frame ∈ shell ::ₘ held, s.mem frame = start.mem frame
  loaded : s.loaded = shell
  ram : s.outOfRam = false

variable {memmap : List MemmapEntry} {all : FrameSet} {shell pml4 : Word} {held : Multiset Word}
  {start s : Mmu} {queue : List Word} {room : ℕ}

namespace Idle

theorem isFrame (h : Idle memmap all shell held s) : IsFrame shell :=
  h.spaces.balanced.fits.isFrame (mem_add.mpr (.inr (mem_cons_self _ _)))

theorem upcoming (h : Idle memmap all shell held s) :
    ∃ queue, s.Upcoming memmap queue ∧ queue.length + held.card + 1 = all.frames.card := by
  obtain ⟨queue, hup⟩ := h.spaces.balanced.exists_upcoming
  refine ⟨queue, hup, ?_⟩
  rw [← h.spaces.balanced.upcoming hup]
  have hnone : forestFrames pageFormat s.mem 0 = 0 := rfl
  rw [hnone, zero_add, card_add, card_cons, coe_card]
  omega

theorem unmapped (h : Idle memmap all shell held s) {virtAddr : Word}
    (hvirt : virtAddr < 0x800000000000) : userPageMapped virtAddr s = false := by
  have hempty : ∀ i ∈ lowerHalf, pageFormat.child 3 (s.mem shell i) = none := by
    intro i hi
    rw [h.lower i (mem_lowerHalf.mp hi)]
    exact child_zero (by decide)
  rw [Bool.eq_false_iff, ne_eq, userPageMapped_iff, h.loaded, (empty_space hempty).2 virtAddr hvirt]
  simp

end Idle

/-- A new address space, and what it leaves alone. -/
theorem Idle.create (h : Idle memmap all shell held s) (hup : s.Upcoming memmap queue)
    (hroom : room + 1 ≤ queue.length) :
    ∃ pml4 s', createUserPml4 memmap s = (pml4, s') ∧ IsFrame pml4 ∧ s'.loaded = shell ∧
      Loading memmap all pml4 (shell ::ₘ held) s room ∅ (switchUserPml4 pml4 s') := by
  obtain ⟨frame, rest, rfl⟩ := List.exists_cons_of_length_pos (by omega : 0 < queue.length)
  obtain ⟨t, halloc, hallocRam, -⟩ := h.spaces.balanced.alloc_upcoming h.ram hup
  cases hcall : createUserPml4 memmap s with
  | mk pml4 s' =>
  have hram : s'.outOfRam = false := by
    rw [createUserPml4, halloc] at hcall
    dsimp only at hcall
    split_ifs at hcall
    all_goals
      cases hcall
      exact hallocRam
  obtain ⟨hspaces, htouches, hframes, hnone⟩ := h.spaces.createUserPml4
    (mem_add.mpr (.inr (h.loaded ▸ mem_cons_self _ _))) (h.loaded ▸ h.kernel) hcall hram
  have hframe := hspaces.balanced.fits.isFrame (mem_add.mpr (.inl (pml4_mem_forestFrames (mem_cons_self _ _))))
  obtain ⟨queue', hup'⟩ := hspaces.balanced.exists_upcoming
  refine ⟨pml4, s', rfl, hframe, (loaded_congr htouches.cr3).trans h.loaded, ?_⟩
  rw [switchUserPml4, if_pos hframe.1]
  refine ⟨hspaces.withCr3 _, ?_, hram, ⟨queue', hup', ?_⟩, htouches.held, ?_⟩
  · change pml4 &&& ~~~pageOffsetMask &&& ~~~pageOffsetMask = pml4
    rw [hframe.aligned, hframe.aligned]
  · -- the PML4 is the only frame that was taken
    have hbefore := congrArg card (h.spaces.balanced.upcoming hup)
    have hafter := congrArg card (hspaces.balanced.upcoming hup')
    rw [forestFrames_cons, hframes] at hafter
    simp [forestFrames] at hbefore hafter hroom
    omega
  · intro page _ hlimit _
    exact hnone _ (ofNat_user hlimit)

/-- The small executable is loaded into a new address space, which the shell then hosts. -/
theorem Idle.load (h : Idle memmap all shell held s) (hup : s.Upcoming memmap queue)
    (hroom : room + 37 ≤ queue.length) :
    ∃ pml4 s₁ loaded s₂ queue', createUserPml4 memmap s = (pml4, s₁) ∧ pml4 ≠ 0 ∧ s₁.loaded = shell ∧
      systemLoadElfArgs memmap (tinyReads 0) (some tinyName) tinySize 0 none
        ⟨switchUserPml4 pml4 s₁, noProgram⟩ = .ok loaded ⟨s₂, tinyProgram⟩ ∧
      Hosting memmap all shell held pml4 s (switchUserPml4 shell s₂) ∧
      (switchUserPml4 shell s₂).Upcoming memmap queue' ∧ room ≤ queue'.length := by
  obtain ⟨pml4, s₁, hcreate, hframe, hloaded, hloading⟩ := @Idle.create memmap all shell held s queue
    (room + 36) h hup (by omega)
  obtain ⟨loaded, s₂, mapped, hload, hdone⟩ := hloading.tinyFile 0
  obtain ⟨queue', hup', hleft⟩ := hdone.upcoming
  refine ⟨pml4, s₁, loaded, s₂, queue', hcreate, hframe.1, hloaded, hload, ?_⟩
  rw [switchUserPml4, if_pos h.isFrame.1]
  refine ⟨⟨hdone.spaces.withCr3 _, hdone.kept, ?_, hdone.ram⟩, hup', hleft⟩
  change shell &&& ~~~pageOffsetMask &&& ~~~pageOffsetMask = shell
  rw [h.isFrame.aligned, h.isFrame.aligned]

/-- Destroying an address space does not touch the out-of-memory report. -/
theorem destroyUserPml4_outOfRam (pml4 : Word) (s : Mmu) : (destroyUserPml4 pml4 s).outOfRam = s.outOfRam := by
  have hfree (frame : Word) (t : Mmu) : (pmmFreePage frame t).outOfRam = t.outOfRam :=
    (registers_eq_iff.mp (pmmFreePage_registers frame t)).2.2.2.2
  unfold destroyUserPml4
  dsimp only
  split_ifs
  · rfl
  · rw [hfree]
    rw [cleanupUserPages_outOfRam]
  · rw [hfree, cleanupUserPages_outOfRam]

namespace Hosting

section

variable (h : Hosting memmap all shell held pml4 start s) (hstart : Idle memmap all shell held start)
include h hstart

/-- The frames of the other address space counted as held. -/
theorem idle : Idle memmap all shell (frames pageFormat s.mem 4 pml4 + held) s := by
  have hshell := h.kept shell (mem_cons_self _ _)
  refine ⟨⟨?_, fun top htop => absurd htop (notMem_zero _), fun root hroot => absurd hroot
    (notMem_zero _)⟩, ?_, ?_, h.loaded, h.ram⟩
  · refine h.spaces.balanced.regroup ?_
    have hnone : forestFrames pageFormat s.mem 0 = 0 := rfl
    rw [forestFrames_singleton, hnone, zero_add, add_cons]
  · intro i hi
    rw [hshell]
    exact hstart.lower i hi
  · intro i hi
    rw [hshell]
    exact hstart.kernel i hi

/-- Destroying the other address space brings the shell back to where it was. -/
theorem destroy (program : ProgramMemory) :
    Idle memmap all shell held (destroyUserPml4 pml4 (cleanupProgramPages program s)) := by
  have hidle := h.idle hstart
  have hclean : cleanupProgramPages program s = s :=
    Spaces.unmapPages_unmapped fun page hpage => hidle.unmapped (program.pages_user page hpage)
  have hne : s.loaded ≠ pml4 := by
    rw [h.loaded]
    rintro rfl
    exact (Spaces.apart h.spaces.balanced
      (follow_mem_frames (follow_nil.trans (child_cr3 shell)))).2 (mem_cons_self _ _)
  obtain ⟨hdone, hmem, hloaded, -⟩ := Spaces.destroyUserPml4
    (h.spaces : Spaces memmap all s ((4, pml4) ::ₘ 0) (shell ::ₘ held)) hne
  have hshell : (destroyUserPml4 pml4 s).mem shell = start.mem shell :=
    (hmem shell (mem_add.mpr (.inr (mem_cons_self _ _)))).trans (h.kept shell (mem_cons_self _ _))
  rw [hclean]
  refine ⟨hdone, ?_, ?_, hloaded.trans h.loaded, ?_⟩
  · intro i hi
    rw [hshell]
    exact hstart.lower i hi
  · intro i hi
    rw [hshell]
    exact hstart.kernel i hi
  · rw [destroyUserPml4_outOfRam, h.ram]

end

end Hosting

/-!
## The pid counter comes round

A run that keeps one task alive and starts and kills others until the 32-bit pid counter
has come round: the next task gets the pid of the first one. A kill of that pid then stops
whichever of the two is in the lower slot.
-/

open Handles Function Scheduler Machine Option Prod

/-- A machine with eighty usable frames. -/
def roomyMemmap : List MemmapEntry := [⟨0x100000, 0x50000, limineMemmapUsable⟩]

theorem roomyMemmap_ok : MemmapOk roomyMemmap := by
  constructor <;> simp [roomyMemmap]

theorem roomyMachine_boot : BootState roomyMemmap smallMachine := by
  constructor
  · rfl
  · rfl
  · rfl
  · rfl
  · exact isFrame_ofNat (by decide : 0 < 0x1000) (by decide) (by decide)
  · decide
  · exact fun i _ => rfl
  · exact fun i _ => (by decide : isUserTable 0 = false)

/-- The frames of the machine. -/
def roomyFrames : FrameSet := bootFrames roomyMemmap_ok roomyMachine_boot

theorem roomyFrames_card : roomyFrames.frames.card = 81 := by decide

/-- A file system with one executable, and a screen that shows nothing. -/
def tinyOps : KernelOps Unit where
  memmap := roomyMemmap
  fsDirname _ := some "c:/"
  fsCurrentDrive _ := 0
  fsSelectDrive _ _ := (0, ())
  fsChdir _ _ := (0, ())
  fsGetInfo _ _ := (some (tinySize, false), ())
  reads _ := tinyReads 0
  menubarDraw := id
  kernelStackTop _ := 0
  frameSize := 0
  userKernelGsBase := 0

/-- A blank screen. -/
def blankConsole : Console := ⟨fun _ => 32, fun _ => 0, fun _ => 0, 0, 1, 0, 0, 0, 0, false, false⟩

/-- The machine after `scheduler_init`: the shell runs. -/
def shellMachine : Machine Unit where
  scheduler := {
    tasks := fun i => if i = 0 then { unusedTask with active := true, cr3 := 0x1000 } else unusedTask
    currentTask := 0
    nextPid := 2
    mmu := smallMachine }
  linuxAbi := false
  linuxContext := initialLinuxContext
  gsBase := 0
  kernelGsBase := 0
  fpu := fun _ => 0
  isrFpuTemp := fun _ => 0
  kernelStack := 0
  screen := blankConsole
  renderEnabled := true
  workspaces := fun _ => blankConsole
  currentTerminal := 0
  renderedWorkspace := some 0
  switchRequested := false
  fs := ()
  frames := fun _ => ⟨0, 0, 0, 0, 0, 0, 0, 0⟩

/-- The shell starts the executable. -/
def tinySpawn : Event Unit := .spawn tinyName 0 none 0

/-- The shell runs, other frames in use are the given ones, and a pid is to come. -/
structure ShellRuns (held : Multiset Word) (nextPid : ℕ) (m : Machine Unit) : Prop where
  current : m.scheduler.currentTask = 0
  idle : Idle roomyMemmap roomyFrames 0x1000 held m.scheduler.mmu
  next : m.scheduler.nextPid = nextPid

/-- The machine at the start. -/
theorem shellMachine_runs : ShellRuns 0 2 shellMachine := by
  refine ⟨rfl, ⟨⟨⟨[], rfl, ?_⟩, fun top htop => absurd htop (notMem_zero _), fun root hroot =>
    absurd hroot (notMem_zero _)⟩, fun i _ => rfl, roomyMachine_boot.kernel, by decide, rfl⟩, rfl⟩
  change (0 : Multiset Word) + (0x1000 ::ₘ 0) + (([] : List Word) : Multiset Word) +
    (unallocated roomyMemmap 0 : Multiset Word) = 0x1000 ::ₘ (unallocated roomyMemmap 0 : Multiset Word)
  rw [zero_add, coe_nil, add_zero, cons_add, zero_add]

section Spawn

variable {Fs : Type} {ops : KernelOps Fs} {m : Machine Fs} {slot : Fin schedulerTaskLimit}

theorem prepareTask_mmu (workspaceId : ℕ) :
    (prepareTask ops slot workspaceId m).scheduler.mmu = m.scheduler.mmu ∧
      (prepareTask ops slot workspaceId m).scheduler.currentTask = m.scheduler.currentTask ∧
      (prepareTask ops slot workspaceId m).fs = m.fs := by
  unfold prepareTask saveFsContext
  split
  · exact ⟨rfl, rfl, rfl⟩
  · split_ifs
    · exact ⟨rfl, rfl, rfl⟩
    · exact ⟨rfl, rfl, rfl⟩

theorem restoreFsContext_scheduler (task : Task) : (restoreFsContext ops task m).scheduler = m.scheduler := by
  unfold restoreFsContext
  split_ifs
  · dsimp only
    split_ifs <;> rfl
  · rfl

/-- A spawn whose program is loaded. -/
theorem spawnInto_loaded {path : List UInt8} {argc : ℤ} {argv : Option Argv} {fileSize : ℕ} {fs : Fs}
    {pml4 : Word} {mmu : Mmu} {loaded : LoadedProgram} {st : LoadState}
    (hinfo : ops.fsGetInfo path m.fs = (some (fileSize, false), fs))
    (hsize : fileSize ≠ 0 ∧ fileSize ≤ maxFlatBinarySize)
    (hcreate : createUserPml4 ops.memmap m.scheduler.mmu = (pml4, mmu)) (hpml4 : pml4 ≠ 0)
    (hload : systemLoadElfArgs ops.memmap (ops.reads fs) (some path) fileSize argc argv
      ⟨switchUserPml4 pml4 mmu, noProgram⟩ = .ok loaded st) :
    (spawnInto ops slot path argc argv m).2.scheduler.mmu = switchUserPml4 mmu.loaded st.mmu ∧
      (spawnInto ops slot path argc argv m).2.scheduler.currentTask = m.scheduler.currentTask ∧
      ((spawnInto ops slot path argc argv m).2.task slot).cr3 = pml4 ∧
      (spawnInto ops slot path argc argv m).1 = some m.scheduler.nextPid := by
  have hgood : ¬ (false = true ∨ fileSize = 0 ∨ maxFlatBinarySize < fileSize) := by
    rintro (hfalse | hzero | hlarge)
    · cases hfalse
    · exact hsize.1 hzero
    · omega
  have hloaded : loadTask ops slot path fileSize argc argv pml4 ({ m with fs := fs }.putMmu mmu) =
      (some loaded, (({ m with fs := fs }.putMmu mmu).putMmu (switchUserPml4 mmu.loaded st.mmu)).putTask
        slot { m.task slot with program := st.program }) := by
    unfold loadTask
    simp only [putMmu, hload]
    rfl
  rw [spawnInto, hinfo]
  dsimp only
  rw [if_neg hgood, hcreate]
  rw [if_neg hpml4, hloaded]
  refine ⟨rfl, rfl, ?_, rfl⟩
  dsimp only
  rw [startTask, task]
  simp [putTask, startedTask]

end Spawn

variable {m : Machine Unit}

/-- With 37 frames left the shell starts the executable. -/
theorem ShellRuns.spawn {nextPid room : ℕ} {slot : Fin schedulerTaskLimit} (h : ShellRuns held nextPid m)
    (hroom : room + held.card + 38 ≤ 81) (hfree : m.scheduler.freeTask = some slot) :
    ∃ pml4 queue, (tinySpawn.step tinyOps m).scheduler.currentTask = 0 ∧
      Hosting roomyMemmap roomyFrames 0x1000 held pml4 m.scheduler.mmu (tinySpawn.step tinyOps m).scheduler.mmu ∧
      (tinySpawn.step tinyOps m).scheduler.mmu.Upcoming roomyMemmap queue ∧ room ≤ queue.length ∧
      ((tinySpawn.step tinyOps m).task slot).cr3 = pml4 ∧
      (tinySpawn.step tinyOps m).pidState =
        (Function.update m.scheduler.pids slot (some nextPid), advancePid nextPid) := by
  obtain ⟨queue, hup, hcount⟩ := h.idle.upcoming
  rw [roomyFrames_card] at hcount
  obtain ⟨pml4, s₁, loaded, s₂, queue', hcreate, hpml4, hloaded, hload, hhosting, hup', hleft⟩ :=
    h.idle.load hup (by omega : room + 37 ≤ queue.length)
  obtain ⟨hmmu, hcurrent, hfs⟩ := @prepareTask_mmu _ tinyOps m slot 0
  have hcreate' : createUserPml4 tinyOps.memmap (prepareTask tinyOps slot 0 m).scheduler.mmu =
      (pml4, s₁) := by rw [hmmu]; exact hcreate
  obtain ⟨hmmu', hcurrent', hcr3, hpid⟩ := @spawnInto_loaded _ tinyOps (prepareTask tinyOps slot 0 m)
    slot tinyName 0 none tinySize () pml4 s₁ loaded ⟨s₂, tinyProgram⟩ rfl (by decide) hcreate' hpml4 hload
  have hstep : tinySpawn.step tinyOps m = restoreFsContext tinyOps
      (spawnInto tinyOps slot tinyName 0 none (prepareTask tinyOps slot 0 m)).2.scheduler.current
      (spawnInto tinyOps slot tinyName 0 none (prepareTask tinyOps slot 0 m)).2 := by
    change (schedulerSpawnElf tinyOps tinyName 0 none 0 m).2 = _
    rw [schedulerSpawnElf, if_neg (by decide), hfree]
  have hscheduler := congrArg scheduler hstep
  rw [restoreFsContext_scheduler] at hscheduler
  rw [hloaded] at hmmu'
  refine ⟨pml4, queue', ?_, ?_, ?_, hleft, ?_, ?_⟩
  · rw [hscheduler, hcurrent', hcurrent, h.current]
  · rwa [hscheduler, hmmu']
  · rwa [hscheduler, hmmu']
  · rwa [task, hscheduler]
  · have hresult : (schedulerSpawnElf tinyOps tinyName 0 none 0 m).1 ≠ none := by
      rw [schedulerSpawnElf, if_neg (by decide), hfree]
      rw [hpid]
      exact some_ne_none _
    rcases @roster_spawn _ tinyOps tinyName 0 none 0 m with ⟨hnone, -⟩ | ⟨taken, htaken, -, hcome⟩
    · exact absurd hnone hresult
    · cases htaken.symm.trans hfree
      rw [← h.next]
      exact congrArg Prod.snd hcome

/-- The slot a spawn takes, read off the table of pids. -/
theorem Scheduler.freeTask_eq (k : Scheduler) : k.freeTask =
    (List.finRange schedulerTaskLimit).find? fun i => i ≠ 0 && (k.pids i).isNone := by
  refine congrArg (fun p => (List.finRange schedulerTaskLimit).find? p) (funext fun i => ?_)
  by_cases hi : i = 0
  · simp [hi]
  · cases hactive : (k.tasks i).active with
    | false => simp [(pids_eq_none hi).mpr hactive]
    | true => simp [pids_eq_some.mpr ⟨hi, hactive, rfl⟩]

/-- The table of pids with one task. -/
def onePid : Fin schedulerTaskLimit → Option ℕ := Function.update (fun _ => none) 1 (some 2)

/-- One task runs besides the shell. -/
structure OneTask (held : Multiset Word) (nextPid : ℕ) (m : Machine Unit) : Prop where
  runs : ShellRuns held nextPid m
  room : held.card + 38 ≤ 81
  pids : m.scheduler.pids = onePid

theorem shellMachine_started : shellMachine.Started := by
  refine ⟨fun i hi => ?_, rfl⟩
  change (if i = 0 then { unusedTask with active := true, cr3 := 0x1000 } else unusedTask).active = _
  rw [if_neg hi]
  rfl

/-- The first spawn. -/
theorem firstSpawn : ∃ held, OneTask held 3 (tinySpawn.step tinyOps shellMachine) := by
  have hnone := funext shellMachine_started.pids_eq
  have hfree : shellMachine.scheduler.freeTask = some 1 := by
    rw [freeTask_eq, hnone]
    decide
  obtain ⟨pml4, queue, hcurrent, hhosting, hup, hleft, -, hstate⟩ :=
    @ShellRuns.spawn 0 shellMachine 2 43 1 shellMachine_runs (by decide) hfree
  obtain ⟨hpids, hnext⟩ := mk.inj hstate
  have hidle := hhosting.idle shellMachine_runs.idle
  refine ⟨_, ⟨hcurrent, hidle, hnext⟩, ?_, by rw [hpids, hnone]; rfl⟩
  obtain ⟨queue', hup', hcount⟩ := hidle.upcoming
  have hsame := Mmu.Available.unique ⟨queue', hup', rfl⟩ ⟨queue, hup, rfl⟩
  rw [roomyFrames_card] at hcount
  omega

namespace OneTask

variable {held : Multiset Word} {nextPid : ℕ} {m : Machine Unit}

theorem freeTask (h : OneTask held nextPid m) : m.scheduler.freeTask = some 2 := by
  rw [freeTask_eq, h.pids]
  decide

theorem spawn_pids (h : OneTask held nextPid m) :
    (tinySpawn.step tinyOps m).scheduler.pids = Function.update onePid 2 (some nextPid) := by
  have hroom := h.room
  obtain ⟨-, -, -, -, -, -, -, hstate⟩ := h.runs.spawn (by omega : 0 + held.card + 38 ≤ 81) h.freeTask
  rw [(mk.inj hstate).1, h.pids]

/-- A second task that is started and killed leaves everything as it was but the pid to come. -/
theorem pair (h : OneTask held nextPid m) (hzero : nextPid ≠ 0) (htwo : nextPid ≠ 2) :
    OneTask held (advancePid nextPid) (runEvents tinyOps [tinySpawn, .kill nextPid] m) := by
  have hroom := h.room
  obtain ⟨pml4, queue, hcurrent, hhosting, -, -, hcr3, hstate⟩ :=
    h.runs.spawn (by omega : 0 + held.card + 38 ≤ 81) h.freeTask
  obtain ⟨hpids, hnext⟩ := mk.inj hstate
  rw [h.pids] at hpids
  have hone : Distinct onePid := by
    refine (Step.come rfl fun i hi => ?_ : Step (fun _ => none) onePid).distinct fun i j pid hi => ?_
    · cases hi
    · cases hi
  have hdistinct : Distinct (tinySpawn.step tinyOps m).scheduler.pids := by
    rw [hpids]
    refine (Step.come rfl fun i hi => ?_ : Step onePid _).distinct hone
    rw [onePid, update_apply] at hi
    split_ifs at hi
    exact htwo (some.inj hi).symm
  have hfind := findTask_eq hdistinct (by rw [hpids, update_self])
  have hkill : (schedulerKill nextPid (tinySpawn.step tinyOps m).scheduler).2 =
      { (tinySpawn.step tinyOps m).scheduler with
        tasks := update (tinySpawn.step tinyOps m).scheduler.tasks 2
          { (tinySpawn.step tinyOps m).task 2 with active := false }
        mmu := destroyUserPml4 pml4 (cleanupProgramPages ((tinySpawn.step tinyOps m).task 2).program
          (tinySpawn.step tinyOps m).scheduler.mmu) } := by
    rw [schedulerKill, if_neg hzero, hfind, ← hcr3]
    rfl
  change OneTask held (advancePid nextPid) { tinySpawn.step tinyOps m with
    scheduler := (schedulerKill nextPid (tinySpawn.step tinyOps m).scheduler).2 }
  rw [hkill]
  refine ⟨⟨hcurrent, hhosting.destroy h.runs.idle _, hnext⟩, h.room, ?_⟩
  have hleave := (mk.inj (@pidState_deactivate _ (tinySpawn.step tinyOps m)
    (tinySpawn.step tinyOps m) rfl 2)).1
  refine hleave.trans ?_
  rw [hpids, update_idem]
  exact update_eq_self 2 onePid

end OneTask

/-- Tasks that are started and killed one after the other, the first of them with pid 3. -/
def rolloverPairs : ℕ → List (Event Unit)
  | 0 => []
  | count + 1 => rolloverPairs count ++ [tinySpawn, .kill (3 + count)]

/-- As long as the counter does not overflow, each of them has the next pid. -/
theorem OneTask.pairs (h : OneTask held 3 m) (count : ℕ) (hcount : 3 + count < 2 ^ 32) :
    OneTask held (3 + count) (runEvents tinyOps (rolloverPairs count) m) := by
  induction count with
  | zero => exact h
  | succ count ih =>
    have hnext : advancePid (3 + count) = 3 + (count + 1) := by
      rw [advancePid, Nat.mod_eq_of_lt (by omega), if_neg (by omega)]
      rfl
    rw [rolloverPairs, runEvents_append, ← hnext]
    exact (ih (by omega)).pair (by omega) (by omega)

theorem OneTask.rollover (h : OneTask held 3 m) {count : ℕ} (hcount : 3 + count + 1 = 2 ^ 32) :
    OneTask held 2 (runEvents tinyOps (rolloverPairs (count + 1)) m) := by
  have hnext : advancePid (3 + count) = 2 := by
    rw [advancePid, hcount]
    rfl
  rw [rolloverPairs, runEvents_append, ← hnext]
  exact (h.pairs count (by omega)).pair (by omega) (by omega)

/-- A task that is started then has the pid of the first one. -/
theorem not_distinctPids_of_rollover {count : ℕ} (hcount : 3 + count + 1 = 2 ^ 32) :
    ¬ (runEvents tinyOps (tinySpawn :: (rolloverPairs (count + 1) ++ [tinySpawn]))
      shellMachine).DistinctPids := by
  obtain ⟨held, hfirst⟩ := firstSpawn
  have hround := (hfirst.rollover hcount).spawn_pids
  rw [runEvents_cons, runEvents_append, runEvents_cons, runEvents_nil]
  intro hdistinct
  have hfirst : update onePid 2 (some 2) 1 = some 2 := rfl
  have hsecond : update onePid 2 (some 2) 2 = some 2 := rfl
  rw [← hround] at hfirst hsecond
  obtain ⟨hone, hactive, hpid⟩ := pids_eq_some.mp hfirst
  obtain ⟨htwo, hactive', hpid'⟩ := pids_eq_some.mp hsecond
  exact absurd (hdistinct.1 1 2 hone htwo hactive hactive' (hpid.trans hpid'.symm)) (by decide)

/-- The pid counter comes round while the task that got pid 2 runs: another task gets pid 2. -/
theorem pid_given_twice : shellMachine.Started ∧
    ¬ (runEvents tinyOps (tinySpawn :: (rolloverPairs (2 ^ 32 - 4 + 1) ++ [tinySpawn]))
      shellMachine).DistinctPids :=
  ⟨shellMachine_started, not_distinctPids_of_rollover (by decide)⟩

/-- A run with two tasks in it. -/
theorem pids_distinct_two_tasks :
    UnusedPids tinyOps [tinySpawn, tinySpawn] shellMachine ∧
    (runEvents tinyOps [tinySpawn, tinySpawn] shellMachine).DistinctPids ∧
    KillsSpawned tinyOps [tinySpawn, tinySpawn] shellMachine := by
  have hunused : UnusedPids tinyOps [tinySpawn, tinySpawn] shellMachine := by
    intro earlier event later hsplit _
    obtain ⟨held, hfirst⟩ := firstSpawn
    match earlier, hsplit with
    | [], _ => exact fun i hi => some_ne_none _ (hi.symm.trans (shellMachine_started.pids_eq i))
    | [_], hsplit =>
      cases hsplit
      intro i hi
      rw [runEvents_cons, runEvents_nil, hfirst.pids, hfirst.runs.next, onePid, update_apply] at hi
      split_ifs at hi
      cases hi
    | _ :: _ :: earlier, hsplit => simp at hsplit
  exact ⟨hunused, pids_distinct_of_unused _ _ shellMachine_started hunused⟩

end Windoge.Kernel
