import Windoge.Kernel.Task
import Windoge.Lib.Handles

/-!
# The scheduler

`scheduler.c` with the global state that belongs to the running task: the registers the
kernel saves by hand, the Linux context, the file system's drive and directory and the
screen of a workspace. The timer switches between tasks, `scheduler_spawn_elf` makes new
ones, and a task ends by being killed or by exiting. Interrupts are off in all of them, so
that each is one step. Drawing on the framebuffer is left out, except that the menu bar is
drawn into the text grid.
-/

namespace Windoge.Kernel

open Paging Exec

/-- `MAX_TERMINALS`. -/
abbrev maxTerminals : ℕ := 4

instance neZero_terminals : NeZero maxTerminals := ⟨by decide⟩

/-- `MAX_FLAT_BINARY_SIZE`. -/
def maxFlatBinarySize : ℕ := 16 * 1024 * 1024

/-- `console_t`. -/
structure Console where
  displayBuffer : ℕ → UInt8
  textColors : ℕ → ℕ
  backgroundColors : ℕ → ℕ
  cursorX : ℕ
  cursorY : ℕ
  textColor : ℕ
  backgroundColor : ℕ
  videoCursorX : ℕ
  videoCursorY : ℕ
  cursorVisible : Bool
  videoMode : Bool

/-- `interrupt_frame_t`, with the registers that a new task starts with. -/
structure InterruptFrame where
  rdi : ℕ
  rsi : ℕ
  vector : ℕ
  rip : ℕ
  cs : ℕ
  rflags : ℕ
  rsp : ℕ
  ss : ℕ
  deriving DecidableEq

/-- What the scheduler asks of the file system and the screen. -/
structure KernelOps (Fs : Type) where
  memmap : List MemmapEntry
  fsDirname : Fs → Option String
  fsCurrentDrive : Fs → ℕ
  fsSelectDrive : ℕ → Fs → ℤ × Fs
  fsChdir : String → Fs → ℤ × Fs
  fsGetInfo : List UInt8 → Fs → Option (ℕ × Bool) × Fs
  reads : Fs → FileReads
  menubarDraw : Console → Console
  kernelStackTop : Fin schedulerTaskLimit → Word
  frameSize : Word
  userKernelGsBase : Word

/-- The scheduler and the global state around it. -/
structure Machine (Fs : Type) where
  scheduler : Scheduler
  linuxAbi : Bool
  linuxContext : LinuxContext
  gsBase : Word
  kernelGsBase : Word
  fpu : FpuImage
  isrFpuTemp : FpuImage
  kernelStack : Word
  screen : Console
  renderEnabled : Bool
  workspaces : Fin maxTerminals → Console
  currentTerminal : Fin maxTerminals
  renderedWorkspace : Option (Fin maxTerminals)
  switchRequested : Bool
  fs : Fs
  frames : Fin schedulerTaskLimit → InterruptFrame

variable {Fs : Type} (ops : KernelOps Fs)

/-- The machine with another record in a slot of the task table. -/
def Machine.putTask (m : Machine Fs) (i : Fin schedulerTaskLimit) (task : Task) : Machine Fs :=
  { m with scheduler := { m.scheduler with tasks := Function.update m.scheduler.tasks i task } }

/-- The machine with another state of the memory manager. -/
def Machine.putMmu (m : Machine Fs) (mmu : Mmu) : Machine Fs :=
  { m with scheduler := { m.scheduler with mmu := mmu } }

/-- The task in a slot. -/
def Machine.task (m : Machine Fs) (i : Fin schedulerTaskLimit) : Task := m.scheduler.tasks i

/-- `scheduler_save_fs_context` of the task in a slot. -/
def saveFsContext (i : Fin schedulerTaskLimit) (m : Machine Fs) : Machine Fs :=
  match ops.fsDirname m.fs with
  | none => m.putTask i { m.task i with fsContextValid := false }
  | some cwd =>
    if 260 ≤ cwd.length then m.putTask i { m.task i with fsContextValid := false }
    else m.putTask i { m.task i with
      cwd := cwd, drive := ops.fsCurrentDrive m.fs, fsContextValid := true }

/-- `scheduler_restore_fs_context`; a failure is only logged. -/
def restoreFsContext (task : Task) (m : Machine Fs) : Machine Fs :=
  if task.fsContextValid then
    let (selected, fs) := ops.fsSelectDrive task.drive m.fs
    if selected ≠ 0 then { m with fs := fs } else { m with fs := (ops.fsChdir task.cwd fs).2 }
  else m

/-- `sys_workspace_save`. -/
def sysWorkspaceSave (workspaceId : ℕ) (m : Machine Fs) : Machine Fs :=
  if h : workspaceId < maxTerminals then
    { m with workspaces := Function.update m.workspaces ⟨workspaceId, h⟩ m.screen }
  else m

/-- `workspace_load_state`. -/
def workspaceLoadState (workspaceId : ℕ) (render : Bool) (m : Machine Fs) : Machine Fs :=
  if h : workspaceId < maxTerminals then
    { m with screen := m.workspaces ⟨workspaceId, h⟩, renderEnabled := render }
  else m

/-- `sys_workspace_load`. -/
def sysWorkspaceLoad (workspaceId : ℕ) (render : Bool) (m : Machine Fs) : Machine Fs :=
  let m := workspaceLoadState workspaceId render m
  if h : workspaceId < maxTerminals then
    if render = true ∧ m.renderedWorkspace ≠ some ⟨workspaceId, h⟩ then
      { m with screen := ops.menubarDraw m.screen, renderedWorkspace := some ⟨workspaceId, h⟩ }
    else m
  else m

/-- `scheduler_set_shell_workspace` for a workspace that exists. -/
def schedulerSetShellWorkspace (workspaceId : Fin maxTerminals) (m : Machine Fs) : Machine Fs :=
  m.putTask 0 { m.task 0 with workspaceId := workspaceId }

/-- `sys_switch_terminal`. -/
def sysSwitchTerminal (m : Machine Fs) : Machine Fs :=
  let m := sysWorkspaceSave (m.task m.scheduler.currentTask).workspaceId m
  let m := { m with currentTerminal := m.currentTerminal + 1 }
  let m := schedulerSetShellWorkspace m.currentTerminal m
  let m := workspaceLoadState m.currentTerminal true m
  { m with screen := ops.menubarDraw m.screen, renderedWorkspace := some m.currentTerminal }

/-- `scheduler_activate`. -/
def schedulerActivate (index : Fin schedulerTaskLimit) (m : Machine Fs) : Machine Fs :=
  let task := m.task index
  let m := { m with scheduler := { m.scheduler with currentTask := index } }
  let m := m.putMmu (switchUserPml4 task.cr3 m.scheduler.mmu)
  let m := { m with kernelStack := ops.kernelStackTop index }
  let m := restoreFsContext ops task m
  let m := { m with linuxAbi := task.linuxAbi }
  let m := if task.linuxAbi then { m with linuxContext := task.linuxContext } else m
  let m := { m with gsBase := task.gsBase, kernelGsBase := task.kernelGsBase, fpu := task.fpuState }
  sysWorkspaceLoad ops task.workspaceId (task.workspaceId = m.currentTerminal.val) m

/-- `scheduler_find_next`. -/
def schedulerFindNext (after : Fin schedulerTaskLimit) (k : Scheduler) : Fin schedulerTaskLimit :=
  ((List.range' 1 schedulerTaskLimit).map fun step => after + Fin.ofNat schedulerTaskLimit step).find?
    (fun index => (k.tasks index).active) |>.getD 0

/-- What `scheduler_on_timer` saves of the running task. -/
def saveOutgoing (frame : Word) (m : Machine Fs) : Machine Fs :=
  let i := m.scheduler.currentTask
  let task := m.task i
  let m := m.putTask i { task with
    frame := frame
    cr3 := m.scheduler.mmu.loaded
    gsBase := m.gsBase
    kernelGsBase := m.kernelGsBase
    linuxAbi := m.linuxAbi
    linuxContext := if m.linuxAbi then m.linuxContext else task.linuxContext }
  let m := saveFsContext ops i m
  let m := m.putTask i { m.task i with fpuState := m.isrFpuTemp }
  sysWorkspaceSave (m.task i).workspaceId m

/-- A requested workspace switch, in `scheduler_on_timer`. -/
def serveSwitchRequest (m : Machine Fs) : Machine Fs :=
  if m.switchRequested then sysSwitchTerminal ops { m with switchRequested := false } else m

/-- The end of `scheduler_on_timer` when no other task is active. -/
def stayOnTask (switched : Bool) (m : Machine Fs) : Machine Fs :=
  let current := m.scheduler.currentTask
  let m :=
    if switched then schedulerActivate ops current m
    else sysWorkspaceLoad ops (m.task current).workspaceId
      ((m.task current).workspaceId = m.currentTerminal.val) m
  { m with fpu := (m.task current).fpuState }

/-- The end of `scheduler_on_timer`, with the frame it returns. -/
def switchTask (frame : Word) (switched : Bool) (m : Machine Fs) : Word × Machine Fs :=
  let current := m.scheduler.currentTask
  let next := schedulerFindNext current m.scheduler
  if next = current then (frame, stayOnTask ops switched m)
  else ((m.task next).frame, schedulerActivate ops next m)

/-- `scheduler_on_timer` with a frame, and the frame it returns. The interrupt stub has just stored
the FPU state in `isr_fpu_temp`. -/
def schedulerOnTimer (frame : Word) (m : Machine Fs) : Word × Machine Fs :=
  let m := { m with isrFpuTemp := m.fpu }
  if (m.task m.scheduler.currentTask).active = false then (frame, m)
  else
    let m := saveOutgoing ops frame m
    switchTask ops frame m.switchRequested (serveSwitchRequest ops m)

/-- The Linux context that `linux_syscall_context_init` stores. -/
def initialLinuxContext : LinuxContext where
  fileDescriptors i :=
    if i.val = 0 then ⟨true, true, false, false, false, true, 0, ""⟩
    else if i.val < 3 then ⟨true, false, true, false, false, true, 0, ""⟩
    else ⟨false, false, false, false, false, false, 0, ""⟩
  programBreak := userHeapBase
  mmapCursor := userMmapBase
  heapStart := userHeapBase

/-- The Linux context of a new task, with its heap behind the program. -/
def spawnedLinuxContext (loaded : LoadedProgram) : LinuxContext :=
  if loaded.linuxAbi ∧ initialLinuxContext.heapStart < loaded.heapBase ∧ loaded.heapBase < userMmapBase then
    { initialLinuxContext with heapStart := loaded.heapBase, programBreak := loaded.heapBase }
  else initialLinuxContext

/-- The pid counter after a pid has been given out; it is a 32-bit variable. -/
def advancePid (nextPid : ℕ) : ℕ :=
  let next := (nextPid + 1) % 2 ^ 32
  if next = 0 then 2 else next

/-- The slot `scheduler_spawn_elf` takes: the first one after slot 0 that is not active. -/
def Scheduler.freeTask (k : Scheduler) : Option (Fin schedulerTaskLimit) :=
  (List.finRange schedulerTaskLimit).find? fun i => i ≠ 0 && !(k.tasks i).active

/-- The slot of a new task before its program is loaded. -/
def preparedTask (parent : Task) (workspaceId : ℕ) : Task :=
  { unusedTask with
    workspaceId := workspaceId
    drive := parent.drive
    fsContextValid := parent.fsContextValid
    cwd := parent.cwd }

/-- The task in a slot once its program has been loaded. -/
def startedTask (ops : KernelOps Fs) (slot : Fin schedulerTaskLimit) (m : Machine Fs) (pml4 : Word)
    (loaded : LoadedProgram) : Task :=
  { m.task slot with
    active := true
    pid := m.scheduler.nextPid
    cr3 := pml4
    gsBase := 0
    kernelGsBase := ops.userKernelGsBase
    linuxAbi := loaded.linuxAbi
    frame := ops.kernelStackTop slot - ops.frameSize
    linuxContext := spawnedLinuxContext loaded
    fpuState := (m.task 0).fpuState }

/-- The frame a new task starts from. -/
def startedFrame (argc : ℤ) (loaded : LoadedProgram) : InterruptFrame where
  rdi := argc.toNat
  rsi := loaded.userArgv
  vector := 32
  rip := loaded.entry
  cs := 0x23
  rflags := 0x202
  rsp := loaded.stack
  ss := 0x1B

/-- The end of `scheduler_spawn_elf`, once the program is loaded: the task becomes active. -/
def startTask (slot : Fin schedulerTaskLimit) (pml4 : Word) (argc : ℤ) (loaded : LoadedProgram)
    (m : Machine Fs) : Machine Fs :=
  let started := m.putTask slot (startedTask ops slot m pml4 loaded)
  { started with
    scheduler := { started.scheduler with nextPid := advancePid m.scheduler.nextPid }
    frames := Function.update m.frames slot (startedFrame argc loaded) }

/-- The part of `scheduler_spawn_elf` between the new address space and the new task: the program is
loaded into the address space, which is destroyed if that fails. -/
def loadTask (slot : Fin schedulerTaskLimit) (path : List UInt8) (fileSize : ℕ) (argc : ℤ)
    (argv : Option Argv) (pml4 : Word) (m : Machine Fs) : Option LoadedProgram × Machine Fs :=
  let parentCr3 := m.scheduler.mmu.loaded
  let mmu := switchUserPml4 pml4 m.scheduler.mmu
  match systemLoadElfArgs ops.memmap (ops.reads m.fs) (some path) fileSize argc argv ⟨mmu, noProgram⟩ with
  | .ok loaded st =>
    (some loaded, (m.putMmu (switchUserPml4 parentCr3 st.mmu)).putTask slot
      { m.task slot with program := st.program })
  | .error _ st =>
    (none, (m.putMmu (destroyUserPml4 pml4 (switchUserPml4 parentCr3 st.mmu))).putTask slot
      { m.task slot with program := st.program })

/-- The slot of a new task, cleared and with the drive and directory of the running task. -/
def prepareTask (slot : Fin schedulerTaskLimit) (workspaceId : ℕ) (m : Machine Fs) : Machine Fs :=
  let m := saveFsContext ops m.scheduler.currentTask m
  m.putTask slot (preparedTask m.scheduler.current workspaceId)

/-- The part of `scheduler_spawn_elf` behind the choice of a slot, up to the restored drive and
directory that every return from there has in common. -/
def spawnInto (slot : Fin schedulerTaskLimit) (path : List UInt8) (argc : ℤ) (argv : Option Argv)
    (m : Machine Fs) : Option ℕ × Machine Fs :=
  match ops.fsGetInfo path m.fs with
  | (none, fs) => (none, { m with fs := fs })
  | (some (fileSize, isDir), fs) =>
    if isDir = true ∨ fileSize = 0 ∨ maxFlatBinarySize < fileSize then (none, { m with fs := fs })
    else
      match createUserPml4 ops.memmap m.scheduler.mmu with
      | (pml4, mmu) =>
        let m := { m with fs := fs }.putMmu mmu
        if pml4 = 0 then (none, m)
        else
          match loadTask ops slot path fileSize argc argv pml4 m with
          | (none, m) => (none, m)
          | (some loaded, m) => (some m.scheduler.nextPid, startTask ops slot pml4 argc loaded m)

/-- `scheduler_spawn_elf` with a path and a place for the pid: the pid, or no result for -1. -/
def schedulerSpawnElf (path : List UInt8) (argc : ℤ) (argv : Option Argv) (workspaceId : ℕ)
    (m : Machine Fs) : Option ℕ × Machine Fs :=
  if path = [] ∨ argc < 0 ∨ 32 < argc ∨ (0 < argc ∧ argv.isNone) ∨ maxTerminals ≤ workspaceId then
    (none, m)
  else
    match m.scheduler.freeTask with
    | none => (none, m)
    | some slot =>
      match spawnInto ops slot path argc argv (prepareTask ops slot workspaceId m) with
      | (pid, m) => (pid, restoreFsContext ops m.scheduler.current m)

/-- `scheduler_exit_current`, up to the resumption of the next task's frame. Slot 0 returns to its
launcher instead and leaves the scheduler alone. -/
def schedulerExitCurrent (m : Machine Fs) : Machine Fs :=
  let exiting := m.scheduler.currentTask
  if exiting = 0 then m
  else
    let m := if m.linuxAbi then m.putTask exiting { m.task exiting with linuxContext := m.linuxContext }
      else m
    let m := saveFsContext ops exiting m
    let m := sysWorkspaceSave (m.task exiting).workspaceId m
    let m := m.putMmu (cleanupProgramPages (m.task exiting).program m.scheduler.mmu)
    let pml4 := (m.task exiting).cr3
    let m := m.putTask exiting { m.task exiting with active := false }
    let next := schedulerFindNext exiting m.scheduler
    let m := m.putMmu (destroyUserPml4 pml4 m.scheduler.mmu)
    let m := { m with scheduler := { m.scheduler with currentTask := next } }
    m.putMmu (switchUserPml4 (m.task next).cr3 m.scheduler.mmu)

/-- Something that happens to the scheduler; `work` is what the running task does in between, to
everything but the task table. -/
inductive Event (Fs : Type)
  | tick (frame : Word)
  | spawn (path : List UInt8) (argc : ℤ) (argv : Option Argv) (workspaceId : ℕ)
  | kill (pid : ℕ)
  | exit
  | work (behaviour : Machine Fs → Machine Fs)

/-- The machine after an event. -/
def Event.step : Event Fs → Machine Fs → Machine Fs
  | tick frame, m => (schedulerOnTimer ops frame m).2
  | spawn path argc argv workspaceId, m => (schedulerSpawnElf ops path argc argv workspaceId m).2
  | kill pid, m => { m with scheduler := (schedulerKill pid m.scheduler).2 }
  | exit, m => schedulerExitCurrent ops m
  | work behaviour, m =>
    let after := behaviour m
    { after with scheduler := { m.scheduler with mmu := after.scheduler.mmu } }

/-- The machine after a run of events. -/
def runEvents (events : List (Event Fs)) (m : Machine Fs) : Machine Fs :=
  events.foldl (fun m event => event.step ops m) m

/-!
## What scheduler events do to pids

The pids of the active tasks behind slot 0, as a table. A timer tick leaves it alone, a
kill or an exit vacates a slot, and a spawn fills a free one with the next value of a
32-bit counter that starts again at 2 when it overflows.
-/

open Function Scheduler Machine Event

variable {ops : KernelOps Fs} {m m' : Machine Fs} {i slot : Fin schedulerTaskLimit} {task : Task}
  {k : Scheduler}

/-- The pids of the active tasks behind slot 0. -/
def Scheduler.pids (k : Scheduler) : Fin schedulerTaskLimit → Option ℕ := fun i =>
  if i ≠ 0 ∧ (k.tasks i).active = true then some (k.tasks i).pid else none

/-- The pids of the active tasks and the pid to come. -/
def Machine.pidState (m : Machine Fs) : (Fin schedulerTaskLimit → Option ℕ) × ℕ :=
  (m.scheduler.pids, m.scheduler.nextPid)

theorem Scheduler.pids_eq_some {pid : ℕ} :
    k.pids i = some pid ↔ i ≠ 0 ∧ (k.tasks i).active = true ∧ (k.tasks i).pid = pid := by
  unfold pids
  split_ifs with h
  · rw [Option.some.injEq]
    exact ⟨fun heq => ⟨h.1, h.2, heq⟩, fun heq => heq.2.2⟩
  constructor
  · intro heq
    cases heq
  · rintro ⟨hi, hactive, -⟩
    exact absurd ⟨hi, hactive⟩ h

theorem Scheduler.pids_eq_none (hi : i ≠ 0) : k.pids i = none ↔ (k.tasks i).active = false := by
  unfold pids
  split_ifs with h
  · simp [h.2]
  · simp only [true_iff]
    exact Bool.eq_false_iff.mpr fun hactive => h ⟨hi, hactive⟩

theorem pids_putTask (m : Machine Fs) (i : Fin schedulerTaskLimit) (task : Task) :
    (m.putTask i task).scheduler.pids = update m.scheduler.pids i
      (if i ≠ 0 ∧ task.active = true then some task.pid else none) := by
  funext j
  by_cases hj : j = i
  · subst hj
    simp only [update_self, pids, putTask]
  · simp only [update_of_ne hj, pids, putTask]

/-- The running slot, and the pids. -/
def Machine.roster (m : Machine Fs) : Fin schedulerTaskLimit × (Fin schedulerTaskLimit → Option ℕ) × ℕ :=
  (m.scheduler.currentTask, m.pidState)

theorem pidState_of_roster (h : m'.roster = m.roster) : m'.pidState = m.pidState := congrArg Prod.snd h

theorem roster_putTask (hactive : task.active = (m.task i).active)
    (hpid : task.pid = (m.task i).pid) : (m.putTask i task).roster = m.roster := by
  have hsame : (if i ≠ 0 ∧ task.active = true then some task.pid else none) = m.scheduler.pids i := by
    rw [hactive, hpid]
    rfl
  rw [roster, pidState, pids_putTask, hsame, update_eq_self]
  rfl

@[simp] theorem roster_putMmu (mmu : Mmu) : (m.putMmu mmu).roster = m.roster := rfl

@[simp] theorem roster_saveFsContext : (saveFsContext ops i m).roster = m.roster := by
  unfold saveFsContext
  split
  · exact roster_putTask rfl rfl
  · split_ifs
    · exact roster_putTask rfl rfl
    · exact roster_putTask rfl rfl

@[simp] theorem roster_restoreFsContext : (restoreFsContext ops task m).roster = m.roster := by
  unfold restoreFsContext
  split_ifs
  · dsimp only
    split_ifs <;> rfl
  · rfl

@[simp] theorem roster_sysWorkspaceSave (workspaceId : ℕ) :
    (sysWorkspaceSave workspaceId m).roster = m.roster := by
  unfold sysWorkspaceSave
  split_ifs <;> rfl

@[simp] theorem roster_workspaceLoadState (workspaceId : ℕ) (render : Bool) :
    (workspaceLoadState workspaceId render m).roster = m.roster := by
  unfold workspaceLoadState
  split_ifs <;> rfl

@[simp] theorem roster_sysWorkspaceLoad (workspaceId : ℕ) (render : Bool) :
    (sysWorkspaceLoad ops workspaceId render m).roster = m.roster := by
  unfold sysWorkspaceLoad
  dsimp only
  split_ifs
  · exact roster_workspaceLoadState workspaceId render
  · exact roster_workspaceLoadState workspaceId render
  · exact roster_workspaceLoadState workspaceId render

@[simp] theorem roster_sysSwitchTerminal : (sysSwitchTerminal ops m).roster = m.roster := by
  refine (roster_workspaceLoadState _ _).trans ?_
  rw [schedulerSetShellWorkspace, roster_putTask]
  · exact roster_sysWorkspaceSave _
  · rfl
  · rfl

@[simp] theorem roster_schedulerActivate : (schedulerActivate ops i m).roster = (i, m.pidState) := by
  refine (roster_sysWorkspaceLoad _ _).trans ?_
  split_ifs
  · exact roster_restoreFsContext
  · exact roster_restoreFsContext

@[simp] theorem roster_saveOutgoing (frame : Word) : (saveOutgoing ops frame m).roster = m.roster := by
  unfold saveOutgoing
  rw [roster_sysWorkspaceSave, roster_putTask, roster_saveFsContext, roster_putTask]
  · rfl
  · rfl
  · rfl
  · rfl

@[simp] theorem roster_serveSwitchRequest : (serveSwitchRequest ops m).roster = m.roster := by
  unfold serveSwitchRequest
  split_ifs
  · exact roster_sysSwitchTerminal
  · rfl

@[simp] theorem roster_stayOnTask (switched : Bool) : (stayOnTask ops switched m).roster = m.roster := by
  cases switched with
  | false => exact roster_sysWorkspaceLoad _ _
  | true => exact roster_schedulerActivate

/-- A timer tick changes no pid, and passes the processor on if the running task is active. -/
theorem roster_schedulerOnTimer (frame : Word) : ∃ k : Scheduler, k.pids = m.scheduler.pids ∧
    (schedulerOnTimer ops frame m).2.roster = (if m.scheduler.current.active = false then
      m.scheduler.currentTask else schedulerFindNext m.scheduler.currentTask k, m.pidState) := by
  have hsaved : (serveSwitchRequest ops (saveOutgoing ops frame { m with isrFpuTemp := m.fpu })).roster =
      m.roster := by
    rw [roster_serveSwitchRequest, roster_saveOutgoing]
    rfl
  obtain ⟨hcurrent, hpids⟩ := Prod.mk.inj hsaved
  have hcases : schedulerOnTimer ops frame m =
      if m.scheduler.current.active = false then (frame, { m with isrFpuTemp := m.fpu })
      else switchTask ops frame _ (serveSwitchRequest ops (saveOutgoing ops frame { m with isrFpuTemp := m.fpu })) :=
    rfl
  refine ⟨_, (Prod.mk.inj hpids).1, ?_⟩
  rw [hcases]
  split_ifs
  · rfl
  rw [← hcurrent, ← hpids, switchTask]
  split_ifs with hsame
  · rw [roster_stayOnTask, hsame]
    rfl
  · exact roster_schedulerActivate

theorem pidState_deactivate (h : m'.pidState = m.pidState) (i : Fin schedulerTaskLimit) :
    (m'.putTask i { m'.task i with active := false }).pidState =
      (update m.scheduler.pids i none, m.scheduler.nextPid) := by
  obtain ⟨hpids, hnext⟩ := Prod.mk.inj h
  rw [pidState, pids_putTask, if_neg (fun h => Bool.false_ne_true h.2), hpids]
  exact congrArg (Prod.mk _) hnext

/-- A kill vacates the slot that was found. -/
theorem pidState_kill (pid : ℕ) :
    ((kill pid : Event Fs).step ops m).pidState = m.pidState ∨ ∃ i, ((kill pid : Event Fs).step ops m).pidState =
        (update m.scheduler.pids i none, m.scheduler.nextPid) := by
  change (pidState { m with scheduler := (schedulerKill pid m.scheduler).2 }) = _ ∨ ∃ i,
    (pidState { m with scheduler := (schedulerKill pid m.scheduler).2 }) = _
  unfold schedulerKill
  split_ifs
  · exact .inl rfl
  · split
    · exact .inl rfl
    · next i _ => exact .inr ⟨i, pidState_deactivate rfl i⟩

/-- An exit vacates the slot of the running task. -/
theorem pidState_exit :
    (schedulerExitCurrent ops m).pidState = m.pidState ∨ (schedulerExitCurrent ops m).pidState =
        (update m.scheduler.pids m.scheduler.currentTask none, m.scheduler.nextPid) := by
  unfold schedulerExitCurrent
  dsimp only
  split_ifs
  · exact .inl rfl
  · refine .inr (pidState_deactivate ?_ _)
    refine pidState_of_roster ((roster_sysWorkspaceSave _).trans (roster_saveFsContext.trans ?_))
    exact roster_putTask rfl rfl
  · refine .inr (pidState_deactivate ?_ _)
    exact pidState_of_roster ((roster_sysWorkspaceSave _).trans roster_saveFsContext)

theorem Scheduler.freeTask_some (h : k.freeTask = some slot) : slot ≠ 0 ∧ (k.tasks slot).active = false := by
  have hpick := List.find?_some h
  simpa using hpick

theorem roster_loadTask {path : List UInt8} {fileSize : ℕ} {argc : ℤ} {argv : Option Argv} {pml4 : Word} :
    (loadTask ops slot path fileSize argc argv pml4 m).2.roster = m.roster := by
  unfold loadTask
  dsimp only
  split
  · dsimp only
    rw [roster_putTask, roster_putMmu]
    · rfl
    · rfl
  · dsimp only
    rw [roster_putTask, roster_putMmu]
    · rfl
    · rfl

/-- Clearing a slot that is not active changes no pid. -/
theorem roster_prepareTask {workspaceId : ℕ} (hfree : m.scheduler.freeTask = some slot) :
    (prepareTask ops slot workspaceId m).roster = m.roster := by
  obtain ⟨hslot, hinactive⟩ := freeTask_some hfree
  have hsaved : (saveFsContext ops m.scheduler.currentTask m).roster = m.roster := roster_saveFsContext
  obtain ⟨hcurrent, hsaved⟩ := Prod.mk.inj hsaved
  obtain ⟨hpids, hnext⟩ := Prod.mk.inj hsaved
  have hnone : m.scheduler.pids slot = none := (pids_eq_none hslot).mpr hinactive
  have hsame : update m.scheduler.pids slot none = m.scheduler.pids := by rw [← hnone, update_eq_self]
  refine Prod.ext hcurrent ?_
  rw [prepareTask, roster, pidState, pids_putTask, if_neg (fun h => Bool.false_ne_true h.2), hpids, hsame]
  exact congrArg (Prod.mk _) hnext

/-- Behind the choice of a slot, a spawn that fails changes no pid, and one that succeeds gives the pid
to come to the slot. -/
theorem roster_spawnInto {path : List UInt8} {argc : ℤ} {argv : Option Argv} (hslot : slot ≠ 0) :
    ((spawnInto ops slot path argc argv m).1 = none ∧
        (spawnInto ops slot path argc argv m).2.roster = m.roster) ∨
      (spawnInto ops slot path argc argv m).1 = some m.scheduler.nextPid ∧
        (spawnInto ops slot path argc argv m).2.roster = (m.scheduler.currentTask,
          update m.scheduler.pids slot (some m.scheduler.nextPid), advancePid m.scheduler.nextPid) := by
  unfold spawnInto
  split
  · exact .inl ⟨rfl, rfl⟩
  split_ifs
  · exact .inl ⟨rfl, rfl⟩
  dsimp only
  split_ifs
  · exact .inl ⟨rfl, rfl⟩
  split
  · next hload =>
    have hstate := congrArg (fun p => p.2.roster) hload
    exact .inl ⟨rfl, hstate.symm.trans roster_loadTask⟩
  next loaded m₂ hload =>
  have hstate := congrArg (fun p => p.2.roster) hload
  obtain ⟨hcurrent, hloaded⟩ := Prod.mk.inj (hstate.symm.trans roster_loadTask)
  obtain ⟨hpids, hnext⟩ := Prod.mk.inj hloaded
  refine .inr ⟨congrArg some hnext, Prod.ext hcurrent ?_⟩
  refine Prod.ext ((pids_putTask m₂ slot _).trans ?_) (congrArg advancePid hnext)
  rw [if_pos ⟨hslot, rfl⟩, hpids]
  exact congrArg (fun pid => update m.scheduler.pids slot (some pid)) hnext

/-- A spawn that fails changes no pid, and one that succeeds gives the pid to come to a free slot. -/
theorem roster_spawn (path : List UInt8) (argc : ℤ) (argv : Option Argv) (workspaceId : ℕ) (m : Machine Fs) :
    ((schedulerSpawnElf ops path argc argv workspaceId m).1 = none ∧
        (schedulerSpawnElf ops path argc argv workspaceId m).2.roster = m.roster) ∨
      ∃ slot, m.scheduler.freeTask = some slot ∧
        (schedulerSpawnElf ops path argc argv workspaceId m).1 = some m.scheduler.nextPid ∧
        (schedulerSpawnElf ops path argc argv workspaceId m).2.roster = (m.scheduler.currentTask,
          update m.scheduler.pids slot (some m.scheduler.nextPid), advancePid m.scheduler.nextPid) := by
  unfold schedulerSpawnElf
  split_ifs
  · exact .inl ⟨rfl, rfl⟩
  cases hfree : m.scheduler.freeTask with
  | none => exact .inl ⟨rfl, rfl⟩
  | some slot =>
    have hprepared := @roster_prepareTask _ ops m slot workspaceId hfree
    obtain ⟨hcurrent, hpidState⟩ := Prod.mk.inj hprepared
    obtain ⟨hpids, hnext⟩ := Prod.mk.inj hpidState
    rw [roster_restoreFsContext]
    rcases @roster_spawnInto _ ops (prepareTask ops slot workspaceId m) slot path argc argv
      (freeTask_some hfree).1 with ⟨hnone, hsame⟩ | ⟨hsome, hstarted⟩
    · exact .inl ⟨hnone, hsame.trans hprepared⟩
    · rw [hcurrent, hpids, hnext] at hstarted
      exact .inr ⟨slot, rfl, hsome.trans (congrArg some hnext), hstarted⟩

theorem advancePid_ne_zero (nextPid : ℕ) : advancePid nextPid ≠ 0 := by
  unfold advancePid
  dsimp only
  split_ifs with h
  · decide
  · exact h

/-- Whether the event may give out a pid. -/
def Event.isSpawn : Event Fs → Bool
  | .spawn .. => true
  | _ => false

/-- What an event does to the pids: nothing, or a slot is vacated, or a spawn fills a free one. -/
theorem Event.pidState_step (event : Event Fs) (m : Machine Fs) :
    (event.step ops m).pidState = m.pidState ∨ (∃ slot, (event.step ops m).pidState =
        (update m.scheduler.pids slot none, m.scheduler.nextPid)) ∨
      event.isSpawn = true ∧ ∃ slot, m.scheduler.freeTask = some slot ∧ (event.step ops m).pidState =
        (update m.scheduler.pids slot (some m.scheduler.nextPid), advancePid m.scheduler.nextPid) := by
  cases event with
  | tick frame =>
    obtain ⟨k, -, hroster⟩ := @roster_schedulerOnTimer _ ops m frame
    exact .inl (congrArg Prod.snd hroster)
  | spawn path argc argv workspaceId =>
    rcases @roster_spawn _ ops path argc argv workspaceId m with ⟨-, hsame⟩ | ⟨slot, hfree, -, hcome⟩
    · exact .inl (congrArg Prod.snd hsame)
    · exact .inr (.inr ⟨rfl, slot, hfree, congrArg Prod.snd hcome⟩)
  | kill pid => exact (pidState_kill pid).imp id .inl
  | exit => exact pidState_exit.imp id fun hgo => .inl ⟨_, hgo⟩
  | work behaviour => exact .inl rfl

/-!
## Pids over runs of the scheduler

The pids of the active tasks are handles. They stay distinct over every run in which no
spawn meets an active task that has the value the pid counter has come to; then a kill
stops the task that its pid was returned for.
-/

open Handles List Option

/-- No active task behind slot 0 has the pid to come. -/
def Machine.NextPidUnused (m : Machine Fs) : Prop := ∀ i, m.scheduler.pids i ≠ some m.scheduler.nextPid

/-- An event changes the table of pids by at most one coming or going, if a spawn finds the pid to
come unused. -/
theorem Event.step_pids (event : Event Fs) (hunused : event.isSpawn = true → m.NextPidUnused) :
    Step m.scheduler.pids (event.step ops m).scheduler.pids := by
  rcases @Event.pidState_step _ ops event m with hsame | ⟨slot, hgo⟩ | ⟨hspawn, slot, hfree, hcome⟩
  · rw [(Prod.mk.inj hsame).1]
    exact .stay _
  · rw [(Prod.mk.inj hgo).1]
    exact .go _ slot
  · obtain ⟨hslot, hinactive⟩ := freeTask_some hfree
    rw [(Prod.mk.inj hcome).1]
    exact .come ((pids_eq_none hslot).mpr hinactive) (hunused hspawn)

/-- What holds between events: pids are distinct and none of them is 0, nor is the one to come. -/
structure Machine.PidsSound (m : Machine Fs) : Prop where
  distinct : Distinct m.scheduler.pids
  nonzero : ∀ i, m.scheduler.pids i ≠ some 0
  next : m.scheduler.nextPid ≠ 0

/-- An event keeps the pids sound, if a spawn finds the pid to come unused. -/
theorem Machine.PidsSound.step (h : m.PidsSound) (event : Event Fs)
    (hunused : event.isSpawn = true → m.NextPidUnused) : (event.step ops m).PidsSound := by
  have hstep := @Event.step_pids _ ops m event hunused
  refine ⟨hstep.distinct h.distinct, ?_, ?_⟩
  · rcases @Event.pidState_step _ ops event m with hsame | ⟨slot, hgo⟩ | ⟨-, slot, -, hcome⟩
    · rw [(Prod.mk.inj hsame).1]
      exact h.nonzero
    · rw [(Prod.mk.inj hgo).1]
      intro i hi
      rw [update_apply] at hi
      split_ifs at hi
      exact h.nonzero i hi
    · rw [(Prod.mk.inj hcome).1]
      intro i hi
      rw [update_apply] at hi
      split_ifs at hi
      · exact h.next (some.inj hi)
      · exact h.nonzero i hi
  · rcases @Event.pidState_step _ ops event m with hsame | ⟨slot, hgo⟩ | ⟨-, slot, -, hcome⟩
    · rw [(Prod.mk.inj hsame).2]
      exact h.next
    · rw [(Prod.mk.inj hgo).2]
      exact h.next
    · rw [(Prod.mk.inj hcome).2]
      exact advancePid_ne_zero _

/-- Every spawn of a run finds the pid to come unused. -/
def UnusedPids (ops : KernelOps Fs) (events : List (Event Fs)) (m : Machine Fs) : Prop :=
  ∀ earlier event later, events = earlier ++ event :: later → event.isSpawn = true →
    (runEvents ops earlier m).NextPidUnused

variable {events : List (Event Fs)} {pid : ℕ}

theorem UnusedPids.tail {event : Event Fs} (h : UnusedPids ops (event :: events) m) :
    UnusedPids ops events (event.step ops m) :=
  fun earlier spawn later hsplit hspawn => h (event :: earlier) spawn later (by rw [hsplit]; rfl) hspawn

theorem Machine.PidsSound.run (h : m.PidsSound) (hunused : UnusedPids ops events m) :
    (runEvents ops events m).PidsSound := by
  induction events generalizing m with
  | nil => exact h
  | cons event events ih =>
    exact ih (h.step event fun hspawn => hunused [] event events rfl hspawn) hunused.tail

/-- A slot that is occupied after every event of a run keeps its pid. -/
theorem pids_kept (hunused : UnusedPids ops events m) (hpid : m.scheduler.pids i = some pid)
    (hactive : ∀ done rest, events = done ++ rest → (runEvents ops done m).scheduler.pids i ≠ none) :
    (runEvents ops events m).scheduler.pids i = some pid := by
  induction events generalizing m with
  | nil => exact hpid
  | cons event events ih =>
    have hstep := @Event.step_pids _ ops m event fun hspawn => hunused [] event events rfl hspawn
    refine ih hunused.tail (hstep.keeps hpid (hactive [event] events rfl)) ?_
    exact fun done rest hsplit => hactive (event :: done) rest (by rw [hsplit]; rfl)

/-- The first slot with a property is the only one. -/
theorem Scheduler.findTask_eq (hdistinct : Distinct k.pids) (hpid : k.pids i = some pid) :
    k.findTask pid = some i := by
  obtain ⟨hi, hactive, heq⟩ := pids_eq_some.mp hpid
  cases hfind : k.findTask pid with
  | none =>
    have hnone := find?_eq_none.mp hfind i (mem_finRange i)
    simp [hi, hactive, heq] at hnone
  | some j =>
    have hpick := find?_some hfind
    simp only [Bool.and_eq_true, decide_eq_true_eq, beq_iff_eq] at hpick
    have hother := pids_eq_some.mpr ⟨hpick.1.1, hpick.1.2, hpick.2⟩
    rw [hdistinct hother hpid]

/-- The task table before the first spawn. -/
structure Machine.Started (m : Machine Fs) : Prop where
  idle : ∀ i, i ≠ 0 → (m.task i).active = false
  first : m.scheduler.nextPid = 2

theorem Machine.Started.pids_eq (h : m.Started) (i : Fin schedulerTaskLimit) : m.scheduler.pids i = none := by
  by_cases hi : i = 0
  · subst hi
    exact if_neg fun hactive => hactive.1 rfl
  · exact (pids_eq_none hi).mpr (h.idle i hi)

theorem Machine.Started.pidsSound (h : m.Started) : m.PidsSound := by
  refine ⟨fun i j pid hpid => ?_, fun i hpid => ?_, by rw [h.first]; decide⟩
  · rw [h.pids_eq i] at hpid
    cases hpid
  · rw [h.pids_eq i] at hpid
    cases hpid

/-- The active tasks in slots 1 to 7 have distinct pids, none of them 0. -/
def Machine.DistinctPids (m : Machine Fs) : Prop :=
  (∀ i j, i ≠ 0 → j ≠ 0 → (m.task i).active = true → (m.task j).active = true →
    (m.task i).pid = (m.task j).pid → i = j) ∧
  ∀ i, i ≠ 0 → (m.task i).active = true → (m.task i).pid ≠ 0

/-- At the end of a run, killing the pid that a spawn has returned stops the task that this spawn has
made, if that task is still there. -/
def KillsSpawned (ops : KernelOps Fs) (events : List (Event Fs)) (m : Machine Fs) : Prop :=
  ∀ earlier path argc argv workspaceId later pid slot,
    events = earlier ++ .spawn path argc argv workspaceId :: later →
    (schedulerSpawnElf ops path argc argv workspaceId (runEvents ops earlier m)).1 = some pid →
    (runEvents ops earlier m).scheduler.freeTask = some slot →
    (∀ done rest, later = done ++ rest →
      ((runEvents ops (earlier ++ .spawn path argc argv workspaceId :: done) m).task slot).active =
        true) →
    (schedulerKill pid (runEvents ops events m).scheduler).1 = 0 ∧
      (schedulerKill pid (runEvents ops events m).scheduler).2.tasks =
        Function.update (runEvents ops events m).scheduler.tasks slot
          { (runEvents ops events m).task slot with active := false }

theorem Machine.PidsSound.distinctPids (h : m.PidsSound) : m.DistinctPids := by
  constructor
  · intro i j hi hj hactive hactive' heq
    exact h.distinct (pids_eq_some.mpr ⟨hi, hactive, heq⟩) (pids_eq_some.mpr ⟨hj, hactive', rfl⟩)
  · intro i hi hactive heq
    exact h.nonzero i (pids_eq_some.mpr ⟨hi, hactive, heq⟩)

/-- A spawn that returns a pid gives it to the slot that was free. -/
theorem pids_spawned {path : List UInt8} {argc : ℤ} {argv : Option Argv} {workspaceId : ℕ}
    (hspawn : (schedulerSpawnElf ops path argc argv workspaceId m).1 = some pid)
    (hfree : m.scheduler.freeTask = some slot) :
    (schedulerSpawnElf ops path argc argv workspaceId m).2.scheduler.pids slot = some pid := by
  rcases @roster_spawn _ ops path argc argv workspaceId m with ⟨hnone, -⟩ | ⟨taken, htaken, hpid, hcome⟩
  · rw [hnone] at hspawn
    cases hspawn
  · cases htaken.symm.trans hfree
    rw [(Prod.mk.inj (Prod.mk.inj hcome).2).1, update_self, ← hpid, hspawn]

theorem runEvents_nil (m : Machine Fs) : runEvents ops [] m = m := rfl

theorem runEvents_cons (event : Event Fs) (events : List (Event Fs)) (m : Machine Fs) :
    runEvents ops (event :: events) m = runEvents ops events (event.step ops m) := rfl

theorem runEvents_append (earlier later : List (Event Fs)) (m : Machine Fs) :
    runEvents ops (earlier ++ later) m = runEvents ops later (runEvents ops earlier m) :=
  foldl_append

/-- In a run from the start in which no spawn meets the pid to come in use, the pids of the active
tasks are distinct and not 0, and a kill stops the task that its pid was returned for. -/
theorem pids_distinct_of_unused (events : List (Event Fs)) (m : Machine Fs) (hstart : m.Started)
    (hunused : UnusedPids ops events m) :
    (runEvents ops events m).DistinctPids ∧ KillsSpawned ops events m := by
  have hsound := hstart.pidsSound.run hunused
  refine ⟨hsound.distinctPids, ?_⟩
  intro earlier path argc argv workspaceId later pid slot hsplit hspawn hfree hactive
  have hslot := (freeTask_some hfree).1
  have hlater : UnusedPids ops later ((spawn path argc argv workspaceId).step ops
      (runEvents ops earlier m)) := by
    intro done event rest hrest hevent
    have hwhole := hunused (earlier ++ .spawn path argc argv workspaceId :: done) event rest
      (by rw [hsplit, hrest, append_assoc, cons_append]) hevent
    rwa [runEvents_append] at hwhole
  have hpid : (runEvents ops events m).scheduler.pids slot = some pid := by
    rw [hsplit, runEvents_append]
    change (runEvents ops later ((spawn path argc argv workspaceId).step ops
      (runEvents ops earlier m))).scheduler.pids slot = _
    refine pids_kept hlater (pids_spawned hspawn hfree) fun done rest hrest hnone => ?_
    have hstill := hactive done rest hrest
    rw [runEvents_append] at hstill
    exact Bool.false_ne_true (((pids_eq_none hslot).mp hnone).symm.trans hstill)
  have hfind := findTask_eq hsound.distinct hpid
  have hne : pid ≠ 0 := by
    rintro rfl
    exact hsound.nonzero slot hpid
  rw [schedulerKill, if_neg hne, hfind]
  exact ⟨rfl, rfl⟩

end Windoge.Kernel
