import Mathlib

/-!
# The assembly launcher

`launcher.asm` saves the stack pointer and the flags of the caller, raises
`syscall_context_depth` and calls the C loader. A program that was started comes back through
`syscall_exit_to_launcher`, which lowers the counter and returns through the saved stack
pointer. The routines are embedded register by register; the C functions they call are any code
that keeps the calling convention.
-/

namespace Windoge.Launcher

open Function

/-- The registers, stack and tables the launcher reads and writes. -/
structure Cpu where
  rax : ℕ
  rcx : ℕ
  rdx : ℕ
  rsi : ℕ
  rdi : ℕ
  r8 : ℕ
  r9 : ℕ
  rsp : ℕ
  rflags : ℕ
  rip : ℕ
  /-- The stack words, by their addresses. -/
  stack : ℕ → ℕ
  syscallContextDepth : ℕ
  kernelParentRsps : ℕ → ℕ
  kernelParentRflags : ℕ → ℕ

/-- The addresses of the code and of the tables in the kernel image. -/
structure Labels where
  systemRunElfArgsImpl : ℕ
  argsReturnTrack : ℕ
  systemElfPostCleanup : ℕ
  /-- The instruction after the call of `system_elf_post_cleanup`. -/
  afterCleanup : ℕ
  kernelParentRspsTable : ℕ
  kernelParentRflagsTable : ℕ

/-- `MAX_SYSCALL_CONTEXT_DEPTH`. -/
def maxSyscallContextDepth : ℕ := 64

namespace Cpu

/-- `push`. -/
def push (c : Cpu) (value : ℕ) : Cpu :=
  { c with rsp := c.rsp - 8, stack := Function.update c.stack (c.rsp - 8) value }

/-- `call`, with the address of the next instruction. -/
def call (c : Cpu) (target next : ℕ) : Cpu :=
  { c.push next with rip := target }

/-- `ret`. -/
def ret (c : Cpu) : Cpu :=
  { c with rip := c.stack c.rsp, rsp := c.rsp + 8 }

end Cpu

/-- The status bits a comparison of two 32-bit values leaves in the flags register: carry,
parity, adjust, zero, sign and overflow. -/
def statusBits (a b : ℕ) : ℕ :=
  let difference := (a + 2 ^ 32 - b) % 2 ^ 32
  let ones := ((List.range 8).map fun i => difference / 2 ^ i % 2).sum
  (if a < b then 0x1 else 0) + (if ones % 2 = 0 then 0x4 else 0) +
    (if a % 16 < b % 16 then 0x10 else 0) + (if a = b then 0x40 else 0) +
    (if 2 ^ 31 ≤ difference then 0x80 else 0) +
    (if (2 ^ 31 ≤ a ↔ b < 2 ^ 31) ∧ (2 ^ 31 ≤ a ↔ difference < 2 ^ 31) then 0x800 else 0)

/-- `cmp`: the status bits of the flags register are replaced, the others stay. -/
def compare (flags a b : ℕ) : ℕ :=
  (flags &&& (2 ^ 64 - 1 - 0x8D5)) ||| statusBits a b

/-- `system_run_elf_args` up to the entry of `system_run_elf_args_impl`, or to its return where the
counter is at its limit. -/
def systemRunElfArgs (labels : Labels) (c : Cpu) : Cpu :=
  let c := { c with rcx := c.syscallContextDepth }
  let c := { c with rflags := compare c.rflags c.rcx maxSyscallContextDepth }
  if maxSyscallContextDepth ≤ c.rcx then
    Cpu.ret { c with rax := 2 ^ 64 - 1 }
  else
    let c := c.push c.rflags
    let c := { c with rax := c.stack c.rsp, rsp := c.rsp + 8 }
    -- The flags of `sub` and `inc` are never read, so they are left out.
    let c := { c with rsp := c.rsp - 8 }
    let c := { c with rdx := labels.kernelParentRspsTable }
    let c := { c with kernelParentRsps := Function.update c.kernelParentRsps c.rcx c.rsp }
    let c := { c with rdx := labels.kernelParentRflagsTable }
    let c := { c with kernelParentRflags := Function.update c.kernelParentRflags c.rcx c.rax }
    let c := { c with syscallContextDepth := c.syscallContextDepth + 1 }
    c.call labels.systemRunElfArgsImpl labels.argsReturnTrack

/-- `.args_return_track` up to the call of `system_elf_post_cleanup`. -/
def argsReturnTrack (labels : Labels) (c : Cpu) : Cpu :=
  Cpu.call { c with rsp := c.rsp + 8 } labels.systemElfPostCleanup labels.afterCleanup

/-- The rest of `system_run_elf_args`. -/
def leave (c : Cpu) : Cpu :=
  Cpu.ret { c with rax := 0 }

/-- `dec` of a 32-bit value. -/
def dec (n : ℕ) : ℕ :=
  (n + 2 ^ 32 - 1) % 2 ^ 32

/-- `syscall_exit_to_launcher`. -/
def syscallExitToLauncher (labels : Labels) (c : Cpu) : Cpu :=
  let c := { c with rcx := dec c.syscallContextDepth }
  let c := { c with syscallContextDepth := c.rcx }
  let c := { c with rdx := labels.kernelParentRspsTable }
  let c := { c with r8 := c.kernelParentRsps c.rcx }
  let c := { c with kernelParentRsps := Function.update c.kernelParentRsps c.rcx 0 }
  let c := { c with rdx := labels.kernelParentRflagsTable }
  let c := { c with r9 := c.kernelParentRflags c.rcx }
  let c := { c with kernelParentRflags := Function.update c.kernelParentRflags c.rcx 0 }
  let c := { c with rdi := c.rcx }
  let c := { c with rsp := c.r8 }
  let c := c.push c.r9
  let c := { c with rflags := c.stack c.rsp, rsp := c.rsp + 8 }
  c.ret

/-- What C code leaves alone: the counter, the tables, and the stack from an address on. -/
structure Keeps (base : ℕ) (c c' : Cpu) : Prop where
  depth : c'.syscallContextDepth = c.syscallContextDepth
  rsps : c'.kernelParentRsps = c.kernelParentRsps
  rflags : c'.kernelParentRflags = c.kernelParentRflags
  stack : ∀ a, base ≤ a → c'.stack a = c.stack a

/-- A C function that was entered at `c` has returned with `c'`. -/
structure Returned (c c' : Cpu) : Prop extends Keeps c.rsp c c' where
  rip : c'.rip = c.stack c.rsp
  rsp : c'.rsp = c.rsp + 8

/-- From where the loader or the exit left the machine to the return of `system_run_elf_args`, or
to wherever else control has gone. -/
inductive Settles (labels : Labels) : Cpu → Cpu → Prop
  | back {c r : Cpu} : c.rip = labels.argsReturnTrack → Returned (argsReturnTrack labels c) r →
      Settles labels c (leave r)
  | stray {c : Cpu} : c.rip ≠ labels.argsReturnTrack → Settles labels c c

/-- The launch at `c` fails to load with the code `result` and ends at `f`. -/
def FailsToLoad (labels : Labels) (c : Cpu) (result : ℕ) (f : Cpu) : Prop :=
  ∃ r, Returned (systemRunElfArgs labels c) r ∧ r.rax = result ∧ Settles labels r f

/-- A system call of `system_run_elf_args`: its arguments are in registers, the return address is on
the stack and lies in the kernel, and the flags register has its architectural width. -/
structure AtCall (labels : Labels) (c : Cpu) : Prop where
  room : c.syscallContextDepth < maxSyscallContextDepth
  flags : c.rflags < 2 ^ 22
  track : 2 ^ 22 ≤ labels.argsReturnTrack
  back : 2 ^ 22 ≤ c.stack c.rsp
  rsp : 16 ≤ c.rsp

/-- What a started program does before it exits: work of its own and of the kernel, and launches of
its own that come back. -/
inductive Runs (labels : Labels) : ℕ → Cpu → Cpu → Prop
  | work {base : ℕ} {c c' : Cpu} : Keeps base c c' → Runs labels base c c'
  | failed {base result : ℕ} {c call f c' : Cpu} : Runs labels base c call → AtCall labels call →
      call.rsp ≤ base → FailsToLoad labels call result f → Keeps base f c' → Runs labels base c c'
  | exited {base : ℕ} {c call e f c' : Cpu} : Runs labels base c call → AtCall labels call →
      call.rsp ≤ base → Runs labels (systemRunElfArgs labels call).rsp (systemRunElfArgs labels call) e →
      Settles labels (syscallExitToLauncher labels e) f → f.rip = call.stack call.rsp →
      Keeps base f c' → Runs labels base c c'

/-- The launch at `c` starts a program that runs, exits with `status`, and ends at `f`. -/
def RunsAndExits (labels : Labels) (c : Cpu) (status : ℕ) (f : Cpu) : Prop :=
  ∃ e, Runs labels (systemRunElfArgs labels c).rsp (systemRunElfArgs labels c) e ∧ e.rdi = status ∧
    Settles labels (syscallExitToLauncher labels e) f

/-- What a launch promises its caller: the arguments reach the loader, the call returns, the counter
is as before, and the value is the load error or the exit status. The third argument and the value
are 32 bits wide. -/
structure Served (labels : Labels) (c : Cpu) (result : ℕ) (f : Cpu) : Prop where
  entered : (systemRunElfArgs labels c).rip = labels.systemRunElfArgsImpl
  filename : (systemRunElfArgs labels c).rdi = c.rdi
  size : (systemRunElfArgs labels c).rsi = c.rsi
  argc : (systemRunElfArgs labels c).rdx % 2 ^ 32 = c.rdx % 2 ^ 32
  argv : (systemRunElfArgs labels c).rcx = c.rcx
  rip : f.rip = c.stack c.rsp
  rsp : f.rsp = c.rsp + 8
  depth : f.syscallContextDepth = c.syscallContextDepth
  value : f.rax % 2 ^ 32 = result % 2 ^ 32

section

variable {labels : Labels} {base : ℕ} {c c' c'' f : Cpu}

/-- The flags a launch puts on the stack. -/
def flagsImage (c : Cpu) : ℕ :=
  compare c.rflags c.syscallContextDepth maxSyscallContextDepth

theorem statusBits_le (a b : ℕ) : statusBits a b ≤ 0x1 + 0x4 + 0x10 + 0x40 + 0x80 + 0x800 := by
  have hbit (p : Prop) [Decidable p] (v : ℕ) : (if p then v else 0) ≤ v := by
    split
    · exact le_rfl
    · exact Nat.zero_le v
  exact Nat.add_le_add (Nat.add_le_add (Nat.add_le_add (Nat.add_le_add (Nat.add_le_add
    (hbit _ _) (hbit _ _)) (hbit _ _)) (hbit _ _)) (hbit _ _)) (hbit _ _)

theorem flagsImage_lt (hc : AtCall labels c) : flagsImage c < 2 ^ 22 := by
  have hmasked : c.rflags &&& (2 ^ 64 - 1 - 0x8D5) < 2 ^ 22 := lt_of_le_of_lt Nat.and_le_left hc.flags
  have hstatus : statusBits c.syscallContextDepth maxSyscallContextDepth < 2 ^ 22 :=
    lt_of_le_of_lt (statusBits_le _ _) (by decide)
  exact Nat.or_lt_two_pow hmasked hstatus

/-- The machine at the entry of the loader. -/
theorem systemRunElfArgs_eq (hc : AtCall labels c) :
    systemRunElfArgs labels c = { c with
        rax := flagsImage c
        rcx := c.syscallContextDepth
        rdx := labels.kernelParentRflagsTable
        rflags := flagsImage c
        rsp := c.rsp - 16
        rip := labels.systemRunElfArgsImpl
        stack := update (update c.stack (c.rsp - 8) (flagsImage c)) (c.rsp - 16) labels.argsReturnTrack
        syscallContextDepth := c.syscallContextDepth + 1
        kernelParentRsps := update c.kernelParentRsps c.syscallContextDepth (c.rsp - 8)
        kernelParentRflags :=
          update c.kernelParentRflags c.syscallContextDepth (flagsImage c) } := by
  have hroom := Nat.not_le.mpr hc.room
  have hpop : c.rsp - 8 + 8 = c.rsp := by have := hc.rsp; omega
  simp [systemRunElfArgs, Cpu.push, Cpu.call, flagsImage, hroom, hpop, Nat.sub_sub]

/-- What a run that started at `c` has left at `c'`: the slots and the stack of the launches that
were open at `c`; the slots above belong to frames below `base`. -/
structure Stacked (base : ℕ) (c c' : Cpu) : Prop where
  depth : c.syscallContextDepth ≤ c'.syscallContextDepth
  limit : c.syscallContextDepth ≤ maxSyscallContextDepth →
    c'.syscallContextDepth ≤ maxSyscallContextDepth
  slots : ∀ s, s < c.syscallContextDepth → c'.kernelParentRsps s = c.kernelParentRsps s
  above : ∀ s, c.syscallContextDepth ≤ s → s < c'.syscallContextDepth →
    8 ≤ c'.kernelParentRsps s ∧ c'.kernelParentRsps s ≤ base
  stack : ∀ a, base ≤ a → c'.stack a = c.stack a

theorem Stacked.trans (hs : Stacked base c c') (ht : Stacked base c' c'') : Stacked base c c'' where
  depth := hs.depth.trans ht.depth
  limit h := ht.limit (hs.limit h)
  slots s hlt := by rw [ht.slots s (hlt.trans_le hs.depth), hs.slots s hlt]
  above s hge hlt := by
    by_cases h : s < c'.syscallContextDepth
    · rw [ht.slots s h]
      exact hs.above s hge h
    · exact ht.above s (Nat.not_lt.mp h) hlt
  stack a ha := by rw [ht.stack a ha, hs.stack a ha]

theorem Stacked.mono {base' : ℕ} (hs : Stacked base c c') (hb : base ≤ base') : Stacked base' c c' where
  depth := hs.depth
  limit := hs.limit
  slots := hs.slots
  above s hge hlt := ⟨(hs.above s hge hlt).1, (hs.above s hge hlt).2.trans hb⟩
  stack a ha := hs.stack a (hb.trans ha)

theorem Stacked.of_stack (hdepth : c'.syscallContextDepth = c.syscallContextDepth)
    (hrsps : c'.kernelParentRsps = c.kernelParentRsps)
    (hstack : ∀ a, base ≤ a → c'.stack a = c.stack a) : Stacked base c c' where
  depth := hdepth.ge
  limit h := hdepth ▸ h
  slots s _ := by rw [hrsps]
  above s hs hs' := absurd (hdepth ▸ hs') (Nat.not_lt.mpr hs)
  stack := hstack

theorem Keeps.stacked (hk : Keeps base c c') : Stacked base c c' := .of_stack hk.depth hk.rsps hk.stack

/-- The launcher uses the slot at the counter and the stack below its caller. -/
theorem stacked_systemRunElfArgs (hc : AtCall labels c) : Stacked c.rsp c (systemRunElfArgs labels c) := by
  have hrsp := hc.rsp
  rw [systemRunElfArgs_eq hc]
  refine ⟨Nat.le_succ _, fun _ => hc.room, fun s hs => update_of_ne hs.ne _ _,
    fun s hge hlt => ?_, fun a ha => ?_⟩
  · have hslot := le_antisymm (Nat.lt_succ_iff.mp hlt) hge
    subst hslot
    simp only [update_self]
    omega
  · dsimp only
    rw [update_of_ne (by omega), update_of_ne (by omega)]

/-- Once back in the launcher, only the stack below the address it returns through is used. -/
theorem Settles.stacked (hf : Settles labels c f) (hb : c.rsp + 8 ≤ base) : Stacked base c f := by
  cases hf with
  | stray _ => exact .of_stack rfl rfl fun _ _ => rfl
  | @back r _ hr =>
    have hkeeps : Keeps base (argsReturnTrack labels c) r := by
      refine ⟨hr.depth, hr.rsps, hr.rflags, fun a ha => hr.stack a ?_⟩
      simp only [argsReturnTrack, Cpu.call, Cpu.push]
      omega
    have hpushed : Stacked base c (argsReturnTrack labels c) :=
      .of_stack rfl rfl fun a ha => update_of_ne (by simp; omega) _ _
    exact (hpushed.trans hkeeps.stacked).trans (.of_stack rfl rfl fun _ _ => rfl)

theorem Settles.depth (hf : Settles labels c f) : f.syscallContextDepth = c.syscallContextDepth := by
  cases hf with
  | stray _ => rfl
  | back _ hr => exact hr.depth

/-- A launch that fails to load has used no more than the launcher does. -/
theorem FailsToLoad.stacked {result : ℕ} (hc : AtCall labels c) (hf : FailsToLoad labels c result f) :
    Stacked c.rsp c f := by
  obtain ⟨r, hr, _, hsettles⟩ := hf
  have hrsp := hc.rsp
  have hentry : (systemRunElfArgs labels c).rsp = c.rsp - 16 := by rw [systemRunElfArgs_eq hc]
  have hback : r.rsp + 8 ≤ c.rsp := by rw [hr.rsp, hentry]; omega
  have hloader : Stacked c.rsp (systemRunElfArgs labels c) r := hr.toKeeps.stacked.mono (by rw [hentry]; omega)
  exact ((stacked_systemRunElfArgs hc).trans hloader).trans (hsettles.stacked hback)

theorem FailsToLoad.depth {result : ℕ} (hc : AtCall labels c) (hf : FailsToLoad labels c result f) :
    f.syscallContextDepth = c.syscallContextDepth + 1 := by
  obtain ⟨r, hr, _, hsettles⟩ := hf
  rw [hsettles.depth, hr.depth, systemRunElfArgs_eq hc]

/-- The exit of a program, with the slot it leaves through. -/
theorem syscallExitToLauncher_eq (labels : Labels) {d : ℕ} (hd : c.syscallContextDepth = d + 1)
    (hlimit : c.syscallContextDepth ≤ maxSyscallContextDepth) (hslot : 8 ≤ c.kernelParentRsps d) :
    (syscallExitToLauncher labels c).syscallContextDepth = d ∧
      (syscallExitToLauncher labels c).kernelParentRsps = update c.kernelParentRsps d 0 ∧
      (syscallExitToLauncher labels c).rsp = c.kernelParentRsps d + 8 ∧
      (syscallExitToLauncher labels c).rip = c.stack (c.kernelParentRsps d) ∧
      (syscallExitToLauncher labels c).stack =
        update c.stack (c.kernelParentRsps d - 8) (c.kernelParentRflags d) := by
  have hlow : dec c.syscallContextDepth = d := by
    unfold dec maxSyscallContextDepth at *
    omega
  have hpop := Nat.sub_add_cancel hslot
  have hcell : c.kernelParentRsps d ≠ c.kernelParentRsps d - 8 := by omega
  simp [syscallExitToLauncher, Cpu.push, Cpu.ret, hlow, hpop, hcell]

/-- An exit gives up the topmost slot. -/
theorem Stacked.exit (hs : Stacked base c c') (hopen : c.syscallContextDepth < c'.syscallContextDepth)
    (hlimit : c.syscallContextDepth ≤ maxSyscallContextDepth) :
    Stacked base c (syscallExitToLauncher labels c') := by
  obtain ⟨d, hd⟩ : ∃ d, c'.syscallContextDepth = d + 1 := ⟨c'.syscallContextDepth - 1, by omega⟩
  have htop := hs.above d (by omega) (by omega)
  obtain ⟨hdepth, hrsps, _, _, hstack⟩ := syscallExitToLauncher_eq labels hd (hs.limit hlimit) htop.1
  refine ⟨by omega, fun _ => by have := hs.limit hlimit; omega, fun s hlt => ?_, fun s hge hlt => ?_,
    fun a ha => ?_⟩
  · rw [hrsps, update_of_ne (by omega)]
    exact hs.slots s hlt
  · rw [hrsps, update_of_ne (by omega)]
    exact hs.above s hge (by omega)
  · rw [hstack, update_of_ne (by omega)]
    exact hs.stack a ha

/-- A program that exits with no failed launch of its own left over returns to the flags its launch
had put on the stack: the saved stack pointer lies above the return address. -/
theorem exited_stray {e : Cpu} (hc : AtCall labels c)
    (hrun : Stacked (systemRunElfArgs labels c).rsp (systemRunElfArgs labels c) e)
    (hdepth : e.syscallContextDepth = c.syscallContextDepth + 1) :
    (syscallExitToLauncher labels e).rip = flagsImage c := by
  have hrsp := hc.rsp
  have hentry := systemRunElfArgs_eq hc
  have hslot : e.kernelParentRsps c.syscallContextDepth = c.rsp - 8 := by
    rw [hrun.slots _ (by rw [hentry]; exact Nat.lt_succ_self _), hentry]
    exact update_self ..
  have hlimit : e.syscallContextDepth ≤ maxSyscallContextDepth := hdepth ▸ hc.room
  obtain ⟨_, _, _, hrip, _⟩ := syscallExitToLauncher_eq labels hdepth hlimit (by omega)
  rw [hrip, hslot, hrun.stack _ (by rw [hentry]; dsimp only; omega), hentry]
  dsimp only
  rw [update_of_ne (by omega), update_self]

/-- A launch whose program has exited has used the stack below its caller only. -/
theorem Stacked.exited {e : Cpu} (hc : AtCall labels c)
    (hrun : Stacked (systemRunElfArgs labels c).rsp (systemRunElfArgs labels c) e)
    (hf : Settles labels (syscallExitToLauncher labels e) f) : Stacked c.rsp c f := by
  have hentry := systemRunElfArgs_eq hc
  have hentryRsp : (systemRunElfArgs labels c).rsp = c.rsp - 16 := by rw [hentry]
  have hentryDepth : (systemRunElfArgs labels c).syscallContextDepth = c.syscallContextDepth + 1 := by
    rw [hentry]
  have hwhole : Stacked c.rsp c e := (stacked_systemRunElfArgs hc).trans (hrun.mono (by omega))
  have hraised := hrun.depth
  have hleft : Stacked c.rsp c (syscallExitToLauncher labels e) := hwhole.exit (by omega) hc.room.le
  rcases Nat.eq_or_lt_of_le hraised with heq | hlt
  · -- The slot of this launch: control goes astray at once.
    have hrip := exited_stray hc hrun (by omega)
    cases hf with
    | stray _ => exact hleft
    | back hback _ =>
      have hflags := flagsImage_lt hc
      have htrack := hc.track
      omega
  · -- The slot of a failed launch of the program, whose frame lies below.
    obtain ⟨d, hd⟩ : ∃ d, e.syscallContextDepth = d + 1 := ⟨e.syscallContextDepth - 1, by omega⟩
    have htop := hrun.above d (by omega) (by omega)
    obtain ⟨_, _, hexit, _, _⟩ := syscallExitToLauncher_eq labels hd (hwhole.limit hc.room.le) htop.1
    exact hleft.trans (hf.stacked (by omega))

theorem Runs.stacked (hrun : Runs labels base c c') : Stacked base c c' := by
  induction hrun with
  | work hk => exact hk.stacked
  | failed _ hc hle hf hk ih => exact (ih.trans ((hf.stacked hc).mono hle)).trans hk.stacked
  | exited _ hc hle _ hf _ hk ih ihRun =>
    exact (ih.trans ((Stacked.exited hc ihRun hf).mono hle)).trans hk.stacked

/-- No launch keeps what it promises: one that fails to load leaves the counter raised, and one that
runs leaves it raised or does not come back. -/
theorem launch_not_served (hc : AtCall labels c) (result : ℕ)
    (hends : FailsToLoad labels c result f ∨ RunsAndExits labels c result f) :
    ¬ Served labels c result f := by
  intro hserved
  have hdepth := hserved.depth
  rcases hends with hfails | ⟨e, hrun, _, hf⟩
  · have hraised := hfails.depth hc
    omega
  have hstacked := hrun.stacked
  have hentryDepth : (systemRunElfArgs labels c).syscallContextDepth = c.syscallContextDepth + 1 := by
    rw [systemRunElfArgs_eq hc]
  have hraised := hstacked.depth
  rcases Nat.eq_or_lt_of_le hraised with heq | hlt
  · have hrip := exited_stray hc hstacked (by omega)
    have hflags := flagsImage_lt hc
    cases hf with
    | stray _ =>
      have hback := hserved.rip
      have hkernel := hc.back
      omega
    | back hback _ =>
      have htrack := hc.track
      omega
  · have hlimit := hstacked.limit (hentryDepth ▸ hc.room)
    have hhigh : c.syscallContextDepth < (syscallExitToLauncher labels e).syscallContextDepth := by
      change _ < dec e.syscallContextDepth
      unfold dec maxSyscallContextDepth at *
      omega
    have hsettled := hf.depth
    omega

end

/-- A kernel image. -/
def sampleLabels : Labels where
  systemRunElfArgsImpl := 0xffffffff80001000
  argsReturnTrack := 0xffffffff80002040
  systemElfPostCleanup := 0xffffffff80001800
  afterCleanup := 0xffffffff80002049
  kernelParentRspsTable := 0xffffffff80100000
  kernelParentRflagsTable := 0xffffffff80100200

/-- The shell calls `system_run_elf_args` with two arguments for the program. -/
def shellCall : Cpu where
  rax := 0
  rcx := 0xffffffff80200000
  rdx := 2
  rsi := 8192
  rdi := 0xffffffff80300000
  r8 := 0
  r9 := 0
  rsp := 0xffffffff80400000
  rflags := 0x202
  rip := 0xffffffff80002000
  stack _ := 0xffffffff80005000
  syscallContextDepth := 0
  kernelParentRsps _ := 0
  kernelParentRflags _ := 0

theorem shellCall_atCall : AtCall sampleLabels shellCall :=
  ⟨by decide, by decide, by decide, by decide, by decide⟩

/-- The return of a C function that does nothing but set its result. -/
def Cpu.returnWith (c : Cpu) (result : ℕ) : Cpu :=
  { c.ret with rax := result }

theorem returned_returnWith (c : Cpu) (result : ℕ) : Returned c (c.returnWith result) :=
  ⟨⟨rfl, rfl, rfl, fun _ _ => rfl⟩, rfl, rfl⟩

theorem launch_not_served_shellCall :
    ¬ Served sampleLabels shellCall (2 ^ 32 - 2) (leave ((argsReturnTrack sampleLabels
      ((systemRunElfArgs sampleLabels shellCall).returnWith (2 ^ 32 - 2))).returnWith 0)) :=
  launch_not_served shellCall_atCall _ (.inl
    ⟨_, returned_returnWith _ _, rfl, .back (by decide +kernel) (returned_returnWith _ _)⟩)

/-- A program the shell starts, which exits with status 7 at once: the exit jumps to the flags. -/
theorem shell_launch_lost :
    RunsAndExits sampleLabels shellCall 7
        (syscallExitToLauncher sampleLabels { systemRunElfArgs sampleLabels shellCall with rdi := 7 }) ∧
      ¬ Served sampleLabels shellCall 7
        (syscallExitToLauncher sampleLabels { systemRunElfArgs sampleLabels shellCall with rdi := 7 }) := by
  have hlost : (syscallExitToLauncher sampleLabels
      { systemRunElfArgs sampleLabels shellCall with rdi := 7 }).rip = 0x287 := by decide +kernel
  refine ⟨⟨{ systemRunElfArgs sampleLabels shellCall with rdi := 7 },
    .work ⟨rfl, rfl, rfl, fun _ _ => rfl⟩, rfl, .stray ?_⟩, fun hserved => ?_⟩
  · rw [hlost]
    decide
  · have hback := hserved.rip
    rw [hlost] at hback
    contradiction

/-!
## How deep launches go

`to_userland_ring3_args` takes the GS base of the entry at `syscall_context_depth`, and there are
`MAX_SYSCALL_CONTEXTS` of them. `EXEC_ELF` and `PROCESS_STACK` look at the counter before they
launch; the shell and `EXEC_ARGS` leave it to the launcher, whose own limit is 64. A history is
any sequence of launches, each with what the checks before it and the loader say, and of exits.
-/

/-- `MAX_PROCESS_STACK_DEPTH`. -/
def maxProcessStackDepth : ℕ := 4

/-- `MAX_SYSCALL_CONTEXTS`. -/
def maxSyscallContexts : ℕ := maxProcessStackDepth + 2

/-- The ways to launch a program. -/
inductive Via
  | shell
  | execElf
  | execArgs
  | processStack
  deriving DecidableEq

/-- The launches that go through `run_elf_binary_args`. -/
def Via.guarded : Via → Bool
  | .shell | .execArgs => false
  | .execElf | .processStack => true

/-- A launch: by which task, whether its path and arguments pass the checks made on them, and
whether the file can be loaded. -/
structure Request where
  via : Via
  pid : ℕ
  admitted : Bool
  loads : Bool

/-- The two counters, and the programs task 0 has started and that have not exited, the innermost
first. -/
structure Nesting where
  syscallContextDepth : ℕ
  processStackDepth : ℕ
  running : List Via

/-- What becomes of a launch; `entered d` is a call of `to_userland_ring3_args` at depth `d`. -/
inductive Entry
  | refused
  | failed
  | entered (depth : ℕ)

/-- The counter and the entry of `system_run_elf_args`. The check of the slot in
`system_run_elf_args_impl` never fails, as the launcher has made it already. -/
def startProgram (loads : Bool) (s : Nesting) : Nesting × Entry :=
  if maxSyscallContextDepth ≤ s.syscallContextDepth then (s, .refused)
  else
    ({ s with syscallContextDepth := s.syscallContextDepth + 1 },
      if loads then .entered (s.syscallContextDepth + 1) else .failed)

/-- `run_elf_binary_args`. -/
def runElfBinaryArgs (r : Request) (s : Nesting) : Nesting × Entry :=
  if r.pid ≠ 0 ∨ ¬ r.admitted ∨ maxProcessStackDepth ≤ s.processStackDepth ∨
      maxSyscallContexts - 1 ≤ s.syscallContextDepth then (s, .refused)
  else
    match startProgram r.loads { s with processStackDepth := s.processStackDepth + 1 } with
    | (s, .entered d) => ({ s with running := r.via :: s.running }, .entered d)
    | (s, e) => ({ s with processStackDepth := s.processStackDepth - 1 }, e)

/-- `system_exec_args` of the shell, and `EXEC_ARGS`. The exit of a spawned task ends the task, so
only programs of task 0 are on the list. -/
def execDirectly (r : Request) (s : Nesting) : Nesting × Entry :=
  if ¬ r.admitted then (s, .refused)
  else
    match startProgram r.loads s with
    | (s, .entered d) =>
      ({ s with running := if r.pid = 0 then r.via :: s.running else s.running }, .entered d)
    | (s, e) => (s, e)

/-- One launch. -/
def launchProgram (r : Request) (s : Nesting) : Nesting × Entry :=
  if r.via.guarded then runElfBinaryArgs r s else execDirectly r s

/-- The exit of the innermost program of task 0. -/
def exitProgram (s : Nesting) : Nesting :=
  match s.running with
  | [] => s
  | via :: rest =>
    { syscallContextDepth := dec s.syscallContextDepth
      processStackDepth := if via.guarded then s.processStackDepth - 1 else s.processStackDepth
      running := rest }

/-- What happens to the counters. -/
inductive Event
  | launch (r : Request)
  | exit

/-- One event. -/
def stepNesting (s : Nesting) : Event → Nesting × Entry
  | .launch r => launchProgram r s
  | .exit => (exitProgram s, .refused)

/-- The depths at which a history enters user mode. -/
def entryDepths (s : Nesting) : List Event → List ℕ
  | [] => []
  | e :: events =>
    match stepNesting s e with
    | (s', .entered d) => d :: entryDepths s' events
    | (s', _) => entryDepths s' events

/-- The counters at boot. -/
def booted : Nesting := ⟨0, 0, []⟩

/-- What the launches of a history have come to: those whose file failed to load, those of spawned
tasks, and those of task 0 whose program has not exited. -/
structure Tally where
  failed : ℕ
  spawned : ℕ
  nested : ℕ

/-- The launches that still take a context each. -/
def Tally.total (t : Tally) : ℕ := t.failed + t.spawned + t.nested

/-- What an event adds, by what became of it. -/
def Tally.add (t : Tally) : Event → Entry → Tally
  | .launch _, .refused => t
  | .launch _, .failed => { t with failed := t.failed + 1 }
  | .launch r, .entered _ =>
    if r.pid = 0 then { t with nested := t.nested + 1 } else { t with spawned := t.spawned + 1 }
  | .exit, _ => { t with nested := t.nested - 1 }

/-- The launches of a history. -/
def tally (s : Nesting) (t : Tally) : List Event → Tally
  | [] => t
  | e :: events => tally (stepNesting s e).1 (t.add e (stepNesting s e).2) events

/-- Fewer than `MAX_SYSCALL_CONTEXTS - 1` contexts are taken, or so many that the launcher refuses. -/
def Tally.Spares (t : Tally) : Event → Prop
  | .launch r => r.via.guarded = false → r.admitted → r.loads →
      t.total < maxSyscallContexts - 1 ∨ maxSyscallContextDepth ≤ t.total
  | .exit => True

/-- The tally says what the counter is. -/
structure Tally.Counts (t : Tally) (s : Nesting) : Prop where
  depth : s.syscallContextDepth = t.total
  nested : t.nested = s.running.length
  bounded : t.total ≤ maxSyscallContextDepth

section

variable {s : Nesting}

/-- A launch enters user mode one above the counter it found. -/
theorem startProgram_entered {loads : Bool} {d : ℕ} :
    (startProgram loads s).2 = .entered d ↔
      s.syscallContextDepth < maxSyscallContextDepth ∧ loads ∧ d = s.syscallContextDepth + 1 := by
  unfold startProgram
  split
  · simp_all
  rename_i hlimit
  cases loads with
  | false => simp
  | true =>
    simp only [if_true, Entry.entered.injEq]
    exact ⟨fun h => ⟨Nat.not_le.mp hlimit, trivial, h.symm⟩, fun h => h.2.2.symm⟩

/-- `run_elf_binary_args` enters user mode with a context left. -/
theorem runElfBinaryArgs_entered {r : Request} {d : ℕ} (h : (runElfBinaryArgs r s).2 = .entered d) :
    d < maxSyscallContexts := by
  unfold runElfBinaryArgs at h
  split_ifs at h
  have hstart : (startProgram r.loads { s with processStackDepth := s.processStackDepth + 1 }).2 =
      .entered d := by
    split at h <;> simp_all
  obtain ⟨_, _, rfl⟩ := startProgram_entered.mp hstart
  dsimp only at *
  omega

theorem execDirectly_entered {r : Request} {d : ℕ} :
    (execDirectly r s).2 = .entered d ↔ r.admitted ∧
      s.syscallContextDepth < maxSyscallContextDepth ∧ r.loads ∧ d = s.syscallContextDepth + 1 := by
  have hsame : (match startProgram r.loads s with
      | (s, .entered d) => (({ s with running := if r.pid = 0 then r.via :: s.running else s.running },
          .entered d) : Nesting × Entry)
      | (s, e) => (s, e)).2 = (startProgram r.loads s).2 := by
    split <;> simp_all
  unfold execDirectly
  split
  · simp_all
  · rw [hsame, startProgram_entered]
    simp_all

/-- An event keeps to the contexts exactly when the launches before it have left one. -/
theorem spares_iff {t : Tally} (hcounts : t.Counts s) {e : Event} :
    t.Spares e ↔ ∀ d, (stepNesting s e).2 = .entered d → d < maxSyscallContexts := by
  cases e with
  | exit => simp [Tally.Spares, stepNesting]
  | launch r =>
    cases hvia : r.via.guarded with
    | true =>
      simp only [Tally.Spares, stepNesting, launchProgram, hvia, if_true]
      exact ⟨fun _ d hd => runElfBinaryArgs_entered hd, by simp⟩
    | false =>
      simp only [Tally.Spares, stepNesting, launchProgram, hvia, Bool.false_eq_true, if_false,
        execDirectly_entered, forall_const, ← hcounts.depth]
      constructor
      · rintro hspares d ⟨hadmitted, hlimit, hloads, rfl⟩
        exact Nat.add_lt_of_lt_sub ((hspares hadmitted hloads).resolve_right (Nat.not_le.mpr hlimit))
      · intro hbelow hadmitted hloads
        by_cases hlimit : s.syscallContextDepth < maxSyscallContextDepth
        · exact .inl (Nat.lt_sub_of_add_lt (hbelow _ ⟨hadmitted, hlimit, hloads, rfl⟩))
        · exact .inr (Nat.not_lt.mp hlimit)

/-- Below the limit the counter takes one more, whether the file loads or not. -/
theorem startProgram_of_lt (hlimit : s.syscallContextDepth < maxSyscallContextDepth) :
    startProgram true s =
        ({ s with syscallContextDepth := s.syscallContextDepth + 1 }, .entered (s.syscallContextDepth + 1)) ∧
      startProgram false s = ({ s with syscallContextDepth := s.syscallContextDepth + 1 }, .failed) :=
  ⟨if_neg (Nat.not_le.mpr hlimit), if_neg (Nat.not_le.mpr hlimit)⟩

/-- `run_elf_binary_args` keeps the tally. -/
theorem Tally.Counts.guarded {t : Tally} (hcounts : t.Counts s) (r : Request) :
    (t.add (.launch r) (runElfBinaryArgs r s).2).Counts (runElfBinaryArgs r s).1 := by
  obtain ⟨hdepth, hnested, hbounded⟩ := hcounts
  unfold runElfBinaryArgs
  split_ifs with hrefused
  · exact ⟨hdepth, hnested, hbounded⟩
  · have hlimit : s.syscallContextDepth < maxSyscallContextDepth := by
      unfold maxSyscallContexts maxProcessStackDepth maxSyscallContextDepth at *
      omega
    have hpid : r.pid = 0 := by omega
    have hsum : s.syscallContextDepth = t.failed + t.spawned + t.nested := hdepth
    obtain ⟨hentered, hfailed⟩ := startProgram_of_lt
      (s := { s with processStackDepth := s.processStackDepth + 1 }) hlimit
    cases r.loads with
    | false =>
      rw [hfailed]
      constructor <;> simp only [Tally.add, Tally.total] <;> omega
    | true =>
      rw [hentered]
      constructor <;> simp only [Tally.add, Tally.total, hpid, if_true, List.length_cons] <;> omega

/-- A launch of the shell or of `EXEC_ARGS` keeps the tally. -/
theorem Tally.Counts.direct {t : Tally} (hcounts : t.Counts s) (r : Request) :
    (t.add (.launch r) (execDirectly r s).2).Counts (execDirectly r s).1 := by
  obtain ⟨hdepth, hnested, hbounded⟩ := hcounts
  have hsum : s.syscallContextDepth = t.failed + t.spawned + t.nested := hdepth
  unfold execDirectly
  by_cases hadmitted : r.admitted
  case neg =>
    rw [if_pos hadmitted]
    exact ⟨hdepth, hnested, hbounded⟩
  rw [if_neg (not_not.mpr hadmitted)]
  by_cases hlimit : s.syscallContextDepth < maxSyscallContextDepth
  · obtain ⟨hentered, hfailed⟩ := startProgram_of_lt hlimit
    cases r.loads with
    | false =>
      rw [hfailed]
      constructor <;> simp only [Tally.add, Tally.total] <;> omega
    | true =>
      rw [hentered]
      by_cases hpid : r.pid = 0
      · constructor <;> simp only [Tally.add, Tally.total, hpid, if_true, List.length_cons] <;> omega
      · constructor <;> simp only [Tally.add, Tally.total, hpid, if_false] <;> omega
  · rw [startProgram, if_pos (Nat.not_lt.mp hlimit)]
    exact ⟨hdepth, hnested, hbounded⟩

/-- An exit keeps the tally. -/
theorem Tally.Counts.exit {t : Tally} (hcounts : t.Counts s) :
    (t.add .exit .refused).Counts (exitProgram s) := by
  obtain ⟨hdepth, hnested, hbounded⟩ := hcounts
  have hsum : s.syscallContextDepth = t.failed + t.spawned + t.nested := hdepth
  have hlimit : t.failed + t.spawned + t.nested ≤ 64 := hbounded
  unfold exitProgram
  split
  case h_1 hnone =>
    rw [hnone, List.length_nil] at hnested
    constructor <;> simp only [Tally.add, Tally.total, maxSyscallContextDepth, hnone, List.length_nil] <;> omega
  case h_2 via rest hrunning =>
    rw [hrunning, List.length_cons] at hnested
    have hdec : dec s.syscallContextDepth = s.syscallContextDepth - 1 := by
      unfold dec
      omega
    constructor <;> simp only [Tally.add, Tally.total, maxSyscallContextDepth, hdec] <;> omega

theorem Tally.Counts.step {t : Tally} (hcounts : t.Counts s) (e : Event) :
    (t.add e (stepNesting s e).2).Counts (stepNesting s e).1 := by
  cases e with
  | launch r =>
    cases hvia : r.via.guarded with
    | false =>
      rw [stepNesting, launchProgram, hvia]
      exact hcounts.direct r
    | true =>
      rw [stepNesting, launchProgram, hvia]
      exact hcounts.guarded r
  | exit => exact hcounts.exit

/-- A history keeps to the contexts exactly when the launches before each event leave one for it. -/
theorem entryDepths_lt_iff {t : Tally} (hcounts : t.Counts s) (events : List Event) :
    (∀ d ∈ entryDepths s events, d < maxSyscallContexts) ↔
      ∀ before e after, events = before ++ e :: after → (tally s t before).Spares e := by
  induction events generalizing s t with
  | nil => simp [entryDepths]
  | cons e events ih =>
    have hhead : (∀ d ∈ entryDepths s (e :: events), d < maxSyscallContexts) ↔
        t.Spares e ∧ ∀ d ∈ entryDepths (stepNesting s e).1 events, d < maxSyscallContexts := by
      rw [spares_iff hcounts, entryDepths]
      split <;> simp_all
    rw [hhead, ih (hcounts.step e)]
    constructor
    · rintro ⟨hfirst, hrest⟩ before f after hsplit
      cases before with
      | nil =>
        cases hsplit
        exact hfirst
      | cons _ before =>
        cases hsplit
        exact hrest before f after rfl
    · intro hall
      refine ⟨hall [] e events rfl, ?_⟩
      rintro before f after rfl
      exact hall (e :: before) f after rfl

end

/-- From boot, user mode is entered within the contexts exactly when the failed launches, those of
spawned tasks and the programs that have not exited are fewer than five at each launch by the shell
and by `EXEC_ARGS` that loads. -/
theorem entries_have_context_iff (events : List Event) :
    (∀ d ∈ entryDepths booted events, d < maxSyscallContexts) ↔
      ∀ before e after, events = before ++ e :: after → (tally booted ⟨0, 0, 0⟩ before).Spares e :=
  entryDepths_lt_iff ⟨rfl, rfl, by decide⟩ events

/-- A launch of the shell. -/
def shellLaunch (loads : Bool) : Event :=
  .launch ⟨.shell, 0, true, loads⟩

/-- Five broken files, then a good one. -/
theorem sixth_launch_without_context :
    entryDepths booted (List.replicate 5 (shellLaunch false) ++ [shellLaunch true]) = [6] ∧
      ¬ 6 < maxSyscallContexts := by
  decide

end Windoge.Launcher
