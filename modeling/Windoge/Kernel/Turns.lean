import Windoge.Kernel.Hosting

/-!
# Round robin

A timer tick passes the processor to the next active slot. Whatever is spawned, killed or left in between,
a task therefore waits for no more ticks than there are slots before its own.
-/

namespace Windoge.Kernel

open Paging Event List

variable {Fs : Type} {ops : KernelOps Fs} {m : Machine Fs} {i after : Fin schedulerTaskLimit}
  {k : Scheduler} {events : List (Event Fs)}

/-- The event is a timer tick. -/
def Event.isTick : Event Fs → Bool
  | tick _ => true
  | _ => false

/-- The search stops at the first active slot, so it comes closer to any other active one. -/
theorem findNext_closer (hactive : k.pids i ≠ none) (hne : after ≠ i) :
    (i - schedulerFindNext after k).val < (i - after).val := by
  obtain ⟨pid, hpid⟩ := Option.ne_none_iff_exists'.mp hactive
  obtain ⟨-, hactive, -⟩ := Scheduler.pids_eq_some.mp hpid
  have hlimit : schedulerTaskLimit = 8 := rfl
  have hpos : 0 < (i - after).val := Fin.pos_iff_ne_zero.mpr (sub_ne_zero.mpr hne.symm)
  have hself : after + Fin.ofNat schedulerTaskLimit (i - after).val = i := by
    rw [Fin.ofNat_val_eq_self, add_sub_cancel]
  unfold schedulerFindNext
  rw [find?_map]
  cases hfind : (range' 1 schedulerTaskLimit).find?
    ((fun index => (k.tasks index).active) ∘ fun step => after + Fin.ofNat schedulerTaskLimit step) with
  | none =>
    have hnot := find?_eq_none.mp hfind (i - after).val (by simp; omega)
    exact absurd hactive (by simpa [hself] using hnot)
  | some step =>
    obtain ⟨-, hmem, hfirst⟩ := find?_range'_eq_some.mp hfind
    rw [mem_range'_1] at hmem
    have hle : step ≤ (i - after).val := by
      by_contra hlt
      have hnot := hfirst (i - after).val (by omega) (by omega)
      simp [hactive] at hnot
    change (i - (after + Fin.ofNat schedulerTaskLimit step)).val < _
    have hstep : (Fin.ofNat schedulerTaskLimit step).val = step := Nat.mod_eq_of_lt (by omega)
    rw [← sub_sub, Fin.sub_val_of_le (Fin.le_def.mpr (hstep.trans_le hle)), hstep]
    omega

/-- An event brings the turn of an active slot closer if it is a tick, and never takes it further away. -/
theorem Event.step_wait (event : Event Fs) (hrunning : m.scheduler.current.active = true)
    (hactive : (event.step ops m).scheduler.pids i ≠ none) (hne : m.scheduler.currentTask ≠ i) :
    (i - (event.step ops m).scheduler.currentTask).val + (if event.isTick then 1 else 0) ≤
      (i - m.scheduler.currentTask).val := by
  have hstays (h : (event.step ops m).scheduler.currentTask = m.scheduler.currentTask) :
      (i - (event.step ops m).scheduler.currentTask).val ≤ (i - m.scheduler.currentTask).val := by rw [h]
  cases event with
  | tick frame =>
    obtain ⟨k, hpids, hroster⟩ := @roster_schedulerOnTimer _ ops m frame
    obtain ⟨hcurrent, hsame⟩ := Prod.mk.inj hroster
    rw [if_neg (ne_false_of_eq_true hrunning)] at hcurrent
    have hkept : k.pids i ≠ none := by
      rw [hpids, ← (Prod.mk.inj hsame).1]
      exact hactive
    exact (congrArg (fun c => (i - c).val) hcurrent).trans_lt (findNext_closer hkept hne)
  | spawn path argc argv workspaceId =>
    rcases @roster_spawn _ ops path argc argv workspaceId m with ⟨-, hroster⟩ | ⟨slot, -, -, hroster⟩ <;>
      exact hstays (Prod.mk.inj hroster).1
  | kill pid =>
    refine hstays ?_
    change (schedulerKill pid m.scheduler).2.currentTask = _
    unfold schedulerKill
    split_ifs
    · rfl
    · split <;> rfl
  | exit =>
    by_cases hshell : m.scheduler.currentTask = 0
    · exact hstays (congrArg (fun m : Machine Fs => m.scheduler.currentTask) (if_pos hshell))
    · have hnext : (schedulerExitCurrent ops m).scheduler.currentTask =
          schedulerFindNext m.scheduler.currentTask (schedulerExitCurrent ops m).scheduler := by
        unfold schedulerExitCurrent
        rw [if_neg hshell]
        rfl
      exact (congrArg (fun c => (i - c).val) hnext).trans_le (findNext_closer hactive hne).le
  | work behaviour => exact le_rfl

/-- As long as a slot is active without having its turn, the ticks are fewer than the slots before it. -/
theorem countP_isTick_lt (h : ∀ done ∈ events.inits, (runEvents ops done m).scheduler.current.active = true ∧
      (runEvents ops done m).scheduler.pids i ≠ none ∧ (runEvents ops done m).scheduler.currentTask ≠ i) :
    events.countP isTick < (i - m.scheduler.currentTask).val := by
  induction events generalizing m with
  | nil =>
    obtain ⟨-, -, hne⟩ := h [] (by simp)
    exact Fin.pos_iff_ne_zero.mpr (sub_ne_zero.mpr hne.symm)
  | cons event events ih =>
    rw [inits_cons, forall_mem_cons, forall_mem_map] at h
    obtain ⟨⟨hrunning, -, hne⟩, hlater⟩ := h
    have hstep := event.step_wait (m := m) hrunning (hlater [] (by simp)).2.1 hne
    have hrest : events.countP isTick < (i - (event.step ops m).scheduler.currentTask).val := ih hlater
    rw [countP_cons]
    omega

/-- No task starves: a spawned task that stays active has its turn within as many ticks as there are slots
from the running one to its own, whatever the other tasks do and whoever comes and goes. -/
theorem every_task_has_its_turn (events : List (Event Fs)) (m : Machine Fs) (i : Fin schedulerTaskLimit)
    (hactive : ∀ done ∈ events.inits, (runEvents ops done m).scheduler.current.active = true ∧
      (runEvents ops done m).scheduler.pids i ≠ none)
    (hticks : (i - m.scheduler.currentTask).val ≤ events.countP isTick) :
    ∃ done ∈ events.inits, (runEvents ops done m).scheduler.currentTask = i := by
  by_contra hnever
  have hwait := countP_isTick_lt fun done hdone =>
    ⟨(hactive done hdone).1, (hactive done hdone).2, fun heq => hnever ⟨done, hdone, heq⟩⟩
  exact hwait.not_ge hticks

/-- The shell and two other tasks. -/
def threeTasks : Scheduler :=
  { twoTasks smallMachine with tasks := fun i => if i = 2 then
      { unusedTask with pid := 3, active := true, cr3 := 0x1000 } else (twoTasks smallMachine).tasks i }

/-- Two ticks give the third task its turn, though the second one is killed before. -/
theorem every_task_has_its_turn_third : ∃ done ∈ [kill 2, tick 0, tick 0].inits, (runEvents tinyOps done
    { shellMachine with scheduler := threeTasks }).scheduler.currentTask = 2 :=
  every_task_has_its_turn [kill 2, tick 0, tick 0] _ 2 (by decide +kernel) (by decide)

end Windoge.Kernel
