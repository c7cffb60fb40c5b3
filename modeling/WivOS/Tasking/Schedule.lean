import WivOS.Lib.CallProg
import WivOS.Tasking.Alone

/-!
# The calls of the scheduler

`scheduler_schedule` with a call of a lock function or of a `skippreempt` macro as one step
(`LockCall`), where the programs of `Tasking.Kernel` have the operations on the lock and on the preemption
counter as steps of their own. Expanding the calls gives those programs (`expand_schedulerSchedule`).
-/

namespace WivOS.Tasking
open WivOS.Lib WivOS.Lib.LockProg WivOS.Lib.CallProg

/-- The lock functions and the `skippreempt` macros. -/
inductive LockCall where
  | lock (l : Lock)
  | tryLock (l : Lock)
  | unlock (l : Lock)
  | lockSkip (l : Lock)
  | tryLockSkip (l : Lock)
  | unlockSkip (l : Lock)
deriving DecidableEq, Repr

variable {C : Type} [DecidableEq C]

/-- The function of a call; whether the lock was taken already, for those that try. -/
def LockCall.body (c : C) : LockCall → M C Bool
  | lock l => do spinlockLock c l; return false
  | tryLock l => spinlockTryLock c l
  | unlock l => do spinlockUnlock c l; return false
  | lockSkip l => do spinlockLockSkippreempt c l; return false
  | tryLockSkip l => spinlockTryLockSkippreempt c l
  | unlockSkip l => do spinlockUnlockSkippreempt c l; return false

/-- Kernel code in calls. -/
abbrev Code (C : Type) := CallProg LockCall (Kernel C) Fault

namespace Code

/-- C `process_get_process_no_lock`. -/
def processGetProcessNoLock (pid : Nat) : Code C (Option Process) := do
  if maxProcesses ≤ pid then return none
  invoke (.lock .processLock)
  let process ← read fun k => k.processTable pid
  invoke (.unlock .processLock)
  return process

/-- The loop of `scheduler_get_next_task`. -/
def nextTaskLoop : Nat → Nat → Nat → Code C (Option Nat)
  | 0, _, _ => perform fun _ => .error .hangs
  | fuel + 1, i, currentTask => do
    if (← read Kernel.totalActiveTasks) ≤ i then return none
    let (slot, currentTask) ← perform fun k => (k.taskFrom currentTask).map (·, k)
    let following := if currentTask + 1 = maxThreads * 2 then 0 else currentTask + 1
    match slot with
    | .null => return none
    | .deleted => nextTaskLoop fuel i following
    | .thread t =>
      if ← ask (.tryLockSkip (.thread t)) then nextTaskLoop fuel (i + 1) following
      else return some t

/-- C `scheduler_get_next_task`. -/
def schedulerGetNextTask (fuel currentTask : Nat) : Code C (Option Nat) :=
  nextTaskLoop fuel 0 ((currentTask + 1) % 2 ^ 64)

/-- The part of `scheduler_schedule` for the thread that a CPU executes. -/
def preemptCurrent (c : C) (regs : Regs) : Code C Unit := do
  match ← perform (storeCurrent c regs) with
  | none => return ()
  | some t => invoke (.unlockSkip (.thread t))

/-- C `process->page_table`. -/
def pageTableOf (process : Option Process) : Code C Nat :=
  perform fun k =>
    match process with
    | none => .error .badPointer
    | some process => .ok (process.pageTable, k)

/-- The end of `scheduler_schedule`. -/
def decideSwitch (currentPid t : Nat) (process currentProcess : Option Process) : Code C Decision := do
  if currentPid = minusOne then return .task t (some (← pageTableOf process))
  let pageTable ← pageTableOf process
  let currentPageTable ← pageTableOf currentProcess
  return .task t (if pageTable ≠ currentPageTable then some pageTable else none)

/-- The part of `scheduler_schedule` after the task was found. -/
def switchTo (c : C) (currentPid t : Nat) : Code C Decision := do
  modify (makeCurrent c t)
  let pid ← read fun k => (k.threads t).pid
  let process ← processGetProcessNoLock pid
  if pid = currentPid then decideSwitch currentPid t process process
  else if currentPid ≠ minusOne then
    decideSwitch currentPid t process (← processGetProcessNoLock currentPid)
  else decideSwitch currentPid t process none

/-- C `scheduler_schedule` up to where it returns, idles or switches. -/
def decideTask (c : C) (fuel : Nat) (regs : Regs) : Code C Decision := do
  let (running, counter) ← read fun k => (k.schedulerRunning, (k.cpus c).preemptCounter)
  if !running ∨ counter ≠ 0 then return .skip
  invoke (.lockSkip .entrySchedulerLock)
  if ← ask (.tryLockSkip .schedulerLock) then
    invoke (.unlockSkip .entrySchedulerLock)
    return .skip
  let (currentPid, currentTaskID) ←
    read fun k => ((k.cpus c).currentPid, (k.cpus c).currentTaskID)
  preemptCurrent c regs
  match ← schedulerGetNextTask fuel currentTaskID with
  | none => return .idle
  | some t => switchTo c currentPid t

/-- C `arch_scheduler_unlock_locks`. -/
def archSchedulerUnlockLocks : Code C Unit := do
  invoke (.unlockSkip .schedulerLock)
  invoke (.unlockSkip .entrySchedulerLock)

/-- C `arch_scheduler_idle`, with `arch_scheduler_idle_halt` up to its endless loop. -/
def archSchedulerIdle (cfg : Config C) (c : C) : Code C Unit := do
  modify (loadIdleStack cfg c)
  modify (makeIdle c)
  archSchedulerUnlockLocks

/-- C `arch_scheduler_switch_task`, with `arch_scheduler_context_switch`. -/
def archSchedulerSwitchTask (cfg : Config C) (c : C) (t : Nat) (pageTable : Option Nat) :
    Code C Unit := do
  modify (prepareSwitch cfg c t pageTable)
  archSchedulerUnlockLocks
  modify (restoreContext c t)

/-- C `scheduler_schedule`, up to the point from where the CPU executes something else; how it got
there. -/
def schedulerSchedule (cfg : Config C) (c : C) (fuel : Nat) (regs : Regs) : Code C Decision := do
  let decision ← decideTask c fuel regs
  match decision with
  | .skip => return decision
  | .idle =>
    archSchedulerIdle cfg c
    return decision
  | .task t pageTable =>
    archSchedulerSwitchTask cfg c t pageTable
    return decision

end Code

section Expand
variable {c : C}

/-- The macro in lock calls is the macro in locks. -/
lemma expand_processGetProcessNoLock (pid : Nat) :
    (Code.processGetProcessNoLock pid : Code C _).expand (LockCall.body c) = processGetProcessNoLock c pid := by
  unfold Code.processGetProcessNoLock processGetProcessNoLock
  split
  · rfl
  · simp [LockCall.body]

/-- So is the loop of `scheduler_get_next_task`. -/
lemma expand_nextTaskLoop (fuel i currentTask : Nat) :
    (Code.nextTaskLoop fuel i currentTask : Code C _).expand (LockCall.body c) =
      nextTaskLoop c fuel i currentTask := by
  induction fuel generalizing i currentTask with
  | zero => rfl
  | succ fuel ih =>
    simp only [Code.nextTaskLoop, nextTaskLoop, expand_bind, expand_read]
    congr 1
    funext total
    split
    · rfl
    · simp only [expand_bind, expand_perform]
      congr 1
      funext r
      obtain ⟨slot, _⟩ := r
      cases slot with
      | null => rfl
      | deleted => exact ih ..
      | thread t =>
        simp only [expand_bind, expand_ask]
        congr 1
        funext taken
        cases taken with
        | true => exact ih ..
        | false => rfl

/-- So is the preemption. -/
lemma expand_preemptCurrent (regs : Regs) :
    (Code.preemptCurrent c regs).expand (LockCall.body c) = preemptCurrent c regs := by
  simp only [Code.preemptCurrent, preemptCurrent, expand_bind, expand_perform]
  congr 1
  funext r
  cases r with
  | none => rfl
  | some t => simp [LockCall.body]

/-- So is the end of `scheduler_schedule`. -/
lemma expand_decideSwitch (currentPid t : Nat) (process currentProcess : Option Process) :
    (Code.decideSwitch currentPid t process currentProcess : Code C _).expand (LockCall.body c) =
      decideSwitch currentPid t process currentProcess := by
  unfold Code.decideSwitch decideSwitch
  split
  · rfl
  · rfl

/-- So is the part after the task was found. -/
lemma expand_switchTo (currentPid t : Nat) :
    (Code.switchTo c currentPid t).expand (LockCall.body c) = switchTo c currentPid t := by
  simp only [Code.switchTo, switchTo, expand_bind, expand_modify, expand_read,
    expand_processGetProcessNoLock]
  congr 1
  funext _
  congr 1
  funext pid
  congr 1
  funext process
  split
  · exact expand_decideSwitch ..
  · split
    · simp only [expand_bind, expand_processGetProcessNoLock, expand_decideSwitch]
    · exact expand_decideSwitch ..

/-- So is all up to the decision. -/
lemma expand_decideTask (fuel : Nat) (regs : Regs) :
    (Code.decideTask c fuel regs).expand (LockCall.body c) = decideTask c fuel regs := by
  simp only [Code.decideTask, decideTask, expand_bind, expand_read]
  congr 1
  funext r
  obtain ⟨running, counter⟩ := r
  dsimp only
  split
  · rfl
  · simp only [expand_bind, expand_invoke, expand_ask, LockCall.body, bind_assoc, pure_bind]
    congr 1
    funext _
    congr 1
    funext taken
    split
    · simp [LockCall.body]
    · simp only [expand_bind, expand_read, expand_preemptCurrent, Code.schedulerGetNextTask,
        expand_nextTaskLoop, schedulerGetNextTask]
      congr 1
      funext r
      congr 1
      funext _
      congr 1
      funext task
      cases task with
      | none => rfl
      | some t => exact expand_switchTo ..

/-- So is the release of the scheduler's locks. -/
lemma expand_archSchedulerUnlockLocks :
    (Code.archSchedulerUnlockLocks : Code C _).expand (LockCall.body c) = archSchedulerUnlockLocks c := by
  simp [Code.archSchedulerUnlockLocks, archSchedulerUnlockLocks, LockCall.body]

/-- The code in calls is the program of the scheduler. -/
lemma expand_schedulerSchedule (cfg : Config C) (fuel : Nat) (regs : Regs) :
    ((Code.schedulerSchedule cfg c fuel regs).expand (LockCall.body c) >>= fun _ => pure ()) =
      schedulerSchedule cfg c fuel regs := by
  simp only [Code.schedulerSchedule, schedulerSchedule, expand_bind, expand_decideTask, bind_assoc]
  congr 1
  funext d
  cases d with
  | skip => rfl
  | idle =>
    simp [Code.archSchedulerIdle, archSchedulerIdle, archSchedulerIdleHalt,
      expand_archSchedulerUnlockLocks]
  | task t pageTable =>
    simp [Code.archSchedulerSwitchTask, archSchedulerSwitchTask, expand_archSchedulerUnlockLocks]

end Expand

end WivOS.Tasking
