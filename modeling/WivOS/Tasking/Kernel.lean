import WivOS.Lib.LockProg
import WivOS.Vmm.Riscv64
import Mathlib.Data.BitVec

/-!
# Processes, threads and the scheduler

`kernel/tasking` with the riscv64 parts that it calls (`scheduler.c`, `thread.c`, `spinlock.c`, `cpu.c`
and the context switch of `isr.S`), on any number of CPUs, after `riscv_cpu_init`. The functions are
programs over the kernel's locks: an acquisition, an attempt and a release of a lock is one step, and so
is what stands between two of them. Processes are named by their `pid` and threads by the number of
their `thread_t`; a lock is named by the object that it is part of, so that `INIT_SPINLOCK` of a fresh
object is the free lock of its name. `pmm_alloc`, `kmalloc`, `vmm_map` and `vmm_unmap` are single steps:
their locks are released before they return, and no lock of this model is taken under them.
-/

namespace WivOS.Tasking
open WivOS.Lib.LockProg WivOS.Lib.LockProg.Prog WivOS.Vmm

def maxProcesses : Nat := 256
def maxThreads : Nat := 256

/-- C `-1` as a `size_t`. -/
def minusOne : Nat := 2 ^ 64 - 1

def stackLocationTop : Nat := 0x0000800000000000
def stackSize : Nat := 4 * 0x1000
def stackGuardSize : Nat := 0x1000
def kstackSize : Nat := 8 * 0x1000

/-- The fields of `irq_regs_t`. -/
inductive Reg where
  | ra | sp | gp | tp | t0 | t1 | t2 | fp | s1 | a0 | a1 | a2 | a3 | a4 | a5 | a6 | a7
  | s2 | s3 | s4 | s5 | s6 | s7 | s8 | s9 | s10 | s11 | t3 | t4 | t5 | t6
  | epc | cause | tval | status
deriving DecidableEq, Repr

/-- `irq_regs_t`. -/
abbrev Regs := Reg → Nat

/-- `thread_t`. -/
structure Thread where
  savedRegs : Regs
  tid : Nat
  pid : Nat
  taskID : Nat
  kstackAddress : Nat
  ustackAddress : Nat
  cpuNumber : Nat

/-- A pointer to a thread in a table: `NULL`, `(void *)-1` or a `thread_t`. -/
inductive Slot where
  | null
  | deleted
  | thread (t : Nat)
deriving DecidableEq, Repr

/-- `process_t`; the page table is the physical address of its entries. -/
structure Process where
  pid : Nat
  pageTable : Nat
  threads : Nat → Slot

/-- `cpu_t`, and the registers of the CPU itself. -/
structure Cpu where
  currentCpu : Nat
  threadUserStack : Nat
  threadKernelStack : Nat
  kernelStack : Nat
  preemptCounter : BitVec 64
  currentPid : Nat
  currentTid : Nat
  currentTaskID : Nat
  satp : Nat
  regs : Regs

/-- The globals of `kernel/tasking` and what they point to. A `thread_t` from `kmalloc` is the next one
of `threads`, with what was in its memory before; `stackPages` are the pages that `pmm_alloc` is about to
return for stacks. -/
structure Kernel (C : Type) where
  schedulerRunning : Bool
  activeTasks : Nat → Slot
  totalActiveTasks : Nat
  processTable : Nat → Option Process
  threads : Nat → Thread
  nextThread : Nat
  cpus : C → Cpu
  mem : PhysMem
  stackPages : List Nat

/-- What the kernel is configured with: the paging, the global pointer, the address of each CPU's
`cpu_t`, what `kmalloc` returns for the kernel stack of each thread, and `KernelPageMap->entries`. -/
structure Config (C : Type) where
  paging : Riscv64.Paging
  kernelGp : Nat
  cpuStruct : C → Nat
  kstack : Nat → Nat
  kernelPageMap : Nat

/-- The spinlocks of the kernel. -/
inductive Lock where
  | entrySchedulerLock
  | schedulerLock
  | processLock
  | process (pid : Nat)
  | thread (t : Nat)
deriving DecidableEq, Repr

/-- Why a function does not return. -/
inductive Fault where
  /-- A table is indexed past its end. -/
  | outOfBounds
  /-- A pointer is dereferenced that is `NULL` or `(void *)-1`. -/
  | badPointer
  /-- The loop of `scheduler_get_next_task` is not over after the given number of rounds. -/
  | hangs
  | memory (s : WivOS.Lib.Radix.Stop)
deriving DecidableEq, Repr

variable {C : Type} [DecidableEq C]

/-- Kernel code. -/
abbrev M (C : Type) := Prog Lock (Kernel C) Fault

namespace Kernel

/-- Changes the `cpu_t` of a CPU. -/
def setCpu (k : Kernel C) (c : C) (f : Cpu → Cpu) : Kernel C :=
  { k with cpus := Function.update k.cpus c (f (k.cpus c)) }

/-- Changes a `thread_t`. -/
def setThread (k : Kernel C) (t : Nat) (f : Thread → Thread) : Kernel C :=
  { k with threads := Function.update k.threads t (f (k.threads t)) }

/-- Adds to the preemption counter of a CPU. -/
def addPreempt (c : C) (d : BitVec 64) (k : Kernel C) : Kernel C :=
  k.setCpu c fun cpu => { cpu with preemptCounter := cpu.preemptCounter + d }

end Kernel

section Spinlock
variable (c : C)

/-- C `arch_cpu_increment_preempt_counter`. -/
def archCpuIncrementPreemptCounter : M C Unit := modify (Kernel.addPreempt c 1)

/-- C `arch_cpu_decrement_preempt_counter`. -/
def archCpuDecrementPreemptCounter : M C Unit := modify (Kernel.addPreempt c (-1))

/-- C `spinlock_lock`. -/
def spinlockLock (l : Lock) : M C Unit := do
  acquire l
  archCpuIncrementPreemptCounter c

/-- C `spinlock_try_lock`: whether the lock was taken already. -/
def spinlockTryLock (l : Lock) : M C Bool := do
  let ret ← attempt l
  if !ret then archCpuIncrementPreemptCounter c
  return ret

/-- C `spinlock_unlock`. -/
def spinlockUnlock (l : Lock) : M C Unit := do
  release l
  archCpuDecrementPreemptCounter c

/-- C `spinlock_try_lock_skippreempt`. -/
def spinlockTryLockSkippreempt (l : Lock) : M C Bool := do
  let ret ← spinlockTryLock c l
  if !ret then archCpuDecrementPreemptCounter c
  return ret

/-- C `spinlock_lock_skippreempt`. -/
def spinlockLockSkippreempt (l : Lock) : M C Unit := do
  spinlockLock c l
  archCpuDecrementPreemptCounter c

/-- C `spinlock_unlock_skippreempt`. -/
def spinlockUnlockSkippreempt (l : Lock) : M C Unit := do
  archCpuIncrementPreemptCounter c
  spinlockUnlock c l

end Spinlock

section Process
variable (c : C)

/-- C `process_init_process_table`. -/
def processInitProcessTable : M C Unit := do
  spinlockLock c .processLock
  modify fun k => { k with processTable := fun _ => none }
  spinlockUnlock c .processLock

/-- The first `pid` that is free. -/
def Kernel.freePid (k : Kernel C) : Option Nat :=
  (List.range maxProcesses).find? fun pid => (k.processTable pid).isNone

/-- The process that `process_create` enters into the table; `-1` where there is no free `pid`. -/
def newProcess (pageTable : Nat) (k : Kernel C) : Nat × Kernel C :=
  match k.freePid with
  | none => (minusOne, k)
  | some pid =>
    (pid, { k with
      processTable := Function.update k.processTable pid (some ⟨pid, pageTable, fun _ => .null⟩) })

/-- C `process_create`. -/
def processCreate (pageTable : Nat) : M C Nat := do
  spinlockLock c .processLock
  let pid ← perform fun k => .ok (newProcess pageTable k)
  spinlockUnlock c .processLock
  return pid

/-- C `process_get_process`: the lock of the process is taken through a pointer that may be `NULL`. -/
def processGetProcess (pid : Nat) : M C (Option Nat) := do
  if maxProcesses ≤ pid then return none
  spinlockLock c .processLock
  perform fun k => if (k.processTable pid).isSome then .ok ((), k) else .error .badPointer
  spinlockLock c (.process pid)
  spinlockUnlock c .processLock
  return some pid

/-- C `process_get_process_no_lock`. -/
def processGetProcessNoLock (pid : Nat) : M C (Option Process) := do
  if maxProcesses ≤ pid then return none
  spinlockLock c .processLock
  let process ← read fun k => k.processTable pid
  spinlockUnlock c .processLock
  return process

end Process

/-- The first `tid` that is free. -/
def Process.freeTid (p : Process) : Option Nat :=
  (List.range maxThreads).find? fun tid => p.threads tid = .null ∨ p.threads tid = .deleted

/-- C `arch_thread_init_regs`. -/
def archThreadInitRegs (cfg : Config C) (entry arg : Nat) (thread : Thread) : Thread :=
  let regs := Function.update thread.savedRegs .gp cfg.kernelGp
  let regs := Function.update regs .status (regs .status ||| (1 <<< 8 ||| 1 <<< 5))
  let regs := Function.update regs .epc entry
  { thread with savedRegs := Function.update regs .a0 arg }

/-- C `arch_thread_set_stack`. -/
def archThreadSetStack (stack : Nat) (thread : Thread) : Thread :=
  { thread with savedRegs := Function.update thread.savedRegs .sp stack }

/-- The guard page below the stack of a thread. -/
def stackGuardPage (tid : Nat) : Nat := stackLocationTop - (stackSize + stackGuardSize) * (tid + 1)

/-- The stack of a thread. -/
def stackBottom (tid : Nat) : Nat := stackGuardPage tid + stackGuardSize

/-- C `pmm_alloc(STACK_SIZE / PAGE_SIZE)`: the next pages of the supply, zeroed; `NULL` when there are
none. -/
def pmmAllocStack (k : Kernel C) : Nat × Kernel C :=
  match k.stackPages with
  | [] => (0, k)
  | f :: fs =>
    (0x1000 * f, { k with
      stackPages := fs
      mem := (List.range (stackSize / 0x1000)).foldl (fun m i => m.fill (f + i) 0) k.mem })

/-- Allocates the stack of a thread outside the kernel's process, maps it and unmaps its guard page. -/
def mapStack (cfg : Config C) (pageTable tid : Nat) (k : Kernel C) : Except Fault (Kernel C) :=
  let (memoryStack, k) := pmmAllocStack k
  match Riscv64.vmmMap cfg.paging pageTable (stackBottom tid) memoryStack (stackSize / 0x1000)
      (Riscv64.vmmExecute ||| Riscv64.vmmRead ||| Riscv64.vmmWrite ||| Riscv64.vmmUser) k.mem with
  | .error e => .error (.memory e)
  | .ok (_, m) =>
    -- one page: the loop is over after its second test
    match Riscv64.vmmUnmap cfg.paging pageTable 2 (stackGuardPage tid) (stackGuardSize / 0x1000) m with
    | some (.ok (_, m)) => .ok { k with mem := m }
    | some (.error e) => .error (.memory e)
    | none => .error .hangs

/-- What `thread_create` does under the lock of the process. -/
def newThread (cfg : Config C) (pid entry arg : Nat) (k : Kernel C) : Except Fault (Nat × Kernel C) :=
  match k.processTable pid with
  | none => .error .badPointer
  | some process =>
    match process.freeTid with
    | none => .ok (minusOne, k)
    | some tid =>
      let t := k.nextThread
      let thread := { k.threads t with pid := pid, tid := tid, taskID := minusOne }
      let thread := archThreadInitRegs cfg entry arg thread
      let thread := { thread with kstackAddress := cfg.kstack t + kstackSize }
      -- threads of the kernel run on their kernel stack
      let mapped := if pid = 0 then .ok k else mapStack cfg process.pageTable tid k
      match mapped with
      | .error e => .error e
      | .ok k =>
        let stack := if pid = 0 then thread.kstackAddress else stackBottom tid + stackSize
        let process := { process with threads := Function.update process.threads tid (.thread t) }
        .ok (tid, { k with
          nextThread := t + 1
          threads := Function.update k.threads t (archThreadSetStack stack thread)
          processTable := Function.update k.processTable pid (some process) })

/-- C `thread_create`, for `thread_parameter_entry` data. -/
def threadCreate (cfg : Config C) (c : C) (pid entry arg : Nat) : M C Nat := do
  match ← processGetProcess c pid with
  | none => return minusOne
  | some process =>
    let tid ← perform (newThread cfg process entry arg)
    spinlockUnlock c (.process process)
    return tid

/-- C `ActiveTasks[taskID]`. -/
def Kernel.activeTask (k : Kernel C) (taskID : Nat) : Except Fault Slot :=
  if taskID < maxThreads * 2 then .ok (k.activeTasks taskID) else .error .outOfBounds

/-- The thread that `scheduler_add_task` is to add, none where it is none or was added already. -/
def taskToAdd (pid tid : Nat) (k : Kernel C) : Except Fault (Option Nat × Kernel C) :=
  match k.processTable pid with
  | none => .error .badPointer
  | some process =>
    if maxThreads ≤ tid then .error .outOfBounds
    else
      match process.threads tid with
      | .null => .ok (none, k)
      | .deleted => .error .badPointer
      | .thread t => .ok (if (k.threads t).taskID ≠ minusOne then none else some t, k)

/-- The first slot of `ActiveTasks` that is free. -/
def Kernel.freeTask (k : Kernel C) : Option Nat :=
  (List.range (maxThreads * 2)).find? fun i => k.activeTasks i = .null ∨ k.activeTasks i = .deleted

/-- Enters a thread into `ActiveTasks`; `-1` where there is no free slot. -/
def addTask (t : Nat) (k : Kernel C) : Nat × Kernel C :=
  match k.freeTask with
  | none => (minusOne, k)
  | some taskID =>
    (taskID, { k.setThread t fun thread => { thread with taskID := taskID } with
      activeTasks := Function.update k.activeTasks taskID (.thread t)
      totalActiveTasks := k.totalActiveTasks + 1 })

/-- C `scheduler_add_task`. -/
def schedulerAddTask (c : C) (pid tid : Nat) : M C Nat := do
  match ← processGetProcess c pid with
  | none => return minusOne
  | some process =>
    match ← perform (taskToAdd process tid) with
    | none =>
      spinlockUnlock c (.process process)
      return minusOne
    | some thread =>
      spinlockLock c .entrySchedulerLock
      let taskID ← perform fun k => .ok (addTask thread k)
      spinlockUnlock c .entrySchedulerLock
      spinlockUnlock c (.process process)
      return taskID

/-- Where `scheduler_get_next_task` looks, from a slot on: at the first slot where that one is `NULL`. -/
def Kernel.taskFrom (k : Kernel C) (currentTask : Nat) : Except Fault (Slot × Nat) := do
  match ← k.activeTask currentTask with
  | .null => return (← k.activeTask 0, 0)
  | slot => return (slot, currentTask)

/-- The loop of `scheduler_get_next_task`, for `fuel` rounds at most; `i` counts the locks that were
taken. -/
def nextTaskLoop (c : C) : Nat → Nat → Nat → M C (Option Nat)
  | 0, _, _ => perform fun _ => .error .hangs
  | fuel + 1, i, currentTask => do
    if (← read Kernel.totalActiveTasks) ≤ i then return none
    let (slot, currentTask) ← perform fun k => (k.taskFrom currentTask).map (·, k)
    let following := if currentTask + 1 = maxThreads * 2 then 0 else currentTask + 1
    match slot with
    | .null => return none
    | .deleted => nextTaskLoop c fuel i following
    | .thread t =>
      if ← spinlockTryLockSkippreempt c (.thread t) then nextTaskLoop c fuel (i + 1) following
      else return some t

/-- C `scheduler_get_next_task`. -/
def schedulerGetNextTask (c : C) (fuel currentTask : Nat) : M C (Option Nat) :=
  nextTaskLoop c fuel 0 ((currentTask + 1) % 2 ^ 64)

/-- The part of `scheduler_schedule` that stores the registers of the thread that a CPU executes; the
thread whose lock is to be released, if there is one. -/
def storeCurrent (c : C) (regs : Regs) (k : Kernel C) : Except Fault (Option Nat × Kernel C) :=
  let cpu := k.cpus c
  if cpu.currentTaskID = minusOne then .ok (none, k)
  else
    match k.activeTask cpu.currentTaskID with
    | .error e => .error e
    | .ok (.thread t) =>
      .ok (some t, k.setThread t fun thread =>
        { thread with
          savedRegs := regs
          cpuNumber := minusOne
          ustackAddress := if cpu.currentPid ≠ 0 then cpu.threadUserStack else thread.ustackAddress })
    | .ok _ => .ok (none, k)

/-- The part of `scheduler_schedule` for the thread that a CPU executes. -/
def preemptCurrent (c : C) (regs : Regs) : M C Unit := do
  match ← perform (storeCurrent c regs) with
  | none => return ()
  | some t => spinlockUnlockSkippreempt c (.thread t)

/-- The part of `scheduler_schedule` that makes a thread the current one of a CPU. -/
def makeCurrent (c : C) (t : Nat) (k : Kernel C) : Kernel C :=
  let thread := k.threads t
  let k := k.setCpu c fun cpu =>
    { cpu with
      currentPid := thread.pid
      currentTid := thread.tid
      currentTaskID := thread.taskID
      threadKernelStack := if thread.pid ≠ 0 then thread.kstackAddress else cpu.threadKernelStack
      threadUserStack := if thread.pid ≠ 0 then thread.ustackAddress else cpu.threadUserStack }
  k.setThread t fun thread => { thread with cpuNumber := (k.cpus c).currentCpu }

/-- C `process->page_table`. -/
def pageTableOf (process : Option Process) : M C Nat :=
  perform fun k =>
    match process with
    | none => .error .badPointer
    | some process => .ok (process.pageTable, k)

/-- What `scheduler_schedule` decides: to return, to idle, or to switch to a thread, with the entries of
its page table where that is another one than the current. -/
inductive Decision where
  | skip
  | idle
  | task (t : Nat) (pageTable : Option Nat)
deriving DecidableEq, Repr

/-- The end of `scheduler_schedule`: the page table is loaded unless it is the one of the current
process. -/
def decideSwitch (currentPid t : Nat) (process currentProcess : Option Process) : M C Decision := do
  if currentPid = minusOne then return .task t (some (← pageTableOf process))
  let pageTable ← pageTableOf process
  let currentPageTable ← pageTableOf currentProcess
  return .task t (if pageTable ≠ currentPageTable then some pageTable else none)

/-- The part of `scheduler_schedule` after the task was found. -/
def switchTo (c : C) (currentPid t : Nat) : M C Decision := do
  modify (makeCurrent c t)
  let pid ← read fun k => (k.threads t).pid
  let process ← processGetProcessNoLock c pid
  if pid = currentPid then decideSwitch currentPid t process process
  else if currentPid ≠ minusOne then
    decideSwitch currentPid t process (← processGetProcessNoLock c currentPid)
  else decideSwitch currentPid t process none

/-- C `scheduler_schedule` up to where it returns, idles or switches. -/
def decideTask (c : C) (fuel : Nat) (regs : Regs) : M C Decision := do
  let (running, counter) ← read fun k => (k.schedulerRunning, (k.cpus c).preemptCounter)
  if !running ∨ counter ≠ 0 then return .skip
  spinlockLockSkippreempt c .entrySchedulerLock
  if ← spinlockTryLockSkippreempt c .schedulerLock then
    spinlockUnlockSkippreempt c .entrySchedulerLock
    return .skip
  let (currentPid, currentTaskID) ←
    read fun k => ((k.cpus c).currentPid, (k.cpus c).currentTaskID)
  preemptCurrent c regs
  match ← schedulerGetNextTask c fuel currentTaskID with
  | none => return .idle
  | some t => switchTo c currentPid t

/-- C `arch_scheduler_unlock_locks`. -/
def archSchedulerUnlockLocks (c : C) : M C Unit := do
  spinlockUnlockSkippreempt c .schedulerLock
  spinlockUnlockSkippreempt c .entrySchedulerLock

/-- C `riscv_vmm_create_satp`. -/
def riscvVmmCreateSatp (cfg : Config C) (entries : Nat) : Nat :=
  (5 + cfg.paging.maxLevel) <<< 60 ||| entries >>> 12

/-- C `vmm_set_pt(KernelPageMap)` and the switch of `arch_scheduler_idle` to the CPU's own stack. -/
def loadIdleStack (cfg : Config C) (c : C) (k : Kernel C) : Kernel C :=
  k.setCpu c fun cpu =>
    { cpu with
      satp := riscvVmmCreateSatp cfg cfg.kernelPageMap
      regs := Function.update cpu.regs .sp cpu.kernelStack }

/-- The numbers of a CPU that executes no thread. -/
def makeIdle (c : C) (k : Kernel C) : Kernel C :=
  k.setCpu c fun cpu =>
    { cpu with currentTaskID := minusOne, currentPid := minusOne, currentTid := minusOne }

/-- C `arch_scheduler_idle_halt`, up to its endless loop. -/
def archSchedulerIdleHalt (c : C) : M C Unit := do
  modify (makeIdle c)
  archSchedulerUnlockLocks c

/-- C `arch_scheduler_idle`. -/
def archSchedulerIdle (cfg : Config C) (c : C) : M C Unit := do
  modify (loadIdleStack cfg c)
  archSchedulerIdleHalt c

/-- What is done for a switch before the locks are released: `tp` of `arch_scheduler_switch_task` and
`satp` of `arch_scheduler_context_switch`. -/
def prepareSwitch (cfg : Config C) (c : C) (t : Nat) (pageTable : Option Nat) (k : Kernel C) : Kernel C :=
  let k := k.setThread t fun thread =>
    { thread with savedRegs := Function.update thread.savedRegs .tp (cfg.cpuStruct c) }
  match pageTable with
  | none => k
  | some entries => k.setCpu c fun cpu => { cpu with satp := riscvVmmCreateSatp cfg entries }

/-- `RISCV_RESTORE_CONTEXT`: the CPU goes on with the registers of the thread. -/
def restoreContext (c : C) (t : Nat) (k : Kernel C) : Kernel C :=
  k.setCpu c fun cpu => { cpu with regs := (k.threads t).savedRegs }

/-- C `arch_scheduler_switch_task`, with `arch_scheduler_context_switch`. -/
def archSchedulerSwitchTask (cfg : Config C) (c : C) (t : Nat) (pageTable : Option Nat) : M C Unit := do
  modify (prepareSwitch cfg c t pageTable)
  archSchedulerUnlockLocks c
  modify (restoreContext c t)

/-- C `scheduler_schedule`, up to the point from where the CPU executes something else. -/
def schedulerSchedule (cfg : Config C) (c : C) (fuel : Nat) (regs : Regs) : M C Unit := do
  match ← decideTask c fuel regs with
  | .skip => return ()
  | .idle => archSchedulerIdle cfg c
  | .task t pageTable => archSchedulerSwitchTask cfg c t pageTable

/-- C `scheduler_init`. -/
def schedulerInit (cfg : Config C) (c : C) (firstTask : Nat) : M C Unit := do
  processInitProcessTable c
  modify fun k => { k with activeTasks := fun _ => .null }
  let _ ← processCreate c cfg.kernelPageMap
  let tid ← threadCreate cfg c 0 firstTask 0
  let _ ← schedulerAddTask c 0 tid
  modify fun k => { k with schedulerRunning := true }

/-- The state before `scheduler_init`: static memory is zero, and no CPU executes a thread. -/
def Kernel.boot (C : Type) : Kernel C where
  schedulerRunning := false
  activeTasks _ := .null
  totalActiveTasks := 0
  processTable _ := none
  threads _ := ⟨fun _ => 0, 0, 0, 0, 0, 0, 0⟩
  nextThread := 0
  cpus _ := ⟨0, 0, 0, 0, 0, minusOne, minusOne, minusOne, 0, fun _ => 0⟩
  mem := ⟨fun _ _ => 0, []⟩
  stackPages := []

/-- Four levels of tables, the `cpu_t` of each CPU in the kernel's image, and kernel stacks one above
the other. -/
def Config.flat (n : Nat) : Config (Fin n) where
  paging := .boot ⟨0xFFFF800000000000, sv48_upper, sv48_lt⟩
  kernelGp := 0xFFFFFFFF80001000
  cpuStruct c := 0xFFFFFFFF80002000 + 74 * c
  kstack t := 0xFFFF900000000000 + kstackSize * t
  kernelPageMap := 0x1000

end WivOS.Tasking
