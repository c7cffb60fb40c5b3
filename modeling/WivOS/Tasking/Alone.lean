import WivOS.Tasking.Kernel

/-!
# Calls that run alone

What the functions of `kernel/tasking` do when no other CPU is in between: what each of them returns,
and how it leaves the locks and the kernel. The counters of preemption come back to where they were,
and of the locks only those of threads are ever held afterwards, and those of the scheduler while a
switch is under way.
-/

namespace WivOS.Tasking
open WivOS.Lib.LockProg WivOS.Lib.LockProg.Prog WivOS.Vmm

section Alone
variable {C : Type} [DecidableEq C] {c : C} {cfg : Config C} {locked locked' : Lock → Bool} {l : Lock}
variable {k k' : Kernel C}

/-- Changes of the counter add up. -/
lemma addPreempt_add {d e : BitVec 64} :
    Kernel.addPreempt c e (k.addPreempt c d) = k.addPreempt c (d + e) := by
  simp [Kernel.addPreempt, Kernel.setCpu, BitVec.add_assoc]

/-- Adding nothing. -/
lemma addPreempt_zero : k.addPreempt c 0 = k := by
  simp [Kernel.addPreempt, Kernel.setCpu]

/-- An increment is undone by a decrement. -/
lemma addPreempt_cancel : Kernel.addPreempt c (-1) (k.addPreempt c 1) = k := by
  rw [addPreempt_add, show (1 : BitVec 64) + -1 = 0 by decide, addPreempt_zero]

/-- A lock that is taken and released is as it was. -/
lemma update_unlock (h : locked l = false) :
    Function.update (Function.update locked l true) l false = locked := by
  rw [Function.update_idem, ← h, Function.update_eq_self]

section Spinlocks

/-- `spinlock_lock` takes a free lock and counts it. -/
lemma run_lock (h : locked l = false) :
    (spinlockLock c l).run locked k = .done () (Function.update locked l true) (k.addPreempt c 1) := by
  simp only [spinlockLock, archCpuIncrementPreemptCounter, run_bind, run_acquire h,
    Outcome.andThen_done, run_modify]

/-- A `spinlock_lock` that returns found the lock free. -/
lemma run_lock_done (h : (spinlockLock c l).run locked k = .done () locked' k') :
    locked l = false := by
  obtain ⟨_, _, _, take, _⟩ := run_bind_done h
  exact run_acquire_done take

/-- `spinlock_unlock` frees the lock and uncounts it. -/
lemma run_unlock :
    (spinlockUnlock c l).run locked k =
      .done () (Function.update locked l false) (k.addPreempt c (-1)) := by
  simp only [spinlockUnlock, archCpuDecrementPreemptCounter, run_bind, run_release,
    Outcome.andThen_done, run_modify]

/-- The macro takes a free lock without counting it. -/
lemma run_lockSkippreempt (h : locked l = false) :
    (spinlockLockSkippreempt c l).run locked k = .done () (Function.update locked l true) k := by
  simp only [spinlockLockSkippreempt, archCpuDecrementPreemptCounter, run_bind, run_lock h,
    Outcome.andThen_done, run_modify, addPreempt_cancel]

/-- And frees one. -/
lemma run_unlockSkippreempt :
    (spinlockUnlockSkippreempt c l).run locked k = .done () (Function.update locked l false) k := by
  simp only [spinlockUnlockSkippreempt, archCpuIncrementPreemptCounter, run_bind, run_unlock,
    Outcome.andThen_done, run_modify, addPreempt_cancel]

/-- `spinlock_try_lock` takes a free lock and counts it. -/
lemma run_spinlockTryLock_free (h : locked l = false) :
    (spinlockTryLock c l).run locked k =
      .done false (Function.update locked l true) (k.addPreempt c 1) := by
  simp only [spinlockTryLock, archCpuIncrementPreemptCounter, run_bind, run_attempt_free h,
    Outcome.andThen_done, run_modify, Bool.not_false, if_true, run_pure]

/-- It returns at once where the lock is taken. -/
lemma run_spinlockTryLock_taken (h : locked l = true) :
    (spinlockTryLock c l).run locked k = .done true locked k := by
  simp only [spinlockTryLock, run_bind, run_attempt_taken h, Outcome.andThen_done, Bool.not_true,
    Bool.false_eq_true, if_false, run_pure]

/-- The macro takes a free lock without counting it. -/
lemma run_tryLock_free (h : locked l = false) :
    (spinlockTryLockSkippreempt c l).run locked k =
      .done false (Function.update locked l true) k := by
  simp only [spinlockTryLockSkippreempt, archCpuDecrementPreemptCounter, run_bind,
    run_spinlockTryLock_free h, Outcome.andThen_done, run_modify, Bool.not_false, if_true, run_pure,
    addPreempt_cancel]

/-- It returns at once where the lock is taken. -/
lemma run_tryLock_taken (h : locked l = true) :
    (spinlockTryLockSkippreempt c l).run locked k = .done true locked k := by
  simp only [spinlockTryLockSkippreempt, run_bind, run_spinlockTryLock_taken h, Outcome.andThen_done,
    Bool.not_true, Bool.false_eq_true, if_false, run_pure]

end Spinlocks

section Processes

/-- The process table is cleared. -/
lemma run_processInitProcessTable (table : locked .processLock = false) :
    (processInitProcessTable c).run locked k =
      .done () locked { k with processTable := fun _ => none } := by
  have e : Kernel.addPreempt c (-1) { k.addPreempt c 1 with processTable := fun _ => none } =
      { k with processTable := fun _ => none } :=
    addPreempt_cancel (k := { k with processTable := fun _ => none })
  simp only [processInitProcessTable, run_bind, run_lock table, Outcome.andThen_done, run_modify,
    run_unlock, update_unlock table, e]

/-- `process_create` is the step `newProcess` under its lock. -/
lemma run_processCreate {pageTable : Nat} (h : locked .processLock = false) :
    (processCreate c pageTable).run locked k =
      .done (newProcess pageTable k).1 locked (newProcess pageTable k).2 := by
  have e : newProcess pageTable (k.addPreempt c 1) =
      ((newProcess pageTable k).1, (newProcess pageTable k).2.addPreempt c 1) := by
    unfold newProcess
    rw [show (k.addPreempt c 1).freePid = k.freePid from rfl]
    cases k.freePid <;> rfl
  simp only [processCreate, run_bind, run_lock h, Outcome.andThen_done, run_unlock, run_pure, perform,
    run, e, update_unlock h, addPreempt_cancel]

/-- `process_get_process` comes back with the lock of the process, or with `NULL` for a `pid` past the
table. -/
lemma processGetProcess_done {pid : Nat} {r : Option Nat} (table : locked .processLock = false)
    (h : (processGetProcess c pid).run locked k = .done r locked' k') :
    (r = none ∧ locked' = locked ∧ k' = k) ∨
    (r = some pid ∧ locked' = Function.update locked (.process pid) true ∧ k' = k.addPreempt c 1 ∧
      locked (.process pid) = false) := by
  unfold processGetProcess at h
  split at h
  · cases h
    exact .inl ⟨rfl, rfl, rfl⟩
  · obtain ⟨_, _, _, first, rest⟩ := run_bind_done h
    rw [run_lock table] at first
    cases first
    obtain ⟨_, locked₁, k₁, check, rest⟩ := run_bind_done rest
    obtain ⟨rfl, found⟩ := run_perform_done check
    split at found
    · cases found
      obtain ⟨_, _, _, take, rest⟩ := run_bind_done rest
      have free := run_lock_done take
      rw [run_lock free] at take
      cases take
      simp only [run_bind, run_unlock, Outcome.andThen_done, run_pure, addPreempt_add] at rest
      cases rest
      refine .inr ⟨rfl, ?_, by simp, by simpa using free⟩
      rw [Function.update_comm (by simp), update_unlock (by simpa using table)]
    · cases found

/-- A `pid` behind the table has no process. -/
lemma run_processGetProcess_beyond {pid : Nat} (le : maxProcesses ≤ pid) :
    (processGetProcess c pid).run locked k = .done none locked k := by
  unfold processGetProcess
  rw [if_pos le]
  rfl

/-- The lock of a process that is not there is taken through `NULL`. -/
lemma run_processGetProcess_null {pid : Nat} (lt : pid < maxProcesses)
    (table : locked .processLock = false) (none_ : k.processTable pid = none) :
    (processGetProcess c pid).run locked k = .failed .badPointer := by
  have check : (perform fun k' : Kernel C => if (k'.processTable pid).isSome then .ok ((), k')
      else .error Fault.badPointer).run (Function.update locked .processLock true) (k.addPreempt c 1) =
      .failed .badPointer := by
    refine run_perform_error (if_neg ?_)
    simp [Kernel.addPreempt, Kernel.setCpu, none_]
  unfold processGetProcess
  rw [if_neg (by omega)]
  simp only [run_bind, run_lock table, Outcome.andThen_done, check, Outcome.andThen_failed]

/-- `process_get_process` returns with the lock of the process. -/
lemma run_processGetProcess {pid : Nat} {process : Process} (lt : pid < maxProcesses)
    (table : locked .processLock = false) (free : locked (.process pid) = false)
    (some_ : k.processTable pid = some process) :
    (processGetProcess c pid).run locked k =
      .done (some pid) (Function.update locked (.process pid) true) (k.addPreempt c 1) := by
  have check : (perform fun k' : Kernel C => if (k'.processTable pid).isSome then .ok ((), k')
      else .error Fault.badPointer).run (Function.update locked .processLock true) (k.addPreempt c 1) =
      .done () (Function.update locked .processLock true) (k.addPreempt c 1) := by
    refine run_perform_ok (if_pos ?_)
    simp [Kernel.addPreempt, Kernel.setCpu, some_]
  unfold processGetProcess
  rw [if_neg (by omega)]
  simp only [run_bind, run_lock table, Outcome.andThen_done, check,
    run_lock (show Function.update locked .processLock true (.process pid) = false by simpa using free),
    run_unlock, run_pure, addPreempt_cancel]
  rw [Function.update_comm (by simp), update_unlock (by simpa using table)]

/-- The macro reads the table. -/
lemma run_processGetProcessNoLock {pid : Nat} (table : locked .processLock = false) :
    (processGetProcessNoLock c pid).run locked k =
      .done (if maxProcesses ≤ pid then none else k.processTable pid) locked k := by
  unfold processGetProcessNoLock
  split
  · rfl
  · simp only [run_bind, run_lock table, Outcome.andThen_done, run_read, run_unlock, run_pure,
      update_unlock table, addPreempt_cancel]
    rfl

end Processes

section Threads
variable {pid tid entry arg : Nat}

/-- Mapping a stack does not depend on the counter. -/
lemma mapStack_addPreempt {pageTable : Nat} {d : BitVec 64} :
    mapStack cfg pageTable tid (k.addPreempt c d) =
      (mapStack cfg pageTable tid k).map (Kernel.addPreempt c d) := by
  have alloc : pmmAllocStack (k.addPreempt c d) =
      ((pmmAllocStack k).1, (pmmAllocStack k).2.addPreempt c d) := by
    unfold pmmAllocStack
    rw [show (k.addPreempt c d).stackPages = k.stackPages from rfl]
    cases k.stackPages <;> rfl
  unfold mapStack
  simp only [alloc, show ((pmmAllocStack k).2.addPreempt c d).mem = (pmmAllocStack k).2.mem from rfl]
  split
  · rfl
  · split <;> rfl

/-- The counters of preemption are no matter to the body of `thread_create`. -/
lemma newThread_addPreempt {d : BitVec 64} :
    newThread cfg pid entry arg (k.addPreempt c d) =
      (newThread cfg pid entry arg k).map fun (r, k) => (r, k.addPreempt c d) := by
  unfold newThread
  simp only [mapStack_addPreempt, show (k.addPreempt c d).processTable = k.processTable from rfl]
  cases k.processTable pid with
  | none => rfl
  | some process =>
    dsimp only
    cases process.freeTid with
    | none => rfl
    | some tid =>
      dsimp only
      by_cases hp : pid = 0
      · simp only [if_pos hp]
        rfl
      · simp only [if_neg hp]
        cases mapStack cfg process.pageTable tid k <;> rfl

/-- `thread_create` is its body, or it returns -1. -/
lemma threadCreate_done {r : Nat} (table : locked .processLock = false)
    (h : (threadCreate cfg c pid entry arg).run locked k = .done r locked' k') :
    locked' = locked ∧ (k' = k ∨ newThread cfg pid entry arg k = .ok (r, k')) := by
  obtain ⟨o, locked₁, k₁, get, rest⟩ := run_bind_done h
  obtain ⟨rfl, rfl, rfl⟩ | ⟨rfl, rfl, rfl, free⟩ := processGetProcess_done table get
  · cases rest
    exact ⟨rfl, .inl rfl⟩
  · obtain ⟨tid, locked₂, k₂, create, rest⟩ := run_bind_done rest
    obtain ⟨rfl, created⟩ := run_perform_done create
    rw [newThread_addPreempt] at created
    cases hn : newThread cfg pid entry arg k with
    | error e =>
      rw [hn] at created
      cases created
    | ok r =>
      rw [hn] at created
      cases created
      simp only [run_bind, run_unlock, Outcome.andThen_done, run_pure, addPreempt_cancel,
        update_unlock free] at rest
      cases rest
      exact ⟨rfl, .inr rfl⟩

/-- The search for the thread to add does not look at a counter. -/
lemma taskToAdd_addPreempt {d : BitVec 64} :
    taskToAdd pid tid (k.addPreempt c d) =
      (taskToAdd pid tid k).map fun (o, k) => (o, k.addPreempt c d) := by
  unfold taskToAdd
  simp only [show (k.addPreempt c d).processTable = k.processTable from rfl]
  cases k.processTable pid with
  | none => rfl
  | some process =>
    dsimp only
    split
    · rfl
    · cases process.threads tid <;> rfl

/-- Nor does adding a task. -/
lemma addTask_addPreempt {t : Nat} {d : BitVec 64} :
    addTask t (k.addPreempt c d) = ((addTask t k).1, (addTask t k).2.addPreempt c d) := by
  unfold addTask
  rw [show (k.addPreempt c d).freeTask = k.freeTask from rfl]
  cases k.freeTask <;> rfl

omit [DecidableEq C] in
/-- What `scheduler_add_task` is to add is a thread of the process that was not added before. -/
lemma taskToAdd_ok {o : Option Nat} (h : taskToAdd pid tid k = .ok (o, k')) :
    k' = k ∧ ∀ t, o = some t → ∃ process, k.processTable pid = some process ∧
      process.threads tid = .thread t ∧ (k.threads t).taskID = minusOne := by
  unfold taskToAdd at h
  split at h
  · cases h
  · rename_i process hp
    split at h
    · cases h
    · split at h
      · cases h
        exact ⟨rfl, fun t ht => by cases ht⟩
      · cases h
      · rename_i t ht
        cases h
        refine ⟨rfl, fun t' h' => ?_⟩
        split at h'
        · cases h'
        · rename_i hid
          cases h'
          exact ⟨process, hp, ht, not_not.mp hid⟩

/-- `scheduler_add_task` adds a thread of the process that was not added before, or it returns -1. -/
lemma schedulerAddTask_done {r : Nat} (table : locked .processLock = false)
    (h : (schedulerAddTask c pid tid).run locked k = .done r locked' k') :
    locked' = locked ∧ (k' = k ∨ ∃ process t, k.processTable pid = some process ∧
      process.threads tid = .thread t ∧ (k.threads t).taskID = minusOne ∧
      addTask t k = (r, k') ∧ locked .entrySchedulerLock = false) := by
  obtain ⟨o, locked₁, k₁, get, rest⟩ := run_bind_done h
  obtain ⟨rfl, rfl, rfl⟩ | ⟨rfl, rfl, rfl, free⟩ := processGetProcess_done table get
  · cases rest
    exact ⟨rfl, .inl rfl⟩
  · obtain ⟨o, locked₂, k₂, find, rest⟩ := run_bind_done rest
    obtain ⟨rfl, ok⟩ := run_perform_done find
    obtain ⟨rfl, found⟩ := taskToAdd_ok ok
    cases o with
    | none =>
      simp only [run_bind, run_unlock, Outcome.andThen_done, run_pure, addPreempt_cancel,
        update_unlock free] at rest
      cases rest
      exact ⟨rfl, .inl rfl⟩
    | some t =>
      obtain ⟨process, hp, ht, hid⟩ := found t rfl
      obtain ⟨_, locked₃, k₃, take, rest⟩ := run_bind_done rest
      have entry := run_lock_done take
      rw [run_lock entry] at take
      cases take
      simp only [run_bind, perform, run, run_unlock, Outcome.andThen_done, run_pure,
        addTask_addPreempt, addPreempt_cancel, update_unlock entry, update_unlock free,
        Outcome.done.injEq] at rest
      obtain ⟨rfl, rfl, rfl⟩ := rest
      exact ⟨rfl, .inr ⟨process, t, hp, ht, hid, Prod.mk.eta.symm, by simpa using entry⟩⟩

section Forward
variable {process : Process} (lt : pid < maxProcesses) (table : locked .processLock = false)
  (free : locked (.process pid) = false) (some_ : k.processTable pid = some process)
include lt table free some_

/-- `thread_create` on a process that is there does what its body does. -/
lemma run_threadCreate {r : Nat} (e : newThread cfg pid entry arg k = .ok (r, k')) :
    (threadCreate cfg c pid entry arg).run locked k = .done r locked k' := by
  have create : (perform (newThread cfg pid entry arg)).run (Function.update locked (.process pid) true)
      (k.addPreempt c 1) = .done r (Function.update locked (.process pid) true) (k'.addPreempt c 1) := by
    refine run_perform_ok ?_
    rw [newThread_addPreempt, e]
    rfl
  simp only [threadCreate, run_bind, run_processGetProcess lt table free some_, Outcome.andThen_done,
    create, run_unlock, run_pure, addPreempt_cancel, update_unlock free]

/-- `scheduler_add_task` on a thread that is no task yet adds it. -/
lemma run_schedulerAddTask {t : Nat} (inside : tid < maxThreads) (slot : process.threads tid = .thread t)
    (new : (k.threads t).taskID = minusOne) (entry : locked .entrySchedulerLock = false) :
    (schedulerAddTask c pid tid).run locked k = .done (addTask t k).1 locked (addTask t k).2 := by
  have find : (perform (taskToAdd pid tid)).run (Function.update locked (.process pid) true)
      (k.addPreempt c 1) = .done (some t) (Function.update locked (.process pid) true)
        (k.addPreempt c 1) := by
    refine run_perform_ok ?_
    have some' : (k.addPreempt c 1).processTable pid = some process := some_
    have new' : ((k.addPreempt c 1).threads t).taskID = minusOne := new
    simp only [taskToAdd, some', if_neg (Nat.not_le.mpr inside), slot, new', ne_eq, not_true, if_false]
  have entry' : Function.update locked (.process pid) true .entrySchedulerLock = false := by
    simpa using entry
  have add : ∀ locked₁, (perform fun k : Kernel C => .ok (addTask t k) : M C Nat).run locked₁
      (Kernel.addPreempt c 1 (k.addPreempt c 1)) =
        .done (addTask t k).1 locked₁ (Kernel.addPreempt c 1 ((addTask t k).2.addPreempt c 1)) := by
    intro locked₁
    refine run_perform_ok ?_
    rw [addTask_addPreempt, addTask_addPreempt]
  simp only [schedulerAddTask, run_bind, run_processGetProcess lt table free some_,
    Outcome.andThen_done, find, run_lock entry', add, run_unlock, run_pure, addPreempt_cancel,
    update_unlock entry', update_unlock free]

/-- It returns -1 where there is no thread that could be added. -/
lemma run_schedulerAddTask_refused (refused : taskToAdd pid tid k = .ok (none, k)) :
    (schedulerAddTask c pid tid).run locked k = .done minusOne locked k := by
  have find : (perform (taskToAdd pid tid)).run (Function.update locked (.process pid) true)
      (k.addPreempt c 1) = .done none (Function.update locked (.process pid) true) (k.addPreempt c 1) := by
    refine run_perform_ok ?_
    rw [taskToAdd_addPreempt, refused]
    rfl
  simp only [schedulerAddTask, run_bind, run_processGetProcess lt table free some_,
    Outcome.andThen_done, find, run_unlock, run_pure, addPreempt_cancel, update_unlock free]

end Forward

end Threads

section Schedule

omit [DecidableEq C] in
/-- A slot that was read is in the table. -/
lemma activeTask_ok {i : Nat} {slot : Slot} (h : k.activeTask i = .ok slot) :
    i < maxThreads * 2 ∧ k.activeTasks i = slot := by
  unfold Kernel.activeTask at h
  split at h
  · cases h
    exact ⟨‹_›, rfl⟩
  · cases h

omit [DecidableEq C] in
/-- So is the one that the search stops at. -/
lemma taskFrom_ok {i j : Nat} {slot : Slot} (h : k.taskFrom i = .ok (slot, j)) :
    j < maxThreads * 2 ∧ k.activeTasks j = slot := by
  unfold Kernel.taskFrom at h
  cases hi : k.activeTask i with
  | error e =>
    rw [hi] at h
    cases h
  | ok slot =>
    rw [hi] at h
    cases slot with
    | null =>
      cases h0 : k.activeTask 0 with
      | error e =>
        rw [h0] at h
        cases h
      | ok first =>
        rw [h0] at h
        cases h
        exact activeTask_ok h0
    | deleted =>
      cases h
      exact activeTask_ok hi
    | thread t =>
      cases h
      exact activeTask_ok hi

/-- The search takes the lock of a thread of the table that was free, or changes nothing. -/
lemma nextTaskLoop_done {fuel i currentTask : Nat} {r : Option Nat}
    (h : (nextTaskLoop c fuel i currentTask).run locked k = .done r locked' k') :
    k' = k ∧ ((r = none ∧ locked' = locked) ∨
      ∃ t j, r = some t ∧ k.activeTasks j = .thread t ∧ locked (.thread t) = false ∧
        locked' = Function.update locked (.thread t) true) := by
  induction fuel generalizing i currentTask with
  | zero => cases h
  | succ fuel ih =>
    obtain ⟨total, _, _, total_eq, rest⟩ := run_bind_done h
    cases total_eq
    split at rest
    · cases rest
      exact ⟨rfl, .inl ⟨rfl, rfl⟩⟩
    · obtain ⟨⟨slot, j⟩, _, _, look, rest⟩ := run_bind_done rest
      obtain ⟨rfl, found⟩ := run_perform_done look
      cases hs : k.taskFrom currentTask with
      | error e =>
        rw [hs] at found
        cases found
      | ok r =>
        rw [hs] at found
        cases found
        have at_j := (taskFrom_ok hs).2
        cases slot with
        | null =>
          cases rest
          exact ⟨rfl, .inl ⟨rfl, rfl⟩⟩
        | deleted => exact ih rest
        | thread t =>
          obtain ⟨taken, _, _, attempted, rest⟩ := run_bind_done rest
          cases hl : locked (.thread t) with
          | true =>
            rw [run_tryLock_taken hl] at attempted
            cases attempted
            exact ih rest
          | false =>
            rw [run_tryLock_free hl] at attempted
            cases attempted
            cases rest
            exact ⟨rfl, .inr ⟨t, j, rfl, at_j, hl, rfl⟩⟩

omit [DecidableEq C] in
/-- Reading the page table changes nothing. -/
lemma pageTableOf_done {p : Option Process} {r : Nat}
    (h : (pageTableOf p : M C Nat).run locked k = .done r locked' k') :
    locked' = locked ∧ k' = k := by
  obtain ⟨rfl, e⟩ := run_perform_done h
  cases p with
  | none => cases e
  | some p =>
    cases e
    exact ⟨rfl, rfl⟩

omit [DecidableEq C] in
/-- `scheduler_schedule` decides for the thread that it found. -/
lemma decideSwitch_done {currentPid t : Nat} {p q : Option Process} {d : Decision}
    (h : (decideSwitch currentPid t p q : M C _).run locked k = .done d locked' k') :
    locked' = locked ∧ k' = k ∧ ∃ pageTable, d = .task t pageTable := by
  unfold decideSwitch at h
  split at h
  · obtain ⟨_, _, _, first, rest⟩ := run_bind_done h
    obtain ⟨rfl, rfl⟩ := pageTableOf_done first
    cases rest
    exact ⟨rfl, rfl, _, rfl⟩
  · obtain ⟨_, _, _, first, rest⟩ := run_bind_done h
    obtain ⟨rfl, rfl⟩ := pageTableOf_done first
    obtain ⟨_, _, _, second, last⟩ := run_bind_done rest
    obtain ⟨rfl, rfl⟩ := pageTableOf_done second
    cases last
    exact ⟨rfl, rfl, _, rfl⟩

/-- Once the task is found it is made the current one. -/
lemma switchTo_done {currentPid t : Nat} {d : Decision} (table : locked .processLock = false)
    (h : (switchTo c currentPid t).run locked k = .done d locked' k') :
    locked' = locked ∧ k' = makeCurrent c t k ∧ ∃ pageTable, d = .task t pageTable := by
  simp only [switchTo, run_bind, run_modify, Outcome.andThen_done, run_read,
    run_processGetProcessNoLock table] at h
  split at h
  · exact decideSwitch_done h
  · split at h
    · simp only [run_bind, run_processGetProcessNoLock table, Outcome.andThen_done] at h
      exact decideSwitch_done h
    · exact decideSwitch_done h

/-- The locks once the thread that a CPU executes was preempted. -/
def unlockThread (locked : Lock → Bool) : Option Nat → Lock → Bool
  | none => locked
  | some t => Function.update locked (.thread t) false

/-- Preempting stores the registers and frees the lock of the thread. -/
lemma preemptCurrent_done {regs : Regs}
    (h : (preemptCurrent c regs).run locked k = .done () locked' k') :
    ∃ o, storeCurrent c regs k = .ok (o, k') ∧ locked' = unlockThread locked o := by
  obtain ⟨o, _, _, store, rest⟩ := run_bind_done h
  obtain ⟨rfl, stored⟩ := run_perform_done store
  cases o with
  | none =>
    cases rest
    exact ⟨none, stored, rfl⟩
  | some t =>
    rw [run_unlockSkippreempt] at rest
    cases rest
    exact ⟨some t, stored, rfl⟩

/-- The locks with those of the scheduler taken. -/
def lockScheduler (locked : Lock → Bool) : Lock → Bool :=
  Function.update (Function.update locked .entrySchedulerLock true) .schedulerLock true

/-- What `scheduler_schedule` has done by the time it decides: nothing, where preemption is off or the
scheduler does not run; else it has stored the registers of the current thread and released its lock,
and it holds the scheduler's locks, and the lock of the next thread if there is one. -/
lemma decideTask_done {fuel : Nat} {regs : Regs} {d : Decision}
    (table : locked .processLock = false)
    (scheduler : locked .entrySchedulerLock = false → locked .schedulerLock = false)
    (h : (decideTask c fuel regs).run locked k = .done d locked' k') :
    (d = .skip ∧ locked' = locked ∧ k' = k ∧
      ¬ (k.schedulerRunning = true ∧ (k.cpus c).preemptCounter = 0)) ∨
    ((k.schedulerRunning = true ∧ (k.cpus c).preemptCounter = 0) ∧
      locked .entrySchedulerLock = false ∧
      ∃ o k₁, storeCurrent c regs k = .ok (o, k₁) ∧
        ((d = .idle ∧ k' = k₁ ∧ locked' = unlockThread (lockScheduler locked) o) ∨
          ∃ t j pageTable, d = .task t pageTable ∧ k₁.activeTasks j = .thread t ∧
            unlockThread (lockScheduler locked) o (.thread t) = false ∧
            k' = makeCurrent c t k₁ ∧
            locked' = Function.update (unlockThread (lockScheduler locked) o) (.thread t) true)) := by
  obtain ⟨_, _, _, first, rest₁⟩ := run_bind_done h
  cases first
  dsimp only at rest₁
  split at rest₁
  next off =>
    cases rest₁
    refine .inl ⟨rfl, rfl, rfl, fun on => ?_⟩
    simp [on.1, on.2] at off
  next on =>
    simp only [Bool.not_eq_eq_eq_not, Bool.not_true, ne_eq, not_or, Bool.not_eq_false,
      not_not] at on
    obtain ⟨_, _, _, enter, rest₂⟩ := run_bind_done rest₁
    have entry : locked .entrySchedulerLock = false := by
      obtain ⟨_, _, _, take, _⟩ := run_bind_done enter
      exact run_lock_done take
    rw [run_lockSkippreempt entry] at enter
    cases enter
    obtain ⟨_, _, _, tried, rest₃⟩ := run_bind_done rest₂
    rw [run_tryLock_free (by simpa using scheduler entry)] at tried
    cases tried
    simp only [Bool.false_eq_true, if_false] at rest₃
    obtain ⟨_, _, _, current, rest₄⟩ := run_bind_done rest₃
    cases current
    obtain ⟨_, locked₁, k₁, preempted, rest₅⟩ := run_bind_done rest₄
    obtain ⟨o, store, rfl⟩ := preemptCurrent_done preempted
    refine .inr ⟨on, entry, o, k₁, store, ?_⟩
    obtain ⟨r, locked₂, k₂, search, rest₆⟩ := run_bind_done rest₅
    obtain ⟨rfl, ⟨rfl, rfl⟩ | ⟨t, j, rfl, found, free, rfl⟩⟩ := nextTaskLoop_done search
    · cases rest₆
      exact .inl ⟨rfl, rfl, rfl⟩
    · have table' : Function.update (unlockThread (lockScheduler locked) o) (.thread t) true
          .processLock = false := by
        cases o <;> simp [unlockThread, lockScheduler, table]
      obtain ⟨rfl, rfl, pageTable, rfl⟩ := switchTo_done table' rest₆
      exact .inr ⟨t, j, pageTable, rfl, found, free, rfl, rfl⟩

/-- The switch to a task whose process is there, and from a process that is there. -/
lemma run_switchTo {currentPid t : Nat} (table : locked .processLock = false)
    (process : (k.threads t).pid < maxProcesses ∧ (k.processTable (k.threads t).pid).isSome)
    (current : currentPid = minusOne ∨
      (currentPid < maxProcesses ∧ (k.processTable currentPid).isSome)) :
    ∃ pageTable, (switchTo c currentPid t).run locked k =
      .done (.task t pageTable) locked (makeCurrent c t k) := by
  obtain ⟨lt, exists_⟩ := process
  obtain ⟨p, hp⟩ := Option.isSome_iff_exists.mp exists_
  have pid : ((makeCurrent c t k).threads t).pid = (k.threads t).pid := by
    simp [makeCurrent, Kernel.setThread, Kernel.setCpu]
  have found : (if maxProcesses ≤ (k.threads t).pid then none
      else (makeCurrent c t k).processTable (k.threads t).pid) = some p := by
    rw [if_neg (by omega)]
    exact hp
  have page : ∀ (q : Process) {k' : Kernel C}, (pageTableOf (some q) : M C Nat).run locked k' =
      .done q.pageTable locked k' := fun _ _ => rfl
  simp only [switchTo, run_bind, run_modify, Outcome.andThen_done, run_read,
    run_processGetProcessNoLock table, pid, found]
  have decided : ∀ q : Process, ∃ pageTable, (decideSwitch currentPid t (some p) (some q) : M C _).run
      locked (makeCurrent c t k) = .done (.task t pageTable) locked (makeCurrent c t k) := by
    intro q
    unfold decideSwitch
    split
    · exact ⟨_, rfl⟩
    · exact ⟨_, rfl⟩
  split
  · exact decided p
  · rename_i other
    obtain rfl | ⟨below, some_⟩ := current
    · rw [if_neg (by simp)]
      exact ⟨_, rfl⟩
    · have ne : currentPid ≠ minusOne := by
        have : maxProcesses < minusOne := by decide
        omega
      obtain ⟨q, hq⟩ := Option.isSome_iff_exists.mp some_
      have found' : (if maxProcesses ≤ currentPid then none
          else (makeCurrent c t k).processTable currentPid) = some q := by
        rw [if_neg (by omega)]
        exact hq
      rw [if_pos ne]
      simp only [run_bind, run_processGetProcessNoLock table, found', Outcome.andThen_done]
      exact decided q

/-- `scheduler_schedule` that is not skipped stores the current thread and searches the next. -/
lemma run_decideTask {fuel : Nat} {regs : Regs} {o : Option Nat} {k₁ : Kernel C}
    (on : k.schedulerRunning = true ∧ (k.cpus c).preemptCounter = 0)
    (entry : locked .entrySchedulerLock = false) (scheduler : locked .schedulerLock = false)
    (store : storeCurrent c regs k = .ok (o, k₁)) :
    (decideTask c fuel regs).run locked k =
      ((schedulerGetNextTask c fuel (k.cpus c).currentTaskID).run
        (unlockThread (lockScheduler locked) o) k₁).andThen fun r locked k' =>
          (match r with
            | none => pure .idle
            | some t => switchTo c (k.cpus c).currentPid t : M C Decision).run locked k' := by
  have scheduler' : Function.update locked .entrySchedulerLock true .schedulerLock = false := by
    simpa using scheduler
  have stored : (preemptCurrent c regs).run (lockScheduler locked) k =
      .done () (unlockThread (lockScheduler locked) o) k₁ := by
    simp only [preemptCurrent, run_bind, run_perform_ok store, Outcome.andThen_done]
    cases o with
    | none => rfl
    | some t => exact run_unlockSkippreempt
  simp only [decideTask, run_bind, run_read, Outcome.andThen_done, on.1, on.2, Bool.not_true,
    Bool.false_eq_true, ne_eq, not_true, or_self, if_false, run_lockSkippreempt entry,
    run_tryLock_free scheduler']
  rw [show Function.update (Function.update locked .entrySchedulerLock true) .schedulerLock true =
    lockScheduler locked from rfl, stored]
  rfl

/-- Both locks of the scheduler are freed. -/
lemma run_archSchedulerUnlockLocks :
    (archSchedulerUnlockLocks c).run locked k =
      .done () (Function.update (Function.update locked .schedulerLock false)
        .entrySchedulerLock false) k := by
  simp only [archSchedulerUnlockLocks, run_bind, run_unlockSkippreempt, Outcome.andThen_done]

end Schedule

end Alone

end WivOS.Tasking
