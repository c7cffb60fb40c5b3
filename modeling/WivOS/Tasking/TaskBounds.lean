import WivOS.Lib.LockSafe
import WivOS.Tasking.LockOrder
import WivOS.Tasking.Creation
import WivOS.Tasking.Ownership
import WivOS.Tasking.NextTask

/-!
# The bounds of the task table

Any number of CPUs, each executing calls of `scheduler_schedule`, `scheduler_add_task`,
`thread_create` and `process_create`, with every operation on a lock as one step. `Bounded` says that
the numbers of tasks are indices of `ActiveTasks`. It holds in every state of every run, but
`scheduler_get_next_task` adds one to such a number before it looks: from the last slot on it looks
behind the table (`last_task_faults`). In runs where no CPU is preempted while it executes the task of
the last slot, every access is inside (`tasks_inside`).
-/

namespace WivOS.Tasking
open WivOS.Lib.LockProg WivOS.Lib.LockProg.Prog WivOS.Lib.LockProg.Sys

variable {C : Type}

/-- The number is -1 or an index of `ActiveTasks`. -/
def TaskNumber (i : Nat) : Prop := i = minusOne ∨ i < maxThreads * 2

/-- The tables name threads that there are, and the numbers of tasks are indices of `ActiveTasks`. -/
structure Bounded (k : Kernel C) : Prop where
  slots : ∀ {i t}, k.activeTasks i = .thread t → t < k.nextThread
  threads : ∀ {pid process tid t}, k.processTable pid = some process →
    process.threads tid = .thread t → t < k.nextThread
  taskID : ∀ {t}, t < k.nextThread → TaskNumber (k.threads t).taskID
  current : ∀ c, TaskNumber (k.cpus c).currentTaskID

/-- What the others do while a CPU executes a call. -/
structure Others (c : C) (k k' : Kernel C) : Prop where
  cpu : k'.cpus c = k.cpus c
  running : k'.schedulerRunning = k.schedulerRunning
  next : k.nextThread ≤ k'.nextThread

/-- What a CPU does while it executes a call. -/
structure Own (c : C) (k k' : Kernel C) : Prop where
  cpus : ∀ c', c' ≠ c → k'.cpus c' = k.cpus c'
  running : k'.schedulerRunning = k.schedulerRunning
  next : k.nextThread ≤ k'.nextThread

/-- The call is one of `scheduler_schedule`. -/
def Call.isSchedule : Call → Bool
  | schedule _ _ => true
  | _ => false

/-- `scheduler_schedule` looks at no slot behind the table. -/
def taskContract (c : C) (call : Call) : Contract (Kernel C) Fault where
  inv := Bounded
  rely := Others c
  guarantee := Own c
  bad e := call.isSchedule = true ∧ e = .outOfBounds

/-- What the lock functions leave as it is. -/
structure Near (c : C) (k k' : Kernel C) : Prop where
  current : (k'.cpus c).currentTaskID = (k.cpus c).currentTaskID
  next : k.nextThread ≤ k'.nextThread

section Bounded
variable {cfg : Config C} {k k' k'' : Kernel C} {c : C}

/-- What one CPU guarantees is what the others rely on. -/
lemma taskContract_fit : Fit (taskContract (C := C)) Bounded where
  inv_eq _ _ := rfl
  refl _ _ _ := ⟨rfl, rfl, le_rfl⟩
  trans _ _ _ _ _ h₁ h₂ := ⟨h₂.cpu.trans h₁.cpu, h₂.running.trans h₁.running, h₁.next.trans h₂.next⟩
  others hc h := ⟨h.cpus _ hc, h.running, h.next⟩

/-- Changing nothing. -/
lemma Own.refl : Own c k k := ⟨fun _ _ => rfl, rfl, le_rfl⟩

/-- Leaving everything. -/
lemma Near.refl : Near c k k := ⟨rfl, le_rfl⟩

/-- Two changes after each other. -/
lemma Near.trans (h : Near c k k') (h' : Near c k' k'') : Near c k k'' :=
  ⟨h'.current.trans h.current, h.next.trans h'.next⟩

/-- The others leave as much as a lock function does. -/
lemma Others.near (h : Others c k k') : Near c k k' := ⟨by rw [h.cpu], h.next⟩

/-- Threads and tables stay, and the numbers of CPUs stay numbers of tasks. -/
lemma Bounded.congr (h : Bounded k) (same : SameTables k k')
    (current : ∀ c, TaskNumber (k'.cpus c).currentTaskID) : Bounded k' where
  slots hs := by
    rw [same.activeTasks] at hs
    rw [same.nextThread]
    exact h.slots hs
  threads hp ht := by
    rw [same.processTable] at hp
    rw [same.nextThread]
    exact h.threads hp ht
  taskID ht := by
    rw [same.nextThread] at ht
    rw [same.taskID]
    exact h.taskID ht
  current := current

/-- A new process has no threads. -/
lemma Bounded.newProcess (h : Bounded k) (pageTable : Nat) : Bounded (newProcess pageTable k).2 := by
  obtain e | ⟨pid, _, e⟩ := newProcess_eq pageTable k
  · rw [e]
    exact h
  · rw [e]
    refine { h with threads := ?_ }
    intro pid' process tid t hp ht
    obtain ⟨rfl, rfl⟩ | ⟨_, hp⟩ := update_some hp
    · cases ht
    · exact h.threads hp ht

/-- A new thread is in the tables, and leaves CPUs and scheduler. -/
lemma Bounded.newThread {pid entry arg r : Nat} (h : Bounded k)
    (e : newThread cfg pid entry arg k = .ok (r, k')) :
    Bounded k' ∧ k'.cpus = k.cpus ∧ k'.schedulerRunning = k.schedulerRunning ∧
      k.nextThread ≤ k'.nextThread := by
  obtain ⟨_, rfl⟩ | ⟨process, thread, m, pages, hp, _, _, _, task, _, _, rfl⟩ := newThread_ok e
  · exact ⟨h, rfl, rfl, le_rfl⟩
  · refine ⟨⟨?_, ?_, ?_, h.current⟩, rfl, rfl, Nat.le_succ _⟩
    · intro i t hs
      exact Nat.lt_succ_of_lt (h.slots hs)
    · intro pid' process' tid t hp' ht
      obtain ⟨rfl, rfl⟩ | ⟨_, hp'⟩ := update_some hp'
      · by_cases htid : tid = r
        · subst htid
          simp only [Function.update_self, Slot.thread.injEq] at ht
          subst ht
          exact Nat.lt_succ_self _
        · simp only [Function.update_of_ne htid] at ht
          exact Nat.lt_succ_of_lt (h.threads hp ht)
      · exact Nat.lt_succ_of_lt (h.threads hp' ht)
    · intro t ht
      dsimp only at ht ⊢
      by_cases hn : t = k.nextThread
      · subst hn
        rw [Function.update_self, task]
        exact .inl rfl
      · rw [Function.update_of_ne hn]
        exact h.taskID (by omega)

/-- A thread that there is becomes a task, which leaves CPUs and scheduler. -/
lemma Bounded.addTask {t : Nat} (h : Bounded k) (ht : t < k.nextThread) :
    Bounded (addTask t k).2 ∧ (addTask t k).2.cpus = k.cpus ∧
      (addTask t k).2.schedulerRunning = k.schedulerRunning ∧
      (addTask t k).2.nextThread = k.nextThread := by
  unfold Tasking.addTask
  split
  · exact ⟨h, rfl, rfl, rfl⟩
  · rename_i i hi
    have lt := List.mem_range.mp (List.find?_range_eq_some.mp hi).2.1
    refine ⟨⟨?_, h.threads, ?_, h.current⟩, rfl, rfl, rfl⟩
    · intro j t' hs
      dsimp only at hs ⊢
      by_cases hj : j = i
      · subst hj
        rw [Function.update_self, Slot.thread.injEq] at hs
        subst hs
        exact ht
      · rw [Function.update_of_ne hj] at hs
        exact h.slots hs
    · intro t' ht'
      dsimp only [Kernel.setThread] at ht' ⊢
      by_cases heq : t' = t
      · subst heq
        rw [Function.update_self]
        exact .inr lt
      · rw [Function.update_of_ne heq]
        exact h.taskID ht'

end Bounded

section Keeps
variable [DecidableEq C] {cfg : Config C} {k k' : Kernel C} {c : C} {call : Call} {l : Lock}

/-- A CPU may change if its task is in the table. -/
lemma Bounded.setCpu {f : Cpu → Cpu} (h : Bounded k)
    (current : TaskNumber (f (k.cpus c)).currentTaskID) : Bounded (k.setCpu c f) := by
  refine h.congr .setCpu fun c' => ?_
  by_cases hc : c' = c
  · subst hc
    simpa [Kernel.setCpu] using current
  · simpa [Kernel.setCpu, hc] using h.current c'

/-- A CPU changes itself only. -/
lemma Own.setCpu {f : Cpu → Cpu} : Own c k (k.setCpu c f) :=
  ⟨fun c' hc => by simp [Kernel.setCpu, hc], rfl, le_rfl⟩

/-- A lock function changes the counter. -/
lemma Near.addPreempt {d : BitVec 64} : Near c k (k.addPreempt c d) :=
  ⟨by simp [Kernel.addPreempt, Kernel.setCpu], le_rfl⟩

/-- A CPU changes itself, and its task stays in the table. -/
lemma keeps_setCpu {f : Cpu → Cpu} {Q : Unit → Kernel C → Prop}
    (current : ∀ cpu, TaskNumber cpu.currentTaskID → TaskNumber (f cpu).currentTaskID)
    (h : ∀ k', Others c k k' → Q () (k'.setCpu c f)) :
    (modify fun k : Kernel C => k.setCpu c f : M C Unit).Keeps (taskContract c call) Q k :=
  keeps_modify fun k' others inv => ⟨inv.setCpu (current _ (inv.current c)), .setCpu, h k' others⟩

/-- It changes its counter. -/
lemma keeps_addPreempt {d : BitVec 64} {Q : Unit → Kernel C → Prop}
    (h : ∀ k', Near c k k' → Q () k') :
    (modify (Kernel.addPreempt c d) : M C Unit).Keeps (taskContract c call) Q k :=
  keeps_setCpu (fun _ => id) fun _ others => h _ (others.near.trans .addPreempt)

/-- `spinlock_lock` keeps the bounds. -/
lemma keeps_lock {Q : Unit → Kernel C → Prop} (h : ∀ k', Near c k k' → Q () k') :
    (spinlockLock c l : M C Unit).Keeps (taskContract c call) Q k := by
  rw [spinlockLock, keeps_bind]
  exact keeps_acquire (keeps_addPreempt h)

/-- So does `spinlock_unlock`. -/
lemma keeps_unlock {Q : Unit → Kernel C → Prop} (h : ∀ k', Near c k k' → Q () k') :
    (spinlockUnlock c l : M C Unit).Keeps (taskContract c call) Q k := by
  rw [spinlockUnlock, keeps_bind]
  exact keeps_release (keeps_addPreempt h)

/-- So does the macro that locks. -/
lemma keeps_lockSkippreempt {Q : Unit → Kernel C → Prop} (h : ∀ k', Near c k k' → Q () k') :
    (spinlockLockSkippreempt c l : M C Unit).Keeps (taskContract c call) Q k := by
  rw [spinlockLockSkippreempt, keeps_bind]
  exact keeps_lock fun k₁ near₁ => keeps_addPreempt fun k₂ near₂ => h k₂ (near₁.trans near₂)

/-- So does the macro that unlocks. -/
lemma keeps_unlockSkippreempt {Q : Unit → Kernel C → Prop} (h : ∀ k', Near c k k' → Q () k') :
    (spinlockUnlockSkippreempt c l : M C Unit).Keeps (taskContract c call) Q k := by
  rw [spinlockUnlockSkippreempt, keeps_bind]
  exact keeps_addPreempt fun k₁ near₁ => keeps_unlock fun k₂ near₂ => h k₂ (near₁.trans near₂)

/-- So does the macro that tries, however it ends. -/
lemma keeps_tryLockSkippreempt {Q : Bool → Kernel C → Prop} (h : ∀ taken k', Near c k k' → Q taken k') :
    (spinlockTryLockSkippreempt c l : M C Bool).Keeps (taskContract c call) Q k := by
  simp only [spinlockTryLockSkippreempt, spinlockTryLock, keeps_bind]
  refine keeps_attempt fun taken => ?_
  cases taken with
  | true => exact h true k .refl
  | false =>
    refine keeps_addPreempt fun k₁ near₁ => ?_
    exact keeps_addPreempt fun k₂ near₂ => h false k₂ (near₁.trans near₂)

omit [DecidableEq C] in
/-- A read, of a kernel that the others have left bounded. -/
lemma keeps_read_near {α : Type} {f : Kernel C → α} {Q : α → Kernel C → Prop}
    (h : ∀ k', Others c k k' → Bounded k' → Q (f k') k') :
    (read f : M C α).Keeps (taskContract c call) Q k :=
  keeps_read (fun _ => .refl) h

/-- `process_get_process_no_lock` keeps the bounds. -/
lemma keeps_processGetProcessNoLock {pid : Nat} {Q : Option Process → Kernel C → Prop}
    (h : ∀ process k', Q process k') :
    (processGetProcessNoLock c pid : M C _).Keeps (taskContract c call) Q k := by
  unfold processGetProcessNoLock
  split
  · exact h none k
  · simp only [keeps_bind]
    exact keeps_lock fun _ _ => keeps_read_near fun _ _ _ => keeps_unlock fun _ _ => h _ _

/-- So does `process_get_process`. -/
lemma keeps_processGetProcess {pid : Nat} {Q : Option Nat → Kernel C → Prop}
    (bad : ¬ call.isSchedule = true) (h : ∀ r k', Q r k') :
    (processGetProcess c pid : M C _).Keeps (taskContract c call) Q k := by
  unfold processGetProcess
  split
  · exact h none k
  · simp only [keeps_bind]
    refine keeps_lock fun _ _ => keeps_perform (fun _ _ _ _ _ e => bad e.1) fun k' _ k'' _ inv e => ?_
    split at e
    · cases e
      exact ⟨inv, .refl, keeps_lock fun _ _ => keeps_unlock fun _ _ => h _ _⟩
    · cases e

/-- The search looks inside the table, if it begins there, and finds a thread that there is. -/
lemma keeps_nextTaskLoop {fuel i currentTask : Nat} {Q : Option Nat → Kernel C → Prop}
    (lt : currentTask < maxThreads * 2) (none_ : ∀ k', Q none k')
    (some_ : ∀ t k', t < k'.nextThread → Q (some t) k') :
    (nextTaskLoop c fuel i currentTask : M C _).Keeps (taskContract c call) Q k := by
  have ok : ∀ (k' : Kernel C) {j}, j < maxThreads * 2 → k'.activeTask j = .ok (k'.activeTasks j) :=
    fun _ _ hj => if_pos hj
  have zero : 0 < maxThreads * 2 := by decide
  induction fuel generalizing i currentTask k with
  | zero =>
    refine keeps_perform (fun _ _ _ _ e bad => ?_) fun _ _ _ _ _ e => ?_
    · cases e
      cases bad.2
    · cases e
  | succ fuel ih =>
    simp only [nextTaskLoop, keeps_bind]
    refine keeps_read_near fun k₁ _ _ => ?_
    split
    · exact none_ k₁
    · simp only [keeps_bind]
      have found : ∀ k' : Kernel C, ∃ slot j, k'.taskFrom currentTask = .ok (slot, j) := by
        intro k'
        unfold Kernel.taskFrom
        rw [ok k' lt]
        cases k'.activeTasks currentTask with
        | null => exact ⟨k'.activeTasks 0, 0, by rw [ok k' zero]; rfl⟩
        | deleted => exact ⟨_, _, rfl⟩
        | thread t => exact ⟨_, _, rfl⟩
      refine keeps_perform (fun k₂ e _ _ eq => ?_) fun k₂ r k₃ _ inv eq => ?_
      · obtain ⟨slot, j, look⟩ := found k₂
        rw [look] at eq
        cases eq
      · obtain ⟨slot, j, look⟩ := found k₂
        rw [look] at eq
        cases eq
        obtain ⟨inside, at_⟩ := taskFrom_ok look
        refine ⟨inv, .refl, ?_⟩
        have next : (if j + 1 = maxThreads * 2 then 0 else j + 1) < maxThreads * 2 := by
          split <;> omega
        cases slot with
        | null => exact none_ k₂
        | deleted => exact ih next
        | thread t =>
          have ht := inv.slots at_
          rw [keeps_bind]
          refine keeps_tryLockSkippreempt fun taken k₃ near => ?_
          cases taken with
          | true => exact ih next
          | false => exact some_ t k₃ (ht.trans_le near.next)

omit [DecidableEq C] in
/-- A thread may change but for its task, `pid` and `tid`. -/
lemma Bounded.setThread {t : Nat} {f : Thread → Thread} (h : Bounded k)
    (taskID : ∀ thread, (f thread).taskID = thread.taskID)
    (pid : ∀ thread, (f thread).pid = thread.pid) (tid : ∀ thread, (f thread).tid = thread.tid) :
    Bounded (k.setThread t f) :=
  h.congr (.setThread taskID pid tid) h.current

omit [DecidableEq C] in
/-- Storing the registers does not stop the scheduler. -/
lemma storeCurrent_running {regs : Regs} {o : Option Nat} (h : storeCurrent c regs k = .ok (o, k')) :
    k'.schedulerRunning = k.schedulerRunning := by
  unfold storeCurrent at h
  dsimp only at h
  split at h
  · cases h
    rfl
  · split at h
    · cases h
    · cases h
      rfl
    · cases h
      rfl

/-- The slot of the CPU's own task is inside the table. -/
lemma keeps_preemptCurrent {regs : Regs} {Q : Unit → Kernel C → Prop} (h : ∀ k', Q () k') :
    (preemptCurrent c regs : M C _).Keeps (taskContract c call) Q k := by
  rw [preemptCurrent, keeps_bind]
  refine keeps_perform (fun k₁ e _ inv eq bad => ?_) fun k₁ o k₂ _ inv eq => ?_
  · unfold storeCurrent at eq
    dsimp only at eq
    split at eq
    · cases eq
    · rename_i hc
      have inside := (inv.current c).resolve_left hc
      rw [show k₁.activeTask (k₁.cpus c).currentTaskID = .ok _ from if_pos inside] at eq
      split at eq <;> cases eq
      rename_i look
      cases look
  · obtain ⟨same, cpus⟩ := storeCurrent_ok eq
    have own : Own c k₁ k₂ :=
      ⟨fun c' _ => by rw [cpus], storeCurrent_running eq, same.nextThread.ge⟩
    refine ⟨inv.congr same fun c' => by rw [cpus]; exact inv.current c', own, ?_⟩
    cases o with
    | none => exact h k₂
    | some t => exact keeps_unlockSkippreempt fun _ _ => h _

omit [DecidableEq C] in
/-- Reading the page table keeps the bounds. -/
lemma keeps_pageTableOf {process : Option Process} {Q : Nat → Kernel C → Prop} (h : ∀ r k', Q r k') :
    (pageTableOf process : M C _).Keeps (taskContract c call) Q k := by
  unfold pageTableOf
  refine keeps_perform (fun k₁ e _ _ eq bad => ?_) fun k₁ r k₂ _ inv eq => ?_
  · cases process with
    | none =>
      cases eq
      cases bad.2
    | some process => cases eq
  · cases process with
    | none => cases eq
    | some process =>
      cases eq
      exact ⟨inv, .refl, h _ _⟩

omit [DecidableEq C] in
/-- So does the end of `scheduler_schedule`. -/
lemma keeps_decideSwitch {currentPid t : Nat} {process currentProcess : Option Process}
    {Q : Decision → Kernel C → Prop} (h : ∀ d k', Q d k') :
    (decideSwitch currentPid t process currentProcess : M C _).Keeps (taskContract c call) Q k := by
  unfold decideSwitch
  split
  · rw [keeps_bind]
    exact keeps_pageTableOf fun _ _ => h _ _
  · rw [keeps_bind]
    refine keeps_pageTableOf fun _ _ => ?_
    rw [keeps_bind]
    exact keeps_pageTableOf fun _ _ => h _ _

/-- The number of a thread's task is in the table. -/
lemma Bounded.makeCurrent {t : Nat} (h : Bounded k) (ht : t < k.nextThread) :
    Bounded (makeCurrent c t k) := by
  unfold Tasking.makeCurrent
  exact (h.setCpu (h.taskID ht)).setThread (fun _ => rfl) (fun _ => rfl) fun _ => rfl

/-- Making a thread current changes the CPU itself only. -/
lemma Own.makeCurrent {t : Nat} : Own c k (makeCurrent c t k) :=
  ⟨fun c' hc => by simp [Tasking.makeCurrent, Kernel.setThread, Kernel.setCpu, hc], rfl, le_rfl⟩

/-- A thread that there is has a number that is -1 or an index. -/
lemma keeps_switchTo {currentPid t : Nat} {Q : Decision → Kernel C → Prop} (ht : t < k.nextThread)
    (h : ∀ d k', Q d k') :
    (switchTo c currentPid t : M C _).Keeps (taskContract c call) Q k := by
  rw [switchTo, keeps_bind]
  refine keeps_modify fun k₁ others inv => ⟨inv.makeCurrent (ht.trans_le others.next), .makeCurrent, ?_⟩
  rw [keeps_bind]
  refine keeps_read_near fun k₂ _ _ => ?_
  rw [keeps_bind]
  refine keeps_processGetProcessNoLock fun process k₃ => ?_
  split
  · exact keeps_decideSwitch h
  · split
    · rw [keeps_bind]
      exact keeps_processGetProcessNoLock fun _ _ => keeps_decideSwitch h
    · exact keeps_decideSwitch h

/-- Releasing the scheduler's locks keeps the bounds. -/
lemma keeps_archSchedulerUnlockLocks {Q : Unit → Kernel C → Prop} (h : ∀ k', Q () k') :
    (archSchedulerUnlockLocks c : M C _).Keeps (taskContract c call) Q k := by
  rw [archSchedulerUnlockLocks, keeps_bind]
  exact keeps_unlockSkippreempt fun _ _ => keeps_unlockSkippreempt fun _ _ => h _

/-- So does going idle. -/
lemma keeps_archSchedulerIdle {Q : Unit → Kernel C → Prop} (h : ∀ k', Q () k') :
    (archSchedulerIdle cfg c : M C _).Keeps (taskContract c call) Q k := by
  rw [archSchedulerIdle, archSchedulerIdleHalt, keeps_bind]
  refine keeps_setCpu (fun _ => id) fun k₁ _ => ?_
  rw [keeps_bind]
  exact keeps_setCpu (fun _ _ => .inl rfl) fun _ _ => keeps_archSchedulerUnlockLocks h

/-- So does the switch. -/
lemma keeps_archSchedulerSwitchTask {t : Nat} {pageTable : Option Nat} {Q : Unit → Kernel C → Prop}
    (h : ∀ k', Q () k') :
    (archSchedulerSwitchTask cfg c t pageTable : M C _).Keeps (taskContract c call) Q k := by
  rw [archSchedulerSwitchTask, keeps_bind]
  refine keeps_modify fun k₁ _ inv => ⟨?_, ?_, ?_⟩
  · have tp := inv.setThread (t := t)
      (f := fun thread => { thread with savedRegs := Function.update thread.savedRegs .tp (cfg.cpuStruct c) })
      (fun _ => rfl) (fun _ => rfl) fun _ => rfl
    cases pageTable with
    | none => exact tp
    | some entries =>
      exact tp.setCpu (f := fun cpu => { cpu with satp := riscvVmmCreateSatp cfg entries })
        (tp.current c)
  · cases pageTable with
    | none => exact ⟨fun _ _ => rfl, rfl, le_rfl⟩
    | some entries =>
      exact ⟨fun c' hc => by simp [prepareSwitch, Kernel.setCpu, Kernel.setThread, hc], rfl, le_rfl⟩
  · rw [keeps_bind]
    exact keeps_archSchedulerUnlockLocks fun k₂ => keeps_modify fun k₃ _ inv =>
      ⟨inv.setCpu (inv.current c), .setCpu, h _⟩

/-- `scheduler_schedule` up to its decision, where it is not skipped on a CPU that executes the task of
the last slot. -/
lemma keeps_decideTask {fuel : Nat} {regs : Regs} {Q : Decision → Kernel C → Prop}
    (may : k.schedulerRunning = true → (k.cpus c).preemptCounter = 0 →
      (k.cpus c).currentTaskID + 1 ≠ maxThreads * 2) (h : ∀ d k', Q d k') :
    (decideTask c fuel regs).Keeps (taskContract c call) Q k := by
  rw [decideTask, keeps_bind]
  refine keeps_read_near fun k₁ others inv => ?_
  dsimp only
  split
  · exact h .skip k₁
  · rename_i on
    simp only [Bool.not_eq_eq_eq_not, Bool.not_true, ne_eq, not_or, Bool.not_eq_false, not_not] at on
    have last : (k₁.cpus c).currentTaskID + 1 ≠ maxThreads * 2 := by
      rw [others.cpu]
      exact may (others.running ▸ on.1) (others.cpu ▸ on.2)
    rw [keeps_bind]
    refine keeps_lockSkippreempt fun k₂ near₂ => ?_
    rw [keeps_bind]
    refine keeps_tryLockSkippreempt fun taken k₃ near₃ => ?_
    cases taken with
    | true =>
      rw [if_pos rfl, keeps_bind]
      exact keeps_unlockSkippreempt fun k₄ _ => h .skip k₄
    | false =>
      rw [if_neg (by simp), keeps_bind]
      refine keeps_read_near fun k₄ others₄ inv₄ => ?_
      have current : ((k₄.cpus c).currentTaskID + 1) % 2 ^ 64 < maxThreads * 2 := by
        rw [others₄.cpu, near₃.current, near₂.current]
        obtain eq | lt := inv.current c
        · rw [eq]
          decide
        · have : maxThreads * 2 < 2 ^ 64 := by decide
          rw [Nat.mod_eq_of_lt (by omega)]
          omega
      rw [keeps_bind]
      refine keeps_preemptCurrent fun k₅ => ?_
      rw [keeps_bind]
      refine keeps_nextTaskLoop current (fun k₆ => h .idle k₆) fun t k₆ ht => ?_
      exact keeps_switchTo ht h

/-- So does all of `scheduler_schedule`, unless the task is the last one of the table. -/
lemma keeps_schedulerSchedule {fuel : Nat} {regs : Regs}
    (may : k.schedulerRunning = true → (k.cpus c).preemptCounter = 0 →
      (k.cpus c).currentTaskID + 1 ≠ maxThreads * 2) :
    (schedulerSchedule cfg c fuel regs).Keeps (taskContract c call) (fun _ _ => True) k := by
  rw [schedulerSchedule, keeps_bind]
  refine keeps_decideTask may fun d k' => ?_
  cases d with
  | skip => exact keeps_pure trivial
  | idle => exact keeps_archSchedulerIdle fun _ => trivial
  | task t pageTable => exact keeps_archSchedulerSwitchTask fun _ => trivial

section Creations
variable (other : ¬ call.isSchedule = true)
include other

/-- So does `thread_create`. -/
lemma keeps_threadCreate {pid entry arg : Nat} {Q : Nat → Kernel C → Prop} (h : ∀ r k', Q r k') :
    (threadCreate cfg c pid entry arg : M C _).Keeps (taskContract c call) Q k := by
  rw [threadCreate, keeps_bind]
  refine keeps_processGetProcess other fun r k₁ => ?_
  cases r with
  | none => exact keeps_pure (h _ _)
  | some process =>
    simp only [keeps_bind]
    refine keeps_perform (fun _ _ _ _ _ bad => other bad.1) fun k₂ tid k₃ _ inv e => ?_
    obtain ⟨inv', cpus, running, next⟩ := inv.newThread e
    exact ⟨inv', ⟨fun c' _ => by rw [cpus], running, next⟩, keeps_unlock fun _ _ => h _ _⟩

/-- So does `scheduler_add_task`. -/
lemma keeps_schedulerAddTask {pid tid : Nat} {Q : Nat → Kernel C → Prop} (h : ∀ r k', Q r k') :
    (schedulerAddTask c pid tid : M C _).Keeps (taskContract c call) Q k := by
  rw [schedulerAddTask, keeps_bind]
  refine keeps_processGetProcess other fun r k₁ => ?_
  cases r with
  | none => exact keeps_pure (h _ _)
  | some process =>
    simp only [keeps_bind]
    refine keeps_perform (fun _ _ _ _ _ bad => other bad.1) fun k₂ o k₃ _ inv e => ?_
    obtain ⟨rfl, found⟩ := taskToAdd_ok e
    refine ⟨inv, .refl, ?_⟩
    cases o with
    | none =>
      simp only [keeps_bind]
      exact keeps_unlock fun _ _ => h _ _
    | some t =>
      obtain ⟨_, hp, slot, _⟩ := found t rfl
      have ht := inv.threads hp slot
      simp only [keeps_bind]
      refine keeps_lock fun k₄ near => keeps_commit fun k₅ others inv => ?_
      obtain ⟨inv', cpus, running, next⟩ :=
        inv.addTask (ht.trans_le (near.next.trans others.next))
      exact ⟨inv', ⟨fun c' _ => by rw [cpus], running, next.ge⟩,
        keeps_unlock fun _ _ => keeps_unlock fun _ _ => h _ _⟩

omit other in
/-- So does `process_create`. -/
lemma keeps_processCreate {pageTable : Nat} {Q : Nat → Kernel C → Prop} (h : ∀ r k', Q r k') :
    (processCreate c pageTable : M C _).Keeps (taskContract c call) Q k := by
  simp only [processCreate, keeps_bind]
  refine keeps_lock fun k₁ _ => keeps_commit fun k₂ _ inv => ?_
  have own : Own c k₂ (newProcess pageTable k₂).2 := by
    obtain e | ⟨_, _, e⟩ := newProcess_eq pageTable k₂
    · rw [e]
      exact .refl
    · rw [e]
      exact ⟨fun _ _ => rfl, rfl, le_rfl⟩
  exact ⟨inv.newProcess pageTable, own, keeps_unlock fun _ _ => h _ _⟩

end Creations

end Keeps

section Runs
variable [DecidableEq C]

/-- After `scheduler_init`. -/
def Started (cfg : Config C) (k : Kernel C) : Prop :=
  ∃ k₀ c firstTask locked, Machine.Boot k₀ ∧
    (schedulerInit cfg c firstTask).run (fun _ => false) k₀ = .done () locked k

/-- The states of the runs after `scheduler_init`, where a call begins only if `may` allows it. -/
def TaskRuns (cfg : Config C) (may : Kernel C → C → Call → Prop) : Cpus C → Prop :=
  Runs (fun c (call : Call) => call.body cfg c) (Started cfg) may

/-- No `scheduler_schedule` that is not skipped begins on a CPU that executes the task of the last
slot. -/
def NotFromLast (k : Kernel C) (c : C) (call : Call) : Prop :=
  call.isSchedule = true → k.schedulerRunning = true → (k.cpus c).preemptCounter = 0 →
    (k.cpus c).currentTaskID + 1 ≠ maxThreads * 2

/-- Slots behind the table are not changed, and make no difference. -/
structure InsideTable (f : Kernel C → Nat × Kernel C) : Prop where
  writes : ∀ k i, maxThreads * 2 ≤ i → (f k).2.activeTasks i = k.activeTasks i
  reads : ∀ k slots, (∀ i < maxThreads * 2, slots i = k.activeTasks i) →
    (f { k with activeTasks := slots }).1 = (f k).1 ∧
    ∀ i < maxThreads * 2, (f { k with activeTasks := slots }).2.activeTasks i = (f k).2.activeTasks i

/-- No access to `ActiveTasks` is behind its end: none by which a CPU goes on in `scheduler_schedule`,
and none of `scheduler_add_task`. -/
structure TasksInside (s : Cpus C) : Prop where
  schedule : ∀ c fuel regs, ¬ Fails s c (.schedule fuel regs) .outOfBounds
  add : ∀ t, InsideTable (addTask t : Kernel C → Nat × Kernel C)

/-- After `scheduler_init` the bounds hold. -/
lemma Started.bounded {cfg : Config C} {k : Kernel C} (h : Started cfg k) : Bounded k := by
  obtain ⟨k₀, c, firstTask, locked, boot, run⟩ := h
  obtain ⟨_, cpus, stored, owned⟩ := Machine.schedulerInit_done boot run
  have total := owned.tables.total
  refine ⟨?_, ?_, ?_, ?_⟩
  · intro i t hs
    exact (owned.tables.of_slot hs).2.1
  · intro pid process tid t hp ht
    exact (owned.tables.thread hp ht).1
  · intro t ht
    by_cases hid : (k.threads t).taskID = minusOne
    · exact .inl hid
    · exact .inr ((owned.tables.of_slot (owned.tables.listed ht hid)).1.trans_le total)
  · intro c
    rw [cpus, boot.2.2 c]
    exact .inl rfl

omit [DecidableEq C] in
/-- Adding a task touches no slot behind the table. -/
lemma addTask_inside (t : Nat) : InsideTable (addTask t : Kernel C → Nat × Kernel C) := by
  have same : ∀ (k : Kernel C) slots, (∀ i < maxThreads * 2, slots i = k.activeTasks i) →
      Kernel.freeTask { k with activeTasks := slots } = k.freeTask := by
    intro k slots h
    unfold Kernel.freeTask
    refine List.find?_congr ?_
    intro i hi
    simp only [h i (List.mem_range.mp hi)]
  refine ⟨?_, ?_⟩
  · intro k i hi
    unfold addTask
    split
    · rfl
    · rename_i j hj
      have lt := List.mem_range.mp (List.find?_range_eq_some.mp hj).2.1
      exact Function.update_of_ne (by omega) ..
  · intro k slots h
    unfold addTask
    rw [same k slots h]
    cases k.freeTask with
    | none => exact ⟨rfl, h⟩
    | some j =>
      refine ⟨rfl, fun i hi => ?_⟩
      dsimp only
      by_cases hij : i = j
      · subst hij
        rw [Function.update_self, Function.update_self]
      · rw [Function.update_of_ne hij, Function.update_of_ne hij, h i hi]

/-- In every run after `scheduler_init`, on any number of CPUs, where no `scheduler_schedule` that is
not skipped begins on a CPU that executes the task of the last slot: every access to `ActiveTasks` is
below its end. -/
theorem tasks_inside {cfg : Config C} {s : Cpus C} (h : TaskRuns cfg NotFromLast s) :
    TasksInside s := by
  have keeps := Runs.keeps taskContract_fit h (fun k => Started.bounded) (by
    intro k c call inv may
    cases call with
    | schedule fuel regs => exact keeps_schedulerSchedule (may rfl)
    | addTask pid tid =>
      simp only [Call.body, keeps_bind]
      exact keeps_schedulerAddTask (by simp [Call.isSchedule]) fun _ _ => trivial
    | createThread pid entry arg =>
      simp only [Call.body, keeps_bind]
      exact keeps_threadCreate (by simp [Call.isSchedule]) fun _ _ => trivial
    | createProcess pageTable =>
      simp only [Call.body, keeps_bind]
      exact keeps_processCreate fun _ _ => trivial)
  exact ⟨fun c fuel regs fails => keeps.2 c _ _ fails ⟨rfl, rfl⟩, addTask_inside⟩

end Runs

/-- No call has begun after `scheduler_init`. -/
def idleStart (n : Nat) [NeZero n] : Cpus (Fin n) :=
  ⟨fun _ => none, (Machine.started n).kernel, fun _ => none⟩

/-- A run begins after `scheduler_init`. -/
lemma idleStart_runs (n : Nat) [NeZero n] {may : Kernel (Fin n) → Fin n → Call → Prop}
    (h : ((schedulerInit (.flat n) 0 0).run (fun _ => false) (.boot (Fin n))).isDone = true) :
    TaskRuns (.flat n) may (idleStart n) := by
  obtain ⟨_, run⟩ := Outcome.exists_done h (.boot (Fin n))
  have boot : Machine.Boot (.boot (Fin n)) := ⟨rfl, rfl, fun _ => rfl⟩
  refine .idle ⟨fun _ => rfl, fun _ => rfl⟩ ⟨.boot (Fin n), 0, 0, (Machine.started n).locked, boot, ?_⟩
  simp only [idleStart, Machine.started]
  exact run

/-- CPU 1 goes from no task to the first one. -/
theorem tasks_inside_firstTask :
    ∃ s : Cpus (Fin 2), TaskRuns (.flat 2) NotFromLast s ∧ (s.data.cpus 1).currentTaskID = 0 ∧
      TasksInside s := by
  obtain ⟨o, run, done, task⟩ : ∃ o,
      ((Call.schedule 4 fun _ => 0).body (.flat 2) 1).run (taken (idleStart 2)) (idleStart 2).data = o ∧
      o.isDone = true ∧ ((o.state (.boot (Fin 2))).cpus 1).currentTaskID = 0 :=
    ⟨_, rfl, by decide +kernel⟩
  obtain ⟨_, step⟩ := Outcome.exists_done done (.boot (Fin 2))
  have allowed : NotFromLast (idleStart 2).data 1 (.schedule 4 fun _ => 0) := by
    intro _ _ _
    decide +kernel
  obtain ⟨s, runs, _, data, _⟩ := Runs.done (idleStart_runs 2 (by decide +kernel)) rfl allowed (run.trans step)
  exact ⟨s, runs, by rw [data, task], tasks_inside runs⟩

end WivOS.Tasking
