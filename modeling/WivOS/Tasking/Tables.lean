import WivOS.Tasking.Alone

/-!
# The tables of processes, threads and tasks

What holds of `ProcessTable`, of the threads of each process and of `ActiveTasks` whatever is created
and added: an entry names the index under which it stands, and the tasks fill the first
`TotalActiveTasks` slots. `scheduler_schedule` changes none of this.
-/

namespace WivOS.Tasking
open WivOS.Lib.LockProg WivOS.Lib.LockProg.Prog WivOS.Vmm

/-- The tables agree with the numbers in their entries. -/
structure Tables {C : Type} (k : Kernel C) : Prop where
  process : ∀ {pid process}, k.processTable pid = some process → process.pid = pid
  thread : ∀ {pid process tid t}, k.processTable pid = some process →
    process.threads tid = .thread t →
    t < k.nextThread ∧ (k.threads t).pid = pid ∧ (k.threads t).tid = tid
  total : k.totalActiveTasks ≤ maxThreads * 2
  task : ∀ {i}, i < k.totalActiveTasks →
    ∃ t < k.nextThread, k.activeTasks i = .thread t ∧ (k.threads t).taskID = i
  null : ∀ {i}, k.totalActiveTasks ≤ i → k.activeTasks i = .null
  listed : ∀ {t}, t < k.nextThread → (k.threads t).taskID ≠ minusOne →
    k.activeTasks (k.threads t).taskID = .thread t

/-- The tables and the numbers of the threads are the same. -/
structure SameTables {C : Type} (k k' : Kernel C) : Prop where
  processTable : k'.processTable = k.processTable
  activeTasks : k'.activeTasks = k.activeTasks
  totalActiveTasks : k'.totalActiveTasks = k.totalActiveTasks
  nextThread : k'.nextThread = k.nextThread
  taskID : ∀ t, (k'.threads t).taskID = (k.threads t).taskID
  pid : ∀ t, (k'.threads t).pid = (k.threads t).pid
  tid : ∀ t, (k'.threads t).tid = (k.threads t).tid

section Tables
variable {C : Type} {cfg : Config C} {k k' k'' : Kernel C}

/-- The tables of a kernel are its own. -/
lemma SameTables.refl : SameTables k k := ⟨rfl, rfl, rfl, rfl, fun _ => rfl, fun _ => rfl, fun _ => rfl⟩

/-- Two changes that leave the tables. -/
lemma SameTables.trans (h : SameTables k k') (h' : SameTables k' k'') : SameTables k k'' where
  processTable := h'.processTable.trans h.processTable
  activeTasks := h'.activeTasks.trans h.activeTasks
  totalActiveTasks := h'.totalActiveTasks.trans h.totalActiveTasks
  nextThread := h'.nextThread.trans h.nextThread
  taskID t := (h'.taskID t).trans (h.taskID t)
  pid t := (h'.pid t).trans (h.pid t)
  tid t := (h'.tid t).trans (h.tid t)

/-- The tables are right whatever else changes. -/
lemma Tables.congr (ht : Tables k) (h : SameTables k k') : Tables k' where
  process hp := ht.process (h.processTable ▸ hp)
  thread hp hi := by
    rw [h.processTable] at hp
    rw [h.nextThread, h.pid, h.tid]
    exact ht.thread hp hi
  total := by
    rw [h.totalActiveTasks]
    exact ht.total
  task hi := by
    rw [h.totalActiveTasks] at hi
    obtain ⟨t, ht, hi, hid⟩ := ht.task hi
    exact ⟨t, h.nextThread ▸ ht, h.activeTasks ▸ hi, by rw [h.taskID, hid]⟩
  null hi := by
    rw [h.totalActiveTasks] at hi
    rw [h.activeTasks]
    exact ht.null hi
  listed hn hid := by
    rw [h.taskID] at hid
    rw [h.taskID, h.activeTasks]
    exact ht.listed (h.nextThread ▸ hn) hid

/-- A slot with a thread is one of the first, and the thread has its number. -/
lemma Tables.of_slot {i t : Nat} (ht : Tables k) (h : k.activeTasks i = .thread t) :
    i < k.totalActiveTasks ∧ t < k.nextThread ∧ (k.threads t).taskID = i := by
  have hi : i < k.totalActiveTasks := by
    by_contra hc
    rw [ht.null (Nat.le_of_not_lt hc)] at h
    cases h
  obtain ⟨t', hn, h', hid⟩ := ht.task hi
  rw [h'] at h
  cases h
  exact ⟨hi, hn, hid⟩

/-- The number of a task is not -1. -/
lemma Tables.ne_minusOne {i : Nat} (ht : Tables k) (hi : i < k.totalActiveTasks) : i ≠ minusOne := by
  have := ht.total
  have : maxThreads * 2 < minusOne := by decide
  omega

section Same
variable [DecidableEq C] {c : C}

/-- Changing a CPU leaves them. -/
lemma SameTables.setCpu {f : Cpu → Cpu} : SameTables k (k.setCpu c f) :=
  ⟨rfl, rfl, rfl, rfl, fun _ => rfl, fun _ => rfl, fun _ => rfl⟩

omit [DecidableEq C] in
/-- So does changing a thread, but for its task, `pid` and `tid`. -/
lemma SameTables.setThread {t : Nat} {f : Thread → Thread}
    (taskID : ∀ thread, (f thread).taskID = thread.taskID)
    (pid : ∀ thread, (f thread).pid = thread.pid) (tid : ∀ thread, (f thread).tid = thread.tid) :
    SameTables k (k.setThread t f) := by
  refine ⟨rfl, rfl, rfl, rfl, fun t' => ?_, fun t' => ?_, fun t' => ?_⟩ <;>
    by_cases h : t' = t <;> simp [Kernel.setThread, h, taskID, pid, tid]

omit [DecidableEq C] in
/-- Storing the registers leaves the tables and the CPUs. -/
lemma storeCurrent_ok {regs : Regs} {o : Option Nat} (h : storeCurrent c regs k = .ok (o, k')) :
    SameTables k k' ∧ k'.cpus = k.cpus := by
  unfold storeCurrent at h
  dsimp only at h
  split at h
  · cases h
    exact ⟨.refl, rfl⟩
  · split at h
    · cases h
    · cases h
      exact ⟨.setThread (fun _ => rfl) (fun _ => rfl) (fun _ => rfl), rfl⟩
    · cases h
      exact ⟨.refl, rfl⟩

/-- Making a thread current leaves the tables. -/
lemma SameTables.makeCurrent {t : Nat} : SameTables k (makeCurrent c t k) := by
  unfold Tasking.makeCurrent
  exact SameTables.setCpu.trans (.setThread (fun _ => rfl) (fun _ => rfl) (fun _ => rfl))

end Same

/-- What a table holds after an entry was written. -/
lemma update_some {α : Type} {table : Nat → Option α} {i j : Nat} {a b : α}
    (h : Function.update table i (some a) j = some b) :
    (j = i ∧ b = a) ∨ (j ≠ i ∧ table j = some b) := by
  by_cases hj : j = i
  · subst hj
    rw [Function.update_self, Option.some.injEq] at h
    exact .inl ⟨rfl, h.symm⟩
  · rw [Function.update_of_ne hj] at h
    exact .inr ⟨hj, h⟩

/-- A process more in the table. -/
lemma Tables.newProcess (ht : Tables k) (pageTable : Nat) : Tables (newProcess pageTable k).2 := by
  unfold Tasking.newProcess
  split
  · exact ht
  · refine { ht with process := ?_, thread := ?_ }
    · intro pid' process hp
      obtain ⟨rfl, rfl⟩ | ⟨_, hp⟩ := update_some hp
      · rfl
      · exact ht.process hp
    · intro pid' process tid t hp hi
      obtain ⟨rfl, rfl⟩ | ⟨_, hp⟩ := update_some hp
      · cases hi
      · exact ht.thread hp hi

/-- Mapping a stack changes the memory only. -/
lemma mapStack_ok {pageTable tid : Nat} (h : mapStack cfg pageTable tid k = .ok k') :
    ∃ m pages, k' = { k with mem := m, stackPages := pages } := by
  have alloc : ∃ m pages, (pmmAllocStack k).2 = { k with mem := m, stackPages := pages } := by
    unfold pmmAllocStack
    split
    · exact ⟨_, _, rfl⟩
    · exact ⟨_, _, rfl⟩
  obtain ⟨m, pages, alloc⟩ := alloc
  unfold mapStack at h
  dsimp only at h
  split at h
  · cases h
  · split at h
    · cases h
      exact ⟨_, pages, by rw [alloc]⟩
    · cases h
    · cases h

/-- The saved stack pointer is the one that was set. -/
lemma archThreadSetStack_sp {stack : Nat} {thread : Thread} :
    (archThreadSetStack stack thread).savedRegs .sp = stack := by
  simp [archThreadSetStack]

/-- What the body of `thread_create` makes of the kernel: a thread more, which is not a task. -/
lemma newThread_ok {pid entry arg r : Nat} (h : newThread cfg pid entry arg k = .ok (r, k')) :
    (r = minusOne ∧ k' = k) ∨
    ∃ process thread m pages, k.processTable pid = some process ∧ process.freeTid = some r ∧
      thread.pid = pid ∧ thread.tid = r ∧ thread.taskID = minusOne ∧
      thread.kstackAddress = cfg.kstack k.nextThread + kstackSize ∧
      thread.savedRegs .sp =
        (if pid = 0 then cfg.kstack k.nextThread + kstackSize else stackBottom r + stackSize) ∧
      k' = { k with
        nextThread := k.nextThread + 1
        threads := Function.update k.threads k.nextThread thread
        processTable := Function.update k.processTable pid
          (some { process with threads := Function.update process.threads r (.thread k.nextThread) })
        mem := m
        stackPages := pages } := by
  unfold newThread at h
  split at h
  · cases h
  · rename_i process hp
    split at h
    · cases h
      exact .inl ⟨rfl, rfl⟩
    · rename_i tid htid
      dsimp only at h
      split at h
      · cases h
      · rename_i k₁ hm
        have mapped : ∃ m pages, k₁ = { k with mem := m, stackPages := pages } := by
          split at hm
          · cases hm
            exact ⟨k.mem, k.stackPages, rfl⟩
          · exact mapStack_ok hm
        obtain ⟨m, pages, rfl⟩ := mapped
        cases h
        exact .inr ⟨process, _, m, pages, hp, htid, rfl, rfl, rfl, rfl, archThreadSetStack_sp, rfl⟩

/-- A thread more in the table of its process. -/
lemma Tables.newThread {pid entry arg r : Nat} (ht : Tables k)
    (h : newThread cfg pid entry arg k = .ok (r, k')) : Tables k' := by
  obtain ⟨_, rfl⟩ | ⟨process, thread, m, pages, hp, _, pid_eq, tid_eq, task_eq, _, _, rfl⟩ :=
    newThread_ok h
  · exact ht
  · have old : ∀ {t}, t < k.nextThread →
        Function.update k.threads k.nextThread thread t = k.threads t :=
      fun h => Function.update_of_ne (by omega) ..
    refine ⟨?_, ?_, ht.total, ?_, ht.null, ?_⟩
    · intro pid' process' hp'
      obtain ⟨rfl, rfl⟩ | ⟨_, hp'⟩ := update_some hp'
      · have hpid := ht.process hp
        exact hpid
      · exact ht.process hp'
    · intro pid' process' tid t hp' hi
      have kept : ∀ {process'}, k.processTable pid' = some process' →
          process'.threads tid = .thread t → t < k.nextThread + 1 ∧
            (Function.update k.threads k.nextThread thread t).pid = pid' ∧
            (Function.update k.threads k.nextThread thread t).tid = tid := by
        intro process' hp' hi
        obtain ⟨hn, h₁, h₂⟩ := ht.thread hp' hi
        rw [old hn]
        exact ⟨Nat.lt_succ_of_lt hn, h₁, h₂⟩
      obtain ⟨rfl, rfl⟩ | ⟨_, hp'⟩ := update_some hp'
      · by_cases htid : tid = r
        · subst htid
          simp only [Function.update_self, Slot.thread.injEq] at hi
          subst hi
          simp only [Function.update_self]
          exact ⟨Nat.lt_succ_self _, pid_eq, tid_eq⟩
        · exact kept hp (by simpa only [Function.update_of_ne htid] using hi)
      · exact kept hp' hi
    · intro i hi
      obtain ⟨t, hn, h₁, h₂⟩ := ht.task hi
      refine ⟨t, Nat.lt_succ_of_lt hn, h₁, ?_⟩
      dsimp only
      rw [old hn, h₂]
    · intro t hn hid
      dsimp only at hn hid ⊢
      by_cases h : t = k.nextThread
      · subst h
        simp only [Function.update_self] at hid
        exact absurd task_eq hid
      · have hn' : t < k.nextThread := by omega
        rw [old hn'] at hid ⊢
        exact ht.listed hn' hid

/-- The first slot that is free is the one after the tasks. -/
lemma Tables.freeTask_eq {i : Nat} (ht : Tables k) (h : k.freeTask = some i) :
    i = k.totalActiveTasks ∧ i < maxThreads * 2 := by
  obtain ⟨hi, hmem, before⟩ := List.find?_range_eq_some.mp h
  have hlt := List.mem_range.mp hmem
  refine ⟨?_, hlt⟩
  rcases Nat.lt_trichotomy i k.totalActiveTasks with hc | hc | hc
  · obtain ⟨t, _, h', _⟩ := ht.task hc
    simp [h'] at hi
  · exact hc
  · have := before _ hc
    simp [ht.null (Nat.le_refl _)] at this

/-- A thread that is no task is added after the others, or the table is full. -/
lemma Tables.addTask_eq {t r : Nat} (ht : Tables k) (h : addTask t k = (r, k')) :
    (r = minusOne ∧ k' = k) ∨
    (r = k.totalActiveTasks ∧ k.totalActiveTasks < maxThreads * 2 ∧
      k' = { k with
        threads := Function.update k.threads t { k.threads t with taskID := k.totalActiveTasks }
        activeTasks := Function.update k.activeTasks k.totalActiveTasks (.thread t)
        totalActiveTasks := k.totalActiveTasks + 1 }) := by
  unfold addTask at h
  split at h
  · cases h
    exact .inl ⟨rfl, rfl⟩
  · rename_i i hi
    obtain ⟨rfl, hlt⟩ := ht.freeTask_eq hi
    cases h
    exact .inr ⟨rfl, hlt, rfl⟩

/-- A task more in the table. -/
lemma Tables.addTask {t r : Nat} (ht : Tables k) (hn : t < k.nextThread)
    (hid : (k.threads t).taskID = minusOne) (h : addTask t k = (r, k')) : Tables k' := by
  obtain ⟨_, rfl⟩ | ⟨_, hlt, rfl⟩ := ht.addTask_eq h
  · exact ht
  · -- the numbers of the other threads are the same
    have other : ∀ t', t' ≠ t → Function.update k.threads t
        { k.threads t with taskID := k.totalActiveTasks } t' = k.threads t' :=
      fun t' h => Function.update_of_ne h ..
    refine ⟨ht.process, ?_, hlt, ?_, ?_, ?_⟩
    · intro pid process tid t' hp hi
      obtain ⟨hn', h₁, h₂⟩ := ht.thread hp hi
      refine ⟨hn', ?_⟩
      dsimp only
      by_cases h : t' = t
      · subst h
        simpa using ⟨h₁, h₂⟩
      · rw [other t' h]
        exact ⟨h₁, h₂⟩
    · intro i hi
      dsimp only at hi ⊢
      by_cases h : i = k.totalActiveTasks
      · subst h
        exact ⟨t, hn, Function.update_self .., by simp⟩
      · have hi' : i < k.totalActiveTasks := by omega
        obtain ⟨t', hn', h', hid'⟩ := ht.task hi'
        have hne : t' ≠ t := by
          rintro rfl
          exact ht.ne_minusOne hi' (hid'.symm.trans hid)
        refine ⟨t', hn', ?_, ?_⟩
        · rw [← h']
          exact Function.update_of_ne h ..
        · rw [other t' hne, hid']
    · intro i hi
      dsimp only at hi ⊢
      have h' := ht.null (i := i) (by omega)
      rw [← h']
      exact Function.update_of_ne (by omega) ..
    · intro t' hn' hid'
      dsimp only at hn' hid' ⊢
      by_cases h : t' = t
      · subst h
        simp
      · rw [other t' h] at hid' ⊢
        have listed := ht.listed hn' hid'
        have hlt' := (ht.of_slot listed).1
        rw [← listed]
        exact Function.update_of_ne (by omega) ..

end Tables

end WivOS.Tasking
