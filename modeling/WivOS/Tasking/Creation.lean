import WivOS.Tasking.Tables

/-!
# Creating processes, threads and tasks

Runs of `process_create`, `thread_create` and `scheduler_add_task` from empty tables, by any CPUs in any
order. `ProcessTable`, the threads of the processes and `ActiveTasks` agree with the numbers in their
entries in every state (`tables_consistent`), and a call that returns -1 changes none of them.
-/

namespace WivOS.Tasking
open WivOS.Lib.LockProg WivOS.Lib.LockProg.Prog

variable {C : Type} [DecidableEq C]

/-- The process table and the task table are cleared. -/
def clearTables (c : C) : M C Unit := do
  processInitProcessTable c
  modify fun k => { k with activeTasks := fun _ => .null }

/-- A call that returns `r`, on a process that exists and a `tid` inside its table. -/
inductive CreateStep (cfg : Config C) (locked : Lock → Bool) (k : Kernel C) (r : Nat)
    (locked' : Lock → Bool) (k' : Kernel C) : Prop where
  | process {c pageTable} :
      (processCreate c pageTable).run locked k = .done r locked' k' →
      CreateStep cfg locked k r locked' k'
  | thread {c pid entry arg} : k.processTable pid ≠ none →
      (threadCreate cfg c pid entry arg).run locked k = .done r locked' k' →
      CreateStep cfg locked k r locked' k'
  | task {c pid tid} : k.processTable pid ≠ none → tid < maxThreads →
      (schedulerAddTask c pid tid).run locked k = .done r locked' k' →
      CreateStep cfg locked k r locked' k'

/-- The states of the runs from cleared tables on, before which nothing was created. -/
inductive Created (cfg : Config C) : (Lock → Bool) → Kernel C → Prop where
  | init {k₀ c locked k} : k₀.totalActiveTasks = 0 → k₀.nextThread = 0 →
      (clearTables c).run (fun _ => false) k₀ = .done () locked k → Created cfg locked k
  | step {locked k r locked' k'} : Created cfg locked k → CreateStep cfg locked k r locked' k' →
      Created cfg locked' k'

section Created
variable {cfg : Config C} {c : C} {k k' : Kernel C} {locked locked' : Lock → Bool} {r : Nat}

/-- No thread was deleted. -/
def Undeleted (k : Kernel C) : Prop :=
  ∀ pid process tid, k.processTable pid = some process → process.threads tid ≠ .deleted

/-- Clearing the tables takes no lock that it keeps. -/
lemma run_clearTables :
    (clearTables c).run (fun _ => false) k =
      .done () (fun _ => false)
        { k with processTable := fun _ => none, activeTasks := fun _ => .null } := by
  simp only [clearTables, run_bind, run_processInitProcessTable, Outcome.andThen_done, run_modify]

omit [DecidableEq C] in
/-- A process that is created is the first without a number, and has no threads. -/
lemma newProcess_eq (pageTable : Nat) (k : Kernel C) :
    newProcess pageTable k = (minusOne, k) ∨
    ∃ pid < maxProcesses, newProcess pageTable k = (pid, { k with
      processTable := Function.update k.processTable pid (some ⟨pid, pageTable, fun _ => .null⟩) }) := by
  unfold newProcess
  cases h : k.freePid with
  | none => exact .inl rfl
  | some pid =>
    have hmem := (List.find?_range_eq_some.mp h).2.1
    exact .inr ⟨pid, List.mem_range.mp hmem, rfl⟩

omit [DecidableEq C] in
/-- A new process deletes nothing. -/
lemma Undeleted.newProcess (h : Undeleted k) (pageTable : Nat) :
    Undeleted (newProcess pageTable k).2 := by
  obtain e | ⟨pid, _, e⟩ := newProcess_eq pageTable k
  · rw [e]
    exact h
  · rw [e]
    intro pid' process tid hp
    obtain ⟨rfl, rfl⟩ | ⟨_, hp⟩ := update_some hp
    · simp
    · exact h pid' process tid hp

omit [DecidableEq C] in
/-- Nor does a new thread. -/
lemma Undeleted.newThread {pid entry arg : Nat} (h : Undeleted k)
    (e : newThread cfg pid entry arg k = .ok (r, k')) : Undeleted k' := by
  obtain ⟨_, rfl⟩ | ⟨process, _, _, _, hp, _, _, _, _, _, _, rfl⟩ := newThread_ok e
  · exact h
  · intro pid' process' tid hp'
    obtain ⟨rfl, rfl⟩ | ⟨_, hp'⟩ := update_some hp'
    · by_cases htid : tid = r
      · subst htid
        simp
      · dsimp only
        rw [Function.update_of_ne htid]
        exact h pid' process tid hp
    · exact h pid' process' tid hp'

/-- Every call keeps the tables, and changes nothing if it returns -1. -/
lemma CreateStep.tables (e : CreateStep cfg locked k r locked' k') (quiet : locked .processLock = false)
    (ht : Tables k) (hu : Undeleted k) :
    locked' = locked ∧ Tables k' ∧ Undeleted k' ∧ (r = minusOne → k' = k) := by
  cases e with
  | @process c pageTable run =>
    rw [run_processCreate quiet] at run
    simp only [Outcome.done.injEq] at run
    obtain ⟨rfl, rfl, rfl⟩ := run
    refine ⟨rfl, ht.newProcess pageTable, hu.newProcess pageTable, fun failed => ?_⟩
    obtain e | ⟨pid, hpid, e⟩ := newProcess_eq pageTable k
    · rw [e]
    · rw [e] at failed
      have : maxProcesses < minusOne := by decide
      dsimp only at failed
      omega
  | thread exists_ run =>
    obtain ⟨rfl, rfl | e⟩ := threadCreate_done quiet run
    · exact ⟨rfl, ht, hu, fun _ => rfl⟩
    · refine ⟨rfl, ht.newThread e, hu.newThread e, fun failed => ?_⟩
      obtain ⟨_, rfl⟩ | ⟨process, _, _, _, _, free, _⟩ := newThread_ok e
      · rfl
      · have hmem := List.mem_range.mp (List.find?_range_eq_some.mp free).2.1
        have : maxThreads < minusOne := by decide
        omega
  | task exists_ inside run =>
    obtain ⟨rfl, rfl | ⟨process, t, hp, hslot, hid, e, _⟩⟩ := schedulerAddTask_done quiet run
    · exact ⟨rfl, ht, hu, fun _ => rfl⟩
    · have hn := (ht.thread hp hslot).1
      refine ⟨rfl, ht.addTask hn hid e, ?_, fun failed => ?_⟩
      · obtain ⟨_, rfl⟩ | ⟨_, _, rfl⟩ := ht.addTask_eq e
        · exact hu
        · exact hu
      · obtain ⟨_, rfl⟩ | ⟨hr, hlt, _⟩ := ht.addTask_eq e
        · rfl
        · have : maxThreads * 2 < minusOne := by decide
          omega

/-- Between the calls no lock is held and the tables are right. -/
lemma Created.tables (h : Created cfg locked k) :
    locked = (fun _ => false) ∧ Tables k ∧ Undeleted k := by
  induction h with
  | @init k₀ c locked k total next run =>
    rw [run_clearTables] at run
    simp only [Outcome.done.injEq, true_and] at run
    obtain ⟨rfl, rfl⟩ := run
    refine ⟨rfl, ⟨?_, ?_, ?_, ?_, ?_, ?_⟩, ?_⟩
    all_goals simp [total, next, Undeleted]
  | step _ e ih =>
    obtain ⟨rfl, ht, hu⟩ := ih
    obtain ⟨rfl, ht', hu', _⟩ := e.tables rfl ht hu
    exact ⟨rfl, ht', hu'⟩

end Created

/-- In every state of a run of creations: the entries of the tables have the numbers of their places; a
thread is in `ActiveTasks` at most once, and exactly when its `taskID` is not -1; the tasks are the first
`TotalActiveTasks` entries; and a call that returns -1 changes nothing. -/
theorem tables_consistent {cfg : Config C} {locked : Lock → Bool} {k : Kernel C}
    (h : Created cfg locked k) :
    (∀ pid process, k.processTable pid = some process → process.pid = pid) ∧
    (∀ pid process tid, k.processTable pid = some process → process.threads tid ≠ .null →
      ∃ t < k.nextThread, process.threads tid = .thread t ∧
        (k.threads t).pid = pid ∧ (k.threads t).tid = tid) ∧
    (∀ i, k.activeTasks i ≠ .null →
      ∃ t < k.nextThread, k.activeTasks i = .thread t ∧ (k.threads t).taskID = i) ∧
    (∀ t < k.nextThread, ((k.threads t).taskID ≠ minusOne ↔ ∃ i, k.activeTasks i = .thread t) ∧
      ∀ i j, k.activeTasks i = .thread t → k.activeTasks j = .thread t → i = j) ∧
    (k.totalActiveTasks ≤ maxThreads * 2 ∧ ∀ i, k.activeTasks i ≠ .null ↔ i < k.totalActiveTasks) ∧
    (∀ locked' k', CreateStep cfg locked k minusOne locked' k' → k' = k) := by
  obtain ⟨rfl, ht, hu⟩ := h.tables
  have filled : ∀ i, k.activeTasks i ≠ .null ↔ i < k.totalActiveTasks := by
    intro i
    constructor
    · intro hi
      by_contra hc
      exact hi (ht.null (Nat.le_of_not_lt hc))
    · intro hi
      obtain ⟨t, _, slot, _⟩ := ht.task hi
      simp [slot]
  refine ⟨fun pid process => ht.process, ?_, ?_, ?_, ⟨ht.total, filled⟩, ?_⟩
  · intro pid process tid hp hslot
    cases slot : process.threads tid with
    | null => exact absurd slot hslot
    | deleted => exact absurd slot (hu pid process tid hp)
    | thread t =>
      obtain ⟨hn, h₁, h₂⟩ := ht.thread hp slot
      exact ⟨t, hn, rfl, h₁, h₂⟩
  · intro i hi
    exact ht.task ((filled i).mp hi)
  · intro t hn
    refine ⟨⟨fun hid => ⟨_, ht.listed hn hid⟩, ?_⟩, ?_⟩
    · rintro ⟨i, hi⟩
      obtain ⟨hlt, _, hid⟩ := ht.of_slot hi
      rw [hid]
      exact ht.ne_minusOne hlt
    · intro i j hi hj
      rw [← (ht.of_slot hi).2.2, ← (ht.of_slot hj).2.2]
  · intro locked' k' e
    exact (e.tables rfl ht hu).2.2.2 rfl

/-- The kernel's process, in tables that were cleared. -/
def kernelProcess : Kernel (Fin 1) :=
  (newProcess 0x1000
    { Kernel.boot (Fin 1) with processTable := fun _ => none, activeTasks := fun _ => .null }).2

/-- The kernel's process is the first one created. -/
lemma created_kernelProcess : Created (.flat 1) (fun _ => false) kernelProcess :=
  .step (.init rfl rfl (run_clearTables (c := 0))) (.process (run_processCreate (c := 0) rfl))

set_option maxRecDepth 2048 in
/-- Two threads of the kernel's process, of which the second one is added to the tasks; there is no third
one to add. -/
theorem tables_consistent_secondThread :
    ∃ (locked : Lock → Bool) (k : Kernel (Fin 1)), Created (.flat 1) locked k ∧ k.nextThread = 2 ∧
      (∃ t < k.nextThread, k.activeTasks 0 = .thread t ∧ (k.threads t).taskID = 0) ∧
      (¬ ∃ i, k.activeTasks i = .thread 0) ∧
      CreateStep (.flat 1) locked k minusOne locked k ∧
      ∀ locked' k', CreateStep (.flat 1) locked k minusOne locked' k' → k' = k := by
  obtain ⟨p, k₁, p₁, k₂, p₂, found, create₁, found₁, create₂, found₂, slot, new, p₃, found₃, refused, next,
    idle, active⟩ :
      ∃ p k₁ p₁ k₂ p₂, kernelProcess.processTable 0 = some p ∧
        newThread (.flat 1) 0 0 0 kernelProcess = .ok (0, k₁) ∧ k₁.processTable 0 = some p₁ ∧
        newThread (.flat 1) 0 0 0 k₁ = .ok (1, k₂) ∧ k₂.processTable 0 = some p₂ ∧
        p₂.threads 1 = .thread 1 ∧ (k₂.threads 1).taskID = minusOne ∧
        ∃ p₃, (addTask 1 k₂).2.processTable 0 = some p₃ ∧
          taskToAdd 0 2 (addTask 1 k₂).2 = .ok (none, (addTask 1 k₂).2) ∧
          (addTask 1 k₂).2.nextThread = 2 ∧ ((addTask 1 k₂).2.threads 0).taskID = minusOne ∧
          (addTask 1 k₂).2.activeTasks 0 = .thread 1 :=
    ⟨_, _, _, _, _, rfl, rfl, rfl, rfl, rfl, rfl, rfl, _, rfl, rfl, rfl, rfl, rfl⟩
  have first : Created (.flat 1) (fun _ => false) k₁ := created_kernelProcess.step
    (.thread (c := 0) (by rw [found]; simp) (run_threadCreate (by decide) rfl rfl found create₁))
  have second : Created (.flat 1) (fun _ => false) k₂ := first.step
    (.thread (c := 0) (by rw [found₁]; simp) (run_threadCreate (by decide) rfl rfl found₁ create₂))
  have added : Created (.flat 1) (fun _ => false) (addTask 1 k₂).2 := second.step
    (.task (c := 0) (by rw [found₂]; simp) (by decide)
      (run_schedulerAddTask (by decide) rfl rfl found₂ (by decide) slot new rfl))
  have none_ : CreateStep (.flat 1) (fun _ => false) (addTask 1 k₂).2 minusOne _ (addTask 1 k₂).2 :=
    .task (c := 0) (by rw [found₃]; simp) (by decide)
      (run_schedulerAddTask_refused (by decide) rfl rfl found₃ refused)
  obtain ⟨-, -, tasks, listed, -, unchanged⟩ := tables_consistent added
  refine ⟨_, _, added, next, ?_, ?_, none_, unchanged⟩
  · obtain ⟨t, lt, at_, id⟩ := tasks 0 (by rw [active]; simp)
    exact ⟨t, lt, at_, id⟩
  · rintro ⟨i, at_⟩
    exact (listed 0 (by omega)).1.mpr ⟨i, at_⟩ idle

end WivOS.Tasking
